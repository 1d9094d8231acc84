import Holdem.Engine.Chips
import Holdem.Engine.Streets

/-!
The setup of a hand, phase by phase. Each phase has a lemma that says all it can change, and
`startHand_ok` puts the phases together.
-/

namespace Holdem

/-- `q` is `p` with other debts; a wait for the big blind may end but does not begin. -/
def Player.Rearranged (p q : Player) : Prop :=
  ∃ owesBb owesSb wait, q = { p with owesBb, owesSb, waitForBb := p.waitForBb && wait }

theorem Player.rearranged_refl (p : Player) : p.Rearranged p := ⟨p.owesBb, p.owesSb, true, by simp⟩

theorem Player.rearranged_trans {p q r : Player} (first : p.Rearranged q) (second : q.Rearranged r) :
    p.Rearranged r := by
  obtain ⟨_, _, wait, rfl⟩ := first
  obtain ⟨bb, sb, wait', rfl⟩ := second
  exact ⟨bb, sb, wait && wait', by simp [Bool.and_assoc]⟩

namespace Engine

variable {n : ℕ} {e e' e'' : Engine n} {i : Fin n} {straddleFn : Option (Fin n → Bool)} {deck : List Card}

open Method

/-- All that `_advance_positions` can change. -/
structure Rearranges (e e' : Engine n) : Prop where
  players : ∀ i, (e.players i).Rearranged (e'.players i)
  rest : ∃ button bbSeat sbSeat, e' = { e with players := e'.players, button, bbSeat, sbSeat }

theorem rearranges_refl (e : Engine n) : e.Rearranges e :=
  ⟨fun _ => Player.rearranged_refl _, e.button, e.bbSeat, e.sbSeat, rfl⟩

theorem rearranges_trans (first : e.Rearranges e') (second : e'.Rearranges e'') : e.Rearranges e'' := by
  refine ⟨fun i => Player.rearranged_trans (first.players i) (second.players i), ?_⟩
  obtain ⟨_, _, _, eq⟩ := first.rest
  obtain ⟨button, bb, sb, eq'⟩ := second.rest
  exact ⟨button, bb, sb, by rw [eq', eq]⟩

theorem rearranges_seats (e : Engine n) (button : Fin n) (bbSeat sbSeat : Option (Fin n)) :
    e.Rearranges { e with button, bbSeat, sbSeat } :=
  ⟨fun _ => Player.rearranged_refl _, button, bbSeat, sbSeat, rfl⟩

theorem rearranges_update {f : Player → Player} (h : (e.players i).Rearranged (f (e.players i))) :
    e.Rearranges (e.update i f) := by
  refine ⟨fun j => ?_, e.button, e.bbSeat, e.sbSeat, rfl⟩
  by_cases other : j = i
  · subst other
    rwa [update_same]
  rw [update_other _ _ other]
  exact Player.rearranged_refl _

theorem rearranges_owing (e : Engine n) (skipped : List (Fin n)) : e.Rearranges (e.owing skipped) := by
  refine ⟨fun i => ?_, e.button, e.bbSeat, e.sbSeat, rfl⟩
  simp only [owing]
  split
  · exact ⟨true, (e.players i).owesSb, true, by simp⟩
  exact Player.rearranged_refl _

theorem rearranges_moveBigBlind (e : Engine n) (prevBb bb : Fin n) : e.Rearranges (e.moveBigBlind prevBb bb) :=
  rearranges_trans (rearranges_owing e _) (rearranges_trans
    (rearranges_update (i := bb) ⟨false, false, false, by simp⟩) (rearranges_seats _ _ _ _))

theorem rearranges_deadSmallBlind (e : Engine n) (i : Fin n) : e.Rearranges (e.deadSmallBlind i) := by
  unfold deadSmallBlind
  split
  · exact rearranges_update ⟨(e.players i).owesBb, true, true, by simp⟩
  exact rearranges_refl e

theorem rearranges_trailPositions (e : Engine n) (prevBb bb : Fin n) (prevSb : Option (Fin n)) :
    e.Rearranges (e.trailPositions prevBb bb prevSb) := by
  unfold trailPositions
  split
  · exact rearranges_seats e _ _ _
  exact rearranges_trans (rearranges_seats e _ _ _) (rearranges_deadSmallBlind _ _)

theorem advancePositions_rearranges (e : Engine n) : e.Rearranges (after (advancePositions e)) := by
  unfold advancePositions
  split
  · unfold firstPositions
    split
    · exact rearranges_refl e
    split <;> exact rearranges_seats e _ _ _
  unfold movePositions
  split
  · exact rearranges_trans (rearranges_owing e _) (rearranges_seats _ _ _ _)
  exact rearranges_trans (rearranges_moveBigBlind e _ _) (rearranges_trailPositions _ _ _ _)

theorem rearranges_of_ok {u : Unit} (h : advancePositions e = .ok u e') : e.Rearranges e' := by
  have := advancePositions_rearranges e
  rwa [h] at this

theorem rearranges_dealt (h : e.Rearranges e') (dealt : e.dealt (e.players i) = true) :
    e'.dealt (e'.players i) = true := by
  obtain ⟨_, _, _, eq⟩ := h.rest
  obtain ⟨_, _, wait, same⟩ := h.players i
  have sitting : e'.dealSittingOut = e.dealSittingOut := by rw [eq]
  rw [same]
  simp only [Engine.dealt, blindEligible, sitting, Bool.and_eq_true, Bool.not_eq_true'] at dealt ⊢
  obtain ⟨eligible, waits⟩ := dealt
  refine ⟨eligible, ?_⟩
  obtain free | posts := Bool.and_eq_false_iff.mp waits
  · simp [free]
  simp [posts]

theorem pays_postSmallBlind (e : Engine n) (sbSeat : Fin n) : e.Pays (e.postSmallBlind sbSeat) := by
  unfold postSmallBlind
  split
  · exact pays_post e sbSeat e.sb .sb
  exact pays_refl e

theorem pays_postBigBlind (blind : 0 ≤ e.bb) (bbSeat : Fin n) : e.Pays (e.postBigBlind bbSeat) := by
  have live := pays_post { e with bbI := some bbSeat } bbSeat e.bb .bb
  unfold postBigBlind
  dsimp only
  split
  · exact pays_trans live (pays_postDead blind _ _ _)
  exact live

theorem pays_entryPost (blind : 0 ≤ e.sb) (sbSeat bbSeat i : Fin n) : e.Pays (e.entryPost sbSeat bbSeat i) := by
  have live := pays_post e i e.bb .post
  unfold entryPost
  dsimp only
  split
  · split
    · exact pays_trans live (pays_postDead blind _ _ _)
    exact live
  exact pays_refl e

theorem pays_enter (blind : 0 ≤ e.sb) (sbSeat bbSeat i : Fin n) : e.Pays (enter sbSeat bbSeat e i) :=
  pays_trans (pays_entryPost blind sbSeat bbSeat i) (pays_update (Player.pays_of_same rfl rfl))

theorem pays_enterAll (blind : 0 ≤ e.sb) (sbSeat bbSeat : Fin n) (seats : List (Fin n)) :
    e.Pays (seats.foldl (enter sbSeat bbSeat) e) := by
  induction seats generalizing e with
  | nil => exact pays_refl e
  | cons i rest ih =>
    have same : (enter sbSeat bbSeat e i).sb = e.sb := congrArg Ground.sb (ground_enter sbSeat bbSeat e i)
    exact pays_trans (pays_enter blind sbSeat bbSeat i) (ih (same ▸ blind))

theorem pays_straddle (e : Engine n) (bbSeat : Fin n) (straddleFn : Option (Fin n → Bool)) :
    e.Pays (e.straddle bbSeat straddleFn) := by
  unfold straddle
  split
  · exact pays_post e _ (2 * e.bb) .str
  exact pays_refl e

theorem pays_postForced (small : 0 ≤ e.sb) (big : 0 ≤ e.bb) (sbSeat bbSeat : Fin n) :
    e.Pays (e.postForced sbSeat bbSeat) := by
  have first := ground_postSmallBlind e sbSeat
  have second := ground_postBigBlind (e.postSmallBlind sbSeat) bbSeat
  have bb : (e.postSmallBlind sbSeat).bb = e.bb := congrArg Ground.bb first
  have sb : ((e.postSmallBlind sbSeat).postBigBlind bbSeat).sb = e.sb := congrArg Ground.sb (second.trans first)
  have blinds := pays_trans (pays_postSmallBlind e sbSeat) (pays_postBigBlind (bb ▸ big) bbSeat)
  exact pays_trans blinds (pays_enterAll (sb ▸ small) sbSeat bbSeat e.seated)

theorem pays_postAll (small : 0 ≤ e.sb) (big : 0 ≤ e.bb) (sbSeat bbSeat : Fin n)
    (straddleFn : Option (Fin n → Bool)) : e.Pays (e.postAll sbSeat bbSeat straddleFn) :=
  pays_trans (pays_postForced small big sbSeat bbSeat) (pays_straddle (bringIn _) bbSeat straddleFn)

theorem dealHoles_keeps {P : Engine n → Prop} (one : ∀ i, Keeps P (dealTo i)) : Keeps P dealHoles := by
  refine keeps_bind (m := get) (fun _ h => h) fun s => ?_
  exact keeps_bind (keeps_forM fun i _ => one i) fun _ => keeps_forM fun i _ => one i

theorem dealHoles_pays (e : Engine n) : Keeps (fun s => e.Pays s) (dealHoles : EngineM n Unit) :=
  dealHoles_keeps fun _ => keeps_bind (deal_keeps (fun _ _ h => h) 1) fun _ =>
    keeps_modify fun _ h => pays_trans h (pays_update (Player.pays_of_same rfl rfl))

theorem resetSeats_worth (cleared : e.Cleared) (i : Fin n) : (e.resetSeats.players i).worth = (e.players i).worth := by
  obtain ⟨live, dead⟩ := cleared i
  simp only [Player.worth, resetSeats, resetPlayer, live, dead]

theorem resetSeats_solvent (solvent : (e.players i).Solvent) : (e.resetSeats.players i).Solvent :=
  ⟨solvent.stack, le_refl 0, le_refl 0, le_refl 0⟩

theorem resetSeats_ready (e : Engine n) (i : Fin n) : (e.resetSeats.players i).Ready := by
  intro seated
  have stack : 0 < (e.players i).stack := by
    simp only [resetSeats, resetPlayer, dealt, blindEligible, Bool.and_eq_true, decide_eq_true_eq] at seated
    exact seated.1.1
  exact ⟨le_of_lt stack, fun _ => stack⟩

theorem seated_resetSeats (e : Engine n) : e.resetSeats.seated = e.seatsWhere e.dealt := rfl

theorem rearranges_seated (h : e.Rearranges e') : (e.seatsWhere e.dealt).length ≤ e'.resetSeats.seated.length := by
  rw [seated_resetSeats, seatsWhere, seatsWhere, ← List.countP_eq_length_filter, ← List.countP_eq_length_filter]
  exact List.countP_mono_left fun i _ dealt => rearranges_dealt h dealt

theorem next_returns {pred : Player → Bool} (from' : Fin n) (here : pred (e.players i) = true) :
    ∃ j, e.next from' pred = some j ∧ pred (e.players j) = true := by
  obtain ⟨j, found⟩ := Circle.first_isSome (i := Circle.step from' 1) (p := fun j => pred (e.players j)) here
  exact ⟨j, found, Circle.first_holds found⟩

theorem trailPositions_seats (e : Engine n) (prevBb bb : Fin n) (prevSb : Option (Fin n)) :
    (e.trailPositions prevBb bb prevSb).bbSeat = e.bbSeat ∧
      ∃ sb, (e.trailPositions prevBb bb prevSb).sbSeat = some sb := by
  unfold trailPositions
  split
  · exact ⟨rfl, _, rfl⟩
  unfold deadSmallBlind
  split <;> exact ⟨rfl, _, rfl⟩

theorem advancePositions_returns (dealt : e.dealt (e.players i) = true) :
    ∃ placed sbSeat bbSeat, advancePositions e = .ok () placed ∧ placed.sbSeat = some sbSeat ∧
      placed.bbSeat = some bbSeat := by
  unfold advancePositions
  split
  · obtain ⟨button, found, here⟩ := next_returns e.button dealt
    obtain ⟨second, found2, here2⟩ := next_returns button here
    obtain ⟨third, found3, -⟩ := next_returns second here2
    simp only [firstPositions, found, found2, Option.bind_some, found3]
    split
    · exact ⟨_, button, second, rfl, rfl, rfl⟩
    exact ⟨_, second, third, rfl, rfl, rfl⟩
  rename_i prevBb _
  have eligible : e.blindEligible (e.players i) = true := (Bool.and_eq_true_iff.mp dealt).1
  obtain ⟨bb, found, -⟩ := next_returns prevBb eligible
  obtain ⟨keeps, sb, small⟩ := trailPositions_seats (e.moveBigBlind prevBb bb) prevBb bb e.sbSeat
  exact ⟨_, sb, bb, by simp only [movePositions, found], small, keeps⟩

theorem rearranges_chips (h : e.Rearranges e') (i : Fin n) :
    (e'.players i).worth = (e.players i).worth ∧ ((e.players i).Solvent → (e'.players i).Solvent) := by
  obtain ⟨_, _, _, same⟩ := h.players i
  rw [same]
  exact ⟨rfl, fun h => ⟨h.stack, h.bet, h.totalLive, h.totalDead⟩⟩

def Deals (e e' : Engine n) : Prop :=
  ∃ (deck : List Card) (holes : Fin n → List Card), e' = { e with deck, players := fun i => { e.players i with hole := holes i } }

theorem deals_refl (e : Engine n) : e.Deals e := ⟨e.deck, fun i => (e.players i).hole, rfl⟩

theorem deals_trans (first : e.Deals e') (second : e'.Deals e'') : e.Deals e'' := by
  obtain ⟨_, _, rfl⟩ := first
  obtain ⟨deck, holes, rfl⟩ := second
  exact ⟨deck, holes, rfl⟩

theorem deals_update (e : Engine n) (i : Fin n) (cards : List Card) :
    e.Deals (e.update i fun p => { p with hole := p.hole ++ cards }) := by
  refine ⟨e.deck, fun j => ((e.update i fun p => { p with hole := p.hole ++ cards }).players j).hole, ?_⟩
  have others : ∀ j, (e.update i fun p => { p with hole := p.hole ++ cards }).players j = { e.players j with
      hole := ((e.update i fun p => { p with hole := p.hole ++ cards }).players j).hole } := by
    intro j
    by_cases other : j = i
    · subst other; rw [update_same]
    rw [update_other _ _ other]
  rw [← funext others]
  rfl

theorem dealTo_deals (e : Engine n) (i : Fin n) : Keeps (fun s => e.Deals s) (dealTo i) :=
  keeps_bind (deal_keeps (fun s rest h => deals_trans h ⟨rest, fun j => (s.players j).hole, rfl⟩) 1) fun cards =>
    keeps_modify fun s h => deals_trans h (deals_update s i cards)

theorem dealHoles_deals (e : Engine n) : Keeps (fun s => e.Deals s) (dealHoles : EngineM n Unit) :=
  dealHoles_keeps (dealTo_deals e)

theorem dealTo_distinct (i : Fin n) : Keeps (fun s : Engine n => s.Distinct) (dealTo i) := by
  intro s distinct
  by_cases enough : 1 ≤ s.deck.length
  · obtain ⟨rest, out, cards, length, ran⟩ := deal_returns enough
    obtain ⟨c, rfl⟩ := List.length_eq_one_iff.mp length
    rw [dealTo, bind_of_ok ran]
    intro j
    change (((({ s with deck := rest } : Engine n).update i fun p => { p with hole := p.hole ++ [c] }).players j).hole ++
      (s.board ++ rest)).Nodup
    have held := cards ▸ distinct j
    by_cases other : j = i
    · subst other
      rw [update_same]
      grind [List.nodup_append]
    rw [update_other _ _ other]
    grind [List.nodup_append]
  obtain ⟨x, failed⟩ := deal_fails (Nat.lt_of_not_le enough)
  rw [dealTo, bind_of_error failed]
  exact distinct

theorem dealHoles_distinct : Keeps (fun s : Engine n => s.Distinct) (dealHoles : EngineM n Unit) :=
  dealHoles_keeps dealTo_distinct

def posted (placed : Engine n) (sbSeat bbSeat : Fin n) (straddleFn : Option (Fin n → Bool)) (deck : List Card) :
    Engine n := (placed.resetSeats.newHand deck).postAll sbSeat bbSeat straddleFn

structure Opening (straddleFn : Option (Fin n → Bool)) (deck : List Card) (e s : Engine n) where
  placed : Engine n
  sbSeat : Fin n
  bbSeat : Fin n
  dealt : Engine n
  first : Fin n
  positions : advancePositions e = .ok () placed
  small : placed.sbSeat = some sbSeat
  big : placed.bbSeat = some bbSeat
  seated : 2 ≤ placed.resetSeats.seated.length
  deal : dealHoles (placed.posted sbSeat bbSeat straddleFn deck) = .ok () dealt
  turn : dealt.firstToAct bbSeat = some first
  opened : s = dealt.openRound first

theorem startHand_of_placed {placed : Engine n} {sbSeat bbSeat : Fin n}
    (positions : advancePositions e = .ok () placed) (small : placed.sbSeat = some sbSeat)
    (big : placed.bbSeat = some bbSeat) (seated : 2 ≤ placed.resetSeats.seated.length) :
    startHand straddleFn deck e =
      (do dealHoles; openPreflop bbSeat; return true : EngineM n Bool) (placed.posted sbSeat bbSeat straddleFn deck) := by
  have play : playHand straddleFn deck placed.resetSeats =
      (do dealHoles; openPreflop bbSeat : EngineM n Unit) (placed.posted sbSeat bbSeat straddleFn deck) := by
    have small' : placed.resetSeats.sbSeat = some sbSeat := small
    have big' : placed.resetSeats.bbSeat = some bbSeat := big
    simp only [playHand, small', big', posted]
  rw [startHand, bind_of_ok positions]
  change (if placed.resetSeats.seated.length < 2 then pure false else do
    playHand straddleFn deck; pure true : EngineM n Bool) placed.resetSeats = _
  rw [if_neg (by omega)]
  simp only [bind_apply, play]
  cases dealHoles (placed.posted sbSeat bbSeat straddleFn deck) <;> rfl

theorem startHand_opening {s : Engine n} (h : startHand straddleFn deck e = .ok true s) :
    Nonempty (Opening straddleFn deck e s) := by
  obtain ⟨_, placed, positions, rest⟩ := bind_ok h
  change (if placed.resetSeats.seated.length < 2 then pure false else do
    playHand straddleFn deck; pure true : EngineM n Bool) placed.resetSeats = _ at rest
  split at rest
  · cases rest
  rename_i many
  obtain ⟨_, t, played, rest⟩ := bind_ok rest
  cases rest
  unfold playHand at played
  split at played
  · rename_i sbSeat bbSeat small big
    obtain ⟨_, dealt, deal, opens⟩ := bind_ok played
    unfold openPreflop at opens
    split at opens
    · rename_i first turn
      cases opens
      exact ⟨⟨placed, sbSeat, bbSeat, dealt, first, positions, small, big, by omega, deal, turn, rfl⟩⟩
    cases opens
  · cases played
  cases played

theorem startHand_placed (two : 2 ≤ (e.seatsWhere e.dealt).length) :
    ∃ placed sbSeat bbSeat, advancePositions e = .ok () placed ∧ placed.sbSeat = some sbSeat ∧
      placed.bbSeat = some bbSeat ∧ 2 ≤ placed.resetSeats.seated.length := by
  obtain ⟨i, member⟩ := List.exists_mem_of_length_pos (l := e.seatsWhere e.dealt) (by omega)
  obtain ⟨placed, sb, bb, positions, small, big⟩ := advancePositions_returns (mem_seatsWhere.mp member)
  exact ⟨placed, sb, bb, positions, small, big, le_trans two (rearranges_seated (rearranges_of_ok positions))⟩

end Engine

end Holdem
