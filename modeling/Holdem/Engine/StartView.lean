import Holdem.Engine.View
import Holdem.Engine.Setup

/-!
What a hand starts from. Between hands only `Engine.rest` matters: the limits, the positions, the stacks
and who owes what. Tables equal in it start hands that are equal in view.
-/

namespace Holdem

def Player.rest (p : Player) : Player :=
  { stack := p.stack, sittingOut := p.sittingOut, owesBb := p.owesBb, owesSb := p.owesSb
    waitForBb := p.waitForBb, postEntry := p.postEntry }

namespace Engine

variable {n : ℕ} {e f : Engine n} {i : Fin n} {amount amount' : ℤ} {label : Blind}

open Method

def rest (e : Engine n) : Engine n :=
  { players := fun i => (e.players i).rest
    sb := e.sb, bb := e.bb, bettingStructure := e.bettingStructure, bbAnte := e.bbAnte
    dealSittingOut := e.dealSittingOut, button := e.button, bbSeat := e.bbSeat, sbSeat := e.sbSeat
    minRaise := e.bb }

def Rested (e f : Engine n) : Prop := e.rest = f.rest

theorem Rested.reads {α : Type} (h : Rested e f) (g : Engine n → α) : g e.rest = g f.rest := congrArg g h

theorem rested_update {g : Player → Player} (rests : ∀ p, (g p).rest = g p.rest) (h : Rested e f) :
    Rested (e.update i g) (f.update i g) :=
  shown_update (fun _ _ => rfl) rests h

theorem owing_rest (e : Engine n) (skipped : List (Fin n)) : (e.owing skipped).rest = e.rest.owing skipped :=
  congrArg (fun players => { e.rest with players }) (funext fun _ => apply_ite Player.rest ..)

theorem owing_rested (skipped : List (Fin n)) (h : Rested e f) : Rested (e.owing skipped) (f.owing skipped) := by
  show (e.owing skipped).rest = (f.owing skipped).rest
  rw [owing_rest, owing_rest, h]

theorem firstPositions_rested : Related Rested Rested (firstPositions (n := n)) firstPositions := by
  intro e f h
  have button : e.next e.button e.dealt = f.next f.button f.dealt := h.reads fun v => v.next v.button v.dealt
  have next : ∀ i, e.next i e.dealt = f.next i f.dealt := fun i => h.reads fun v => v.next i v.dealt
  have dealt : e.seatsWhere e.dealt = f.seatsWhere f.dealt := h.reads fun v => v.seatsWhere v.dealt
  unfold firstPositions
  rw [button]
  split
  · exact .error h
  rename_i b _
  rw [dealt]
  split
  · rw [next]
    refine .ok ?_
    exact h.reads fun v => { v with button := b, sbSeat := some b, bbSeat := f.next b f.dealt }
  rw [next]
  simp only [next]
  refine .ok ?_
  exact h.reads fun v => { v with
    button := b
    sbSeat := f.next b f.dealt
    bbSeat := (f.next b f.dealt).bind fun s => f.next s f.dealt }

theorem moveBigBlind_rested (prevBb bb : Fin n) (h : Rested e f) :
    Rested (e.moveBigBlind prevBb bb) (f.moveBigBlind prevBb bb) := by
  have passed : e.passedOver prevBb = f.passedOver prevBb := h.reads fun v => v.passedOver prevBb
  have owed : Rested (e.owing (e.passedOver prevBb)) (f.owing (f.passedOver prevBb)) := by
    rw [passed]
    exact owing_rested _ h
  exact (rested_update (i := bb)
    (g := fun p => { p with waitForBb := false, owesBb := false, owesSb := false })
    (fun _ => rfl) owed).reads fun v => { v with bbSeat := some bb }

theorem deadSmallBlind_rested (i : Fin n) (h : Rested e f) : Rested (e.deadSmallBlind i) (f.deadSmallBlind i) := by
  have owes : (0 < (e.players i).stack ∧ (e.players i).sittingOut ∧ ¬e.dealSittingOut) ↔
      (0 < (f.players i).stack ∧ (f.players i).sittingOut ∧ ¬f.dealSittingOut) :=
    iff_of_eq (h.reads fun v => 0 < (v.players i).stack ∧ (v.players i).sittingOut ∧ ¬v.dealSittingOut)
  unfold deadSmallBlind
  by_cases dead : 0 < (e.players i).stack ∧ (e.players i).sittingOut ∧ ¬e.dealSittingOut
  · rw [if_pos dead, if_pos (owes.mp dead)]
    exact rested_update (fun _ => rfl) h
  rw [if_neg dead, if_neg fun dead' => dead (owes.mpr dead')]
  exact h

theorem trailPositions_rested (prevBb bb : Fin n) (prevSb : Option (Fin n)) (h : Rested e f) :
    Rested (e.trailPositions prevBb bb prevSb) (f.trailPositions prevBb bb prevSb) := by
  have dealt : e.seatsWhere e.dealt = f.seatsWhere f.dealt := h.reads fun v => v.seatsWhere v.dealt
  have button : e.button = f.button := h.reads Engine.button
  unfold trailPositions
  rw [dealt]
  split
  · rename_i a b _
    exact h.reads fun v => { v with
      sbSeat := some (if a ≠ bb then a else b), button := if a ≠ bb then a else b }
  rw [button]
  refine deadSmallBlind_rested _ ?_
  exact h.reads fun v => { v with sbSeat := some prevBb, button := prevSb.getD f.button }

theorem movePositions_rested (prevBb : Fin n) :
    Related Rested Rested (movePositions prevBb) (movePositions prevBb) := by
  intro e f h
  have next : e.next prevBb e.blindEligible = f.next prevBb f.blindEligible :=
    h.reads fun v => v.next prevBb v.blindEligible
  have sb : e.sbSeat = f.sbSeat := h.reads Engine.sbSeat
  have passed : e.passedOver prevBb = f.passedOver prevBb := h.reads fun v => v.passedOver prevBb
  unfold movePositions
  rw [next, passed, sb]
  split
  · refine .error ?_
    exact (owing_rested (f.passedOver prevBb) h).reads fun v => { v with bbSeat := none }
  exact .ok (trailPositions_rested _ _ _ (moveBigBlind_rested _ _ h))

theorem advancePositions_rested : Related Rested Rested (advancePositions (n := n)) advancePositions := by
  intro e f h
  have bb : e.bbSeat = f.bbSeat := h.reads Engine.bbSeat
  unfold advancePositions
  rw [bb]
  split
  · exact firstPositions_rested e f h
  exact movePositions_rested _ e f h

theorem newHand_level (deck deck' : List Card) (h : Rested e f) :
    Level (e.resetSeats.newHand deck) (f.resetSeats.newHand deck') :=
  show Engine.felt _ = Engine.felt _ from h.reads fun v => (v.resetSeats.newHand []).felt

theorem posts_level (same : amount = amount') (h : Level e f) : Level (e.post i amount label) (f.post i amount' label) ∧
    Level (e.postDead i amount label) (f.postDead i amount' label) := by
  have stack : (e.players i).stack = (f.players i).stack := h.reads fun v => (v.players i).stack
  unfold post postDead
  rw [stack, same]
  exact ⟨level_emit _ _ (level_update (fun _ => rfl) h), level_emit _ _ (level_update (fun _ => rfl) h)⟩

theorem postSmallBlind_level (sbSeat : Fin n) (h : Level e f) :
    Level (e.postSmallBlind sbSeat) (f.postSmallBlind sbSeat) := by
  have posted : Level (e.post sbSeat e.sb .sb) (f.post sbSeat f.sb .sb) := (posts_level (h.reads Engine.sb) h).1
  exact .ite (h.reads fun v => (v.players sbSeat).inSeat = true) posted h

theorem postBigBlind_level (bbSeat : Fin n) (h : Level e f) :
    Level (e.postBigBlind bbSeat) (f.postBigBlind bbSeat) := by
  have live : Level ({ e with bbI := some bbSeat }.post bbSeat e.bb .bb)
      ({ f with bbI := some bbSeat }.post bbSeat f.bb .bb) := (posts_level (h.reads Engine.bb) h).1
  exact .ite (h.reads fun v => v.bbAnte = true) (posts_level (h.reads Engine.bb) live).2 live

theorem enter_level (sbSeat bbSeat i : Fin n) (h : Level e f) :
    Level (enter sbSeat bbSeat e i) (enter sbSeat bbSeat f i) := by
  have posted : Level (e.post i e.bb .post) (f.post i f.bb .post) := (posts_level (h.reads Engine.bb) h).1
  refine level_update (fun _ => rfl) ?_
  exact .ite (h.reads fun v => (v.players i).postEntry = true ∧ i ≠ sbSeat ∧ i ≠ bbSeat)
    (.ite (h.reads fun v => (v.players i).owesSb = true) (posts_level (h.reads Engine.sb) posted).2 posted) h

theorem enterAll_level (sbSeat bbSeat : Fin n) (seats : List (Fin n)) (h : Level e f) :
    Level (seats.foldl (enter sbSeat bbSeat) e) (seats.foldl (enter sbSeat bbSeat) f) := by
  induction seats generalizing e f with
  | nil => exact h
  | cons i rest ih => exact ih (enter_level sbSeat bbSeat i h)

theorem straddle_level (bbSeat : Fin n) (straddleFn : Option (Fin n → Bool)) (h : Level e f) :
    Level (e.straddle bbSeat straddleFn) (f.straddle bbSeat straddleFn) := by
  have seat : e.straddlerSeat bbSeat straddleFn = f.straddlerSeat bbSeat straddleFn :=
    h.reads fun v => v.straddlerSeat bbSeat straddleFn
  unfold straddle
  rw [seat]
  split
  · rename_i utg _
    have posted : Level (e.post utg (2 * e.bb) .str) (f.post utg (2 * f.bb) .str) :=
      (posts_level (h.reads fun v => 2 * v.bb) h).1
    refine level_emit _ _ ?_
    exact posted.reads fun v => { v with
      straddler := some utg
      currentBet := max v.currentBet (v.players utg).bet
      minRaise := max v.minRaise (2 * v.bb) }
  exact h

theorem postAll_level (sbSeat bbSeat : Fin n) (straddleFn : Option (Fin n → Bool)) (h : Level e f) :
    Level (e.postAll sbSeat bbSeat straddleFn) (f.postAll sbSeat bbSeat straddleFn) := by
  have seated : e.seated = f.seated := h.seated
  have forced : Level (e.postForced sbSeat bbSeat) (f.postForced sbSeat bbSeat) := by
    unfold postForced
    rw [seated]
    exact enterAll_level _ _ _ (postBigBlind_level _ (postSmallBlind_level _ h))
  have brought : Level (e.postForced sbSeat bbSeat).bringIn (f.postForced sbSeat bbSeat).bringIn :=
    show Engine.felt _ = Engine.felt _ from forced.reads bringIn
  exact straddle_level _ _ brought

def Stocked (e f : Engine n) : Prop := Level e f ∧ e.deck.length = f.deck.length

theorem dealTo_stocked (i : Fin n) : Related Stocked Stocked (dealTo i) (dealTo i) := by
  rintro e f ⟨level, cards⟩
  unfold dealTo
  by_cases enough : 1 ≤ e.deck.length
  · obtain ⟨rest, out, deck, length, dealt⟩ := deal_returns enough
    obtain ⟨rest', out', deck', length', dealt'⟩ := deal_returns (cards ▸ enough)
    rw [bind_of_ok dealt, bind_of_ok dealt']
    have counts : rest.length = rest'.length := by
      rw [deck, deck', List.length_append, List.length_append] at cards
      omega
    refine .ok ⟨?_, counts⟩
    -- the cards differ, and hole cards are not on the felt
    have left := update_keeps (e := { e with deck := rest }) (f := fun p => { p with hole := p.hole ++ out })
      Player.veil i rfl
    have right := update_keeps (e := { f with deck := rest' }) (f := fun p => { p with hole := p.hole ++ out' })
      Player.veil i rfl
    exact (congrArg (fun players => { e.felt with players }) left).trans
      (level.trans (congrArg (fun players => { f.felt with players }) right).symm)
  rw [bind_apply, bind_apply, deal, deal, Deck.deal, Deck.deal, if_pos (by omega), if_pos (by omega), cards]
  exact .error ⟨level, cards⟩

theorem dealHoles_stocked : Related Stocked Stocked (dealHoles (n := n)) dealHoles := by
  rintro e f ⟨level, cards⟩
  have order : e.dealOrder = f.dealOrder := level.reads dealOrder
  have lap : Related Stocked Stocked (e.dealOrder.forM dealTo) (e.dealOrder.forM dealTo) :=
    related_forM _ dealTo_stocked
  change Matches Stocked ((e.dealOrder.forM dealTo >>= fun _ => e.dealOrder.forM dealTo) e)
    ((f.dealOrder.forM dealTo >>= fun _ => f.dealOrder.forM dealTo) f)
  rw [← order]
  exact related_bind lap (fun _ _ h => h) (fun _ => lap) e f ⟨level, cards⟩

theorem startHand_alike {straddleFn : Option (Fin n → Bool)} {deck deck' : List Card} {e' : Engine n}
    (h : Rested e f) (cards : deck.length = deck'.length) (started : startHand straddleFn deck e = .ok true e') :
    ∃ f', startHand straddleFn deck' f = .ok true f' ∧ Alike e' f' := by
  obtain ⟨⟨placed, sbSeat, bbSeat, dealt, first, positions, small, big, seated, deal, turn, rfl⟩⟩ :=
    startHand_opening started
  obtain ⟨placed', positions', rested⟩ : ∃ placed', advancePositions f = .ok () placed' ∧ Rested placed placed' := by
    have both := advancePositions_rested e f h
    rw [positions] at both
    exact both.of_ok
  have seats : placed.resetSeats.seated = placed'.resetSeats.seated := rested.reads fun v => v.resetSeats.seated
  have small' : placed.sbSeat = placed'.sbSeat := rested.reads Engine.sbSeat
  have big' : placed.bbSeat = placed'.bbSeat := rested.reads Engine.bbSeat
  have posts : Stocked (placed.posted sbSeat bbSeat straddleFn deck) (placed'.posted sbSeat bbSeat straddleFn deck') := by
    have left : (placed.posted sbSeat bbSeat straddleFn deck).deck = deck :=
      congrArg Ground.deck (ground_postAll (placed.resetSeats.newHand deck) sbSeat bbSeat straddleFn)
    have right : (placed'.posted sbSeat bbSeat straddleFn deck').deck = deck' :=
      congrArg Ground.deck (ground_postAll (placed'.resetSeats.newHand deck') sbSeat bbSeat straddleFn)
    exact ⟨postAll_level _ _ _ (newHand_level _ _ rested), by rw [left, right, cards]⟩
  obtain ⟨dealt', deal', level, -⟩ : ∃ dealt', dealHoles (placed'.posted sbSeat bbSeat straddleFn deck') =
      .ok () dealt' ∧ Stocked dealt dealt' := by
    have both := dealHoles_stocked _ _ posts
    rw [deal] at both
    exact both.of_ok
  have turn' : dealt'.firstToAct bbSeat = some first := (level.reads fun v => v.firstToAct bbSeat).symm.trans turn
  refine ⟨dealt'.openRound first, ?_, openRound_alike first level⟩
  rw [startHand_of_placed positions' (small' ▸ small) (big' ▸ big) (seats ▸ seated), bind_of_ok deal']
  simp only [openPreflop, bind_apply, turn']
  rfl

/-! ### Debts

Nobody who never sits out ever owes a blind. -/

end Engine

def Player.Square (p : Player) : Prop :=
  p.sittingOut = false ∧ p.owesBb = false ∧ p.owesSb = false ∧ p.waitForBb = false ∧ p.postEntry = false

namespace Engine

variable {n : ℕ} {e e' : Engine n} {i : Fin n} {deck : List Card}

open Method

def Square (e : Engine n) : Prop := ∀ i, (e.players i).Square

theorem square_update {g : Player → Player} (keeps : ∀ p, p.Square → (g p).Square) (h : e.Square) :
    (e.update i g).Square := by
  intro j
  by_cases same : j = i
  · subst same
    rw [update_same]
    exact keeps _ (h j)
  rw [update_other _ _ same]
  exact h j

theorem square_of_table (same : e'.table = e.table) (h : e.Square) : e'.Square := by
  intro i
  have sitting : (e'.players i).sitting = (e.players i).sitting := congrFun (congrArg Table.seats same) i
  have square := h i
  simp only [Player.sitting, Sitting.mk.injEq] at sitting
  obtain ⟨-, out, bb, sb, wait, entry⟩ := sitting
  unfold Player.Square
  rwa [out, bb, sb, wait, entry]

theorem advancePositions_square (h : e.Square) (ran : advancePositions e = .ok () e') : e'.Square := by
  unfold advancePositions at ran
  split at ran
  · unfold firstPositions at ran
    split at ran
    · cases ran
    split at ran <;> cases ran <;> exact h
  rename_i prevBb _
  unfold movePositions at ran
  split at ran
  · cases ran
  rename_i bb _
  cases ran
  have nobody : e.owing (e.passedOver prevBb) = e := by
    have players : (e.owing (e.passedOver prevBb)).players = e.players := by
      funext i
      exact if_neg fun owes => by simp [(h i).1] at owes
    exact congrArg (fun players => { e with players }) players
  have moved : (e.moveBigBlind prevBb bb).Square := by
    have cleared : (e.update bb fun p => { p with waitForBb := false, owesBb := false, owesSb := false }).Square :=
      square_update (fun p square => ⟨square.1, rfl, rfl, rfl, square.2.2.2.2⟩) h
    unfold moveBigBlind
    rw [nobody]
    exact cleared
  unfold trailPositions
  split
  · exact moved
  unfold deadSmallBlind
  split
  · rename_i owes
    have out := (moved prevBb).1
    exact absurd owes.2.1 (by rw [show (_ : Bool) = false from out]; simp)
  exact moved

theorem enterAll_square (sbSeat bbSeat : Fin n) (seats : List (Fin n)) (h : e.Square) :
    (seats.foldl (enter sbSeat bbSeat) e).Square := by
  induction seats generalizing e with
  | nil => exact h
  | cons i rest ih =>
    have posts : (e.entryPost sbSeat bbSeat i).Square → (enter sbSeat bbSeat e i).Square :=
      square_update fun p square => ⟨square.1, rfl, rfl, rfl, rfl⟩
    refine ih (posts ?_)
    unfold entryPost
    split
    · dsimp only
      split
      · exact square_of_table (table_of_still ((still_postDead _ _ _ _).trans (still_post e i e.bb .post))) h
      exact square_of_table (table_of_still (still_post e i e.bb .post)) h
    exact h

theorem startHand_square (h : e.Square) (started : startHand none deck e = .ok true e') : e'.Square := by
  obtain ⟨⟨placed, sbSeat, bbSeat, dealt, first, positions, small, big, seated, deal, turn, rfl⟩⟩ :=
    startHand_opening started
  have moved : placed.Square := advancePositions_square h positions
  have reset : (placed.resetSeats.newHand deck).Square := moved
  have small : ((placed.resetSeats.newHand deck).postSmallBlind sbSeat).Square := by
    generalize placed.resetSeats.newHand deck = s at reset
    have live : (s.post sbSeat s.sb .sb).Square := square_of_table (table_of_still (still_post s sbSeat s.sb .sb)) reset
    unfold postSmallBlind
    split
    · exact live
    exact reset
  have big : (((placed.resetSeats.newHand deck).postSmallBlind sbSeat).postBigBlind bbSeat).Square := by
    generalize (placed.resetSeats.newHand deck).postSmallBlind sbSeat = s at small
    have live : ({ s with bbI := some bbSeat }.post bbSeat s.bb .bb).Square :=
      square_of_table (table_of_still (still_post { s with bbI := some bbSeat } bbSeat s.bb .bb)) small
    unfold postBigBlind
    dsimp only
    split
    · exact square_of_table (table_of_still (still_postDead _ bbSeat _ .ante)) live
    exact live
  have posted : (placed.posted sbSeat bbSeat none deck).Square := enterAll_square _ _ _ big
  obtain ⟨_, _, rfl⟩ := keeps_ok (dealHoles_deals _) (deals_refl _) deal
  exact square_of_table (table_of_still (still_openRound _ first)) posted

def limits (e : Engine n) : ℤ × ℤ × BettingStructure × Bool × Bool :=
  (e.sb, e.bb, e.bettingStructure, e.bbAnte, e.dealSittingOut)

theorem limits_of_table (same : e'.table = e.table) : e'.limits = e.limits :=
  congrArg (fun t : Table n => (t.sb, t.bb, t.bettingStructure, t.bbAnte, t.dealSittingOut)) same

theorem startHand_limits {straddleFn : Option (Fin n → Bool)}
    (started : startHand straddleFn deck e = .ok true e') : e'.limits = e.limits := by
  obtain ⟨⟨placed, sbSeat, bbSeat, dealt, first, positions, small, big, seated, deal, turn, rfl⟩⟩ :=
    startHand_opening started
  obtain ⟨_, _, _, rest⟩ := (rearranges_of_ok positions).rest
  have moved : placed.limits = e.limits := by rw [rest]; rfl
  have ground := ground_postAll (placed.resetSeats.newHand deck) sbSeat bbSeat straddleFn
  have posts : (placed.posted sbSeat bbSeat straddleFn deck).limits = placed.limits :=
    congrArg (fun g : Ground n => (g.sb, g.bb, g.bettingStructure, g.bbAnte, g.dealSittingOut)) ground
  obtain ⟨_, _, rfl⟩ := keeps_ok (dealHoles_deals _) (deals_refl _) deal
  rw [limits_of_table (table_of_still (still_openRound _ first))]
  exact posts.trans moved

end Engine

end Holdem
