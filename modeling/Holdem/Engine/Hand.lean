import Holdem.Engine.Betting

/-!
One hand, from `start_hand` to `settle`: its betting rounds keep their invariant, and while somebody
is left in it the hand can be settled.
-/

namespace Holdem

open List

namespace TableOp

variable {n : ℕ} {e : Engine n}

def Betting (e : Engine n) : TableOp n → Prop
  | act seat action amount => e.accepts seat action amount = true
  | nextStreet => e.actor = none
  | _ => False

/-- The callers of `next_street` stop at the showdown. -/
def BeforeShowdown (e : Engine n) : TableOp n → Prop
  | nextStreet => e.street ≠ .showdown
  | _ => True

def LeavesOne (e : Engine n) : TableOp n → Prop
  | act _ .fold _ => 2 ≤ e.contested.length
  | _ => True

instance (e : Engine n) : (op : TableOp n) → Decidable (op.Betting e)
  | act seat action amount => inferInstanceAs (Decidable (e.accepts seat action amount = true))
  | nextStreet => inferInstanceAs (Decidable (e.actor = none))
  | startHand _ _ | sitOut _ | sitIn _ _ | addChips _ _ | settle _ _ => inferInstanceAs (Decidable False)

instance (e : Engine n) : (op : TableOp n) → Decidable (op.BeforeShowdown e)
  | nextStreet => inferInstanceAs (Decidable (e.street ≠ .showdown))
  | act _ _ _ | startHand _ _ | sitOut _ | sitIn _ _ | addChips _ _ | settle _ _ => inferInstanceAs (Decidable True)

instance (e : Engine n) : (op : TableOp n) → Decidable (op.LeavesOne e)
  | act _ .fold _ => inferInstanceAs (Decidable (2 ≤ e.contested.length))
  | act _ .call _ | act _ .raise _ | act _ (.other _) _ => inferInstanceAs (Decidable True)
  | nextStreet | startHand _ _ | sitOut _ | sitIn _ _ | addChips _ _ | settle _ _ => inferInstanceAs (Decidable True)

theorem accepts_ran {seat : ℤ} {action : Action} {amount : Amount} (accepted : e.accepts seat action amount = true) :
    ∃ u e', Engine.act seat action amount e = .ok u e' ∧ next e (.act seat action amount) = e' := by
  unfold Engine.accepts at accepted
  split at accepted
  · rename_i u e' ran
    exact ⟨u, e', ran, by rw [next, ran, Method.after_ok]⟩
  cases accepted

theorem along_keeps {P : Engine n → Prop} {cond : Engine n → TableOp n → Prop}
    (step : ∀ e op, P e → cond e op → P (next e op)) (ops : List (TableOp n)) (start : P e)
    (along : Along cond e ops) : P (run e ops) := by
  induction ops generalizing e with
  | nil => exact start
  | cons op rest ih => exact ih (step e op start along.1) along.2

theorem betting_round {op : TableOp n} (round : e.Round) (betting : op.Betting e) : (next e op).Round := by
  cases op with
  | act seat action amount =>
    obtain ⟨_, e', ran, next⟩ := accepts_ran betting
    exact next ▸ Engine.act_round round ran
  | nextStreet => exact Engine.nextStreet_round round betting
  | _ => exact betting.elim

end TableOp

namespace Engine

variable {n : ℕ} {e e' : Engine n} {i : Fin n} {straddleFn : Option (Fin n → Bool)} {deck : List Card}
  {action : Action} {amount : Amount} {seat : ℤ} {u : Unit}

open Method TableOp

/-- The betting-round invariant, in every state between a start of a hand and its settlement. -/
theorem round_invariant {straddleFn : Option (Fin n → Bool)} {deck : List Card} (small : 0 ≤ e.sb) (blind : 0 < e.bb)
    (started : startHand straddleFn deck e = .ok true e') (ops : List (TableOp n))
    (along : Along (fun e op => op.Betting e) e' ops) :
    let s := run e' ops
    (∀ i ∈ s.needToAct, (s.players i).inSeat = true ∧ (s.players i).folded = false ∧
      (s.players i).allIn = false ∧ 0 < (s.players i).stack) ∧
    (s.actor = none ↔ s.needToAct = ∅) ∧ (∀ i, s.actor = some i → i ∈ s.needToAct) ∧
    (∀ i, (s.players i).bet ≤ s.currentBet) ∧
    (∀ i, (s.players i).canAct = true → i ∉ s.needToAct → (s.players i).bet = s.currentBet) ∧
    s.bb ≤ s.minRaise ∧
    (2 ≤ s.contested.length → s.actor = none →
      ∀ i ∈ s.contested, (s.players i).allIn = false → (s.players i).bet = s.currentBet) := by
  intro s
  have round : s.Round := along_keeps (fun _ _ round betting => betting_round round betting) ops
    (startHand_round small blind started) along
  refine ⟨fun i asked => canAct_iff.mp (round.need i asked), round.closed, round.turn, round.high, round.matched,
    round.minRaise, fun _ closed i contested live => ?_⟩
  obtain ⟨seated, folded⟩ : (s.players i).inSeat = true ∧ (s.players i).folded = false := by
    simpa using mem_seatsWhere.mp contested
  refine round.matched i (canAct_iff.mpr ⟨seated, folded, live, (round.ready i seated).2 live⟩) ?_
  rw [round.closed.mp closed]
  exact Finset.notMem_empty i

theorem round_invariant_duel :
    value (startHand none fullDeck duel) = some true ∧
      (run (after (startHand none fullDeck duel))
        [.act 0 .call (.whole 0), .act 1 .call (.whole 0), .nextStreet]).bb ≤
      (run (after (startHand none fullDeck duel))
        [.act 0 .call (.whole 0), .act 1 .call (.whole 0), .nextStreet]).minRaise :=
  ⟨by decide +kernel, (round_invariant (e := duel) (by decide) (by decide) (eq_ok_of_value (by decide +kernel)) _
    (by decide +kernel)).2.2.2.2.2.1⟩

theorem contested_fold (e : Engine n) (i : Fin n) : e.contested.length ≤ (e.fold i).contested.length + 1 := by
  have others : ∀ j, j ≠ i → j ∈ e.contested → j ∈ (e.fold i).contested := fun j other member => by
    rw [contested, mem_seatsWhere] at member ⊢
    rwa [fold_other other]
  have sub : e.contested ⊆ i :: (e.fold i).contested := fun j member => by
    by_cases other : j = i
    · exact other ▸ mem_cons_self
    exact .tail _ (others j other member)
  exact (subperm_of_subset (seatsWhere_nodup e _) sub).length_le

theorem act_contested (ran : act seat action amount e = .ok u e') (leaves : action = .fold → 2 ≤ e.contested.length)
    (alive : e.contested ≠ []) : e'.contested ≠ [] := by
  obtain ⟨i, -, -, -, moved, move, rfl⟩ := act_moves ran
  change moved.contested ≠ []
  cases move with
  | fold =>
    have := contested_fold e i
    have := leaves rfl
    exact ne_nil_of_length_pos (by omega)
  | call => rwa [contested_of_hands (hands_call e i)]
  | raiseCall => rwa [contested_of_hands (hands_call e i)]
  | raise => rwa [contested_of_hands (hands_raiseTo e i _)]

structure Live (e : Engine n) : Prop where
  solvent : e.Solvent
  distinct : e.Distinct
  playing : e.street ≠ .idle
  fits : e.BoardFits
  cards : 5 ≤ e.board.length + e.deck.length
  alive : e.contested ≠ []

theorem act_live (live : e.Live)
    (ran : act seat action amount e = .ok u e') (leaves : action = .fold → 2 ≤ e.contested.length) : e'.Live := by
  have layout := act_layout ran
  have street : e'.street = e.street := congrArg Layout.street layout
  have board : e'.board = e.board := congrArg Layout.board layout
  have deck : e'.deck = e.deck := congrArg Layout.deck layout
  exact ⟨pays_solvent (act_pays ran) live.solvent, distinct_of_layout layout live.distinct, street ▸ live.playing,
    boardFits_of_layout layout live.fits, by rw [board, deck]; exact live.cards, act_contested ran leaves live.alive⟩

theorem nextStreet_live (live : e.Live) : (after (nextStreet e)).Live := by
  obtain ⟨distinct, fits, idles⟩ := nextStreet_cards live.distinct fun _ => live.fits
  have playing : (after (nextStreet e)).street ≠ .idle := fun idle => live.playing (idles idle).1
  refine ⟨pays_solvent (nextStreet_pays e e (pays_refl e)) live.solvent, distinct, playing, fits playing, ?_, ?_⟩
  · rw [nextStreet_total]
    exact live.cards
  rw [contested_of_hands (nextStreet_hands e.hands e rfl)]
  exact live.alive

theorem dealAll_deck (seats : List (Fin n)) (e : Engine n) :
    e.deck.length ≤ (after (seats.forM dealTo e)).deck.length + seats.length := by
  induction seats generalizing e with
  | nil => exact Nat.le_refl _
  | cons i rest ih =>
    change _ ≤ (after ((dealTo i >>= fun _ => rest.forM dealTo) e)).deck.length + _
    by_cases enough : 1 ≤ e.deck.length
    · obtain ⟨left, out, cards, length, ran⟩ := deal_returns enough
      have dealt : dealTo i e = .ok () (({ e with deck := left } : Engine n).update i fun p => { p with hole := p.hole ++ out }) := by
        rw [dealTo, bind_of_ok ran]
        rfl
      have := ih (({ e with deck := left } : Engine n).update i fun p => { p with hole := p.hole ++ out })
      have total := congrArg List.length cards
      rw [length_append, length] at total
      change left.length ≤ _ at this
      rw [bind_of_ok dealt, length_cons]
      omega
    omega

theorem dealOrder_length (e : Engine n) : e.dealOrder.length ≤ n := by
  refine le_trans (length_filter_le _ _) ?_
  simp [Circle.lap]

theorem dealHoles_deck (e : Engine n) : e.deck.length ≤ (after (dealHoles e)).deck.length + 2 * n := by
  have short := dealOrder_length e
  change _ ≤ (after ((e.dealOrder.forM dealTo >>= fun _ => e.dealOrder.forM dealTo) e)).deck.length + _
  have first := dealAll_deck e.dealOrder e
  cases ran : e.dealOrder.forM dealTo e with
  | ok u t =>
    have second := dealAll_deck e.dealOrder t
    rw [ran, after_ok] at first
    rw [bind_of_ok ran]
    omega
  | error x t =>
    rw [ran, after_error] at first
    rw [bind_of_error ran, after_error]
    omega

theorem dealAll_returns (seats : List (Fin n)) (e : Engine n) (enough : seats.length ≤ e.deck.length) :
    ∃ t, seats.forM dealTo e = .ok () t ∧ t.deck.length + seats.length = e.deck.length := by
  induction seats generalizing e with
  | nil => exact ⟨e, rfl, rfl⟩
  | cons i rest ih =>
    rw [length_cons] at enough
    obtain ⟨left, out, cards, length, ran⟩ := deal_returns (k := 1) (e := e) (by omega)
    have dealt : dealTo i e = .ok () (({ e with deck := left } : Engine n).update i fun p => { p with hole := p.hole ++ out }) := by
      rw [dealTo, bind_of_ok ran]
      rfl
    have total := congrArg List.length cards
    rw [length_append, length] at total
    obtain ⟨t, rest', count⟩ := ih (({ e with deck := left } : Engine n).update i fun p => { p with hole := p.hole ++ out })
      (show rest.length ≤ left.length by omega)
    change t.deck.length + rest.length = left.length at count
    refine ⟨t, ?_, by rw [length_cons]; omega⟩
    change (dealTo i >>= fun _ => rest.forM dealTo) e = _
    rw [bind_of_ok dealt, rest']

theorem dealHoles_returns (e : Engine n) (enough : 2 * n ≤ e.deck.length) : ∃ t, dealHoles e = .ok () t := by
  have short := dealOrder_length e
  obtain ⟨s, first, left⟩ := dealAll_returns e.dealOrder e (by omega)
  obtain ⟨t, second, -⟩ := dealAll_returns e.dealOrder s (by omega)
  refine ⟨t, ?_⟩
  change (e.dealOrder.forM dealTo >>= fun _ => e.dealOrder.forM dealTo) e = _
  rw [bind_of_ok first, second]

theorem startHand_returns (deck : List Card) (two : 2 ≤ (e.seatsWhere e.dealt).length) (enough : 2 * n ≤ deck.length) :
    ∃ e', startHand none deck e = .ok true e' := by
  obtain ⟨placed, sbSeat, bbSeat, positions, small, big, seated⟩ := startHand_placed two
  have ground := posted_ground placed sbSeat bbSeat none deck
  obtain ⟨dealt, deal⟩ := dealHoles_returns (placed.posted sbSeat bbSeat none deck)
    (by rw [show (placed.posted sbSeat bbSeat none deck).deck = deck from congrArg Ground.deck ground]; exact enough)
  obtain ⟨i, member⟩ := exists_mem_of_length_pos (l := placed.resetSeats.seated) (by omega)
  have here : (dealt.players i).inSeat = true := by
    obtain ⟨_, _, rfl⟩ := keeps_ok (dealHoles_deals _) (deals_refl _) deal
    exact (congrArg (fun g : Ground n => (g.footing i).1) ground).trans (mem_seatsWhere.mp member)
  obtain ⟨first, turn⟩ : ∃ first, dealt.firstToAct bbSeat = some first := by
    have next : ∀ from', ∃ j, dealt.next from' Player.inSeat = some j := fun from' =>
      (next_returns from' here).imp fun _ found => found.1
    unfold firstToAct
    split
    · exact next _
    split
    · exact ⟨_, rfl⟩
    exact next _
  have opens : openPreflop bbSeat dealt = .ok () (dealt.openRound first) := by
    unfold openPreflop
    rw [turn]
  refine ⟨dealt.openRound first, ?_⟩
  rw [startHand_of_placed positions small big seated, bind_of_ok deal, bind_of_ok opens]
  rfl

theorem startHand_chips (small : 0 ≤ e.sb) (big : 0 ≤ e.bb)
    (started : startHand straddleFn deck e = .ok true e') (i : Fin n) :
    (e'.players i).worth = (e.players i).stack ∧ (0 ≤ (e.players i).stack → (e'.players i).Solvent) := by
  obtain ⟨⟨placed, sbSeat, bbSeat, dealt, first, positions, -, -, -, deal, -, rfl⟩⟩ := startHand_opening started
  have moved := rearranges_of_ok positions
  have dealt' := keeps_ok (dealHoles_pays _) (pays_refl _) deal
  have pays := pays_trans (pays_trans (posted_pays moved small big sbSeat bbSeat straddleFn deck) dealt')
    (pays_of_players (openRound_players dealt first)) i
  have stack : ((placed.resetSeats.newHand deck).players i).stack = (e.players i).stack := by
    obtain ⟨_, _, _, same⟩ := moved.players i
    change (placed.players i).stack = _
    rw [same]
  refine ⟨pays.worth.trans ?_, fun nonneg => pays.solvent ⟨stack ▸ nonneg, le_refl 0, le_refl 0, le_refl 0⟩⟩
  rw [← stack]
  change _ + 0 + 0 = _
  ring

theorem startHand_street (started : startHand straddleFn deck e = .ok true e') : e'.street = .preflop := by
  obtain ⟨⟨placed, sbSeat, bbSeat, dealt, first, -, -, -, -, deal, -, rfl⟩⟩ := startHand_opening started
  obtain ⟨_, _, rfl⟩ := keeps_ok (dealHoles_deals _) (deals_refl _) deal
  refine (congrArg Layout.street (openRound_layout _ first)).trans ?_
  exact congrArg Layout.street (posted_layout placed sbSeat bbSeat straddleFn deck)

theorem startHand_live (few : n ≤ 23)
    (full : deck.Perm fullDeck) (chips : ∀ i, 0 ≤ (e.players i).stack) (small : 0 ≤ e.sb) (big : 0 ≤ e.bb)
    (started : startHand straddleFn deck e = .ok true e') : e'.Live := by
  obtain ⟨⟨placed, sbSeat, bbSeat, dealt, first, positions, -, -, seated, deal, -, rfl⟩⟩ := startHand_opening started
  have distinct : deck.Nodup := full.nodup_iff.mpr fullDeck_nodup
  have posted := posted_layout placed sbSeat bbSeat straddleFn deck
  have dealing := openRound_dealing (keeps_ok (dealHoles_dealing _)
    (posted_dealing placed sbSeat bbSeat straddleFn distinct) deal) first
  have street := startHand_street started
  have board : (dealt.openRound first).board = [] := dealing.board.trans (congrArg Layout.board posted)
  have left : deck.length ≤ (dealt.openRound first).deck.length + 2 * n := by
    have taken := dealHoles_deck (placed.posted sbSeat bbSeat straddleFn deck)
    have same : (dealt.openRound first).deck = dealt.deck := congrArg Layout.deck (openRound_layout dealt first)
    rwa [deal, after_ok, show (placed.posted sbSeat bbSeat straddleFn deck).deck = deck from
      congrArg Layout.deck posted, ← same] at taken
  refine ⟨fun i => (startHand_chips small big started i).2 (chips i),
    dealing.distinct, by rw [street]; simp, by rw [BoardFits, board, street]; rfl, ?_, ?_⟩
  · have := full.length_eq
    rw [fullDeck_length] at this
    omega
  rw [dealing.contested, posted_contested]
  exact ne_nil_of_length_pos (by omega)

/-- In a hand whose folds all leave somebody in, somebody is always in and `settle` returns. -/
theorem hand_settles {straddleFn : Option (Fin n → Bool)} {deck : List Card} (few : n ≤ 23)
    (full : deck.Perm fullDeck) (chips : ∀ i, 0 ≤ (e.players i).stack) (small : 0 < e.sb) (big : e.sb ≤ e.bb)
    (started : startHand straddleFn deck e = .ok true e') (ops : List (TableOp n))
    (along : Along (fun e op => op.Betting e ∧ op.BeforeShowdown e ∧ op.LeavesOne e) e' ops) (forceTabled : Bool) :
    (run e' ops).contested ≠ [] ∧
      ∃ result s, settle 1 forceTabled (run e' ops) = .ok result s := by
  have live : (run e' ops).Live := by
    refine along_keeps (P := Live) (fun e op live cond => ?_) ops
      (startHand_live few full chips (le_of_lt small) (by omega) started) along
    obtain ⟨betting, -, leaves⟩ := cond
    cases op with
    | act seat action amount =>
      obtain ⟨_, e', ran, next⟩ := accepts_ran betting
      exact next ▸ act_live live ran (by rintro rfl; exact leaves)
    | nextStreet => exact nextStreet_live live
    | _ => exact betting.elim
  obtain ⟨result, s, ran, -⟩ := settle_returns (Or.inl rfl) live.solvent live.distinct live.alive
    (fun _ => Or.inr ⟨live.playing, live.fits, by have := live.cards; unfold Enough; omega⟩) forceTabled
  exact ⟨live.alive, result, s, ran⟩

theorem hand_settles_duel :
    value (startHand none fullDeck duel) = some true ∧
      (run (after (startHand none fullDeck duel)) [.act 0 .call (.whole 0), .act 1 .fold (.whole 0)]).contested ≠ [] :=
  ⟨by decide +kernel, (hand_settles (e := duel) (by decide) (List.Perm.refl _) (by decide) (by decide) (by decide)
    (eq_ok_of_value (by decide +kernel)) _ (by decide +kernel) false).1⟩

/-- With everybody else out, the last seat is still asked to act and may fold: nobody is left in, and
`settle` raises. -/
theorem last_seat_folds :
    let ops : List (TableOp 2) := [.act 0 .fold (.whole 0), .act 1 .fold (.whole 0)]
    let start := after (startHand none fullDeck duel)
    value (startHand none fullDeck duel) = some true ∧
      Along (fun e op => op.Betting e ∧ op.BeforeShowdown e) start ops ∧ (run start ops).contested = [] ∧
      raised (settle 1 false (run start ops)) = some .indexError := by
  decide +kernel

end Engine

end Holdem
