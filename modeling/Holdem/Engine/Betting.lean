import Holdem.Engine.Lifecycle

/-!
The betting round. Between a hand's start and its settlement the seats still to act can act, the turn
is theirs, and every other seat that can act has matched the bet.
-/

namespace Holdem.Engine

open Player

variable {n : ℕ} {e e' : Engine n} {i j : Fin n} {target : ℤ} {action : Action} {start : Fin n}

open Method

structure Staked (e : Engine n) : Prop where
  blind : 0 < e.bb
  ready : ∀ i, (e.players i).Ready
  low : ∀ i, 0 ≤ (e.players i).bet
  high : ∀ i, (e.players i).bet ≤ e.currentBet
  minRaise : e.bb ≤ e.minRaise

structure Round (e : Engine n) : Prop extends Staked e where
  need : ∀ i ∈ e.needToAct, (e.players i).canAct = true
  matched : ∀ i, (e.players i).canAct = true → i ∉ e.needToAct → (e.players i).bet = e.currentBet
  turn : ∀ i, e.actor = some i → i ∈ e.needToAct
  closed : e.actor = none ↔ e.needToAct = ∅

theorem seek_turn (h : e.seek start = some i) : i ∈ e.needToAct := by
  simpa using Circle.first_holds h

theorem seek_closed : e.seek start = none ↔ e.needToAct = ∅ := by
  rw [seek, Circle.first_eq_none, Finset.eq_empty_iff_forall_notMem]
  simp

theorem mem_actors : i ∈ (e.seatsWhere canAct).toFinset ↔ (e.players i).canAct = true := by
  rw [List.mem_toFinset, mem_seatsWhere]

theorem openRound_round (staked : e.Staked) (first : Fin n) : (e.openRound first).Round := by
  obtain ⟨blind, ready, low, high, least⟩ := staked
  unfold openRound
  dsimp only
  split
  · rename_i few
    refine ⟨⟨blind, ready, low, high, least⟩, fun i h => absurd h (Finset.notMem_empty i), fun i able _ => ?_,
      fun i h => ?_, ⟨fun _ => rfl, fun _ => rfl⟩⟩
    · exact few.2 i (mem_seatsWhere.mpr able)
    cases h
  refine ⟨⟨blind, ready, low, high, least⟩, fun i h => mem_actors.mp h, fun i able out => ?_,
    fun i h => seek_turn h, seek_closed⟩
  exact absurd (mem_actors.mpr able) out

theorem actDone_round (staked : e'.Staked) (need : ∀ j ∈ e'.needToAct, j ≠ i → (e'.players j).canAct = true)
    (matched : ∀ j, (e'.players j).canAct = true → j ∉ e'.needToAct ∨ j = i → (e'.players j).bet = e'.currentBet) :
    (e'.actDone i).Round := by
  obtain ⟨blind, ready, low, high, least⟩ := staked
  refine ⟨⟨blind, ready, low, high, least⟩, fun j h => ?_, fun j able out => ?_, fun j h => seek_turn h, seek_closed⟩
  · obtain ⟨other, member⟩ := Finset.mem_erase.mp h
    exact need j member other
  refine matched j able ?_
  by_cases other : j = i
  · exact Or.inr other
  exact Or.inl fun member => out (Finset.mem_erase.mpr ⟨other, member⟩)

theorem canAct_iff {p : Player} :
    p.canAct = true ↔ p.inSeat = true ∧ p.folded = false ∧ p.allIn = false ∧ 0 < p.stack := by
  simp [canAct, and_assoc]

theorem fold_other (other : j ≠ i) : (e.fold i).players j = e.players j := by
  rw [fold, emit_players, update_other _ _ other]

theorem fold_same (e : Engine n) (i : Fin n) :
    (e.fold i).players i = { e.players i with folded := true, lastAction := .fold } := by
  rw [fold, emit_players, update_same]

theorem fold_round (round : e.Round) : ((e.fold i).actDone i).Round := by
  have pays := pays_fold e i
  have bet : ∀ j, ((e.fold i).players j).bet = (e.players j).bet :=
    congrFun (update_keeps (e := e) (f := fun p => { p with folded := true, lastAction := .fold }) Player.bet i rfl)
  have out : ((e.fold i).players i).canAct = false := by
    rw [fold_same]
    simp [canAct]
  have staked : (e.fold i).Staked := ⟨round.blind, fun j => (pays j).ready (round.ready j),
    fun j => bet j ▸ round.low j, fun j => bet j ▸ round.high j, round.minRaise⟩
  refine actDone_round staked (fun j member other => ?_) fun j able asked => ?_
  · rw [fold_other other]
    exact round.need j member
  have other : j ≠ i := by
    rintro rfl
    rw [out] at able
    cases able
  rw [bet j]
  rw [fold_other other] at able
  exact round.matched j able (asked.resolve_right other)

theorem call_other (other : j ≠ i) : (e.call i).players j = e.players j := by
  unfold call
  dsimp only
  split <;> rw [emit_players, update_other _ _ other]

theorem call_bet (able : (e.players i).canAct = true) (high : (e.players i).bet ≤ e.currentBet) :
    ((e.call i).players i).bet ≤ e.currentBet ∧
      (((e.call i).players i).canAct = true → ((e.call i).players i).bet = e.currentBet) := by
  obtain ⟨-, -, -, chips⟩ := canAct_iff.mp able
  unfold call
  dsimp only
  split
  · rename_i nothing
    rw [emit_players, update_same]
    unfold toCall at nothing
    exact ⟨high, fun _ => by change (e.players i).bet = e.currentBet; omega⟩
  rw [emit_players, update_same]
  refine ⟨?_, fun still => ?_⟩
  · simp only [callChips, did, Player.commit, toCall]
    omega
  obtain ⟨-, -, -, left⟩ := canAct_iff.mp still
  simp only [callChips, did, Player.commit, toCall] at left ⊢
  omega

theorem call_round (round : e.Round) (turn : e.actor = some i) : ((e.call i).actDone i).Round := by
  have pays := pays_call e i
  have able := round.need i (round.turn i turn)
  obtain ⟨most, level⟩ := call_bet able (round.high i)
  have same : (e.call i).currentBet = e.currentBet ∧ (e.call i).needToAct = e.needToAct ∧ (e.call i).bb = e.bb ∧
      (e.call i).minRaise = e.minRaise := by
    unfold call
    dsimp only
    split <;> exact ⟨rfl, rfl, rfl, rfl⟩
  obtain ⟨current, needed, bb, least⟩ := same
  have staked : (e.call i).Staked := by
    refine ⟨bb ▸ round.blind, fun j => (pays j).ready (round.ready j), fun j => (pays j).bet (round.low j), fun j => ?_,
      bb ▸ least ▸ round.minRaise⟩
    rw [current]
    by_cases other : j = i
    · exact other ▸ most
    rw [call_other other]
    exact round.high j
  refine actDone_round staked (fun j member other => ?_) fun j able asked => ?_
  · rw [call_other other]
    exact round.need j (needed ▸ member)
  rw [current]
  by_cases other : j = i
  · subst other
    exact level able
  rw [call_other other] at able ⊢
  exact round.matched j able (needed ▸ asked.resolve_right other)

theorem hands_call (e : Engine n) (i : Fin n) : (e.call i).hands = e.hands := by
  unfold call
  dsimp only
  split
  · exact update_keeps (e := e) (f := fun p => p.did .check) hand i rfl
  exact update_keeps (e := e) (f := callChips _) hand i rfl

theorem hands_raiseTo (e : Engine n) (i : Fin n) (add : ℤ) : (e.raiseTo i add).hands = e.hands := by
  have chips : (e.update i (raiseChips (decide (e.currentBet = 0)) add)).hands = e.hands := update_keeps hand i rfl
  rw [← chips]
  unfold raiseTo
  dsimp only
  split
  · split <;> rfl
  rfl

/-- What a raise over the bet leaves: its seat at the new bet, and every other seat that can act
asked again. -/
structure Raised (e e' : Engine n) (i : Fin n) (target : ℤ) : Prop where
  hands : e'.hands = e.hands
  others : ∀ j, j ≠ i → e'.players j = e.players j
  bet : (e'.players i).bet = target
  stack : (e'.players i).stack = (e.players i).stack - (target - (e.players i).bet)
  current : e'.currentBet = target
  bb : e'.bb = e.bb
  minRaise : e.minRaise ≤ e'.minRaise
  asked : ∀ j, j ≠ i → (j ∈ e'.needToAct ↔ (e.players j).canAct = true)

theorem raiseTo_level (high : (e.players i).bet ≤ e.currentBet) (tops : e.currentBet < target)
    (room : target ≤ (e.players i).bet + (e.players i).stack) :
    let e' := e.raiseTo i (target - (e.players i).bet)
    (∀ j, j ≠ i → e'.players j = e.players j) ∧ (e'.players i).bet = target ∧
      (e'.players i).stack = (e.players i).stack - (target - (e.players i).bet) ∧ e'.currentBet = target ∧ e'.sb = e.sb ∧
      e'.bb = e.bb ∧ e.minRaise ≤ e'.minRaise := by
  obtain ⟨raised, made⟩ : ∃ raised, e.update i (raiseChips (decide (e.currentBet = 0)) (target - (e.players i).bet)) =
    raised := ⟨_, rfl⟩
  have others : ∀ j, j ≠ i → raised.players j = e.players j := fun j other => made ▸ update_other e _ other
  have here : raised.players i = raiseChips (decide (e.currentBet = 0)) (target - (e.players i).bet) (e.players i) :=
    made ▸ update_same e i _
  have bet : (raised.players i).bet = target := by
    rw [here]
    simp only [raiseChips, did, Player.commit]
    omega
  have stack : (raised.players i).stack = (e.players i).stack - (target - (e.players i).bet) := by
    rw [here]
    simp only [raiseChips, did, Player.commit]
    omega
  have sb : raised.sb = e.sb := made ▸ rfl
  have bb : raised.bb = e.bb := made ▸ rfl
  have least : raised.minRaise = e.minRaise := made ▸ rfl
  unfold raiseTo
  dsimp only
  rw [made, bet, if_pos tops]
  split
  · rename_i full
    exact ⟨others, bet, stack, bet, sb, bb, of_decide_eq_true full⟩
  exact ⟨others, bet, stack, bet, sb, bb, le_of_eq least.symm⟩

section

variable (round : e.Round)
include round

theorem raiseTo_raised (tops : e.currentBet < target) (room : target ≤ (e.players i).bet + (e.players i).stack) :
    Raised e (e.raiseTo i (target - (e.players i).bet)) i target := by
  obtain ⟨others, bet, stack, current, -, bb, least⟩ := raiseTo_level (round.high i) tops room
  refine ⟨hands_raiseTo e i _, others, bet, stack, current, bb, least, fun j other => ?_⟩
  obtain ⟨raised, made⟩ : ∃ raised, e.update i (raiseChips (decide (e.currentBet = 0)) (target - (e.players i).bet)) =
    raised := ⟨_, rfl⟩
  have others : raised.players j = e.players j := made ▸ update_other e _ other
  have able : (raised.players j).canAct = true ↔ (e.players j).canAct = true := by rw [others]
  have needed : raised.needToAct = e.needToAct := made ▸ rfl
  have reached : (raised.players i).bet = target := by
    rw [← made, update_same]
    have high := round.high i
    simp only [raiseChips, did, Player.commit]
    omega
  unfold raiseTo
  dsimp only
  rw [made, reached, if_pos tops]
  split
  · -- a full raise asks every seat that can act
    change j ∈ (raised.seatsWhere canAct).toFinset ↔ _
    rw [mem_actors, able]
  -- a short one asks the seats behind, which are all the others that can act
  change j ∈ raised.needToAct ∪ (raised.raiseBet i).behind i ↔ _
  rw [Finset.mem_union, needed]
  constructor
  · rintro (asked | behind)
    · exact round.need j asked
    exact able.mp (Finset.mem_filter.mp behind).2.1
  intro can
  refine Or.inr (Finset.mem_filter.mpr ⟨Finset.mem_univ j, able.mpr can, other, ?_⟩)
  change (raised.players j).bet < (raised.players i).bet
  rw [others, reached]
  exact lt_of_le_of_lt (round.high j) tops

theorem raised_round (tops : e.currentBet < target) (pays : e.Pays e') (raised : Raised e e' i target) :
    (e'.actDone i).Round := by
  have staked : e'.Staked := by
    refine ⟨raised.bb ▸ round.blind, fun j => (pays j).ready (round.ready j), fun j => (pays j).bet (round.low j),
      fun j => ?_, raised.bb ▸ le_trans round.minRaise raised.minRaise⟩
    rw [raised.current]
    by_cases other : j = i
    · rw [other, raised.bet]
    rw [raised.others j other]
    exact le_trans (round.high j) (le_of_lt tops)
  refine actDone_round staked (fun j member other => ?_) fun j able asked => ?_
  · rw [raised.others j other]
    exact (raised.asked j other).mp member
  rw [raised.current]
  by_cases other : j = i
  · rw [other, raised.bet]
  rw [raised.others j other] at able
  exact absurd ((raised.asked j other).mpr able) (asked.resolve_right other)

theorem move_cases (move : Move e i action e') : (action = .fold ∧ e' = e.fold i) ∨ (action ≠ .fold ∧ e' = e.call i) ∨
      (action = .raise ∧ ∃ target, e.currentBet < target ∧ (e.players i).bet < target ∧ Raised e e' i target) := by
  cases move with
  | fold => exact Or.inl ⟨rfl, rfl⟩
  | call => exact Or.inr (Or.inl ⟨by simp, rfl⟩)
  | raiseCall => exact Or.inr (Or.inl ⟨by simp, rfl⟩)
  | raise target may low high adds =>
    have tops := lt_of_lt_of_le (legal_minTo_gt round.blind round.minRaise (round.low i) may) low
    exact Or.inr (Or.inr ⟨rfl, target, tops, adds, raiseTo_raised round tops (le_trans high (legal_maxTo_le e i))⟩)

theorem move_round (turn : e.actor = some i) (move : Move e i action e') : (e'.actDone i).Round := by
  obtain ⟨-, rfl⟩ | ⟨-, rfl⟩ | ⟨-, target, tops, -, raised⟩ := move_cases round move
  · exact fold_round round
  · exact call_round round turn
  exact raised_round round tops (pays_move move) raised

theorem act_round {seat : ℤ} {amount : Amount} {u : Unit} (ran : act seat action amount e = .ok u e') : e'.Round := by
  obtain ⟨i, -, turn, -, moved, move, rfl⟩ := act_moves ran
  exact move_round round turn move

theorem clearBets_staked : e.clearBets.Staked := by
  have pays := pays_clearBets e
  have bet : ∀ i, (e.clearBets.players i).bet = 0 := fun i => by
    simp only [clearBets]
    split <;> rfl
  exact ⟨round.blind, fun i => (pays i).ready (round.ready i), fun i => (bet i).ge, fun i => (bet i).le, le_refl _⟩

theorem clearBets_round (closed : e.actor = none) : e.clearBets.Round := by
  have staked := clearBets_staked round
  have empty : e.clearBets.needToAct = ∅ := round.closed.mp closed
  refine ⟨staked, fun i asked => ?_, fun i _ _ => ?_, fun i turn => ?_, ⟨fun _ => empty, fun _ => closed⟩⟩
  · rw [empty] at asked
    exact absurd asked (Finset.notMem_empty i)
  · exact le_antisymm (staked.high i) (staked.low i)
  exact absurd (turn.symm.trans closed) (by simp)

end

theorem openStreet_round (staked : e.Staked) : e.openStreet.Round :=
  openRound_round (e := e.emit _) ⟨staked.blind, staked.ready, staked.low, staked.high, staked.minRaise⟩ _

theorem nextStreet_round (round : e.Round) (closed : e.actor = none) : (after (nextStreet e)).Round := by
  have staked := clearBets_staked round
  have cleared := clearBets_round round closed
  rcases nextStreet_cases e with ⟨k, street, rest, out, -, -, -, ran⟩ | ⟨k, street, x, -, -, ran⟩ | ⟨-, ran⟩ |
    ⟨-, ran⟩ <;> rw [ran]
  · exact openStreet_round ⟨staked.blind, staked.ready, staked.low, staked.high, staked.minRaise⟩
  · exact cleared
  · exact ⟨⟨staked.blind, staked.ready, staked.low, staked.high, staked.minRaise⟩, cleared.need, cleared.matched,
      cleared.turn, cleared.closed⟩
  exact openStreet_round staked

theorem le_foldl_max {α : Type} (f : α → ℤ) (xs : List α) (m : ℤ) :
    m ≤ xs.foldl (fun m x => max m (f x)) m ∧ ∀ x ∈ xs, f x ≤ xs.foldl (fun m x => max m (f x)) m := by
  induction xs generalizing m with
  | nil => exact ⟨le_refl m, fun _ h => absurd h List.not_mem_nil⟩
  | cons y rest ih =>
    obtain ⟨first, others⟩ := ih (max m (f y))
    refine ⟨le_trans (le_max_left _ _) first, fun x member => ?_⟩
    obtain rfl | later := List.mem_cons.mp member
    · exact le_trans (le_max_right _ _) first
    exact others x later

theorem bringIn_high (e : Engine n) (i : Fin n) : (e.bringIn.players i).bet ≤ e.bringIn.currentBet :=
  (le_foldl_max (fun i => (e.players i).bet) (List.finRange n) e.bb).2 i (List.mem_finRange i)

theorem straddle_staked (staked : e.Staked) (bbSeat : Fin n) (straddleFn : Option (Fin n → Bool)) :
    (e.straddle bbSeat straddleFn).Staked := by
  have pays := pays_straddle e bbSeat straddleFn
  unfold straddle at pays ⊢
  split
  · rename_i utg found
    rw [found] at pays
    refine ⟨staked.blind, fun i => (pays i).ready (staked.ready i), fun i => (pays i).bet (staked.low i), fun i => ?_,
      le_trans staked.minRaise (le_max_left _ _)⟩
    change ((e.post utg (2 * e.bb) .str).players i).bet ≤ max e.currentBet ((e.post utg (2 * e.bb) .str).players utg).bet
    by_cases other : i = utg
    · rw [other]
      exact le_max_right _ _
    rw [post, emit_players, update_other _ _ other]
    exact le_trans (staked.high i) (le_max_left _ _)
  exact staked

theorem enterAll_minRaise (sbSeat bbSeat : Fin n) (seats : List (Fin n)) (e : Engine n) :
    (seats.foldl (enter sbSeat bbSeat) e).minRaise = e.minRaise ∧
      (seats.foldl (enter sbSeat bbSeat) e).straddler = e.straddler := by
  induction seats generalizing e with
  | nil => exact ⟨rfl, rfl⟩
  | cons i rest ih =>
    obtain ⟨least, straddler⟩ := ih (enter sbSeat bbSeat e i)
    rw [List.foldl_cons, least, straddler]
    change (e.entryPost sbSeat bbSeat i).minRaise = e.minRaise ∧ (e.entryPost sbSeat bbSeat i).straddler = e.straddler
    unfold entryPost
    dsimp only
    split
    · split <;> exact ⟨rfl, rfl⟩
    exact ⟨rfl, rfl⟩

theorem postForced_minRaise (e : Engine n) (sbSeat bbSeat : Fin n) :
    (e.postForced sbSeat bbSeat).minRaise = e.minRaise ∧ (e.postForced sbSeat bbSeat).straddler = e.straddler := by
  have small : (e.postSmallBlind sbSeat).minRaise = e.minRaise ∧ (e.postSmallBlind sbSeat).straddler = e.straddler := by
    unfold postSmallBlind
    split <;> exact ⟨rfl, rfl⟩
  obtain ⟨least, straddler⟩ := enterAll_minRaise sbSeat bbSeat e.seated ((e.postSmallBlind sbSeat).postBigBlind bbSeat)
  rw [postForced, least, straddler, ← small.1, ← small.2]
  unfold postBigBlind
  dsimp only
  split <;> exact ⟨rfl, rfl⟩

theorem postAll_staked (small : 0 ≤ e.sb) (blind : 0 < e.bb) (least : e.minRaise = e.bb)
    (ready : ∀ i, (e.players i).Ready) (low : ∀ i, 0 ≤ (e.players i).bet) (sbSeat bbSeat : Fin n)
    (straddleFn : Option (Fin n → Bool)) : (e.postAll sbSeat bbSeat straddleFn).Staked := by
  have pays := pays_postForced small (le_of_lt blind) sbSeat bbSeat
  have bb : (e.postForced sbSeat bbSeat).bb = e.bb := congrArg Ground.bb (ground_postForced e sbSeat bbSeat)
  have minRaise := (postForced_minRaise e sbSeat bbSeat).1
  have brought : (e.postForced sbSeat bbSeat).bringIn.Staked := by
    refine ⟨?_, fun i => (pays i).ready (ready i), fun i => (pays i).bet (low i), bringIn_high _, ?_⟩
    · exact bb ▸ blind
    change (e.postForced sbSeat bbSeat).bb ≤ (e.postForced sbSeat bbSeat).minRaise
    rw [bb, minRaise, least]
  exact straddle_staked brought bbSeat straddleFn

theorem deals_staked (h : e.Deals e') (staked : e.Staked) : e'.Staked := by
  obtain ⟨deck, holes, rfl⟩ := h
  exact ⟨staked.blind, staked.ready, staked.low, staked.high, staked.minRaise⟩

theorem startHand_round {straddleFn : Option (Fin n → Bool)} {deck : List Card} (small : 0 ≤ e.sb) (blind : 0 < e.bb)
    (started : startHand straddleFn deck e = .ok true e') : e'.Round := by
  obtain ⟨opening⟩ := startHand_opening started
  obtain ⟨_, _, _, eq⟩ := (rearranges_of_ok opening.positions).rest
  have sb : opening.placed.sb = e.sb := by rw [eq]
  have bb : opening.placed.bb = e.bb := by rw [eq]
  have posted : (opening.placed.posted opening.sbSeat opening.bbSeat straddleFn deck).Staked :=
    postAll_staked (e := opening.placed.resetSeats.newHand deck) (sb ▸ small) (bb ▸ blind) rfl
      (resetSeats_ready opening.placed) (fun _ => le_refl 0) opening.sbSeat opening.bbSeat straddleFn
  rw [opening.opened]
  exact openRound_round (deals_staked (keeps_ok (dealHoles_deals _) (deals_refl _) opening.deal) posted) opening.first

end Holdem.Engine
