import Holdem.Engine.Hand

/-!
What `act` accepts against what `legal` offers. On every table a caller can get to, nobody has more in
front than the bet to call, so the two ranges agree; but the turn may be with a seat that cannot act.
-/

namespace Holdem

namespace Engine

variable {n : ℕ} {e e' : Engine n} {i j : Fin n} {seat : ℤ} {u : Unit}

open Method

structure Capped (e : Engine n) : Prop where
  small : 0 ≤ e.sb
  blind : 0 < e.bb
  least : e.bb ≤ e.minRaise
  low : ∀ i, 0 ≤ (e.players i).bet
  high : ∀ i, (e.players i).bet ≤ e.currentBet

theorem Staked.capped (staked : e.Staked) (small : 0 ≤ e.sb) : e.Capped :=
  ⟨small, staked.blind, staked.minRaise, staked.low, staked.high⟩

section

variable (h : e.Capped)
include h

theorem Capped.congr (sb : e'.sb = e.sb) (bb : e'.bb = e.bb) (least : e'.minRaise = e.minRaise)
    (current : e'.currentBet = e.currentBet) (bets : ∀ i, (e'.players i).bet = (e.players i).bet) : e'.Capped :=
  ⟨sb ▸ h.small, bb ▸ h.blind, by rw [bb, least]; exact h.least, fun i => bets i ▸ h.low i,
    fun i => by rw [bets i, current]; exact h.high i⟩

theorem Capped.swept (sb : e'.sb = e.sb) (bb : e'.bb = e.bb) (least : e'.minRaise = e.minRaise)
    (current : 0 ≤ e'.currentBet) (bets : ∀ i, (e'.players i).bet = 0) : e'.Capped :=
  ⟨sb ▸ h.small, bb ▸ h.blind, by rw [bb, least]; exact h.least, fun i => (bets i).ge, fun i => (bets i).trans_le current⟩

theorem update_capped {f : Player → Player} (i : Fin n) (same : ∀ p, (f p).bet = p.bet) : (e.update i f).Capped :=
  h.congr rfl rfl rfl rfl (congrFun (update_keeps Player.bet i (same _)))

theorem emit_capped (body : EventBody n) : (e.emit body).Capped :=
  h.congr rfl rfl rfl rfl fun _ => rfl

theorem Capped.current : 0 ≤ e.currentBet := (h.low e.button).trans (h.high e.button)

theorem call_capped (able : (e.players i).canAct = true) : (e.call i).Capped := by
  have pays := pays_call e i
  have most := (call_bet able (h.high i)).1
  have same : (e.call i).currentBet = e.currentBet ∧ (e.call i).sb = e.sb ∧ (e.call i).bb = e.bb ∧
      (e.call i).minRaise = e.minRaise := by
    unfold call
    dsimp only
    split <;> exact ⟨rfl, rfl, rfl, rfl⟩
  obtain ⟨current, sb, bb, least⟩ := same
  refine ⟨sb ▸ h.small, bb ▸ h.blind, by rw [bb, least]; exact h.least, fun j => (pays j).bet (h.low j), fun j => ?_⟩
  rw [current]
  by_cases here : j = i
  · exact here ▸ most
  rw [call_other here]
  exact h.high j

theorem act_capped {action : Action} {amount : Amount} (ran : act seat action amount e = .ok u e') : e'.Capped := by
  obtain ⟨i, -, -, able, moved, move, rfl⟩ := act_moves ran
  suffices moved.Capped from this.congr rfl rfl rfl rfl fun _ => rfl
  cases move with
  | fold =>
    refine h.congr rfl rfl rfl rfl fun j => ?_
    by_cases here : j = i
    · rw [here, fold_same]
    rw [fold_other here]
  | call => exact call_capped h able
  | raiseCall => exact call_capped h able
  | raise target may low high adds =>
    have tops := lt_of_lt_of_le (legal_minTo_gt h.blind h.least (h.low i) may) low
    obtain ⟨others, bet, -, current, sb, bb, least⟩ := raiseTo_level (h.high i) tops (le_trans high (legal_maxTo_le e i))
    refine ⟨sb ▸ h.small, bb ▸ h.blind, by rw [bb]; exact h.least.trans least, fun j => ?_, fun j => ?_⟩
    · exact (pays_raiseTo e i _ j).bet (h.low j)
    rw [current]
    by_cases here : j = i
    · rw [here, bet]
    rw [others j here]
    exact (h.high j).trans tops.le

theorem clearBets_capped : e.clearBets.Capped := by
  have bets : ∀ i, (e.clearBets.players i).bet = 0 := fun i => by
    simp only [clearBets]
    split <;> rfl
  exact ⟨h.small, h.blind, le_refl _, fun i => (bets i).ge, fun i => (bets i).le⟩

theorem openRound_capped (first : Fin n) : (e.openRound first).Capped := by
  unfold openRound
  dsimp only
  split <;> exact h.congr rfl rfl rfl rfl fun _ => rfl

end

theorem nextStreet_capped : Keeps (fun e : Engine n => e.Capped) nextStreet :=
  nextStreet_keeps (fun _ h => clearBets_capped h) (fun _ _ _ _ h => h.congr rfl rfl rfl rfl fun _ => rfl)
    fun e h => openRound_capped (emit_capped h (.dealBoard none e.board)) _

theorem giveBack_capped (h : e.Capped) (i : Fin n) (back : ℤ) : (e.giveBack i back).Capped := by
  unfold giveBack
  apply emit_capped
  exact update_capped h i fun _ => rfl

theorem returnUncalled_capped (h : e.Capped) : e.returnUncalled.Capped := by
  unfold returnUncalled
  split
  · exact giveBack_capped h _ _
  exact h

theorem settle_capped (runs : ℕ) (forceTabled : Bool) : Keeps (fun e : Engine n => e.Capped) (settle runs forceTabled) :=
  settle_keeps (fun _ h => returnUncalled_capped h)
    (completeBoard_keeps nextStreet_capped (fun _ _ _ _ _ _ h => h.congr rfl rfl rfl rfl fun _ => rfl) runs forceTabled)
    (fun _ _ h => h.congr rfl rfl rfl rfl fun _ => rfl) fun _ _ h => h.swept rfl rfl rfl h.current fun _ => rfl

theorem rearranges_capped (h : e.Capped) (moved : e.Rearranges e') : e'.Capped := by
  obtain ⟨_, _, _, eq⟩ := moved.rest
  refine h.congr (by rw [eq]) (by rw [eq]) (by rw [eq]) (by rw [eq]) fun i => ?_
  obtain ⟨_, _, _, same⟩ := moved.players i
  rw [same]

theorem advancePositions_blinds (ran : advancePositions e = .ok u e') :
    ∃ sbSeat bbSeat, e'.sbSeat = some sbSeat ∧ e'.bbSeat = some bbSeat := by
  unfold advancePositions at ran
  split at ran
  · unfold firstPositions at ran
    split at ran
    · cases ran
    rename_i button found
    have next : ∀ i, ∃ j, e.next i e.dealt = some j := fun i =>
      Circle.first_isSome (i := Circle.step i 1) (Circle.first_holds found)
    split at ran
    · cases ran
      obtain ⟨j, after⟩ := next button
      exact ⟨button, j, rfl, after⟩
    cases ran
    obtain ⟨j, first⟩ := next button
    obtain ⟨k, second⟩ := next j
    exact ⟨j, k, first, by dsimp only; rw [first]; exact second⟩
  unfold movePositions at ran
  split at ran
  · cases ran
  rename_i bb found
  cases ran
  unfold trailPositions
  split
  · exact ⟨_, bb, rfl, rfl⟩
  unfold deadSmallBlind
  split <;> exact ⟨_, bb, rfl, rfl⟩

theorem resetSeats_capped (h : e.Capped) : e.resetSeats.Capped := h.swept rfl rfl rfl h.current fun _ => rfl

theorem posted_capped {placed : Engine n} (h : placed.Capped) (sbSeat bbSeat : Fin n)
    (straddleFn : Option (Fin n → Bool)) (deck : List Card) : (placed.posted sbSeat bbSeat straddleFn deck).Capped := by
  have staked : (placed.posted sbSeat bbSeat straddleFn deck).Staked :=
    postAll_staked (e := placed.resetSeats.newHand deck) h.small h.blind rfl (resetSeats_ready placed) (fun _ => le_refl 0)
      sbSeat bbSeat straddleFn
  have sb : (placed.posted sbSeat bbSeat straddleFn deck).sb = placed.sb :=
    congrArg Ground.sb (posted_ground placed sbSeat bbSeat straddleFn deck)
  exact staked.capped (sb ▸ h.small)

theorem dealHoles_capped : Keeps (fun e : Engine n => e.Capped) dealHoles := fun e h => by
  obtain ⟨deck, holes, same⟩ := dealHoles_deals e e (deals_refl e)
  show (after (dealHoles e)).Capped
  rw [same]
  exact h.congr rfl rfl rfl rfl fun _ => rfl

theorem openPreflop_capped (bbSeat : Fin n) : Keeps (fun e : Engine n => e.Capped) (openPreflop bbSeat) := by
  intro e h
  unfold openPreflop
  split
  · exact openRound_capped h _
  exact h

theorem startHand_capped (straddleFn : Option (Fin n → Bool)) (deck : List Card) :
    Keeps (fun e : Engine n => e.Capped) (startHand straddleFn deck) := by
  intro e h
  have moved := advancePositions_rearranges e
  cases ran : advancePositions e with
  | error x placed =>
    rw [ran] at moved
    rw [startHand, bind_of_error ran]
    exact rearranges_capped h moved
  | ok u placed =>
    rw [ran] at moved
    have capped := rearranges_capped h moved
    by_cases few : placed.resetSeats.seated.length < 2
    · rw [startHand, bind_of_ok ran]
      change (after ((if placed.resetSeats.seated.length < 2 then pure false else do
        playHand straddleFn deck; pure true : EngineM n Bool) placed.resetSeats)).Capped
      rw [if_pos few]
      exact resetSeats_capped capped
    obtain ⟨sbSeat, bbSeat, small, big⟩ := advancePositions_blinds ran
    rw [startHand_of_placed ran small big (by omega)]
    exact keeps_bind dealHoles_capped (fun _ => keeps_bind (openPreflop_capped bbSeat) fun _ => keeps_pure true) _
      (posted_capped capped sbSeat bbSeat straddleFn deck)

/-- `act` and `legal` agree about the seat whose turn it is, and a refusal changes nothing. -/
structure Exact (e : Engine n) (i : Fin n) : Prop where
  fold : ∀ amount, ∃ e', act i .fold amount e = .ok () e'
  call : ∀ amount, ∃ e', act i .call amount e = .ok () e' ∧
    (e'.players i).bet = min e.currentBet ((e.players i).bet + (e.players i).stack)
  raise : e.bettingStructure ≠ .fixedLimit → ∀ x,
    ((∃ e', act i .raise (.whole x) e = .ok () e') ↔
      (e.legal i).canRaise = true ∧ (e.legal i).minTo ≤ x ∧ x ≤ (e.legal i).maxTo) ∧
    ∀ e', act i .raise (.whole x) e = .ok () e' → (e'.players i).bet = x ∧ e'.currentBet = x ∧
      (e'.players i).stack = (e.players i).stack - (x - (e.players i).bet)
  fixedRaise : e.bettingStructure = .fixedLimit → ∀ x,
    ((∃ e', act i .raise (.whole x) e = .ok () e') ↔ (e.legal i).canRaise = true) ∧
    ∀ e', act i .raise (.whole x) e = .ok () e' → (e'.players i).bet = (e.legal i).minTo ∧
      e'.currentBet = (e.legal i).minTo ∧ (e.legal i).minTo = (e.legal i).maxTo
  range : (e.legal i).canRaise = true → (e.legal i).minTo ≤ (e.legal i).maxTo ∧ e.currentBet < (e.legal i).minTo ∧
    (e.legal i).maxTo ≤ (e.players i).bet + (e.players i).stack
  unknown : ∀ seat word amount, ∃ why, act seat (.other word) amount e = .error (.illegalAction why) e
  outOfTurn : ∀ seat : ℤ, seat ≠ i → ∀ action amount, ∃ why, act seat action amount e = .error (.illegalAction why) e
  mayNotRaise : (e.legal i).canRaise = false → ∀ amount, ∃ why,
    act i .raise amount e = .error (.illegalAction why) e
  outside : e.bettingStructure ≠ .fixedLimit → ∀ amount,
    (∀ x, amount = .whole x → ¬((e.legal i).minTo ≤ x ∧ x ≤ (e.legal i).maxTo)) → ∃ why,
    act i .raise amount e = .error (.illegalAction why) e

theorem act_performs (turn : e.actor = some i) (able : (e.players i).canAct = true) (action : Action)
    (amount : Amount) : act i action amount e = match e.perform i action amount with
      | .ok e' => .ok () e'
      | .error x => .error x e := by
  have range : (0 : ℤ) ≤ (i : ℕ) ∧ ((i : ℕ) : ℤ) < n := ⟨by omega, by have := i.isLt; omega⟩
  have seat : (⟨((i : ℕ) : ℤ).toNat, by have := i.isLt; omega⟩ : Fin n) = i := Fin.ext (Int.toNat_natCast _)
  unfold act
  split
  · rfl
  rw [dif_pos range, seat, if_neg (by simpa using turn)]
  refine (if_neg (by simpa using able)).trans ?_
  cases e.perform i action amount <;> rfl

theorem act_outOfTurn (turn : e.actor = some i) (other : seat ≠ i) (action : Action) (amount : Amount) :
    ∃ why, act seat action amount e = .error (.illegalAction why) e := by
  unfold act
  split
  · exact ⟨_, rfl⟩
  split
  · rename_i range
    rw [if_pos]
    · exact ⟨_, rfl⟩
    rw [turn]
    intro same
    apply other
    rw [Option.some_inj.mp same]
    exact (Int.toNat_of_nonneg range.1).symm
  exact ⟨_, rfl⟩

theorem checkAmount_whole (limit : e.bettingStructure ≠ .fixedLimit) (lg : Legal) (x : ℤ) :
    e.checkAmount lg (.whole x) = .ok () ↔ lg.minTo ≤ x ∧ x ≤ lg.maxTo := by
  unfold checkAmount
  rw [if_neg limit]
  dsimp only
  split
  · exact ⟨fun _ => ‹_›, fun _ => rfl⟩
  exact ⟨fun h => (by cases h), fun h => absurd h ‹_›⟩

theorem checkAmount_fixed (limit : e.bettingStructure = .fixedLimit) (lg : Legal) (amount : Amount) :
    e.checkAmount lg amount = .ok () := if_pos limit

section

variable (turn : e.actor = some i) (able : (e.players i).canAct = true)
include turn able

theorem act_raise (x : ℤ) : act i .raise (.whole x) e = .ok () e' ↔
      (e.legal i).canRaise = true ∧ e.checkAmount (e.legal i) (.whole x) = .ok () ∧ e' = (e.raise i x).actDone i := by
  rw [act_performs turn able]
  by_cases may : (e.legal i).canRaise = true
  · cases fits : e.checkAmount (e.legal i) (.whole x) with
    | ok u =>
      have made : e.perform i .raise (.whole x) = .ok ((e.raise i x).actDone i) := by
        simp only [perform, may, fits]
        rfl
      rw [made]
      exact ⟨fun h => ⟨may, rfl, by cases h; rfl⟩, fun h => by rw [h.2.2]⟩
    | error why =>
      have refused : e.perform i .raise (.whole x) = .error why := by
        simp only [perform, may, fits]
        rfl
      rw [refused]
      exact ⟨fun h => (by cases h), fun h => (by cases h.2.1)⟩
  have refused : e.perform i .raise (.whole x) = .error (.illegalAction (.mayNotRaise i)) := by
    simp only [perform, may]
    rfl
  rw [refused]
  exact ⟨fun h => (by cases h), fun h => absurd h.1 may⟩

theorem act_mayNotRaise (may : (e.legal i).canRaise = false) (amount : Amount) :
    ∃ why, act i .raise amount e = .error (.illegalAction why) e := by
  have refused : e.perform i .raise amount = .error (.illegalAction (.mayNotRaise i)) := by
    simp only [perform, may]
    rfl
  rw [act_performs turn able, refused]
  exact ⟨_, rfl⟩

theorem act_outside (limit : e.bettingStructure ≠ .fixedLimit) (amount : Amount)
    (outside : ∀ x, amount = .whole x → ¬((e.legal i).minTo ≤ x ∧ x ≤ (e.legal i).maxTo)) :
    ∃ why, act i .raise amount e = .error (.illegalAction why) e := by
  by_cases may : (e.legal i).canRaise = true
  · have check : ∃ why, e.checkAmount (e.legal i) amount = .error (.illegalAction why) := by
      unfold checkAmount
      rw [if_neg limit]
      cases amount with
      | whole x => exact ⟨_, if_neg (outside x rfl)⟩
      | coercible x => exact ⟨_, rfl⟩
      | unconvertible => exact ⟨_, rfl⟩
    obtain ⟨why, check⟩ := check
    have refused : e.perform i .raise amount = .error (.illegalAction why) := by
      simp only [perform, may, check]
      rfl
    rw [act_performs turn able, refused]
    exact ⟨_, rfl⟩
  exact act_mayNotRaise turn able (Bool.eq_false_of_not_eq_true may) amount

end

theorem call_pays (h : e.Capped) (able : (e.players i).canAct = true) :
    ((e.call i).players i).bet = min e.currentBet ((e.players i).bet + (e.players i).stack) := by
  obtain ⟨-, -, -, chips⟩ := canAct_iff.mp able
  have high := h.high i
  unfold call
  dsimp only
  split
  · rename_i nothing
    rw [emit_players, update_same]
    unfold toCall at nothing
    show (e.players i).bet = _
    omega
  rw [emit_players, update_same]
  simp only [callChips, Player.did, Player.commit, toCall]
  omega

theorem raise_pays (h : e.Capped) (may : (e.legal i).canRaise = true) (x : ℤ) :
    let target := max (min x (e.legal i).maxTo) (e.legal i).minTo
    ((e.raise i x).players i).bet = target ∧ (e.raise i x).currentBet = target ∧
      ((e.raise i x).players i).stack = (e.players i).stack - (target - (e.players i).bet) := by
  intro target
  have tops := legal_minTo_gt h.blind h.least (h.low i) may
  have range := legal_minTo_le e i
  have room := legal_maxTo_le e i
  have high := h.high i
  obtain ⟨-, bet, stack, current, -⟩ := @raiseTo_level _ e i target high (by omega) (by omega)
  have made : e.raise i x = e.raiseTo i (target - (e.players i).bet) := if_neg (by omega)
  rw [made]
  exact ⟨bet, current, stack⟩

theorem legal_fixed (limit : e.bettingStructure = .fixedLimit) : (e.legal i).minTo = (e.legal i).maxTo := by
  simp only [legal, raiseRange, limit, min_self]

theorem exact_of_able (h : e.Capped) (turn : e.actor = some i) (able : (e.players i).canAct = true) : e.Exact i where
  fold amount := ⟨_, act_performs turn able .fold amount⟩
  call amount := ⟨_, act_performs turn able .call amount, call_pays h able⟩
  raise limit x := by
    refine ⟨⟨fun ⟨e', ran⟩ => ?_, fun ⟨may, range⟩ => ?_⟩, fun e' ran => ?_⟩
    · obtain ⟨may, fits, -⟩ := (act_raise turn able x).mp ran
      exact ⟨may, (checkAmount_whole limit _ x).mp fits⟩
    · exact ⟨_, (act_raise turn able x).mpr ⟨may, (checkAmount_whole limit _ x).mpr range, rfl⟩⟩
    obtain ⟨may, fits, rfl⟩ := (act_raise turn able x).mp ran
    obtain ⟨low, high⟩ := (checkAmount_whole limit _ x).mp fits
    have paid := raise_pays h may x
    rwa [min_eq_left high, max_eq_left low] at paid
  fixedRaise limit x := by
    refine ⟨⟨fun ⟨e', ran⟩ => ((act_raise turn able x).mp ran).1, fun may => ?_⟩, fun e' ran => ?_⟩
    · exact ⟨_, (act_raise turn able x).mpr ⟨may, checkAmount_fixed limit _ _, rfl⟩⟩
    obtain ⟨may, -, rfl⟩ := (act_raise turn able x).mp ran
    obtain ⟨bet, current, -⟩ := raise_pays h may x
    rw [← legal_fixed limit, max_eq_right (min_le_right _ _)] at bet current
    exact ⟨bet, current, legal_fixed limit⟩
  range may := ⟨legal_minTo_le e i, legal_minTo_gt h.blind h.least (h.low i) may, legal_maxTo_le e i⟩
  unknown _ _ _ := ⟨_, rfl⟩
  outOfTurn _ other action amount := act_outOfTurn turn other action amount
  mayNotRaise may amount := act_mayNotRaise turn able may amount
  outside limit amount none := act_outside turn able limit amount none

theorem exact_able (exact : e.Exact i) : (e.players i).canAct = true := by
  obtain ⟨e', ran⟩ := exact.fold (.whole 0)
  obtain ⟨j, seat, -, able, -⟩ := act_moves ran
  have same : i = j := Fin.ext (by exact_mod_cast seat)
  rwa [same]

end Engine

namespace TableOp

open Engine Method

variable {n : ℕ} {e : Engine n}

theorem next_capped (h : e.Capped) (op : TableOp n) : (next e op).Capped := by
  cases op with
  | startHand straddleFn deck => exact startHand_capped straddleFn deck e h
  | act seat action amount =>
    show (after (Engine.act seat action amount e)).Capped
    cases ran : Engine.act seat action amount e with
    | ok u e' => exact act_capped h ran
    | error x e' => rw [act_refused ran]; exact h
  | nextStreet => exact nextStreet_capped e h
  | sitOut i =>
    show (e.sitOut i).Capped
    unfold Engine.sitOut
    exact update_capped h i fun _ => rfl
  | sitIn i postNow =>
    show (e.sitIn i postNow).Capped
    unfold Engine.sitIn
    exact update_capped h i fun _ => rfl
  | addChips i amount =>
    show (after (Engine.addChips i amount e)).Capped
    unfold Engine.addChips
    split
    · exact h
    show (e.update i fun p => { p with stack := p.stack + amount }).Capped
    exact update_capped h i fun _ => rfl
  | settle runs forceTabled => exact settle_capped runs forceTabled e h

theorem run_capped (ops : List (TableOp n)) (h : e.Capped) : (run e ops).Capped := by
  induction ops generalizing e with
  | nil => exact h
  | cons op rest ih => exact ih (next_capped h op)

theorem init_capped (chips : Fin n → ℤ) (button : Fin n) {sb bb : ℤ} (small : 0 ≤ sb) (blind : 0 < bb)
    (bettingStructure : BettingStructure) (bbAnte dealSittingOut : Bool) :
    (Engine.init chips button sb bb bettingStructure bbAnte dealSittingOut).Capped :=
  ⟨small, blind, le_refl bb, fun _ => le_refl 0, fun _ => le_refl 0⟩

/-- After any calls at all, the seat whose turn it is may do exactly what it is offered if and only if it
can act at all; and it can while a hand that was dealt is being bet. -/
theorem act_takes_offer (chips : Fin n → ℤ) (button : Fin n) {sb bb : ℤ} (small : 0 ≤ sb) (blind : 0 < bb)
    (bettingStructure : BettingStructure) (bbAnte dealSittingOut : Bool) (ops : List (TableOp n)) :
    let e₀ := Engine.init chips button sb bb bettingStructure bbAnte dealSittingOut
    let e := run e₀ ops
    ∀ i, e.actor = some i → (e.Exact i ↔ (e.players i).canAct = true) ∧
      (∀ before straddleFn deck betting, ops = before ++ .startHand straddleFn deck :: betting →
        value (Engine.startHand straddleFn deck (run e₀ before)) = some true →
        Along (fun e op => op.Betting e) (next (run e₀ before) (.startHand straddleFn deck)) betting → e.Exact i) := by
  intro e₀ e i turn
  have start : e₀.Capped := init_capped chips button small blind bettingStructure bbAnte dealSittingOut
  have capped : e.Capped := run_capped ops start
  refine ⟨⟨exact_able, exact_of_able capped turn⟩, fun before straddleFn deck betting split dealt along => ?_⟩
  have started : Engine.startHand straddleFn deck (run e₀ before) =
    .ok true (next (run e₀ before) (.startHand straddleFn deck)) := eq_ok_of_value dealt
  have ready := run_capped before start
  have round : e.Round := by
    show (ops.foldl next e₀).Round
    rw [split, List.foldl_append, List.foldl_cons]
    exact along_keeps (fun _ _ round betting => betting_round round betting) betting
      (startHand_round ready.small ready.blind started) along
  exact exact_of_able capped turn (round.need i (round.turn i turn))

theorem act_takes_offer_duel :
    (run duel [.startHand none fullDeck]).actor = some 0 ∧ (run duel [.startHand none fullDeck]).Exact 0 :=
  ⟨by decide +kernel, (act_takes_offer (fun _ => 100) 1 (by decide) (by decide) .noLimit false false
    [.startHand none fullDeck] 0 (by decide +kernel)).1.mpr (by decide +kernel)⟩

/-- A hand won by a fold leaves the turn where it was. If the winner then sits out, the next hand is not
dealt, yet the seats have been reset for it: the turn is with a seat that cannot even fold. -/
theorem undealt_hand_keeps_turn :
    let e := run duel [.startHand none fullDeck, .act 0 .fold (.whole 0), .settle 1 false, .sitOut 1,
      .startHand none fullDeck]
    e.actor = some 1 ∧ (e.legal 1).canRaise = true ∧ e.accepts 1 .fold (.whole 0) = false ∧
      e.accepts 1 .call (.whole 0) = false ∧ ¬e.Exact 1 := by
  refine ⟨by decide +kernel, by decide +kernel, by decide +kernel, by decide +kernel, fun exact => ?_⟩
  have able := Engine.exact_able exact
  revert able
  decide +kernel

end TableOp

end Holdem
