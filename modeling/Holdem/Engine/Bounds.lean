import Holdem.Engine.Hand

/-!
How long a hand can be. A seat's budget is its stack, one fold, the streets to come, and the check it
may still owe this street: each of its actions spends at least one unit.
-/

namespace Holdem

open Method TableOp

namespace TableOp

variable {n : ℕ}

def isAct : TableOp n → Bool
  | act _ _ _ => true
  | _ => false

def actsFor (i : Fin n) : TableOp n → Bool
  | act seat _ _ => decide (seat = i.val)
  | _ => false

end TableOp

namespace Engine

variable {n : ℕ} {e e' : Engine n} {i j : Fin n} {action : Action} {op : TableOp n}

def owesCheck (e : Engine n) (i : Fin n) : Bool := decide (i ∈ e.needToAct ∧ (e.players i).bet = e.currentBet)

def budget (e : Engine n) (i : Fin n) : ℤ :=
  (e.players i).stack + (!(e.players i).folded).toNat + e.street.ahead + (e.owesCheck i).toNat

theorem actDone_owes (e : Engine n) (i : Fin n) : (e.actDone i).owesCheck i = false := by
  simp [owesCheck, actDone]

theorem budget_acted (street : e'.street = e.street)
    (spends : (e'.players i).stack ≤ (e.players i).stack ∧ ((e'.players i).folded = false → (e.players i).folded = false))
    (pays : (e'.players i).stack < (e.players i).stack ∨ (e.players i).folded = false ∧ (e'.players i).folded = true ∨
      e.owesCheck i = true) : (e'.actDone i).budget i + 1 ≤ e.budget i := by
  have owes := actDone_owes e' i
  have street' : (e'.actDone i).street = e.street := street
  have players : (e'.actDone i).players i = e'.players i := rfl
  unfold budget
  rw [owes, street', players]
  cases was : (e.players i).folded <;> cases now : (e'.players i).folded <;> simp_all <;>
    cases check : e.owesCheck i <;> simp_all <;> omega

theorem budget_other (street : e'.street = e.street) (same : e'.players j = e.players j)
    (fewer : e'.owesCheck j = true → e.owesCheck j = true) : e'.budget j ≤ e.budget j := by
  unfold budget
  rw [same, street]
  cases now : e'.owesCheck j with
  | false => simp
  | true => rw [fewer now]

theorem call_stack (able : (e.players i).canAct = true) (high : (e.players i).bet ≤ e.currentBet)
    (asked : i ∈ e.needToAct) : ((e.call i).players i).stack ≤ (e.players i).stack ∧
      (((e.call i).players i).stack < (e.players i).stack ∨ e.owesCheck i = true) := by
  obtain ⟨-, -, -, chips⟩ := canAct_iff.mp able
  unfold call
  dsimp only
  split
  · rename_i nothing
    rw [emit_players, update_same]
    unfold toCall at nothing
    refine ⟨le_refl _, Or.inr ?_⟩
    simp only [owesCheck, decide_eq_true_eq]
    exact ⟨asked, by omega⟩
  rename_i something
  rw [emit_players, update_same]
  simp only [callChips, Player.did, Player.commit, toCall] at something ⊢
  exact ⟨by omega, Or.inl (by omega)⟩

theorem folded_of_hands (same : e'.hands = e.hands) (i : Fin n) : (e'.players i).folded = (e.players i).folded := by
  have := congrFun same i
  simp only [hands, Player.hand, Prod.mk.injEq] at this
  exact this.2.1

theorem move_street (move : Move e i action e') : e'.street = e.street :=
  congrArg (fun s : Table n × Layout n => s.2.street) (move_still move)

theorem act_budget {seat : ℤ} {amount : Amount} {u : Unit} (round : e.Round)
    (ran : act seat action amount e = .ok u e') :
    ∃ i : Fin n, seat = i.val ∧ e'.budget i + 1 ≤ e.budget i ∧ ∀ j, j ≠ i → e'.budget j ≤ e.budget j := by
  obtain ⟨i, index, turn, able, moved, move, rfl⟩ := act_moves ran
  have street := move_street move
  refine ⟨i, index, ?_, fun j other => ?_⟩
  · obtain ⟨-, rfl⟩ | ⟨-, rfl⟩ | ⟨-, target, -, adds, raised⟩ := move_cases round move
    · obtain ⟨-, playing, -, -⟩ := canAct_iff.mp able
      refine budget_acted street ?_ ?_ <;> rw [fold_same]
      · exact ⟨le_refl _, fun h => by cases h⟩
      exact Or.inr (Or.inl ⟨playing, rfl⟩)
    · obtain ⟨most, spent⟩ := call_stack able (round.high i) (round.turn i turn)
      exact budget_acted street ⟨most, fun h => by rwa [folded_of_hands (hands_call e i)] at h⟩
        (spent.imp id Or.inr)
    have stack := raised.stack
    exact budget_acted street ⟨by omega, fun h => by rwa [folded_of_hands raised.hands] at h⟩ (Or.inl (by omega))
  obtain ⟨-, rfl⟩ | ⟨-, rfl⟩ | ⟨-, target, tops, -, raised⟩ := move_cases round move
  · refine budget_other street (fold_other other) fun owes => ?_
    simp only [owesCheck, decide_eq_true_eq] at owes ⊢
    exact ⟨Finset.mem_of_mem_erase owes.1, by rw [← fold_other other]; exact owes.2⟩
  · have same : (e.call i).currentBet = e.currentBet ∧ (e.call i).needToAct = e.needToAct := by
      unfold call
      dsimp only
      split <;> exact ⟨rfl, rfl⟩
    refine budget_other street (call_other other) fun owes => ?_
    simp only [owesCheck, decide_eq_true_eq] at owes ⊢
    refine ⟨same.2 ▸ Finset.mem_of_mem_erase owes.1, ?_⟩
    rw [← call_other other, ← same.1]
    exact owes.2
  refine budget_other street (raised.others j other) fun owes => ?_
  simp only [owesCheck, decide_eq_true_eq] at owes
  have level : (moved.players j).bet = moved.currentBet := owes.2
  have high := round.high j
  rw [raised.others j other, raised.current] at level
  omega

theorem clearBets_stack (e : Engine n) (j : Fin n) : (e.clearBets.players j).stack = (e.players j).stack := by
  simp only [clearBets]
  split <;> rfl

theorem budget_street {s : Engine n} (hands : s.hands = e.hands) (stack : (s.players j).stack = (e.players j).stack)
    (less : s.street.ahead + (s.owesCheck j).toNat ≤ e.street.ahead) : s.budget j ≤ e.budget j := by
  unfold budget
  rw [folded_of_hands hands, stack]
  omega

theorem nextStreet_budget (round : e.Round) (closed : e.actor = none) (playing : e.street ≠ .idle)
    (before : e.street ≠ .showdown) (j : Fin n) : (after (nextStreet e)).budget j ≤ e.budget j := by
  have hands := nextStreet_hands e.hands e rfl
  have cleared : e.clearBets.owesCheck j = false := by
    have empty : e.clearBets.needToAct = ∅ := round.closed.mp closed
    simp [owesCheck, empty]
  rcases nextStreet_cases e with ⟨k, street, rest, out, deals, -, -, ran⟩ | ⟨k, street, x, deals, -, ran⟩ |
    ⟨river, ran⟩ | ⟨stuck, ran⟩
  · have layout := openStreet_layout { e.clearBets with deck := rest, board := e.board ++ out, street }
    have less : street.ahead + 1 = e.street.ahead := by
      cases at' : e.street <;> rw [at'] at deals <;> cases deals <;> rfl
    rw [ran, after_ok] at hands ⊢
    refine budget_street hands ?_ ?_
    · rw [openStreet_players]
      exact clearBets_stack e j
    rw [show (openStreet _).street = street from congrArg Layout.street layout]
    have check := Bool.toNat_le (owesCheck (openStreet
      { e.clearBets with deck := rest, board := e.board ++ out, street }) j)
    omega
  · rw [ran, after_error] at hands ⊢
    exact budget_street hands (clearBets_stack e j) (by rw [cleared]; exact le_refl e.street.ahead)
  · rw [ran, after_ok] at hands ⊢
    refine budget_street hands (clearBets_stack e j) ?_
    change 0 + (e.clearBets.owesCheck j).toNat ≤ _
    simp [cleared]
  obtain idle | shown := stuck
  · exact absurd idle playing
  exact absurd shown before

def Running (e : Engine n) : Prop := e.Round ∧ e.street ≠ .idle

theorem running_step (running : e.Running) (betting : op.Betting e) (before : op.BeforeShowdown e) :
    (op.next e).Running ∧ ∀ i, (op.actsFor i).toNat + (op.next e).budget i ≤ e.budget i := by
  obtain ⟨round, playing⟩ := running
  cases op with
  | act seat action amount =>
    obtain ⟨_, e', ran, step⟩ := accepts_ran betting
    rw [step]
    have street : e'.street = e.street := congrArg Layout.street (act_layout ran)
    obtain ⟨i, rfl, cost, others⟩ := act_budget round ran
    refine ⟨⟨act_round round ran, street ▸ playing⟩, fun j => ?_⟩
    by_cases other : j = i
    · subst other
      simp only [actsFor, decide_true, Bool.toNat_true]
      omega
    have different : ((i.val : ℤ) = j.val) = False := by
      simp only [Int.natCast_inj, eq_iff_iff, iff_false]
      exact fun same => other (Fin.ext same.symm)
    simp only [actsFor, different, decide_false, Bool.toNat_false]
    have := others j other
    omega
  | nextStreet =>
    refine ⟨⟨nextStreet_round round betting, fun idle => playing (nextStreet_idle idle)⟩, fun j => ?_⟩
    have := nextStreet_budget round betting playing before j
    simp only [actsFor, Bool.toNat_false, TableOp.next]
    omega
  | _ => exact betting.elim

theorem running_run (ops : List (TableOp n)) (running : e.Running)
    (along : Along (fun e op => op.Betting e ∧ op.BeforeShowdown e) e ops) (i : Fin n) :
    (ops.countP (actsFor i) : ℤ) + (run e ops).budget i ≤ e.budget i := by
  induction ops generalizing e with
  | nil => simp [run]
  | cons op rest ih =>
    obtain ⟨⟨betting, before⟩, along⟩ := along
    obtain ⟨running', step⟩ := running_step running betting before
    have later := ih running' along
    have here := step i
    rw [List.countP_cons]
    change _ + (run (op.next e) rest).budget i ≤ _
    cases acts : op.actsFor i <;> simp only [acts, Bool.toNat_true, Bool.toNat_false] at here <;> simp <;> omega

theorem acts_total (ops : List (TableOp n)) (along : Along (fun e op => op.Betting e ∧ op.BeforeShowdown e) e ops) :
    ops.countP isAct = ∑ i : Fin n, ops.countP (actsFor i) := by
  induction ops generalizing e with
  | nil => simp
  | cons op rest ih =>
    obtain ⟨⟨betting, -⟩, along⟩ := along
    simp only [List.countP_cons, Finset.sum_add_distrib, ih along]
    congr 1
    cases op with
    | act seat action amount =>
      obtain ⟨_, _, ran, -⟩ := accepts_ran betting
      obtain ⟨i, rfl, -⟩ := act_moves ran
      simp [isAct, actsFor, Fin.val_inj]
    | nextStreet => simp [isAct, actsFor]
    | _ => exact betting.elim

theorem betting_solvent (solvent : e.Solvent) (betting : op.Betting e) : (op.next e).Solvent := by
  cases op with
  | act seat action amount =>
    obtain ⟨_, e', ran, step⟩ := accepts_ran betting
    exact step ▸ pays_solvent (act_pays ran) solvent
  | nextStreet => exact pays_solvent (nextStreet_pays e e (pays_refl e)) solvent
  | _ => exact betting.elim

theorem acts_bounded {straddleFn : Option (Fin n → Bool)} {deck : List Card} (chips : ∀ i, 0 ≤ (e.players i).stack)
    (small : 0 ≤ e.sb) (big : 0 < e.bb) (started : startHand straddleFn deck e = .ok true e') (ops : List (TableOp n))
    (along : Along (fun e op => op.Betting e ∧ op.BeforeShowdown e) e' ops) (i : Fin n) :
    (ops.countP (actsFor i) : ℤ) ≤ (e'.players i).stack + 5 := by
  have street := startHand_street started
  have spent := running_run ops ⟨startHand_round small big started, by rw [street]; simp⟩ along i
  have start : e'.budget i ≤ (e'.players i).stack + 5 := by
    have fold := Bool.toNat_le (!(e'.players i).folded)
    have check := Bool.toNat_le (e'.owesCheck i)
    unfold budget
    rw [street]
    simp only [Street.ahead]
    omega
  have final : 0 ≤ (run e' ops).budget i := by
    have solvent : (run e' ops).Solvent := along_keeps (fun _ _ solvent cond => betting_solvent solvent cond.1) ops
      (fun j => (startHand_chips small (le_of_lt big) started j).2 (chips j)) along
    have stack := (solvent i).stack
    unfold budget
    omega
  omega

end Engine

end Holdem
