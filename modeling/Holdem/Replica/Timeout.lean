import Holdem.Engine.Offer
import Holdem.Replica.Interference

/-!
`_apply_betting_timeout`. A fold is in the replica's vocabulary; the word `check` is not, so an absent
player with nothing to call holds the hand up.
-/

namespace Holdem.Replica

open Engine Method

variable {n : ℕ} {r : Replica n} {i : Fin n} {seatOrder : List String} {token : DeadlineToken}

/-- What a betting timeout reads of a `DeadlineToken`. -/
structure DeadlineToken where
  actor : Option String
  actionSeq : ℤ

/-- The verdict of the replica, if it was asked for one: `_pump_hand` goes on from there. -/
def applyBettingTimeout (seatOrder : List String) (handVoided : Bool) (token : DeadlineToken) :
    ReplicaM n (Option Verdict) := fun r =>
  if handVoided then .ok none r
  else match token.actor.bind seatOrder.idxOf? with
    | none => .ok none r
    | some seat =>
      match seatAt n seat with
      | none => .error .indexError r
      | some i =>
        let action := if 0 < (r.engine.legal i).toCall then Action.fold else .other "check"
        (do return some (← applyAction token.actionSeq ⟨seat, action, 0⟩)) r

/-- The engine after a fold, or after a check: a call of nothing. -/
def defaulted (e : Engine n) (i : Fin n) : Engine n :=
  if 0 < (e.legal i).toCall then (e.fold i).actDone i else (e.call i).actDone i

/-- One action is taken for the seat, at no cost to anyone, and only then do buffered actions drain. -/
structure MovesOn (r : Replica n) (i : Fin n) (result : EStateM.Result PyError (Replica n) (Option Verdict)) : Prop where
  one : result = (drainPending >>= fun _ => pure (some .applied)) (r.moved (defaulted r.engine i)).countOn
  free : ∀ j, ((defaulted r.engine i).players j).stack = (r.engine.players j).stack ∧
    ((defaulted r.engine i).players j).bet = (r.engine.players j).bet

theorem fold_keeps {α : Type} (g : Player → α) (e : Engine n) (i j : Fin n)
    (same : ∀ p : Player, g { p with folded := true, lastAction := .fold } = g p) :
    g (((e.fold i).actDone i).players j) = g (e.players j) :=
  congrFun (update_keeps (e := e) (f := fun p => { p with folded := true, lastAction := .fold }) g i (same _)) j

theorem fold_accepted (betting : r.phase = .betting) (turn : r.engine.actor = some i)
    (able : (r.engine.players i).canAct = true) : r.Accepted ⟨i.val, .fold, 0⟩ ((r.engine.fold i).actDone i) := by
  refine ⟨betting, ?_⟩
  rw [act_performs turn able]
  rfl

theorem not_movesOn {answer : Option Verdict} {t : Replica n} (other : answer ≠ some .applied) : ¬MovesOn r i (.ok answer t) := by
  rintro ⟨one, -⟩
  rw [bind_apply] at one
  cases drained : drainPending (r.moved (defaulted r.engine i)).countOn with
  | ok done s =>
    rw [drained] at one
    injection one with same
    exact other same
  | error x s =>
    rw [drained] at one
    cases one

section

variable (named : token.actor.bind seatOrder.idxOf? = some i.val) (current : token.actionSeq = r.nextSeq)
include named current

theorem applyBettingTimeout_asks : applyBettingTimeout seatOrder false token r =
      (applyAction r.nextSeq ⟨i.val, if 0 < (r.engine.legal i).toCall then .fold else .other "check", 0⟩ >>=
        fun verdict => pure (some verdict) : ReplicaM n (Option Verdict)) r := by
  have seat : seatAt n ((i : ℕ) : ℤ) = some i := by simp [seatAt]
  rw [applyBettingTimeout, if_neg Bool.false_ne_true, named]
  simp only [seat, current]

theorem applyBettingTimeout_refused (waits : ¬(0 < (r.engine.legal i).toCall ∧ (r.engine.players i).canAct = true)) :
    applyBettingTimeout seatOrder false token r = .ok (some .rejected) r := by
  rw [applyBettingTimeout_asks named current]
  rcases applyAction_next ⟨i.val, if 0 < (r.engine.legal i).toCall then .fold else .other "check", 0⟩ r
    with rejected | ⟨engine, accepted, -, -⟩
  · rw [bind_of_ok rejected]
    rfl
  obtain ⟨seat, same, -, able, acted, move, -⟩ := act_moves accepted.ran
  obtain rfl : i = seat := Fin.ext (by simpa using same)
  dsimp only at move
  rw [if_neg fun faces => waits ⟨faces, able⟩] at move
  cases move

end

/-- A betting timeout moves the hand on exactly for a seat that faces a bet and can act, in a hand that is not void. -/
theorem timeout_moves_on_iff {token : DeadlineToken} (handVoided : Bool) (betting : r.phase = .betting)
    (turn : r.engine.actor = some i) (named : token.actor.bind seatOrder.idxOf? = some i.val)
    (current : token.actionSeq = r.nextSeq) : MovesOn r i (applyBettingTimeout seatOrder handVoided token r) ↔
      handVoided = false ∧ 0 < (r.engine.legal i).toCall ∧ (r.engine.players i).canAct = true := by
  cases handVoided with
  | true => exact iff_of_false (not_movesOn (by simp)) (by simp)
  | false =>
    rw [and_iff_right rfl]
    by_cases moves : 0 < (r.engine.legal i).toCall ∧ (r.engine.players i).canAct = true
    · have folds : defaulted r.engine i = (r.engine.fold i).actDone i := if_pos moves.1
      refine iff_of_true ⟨?_, fun j => ?_⟩ moves
      · rw [applyBettingTimeout_asks named current, if_pos moves.1, bind_apply, applyAction_accepts (fold_accepted betting turn moves.2), folds, bind_apply, bind_apply]
        cases drainPending (r.moved ((r.engine.fold i).actDone i)).countOn <;> rfl
      rw [folds]
      exact ⟨fold_keeps Player.stack _ _ _ fun _ => rfl, fold_keeps Player.bet _ _ _ fun _ => rfl⟩
    rw [applyBettingTimeout_refused named current moves]
    exact iff_of_false (not_movesOn (by simp)) moves

theorem timeout_moves_on_iff_dealt :
    MovesOn dealt 0 (applyBettingTimeout ["host", "guest"] false ⟨some "host", 0⟩ dealt) :=
  (timeout_moves_on_iff (r := dealt) (i := 0) false (by decide +kernel) (by decide +kernel) (by decide +kernel)
    (by decide +kernel)).mpr (by decide +kernel)

/-- When the button calls, the big blind has nothing to call, and the hand waits for it for good. -/
theorem check_rejected :
    let limps := after (applyAction 0 ⟨0, .call, 0⟩ dealt)
    limps.phase = .betting ∧ limps.engine.actor = some 1 ∧ limps.nextSeq = 1 ∧
      applyBettingTimeout ["host", "guest"] false ⟨some "guest", 1⟩ limps = .ok (some .rejected) limps := by
  refine ⟨by decide +kernel, by decide +kernel, by decide +kernel, ?_⟩
  exact applyBettingTimeout_refused (i := 1) (by decide +kernel) (by decide +kernel) (by decide +kernel)

end Holdem.Replica
