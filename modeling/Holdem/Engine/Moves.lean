import Holdem.Engine.Act

/-!
What an accepted action can do. `act_moves` says it once, guards included; everything that is
invariant under actions is read off the moves.
-/

namespace Holdem.Engine

variable {n : ℕ} {e e' : Engine n} {i : Fin n} {action : Action} {amount : Amount} {seat : ℤ} {x : PyError}
  {value : ℤ}

inductive Move (e : Engine n) (i : Fin n) : Action → Engine n → Prop
  | fold : Move e i .fold (e.fold i)
  | call : Move e i .call (e.call i)
  | raise (target : ℤ) (may : (e.legal i).canRaise = true) (low : (e.legal i).minTo ≤ target)
      (high : target ≤ (e.legal i).maxTo) (adds : (e.players i).bet < target) :
      Move e i .raise (e.raiseTo i (target - (e.players i).bet))
  | raiseCall (may : (e.legal i).canRaise = true) (nothing : (e.legal i).minTo ≤ (e.players i).bet) :
      Move e i .raise (e.call i)

theorem legal_minTo_le (e : Engine n) (i : Fin n) : (e.legal i).minTo ≤ (e.legal i).maxTo :=
  min_le_right _ _

theorem legal_maxTo_le (e : Engine n) (i : Fin n) : (e.legal i).maxTo ≤ (e.players i).bet + (e.players i).stack := by
  simp only [legal, raiseRange, fixedTarget]
  split <;> omega

theorem legal_canRaise (may : (e.legal i).canRaise = true) :
    e.toCall (e.players i) < (e.players i).stack ∧ e.currentBet < (e.legal i).maxTo := by
  simp only [legal, decide_eq_true_eq] at may
  exact ⟨may.1, may.2.2.2⟩

theorem legal_minTo_gt (blind : 0 < e.bb) (least : e.bb ≤ e.minRaise) (bet : 0 ≤ (e.players i).bet)
    (may : (e.legal i).canRaise = true) : e.currentBet < (e.legal i).minTo := by
  have tops := (legal_canRaise may).2
  simp only [legal, raiseRange, minTarget, fixedTarget] at tops ⊢
  split at tops <;> split_ifs at tops ⊢ <;> omega

theorem move_raise (value : ℤ) (may : (e.legal i).canRaise = true) : Move e i .raise (e.raise i value) := by
  have range := legal_minTo_le e i
  unfold raise
  dsimp only
  split
  · exact .raiseCall may (by omega)
  exact .raise (max (min value (e.legal i).maxTo) (e.legal i).minTo) may (by omega) (by omega) (by omega)

theorem perform_moves (h : e.perform i action amount = .ok e') :
    ∃ moved, Move e i action moved ∧ e' = moved.actDone i := by
  cases action with
  | fold => cases h; exact ⟨_, .fold, rfl⟩
  | call => cases h; exact ⟨_, .call, rfl⟩
  | other word => cases h
  | raise =>
    simp only [perform] at h
    split at h
    · cases h
    rename_i may
    cases checked : e.checkAmount (e.legal i) amount with
    | error x => rw [checked] at h; cases h
    | ok u =>
      cases whole : amount.int with
      | error x => rw [checked, whole] at h; cases h
      | ok value =>
        rw [checked, whole] at h
        cases h
        exact ⟨_, move_raise value (by simpa using may), rfl⟩

theorem act_moves {u : Unit} (h : act seat action amount e = .ok u e') :
    ∃ i : Fin n, seat = i.val ∧ e.actor = some i ∧ (e.players i).canAct = true ∧
      ∃ moved, Move e i action moved ∧ e' = moved.actDone i := by
  unfold act at h
  dsimp only at h
  split at h
  · cases h
  split at h
  · rename_i range
    split at h
    · cases h
    rename_i actor
    split at h
    · cases h
    rename_i able
    split at h
    · rename_i done
      cases h
      exact ⟨⟨seat.toNat, by omega⟩, by simp; omega, by simpa using actor, by simpa using able, perform_moves done⟩
    cases h
  cases h

theorem act_refused (h : act seat action amount e = .error x e') : e' = e := by
  unfold act at h
  dsimp only at h
  split at h
  · cases h; rfl
  split at h
  · split at h
    · cases h; rfl
    split at h
    · cases h; rfl
    split at h <;> cases h
    rfl
  cases h; rfl

theorem perform_illegal (h : e.perform i action (.whole value) = .error x) : ∃ why, x = .illegalAction why := by
  cases action with
  | fold => cases h
  | call => cases h
  | other word => cases h; exact ⟨_, rfl⟩
  | raise =>
    simp only [perform] at h
    split at h
    · cases h; exact ⟨_, rfl⟩
    unfold checkAmount at h
    split at h
    · cases h
    dsimp only at h
    split at h
    · cases h
    cases h; exact ⟨_, rfl⟩

theorem act_illegal (h : act seat action (.whole value) e = .error x e') : ∃ why, x = .illegalAction why := by
  unfold act at h
  dsimp only at h
  split at h
  · cases h; exact ⟨_, rfl⟩
  split at h
  · split at h
    · cases h; exact ⟨_, rfl⟩
    split at h
    · cases h; exact ⟨_, rfl⟩
    split at h
    · cases h
    rename_i failed
    cases h
    exact perform_illegal failed
  cases h; exact ⟨_, rfl⟩

end Holdem.Engine
