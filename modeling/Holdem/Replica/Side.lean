import Holdem.Engine.SettleView
import Holdem.Replica.Moves

/-!
Replicas side by side. Whatever relation between their engines the steps of an engine keep, the calls on
a replica keep it too.
-/

namespace Holdem.Replica

variable {n : ℕ} {r s : Replica n} {R : Engine n → Engine n → Prop} {T : Finset ℤ → Finset ℤ → Prop}

open Method Engine

structure Carries (R : Engine n → Engine n → Prop) : Prop extends Acts R where
  street : ∀ {e f}, R e f → e.street = f.street
  phase : ∀ {e f}, R e f → phaseOf e = phaseOf f

structure Side (R : Engine n → Engine n → Prop) (T : Finset ℤ → Finset ℤ → Prop) (r s : Replica n) : Prop where
  engine : R r.engine s.engine
  real : T r.realHoles s.realHoles
  handNo : r.handNo = s.handNo
  startTotal : r.startTotal = s.startTotal
  nextSeq : r.nextSeq = s.nextSeq
  phase : r.phase = s.phase
  pending : r.pending = s.pending
  result : r.result = s.result

theorem Side.mono {R' : Engine n → Engine n → Prop} (h : Side R T r s) (weaken : R r.engine s.engine → R' r.engine s.engine) :
    Side R' T r s :=
  { h with engine := weaken h.engine }

theorem Side.withEngine {e f : Engine n} (h : Side R T r s) (engine : R e f) : Side R T (r.withEngine e) (s.withEngine f) :=
  { h with engine }

theorem onEngine_of_ok {α : Type} {m : EngineM n α} {a : α} {e : Engine n} (ran : m r.engine = .ok a e) :
    onEngine m r = .ok a (r.withEngine e) := by
  unfold onEngine within
  rw [ran]

theorem Side.onEngine {α : Type} {m : EngineM n α} (h : Side R T r s) (ran : Matches R (m r.engine) (m s.engine)) :
    Matches (Side R T) (onEngine m r) (onEngine m s) := by
  unfold Replica.onEngine within
  generalize m r.engine = left, m s.engine = right at ran
  cases ran with
  | ok engine => exact .ok (h.withEngine engine)
  | error engine => exact .error (h.withEngine engine)

theorem Side.countOn (h : Side R T r s) : Side R T r.countOn s.countOn :=
  { h with nextSeq := congrArg (· + 1) h.nextSeq }

theorem Side.unqueue (h : Side R T r s) (seq : ℤ) : Side R T (r.unqueue seq) (s.unqueue seq) :=
  { h with pending := congrArg (List.filter fun waiting : ℤ × Entry => waiting.1 ≠ seq) h.pending }

theorem Side.enqueue (h : Side R T r s) (seq : ℤ) (entry : Entry) : Side R T (r.enqueue seq entry) (s.enqueue seq entry) :=
  { h with pending := congrArg (· ++ [(seq, entry)]) h.pending }

theorem seatAt_val (i : Fin n) : seatAt n i.val = some i := by
  have range : 0 ≤ (i.val : ℤ) ∧ (i.val : ℤ) < n := by omega
  rw [seatAt, dif_pos range]
  rfl

section Carries

variable (carries : Carries R)
include carries

theorem Side.recomputePhase (h : Side R T r s) : Side R T r.recomputePhase s.recomputePhase := by
  refine { h with phase := ?_ }
  show (if r.phase = .settled then _ else _) = if s.phase = .settled then _ else _
  rw [h.phase, carries.phase h.engine]

theorem submit_side (seat : ℤ) (action : Action) (amount : ℤ) :
    Related (Side R T) (Side R T) (submit (n := n) seat action amount) (submit seat action amount) := by
  intro r s h
  have acted := carries.act seat action (.whole amount) r.engine s.engine h.engine
  unfold submit
  generalize act seat action (.whole amount) r.engine = left, act seat action (.whole amount) s.engine = right at acted
  cases acted with
  | ok engine => exact .ok ((h.withEngine engine).recomputePhase carries)
  | @error x _ _ engine =>
    cases x with
    | illegalAction why => exact .ok (h.withEngine engine)
    | _ => exact .error (h.withEngine engine)

theorem applyNow_side (entry : Entry) : Related (Side R T) (Side R T) (applyNow (n := n) entry) (applyNow entry) := by
  intro r s h
  unfold applyNow
  rw [h.phase, carries.actor h.engine]
  split
  · exact .ok h
  split
  · exact .ok h
  rename_i seat _
  rw [carries.legal h.engine seat]
  split
  · exact .ok h
  split
  · exact .ok h
  split
  · exact .ok h
  exact submit_side carries entry.seat entry.action entry.amount r s h

theorem drainFor_side (fuel : ℕ) : Related (Side R T) (Side R T) (drainFor (n := n) fuel) (drainFor fuel) := by
  induction fuel with
  | zero => exact related_pure _
  | succ fuel ih =>
    intro r s h
    unfold drainFor
    rw [h.pending, h.nextSeq]
    split
    · exact .ok h
    rename_i entry _
    refine related_bind (applyNow_side carries entry) (fun _ _ h => h) (fun verdict => ?_) _ _ (h.unqueue _)
    split
    · exact related_bind (related_modify fun _ _ h => h.countOn) (fun _ _ h => h) fun _ => ih
    exact related_pure _

theorem drainPending_side : Related (Side R T) (Side R T) (drainPending (n := n)) drainPending := by
  intro r s h
  unfold drainPending
  rw [h.pending]
  exact drainFor_side carries _ r s h

omit carries in
theorem buffer_side (seq : ℤ) (entry : Entry) :
    Related (Side R T) (Side R T) (buffer (n := n) seq entry) (buffer seq entry) := by
  intro r s h
  unfold buffer
  rw [h.pending, h.nextSeq]
  split
  · exact .ok h
  split
  · exact .ok h
  exact .ok (h.enqueue seq entry)

theorem applyAction_side (seq : ℤ) (entry : Entry) :
    Related (Side R T) (Side R T) (applyAction (n := n) seq entry) (applyAction seq entry) := by
  intro r s h
  unfold applyAction
  rw [h.nextSeq]
  split
  · exact .ok h
  split
  · exact buffer_side seq entry r s h
  refine related_bind (applyNow_side carries entry) (fun _ _ h => h) (fun verdict => ?_) r s h
  split
  · refine related_bind (related_modify fun _ _ h => h.countOn) (fun _ _ h => h) fun _ => ?_
    exact related_bind (drainPending_side carries) (fun _ _ h => h) fun _ => related_pure _
  exact related_pure _

theorem Side.advanceStreet (h : Side R T r s) (cards : List (Option Card))
    (deals : r.phase = .streetOver → ∀ next, r.engine.street.deals = some (cards.reduceOption.length, next) →
      Matches R (nextStreet (r.preload cards.reduceOption).engine) (nextStreet (s.preload cards.reduceOption).engine)) :
    Matches (Side R T) (advanceStreet cards r) (advanceStreet cards s) := by
  unfold Replica.advanceStreet
  rw [← h.phase, ← carries.street h.engine]
  split
  · exact .error h
  rename_i shut
  split
  · exact .error h
  rename_i need due
  split
  · exact .error h
  rename_i good
  rw [not_or, not_not] at good
  obtain ⟨next, deal⟩ := cardsDue_deals due
  rw [← good.1, ← length_reduceOption good.2] at deal
  have dealt := deals (not_not.mp shut) next deal
  have opened : Matches (Side R T) (Replica.onEngine nextStreet (r.preload cards.reduceOption))
      (Replica.onEngine nextStreet (s.preload cards.reduceOption)) := by
    unfold Replica.onEngine within
    generalize nextStreet (r.preload cards.reduceOption).engine = left,
      nextStreet (s.preload cards.reduceOption).engine = right at dealt
    cases dealt with
    | ok engine => exact .ok (h.withEngine engine)
    | error engine => exact .error (h.withEngine engine)
  change Matches (Side R T) ((Replica.onEngine nextStreet >>= fun _ => modify Replica.recomputePhase) (r.preload cards.reduceOption))
    ((Replica.onEngine nextStreet >>= fun _ => modify Replica.recomputePhase) (s.preload cards.reduceOption))
  exact opened.bind (fun _ _ h => h) fun _ t t' _ _ related => .ok (related.recomputePhase carries)

end Carries

theorem conclude_side (chips : ∀ {e f}, R e f → ∀ i, (e.players i).stack = (f.players i).stack) (result : SettleResult n) :
    Related (Side R T) (Side R T) (conclude result) (conclude result) := by
  intro r s h
  have total : ∑ i, r.stackOf i = ∑ i, s.stackOf i := Finset.sum_congr rfl fun i _ => chips h.engine i
  unfold conclude
  dsimp only
  rw [total, h.startTotal]
  split
  · exact .error h
  exact .ok { h with result := rfl, phase := rfl }

theorem Side.finish {forceTabled : Bool} (settles : Settles forceTabled R)
    (chips : ∀ {e f}, R e f → ∀ i, (e.players i).stack = (f.players i).stack) (h : Side R T r s)
    (unverified : r.unverified = s.unverified)
    (holes : r.unverified = [] → ∀ i ∈ r.engine.contested, (r.engine.players i).hole = (s.engine.players i).hole) :
    Matches (Side R T) (finish forceTabled r) (finish forceTabled s) := by
  have contested := settles.contested h.engine
  unfold Replica.finish
  rw [← h.phase, ← settles.board h.engine, ← unverified, ← contested]
  split
  · exact .error h
  split
  · exact .error h
  rename_i complete
  split
  · exact .error h
  rename_i verified
  have ran := settles.settle 1 h.engine (fun many i member => holes (by tauto) i member) (by omega)
  exact (h.onEngine ran).bind (fun _ _ h => h) fun raw t t' _ _ related => conclude_side chips raw t t' related

end Holdem.Replica
