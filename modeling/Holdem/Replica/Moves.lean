import Mathlib.Data.List.ReduceOption
import Holdem.Engine.View
import Holdem.Engine.Betting
import Holdem.Replica.Table

/-!
What the calls on a replica can do. An action that is up is applied by the engine or refused without
a trace; a street is dealt exactly the cards revealed.
-/

namespace Holdem.Replica

variable {n : ℕ} {r r' : Replica n} {entry : Entry} {engine : Engine n} {cards : List (Option Card)}
  {bbSeat sbSeat : Option (Fin n)} {deck : List Card} {button : Fin n} {started : Bool}

open Method Engine

def moved (r : Replica n) (engine : Engine n) : Replica n := (r.withEngine engine).recomputePhase

theorem phaseOf_open (e : Engine n) : phaseOf e ≠ .settled := by
  unfold phaseOf
  repeat' split
  all_goals decide

theorem moved_phase (on : r.phase ≠ .settled) (engine : Engine n) : (r.moved engine).phase = phaseOf engine := by
  change (if r.phase = .settled then _ else _) = _
  rw [if_neg on]
  rfl

structure Accepted (r : Replica n) (entry : Entry) (engine : Engine n) : Prop where
  betting : r.phase = .betting
  ran : act entry.seat entry.action (.whole entry.amount) r.engine = .ok () engine

theorem submit_cases (seat : ℤ) (action : Action) (amount : ℤ) (r : Replica n) :
    submit seat action amount r = .ok .rejected r ∨ ∃ engine, act seat action (.whole amount) r.engine = .ok () engine ∧
        submit seat action amount r = .ok .applied (r.moved engine) := by
  unfold submit
  cases ran : act seat action (.whole amount) r.engine with
  | ok u engine => exact .inr ⟨engine, rfl, rfl⟩
  | error x engine =>
    obtain ⟨why, rfl⟩ := act_illegal ran
    obtain rfl := act_refused ran
    exact .inl rfl

theorem applyNow_cases (entry : Entry) (r : Replica n) : applyNow entry r = .ok .rejected r ∨
      ∃ engine, r.Accepted entry engine ∧ applyNow entry r = .ok .applied (r.moved engine) := by
  unfold applyNow
  split
  · exact .inl rfl
  rename_i betting
  split
  · exact .inl rfl
  split
  · exact .inl rfl
  split
  · exact .inl rfl
  split
  · exact .inl rfl
  obtain refused | ⟨engine, ran, applied⟩ := submit_cases entry.seat entry.action entry.amount r
  · exact .inl refused
  exact .inr ⟨engine, ⟨not_not.mp betting, ran⟩, applied⟩

theorem applyNow_accepts (h : r.Accepted entry engine) : applyNow entry r = .ok .applied (r.moved engine) := by
  obtain ⟨i, seat, actor, -, acted, move, -⟩ := act_moves h.ran
  have submits : submit entry.seat entry.action entry.amount r = .ok .applied (r.moved engine) := by
    unfold submit
    rw [h.ran]
    rfl
  unfold applyNow
  rw [if_neg (by simp [h.betting]), actor]
  dsimp only
  rw [if_neg (by simp [seat])]
  generalize entry.action = action at move submits ⊢
  cases move with
  | fold => exact submits
  | call => exact submits
  | raise _ may => exact (if_neg (by simp [may])).trans submits
  | raiseCall may => exact (if_neg (by simp [may])).trans submits

theorem applyNow_closed (closed : r.phase ≠ .betting) : applyNow entry r = .ok .rejected r := by
  unfold applyNow
  rw [if_pos closed]

theorem drainFor_idle (fuel : ℕ) (idle : r.pending.lookup r.nextSeq = none) : drainFor fuel r = .ok () r := by
  cases fuel with
  | zero => rfl
  | succ fuel =>
    unfold drainFor
    rw [idle]

theorem applyAction_next (entry : Entry) (r : Replica n) : applyAction r.nextSeq entry r = .ok .rejected r ∨
      ∃ engine, r.Accepted entry engine ∧ applyNow entry r = .ok .applied (r.moved engine) ∧
        applyAction r.nextSeq entry r = (drainPending >>= fun _ => pure Verdict.applied) (r.moved engine).countOn := by
  unfold applyAction
  rw [if_neg (lt_irrefl _), if_neg (lt_irrefl _)]
  obtain rejected | ⟨engine, accepted, applied⟩ := applyNow_cases entry r
  · rw [bind_of_ok rejected]
    exact .inl rfl
  rw [bind_of_ok applied]
  exact .inr ⟨engine, accepted, applied, rfl⟩

theorem applyAction_accepts (accepted : r.Accepted entry engine) :
    applyAction r.nextSeq entry r = (drainPending >>= fun _ => pure Verdict.applied) (r.moved engine).countOn := by
  unfold applyAction
  rw [if_neg (lt_irrefl _), if_neg (lt_irrefl _), bind_of_ok (applyNow_accepts accepted)]
  rfl

theorem applyAction_applied (empty : r.pending = []) (h : applyAction r.nextSeq entry r = .ok .applied r') :
    ∃ engine, r.Accepted entry engine ∧ r' = (r.moved engine).countOn := by
  obtain rejected | ⟨engine, accepted, -, applied⟩ := applyAction_next entry r
  · rw [rejected] at h
    cases h
  have idle : drainPending (r.moved engine).countOn = .ok () (r.moved engine).countOn := by
    refine drainFor_idle _ ?_
    change r.pending.lookup _ = none
    rw [empty]
    rfl
  rw [applied, bind_of_ok idle] at h
  cases h
  exact ⟨engine, accepted, rfl⟩

theorem startHandFrom_ok (h : startHandFrom deck button bbSeat sbSeat r = .ok started r') :
    ∃ engine, Engine.startHand none deck (r.seedPositions button bbSeat sbSeat).engine = .ok started engine ∧
      r' = (r.seedPositions button bbSeat sbSeat).moved engine := by
  obtain ⟨_, t, seeded, h⟩ := bind_ok h
  cases seeded
  obtain ⟨ok, t, ran, h⟩ := bind_ok h
  cases h
  unfold onEngine within at ran
  split at ran
  · rename_i engine started
    cases ran
    exact ⟨engine, started, rfl⟩
  cases ran

theorem startHandFrom_of_engine
    (h : Engine.startHand none deck (r.seedPositions button bbSeat sbSeat).engine = .ok started engine) :
    startHandFrom deck button bbSeat sbSeat r = .ok started ((r.seedPositions button bbSeat sbSeat).moved engine) := by
  have inside : onEngine (Engine.startHand none deck) (r.seedPositions button bbSeat sbSeat) =
      .ok started ((r.seedPositions button bbSeat sbSeat).withEngine engine) := by
    unfold onEngine within
    rw [h]
  change (onEngine (Engine.startHand none deck) >>= _) (r.seedPositions button bbSeat sbSeat) = _
  rw [bind_of_ok inside]
  rfl

theorem cardsDue_deals {street : Street} {need : ℕ} (due : cardsDue street = some need) :
    ∃ next, street.deals = some (need, next) := by
  cases street <;> cases due <;> exact ⟨_, rfl⟩

theorem length_reduceOption (all : none ∉ cards) : cards.reduceOption.length = cards.length := by
  induction cards with
  | nil => rfl
  | cons c cards ih =>
    rw [List.mem_cons, not_or] at all
    cases c with
    | none => exact absurd rfl all.1
    | some c => rw [List.reduceOption_cons_of_some, List.length_cons, ih all.2, List.length_cons]

structure Dealt (r : Replica n) (cards : List Card) (engine : Engine n) : Prop where
  shut : r.phase = .streetOver
  due : cardsDue r.engine.street = some cards.length
  ran : nextStreet (r.preload cards).engine = .ok () engine

theorem advanceStreet_dealt (h : advanceStreet cards r = .ok () r') :
    ∃ engine, r.Dealt cards.reduceOption engine ∧ none ∉ cards ∧
      r' = ((r.preload cards.reduceOption).withEngine engine).recomputePhase := by
  unfold advanceStreet at h
  split at h
  · cases h
  rename_i shut
  split at h
  · cases h
  rename_i need due
  split at h
  · cases h
  rename_i good
  rw [not_or, not_not] at good
  obtain ⟨_, t, loaded, h⟩ := bind_ok h
  cases loaded
  obtain ⟨_, t, ran, h⟩ := bind_ok h
  cases h
  unfold onEngine within at ran
  split at ran
  · rename_i engine street
    cases ran
    refine ⟨engine, ⟨not_not.mp shut, ?_, street⟩, good.2, rfl⟩
    rw [due, length_reduceOption good.2, good.1]
  cases ran

theorem Dealt.advances (h : r.Dealt cards.reduceOption engine) (all : none ∉ cards) :
    advanceStreet cards r = .ok () ((r.preload cards.reduceOption).withEngine engine).recomputePhase := by
  have inside : onEngine nextStreet (r.preload cards.reduceOption) =
      .ok () ((r.preload cards.reduceOption).withEngine engine) := by
    unfold onEngine within
    rw [h.ran]
  unfold advanceStreet
  rw [if_neg (by simp [h.shut]), h.due]
  dsimp only
  rw [if_neg (by simp [length_reduceOption all, all])]
  change (onEngine nextStreet >>= _) (r.preload cards.reduceOption) = _
  rw [bind_of_ok inside]
  rfl

theorem advanceStreet_cases (cards : List (Option Card)) (r : Replica n) : (∃ x, advanceStreet cards r = .error x r) ∨
      ∃ engine, r.Dealt cards.reduceOption engine ∧
        advanceStreet cards r = .ok () ((r.preload cards.reduceOption).withEngine engine).recomputePhase := by
  by_cases shut : r.phase = .streetOver
  · cases due : cardsDue r.engine.street with
    | none =>
      left
      unfold advanceStreet
      rw [if_neg (not_not.mpr shut), due]
      exact ⟨_, rfl⟩
    | some need =>
      by_cases good : cards.length = need ∧ none ∉ cards
      · obtain ⟨next, deals⟩ := cardsDue_deals due
        have length : cards.reduceOption.length = need := (length_reduceOption good.2).trans good.1
        have ran := nextStreet_of_deck (e := (r.preload cards.reduceOption).engine) deals rfl length
        have dealt : r.Dealt cards.reduceOption _ := ⟨shut, due.trans (congrArg some length.symm), ran⟩
        exact .inr ⟨_, dealt, dealt.advances good.2⟩
      left
      unfold advanceStreet
      rw [if_neg (not_not.mpr shut), due]
      exact ⟨_, if_pos (by tauto)⟩
  exact .inl ⟨_, if_pos shut⟩

structure Finished (r : Replica n) (forceTabled : Bool) (result : SettleResult n) (engine : Engine n) : Prop where
  board : 1 < r.engine.contested.length → 5 ≤ r.engine.board.length
  verified : 1 < r.engine.contested.length → ∀ i ∈ r.engine.contested, (i.val : ℤ) ∈ r.realHoles
  ran : settle 1 forceTabled r.engine = .ok result engine
  conserved : ∑ i, (engine.players i).stack = r.startTotal

theorem finish_ok {forceTabled : Bool} {result : SettleResult n} (h : finish forceTabled r = .ok result r') :
    ∃ engine, r.Finished forceTabled result engine ∧ r' = (r.withEngine engine).recordResult result := by
  unfold finish at h
  split at h
  · cases h
  split at h
  · cases h
  rename_i complete
  split at h
  · cases h
  rename_i audited
  obtain ⟨raw, t, ran, h⟩ := bind_ok h
  unfold onEngine within at ran
  split at ran
  · rename_i engine settled
    cases ran
    unfold conclude at h
    dsimp only at h
    split at h
    · cases h
    rename_i conserved
    cases h
    refine ⟨engine, ⟨fun many => ?_, fun many i member => ?_, settled, not_not.mp conserved⟩, rfl⟩
    · exact Nat.le_of_not_lt fun short => complete ⟨many, short⟩
    by_contra dummy
    exact audited ⟨many, List.ne_nil_of_mem (List.mem_filter.mpr ⟨member, by simpa using dummy⟩)⟩
  cases ran

/-! ### What an action leaves standing

A property that does not read the queue, and that every accepted action keeps, is kept by the queue too. -/

section

variable {P : Replica n → Prop}
  (still : ∀ (r : Replica n) (nextSeq : ℤ) (pending : List (ℤ × Entry)), P r → P { r with nextSeq, pending })
  (accepts : ∀ (r : Replica n) (entry : Entry) (engine : Engine n), r.Accepted entry engine → P r → P (r.moved engine))
include accepts

theorem applyNow_keeps (entry : Entry) : Keeps P (applyNow entry) := by
  intro r h
  obtain rejected | ⟨engine, accepted, applied⟩ := applyNow_cases entry r
  · rw [rejected]
    exact h
  rw [applied]
  exact accepts r entry engine accepted h

include still

theorem drainFor_keeps (fuel : ℕ) : Keeps P (drainFor fuel) := by
  induction fuel with
  | zero => exact keeps_pure _
  | succ fuel ih =>
    intro r h
    unfold drainFor
    split
    · exact h
    refine keeps_bind (applyNow_keeps accepts _) (fun verdict => ?_) (r.unqueue r.nextSeq) (still r _ _ h)
    split
    · exact keeps_bind (keeps_modify fun r h => still r _ _ h) fun _ => ih
    exact keeps_pure _

theorem applyAction_keeps (seq : ℤ) (entry : Entry) : Keeps P (applyAction seq entry) := by
  intro r h
  unfold applyAction
  split
  · exact h
  split
  · unfold buffer
    split
    · exact h
    split
    · exact h
    exact still r _ _ h
  refine keeps_bind (applyNow_keeps accepts entry) (fun verdict => ?_) r h
  split
  · exact keeps_bind (keeps_modify fun r h => still r _ _ h) fun _ =>
      keeps_bind (fun s h => drainFor_keeps still accepts _ s h) fun _ => keeps_pure _
  exact keeps_pure _

end

/-! ### Who sits where

No call of a hand that is on moves the positions, also one that raises. -/

def Seats (t : Table n) (r : Replica n) : Prop := r.engine.table = t

theorem applyAction_seats (t : Table n) (seq : ℤ) (entry : Entry) : Keeps (Seats t) (applyAction seq entry) :=
  applyAction_keeps (fun _ _ _ h => h)
    (fun _ _ _ accepted h => (act_table accepted.ran).trans h) seq entry

theorem onEngine_seats {α : Type} {t : Table n} {m : EngineM n α} (keep : Keeps (fun e : Engine n => e.table = t) m) :
    Keeps (Seats t) (onEngine m) := by
  intro r h
  have kept := keep r.engine h
  unfold onEngine within
  cases ran : m r.engine with
  | ok a e => rw [ran] at kept; exact kept
  | error x e => rw [ran] at kept; exact kept

theorem advanceStreet_seats (t : Table n) (cards : List (Option Card)) : Keeps (Seats t) (advanceStreet cards) := by
  intro r h
  unfold advanceStreet
  split
  · exact h
  split
  · exact h
  split
  · exact h
  refine keeps_bind (keeps_modify fun s h => ?_) (fun _ =>
    keeps_bind (onEngine_seats (nextStreet_table t)) fun _ => keeps_modify fun s h => ?_) r h
  · exact h
  exact h

theorem putHole_seats (t : Table n) (seat : ℤ) (cards : List Card) : Keeps (Seats t) (putHole seat cards) := by
  intro r h
  unfold putHole
  split
  · exact h
  rename_i i _
  have sitting := update_keeps (e := r.engine) (f := fun p => { p with hole := cards }) Player.sitting i rfl
  have same : (r.engine.update i fun p => { p with hole := cards }).table = r.engine.table :=
    congrArg (fun seats => { r.engine.table with seats }) sitting
  exact same.trans h

theorem finish_seats (t : Table n) (forceTabled : Bool) : Keeps (Seats t) (finish forceTabled) := by
  intro r h
  unfold finish
  split
  · exact h
  split
  · exact h
  split
  · exact h
  refine keeps_bind (onEngine_seats (settle_table t 1 forceTabled)) (fun raw s h => ?_) r h
  unfold conclude
  dsimp only
  split <;> exact h

end Holdem.Replica
