import Holdem.Lib.Reorder
import Holdem.Replica.Moves

/-!
Actions that arrive out of order. A replica that is behind the reveal of a street is at a closed gate,
where the first action of the street is refused and lost.
-/

namespace Holdem

open Method Reorder Reorder.Receiver
open List hiding after

inductive Play where
  | action (entry : Entry)
  | street
  deriving DecidableEq

def Play.item : Play → Reorder.Item
  | .action _ => .message
  | .street => .gate

def actions (script : List Play) : List Entry :=
  script.filterMap fun
    | .action entry => some entry
    | .street => none

def streets (script : List Play) : ℕ := script.count .street

inductive Delivery where
  | message (i : ℕ)
  | advance
  deriving DecidableEq

def advances (schedule : List Delivery) : ℕ := schedule.count .advance

namespace Replica

variable {n : ℕ} (revealed : Street → List (Option Card))

def inOrder : Replica n → List Play → Option (Replica n)
  | r, [] => some r
  | r, .action entry :: rest =>
    match applyAction r.nextSeq entry r with
    | .ok .applied r' => inOrder r' rest
    | _ => none
  | r, .street :: rest =>
    match advanceStreet (revealed r.engine.street) r with
    | .ok _ r' => inOrder r' rest
    | .error _ _ => none

def receive (entries : List Entry) : Delivery → ReplicaM n Unit
  | .message i =>
    match entries[i]? with
    | some entry => do let _ ← applyAction i entry
    | none => pure ()
  | .advance => fun r => advanceStreet (revealed r.engine.street) r

/-- Messages are the script's and inside the forward window, and a street is advanced only when the
betting on the one before is over. -/
def Admissible (script : List Play) : Replica n → List Delivery → Prop
  | _, [] => True
  | r, .message i :: rest =>
    (i < (actions script).length ∧ (i : ℤ) - r.nextSeq ≤ maxPending) ∧
      Admissible script (after (receive revealed (actions script) (.message i) r)) rest
  | r, .advance :: rest =>
    r.phase = .streetOver ∧ Admissible script (after (receive revealed (actions script) .advance r)) rest

instance decidableAdmissible (script : List Play) (r : Replica n) (schedule : List Delivery) :
    Decidable (Admissible revealed script r schedule) :=
  match schedule with
  | [] => inferInstanceAs (Decidable True)
  | .message i :: rest =>
    have := decidableAdmissible script (after (receive revealed (actions script) (.message i) r)) rest
    inferInstanceAs (Decidable (_ ∧ _))
  | .advance :: rest =>
    have := decidableAdmissible script (after (receive revealed (actions script) .advance r)) rest
    inferInstanceAs (Decidable (_ ∧ _))

def received (script : List Play) (r : Replica n) (schedule : List Delivery) : Replica n :=
  runAll (receive revealed (actions script)) r schedule

end Replica

def Redelivered (script : List Play) (schedule : List Delivery) : Prop :=
  ∀ before entry after, script = before ++ .street :: .action entry :: after →
    ∃ earlier later, schedule = earlier ++ .message (actions before).length :: later ∧
      streets before < advances earlier

structure Queued (entries : List Entry) (held : Finset ℕ) (next : ℤ) (pending : List (ℤ × Entry)) : Prop where
  honest : ∀ key entry, (key, entry) ∈ pending → ∃ j ∈ held, key = (j : ℤ) ∧ entries[j]? = some entry
  waiting : ∀ j ∈ held, ∃ entry, ((j : ℤ), entry) ∈ pending
  window : ∀ j ∈ held, (j : ℤ) ≤ next + maxPending
  distinct : (pending.map Prod.fst).Nodup

variable {entries : List Entry} {held : Finset ℕ} {next : ℤ} {pending : List (ℤ × Entry)}

theorem lookup_mem {key : ℤ} {entry : Entry} (h : pending.lookup key = some entry) : (key, entry) ∈ pending := by
  obtain ⟨before, after, rfl, -⟩ := lookup_eq_some_iff.mp h
  simp

namespace Queued

variable {j : ℕ}

section

variable (h : Queued entries held next pending)
include h

theorem found (member : j ∈ held) : ∃ entry, pending.lookup (j : ℤ) = some entry ∧ entries[j]? = some entry := by
  obtain ⟨_, there⟩ := h.waiting j member
  cases found : pending.lookup (j : ℤ) with
  | none => simpa using lookup_eq_none_iff.mp found _ there
  | some entry =>
    obtain ⟨k, -, same, honest⟩ := h.honest _ _ (lookup_mem found)
    obtain rfl : j = k := by exact_mod_cast same
    exact ⟨entry, rfl, honest⟩

theorem absent (missing : j ∉ held) : pending.lookup (j : ℤ) = none := by
  cases found : pending.lookup (j : ℤ) with
  | none => rfl
  | some entry =>
    obtain ⟨k, member, same, -⟩ := h.honest _ _ (lookup_mem found)
    obtain rfl : j = k := by exact_mod_cast same
    exact absurd member missing

theorem later : Queued entries held (next + 1) pending :=
  ⟨h.honest, h.waiting, fun j member => by have := h.window j member; omega, h.distinct⟩

theorem pop (j : ℕ) : Queued entries (held.erase j) next (pending.filter fun waiting => waiting.1 ≠ (j : ℤ)) := by
  refine ⟨fun key entry member => ?_, fun k member => ?_, fun k member => ?_, ?_⟩
  · obtain ⟨member, other⟩ := mem_filter.mp member
    obtain ⟨k, there, rfl, honest⟩ := h.honest key entry member
    refine ⟨k, Finset.mem_erase.mpr ⟨fun same => ?_, there⟩, rfl, honest⟩
    subst same
    simp at other
  · obtain ⟨other, member⟩ := Finset.mem_erase.mp member
    obtain ⟨entry, there⟩ := h.waiting k member
    exact ⟨entry, mem_filter.mpr ⟨there, by simpa using other⟩⟩
  · exact h.window k (Finset.mem_of_mem_erase member)
  exact h.distinct.sublist (filter_sublist.map _)

theorem push {entry : Entry} (missing : j ∉ held) (honest : entries[j]? = some entry)
    (near : (j : ℤ) - next ≤ maxPending) : Queued entries (insert j held) next (pending ++ [((j : ℤ), entry)]) := by
  refine ⟨fun key waiting member => ?_, fun k member => ?_, fun k member => ?_, ?_⟩
  · obtain member | here := mem_append.mp member
    · obtain ⟨k, there, same⟩ := h.honest key waiting member
      exact ⟨k, Finset.mem_insert_of_mem there, same⟩
    cases mem_singleton.mp here
    exact ⟨j, Finset.mem_insert_self _ _, rfl, honest⟩
  · obtain rfl | member := Finset.mem_insert.mp member
    · exact ⟨entry, by simp⟩
    obtain ⟨waiting, there⟩ := h.waiting k member
    exact ⟨waiting, mem_append_left _ there⟩
  · obtain rfl | member := Finset.mem_insert.mp member
    · omega
    exact h.window k member
  rw [map_append, nodup_append]
  refine ⟨h.distinct, by simp, fun key member key' here => ?_⟩
  obtain ⟨⟨key, waiting⟩, there, rfl⟩ := mem_map.mp member
  obtain ⟨k, held, same, -⟩ := h.honest key waiting there
  have new : key' = (j : ℤ) := by simpa using here
  rintro rfl
  have : k = j := by exact_mod_cast same.symm.trans new
  exact missing (this ▸ held)

theorem room (ahead : ∀ k ∈ held, next < k) (missing : j ∉ held) (up : next < j) (near : (j : ℤ) - next ≤ maxPending) :
    pending.length < maxPending := by
  have inside : ((j : ℤ) :: pending.map Prod.fst) ⊆ (range maxPending).map fun k : ℕ => next + 1 + k := by
    have window : ∀ k : ℕ, next < k → (k : ℤ) ≤ next + maxPending →
        (k : ℤ) ∈ (range maxPending).map fun k : ℕ => next + 1 + k := by
      intro k low high
      refine mem_map.mpr ⟨(k - next - 1).toNat, mem_range.mpr (by omega), by omega⟩
    intro key member
    obtain rfl | member := mem_cons.mp member
    · exact window j up (by omega)
    obtain ⟨⟨key, waiting⟩, there, rfl⟩ := mem_map.mp member
    obtain ⟨k, held, rfl, -⟩ := h.honest key waiting there
    exact window k (ahead k held) (h.window k held)
  have fresh : ((j : ℤ) :: pending.map Prod.fst).Nodup := by
    refine nodup_cons.mpr ⟨fun member => ?_, h.distinct⟩
    obtain ⟨⟨key, waiting⟩, there, same⟩ := mem_map.mp member
    obtain ⟨k, held, eq, -⟩ := h.honest key waiting there
    have : k = j := by exact_mod_cast eq.symm.trans same
    exact missing (this ▸ held)
  have count := (fresh.subperm inside).length_le
  rw [length_cons, length_map, length_map, length_range] at count
  exact count

end

end Queued

def Delivery.event : Delivery → Reorder.Event
  | .message i => .deliver i
  | .advance => .advance

def items (script : List Play) : List Reorder.Item := script.map Play.item

@[simp] theorem actions_append (xs ys : List Play) : actions (xs ++ ys) = actions xs ++ actions ys :=
  filterMap_append

theorem messages_items (script : List Play) : messages (items script) = (actions script).length := by
  induction script with
  | nil => rfl
  | cons play script ih =>
    unfold messages items at ih
    cases play <;> simp [messages, items, actions, Play.item, ih]

theorem gates_items (script : List Play) : gates (items script) = streets script := by
  induction script with
  | nil => rfl
  | cons play script ih =>
    unfold gates items streets at ih
    cases play <;> simp [gates, items, streets, Play.item, ih]

theorem opens_events (schedule : List Delivery) : opens (schedule.map Delivery.event) = advances schedule := by
  induction schedule with
  | nil => rfl
  | cons delivery schedule ih =>
    unfold opens advances at ih
    cases delivery <;> simp [opens, advances, Delivery.event, ih]

theorem action_up {past rest : List Play} {entry : Entry} :
    (actions (past ++ .action entry :: rest))[(actions past).length]? = some entry := by
  simp [actions]

theorem redelivered_iff (script : List Play) (schedule : List Delivery) :
    Reorder.Redelivered (items script) (schedule.map Delivery.event) ↔ Redelivered script schedule := by
  constructor
  · intro h before entry rest split
    have abstract : items script = items before ++ .gate :: .message :: items rest := by simp [split, items, Play.item]
    obtain ⟨earlier, later, eq, opened⟩ := h _ _ abstract
    obtain ⟨earlier', tail, rfl, rfl, behind⟩ := map_eq_append_iff.mp eq
    obtain ⟨delivery, later', rfl, here, -⟩ := map_eq_cons_iff.mp behind
    rw [messages_items] at here
    rw [gates_items, opens_events] at opened
    cases delivery with
    | advance => cases here
    | message i =>
      cases here
      exact ⟨earlier', later', rfl, opened⟩
  intro h before rest split
  obtain ⟨before', tail, rfl, rfl, behind⟩ := map_eq_append_iff.mp split
  obtain ⟨first, tail, rfl, gate, behind⟩ := map_eq_cons_iff.mp behind
  obtain ⟨second, rest', rfl, message, -⟩ := map_eq_cons_iff.mp behind
  cases first with
  | action entry => cases gate
  | street =>
    cases second with
    | street => cases message
    | action entry =>
      obtain ⟨earlier, later, rfl, opened⟩ := h before' entry rest' rfl
      refine ⟨earlier.map Delivery.event, later.map Delivery.event, ?_, ?_⟩
      · rw [show messages (before'.map Play.item) = _ from messages_items before']
        simp [Delivery.event]
      rw [show gates (before'.map Play.item) = _ from gates_items before', opens_events]
      exact opened

namespace Replica

variable {n : ℕ} {revealed : Street → List (Option Card)} {script past rest : List Play} {r final : Replica n}
  {entry : Entry}

def core (r : Replica n) : Replica n := { r with pending := [] }

theorem inOrder_action (h : inOrder revealed r.core (.action entry :: rest) = some final) :
    ∃ engine, r.Accepted entry engine ∧ inOrder revealed (r.moved engine).countOn.core rest = some final := by
  unfold inOrder at h
  split at h
  · rename_i r' applied
    obtain ⟨engine, ⟨betting, ran⟩, rfl⟩ := applyAction_applied rfl applied
    exact ⟨engine, ⟨betting, ran⟩, h⟩
  cases h

theorem inOrder_append (xs ys : List Play) (r : Replica n) :
    inOrder revealed r (xs ++ ys) = (inOrder revealed r xs).bind fun s => inOrder revealed s ys := by
  induction xs generalizing r with
  | nil => rfl
  | cons play xs ih =>
    cases play with
    | action entry =>
      rw [cons_append, inOrder, inOrder]
      split
      · exact ih _
      rfl
    | street =>
      rw [cons_append, inOrder, inOrder]
      split
      · exact ih _
      rfl

theorem inOrder_street (h : inOrder revealed r.core (.street :: rest) = some final) :
    r.phase = .streetOver ∧ ∃ r', advanceStreet (revealed r.engine.street) r = .ok () r' ∧
      r'.nextSeq = r.nextSeq ∧ r'.pending = r.pending ∧ inOrder revealed r'.core rest = some final := by
  unfold inOrder at h
  split at h
  · rename_i r' dealt
    obtain ⟨engine, ⟨shut, due, ran⟩, all, rfl⟩ := advanceStreet_dealt dealt
    exact ⟨shut, _, Dealt.advances ⟨shut, due, ran⟩ all, rfl, rfl, h⟩
  cases h

structure Tracks (revealed : Street → List (Option Card)) (script : List Play) (final : Replica n)
    (past rest : List Play) (held : Finset ℕ) (r : Replica n) : Prop where
  split : past ++ rest = script
  seq : r.nextSeq = (actions past).length
  todo : inOrder revealed r.core rest = some final
  queued : Queued (actions script) held r.nextSeq r.pending

def receiver (past rest : List Play) (held : Finset ℕ) : Reorder.Receiver := ⟨items past, items rest, held⟩

theorem Tracks.up (h : Tracks revealed script final past (.action entry :: rest) held r) :
    (actions script)[(actions past).length]? = some entry := by
  rw [← h.split]
  exact action_up

theorem Tracks.pop (h : Tracks revealed script final past rest held r) (j : ℕ) :
    Tracks revealed script final past rest (held.erase j) (r.unqueue j) :=
  ⟨h.split, h.seq, h.todo, h.queued.pop j⟩

theorem Tracks.take (h : Tracks revealed script final past (.action entry :: rest) held r) :
    ∃ engine, r.Accepted entry engine ∧
      Tracks revealed script final (past ++ [.action entry]) rest held (r.moved engine).countOn := by
  obtain ⟨engine, accepted, todo⟩ := inOrder_action h.todo
  refine ⟨engine, accepted, ?_, ?_, todo, h.queued.later⟩
  · rw [← h.split, append_assoc]
    rfl
  show r.nextSeq + 1 = _
  rw [h.seq, actions_append]
  simp [actions]

theorem Tracks.advance (h : Tracks revealed script final past (.street :: rest) held r) :
    r.phase = .streetOver ∧ ∃ r', advanceStreet (revealed r.engine.street) r = .ok () r' ∧
      Tracks revealed script final (past ++ [.street]) rest held r' := by
  obtain ⟨shut, r', advanced, seq, pending, todo⟩ := inOrder_street h.todo
  refine ⟨shut, r', advanced, ?_, ?_, todo, ?_⟩
  · rw [← h.split, append_assoc]
    rfl
  · rw [seq, h.seq, actions_append]
    simp [actions]
  rw [seq, pending]
  exact h.queued

theorem drain_tracks (rest : List Play) {past : List Play} {held : Finset ℕ} {r : Replica n} (fuel : ℕ)
    (h : Tracks revealed script final past rest held r) (enough : r.pending.length ≤ fuel) :
    ∃ r' past' rest' held', drainFor fuel r = .ok () r' ∧
      drain (items past) held (items rest) = receiver past' rest' held' ∧
      Tracks revealed script final past' rest' held' r' := by
  have number := messages_items past
  by_cases waits : (actions past).length ∈ held
  · obtain ⟨entry, found, honest⟩ := h.queued.found waits
    rw [← h.seq] at found
    have shorter : (r.unqueue r.nextSeq).pending.length < r.pending.length :=
      length_filter_lt_length_iff_exists.mpr ⟨_, lookup_mem found, by simp⟩
    obtain ⟨fuel, rfl⟩ : ∃ fuel', fuel = fuel' + 1 := ⟨fuel - 1, by omega⟩
    cases rest with
    | nil =>
      rw [← h.split, append_nil] at honest
      simp at honest
    | cons play rest =>
      cases play with
      | street =>
        have popped := h.pop (actions past).length
        rw [← h.seq] at popped
        obtain ⟨shut, -⟩ := popped.advance
        refine ⟨_, past, .street :: rest, _, ?_, ?_, popped⟩
        · unfold drainFor
          rw [found]
          dsimp only
          rw [bind_of_ok (applyNow_closed (by rw [shut]; simp))]
          rfl
        show drain (items past) held (.gate :: items rest) = _
        rw [drain, number]
        rfl
      | action up =>
        obtain rfl : entry = up := Option.some.inj (honest.symm.trans h.up)
        have popped := h.pop (actions past).length
        rw [← h.seq] at popped
        obtain ⟨engine, accepted, taken⟩ := popped.take
        obtain ⟨r', past', rest', held', ran, drained, tracks⟩ := drain_tracks rest fuel taken
          (Nat.le_of_lt_succ (lt_of_lt_of_le shorter enough))
        refine ⟨r', past', rest', held', ?_, ?_, tracks⟩
        · unfold drainFor
          rw [found]
          dsimp only
          rw [bind_of_ok (applyNow_accepts accepted)]
          exact ran
        show drain (items past) held (.message :: items rest) = _
        rw [drain, number, if_pos waits, ← drained]
        simp [items, Play.item]
  have idle := h.queued.absent waits
  rw [← h.seq] at idle
  refine ⟨r, past, rest, held, drainFor_idle fuel idle, ?_, h⟩
  cases rest with
  | nil =>
    show drain (items past) held [] = _
    rw [drain, number, Finset.erase_eq_of_notMem waits]
    rfl
  | cons play rest =>
    cases play with
    | street =>
      show drain (items past) held (.gate :: items rest) = _
      rw [drain, number, Finset.erase_eq_of_notMem waits]
      rfl
    | action up =>
      show drain (items past) held (.message :: items rest) = _
      rw [drain, number, if_neg waits]
      rfl

theorem message_tracks {i : ℕ} (h : Tracks revealed script final past rest held r)
    (ahead : ∀ k ∈ held, (actions past).length < k) (known : i < (actions script).length)
    (near : (i : ℤ) - r.nextSeq ≤ maxPending) :
    ∃ past' rest' held', (receiver past rest held).deliver i = receiver past' rest' held' ∧
      Tracks revealed script final past' rest' held' (after (receive revealed (actions script) (.message i) r)) := by
  obtain ⟨entry, honest⟩ : ∃ entry, (actions script)[i]? = some entry := ⟨_, getElem?_eq_getElem known⟩
  have number : (receiver past rest held).seq = (actions past).length := messages_items past
  -- the verdict does not matter here, only the replica after the call
  have call : after (receive revealed (actions script) (.message i) r) = after (applyAction i entry r) := by
    have call : receive revealed (actions script) (.message i) r = (applyAction i entry >>= fun _ => pure ()) r := by
      simp only [receive, honest]
    rw [call, bind_apply]
    cases applyAction i entry r <;> rfl
  rw [call]
  unfold deliver applyAction
  rw [number, h.seq]
  obtain stale | rfl | early := lt_trichotomy i (actions past).length
  · rw [if_pos stale, if_pos (by exact_mod_cast stale)]
    exact ⟨past, rest, held, rfl, h⟩
  · rw [if_neg (lt_irrefl _), if_neg (lt_irrefl _), if_neg (lt_irrefl _), if_neg (lt_irrefl _)]
    cases rest with
    | nil =>
      rw [← h.split, append_nil] at known
      exact absurd known (lt_irrefl _)
    | cons play rest =>
      cases play with
      | street =>
        obtain ⟨shut, -⟩ := h.advance
        rw [bind_of_ok (applyNow_closed (by rw [shut]; simp))]
        exact ⟨past, .street :: rest, held, rfl, h⟩
      | action up =>
        obtain rfl : entry = up := Option.some.inj (honest.symm.trans h.up)
        obtain ⟨engine, accepted, taken⟩ := h.take
        obtain ⟨r', past', rest', held', ran, drained, tracks⟩ := drain_tracks rest _ taken le_rfl
        refine ⟨past', rest', held', ?_, ?_⟩
        · rw [← drained]
          simp [receiver, items, Play.item]
        rw [bind_of_ok (applyNow_accepts accepted)]
        have drains : drainPending (r.moved engine).countOn = .ok () r' := ran
        show Tracks revealed script final past' rest' held'
          (after ((drainPending >>= fun _ => pure Verdict.applied) (r.moved engine).countOn))
        rw [bind_of_ok drains]
        exact tracks
  rw [if_neg (by omega), if_pos early, if_neg (by omega), if_pos (by exact_mod_cast early)]
  refine ⟨past, rest, insert i held, rfl, ?_⟩
  unfold buffer
  by_cases waits : i ∈ held
  · obtain ⟨waiting, found, -⟩ := h.queued.found waits
    rw [found, Finset.insert_eq_of_mem waits]
    exact h
  have next : r.nextSeq < i := by rw [h.seq]; exact_mod_cast early
  have room := h.queued.room (fun k member => by rw [h.seq]; exact_mod_cast ahead k member) waits next near
  rw [h.queued.absent waits]
  rw [if_neg (by omega)]
  exact ⟨h.split, h.seq, h.todo, h.queued.push waits honest near⟩

theorem street_up (h : Tracks revealed script final past rest held r) (complete : final.phase ≠ .streetOver)
    (shut : r.phase = .streetOver) : ∃ rest', rest = .street :: rest' := by
  cases rest with
  | nil =>
    obtain rfl : r.core = final := Option.some.inj h.todo
    exact absurd shut complete
  | cons play rest =>
    cases play with
    | street => exact ⟨rest, rfl⟩
    | action entry =>
      obtain ⟨engine, accepted, -⟩ := h.take
      rw [accepted.betting] at shut
      cases shut

theorem received_tracks (complete : final.phase ≠ .streetOver) (schedule : List Delivery) {events : List Reorder.Event}
    (h : Tracks revealed script final past rest held r)
    (reached : Reorder.Reached (items script) events (receiver past rest held))
    (admissible : Admissible revealed script r schedule) :
    (receiver past rest held).Timely (schedule.map Delivery.event) ∧
      ∃ past' rest' held', (receiver past rest held).run (schedule.map Delivery.event) = receiver past' rest' held' ∧
        Tracks revealed script final past' rest' held' (received revealed script r schedule) := by
  induction schedule generalizing past rest held r events with
  | nil => exact ⟨trivial, past, rest, held, rfl, h⟩
  | cons delivery schedule ih =>
    cases delivery with
    | message i =>
      obtain ⟨⟨known, near⟩, admissible⟩ := admissible
      have ahead : ∀ k ∈ held, (actions past).length < k := by
        intro k member
        rw [← messages_items]
        exact reached.ahead k member
      obtain ⟨past', rest', held', delivered, tracks⟩ := message_tracks h ahead known near
      have next := deliver_reached reached i
      rw [delivered] at next
      obtain ⟨timely, run⟩ := ih tracks next admissible
      refine ⟨⟨by simp [Delivery.event], ?_⟩, ?_⟩
      · show ((receiver past rest held).deliver i).Timely _
        rw [delivered]
        exact timely
      show ∃ past' rest' held', ((receiver past rest held).deliver i).run _ = _ ∧ _
      rw [delivered]
      exact run
    | advance =>
      obtain ⟨shut, admissible⟩ := admissible
      obtain ⟨rest, rfl⟩ := street_up h complete shut
      obtain ⟨-, r', ran, tracks⟩ := h.advance
      have call : after (receive revealed (actions script) .advance r) = r' := congrArg after ran
      have opened : (receiver past (.street :: rest) held).advance = receiver (past ++ [.street]) rest held := by
        simp [receiver, items, Reorder.Receiver.advance, Play.item]
      have next := advance_reached reached rfl
      rw [opened] at next
      rw [call] at admissible
      obtain ⟨timely, run⟩ := ih tracks next admissible
      refine ⟨⟨fun _ => rfl, ?_⟩, ?_⟩
      · show (receiver past (.street :: rest) held).advance.Timely _
        rw [opened]
        exact timely
      show ∃ past' rest' held', (receiver past (.street :: rest) held).advance.run _ = _ ∧
        Tracks revealed script final past' rest' held'
          (received revealed script (after (receive revealed (actions script) .advance r)) schedule)
      rw [opened, call]
      exact run

/-- Every message of a hand is delivered at least once, in any order inside the window, and each street
is called for at some time once the betting before it is over. The replica then ends in step with the
in-order one exactly if the first action of each street comes again after the call for its street. -/
theorem reordered_iff {handNo : ℕ} {last button : Fin n} {chips : Fin n → ℤ} {sb bb : ℤ}
    {bettingStructure : BettingStructure} {bbSeat sbSeat : Option (Fin n)} {start : Replica n}
    {schedule : List Delivery} {H : Type} (hash : Digest n → H)
    (started : startHand button bbSeat sbSeat (init handNo last chips sb bb bettingStructure) = .ok true start)
    (played : inOrder revealed start script = some final) (complete : final.phase ≠ .streetOver)
    (admissible : Admissible revealed script start schedule)
    (delivered : ∀ i < (actions script).length, .message i ∈ schedule)
    (called : (received revealed script start schedule).phase ≠ .streetOver) :
    ((received revealed script start schedule).nextSeq = (actions script).length ∧
      stateDigest hash (received revealed script start schedule) = stateDigest hash final) ↔
      Redelivered script schedule := by
  obtain ⟨engine, -, rfl⟩ := startHandFrom_ok started
  have begins : Tracks revealed script final [] script ∅
      (((init handNo last chips sb bb bettingStructure).seedPositions button bbSeat sbSeat).moved engine) := by
    refine ⟨rfl, rfl, played, ⟨fun key entry member => ?_, fun j member => ?_, fun j member => ?_, .nil⟩⟩
    · cases member
    · simp at member
    simp at member
  obtain ⟨timely, past, rest, held, run, tracks⟩ :=
    received_tracks complete schedule begins (Reorder.reached_start _) admissible
  have left : (items rest).head? ≠ some .gate := by
    intro gate
    cases rest with
    | nil => cases gate
    | cons play rest =>
      cases play with
      | action entry => cases gate
      | street => exact called tracks.advance.1
  have through := Reorder.through_iff timely ?_ (by rw [show Reorder.Receiver.start _ = receiver [] script ∅ from rfl, run]; exact left)
  · rw [show Reorder.Receiver.start (items script) = receiver [] script ∅ from rfl, run, redelivered_iff] at through
    rw [← through]
    constructor
    · rintro ⟨all, -⟩
      cases rest with
      | nil => rfl
      | cons play rest =>
        cases play with
        | street => exact absurd rfl left
        | action entry =>
          rw [tracks.seq, ← tracks.split] at all
          simp [actions] at all
          omega
    intro done
    obtain rfl : rest = [] := map_eq_nil_iff.mp done
    have last : (received revealed script _ schedule).core = final := Option.some.inj tracks.todo
    refine ⟨?_, ?_⟩
    · rw [tracks.seq, ← tracks.split, append_nil]
    rw [← last]
    rfl
  intro i small
  rw [messages_items] at small
  exact mem_map.mpr ⟨_, delivered i small, rfl⟩

def foldOnFlop : List Play := [.action ⟨0, .call, 0⟩, .action ⟨1, .call, 0⟩, .street, .action ⟨1, .fold, 0⟩]

def threeCards : Street → List (Option Card) := fun _ => (fullDeck.take 3).map some

theorem reordered_iff_duel :
    let schedule : List Delivery := [.message 0, .message 2, .message 1, .advance, .message 2]
    let start := after (startHand 1 none none duel)
    ∃ final, inOrder threeCards start foldOnFlop = some final ∧
      (received threeCards foldOnFlop start schedule).nextSeq = 3 ∧ Redelivered foldOnFlop schedule := by
  intro schedule start
  let final := (inOrder threeCards start foldOnFlop).getD start
  have played : inOrder threeCards start foldOnFlop = some final := by
    refine (Option.getD_of_ne_none ?_ start).symm
    exact Option.isSome_iff_ne_none.mp (by decide +kernel)
  have same : (received threeCards foldOnFlop start schedule).digestParts = final.digestParts := by decide +kernel
  have through : (received threeCards foldOnFlop start schedule).nextSeq = 3 := by decide +kernel
  refine ⟨final, played, through, ?_⟩
  exact (reordered_iff id (eq_ok_of_value (by decide +kernel) : startHand 1 none none duel = .ok true start)
    played (show final.phase ≠ .streetOver by decide +kernel)
    (by decide +kernel) (by decide) (by decide +kernel)).mp ⟨through, same⟩

/-- The fold on the flop comes early, is popped when its turn comes, and is refused for want of the
flop; every message has been delivered, and the fold is lost. -/
theorem early_fold_lost :
    let schedule : List Delivery := [.message 0, .message 2, .message 1, .advance]
    let start := after (startHand 1 none none duel)
    value (startHand 1 none none duel) = some true ∧
      (inOrder threeCards start foldOnFlop).map (fun final => (final.phase, final.nextSeq)) = some (.handOver, 3) ∧
      Admissible threeCards foldOnFlop start schedule ∧
      (∀ i < (actions foldOnFlop).length, .message i ∈ schedule) ∧
      (received threeCards foldOnFlop start schedule).phase = .betting ∧
      (received threeCards foldOnFlop start schedule).nextSeq = 2 ∧
      (received threeCards foldOnFlop start schedule).pending = [] := by
  decide +kernel

end Replica

end Holdem
