import Mathlib.Data.Finset.Basic

/-!
A receiver of numbered messages behind gates, which it opens itself. A message that is ahead is held, and
one that is up at a closed gate is dropped: it gets through only if it arrives again after.
-/

namespace Reorder

open List

inductive Item where
  | message | gate
  deriving DecidableEq

inductive Event where
  | deliver (i : ℕ)
  | advance
  deriving DecidableEq

def messages (items : List Item) : ℕ := items.count .message

def gates (items : List Item) : ℕ := items.count .gate

def opens (events : List Event) : ℕ := events.count .advance

structure Receiver where
  past : List Item
  rest : List Item
  held : Finset ℕ

namespace Receiver

def seq (r : Receiver) : ℕ := messages r.past

def drain (past : List Item) (held : Finset ℕ) : List Item → Receiver
  | .message :: rest =>
    if messages past ∈ held then drain (past ++ [.message]) (held.erase (messages past)) rest
    else ⟨past, .message :: rest, held⟩
  | .gate :: rest => ⟨past, .gate :: rest, held.erase (messages past)⟩
  | [] => ⟨past, [], held.erase (messages past)⟩

def deliver (r : Receiver) (i : ℕ) : Receiver :=
  if i < r.seq then r
  else if r.seq < i then { r with held := insert i r.held }
  else match r.rest with
    | .message :: rest => drain (r.past ++ [.message]) r.held rest
    | _ => r

def advance (r : Receiver) : Receiver :=
  match r.rest with
  | .gate :: rest => ⟨r.past ++ [.gate], rest, r.held⟩
  | _ => r

def step (r : Receiver) : Event → Receiver
  | .deliver i => r.deliver i
  | .advance => r.advance

def run (r : Receiver) (events : List Event) : Receiver := events.foldl step r

def Timely (r : Receiver) : List Event → Prop
  | [] => True
  | event :: events => (event = .advance → r.rest.head? = some .gate) ∧ (r.step event).Timely events

def start (script : List Item) : Receiver := ⟨[], script, ∅⟩

end Receiver

def Redelivered (script : List Item) (events : List Event) : Prop :=
  ∀ before after, script = before ++ .gate :: .message :: after →
    ∃ earlier later, events = earlier ++ .deliver (messages before) :: later ∧ gates before < opens earlier

@[simp] theorem opens_append (xs ys : List Event) : opens (xs ++ ys) = opens xs + opens ys :=
  count_append

theorem Redelivered.later {script : List Item} {events : List Event} (h : Redelivered script events)
    (more : List Event) : Redelivered script (events ++ more) := by
  intro before after split
  obtain ⟨earlier, later, eq, open'⟩ := h before after split
  exact ⟨earlier, later ++ more, by rw [eq, append_assoc, cons_append], open'⟩

theorem Redelivered.gate {past : List Item} {events : List Event} (h : Redelivered past events) :
    Redelivered (past ++ [.gate]) events := by
  intro before after split
  obtain rfl | ⟨after', last, rfl⟩ := eq_nil_or_concat after
  · have := congrArg List.getLast? split
    simp at this
  have eq : past ++ [.gate] = (before ++ .gate :: .message :: after') ++ [last] := by simpa using split
  obtain ⟨eq, -⟩ := append_inj' eq rfl
  exact h before after' eq

theorem Redelivered.message {past : List Item} {events : List Event} (h : Redelivered past events)
    (behind : past.getLast? ≠ some .gate) : Redelivered (past ++ [.message]) events := by
  intro before after split
  obtain rfl | ⟨after', last, rfl⟩ := eq_nil_or_concat after
  · have eq : past ++ [.message] = (before ++ [.gate]) ++ [.message] := by simpa using split
    obtain ⟨rfl, -⟩ := append_inj' eq rfl
    simp at behind
  have eq : past ++ [.message] = (before ++ .gate :: .message :: after') ++ [last] := by simpa using split
  obtain ⟨eq, -⟩ := append_inj' eq rfl
  exact h before after' eq

structure Got (script : List Item) (events : List Event) (past rest : List Item) : Prop where
  split : past ++ rest = script
  opened : opens events = gates past
  redelivered : Redelivered past events

structure Reached (script : List Item) (events : List Event) (r : Receiver) : Prop where
  got : Got script events r.past r.rest
  ahead : ∀ i ∈ r.held, r.seq < i
  /-- A message not taken yet is held, unless it is up at a gate or was when it last came. -/
  kept : ∀ i, .deliver i ∈ events → r.seq ≤ i →
    i ∈ r.held ∨ i = r.seq ∧ (r.past.getLast? = some .gate ∨ r.rest.head? ≠ some .message)
  /-- The message behind a gate that was just opened has not come since. -/
  missing : r.past.getLast? = some .gate → r.rest.head? = some .message →
    ∀ earlier later, events = earlier ++ .deliver r.seq :: later → opens earlier < gates r.past

variable {script past rest : List Item} {events : List Event} {r : Receiver}

theorem reached_start (script : List Item) : Reached script [] (.start script) := by
  refine ⟨⟨rfl, rfl, ?_⟩, ?_, ?_, ?_⟩
  · intro before after split
    simp [Receiver.start] at split
  · intro i member
    simp [Receiver.start] at member
  · intro i member
    simp at member
  intro last
  simp [Receiver.start] at last

section Drain

variable {held : Finset ℕ} (got : Got script events past rest) (last : past.getLast? = some .message)
  (ahead : ∀ i ∈ held, messages past ≤ i) (kept : ∀ i, .deliver i ∈ events → messages past ≤ i → i ∈ held)
include got last ahead kept

theorem stop_reached (up : rest.head? ≠ some .message) :
    Reached script events ⟨past, rest, held.erase (messages past)⟩ := by
  refine ⟨got, fun i member => ?_, fun i came later => ?_, fun opened => ?_⟩
  · obtain ⟨other, member⟩ := Finset.mem_erase.mp member
    exact lt_of_le_of_ne (ahead i member) (Ne.symm other)
  · by_cases here : i = messages past
    · exact .inr ⟨here, .inr up⟩
    exact .inl (Finset.mem_erase.mpr ⟨here, kept i came later⟩)
  rw [show past.getLast? = some .message from last] at opened
  cases opened

theorem drain_reached : Reached script events (.drain past held rest) := by
  induction rest generalizing past held with
  | nil => exact stop_reached got last ahead kept (by simp)
  | cons item rest ih =>
    cases item with
    | gate => exact stop_reached got last ahead kept (by simp)
    | message =>
      unfold Receiver.drain
      split
      · have one : messages (past ++ [.message]) = messages past + 1 := by simp [messages]
        apply ih
        · exact ⟨by rw [← got.split, append_assoc]; rfl, by rw [got.opened]; simp [gates],
            got.redelivered.message (by rw [last]; simp)⟩
        · simp
        · intro i member
          obtain ⟨other, member⟩ := Finset.mem_erase.mp member
          have := ahead i member
          omega
        intro i came later
        exact Finset.mem_erase.mpr ⟨by omega, kept i came (by omega)⟩
      rename_i missing
      refine ⟨got, fun i member => ?_, fun i came later => .inl (kept i came later), fun opened => ?_⟩
      · exact lt_of_le_of_ne (ahead i member) fun here => missing ((show messages past = i from here) ▸ member)
      rw [show past.getLast? = some .message from last] at opened
      cases opened

end Drain

theorem opens_deliver (events : List Event) (i : ℕ) : opens (events ++ [.deliver i]) = opens events := by
  simp [opens]

theorem split_snoc {earlier later : List Event} {event : Event} {i : ℕ}
    (eq : events ++ [event] = earlier ++ .deliver i :: later) :
    (∃ later', events = earlier ++ .deliver i :: later') ∨ event = .deliver i ∧ earlier = events := by
  obtain rfl | ⟨later', last, rfl⟩ := eq_nil_or_concat later
  · obtain ⟨rfl, same⟩ := append_inj' eq rfl
    exact .inr ⟨by simpa using same, rfl⟩
  have eq : events ++ [event] = (earlier ++ .deliver i :: later') ++ [last] := by simpa using eq
  exact .inl ⟨later', (append_inj' eq rfl).1⟩

theorem got_deliver (i : ℕ) (h : Got script events past rest) : Got script (events ++ [.deliver i]) past rest :=
  ⟨h.split, by rw [opens_deliver, h.opened], h.redelivered.later _⟩

theorem deliver_reached (h : Reached script events r) (i : ℕ) :
    Reached script (events ++ [.deliver i]) (r.deliver i) := by
  have got := got_deliver i h.got
  -- a message that is not the one that is up says nothing about the one behind the gate
  have missing : i ≠ r.seq → r.past.getLast? = some .gate → r.rest.head? = some .message →
      ∀ earlier later, events ++ [.deliver i] = earlier ++ .deliver r.seq :: later → opens earlier < gates r.past := by
    intro other opened up earlier later eq
    obtain ⟨later', eq⟩ | ⟨same, -⟩ := split_snoc eq
    · exact h.missing opened up earlier later' eq
    cases same
    exact absurd rfl other
  unfold Receiver.deliver
  split
  · rename_i stale
    refine ⟨got, h.ahead, fun j came later => ?_, missing (by omega)⟩
    obtain came | now := List.mem_append.mp came
    · exact h.kept j came later
    obtain rfl : j = i := by simpa using now
    omega
  split
  · rename_i early
    refine ⟨got, fun j member => ?_, fun j came later => ?_, missing (by omega)⟩
    · obtain rfl | member := Finset.mem_insert.mp member
      · exact early
      exact h.ahead j member
    obtain came | now := List.mem_append.mp came
    · exact (h.kept j came later).imp_left fun member => Finset.mem_insert_of_mem member
    obtain rfl : j = i := by simpa using now
    exact .inl (Finset.mem_insert_self _ _)
  rename_i notStale notEarly
  obtain rfl : i = r.seq := by omega
  split
  · rename_i rest up
    have one : messages (r.past ++ [.message]) = r.seq + 1 := by simp [messages, Receiver.seq]
    apply drain_reached
    · refine ⟨by rw [← got.split, up, append_assoc]; rfl, by rw [got.opened]; simp [gates], ?_⟩
      by_cases opened : r.past.getLast? = some .gate
      · -- the message behind the gate comes just now
        intro before after split
        obtain rfl | ⟨after', last, rfl⟩ := eq_nil_or_concat after
        · have eq : r.past ++ [.message] = (before ++ [.gate]) ++ [.message] := by simpa using split
          have eq := (append_inj' eq rfl).1
          refine ⟨events, [], ?_, ?_⟩
          · rw [Receiver.seq, eq]
            simp [messages]
          rw [h.got.opened, eq]
          simp [gates]
        have eq : r.past ++ [.message] = (before ++ .gate :: .message :: after') ++ [last] := by
          simpa using split
        exact got.redelivered before after' (append_inj' eq rfl).1
      exact got.redelivered.message opened
    · simp
    · intro j member
      have := h.ahead j member
      omega
    intro j came later
    obtain came | now := List.mem_append.mp came
    · exact (h.kept j came (by omega)).resolve_right fun here => by omega
    have : j = r.seq := by simpa using now
    omega
  rename_i stuck
  have closed : r.rest.head? ≠ some .message := by
    intro up
    obtain ⟨rest, eq⟩ : ∃ rest, r.rest = .message :: rest := by
      cases rest : r.rest with
      | nil => rw [rest] at up; cases up
      | cons item tail => rw [rest] at up; cases up; exact ⟨tail, rfl⟩
    exact stuck rest eq
  refine ⟨got, h.ahead, fun j came later => ?_, fun _ up => absurd up closed⟩
  obtain came | now := List.mem_append.mp came
  · exact h.kept j came later
  obtain rfl : j = r.seq := by simpa using now
  exact .inr ⟨rfl, .inr closed⟩

theorem advance_reached (h : Reached script events r) (up : r.rest.head? = some .gate) :
    Reached script (events ++ [.advance]) r.advance := by
  obtain ⟨rest, eq⟩ : ∃ rest, r.rest = .gate :: rest := by
    cases rest : r.rest with
    | nil => rw [rest] at up; cases up
    | cons item tail => rw [rest] at up; cases up; exact ⟨tail, rfl⟩
  have same : messages (r.past ++ [.gate]) = r.seq := by simp [messages, Receiver.seq]
  have count : gates (r.past ++ [.gate]) = gates r.past + 1 := by simp [gates]
  unfold Receiver.advance
  rw [eq]
  refine ⟨⟨?_, ?_, (h.got.redelivered.later _).gate⟩, fun i member => ?_, fun i came later => ?_, ?_⟩
  · rw [← h.got.split, eq, append_assoc]
    rfl
  · rw [count, ← h.got.opened]
    simp [opens]
  · exact lt_of_eq_of_lt same (h.ahead i member)
  · have came : .deliver i ∈ events := by simpa using came
    obtain held | ⟨here, -⟩ := h.kept i came (same ▸ later)
    · exact .inl held
    exact .inr ⟨here.trans same.symm, .inl (by simp)⟩
  intro _ _ earlier later split
  obtain ⟨later', eq⟩ | ⟨other, -⟩ := split_snoc split
  · have total := h.got.opened
    rw [eq] at total
    simp only [opens_append] at total
    show opens earlier < gates (r.past ++ [.gate])
    omega
  cases other

theorem run_reached (later : List Event) (h : Reached script events r) (timely : r.Timely later) :
    Reached script (events ++ later) (r.run later) := by
  induction later generalizing events r with
  | nil => rwa [append_nil]
  | cons event later ih =>
    obtain ⟨here, timely⟩ := timely
    have next : Reached script (events ++ [event]) (r.step event) := by
      cases event with
      | deliver i => exact deliver_reached h i
      | advance => exact advance_reached h (here rfl)
    have final := ih next timely
    rwa [append_assoc] at final

/-- If every message arrives, and no gate is left closed, the receiver gets through the script exactly
if the message behind each gate arrives again after the gate was opened. -/
theorem through_iff (timely : (Receiver.start script).Timely events)
    (delivered : ∀ i < messages script, .deliver i ∈ events)
    (left : ((Receiver.start script).run events).rest.head? ≠ some .gate) :
    ((Receiver.start script).run events).rest = [] ↔ Redelivered script events := by
  have reached := run_reached events (reached_start script) timely
  rw [nil_append] at reached
  generalize (Receiver.start script).run events = r at reached left
  constructor
  · intro through
    have past := reached.got.split
    rw [through, append_nil] at past
    exact past ▸ reached.got.redelivered
  intro again
  cases up : r.rest with
  | nil => rfl
  | cons item rest =>
    cases item with
    | gate => rw [up] at left; simp at left
    | message =>
      exfalso
      have here : r.seq < messages script := by
        rw [← reached.got.split, up]
        simp [messages, Receiver.seq]
      obtain held | ⟨-, gate | stuck⟩ := reached.kept r.seq (delivered _ here) le_rfl
      · exact lt_irrefl _ (reached.ahead _ held)
      · obtain ⟨before, eq⟩ : ∃ before, r.past = before ++ [.gate] := by
          obtain empty | ⟨before, last, eq⟩ := eq_nil_or_concat r.past
          · rw [empty] at gate; cases gate
          rw [concat_eq_append] at eq
          rw [eq] at gate
          obtain rfl : last = .gate := by simpa using gate
          exact ⟨before, eq⟩
        have split : script = before ++ .gate :: .message :: rest := by
          rw [← reached.got.split, up, eq, append_assoc]
          rfl
        obtain ⟨earlier, later, events, opened⟩ := again before rest split
        have number : messages before = r.seq := by rw [Receiver.seq, eq]; simp [messages]
        have early := reached.missing gate (by rw [up]; rfl) earlier later (number ▸ events)
        have count : gates r.past = gates before + 1 := by rw [eq]; simp [gates]
        omega
      exact stuck (by rw [up]; rfl)

end Reorder
