import Mathlib.Data.List.Infix
import Mathlib.Logic.Function.Basic

/-!
The threads around the dispatch worker of `p2p/dispatch.py`: producers in `_enqueue`, the consumer in
`_run` and callers of `stop()`. Each event is one step of one thread.
-/

namespace Holdem.P2p

open Function (update)

variable {α : Type}

inductive QueueError where
  | empty
  | full
  deriving DecidableEq

/-- An entry of the queue: `none` is the sentinel. -/
abbrev Entry (α : Type) := Option α

/-- Where `_run` is: in `get`, before the check of what it got, between that check and the handler, in
the handler and what is said of its failure, or returned. -/
inductive Consumer (α : Type) where
  | waiting
  | holding (entry : Entry α)
  | cleared (item : α)
  | running (item : α)
  | exited
  deriving DecidableEq

/-- Where a call of `stop` is: before the flag, in the loop that discards the backlog, at the put of the
sentinel or at the `get_nowait` that makes room for it, in `join`, or done. -/
inductive Stop where
  | called
  | draining
  | inserting
  | makingRoom
  | joining
  | returned (stopped : Bool)
  | raised (x : QueueError)
  deriving DecidableEq

structure Dispatch (α : Type) where
  maxsize : ℕ
  queue : List (Entry α) := []
  stopping : Bool := false
  refused : ℕ := 0
  consumer : Consumer α := .waiting
  /-- The items of producers that have passed the check of `_enqueue` and not put them yet. -/
  pending : ℕ → Option α := fun _ => none
  stops : ℕ → Stop := fun _ => .called
  /-- The items in the order they entered the queue, and those whose handlers were started. -/
  entered : List α := []
  started : List α := []
  ended : ℕ := 0
  /-- How many handlers were started after a stop had set the flag. -/
  late : ℕ := 0

namespace Dispatch

def putNowait (s : Dispatch α) (entry : Entry α) : Except QueueError (List (Entry α)) :=
  if 0 < s.maxsize ∧ s.maxsize ≤ s.queue.length then .error .full else .ok (s.queue ++ [entry])

def getNowait (s : Dispatch α) : Except QueueError (Entry α × List (Entry α)) :=
  match s.queue with
  | [] => .error .empty
  | entry :: rest => .ok (entry, rest)

/-- The end of `_enqueue`, for the item of a producer that has passed its check. -/
def put (s : Dispatch α) (item : α) : Dispatch α :=
  match s.putNowait (some item) with
  | .ok queue => { s with queue, entered := s.entered ++ [item] }
  | .error _ => { s with refused := s.refused + 1 }

/-- `stop`, up to the next step of its thread: where it is then, and what it leaves. -/
def stopStep (s : Dispatch α) : Stop → Option (Stop × Dispatch α)
  | .called => some (.draining, { s with stopping := true })
  | .draining =>
    match s.getNowait with
    | .ok (_, queue) => some (.draining, { s with queue })
    | .error .empty => some (.inserting, s)
    | .error x => some (.raised x, s)
  | .inserting =>
    match s.putNowait none with
    | .ok queue => some (.joining, { s with queue })
    | .error .full => some (.makingRoom, s)
    | .error x => some (.raised x, s)
  | .makingRoom =>
    match s.getNowait with
    | .ok (_, queue) => some (.inserting, { s with queue })
    | .error .empty => some (.inserting, s)
    | .error x => some (.raised x, s)
  -- `join` returns once the thread has ended, or when its time is up
  | .joining => some (.returned (s.consumer matches .exited), s)
  | .returned _ => none
  | .raised _ => none

inductive Event (α : Type) where
  | submits (producer : ℕ) (item : α)
  | puts (producer : ℕ)
  | gets
  | checks
  | starts
  | ends (raised : Bool)
  | stops (caller : ℕ)

def step (s : Dispatch α) : Event α → Option (Dispatch α)
  | .submits producer item =>
    if s.stopping ∨ (s.pending producer).isSome then none
    else some { s with pending := update s.pending producer (some item) }
  | .puts producer =>
    (s.pending producer).map fun item => { s with pending := update s.pending producer none }.put item
  | .gets =>
    match s.consumer, s.queue with
    | .waiting, entry :: queue => some { s with queue, consumer := .holding entry }
    | _, _ => none
  | .checks =>
    match s.consumer with
    | .holding (some item) => some { s with consumer := if s.stopping then .exited else .cleared item }
    | .holding none => some { s with consumer := .exited }
    | _ => none
  | .starts =>
    match s.consumer with
    | .cleared item => some { s with
        consumer := .running item, started := s.started ++ [item], late := if s.stopping then s.late + 1 else s.late }
    | _ => none
  -- an `Exception` of the handler, or of `on_error` after it, is logged
  | .ends _ =>
    match s.consumer with
    | .running _ => some { s with consumer := .waiting, ended := s.ended + 1 }
    | _ => none
  | .stops caller =>
    (s.stopStep (s.stops caller)).map fun (stop, s') => { s' with stops := update s'.stops caller stop }

def run (s : Dispatch α) : List (Event α) → Option (Dispatch α)
  | [] => some s
  | event :: events => (s.step event).bind fun next => next.run events

end Dispatch

/-- The item in the consumer's hands that no handler was started for, or only one that passed the check. -/
def Consumer.inHand : Consumer α → List α
  | .holding (some item) => [item]
  | .cleared item => [item]
  | _ => []

def Consumer.passed : Consumer α → List α
  | .cleared item => [item]
  | _ => []

def Consumer.busy : Consumer α → ℕ
  | .running _ => 1
  | _ => 0

namespace Dispatch

variable {s t : Dispatch α} {caller : ℕ}

/-- What every interleaving keeps. Before a stop, the items that entered are those started, the one in
hand and those queued; after it, only an item that has passed the check is started. -/
structure Sound (s : Dispatch α) : Prop where
  bounded : 0 < s.maxsize
  fits : s.queue.length ≤ s.maxsize
  order : s.stopping = false → s.entered = s.started ++ s.consumer.inHand ++ s.queue.filterMap id
  begun : s.started ++ s.consumer.passed <+: s.entered
  early : s.stopping = false → s.late = 0
  once : s.late + s.consumer.passed.length ≤ 1
  serial : s.started.length = s.ended + s.consumer.busy
  asked : none ∈ s.queue ∨ s.consumer = .holding none ∨ s.consumer = .exited → s.stopping = true
  flagged : ∀ k, s.stops k ≠ .called → s.stopping = true
  safe : ∀ k x, s.stops k ≠ .raised x
  joined : ∀ k, s.stops k = .returned true → s.consumer = .exited

theorem start_sound (maxsize : ℕ) (bounded : 0 < maxsize) : Sound ({ maxsize } : Dispatch α) :=
  ⟨bounded, Nat.zero_le _, fun _ => rfl, List.nil_prefix, fun _ => rfl, Nat.zero_le _, rfl, by simp, by simp, by simp, by simp⟩

theorem Sound.put (h : Sound s) (item : α) (pending : ℕ → Option α) : Sound ({ s with pending }.put item) := by
  obtain ⟨bounded, fits, order, begun, early, once, serial, asked, flagged, safe, joined⟩ := h
  unfold Dispatch.put putNowait
  dsimp only
  split
  · rename_i queue room
    split at room <;> cases room
    have longer : s.started ++ s.consumer.passed <+: s.entered ++ [item] := begun.trans (List.prefix_append _ _)
    constructor <;> grind
  exact ⟨bounded, fits, order, begun, early, once, serial, asked, flagged, safe, joined⟩

theorem Sound.stop (h : Sound s) {stop : Stop} (ran : s.stopStep (s.stops caller) = some (stop, t)) :
    Sound { t with stops := update t.stops caller stop } := by
  obtain ⟨bounded, fits, order, begun, early, once, serial, asked, flagged, safe, joined⟩ := h
  unfold stopStep getNowait putNowait at ran
  repeat' split at ran
  all_goals cases ran
  all_goals constructor <;> grind -ring -linarith [update]

theorem Sound.step (h : Sound s) (event : Event α) (ran : s.step event = some t) : Sound t := by
  cases event with
  | puts producer =>
    obtain ⟨item, -, rfl⟩ := Option.map_eq_some_iff.mp ran
    exact h.put item _
  | stops caller =>
    obtain ⟨⟨stop, t⟩, stepped, rfl⟩ := Option.map_eq_some_iff.mp ran
    exact h.stop stepped
  | _ =>
    obtain ⟨bounded, fits, order, begun, early, once, serial, asked, flagged, safe, joined⟩ := h
    simp only [Dispatch.step] at ran
    split at ran <;> cases ran
    all_goals constructor <;> grind -ring -linarith [Consumer.inHand, Consumer.passed, Consumer.busy]

theorem run_sound (events : List (Event α)) (h : Sound s) (ran : s.run events = some t) : Sound t := by
  induction events generalizing s with
  | nil =>
    cases ran
    exact h
  | cons event events ih =>
    obtain ⟨next, stepped, rest⟩ := Option.bind_eq_some_iff.mp ran
    exact ih (h.step event stepped) rest

theorem put_consumer (s : Dispatch α) (item : α) : (s.put item).consumer = s.consumer ∧ (s.put item).started = s.started := by
  unfold put
  split <;> exact ⟨rfl, rfl⟩

theorem stopStep_consumer {stop : Stop} (ran : s.stopStep (s.stops caller) = some (stop, t)) :
    t.consumer = s.consumer ∧ t.started = s.started := by
  unfold stopStep at ran
  repeat' split at ran
  all_goals cases ran
  all_goals exact ⟨rfl, rfl⟩

theorem step_ends (event : Event α) (ran : s.step event = some t) :
    (t.consumer = .exited → s.consumer = .exited ∨ ∃ entry, s.consumer = .holding entry) ∧
      (s.consumer = .exited → t.consumer = .exited ∧ t.started = s.started) := by
  cases event with
  | puts producer =>
    obtain ⟨item, -, rfl⟩ := Option.map_eq_some_iff.mp ran
    obtain ⟨consumer, started⟩ := put_consumer { s with pending := update s.pending producer none } item
    exact ⟨fun shut => .inl (consumer ▸ shut), fun shut => ⟨consumer.trans shut, started⟩⟩
  | stops caller =>
    obtain ⟨⟨stop, t⟩, stepped, rfl⟩ := Option.map_eq_some_iff.mp ran
    obtain ⟨consumer, started⟩ := stopStep_consumer stepped
    exact ⟨fun shut => .inl (consumer ▸ shut), fun shut => ⟨consumer.trans shut, started⟩⟩
  | _ =>
    simp only [step] at ran
    split at ran <;> cases ran
    all_goals grind

theorem run_exited (events : List (Event α)) (shut : s.consumer = .exited) (ran : s.run events = some t) :
    t.started = s.started := by
  induction events generalizing s with
  | nil =>
    cases ran
    rfl
  | cons event events ih =>
    obtain ⟨next, stepped, rest⟩ := Option.bind_eq_some_iff.mp ran
    obtain ⟨shut, same⟩ := (step_ends event stepped).2 shut
    exact (ih shut rest).trans same

/-- The worker in any interleaving of producers, the consumer and stops: handlers are started in the order
of the queue, one at a time and at most one after a stop's flag, and none once a stop has returned `True`. -/
theorem bounded_fifo (maxsize : ℕ) (bounded : 1 ≤ maxsize) (events : List (Event α)) (s : Dispatch α)
    (ran : ({ maxsize } : Dispatch α).run events = some s) :
    s.started <+: s.entered ∧ s.ended ≤ s.started.length ∧ s.started.length ≤ s.ended + 1 ∧ s.queue.length ≤ s.maxsize ∧
      s.late ≤ 1 ∧ (∀ k x, s.stops k ≠ .raised x) ∧
      (∀ event t, s.step event = some t → t.consumer = .exited → s.consumer = .exited ∨ ∃ entry, s.consumer = .holding entry) ∧
      ∀ k, s.stops k = .returned true → s.started.length = s.ended ∧ ∀ more t, s.run more = some t → t.started = s.started := by
  have h := run_sound events (start_sound maxsize bounded) ran
  have serial := h.serial
  have busy : s.consumer.busy ≤ 1 := by cases s.consumer <;> simp [Consumer.busy]
  refine ⟨(List.prefix_append _ _).trans h.begun, by omega, by omega, h.fits, (Nat.le_add_right _ _).trans h.once, h.safe,
    fun event t stepped => (step_ends event stepped).1, fun k joined => ?_⟩
  have shut := h.joined k joined
  rw [shut] at serial
  exact ⟨serial, fun more t => run_exited more shut⟩

/-- A queue of one refuses one of two items. The handler of the other starts after a stop has set its flag,
and raises when the sentinel is in. -/
def interrupted : List (Event ℕ) :=
  [.submits 0 7, .submits 1 8, .puts 0, .puts 1, .gets, .checks, .stops 0, .starts, .stops 0, .stops 0, .ends true, .gets, .checks,
    .stops 0]

theorem bounded_fifo_interrupted : ∃ s, ({ maxsize := 1 } : Dispatch ℕ).run interrupted = some s ∧
    (s.stops 0, s.late, s.started) = (.returned true, 1, [7]) ∧ s.started <+: s.entered :=
  have ran := (Option.some_get (show (({ maxsize := 1 } : Dispatch ℕ).run interrupted).isSome = true from rfl)).symm
  ⟨_, ran, rfl, (bounded_fifo 1 (le_refl 1) interrupted _ ran).1⟩

end Dispatch

end Holdem.P2p
