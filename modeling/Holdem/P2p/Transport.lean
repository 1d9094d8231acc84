import Mathlib.Data.List.Count
import Mathlib.Logic.Function.Basic

/-!
The TCP transport of `p2p/transport.py` and its dispatch worker: the event loop reads frames, a thread
runs callbacks, and between them is a bounded queue. A run is any interleaving before `stop()`.
-/

namespace Holdem.P2p

open Function (update)

variable {κ μ : Type} [DecidableEq κ]

def defaultMaxsize : ℕ := 1024

inductive Frame (μ : Type) where
  | heartbeat
  | message (msg : μ)
  deriving DecidableEq, Repr

/-- An item of the dispatch queue: a frame for the `on_message` callbacks, or the call of
`_run_conn_callbacks` or of `_run_disc_callbacks`. -/
inductive Work (κ μ : Type) where
  | message (conn : κ) (msg : μ)
  | connected (conn : κ) (address : String)
  | lost (conn : κ) (reason : String)
  deriving DecidableEq, Repr

structure MessageWorker (κ μ : Type) where
  maxsize : ℕ
  queue : List (Work κ μ)
  refused : ℕ

-- `queue.Queue` takes a size of zero for no bound.
def MessageWorker.Full (worker : MessageWorker κ μ) : Prop :=
  0 < worker.maxsize ∧ worker.maxsize ≤ worker.queue.length

instance (worker : MessageWorker κ μ) : Decidable worker.Full :=
  inferInstanceAs (Decidable (_ ∧ _))

/-- `MessageWorker._enqueue`: whether the item was taken, and the worker after it. -/
def MessageWorker.enqueue (worker : MessageWorker κ μ) (item : Work κ μ) : Bool × MessageWorker κ μ :=
  if worker.Full then (false, { worker with refused := worker.refused + 1 })
  else (true, { worker with queue := worker.queue ++ [item] })

/-- How far `_handle_connection` has come for a connection: it reads, has left the loop for a reason, or
is through its `finally`. -/
inductive Handler where
  | absent
  | reading
  | leaving (reason : String)
  | finished
  deriving DecidableEq, Repr

/-- What a read ends with, where it does not end with a frame. -/
inductive Exit where
  | endOfStream
  | silence
  | clock
  | protocol
  deriving DecidableEq, Repr

def Exit.reason : Exit → String
  | .endOfStream => "disconnect"
  | .silence => "heartbeat"
  | .clock => "clock"
  | .protocol => "protocol"

structure Transport (κ μ : Type) where
  handler : κ → Handler
  /-- Frames the socket has received and the handler has not read. -/
  buffered : κ → List (Frame μ)
  closed : κ → Bool
  writers : κ → Bool
  disconnectReasons : κ → Option String
  worker : MessageWorker κ μ
  /-- What the consumer has run, oldest first. A loss has the reason its callbacks were given. -/
  ran : List (Work κ μ)

namespace Transport

def start (maxsize : ℕ) : Transport κ μ where
  handler _ := .absent
  buffered _ := []
  closed _ := false
  writers _ := false
  disconnectReasons _ := none
  worker := ⟨maxsize, [], 0⟩
  ran := []

def deliver (t : Transport κ μ) (item : Work κ μ) : Bool × Transport κ μ :=
  ((t.worker.enqueue item).1, { t with worker := (t.worker.enqueue item).2 })

def connect (t : Transport κ μ) (conn : κ) (address : String) : Transport κ μ :=
  let registered :=
    { t with
      writers := update t.writers conn true
      handler := update t.handler conn .reading }
  (registered.deliver (.connected conn address)).2

/-- Whoever removes the writer owns the loss, and the answer of `_deliver_event` is dropped. -/
def popWriter (t : Transport κ μ) (conn : κ) (reason : String) : Transport κ μ :=
  if t.writers conn then
    ({ t with writers := update t.writers conn false }.deliver (.lost conn reason)).2
  else t

def finish (t : Transport κ μ) (conn : κ) (reason : String) : Transport κ μ :=
  { t with
    closed := update t.closed conn true
    handler := update t.handler conn .finished }.popWriter conn reason

/-- `_drop_writer`. The handler is not told, it runs on until its stream ends. -/
def dropWriter (t : Transport κ μ) (conn : κ) : Transport κ μ :=
  if t.writers conn then
    { t with closed := update t.closed conn true }.popWriter conn "disconnect"
  else t

def leave (t : Transport κ μ) (conn : κ) (reason : String) : Transport κ μ :=
  { t with handler := update t.handler conn (.leaving reason) }

def readFrame (t : Transport κ μ) (conn : κ) : Frame μ → Transport κ μ
  | .heartbeat => t
  | .message msg =>
    match t.deliver (.message conn msg) with
    | (true, delivered) => delivered
    | (false, refused) => refused.leave conn "disconnect"

/-- `disconnect`. The close that it schedules is an event of its own. -/
def disconnect (t : Transport κ μ) (conn : κ) (reason : String) : Transport κ μ :=
  if t.writers conn then
    { t with disconnectReasons := update t.disconnectReasons conn (some reason) }
  else t

/-- `MessageWorker._run` on one item. `_run_disc_callbacks` takes the reason that a local `disconnect`
has left. -/
def runItem (t : Transport κ μ) : Work κ μ → Transport κ μ
  | .lost conn reason =>
    { t with
      disconnectReasons := update t.disconnectReasons conn none
      ran := t.ran ++ [.lost conn ((t.disconnectReasons conn).getD reason)] }
  | item => { t with ran := t.ran ++ [item] }

end Transport

inductive Event (κ μ : Type) where
  | connects (conn : κ) (address : String)
  | arrives (conn : κ) (frame : Frame μ)
  | reads (conn : κ)
  | exits (conn : κ) (exit : Exit)
  | finishes (conn : κ)
  /-- The close that `disconnect` has scheduled, or that of a heartbeat which could not be sent. -/
  | closes (conn : κ)
  | writeFails (conn : κ)
  | disconnects (conn : κ) (reason : String)
  | consumes
  deriving DecidableEq, Repr

namespace Transport

/-- What an event does, where it is possible. A connection's id is fresh, and a closed socket receives
nothing more, but what it has received is still read. -/
def step (t : Transport κ μ) : Event κ μ → Option (Transport κ μ)
  | .connects conn address => if t.handler conn = .absent then some (t.connect conn address) else none
  | .arrives conn frame =>
    if t.handler conn = .reading ∧ ¬t.closed conn then
      some { t with buffered := update t.buffered conn (t.buffered conn ++ [frame]) }
    else none
  | .reads conn =>
    match t.handler conn, t.buffered conn with
    | .reading, frame :: rest =>
      some ({ t with buffered := update t.buffered conn rest }.readFrame conn frame)
    | _, _ => none
  | .exits conn exit => if t.handler conn = .reading then some (t.leave conn exit.reason) else none
  | .finishes conn =>
    -- The loop comes here without a break, but the consumer may have made room since.
    match t.handler conn with
    | .leaving reason => some (t.finish conn reason)
    | _ => none
  | .closes conn =>
    if t.handler conn = .reading then some { t with closed := update t.closed conn true } else none
  | .writeFails conn => some (t.dropWriter conn)
  | .disconnects conn reason => some (t.disconnect conn reason)
  | .consumes =>
    match t.worker.queue with
    | item :: rest => some ({ t with worker := { t.worker with queue := rest } }.runItem item)
    | [] => none

def run (t : Transport κ μ) : List (Event κ μ) → Option (Transport κ μ)
  | [] => some t
  | event :: events => (t.step event).bind fun next => next.run events

end Transport

inductive Sign where
  | frame
  | lost
  deriving DecidableEq, Repr

def Work.sign (conn : κ) : Work κ μ → Option Sign
  | .message c _ => if c = conn then some .frame else none
  | .connected _ _ => none
  | .lost c _ => if c = conn then some .lost else none

/-- The `on_disconnect` callbacks ran exactly once for the connection, and no frame of it was dispatched
after they ran. -/
structure ReportedOnce (conn : κ) (ran : List (Work κ μ)) : Prop where
  once : (ran.filterMap (Work.sign conn)).count .lost = 1
  last : ¬[Sign.lost, Sign.frame].Sublist (ran.filterMap (Work.sign conn))

namespace Transport

def Removes (t : Transport κ μ) (conn : κ) : Event κ μ → Prop
  | .finishes c => c = conn ∧ t.writers conn
  | .writeFails c => c = conn ∧ t.writers conn
  | _ => False

def Accepts (t : Transport κ μ) (conn : κ) : Event κ μ → Prop
  | .reads c => c = conn ∧ (∃ msg rest, t.buffered conn = .message msg :: rest) ∧ ¬t.worker.Full
  | _ => False

/-- In a run from `t`, the queue has room when the connection's writer goes, and none of its frames is
accepted without one. -/
def Undisturbed (conn : κ) : Transport κ μ → List (Event κ μ) → Prop
  | _, [] => True
  | t, event :: events =>
    (t.Removes conn event → ¬t.worker.Full) ∧ (t.Accepts conn event → t.writers conn) ∧
      ∀ next ∈ t.step event, Undisturbed conn next events

end Transport

end Holdem.P2p
