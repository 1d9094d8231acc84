import Holdem.P2p.Author
import Holdem.Room.Lobby

/-!
The way of a peer-authored message: normalised, checked against the key of the seat it claims, put off
if its hand has not begun, relayed, and handed to its handler.
-/

namespace Holdem

namespace Room

variable {T : Type}

def put (name : String) (value : Json) (fields : Message) : Message :=
  (name, value) :: fields.filter fun field => field.1 ≠ name

/-- The body of `_hostless_projection`. The author is the envelope's, whatever the payload says. -/
def hostlessBody (msg : Message) : Message :=
  match msg.get "payload" with
  | .obj fields =>
    let body := put "type" (msg.get "type") fields
    match authorOf msg with
    | some author => put "pubkey" (.str author) body
    | none => body.filter fun field => field.1 ≠ "pubkey"
  | _ => msg

def envelopeFingerprint (env : Env) (msg body : Message) : String :=
  match text? msg "hash" with
  | none | some "" => env.bodyHash body
  | some hash => hash

/-- `body.get("seat", body.get("seat_from"))`, if it is a seat. -/
def claimedSeat (body : Message) : Option ℤ :=
  match (body.lookup "seat").getD (body.get "seat_from") with
  | .int seat => some seat
  | _ => none

/-- The number of the hand a body is about; an infinite number raises. -/
def claimedHand (env : Env) (current : ℤ) (body : Message) : Except PyError (Option ℤ) :=
  match (body.lookup "hand").getD (.int current) with
  | .bool _ => .ok none
  | raw => match raw.toInt env.parseInt with
    | .ok hand => .ok (some hand)
    | .error x => if x.isValueError ∨ x = .typeError then .ok none else .error x

def normalizeHostless (env : Env) (conn : String) (kind : HostlessKind) (msg : Message) (r : Room T) :
    Except PyError Inbound := do
  let body := hostlessBody msg
  let hand ← claimedHand env r.handNo body
  return { kind, body, connId := conn, author := authorOf msg, seat := claimedSeat body, hand
           fingerprint := envelopeFingerprint env msg body, isLocal := r.localConnId = some conn, envelope := msg }

def authorSeqLookahead : ℤ := 1024

def authorSeq (body : Message) : Option ℤ :=
  match body.get "author_seq" with
  | .int got => some got
  | _ => none

/-- `_author_sequence_shape_ok`. -/
def sequenceShapeOk (tbl : Table T) (body : Message) (r : Room T) : Bool :=
  P2p.authorSequenceShapeOk (!r.wire) (tbl.totalChips r.table) (authorSeq body)

def highest (seen : List (ℤ × String)) : ℤ := (seen.map Prod.fst).foldl max (P2p.authorSeqStart - 1)

def equivocation (seat got : ℤ) (prior fingerprint : String) : String :=
  let short (text : String) := String.ofList (text.toList.take 16)
  "seat " ++ toString seat ++ " signed two different messages at author_seq " ++ toString got ++
    " (envelopes " ++ short prior ++ " and " ++ short fingerprint ++ ")"

/-- `_author_seq_ok`, of a message whose number has the right shape. -/
def authorSeqOk (tbl : Table T) (seat hand : ℤ) (ctx : Inbound) (r : Room T) : Bool × Room T :=
  match authorSeq ctx.body with
  | none => (true, r)
  | some got =>
    let seen := r.authorSeqSeen (hand, seat)
    if highest seen + authorSeqLookahead < got then (false, r)
    else match seen.lookup got with
      | none =>
        (true, { r with authorSeqSeen := Function.update r.authorSeqSeen (hand, seat) (seen ++ [(got, ctx.fingerprint)]) })
      | some prior =>
        if prior = ctx.fingerprint then (false, r)
        else (false, r.endHand tbl .voidEquivocation (equivocation seat got prior ctx.fingerprint) (some seat) true)

def sequenceOk (tbl : Table T) (seat : ℤ) (ctx : Inbound) (r : Room T) : Bool × Room T :=
  if ¬r.sequenceShapeOk tbl ctx.body then (false, r)
  else if ctx.hand = some r.handNo then r.authorSeqOk tbl seat r.handNo ctx
  else (true, r)

def futureHandWindow : ℤ := 1
def futurePerAuthor : ℕ := 16
def futureBufferMessages : ℕ := 128
def futureBufferBytes : ℕ := 2 * 1024 * 1024

def Inbound.identity (ctx : Inbound) : Option ℤ × Option ℤ × String := (ctx.hand, ctx.seat, ctx.fingerprint)

def futureHandAllowed (tbl : Table T) (hand : ℤ) (r : Room T) : Bool :=
  if hand ≤ r.handNo then false
  else if (tbl.resumeHand r.table).any (hand < ·) then false
  else if r.handNo = 0 then (r.msgBuffer.head?.bind fun kept => kept.incoming.hand).all (· = hand)
  else decide (hand ≤ r.handNo + futureHandWindow ∨ tbl.resumeHand r.table = some hand)

def Inbound.owner (ctx : Inbound) : (ℤ × Option String) ⊕ String :=
  match ctx.seat with
  | some seat => .inl (seat, ctx.author)
  | none => .inr ctx.connId

def canQueueHostless (tbl : Table T) (ctx : Inbound) (byteSize : ℕ) (r : Room T) : Bool :=
  ctx.kind.deferred && ctx.hand.any (r.futureHandAllowed tbl ·) &&
    !r.msgBuffer.any (fun kept => kept.incoming.identity = ctx.identity) &&
    decide (r.msgBuffer.countP (fun kept => kept.incoming.owner = ctx.owner) < futurePerAuthor) &&
    decide (r.msgBuffer.length < futureBufferMessages) &&
    decide ((r.msgBuffer.map Deferred.byteSize).sum + byteSize ≤ futureBufferBytes)

def queueFutureHostless (env : Env) (tbl : Table T) (ctx : Inbound) (r : Room T) : Bool × Room T :=
  if ¬r.canQueueHostless tbl ctx 0 then (false, r)
  else match env.byteSize ctx.envelope with
    | none => (false, r)
    | some byteSize =>
      if r.canQueueHostless tbl ctx byteSize then (true, { r with msgBuffer := r.msgBuffer ++ [⟨ctx, byteSize⟩] })
      else (false, r)

def relayIfHost (ctx : Inbound) (r : Room T) : Room T :=
  if r.isHost ∧ ¬ctx.isLocal ∧ ctx.seat.isSome then
    { r with sent := r.sent ++ [.broadcastExcept ctx.connId ctx.envelope] }
  else r

/-- What `_admit_hostless` checks of a message that comes over the wire. -/
def authorize (tbl : Table T) (ctx : Inbound) (r : Room T) : Bool × Room T :=
  if ctx.isLocal then (true, r)
  else match ctx.seat with
    | none => (!r.wire, r)
    | some seat => if r.authorOwnsSeat ctx.connId ctx.author seat then r.sequenceOk tbl seat ctx else (false, r)

def putsOff (tbl : Table T) (ctx : Inbound) (r : Room T) : Bool :=
  r.terminal.isNone && !tbl.eliminated r.table && ctx.kind.deferred && ctx.hand.any (r.handNo < ·)

/-- The rest of `_admit_hostless`, for an authorized message. -/
def route (env : Env) (tbl : Table T) (relay : Bool) (ctx : Inbound) (r : Room T) : Bool × Room T :=
  if r.putsOff tbl ctx then
    match r.queueFutureHostless env tbl ctx with
    | (true, r) => (false, if relay then r.relayIfHost ctx else r)
    | (false, r) => (false, r)
  else if ¬relay then (true, r)
  -- a retry of a message that is still kept is handed over in its place
  else if r.msgBuffer.any fun kept => kept.incoming.identity = ctx.identity then
    (true, { r with msgBuffer := r.msgBuffer.eraseP fun kept => kept.incoming.identity = ctx.identity })
  else if r.activeReplays.any (·.any fun kept => kept.incoming.identity = ctx.identity) then (true, r)
  else (true, r.relayIfHost ctx)

def admitHostless (env : Env) (tbl : Table T) (relay : Bool) (ctx : Inbound) (r : Room T) : Bool × Room T :=
  if ctx.seat.any (· ∈ tbl.departed r.table) then (false, r)
  else match r.authorize tbl ctx with
    | (false, r) => (false, r)
    | (true, r) => r.route env tbl relay ctx

def compareConfirmation (reporter : ℤ) (notice : Message) (r : Room T) : Room T :=
  match r.dropStage with
  | none => r
  | some stage =>
    if reporter ∈ r.dropCompared then r
    else match notice.get "ended", notice.get "lost_seat" with
      | .bool true, .int lost =>
        if lost = stage.own.lostSeat ∧ reporter ∈ stage.playing then
          { r with
            dropCompared := reporter :: r.dropCompared
            terminalReason := r.terminalReason ++ (stage.own.dropDispute stage.live notice (some reporter)).1 }
        else r
      | _, _ => r

/-- `_on_peer_lost`; what a session that is on makes of the notice is the table's. -/
def onPeerLost (tbl : Table T) (ctx : Inbound) (r : Room T) : Room T :=
  match ctx.body.get "seat", ctx.body.get "lost_seat" with
  | .int reporter, .int lost =>
    if ¬(0 ≤ lost ∧ lost < r.seatOrder.length) then r
    else if r.terminal.isSome then r.compareConfirmation reporter ctx.body
    else r.call tbl (.message ctx)
  | _, _ => r

def deliver (tbl : Table T) (ctx : Inbound) (r : Room T) : Room T :=
  let r := { r with handed := r.handed ++ [ctx] }
  match ctx.kind with
  -- relayed only, once the session has ended
  | .handSettled | .sessionEnd => if r.terminal.isSome then r else r.call tbl (.message ctx)
  | .peerLost => r.onPeerLost tbl ctx
  -- no game applies a timeout proposal
  | .timeoutProposal => r
  | .casualClockFault | .casualDropObserved | .casualDrop | .casualDropAck | .casualDropDispute =>
    if r.continuationPolicy = some .survivors then r.call tbl (.message ctx) else r
  | .keyAnnounce | .deckRound | .dealShare | .auditOpen | .betAction | .handVoid => r.call tbl (.message ctx)

/-- One message of the loop of `_replay_buffer`. -/
def replayItem (env : Env) (tbl : Table T) (r : Room T) (item : Deferred) : Room T :=
  let ctx := item.incoming
  if r.terminal.isSome then r
  else if ctx.hand = some r.handNo then
    if r.admissionOk ctx.connId (.hostless ctx.kind) ctx.author then
      match r.admitHostless env tbl false ctx with
      | (true, r) => r.deliver tbl ctx
      | (false, r) => r
    else r
  else if r.canQueueHostless tbl ctx item.byteSize then { r with msgBuffer := r.msgBuffer ++ [item] }
  else r

def replayBuffer (env : Env) (tbl : Table T) (r : Room T) : Room T :=
  if r.msgBuffer = [] then r
  else
    let r := r.msgBuffer.foldl (replayItem env tbl)
      { r with msgBuffer := [], activeReplays := r.msgBuffer :: r.activeReplays }
    { r with activeReplays := r.activeReplays.tail }

def publishHand (hand : ℤ) (r : Room T) : Room T :=
  let kept (key : ℤ × ℤ) : Bool := decide (hand - 1 ≤ key.1 ∧ key.1 ≤ hand)
  { r with
    handNo := hand
    authorSeqSeen := fun key => if kept key then r.authorSeqSeen key else []
    authorSeqOut := fun key => if kept key then r.authorSeqOut key else none }

end Room

end Holdem
