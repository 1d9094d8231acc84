import Holdem.Room.Ingress

/-!
The entry points of a session.
-/

namespace Holdem

namespace Room

variable {T : Type} (env : Env) (tbl : Table T)

/-- The type of a message that `handle_message` does not drop at once. -/
def wellFormed (msg : Message) : Option Kind := do
  let _ ← controlPayload msg
  let _ ← textField msg "pubkey"
  let _ ← textField msg "hash"
  let _ ← textField msg "prev"
  let type ← text? msg "type"
  return kindOf type

def letThrough (kind : Kind) (r : Room T) : Bool :=
  match r.terminal with
  | none => true
  | some record =>
    (r.endedOnReport && decide (kind = .hostless .peerLost)) ||
      (decide (record.terminal = .endedNormal) && decide (kind = .hostless .handSettled ∨ kind = .hostless .sessionEnd))

def genesis : String := String.ofList (List.replicate 64 '0')

def chain (conn : String) (msg : Message) (r : Room T) : Option (Room T) :=
  match text? msg "hash", text? msg "prev" with
  | some hash, some prev =>
    if prev ≠ genesis ∧ (r.peerLastHash conn).any (prev ≠ ·) then none
    else some { r with peerLastHash := Function.update r.peerLastHash conn (some hash) }
  | _, _ => some r

def handleHostless (conn : String) (kind : HostlessKind) (msg : Message) (r : Room T) : Room T :=
  match r.normalizeHostless env conn kind msg with
  | .error _ => r
  | .ok ctx => match r.admitHostless env tbl true ctx with
    | (true, r) => r.deliver tbl ctx
    | (false, r) => r

def handleMessage (a : Arrival) (r : Room T) : Room T :=
  match wellFormed a.msg with
  | none => r
  | some kind =>
    if ¬r.letThrough kind then r
    else if ¬r.admissionOk a.conn kind (authorOf a.msg) then r
    else match kind with
      | .admission kind => r.answerAdmission env a kind
      | .hostless kind => ((r.chain a.conn a.msg).map (handleHostless env tbl a.conn kind a.msg)).getD r
      | .playerInfo => ((r.chain a.conn a.msg).map (onPlayerInfo a.conn a.msg)).getD r
      | .playerList => ((r.chain a.conn a.msg).map (onPlayerList a.conn a.msg)).getD r
      | .playerAck => ((r.chain a.conn a.msg).map (onPlayerAck a.conn a.msg)).getD r
      | .gameStart => ((r.chain a.conn a.msg).map (onGameStart env tbl a.conn a.msg)).getD r
      | .ready => ((r.chain a.conn a.msg).map (onReady a.conn a.msg)).getD r
      | .chat => ((r.chain a.conn a.msg).map (onChat a.conn a.msg)).getD r
      | .lobbyClock => ((r.chain a.conn a.msg).map fun r => r.call tbl (.lobbyClock a.conn a.msg)).getD r
      | .aside _ => (r.chain a.conn a.msg).getD r

def electNewHost (r : Room T) : Room T :=
  if r.stage ≠ .lobby ∨ r.terminal.isSome then r
  else if r.wire then
    r.terminate tbl .hostLost "host lost in lobby; wire mode does not migrate a pinned host identity" none none
  else match r.joinOrder with
    | [] => r
    | first :: _ =>
      if r.localConnId = some first then
        { r with isHost := true, hostConnId := r.localConnId }.broadcastPlayerList
      else r

def leave (conn : String) (r : Room T) : Room T :=
  { r with players := r.players.pop conn, joinOrder := r.joinOrder.erase conn }

def handleDisconnect (conn reason : String) (r : Room T) : Room T :=
  let r := { r with admission := r.admission.map (HostAdmission.forget conn) }
  if r.terminal.isSome then r
  else
    let seat := if r.hostConnId = some conn then none else r.seatOrder.idxOf? conn
    match r.continuationPolicy, r.stage, seat with
    | some .survivors, .playing, some seat =>
      if r.isHost then
        ((r.call tbl (.casualDrop seat (if reason = "clock" then reason else "disconnect"))).leave conn).broadcastPlayerList
      else r.leave conn
    | _, _, _ =>
      let inPlay := seat.filter fun seat => !tbl.eliminated r.table && (tbl.dealt r.table || decide (r.stage = .playing)) &&
        tbl.seatInPlay seat r
      let left := r.leave conn
      if r.hostConnId = some conn then
        if r.stage = .playing then
          left.terminate tbl .hostLost ("host connection " ++ conn ++ " dropped during play") (some conn) none
        else left.electNewHost tbl
      else match inPlay with
        | some seat => left.call tbl (.peerLost seat conn)
        | none =>
          -- a busted host reports the drop and leaves the verdict to the others
          let told := match seat with
            | some seat => if r.isHost && tbl.eliminated r.table then left.call tbl (.reportLost seat) else left
            | none => left
          if r.isHost then told.broadcastPlayerList else told

def dealPreconditions (r : Room T) : Bool :=
  r.terminal.isNone && r.continuationPolicy.isSome &&
    match r.dealPolicy with
    | none => false
    | some policy => !r.wire || decide (policy = .bayerGroth)

def beginWith (c : StartCall) (r : Room T) : Room T :=
  let (x, published) := tbl.start c r
  let r := r.apply tbl x
  match published with
  | none => r
  | some hand =>
    let fresh := match c with
      | .beginHand _ _ _ => r
      | _ => { r with handRecord := none }
    (fresh.publishHand hand).replayBuffer env tbl

/-- `start_p2p_hand`, `begin_hand` and `next_p2p_hand`: refused where they raise. -/
def startHand (c : StartCall) (r : Room T) : Room T :=
  match c with
  | .startP2pHand _ _ _ _ _ _ _ =>
    if r.dealPreconditions then (r.bindSeatKeys.map (beginWith env tbl c)).getD r else r
  | .beginHand _ _ _ => if r.dealPreconditions then beginWith env tbl c r else r
  | .nextP2pHand => if r.terminal.isSome then r else beginWith env tbl c r

inductive Call where
  | message (a : Arrival)
  | disconnect (conn reason : String)
  | configureSeats (order : List String)
  | seatLocalTable (order : List String) (nicknames : String → Option String)
  | startGame (settings : Message)
  | start (c : StartCall)
  | sendBetAction (action : String) (amount : ℤ)
  | revealBoardStreet (street : String)
  | openDealAudit
  | setReady (conn : String) (ready : Bool)
  | terminate (state : TerminalState) (reason : String) (conn : Option String) (seat : Option ℤ)
  | addLocalPlayer (conn nickname avatar : String) (publicKey x25519 : Bytes)
  | markHostAuthenticated (conn : String) (hostPubkey : Option Bytes)

def whileOn (c : TableCall) (r : Room T) : Room T := if r.terminal.isSome then r else r.call tbl c

def make (c : Call) (r : Room T) : Room T :=
  match c with
  | .message a => r.handleMessage env tbl a
  | .disconnect conn reason => r.handleDisconnect tbl conn reason
  | .configureSeats order => r.configureSeats tbl order
  | .seatLocalTable order nicknames => r.seatLocalTable tbl order nicknames
  | .startGame settings => r.startGame settings
  | .start c => r.startHand env tbl c
  | .sendBetAction action amount => r.whileOn tbl (.bet action amount)
  | .revealBoardStreet street => r.whileOn tbl (.reveal street)
  | .openDealAudit => r.whileOn tbl .audit
  | .setReady conn ready => r.setReady conn ready
  | .terminate state reason conn seat => r.terminate tbl state reason conn seat
  | .addLocalPlayer conn nickname avatar publicKey x25519 => r.addLocalPlayer conn nickname avatar publicKey x25519
  | .markHostAuthenticated conn hostPubkey => (r.markHostAuthenticated conn hostPubkey).2

def run (calls : List Call) (r : Room T) : Room T := calls.foldl (fun r c => r.make env tbl c) r

end Room

/-! A table on which nothing ever happens, to try a room with. -/

namespace Room.Sample

def env : Env where
  mac _ _ := List.replicate 32 0
  bodyHash _ := ""
  byteSize _ := some 0
  parseInt _ := none
  repr _ := ""

def table : Table Unit where
  eliminated _ := false
  departed _ := []
  resumeHand _ := none
  totalChips _ := none
  settled _ := false
  dealt _ := false
  seatInPlay _ _ := true
  invalidate _ := ()
  react _ _ := { table := () }
  start c _ := ({ table := () }, match c with
    | .startP2pHand hand _ _ _ _ _ _ | .beginHand hand _ _ => some hand
    | .nextP2pHand => none)

def key (b : UInt8) : Bytes := List.replicate 32 b

def nonce (b : UInt8) : Admission.Nonce := ⟨List.replicate 16 b, by simp [Admission.nonceLen]⟩

def hostKey : Bytes := key 1

def lobby : HostAdmission :=
  { secret := ⟨List.replicate 16 0, rfl⟩, hostPubkey := ⟨hostKey, rfl⟩, token := ⟨List.replicate 8 0, rfl⟩ }

/-- A joiner that has authenticated its host, which it knows as `h`. -/
def joiner : Room Unit :=
  ({ isHost := false, wire := true, admission := none, joinerAdmission := some hostKey, hostAuthenticated := false
     table := () : Room Unit }.markHostAuthenticated "h" (some hostKey)).2

def arrival (conn : String) (msg : Message) : Arrival := ⟨conn, msg, 0, nonce 0⟩

def envelope (type : String) (author : Bytes) (payload : Message) : Message :=
  [("type", .str type), ("pubkey", .str (Hex.encode author)), ("payload", .obj payload)]

end Room.Sample

end Holdem
