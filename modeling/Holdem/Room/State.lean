import Holdem.Lib.Dict
import Holdem.Room.Admission
import Holdem.Room.Drop

/-!
`Session` as the room around a table: who may speak, who sits where and under which key, and how the
session ends. Of the table, the room knows only what it asks and what comes back. An empty connection
name is none.
-/

namespace Holdem

namespace Room

/-- `state`; a session is never IDLE. -/
inductive Stage where
  | lobby | playing | ended
  deriving DecidableEq

inductive TerminalState where
  | hostLost | peerLost | endedNormal | abortedProtocol | localShutdown | policyRefused
  deriving DecidableEq

inductive DealPolicy where
  | bayerGroth | detection
  deriving DecidableEq

inductive ContinuationPolicy where
  | survivors | endTable
  deriving DecidableEq

structure Player where
  connId : String
  peerId : String
  nickname : String
  avatar : String
  isHost : Bool := false
  ready : Bool := false
  x25519 : String := ""
  /-- `ed25519_pubkey_hex`, empty for none. -/
  signingKey : String := ""
  deriving DecidableEq

structure TerminalRecord where
  handNo : ℤ
  previous : Stage
  terminal : TerminalState
  reason : String
  seat : Option ℤ
  conn : Option String
  host : Option String
  dealPolicy : Option DealPolicy
  deriving DecidableEq

inductive HandOutcome where
  | completed | forfeit | voidProtocol | voidPeerLost | voidTimeout | voidLocalAbort | voidEquivocation
  deriving DecidableEq

structure HandRecord where
  handNo : ℤ
  outcome : HandOutcome
  reason : String
  blamed : Option ℤ
  deriving DecidableEq

inductive HostlessKind where
  | keyAnnounce | deckRound | dealShare | auditOpen | betAction | handVoid | handSettled
  | sessionEnd | timeoutProposal | peerLost | casualClockFault
  | casualDropObserved | casualDrop | casualDropAck | casualDropDispute
  deriving DecidableEq

/-- `_DEFERRED_HAND_TYPES`. -/
def HostlessKind.deferred : HostlessKind → Bool
  | .keyAnnounce | .deckRound | .dealShare | .auditOpen | .betAction | .handVoid | .handSettled => true
  | _ => false

inductive AdmissionKind where
  | hello | challenge | response | accept
  deriving DecidableEq

/-- The messages that only a client's callback gets, if anybody. -/
inductive Aside where
  | action | gameState | dealPrivate | pause | resume | kick | adjustBlinds | other
  deriving DecidableEq

inductive Kind where
  | playerInfo | playerList | playerAck | gameStart | ready | chat | lobbyClock
  | aside (kind : Aside)
  | admission (kind : AdmissionKind)
  | hostless (kind : HostlessKind)
  deriving DecidableEq

def kindOf : String → Kind
  | "player_info" => .playerInfo
  | "player_list" => .playerList
  | "player_ack" => .playerAck
  | "game_start" => .gameStart
  | "ready" => .ready
  | "action" => .aside .action
  | "game_state" => .aside .gameState
  | "deal_private" => .aside .dealPrivate
  | "chat" => .chat
  | "pause" => .aside .pause
  | "resume" => .aside .resume
  | "kick" => .aside .kick
  | "adjust_blinds" => .aside .adjustBlinds
  | "key_announce" => .hostless .keyAnnounce
  | "deck_round" => .hostless .deckRound
  | "deal_share" => .hostless .dealShare
  | "audit_open" => .hostless .auditOpen
  | "bet_action" => .hostless .betAction
  | "hand_void" => .hostless .handVoid
  | "hand_settled" => .hostless .handSettled
  | "session_end" => .hostless .sessionEnd
  | "timeout_proposal" => .hostless .timeoutProposal
  | "peer_lost" => .hostless .peerLost
  | "casual_drop_observed" => .hostless .casualDropObserved
  | "casual_drop" => .hostless .casualDrop
  | "casual_drop_ack" => .hostless .casualDropAck
  | "casual_drop_dispute" => .hostless .casualDropDispute
  | "casual_clock_fault" => .hostless .casualClockFault
  | "casual_clock_request" | "casual_clock_sample" => .lobbyClock
  | "admission_hello" => .admission .hello
  | "admission_challenge" => .admission .challenge
  | "admission_response" => .admission .response
  | "admission_accept" => .admission .accept
  | _ => .aside .other

/-- `HostlessInbound`. -/
structure Inbound where
  kind : HostlessKind
  body : Message
  connId : String
  author : Option String
  seat : Option ℤ
  hand : Option ℤ
  fingerprint : String
  isLocal : Bool
  envelope : Message

/-- `DeferredHostless`. -/
structure Deferred where
  incoming : Inbound
  byteSize : ℕ

inductive Output where
  | send (conn : String) (msg : Message)
  | broadcast (msg : Message)
  | broadcastExcept (conn : String) (msg : Message)

/-- `_drop_stage`: where this game's hand stood, whether it was live, and the seats still playing. -/
structure DropStage where
  own : DropNotice
  live : Bool
  playing : List ℤ

end Room

open Room

structure Room (T : Type) where
  isHost : Bool
  /-- `author_mode == AUTHOR_MODE_WIRE`: envelopes are verified. -/
  wire : Bool
  admission : Option HostAdmission
  /-- The key the invite pins, where there is an invite. -/
  joinerAdmission : Option Bytes
  hostAuthenticated : Bool
  pinnedHostPubkey : Option String := none
  stage : Stage := .lobby
  players : Dict String Room.Player := ∅
  rosterSigningKeys : String → Option String := fun _ => none
  peerLastHash : String → Option String := fun _ => none
  joinOrder : List String := []
  localConnId : Option String := none
  hostConnId : Option String := none
  lastTableSettings : Message := []
  terminal : Option TerminalRecord := none
  terminalReason : String := ""
  dealPolicy : Option DealPolicy := none
  continuationPolicy : Option ContinuationPolicy := none
  seatOrder : List String := []
  /-- `_seat_keys`, by seat. -/
  seatKeys : List (ℕ × String) := []
  authorSeqOut : ℤ × ℤ → Option ℤ := fun _ => none
  authorSeqSeen : ℤ × ℤ → List (ℤ × String) := fun _ => []
  handNo : ℤ := 0
  handRecord : Option HandRecord := none
  msgBuffer : List Deferred := []
  activeReplays : List (List Deferred) := []
  endedOnReport : Bool := false
  dropStage : Option DropStage := none
  dropCompared : List ℤ := []
  table : T
  sent : List Output := []
  handed : List Inbound := []

namespace Room

inductive TableEnding where
  | hostLost | peerLost | endedNormal | abortedProtocol
  deriving DecidableEq

def TableEnding.terminal : TableEnding → TerminalState
  | .hostLost => .hostLost
  | .peerLost => .peerLost
  | .endedNormal => .endedNormal
  | .abortedProtocol => .abortedProtocol

/-- What a call does to a table: its state after it, what it broadcasts, how a drop left it, whether it
stops the hand, and whether it ends the session. -/
structure Reaction (T : Type) where
  table : T
  broadcast : List Message := []
  drop : Option (Bool × DropStage × List ℤ) := none
  stop : Option (HandOutcome × String × Option ℤ × Bool) := none
  ending : Option (TableEnding × String × Option ℤ) := none

inductive TableCall where
  | message (ctx : Inbound)
  | lobbyClock (conn : String) (msg : Message)
  | handEnded
  | casualDrop (seat : ℕ) (reason : String)
  | peerLost (seat : ℕ) (conn : String)
  | reportLost (seat : ℕ)
  | bet (action : String) (amount : ℤ)
  | reveal (street : String)
  | audit

inductive StartCall where
  | startP2pHand (handNo : ℤ) (names : List String) (chips : List ℤ) (sb bb : ℤ) (betting : String) (button : ℤ)
  | beginHand (handNo button : ℤ) (seatsIn : Option (List ℤ))
  | nextP2pHand

/-- A table: what the room asks it, and what its calls do. A local call that begins a hand also says
under which number. -/
structure Table (T : Type) where
  eliminated : T → Bool
  departed : T → List ℤ
  resumeHand : T → Option ℤ
  totalChips : T → Option ℤ
  /-- `hand_result is not None`. -/
  settled : T → Bool
  /-- `_replica is not None`. -/
  dealt : T → Bool
  seatInPlay : ℕ → Room T → Bool
  /-- What the deal holds back is dropped. -/
  invalidate : T → T
  react : TableCall → Room T → Reaction T
  start : StartCall → Room T → Reaction T × Option ℤ

/-- What comes from outside: the keyed hash, the hash of an unsigned body, the size of a writable envelope,
and Python's `int` of a text and `repr`. -/
structure Env where
  mac : Bytes → Bytes → Bytes
  bodyHash : Message → String
  byteSize : Message → Option ℕ
  parseInt : String → Option ℤ
  repr : Json → String

/-- A message as it comes in, with the time and the nonce drawn for it. -/
structure Arrival where
  conn : String
  msg : Message
  now : ℚ
  drawn : Admission.Nonce

variable {T : Type}

def terminate (tbl : Table T) (state : TerminalState) (reason : String) (conn : Option String) (seat : Option ℤ)
    (r : Room T) : Room T :=
  if r.terminal.isSome then r
  else { r with
    stage := .ended
    terminal := some ⟨r.handNo, r.stage, state, reason, seat, conn, r.hostConnId, r.dealPolicy⟩
    terminalReason := reason
    -- `_invalidate_pending_work`
    msgBuffer := []
    table := tbl.invalidate r.table }

/-- `_send_hostless`. A message without a seat is given the local one, and broadcast unstamped where
there is none. -/
def sendHostless (m : Message) (r : Room T) : Room T :=
  let stamp (seat : ℤ) (m : Message) : Room T :=
    let key := ((match m.get "hand" with | .int hand => hand | _ => r.handNo), seat)
    let next := (r.authorSeqOut key).getD 0
    { r with
      authorSeqOut := Function.update r.authorSeqOut key (some (next + 1))
      sent := r.sent ++ [.broadcast (("author_seq", .int next) :: m)] }
  match (m.lookup "seat").getD (m.get "seat_from") with
  | .int seat => stamp seat m
  | _ => match r.localConnId.bind fun cid => r.seatOrder.idxOf? cid with
    | some seat => stamp seat (("seat", .int seat) :: m)
    | none => { r with sent := r.sent ++ [.broadcast m] }

def sendAll (ms : List Message) (r : Room T) : Room T := ms.foldl (fun r m => r.sendHostless m) r

def noteDrop : Option (Bool × DropStage × List ℤ) → Room T → Room T
  | none, r => r
  | some (reported, stage, compared), r =>
    { r with endedOnReport := reported, dropStage := some stage, dropCompared := compared }

def endOn (tbl : Table T) : Option (TableEnding × String × Option ℤ) → Room T → Room T
  | none, r => r
  | some (ending, reason, seat), r => r.terminate tbl ending.terminal reason none seat

def carry (x : Reaction T) (r : Room T) : Room T := noteDrop x.drop ({ r with table := x.table }.sendAll x.broadcast)

def handVoided (r : Room T) : Bool := r.handRecord.any fun record => record.outcome ≠ .completed

def endHand (tbl : Table T) (outcome : HandOutcome) (reason : String) (blamed : Option ℤ) (announce : Bool)
    (r : Room T) : Room T :=
  if r.terminal.isSome then r
  else if r.handRecord.isSome ∨ tbl.settled r.table then r
  else
    let ended := { r with handRecord := some ⟨r.handNo, outcome, reason, blamed⟩ }
    if outcome = .completed then ended
    else
      let told := if announce then
          ended.sendHostless [("type", .str "hand_void"), ("hand", .int r.handNo), ("reason", .str reason)]
        else ended
      -- `_hand_ended`
      let x := tbl.react .handEnded told
      (told.carry x).endOn tbl x.ending

def stopOn (tbl : Table T) : Option (HandOutcome × String × Option ℤ × Bool) → Room T → Room T
  | none, r => r
  | some (outcome, reason, blamed, announce), r => r.endHand tbl outcome reason blamed announce

def apply (tbl : Table T) (x : Reaction T) (r : Room T) : Room T := ((r.carry x).stopOn tbl x.stop).endOn tbl x.ending

def call (tbl : Table T) (c : TableCall) (r : Room T) : Room T := r.apply tbl (tbl.react c r)

end Room

end Holdem
