import Holdem.Room.State

/-!
The lobby: the admission gate, the roster and its signing keys, and how a table is agreed on.
-/

namespace Holdem

namespace Room

variable {T : Type}

/-- `_control_payload` of a dictionary. -/
def controlPayload (msg : Message) : Option Message :=
  match msg.lookup "payload" with
  | none => some []
  | some (.obj fields) => some fields
  | some _ => none

def textField (fields : Message) (name : String) : Option (Option String) :=
  match fields.lookup name with
  | none => some none
  | some (.str text) => some (some text)
  | some _ => none

def boolField (fields : Message) (name : String) : Option (Option Bool) :=
  match fields.lookup name with
  | none => some none
  | some (.bool value) => some (some value)
  | some _ => none

def text? (fields : Message) (name : String) : Option String :=
  match fields.get name with
  | .str text => some text
  | _ => none

def authorOf (msg : Message) : Option String := text? msg "pubkey"

def Kind.isAdmission : Kind → Bool
  | .admission _ => true
  | _ => false

def admissionOk (conn : String) (kind : Kind) (author : Option String) (r : Room T) : Bool :=
  if r.localConnId = some conn then true
  else if r.joinerAdmission.isSome ∧ ¬r.hostAuthenticated then kind.isAdmission
  else if ¬r.isHost then true
  else match r.admission with
    | none => true
    | some a => match a.admitted conn with
      | some key => match author with
        | none | some "" => !r.wire
        | some author => decide (author = Hex.encode key)
      | none => kind.isAdmission

/-- `_adm_bytes` of a field. -/
def admBytes (fields : Message) (name : String) : Option Bytes := (text? fields name).bind Hex.decode

def bodyOf (msg : Message) : Message :=
  match msg.get "payload" with
  | .obj fields => fields
  | _ => msg

def admissionAuthor (msg : Message) : Option Bytes := (admBytes msg "pubkey").filter fun key => key.length = Admission.keyLen

def readHello (msg : Message) : Option (Bytes × Bytes) := do
  let author ← admissionAuthor msg
  let nonce ← admBytes (bodyOf msg) "client_nonce"
  return (author, nonce)

/-- What an `admission_response` says. -/
def readResponse (msg : Message) : Option (Bytes × Bytes × Bytes × Bytes) := do
  let author ← admissionAuthor msg
  let clientNonce ← admBytes (bodyOf msg) "client_nonce"
  let serverNonce ← admBytes (bodyOf msg) "server_nonce"
  let given ← admBytes (bodyOf msg) "mac"
  return (author, clientNonce, serverNonce, given)

def nonceMessage (type : String) (nonces : Bytes × Bytes) : Message :=
  [("type", .str type), ("client_nonce", .str (Hex.encode nonces.1)), ("server_nonce", .str (Hex.encode nonces.2))]

def send (conn : String) (msg : Message) (r : Room T) : Room T := { r with sent := r.sent ++ [.send conn msg] }

def answerAdmission (env : Env) (a : Arrival) (kind : AdmissionKind) (r : Room T) : Room T :=
  if ¬r.isHost then r
  else match r.admission, kind with
    | some adm, .hello => match readHello a.msg with
      | none => r
      | some (author, nonce) => match adm.onHello a.now a.drawn a.conn author nonce with
        | (none, adm) => { r with admission := some adm }
        | (some challenge, adm) =>
          { r with admission := some adm }.send a.conn (nonceMessage "admission_challenge" challenge)
    | some adm, .response => match readResponse a.msg with
      | none => r
      | some (author, clientNonce, serverNonce, given) =>
        match adm.onResponse env.mac a.now a.conn author clientNonce serverNonce given with
        | (false, adm) => { r with admission := some adm }
        | (true, adm) => match adm.acceptPayload a.conn with
          | none => { r with admission := some adm }
          | some accept => { r with admission := some adm }.send a.conn (nonceMessage "admission_accept" accept)
    | _, _ => r

def markHostAuthenticated (conn : String) (hostPubkey : Option Bytes) (r : Room T) : Bool × Room T :=
  match r.joinerAdmission with
  | none => (false, r)
  | some pinned =>
    if hostPubkey.any (· ≠ pinned) then (false, r)
    else (true, { r with
      pinnedHostPubkey := some (Hex.encode pinned)
      hostConnId := some conn
      hostAuthenticated := true })

def broadcastPlayerList (r : Room T) : Room T :=
  let row (p : Player) : Json := .obj
    [("conn_id", .str p.connId), ("peer_id", .str p.peerId), ("nickname", .str p.nickname),
      ("avatar_b64", .str p.avatar), ("x25519_pubkey_hex", .str p.x25519),
      ("ed25519_pubkey_hex", .str p.signingKey), ("is_host", .bool p.isHost), ("ready", .bool p.ready)]
  { r with sent := r.sent ++ [.broadcast [("type", .str "player_list"),
      ("payload", .obj [("players", .arr (r.players.values.map row))])]] }

def currentKey (conn : String) (r : Room T) : String :=
  match r.rosterSigningKeys conn with
  | none | some "" => ((r.players.get conn).map Player.signingKey).getD ""
  | some key => key

def adoptedKey (conn claimed : String) (r : Room T) : String :=
  if r.currentKey conn = "" then claimed else r.currentKey conn

/-- What `_adopt_signing_key` keeps on record. -/
def adoptSigningKey (conn claimed : String) (r : Room T) : Room T :=
  if r.adoptedKey conn claimed = "" then r
  else { r with rosterSigningKeys := Function.update r.rosterSigningKeys conn (some (r.adoptedKey conn claimed)) }

def setPlayer (p : Player) (r : Room T) : Room T :=
  { r.adoptSigningKey p.connId p.signingKey with
    players := r.players.set p.connId { p with signingKey := r.adoptedKey p.connId p.signingKey } }

def onPlayerInfo (conn : String) (msg : Message) (r : Room T) : Room T :=
  if ¬r.isHost then r
  else if r.terminal.isSome ∨ r.stage ≠ .lobby then r
  else
    let fields := do
      let payload ← controlPayload msg
      let nickname ← textField payload "nickname"
      let avatar ← textField payload "avatar_b64"
      let x25519 ← textField payload "x25519_pubkey_hex"
      let pubkey ← textField msg "pubkey"
      return (nickname.getD "Player", avatar.getD "", x25519.getD "", pubkey.getD "")
    match fields with
    | none => r
    | some (nickname, avatar, x25519, pubkey) =>
      let r := r.setPlayer
        { connId := conn, peerId := String.ofList (pubkey.toList.take 16), nickname, avatar, x25519, signingKey := pubkey }
      let r := { r with joinOrder := if conn ∈ r.joinOrder then r.joinOrder else r.joinOrder ++ [conn] }
      (r.send conn [("type", .str "player_ack"), ("payload", .obj [("your_conn_id", .str conn)])]).broadcastPlayerList

/-- A row of a `player_list`, its fields checked. -/
structure RosterRow where
  connId : Option String
  peerId : Option String
  nickname : Option String
  avatar : Option String
  x25519 : Option String
  signingKey : Option String
  isHost : Option Bool
  ready : Option Bool

namespace RosterRow

def read : Json → Option RosterRow
  | .obj fields => do
    let connId ← textField fields "conn_id"
    let peerId ← textField fields "peer_id"
    let nickname ← textField fields "nickname"
    let avatar ← textField fields "avatar_b64"
    let x25519 ← textField fields "x25519_pubkey_hex"
    let signingKey ← textField fields "ed25519_pubkey_hex"
    let isHost ← boolField fields "is_host"
    let ready ← boolField fields "ready"
    return { connId, peerId, nickname, avatar, x25519, signingKey, isHost, ready }
  | _ => none

/-- `p.get("conn_id", "")`. -/
def id (p : RosterRow) : String := p.connId.getD ""

def flagged (p : RosterRow) (existing : Option Player) : Bool := p.isHost.getD ((existing.map Player.isHost).getD false)

def claimed (p : RosterRow) (existing : Option Player) : String :=
  p.signingKey.getD ((existing.map Player.signingKey).getD "")

def misnames (pinned : String) (players : Dict String Player) (p : RosterRow) : Bool :=
  p.id ≠ "" && p.flagged (players.get p.id) && p.claimed (players.get p.id) ≠ "" && p.claimed (players.get p.id) ≠ pinned

def entry (p : RosterRow) : Option Player → Player
  | none =>
    { connId := p.id, peerId := p.peerId.getD "", nickname := p.nickname.getD "Player", avatar := p.avatar.getD ""
      x25519 := p.x25519.getD "", signingKey := p.claimed none, isHost := p.flagged none, ready := p.ready.getD false }
  | some existing =>
    { existing with
      connId := p.id
      ready := p.ready.getD existing.ready
      nickname := p.nickname.getD existing.nickname
      avatar := p.avatar.getD existing.avatar
      isHost := p.flagged (some existing)
      x25519 := p.x25519.getD existing.x25519
      signingKey := p.claimed (some existing) }

end RosterRow

/-- The ids of the rows `_on_player_list` refuses, going by the roster before the message. -/
def refusedRows (rows : List RosterRow) (r : Room T) : List String :=
  match r.pinnedHostPubkey with
  | none => []
  | some pinned => (rows.filter (RosterRow.misnames pinned r.players)).map RosterRow.id

def mergeRow (refused : List String) (r : Room T) (p : RosterRow) : Room T :=
  if p.id = "" ∨ p.id ∈ refused then r else r.setPlayer (p.entry (r.players.get p.id))

/-- The rows of a `player_list`, if they are all in order. -/
def readRoster (msg : Message) : Option (List RosterRow) := do
  let payload ← controlPayload msg
  match payload.lookup "players" with
  | none => some []
  | some (.arr items) => items.mapM RosterRow.read
  | some _ => none

def onPlayerList (conn : String) (msg : Message) (r : Room T) : Room T :=
  if r.hostConnId.any (conn ≠ ·) then r
  else if r.isHost then r
  else match readRoster msg with
    | none => r
    | some rows =>
      let r := rows.foldl (mergeRow (r.refusedRows rows)) r
      { r with
        players := if r.stage = .lobby then r.players.keep fun cid => cid ∈ rows.map RosterRow.id else r.players
        joinOrder := (rows.filter fun p => p.id ≠ "" ∧ p.isHost ≠ some true).map RosterRow.id }

def onPlayerAck (conn : String) (msg : Message) (r : Room T) : Room T :=
  if r.isHost then r
  else if r.terminal.isSome ∨ r.stage ≠ .lobby then r
  else if r.hostConnId.any (conn ≠ ·) then r
  else match (controlPayload msg).bind fun payload => text? payload "your_conn_id" with
    | none | some "" => r
    | some assigned => { r with localConnId := some assigned }

def setReady (conn : String) (ready : Bool) (r : Room T) : Room T :=
  let r := match r.players.get conn with
    | none => r
    | some p => { r with players := r.players.set conn { p with ready } }
  if r.isHost then r.broadcastPlayerList else r

def onReady (conn : String) (msg : Message) (r : Room T) : Room T :=
  match (controlPayload msg).bind fun payload => boolField payload "ready" with
  | none => r
  | some ready => r.setReady conn (ready.getD false)

def chatDisplayName (conn : String) (msg payload : Message) (r : Room T) : Option String :=
  match authorOf msg with
  | none | some "" =>
    if r.isHost then ((r.players.get conn).map Player.nickname).getD ((text? payload "nickname").getD "Player")
    else (text? payload "nickname").getD "Player"
  | some author => (r.players.values.find? fun p => p.signingKey.toLower = author.toLower).map Player.nickname

def onChat (conn : String) (msg : Message) (r : Room T) : Room T :=
  let checked := do
    let payload ← controlPayload msg
    let _ ← textField payload "nickname"
    let _ ← textField payload "text"
    r.chatDisplayName conn msg payload
  if checked.isSome ∧ r.isHost then { r with sent := r.sent ++ [.broadcast msg] } else r

def addLocalPlayer (conn nickname avatar : String) (publicKey x25519 : Bytes) (r : Room T) : Room T :=
  if publicKey.length ≠ 32 ∨ x25519.length ∉ [0, 32] then r
  else
    let r := r.setPlayer
      { connId := conn, peerId := "", nickname, avatar, x25519 := Hex.encode x25519, signingKey := Hex.encode publicKey
        isHost := r.isHost, ready := true }
    if r.isHost then r.broadcastPlayerList else r

def parseDealPolicy (wire : Bool) : Json → Option DealPolicy
  | .obj settings => match Message.get settings "deal_policy" with
    | .str "bayer-groth-v1" => some .bayerGroth
    | .str "detection-only-v1" => if wire then none else some .detection
    | _ => none
  | _ => none

def parseContinuationPolicy : Json → Option ContinuationPolicy
  | .obj settings => match Message.get settings "continuation_policy" with
    | .str "survivors-v1" => some .survivors
    | .str "end-table-v1" => some .endTable
    | _ => none
  | _ => none

/-- A policy is adopted once: `known` is the one there is, and `written` the room with the new one. -/
def adopt {P : Type} [DecidableEq P] (known : Option P) (policy : P) (written r : Room T) : Option (Room T) :=
  match known with
  | none => some written
  | some current => if current = policy then some r else none

/-- `_adopt_deal_policy`: none for a change. -/
def adoptDealPolicy (policy : DealPolicy) (r : Room T) : Option (Room T) :=
  adopt r.dealPolicy policy { r with dealPolicy := some policy } r

def adoptContinuationPolicy (policy : ContinuationPolicy) (r : Room T) : Option (Room T) :=
  adopt r.continuationPolicy policy { r with continuationPolicy := some policy } r

/-- Both policies, one after the other: what is adopted, and whether neither was refused. -/
def adoptPolicies (policy : DealPolicy) (continuation : ContinuationPolicy) (r : Room T) : Bool × Room T :=
  match r.adoptDealPolicy policy with
  | none => (false, r)
  | some r => match r.adoptContinuationPolicy continuation with
    | none => (false, r)
    | some r => (true, r)

/-- `_duplicate_seat_ids`: the ids that come again, in the order they do. -/
def duplicateSeatIds : List String → List String → List String → List String
  | _, dupes, [] => dupes
  | seen, dupes, cid :: rest =>
    if cid ∈ seen then duplicateSeatIds seen (if cid ∈ dupes then dupes else dupes ++ [cid]) rest
    else duplicateSeatIds (seen ++ [cid]) dupes rest

/-- The order of a `game_start`, if it is a list of texts. -/
def readOrder (payload : Message) : Option (List String) :=
  match payload.lookup "seat_order" with
  | none => some []
  | some (.arr items) => items.mapM fun | .str cid => some cid | _ => none
  | some _ => none

def settingsOf (payload : Message) : Json := (payload.lookup "table_settings").getD (.obj [])

def refusedPolicy (env : Env) (wire : Bool) (settings : Json) : String :=
  let declared := match settings with
    | .obj fields => Message.get fields "deal_policy"
    | _ => .null
  "table declared deal policy " ++ env.repr declared ++ ", which this peer will not play under in " ++
    (if wire then "wire" else "compat")

def onGameStart (env : Env) (tbl : Table T) (conn : String) (msg : Message) (r : Room T) : Room T :=
  match controlPayload msg with
  | none => r
  | some payload => match readOrder payload with
    | none => r
    | some order =>
      if r.hostConnId.any (conn ≠ ·) then r
      else if r.stage = .playing ∨ r.terminal.isSome then r
      else if duplicateSeatIds [] [] order ≠ [] then r
      else match parseDealPolicy r.wire (settingsOf payload) with
        | none => r.terminate tbl .policyRefused (refusedPolicy env r.wire (settingsOf payload)) (some conn) none
        | some policy => match parseContinuationPolicy (settingsOf payload) with
          | none => r.terminate tbl .policyRefused
              "table omitted or declared an unsupported continuation policy" (some conn) none
          | some continuation => match r.adoptPolicies policy continuation with
            | (false, r) => r.terminate tbl .policyRefused
                "table attempted to change an adopted deal or continuation policy" (some conn) none
            | (true, r) => { r with
                stage := .playing
                seatOrder := order
                lastTableSettings := match settingsOf payload with
                  | .obj (field :: fields) => field :: fields
                  | _ => r.lastTableSettings }

def startGame (settings : Message) (r : Room T) : Room T :=
  if r.terminal.isSome ∨ ¬r.isHost then r
  else match parseDealPolicy r.wire (.obj settings), parseContinuationPolicy (.obj settings) with
    | some policy, some continuation => match r.adoptPolicies policy continuation with
      | (false, r) => r
      | (true, r) =>
        let order := r.players.values.map Player.connId
        { r with
          seatOrder := order
          lastTableSettings := settings
          stage := .playing
          sent := r.sent ++ [.broadcast [("type", .str "game_start"), ("payload",
            .obj [("table_settings", .obj settings), ("seat_order", .arr (order.map .str))])]] }
    | _, _ => r

/-- `configure_seats` would take the order. -/
def acceptsSeats (tbl : Table T) (order : List String) (r : Room T) : Bool :=
  !(tbl.dealt r.table && !r.handVoided && !tbl.settled r.table) &&
    decide (2 ≤ order.length ∧ order.length ≤ 9) && decide (duplicateSeatIds [] [] order = []) &&
    r.localConnId.all (· ∈ order)

def configureSeats (tbl : Table T) (order : List String) (r : Room T) : Room T :=
  if r.acceptsSeats tbl order then { r with seatOrder := order } else r

def seatLocalTable (tbl : Table T) (order : List String) (nicknames : String → Option String) (r : Room T) : Room T :=
  if r.wire ∨ r.terminal.isSome then r
  else if r.acceptsSeats tbl order then
    let player (cid : String) : Player :=
      { connId := cid, peerId := "", nickname := (nicknames cid).getD cid, avatar := "", isHost := order.head? = some cid }
    { r with
      seatOrder := order
      players := order.foldl (fun d cid => d.set cid (player cid)) ∅
      joinOrder := order.filter fun cid => r.localConnId ≠ some cid }
  else r

def rosterKeys (r : Room T) : List (ℕ × String) :=
  r.seatOrder.zipIdx.filterMap fun (cid, seat) =>
    match (r.players.get cid).map Player.signingKey with
    | none | some "" => none
    | some key => some (seat, key)

theorem rosterKeys_found {r : Room T} {cid : String} {seat : ℕ} {pair : ℕ × String}
    (found : (match (r.players.get cid).map Player.signingKey with
      | none | some "" => none
      | some key => some (seat, key)) = some pair) :
    ∃ p, r.players.get cid = some p ∧ p.signingKey ≠ "" ∧ pair = (seat, p.signingKey) := by
  split at found
  · cases found
  · cases found
  rename_i key given named
  cases found
  obtain ⟨p, entry, rfl⟩ := Option.map_eq_some_iff.mp named
  exact ⟨p, entry, given, rfl⟩

def bindSeatKeys (r : Room T) : Option (Room T) :=
  if r.seatKeys ≠ [] then some r
  else if duplicateSeatIds [] [] r.seatOrder ≠ [] then none
  else if r.rosterKeys = [] then (if r.seatOrder ≠ [] ∧ r.wire then none else some r)
  else if r.rosterKeys.length ≠ r.seatOrder.length then none
  else some { r with seatKeys := r.rosterKeys }

def authorOwnsSeat (conn : String) (author : Option String) (seat : ℤ) (r : Room T) : Bool :=
  if ¬(0 ≤ seat ∧ seat < r.seatOrder.length) then false
  else if r.localConnId = some conn then true
  else if r.seatKeys ≠ [] then
    match r.seatKeys.lookup seat.toNat with
    | none | some "" => false
    | some expected => decide (author = some expected)
  else if r.wire then false
  else decide (r.seatOrder[seat.toNat]? = some conn)

end Room

end Holdem
