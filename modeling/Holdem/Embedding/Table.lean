import Holdem.Engine.Start
import Holdem.Engine.Settle

/-!
`PokerTable`: the table of a trusted host, and the command boundary in front of the engine. Arguments
may be any Python value, and the shuffle is an argument of `start_hand`.
-/

namespace Holdem

/-- A Python value that is not a dict, as far as the checks tell values apart. -/
inductive Scalar where
  | int (value : ℤ)
  | bool (value : Bool)
  | str (value : String)
  | other (repr : String)
  deriving DecidableEq

inductive Payload where
  | none
  | dict (fields : List (Scalar × Scalar))
  | other
  deriving DecidableEq

structure PyText where
  isPrintable : String → Bool
  strip : String → String
  repr : Scalar → String

inductive Command where
  | fold | checkCall | raiseTo | sitOut | sitIn | addChips | startGame | nextHand
  deriving DecidableEq

namespace Command

def word : Command → String
  | fold => "fold"
  | checkCall => "check_call"
  | raiseTo => "raise_to"
  | sitOut => "sit_out"
  | sitIn => "sit_in"
  | addChips => "add_chips"
  | startGame => "start_game"
  | nextHand => "next_hand"

def all : List Command := [fold, checkCall, raiseTo, sitOut, sitIn, addChips, startGame, nextHand]

def parse (allowed : List Command) : Scalar → Option Command
  | .str text => allowed.find? fun command => command.word = text
  | _ => none

end Command

def unknownCommand (py : PyText) (command : Scalar) : PyError :=
  .valueError ("unknown command: " ++ py.repr command)

def amountKey : Scalar := .str "amount"

def postNowKey : Scalar := .str "post_now"

def amountOf (fields : List (Scalar × Scalar)) : Option ℤ :=
  match fields.lookup amountKey with
  | some (.int value) => some value
  | _ => none

/-- `set(payload)` against the fields a command takes. -/
def hasExactly (fields : List (Scalar × Scalar)) (expected : List Scalar) : Bool :=
  fields.all (fun field => field.1 ∈ expected) && expected.all fun key => (fields.lookup key).isSome

namespace Command

def expected : Command → List Scalar
  | raiseTo => [amountKey]
  | _ => []

def required : Command → List Scalar
  | raiseTo | addChips => [amountKey]
  | _ => []

def permitted : Command → List Scalar
  | sitIn => [postNowKey]
  | command => command.required

end Command

def Payload.fields (refusal : String) : Payload → Except PyError (List (Scalar × Scalar))
  | .none => .ok []
  | .dict fields => .ok fields
  | .other => .error (.valueError refusal)

def commandPayload (py : PyText) (command : Scalar) (payload : Payload) (lifecycle : Bool) :
    Except PyError (List (Scalar × Scalar)) := do
  let fields ← payload.fields "Command payload must be an object"
  let allowed := [.fold, .checkCall, .raiseTo] ++ if lifecycle then [.startGame, .nextHand] else []
  match Command.parse allowed command with
  | none => .error (unknownCommand py command)
  | some command =>
    if ¬hasExactly fields command.expected then
      .error (.valueError ("Unexpected or missing payload fields for " ++ command.word))
    else if command = .raiseTo ∧ amountOf fields = none then
      .error (.valueError "Raise target must be an integer")
    else .ok fields

def validateCommandPayload (py : PyText) (command : Scalar) (payload : Payload) :
    Except PyError (Command × List (Scalar × Scalar)) :=
  match Command.parse Command.all command with
  | none => .error (unknownCommand py command)
  | some command => do
    let fields ← payload.fields "command payload must be an object"
    if (command.required.any fun key => (fields.lookup key).isNone) ∨
        (fields.any fun field => field.1 ∉ command.permitted) then
      .error (.valueError ("unexpected or missing payload fields for " ++ command.word))
    else if (fields.lookup amountKey).isSome ∧ amountOf fields = none then
      .error (.valueError "amount must be an integer")
    else match fields.lookup postNowKey with
      | some (.bool _) | none => .ok (command, fields)
      | some _ => .error (.valueError "post_now must be true or false")

namespace Engine

variable {n : ℕ}

def obey (seat : Fin n) (command : Command) (fields : List (Scalar × Scalar)) (unknown : PyError) : EngineM n Unit :=
  match command with
  | .fold => act seat.val .fold (.whole 0)
  | .checkCall => act seat.val .call (.whole 0)
  | .raiseTo => act seat.val .raise (.whole ((amountOf fields).getD 0))
  | .sitOut => modify fun e => e.sitOut seat
  | .sitIn => modify fun e => e.sitIn seat (decide (fields.lookup postNowKey = some (.bool true)))
  | .addChips => do let _ ← Engine.addChips seat ((amountOf fields).getD 0)
  | .startGame | .nextHand => throw unknown

/-- `contract.apply_command`; what the engine call returns is left out. -/
def applyCommand (py : PyText) (seat : ℤ) (command : Scalar) (payload : Payload) : EngineM n Unit := fun e =>
  if range : 0 ≤ seat ∧ seat < n then
    match validateCommandPayload py command payload with
    | .error x => .error x e
    | .ok (known, fields) => obey ⟨seat.toNat, seat_lt range⟩ known fields (unknownCommand py command) e
  else .error (.valueError "seat must be an integer identifying a player at this table") e

end Engine

/-- `PlayerSeat`, with fields that nobody has checked yet. -/
structure PlayerSeat where
  playerId : Scalar
  name : Scalar
  chips : Scalar

structure TableConfig where
  smallBlind : Scalar := .int 25
  bigBlind : Scalar := .int 50
  bettingStructure : Scalar := .str "No-Limit"
  bigBlindAnte : Scalar := .bool false

inductive TablePhase where
  | lobby | betting | settled | closed
  deriving DecidableEq, Repr

/-- The outcome of a hand. Maps by player id are functions of the seat. -/
structure HandResult (n : ℕ) where
  resultId : String
  handNum : ℕ
  initialChips : Fin n → ℤ
  finalChips : Fin n → ℤ
  netChips : Fin n → ℤ
  winnerIds : List String
  deriving DecidableEq

structure CloseResult (n : ℕ) where
  resultId : String
  initialChips : Fin n → ℤ
  finalChips : Fin n → ℤ
  deriving DecidableEq

structure CommandResult where
  tableId : String
  command : Scalar
  deriving DecidableEq

structure PokerTable (n : ℕ) where
  tableId : String
  playerIds : Fin n → String
  initial : Fin n → ℤ
  engine : Engine n
  phase : TablePhase := .lobby
  handInitial : Option (Fin n → ℤ) := none
  handResult : Option (HandResult n) := none
  shown : List (Fin n) := []
  closeResult : Option (CloseResult n) := none

abbrev TableM (n : ℕ) := EStateM PyError (PokerTable n)

def checkIdentifier (py : PyText) (label : String) : Scalar → Except PyError String
  | .str text =>
    if 1 ≤ text.length ∧ text.length ≤ 128 ∧ py.isPrintable text ∧ py.strip text = text then .ok text
    else .error (.valueError (label ++ " must be 1–128 printable characters without edge spaces"))
  | _ => .error (.valueError (label ++ " must be 1–128 printable characters without edge spaces"))

def checkPositiveChips (label : String) : Scalar → Except PyError ℤ
  | .int value =>
    if 0 < value then .ok value else .error (.valueError (label ++ " must be a positive integer"))
  | _ => .error (.valueError (label ++ " must be a positive integer"))

def checkStructure : Scalar → Except PyError BettingStructure
  | .str "No-Limit" => .ok .noLimit
  | .str "Pot-Limit" => .ok .potLimit
  | .str "Fixed-Limit" => .ok .fixedLimit
  | _ => .error (.valueError "Unsupported betting structure")

def checkAnte : Scalar → Except PyError Bool
  | .bool value => .ok value
  | _ => .error (.valueError "Big blind ante must be true or false")

def PlayerSeat.check (py : PyText) (player : PlayerSeat) : Except PyError (String × ℤ) := do
  let playerId ← checkIdentifier py "Player ID" player.playerId
  let _ ← checkIdentifier py "Player name" player.name
  let chips ← checkPositiveChips "Buy-in" player.chips
  return (playerId, chips)

namespace PokerTable

def seatAll (tableId : String) (players : List (String × ℤ)) (last : Fin players.length) (sb bb : ℤ)
    (bettingStructure : BettingStructure) (bbAnte : Bool) : PokerTable players.length :=
  let chips := fun i => (players.get i).2
  { tableId
    playerIds := fun i => (players.get i).1
    initial := chips
    engine := Engine.init chips last sb bb bettingStructure bbAnte false }

def init (py : PyText) (tableId : Scalar) (players : List PlayerSeat) (config : TableConfig) :
    Except PyError ((n : ℕ) × PokerTable n) := do
  let tableId ← checkIdentifier py "Table instance ID" tableId
  if ¬(2 ≤ players.length ∧ players.length ≤ 9) then
    throw (.valueError "A poker table requires 2–9 players")
  let sb ← checkPositiveChips "Small blind" config.smallBlind
  let bb ← checkPositiveChips "Big blind" config.bigBlind
  if bb < sb then
    throw (.valueError "Small blind cannot exceed big blind")
  let bettingStructure ← checkStructure config.bettingStructure
  let bbAnte ← checkAnte config.bigBlindAnte
  let seats ← players.mapM (PlayerSeat.check py)
  if ¬(seats.map Prod.fst).Nodup then
    throw (.valueError "Player IDs must be unique within a table")
  if some' : 0 < seats.length then
    return ⟨_, seatAll tableId seats ⟨seats.length - 1, by omega⟩ sb bb bettingStructure bbAnte⟩
  else
    throw .indexError

variable {n : ℕ}

def withEngine (t : PokerTable n) (engine : Engine n) : PokerTable n := { t with engine }

def onEngine {α : Type} (m : EngineM n α) : TableM n α := Method.within PokerTable.engine withEngine m

def chips (t : PokerTable n) (i : Fin n) : ℤ := (t.engine.players i).stack

def seatOf (t : PokerTable n) : Scalar → Option (Fin n)
  | .str text => (List.finRange n).find? fun i => t.playerIds i = text
  | _ => none

def recordHand (t : PokerTable n) (initial : Fin n → ℤ) (raw : SettleResult n) : PokerTable n :=
  { t with
    shown := (List.finRange n).filter fun i => i ∈ raw.shown
    handResult := some
      { resultId := t.tableId ++ "/hand/" ++ toString t.engine.handNo
        handNum := t.engine.handNo
        initialChips := initial
        finalChips := t.chips
        netChips := fun i => t.chips i - initial i
        winnerIds := ((List.finRange n).filter fun i => i ∈ raw.winners).map t.playerIds }
    phase := .settled }

/-- The settlement in `_advance`: the players' chips must be those they bought in with. -/
def settleHand : TableM n Unit := fun t =>
  (do
    let raw ← onEngine (Engine.settle 1 t.engine.bettingLocked)
    let t ← get
    if ∑ i, t.chips i ≠ ∑ i, t.initial i then
      throw (.runtimeError "Poker chip conservation failed")
    match t.handInitial with
    | none => throw .typeError
    | some initial => set (t.recordHand initial raw) : TableM n Unit) t

def handOver (e : Engine n) : Bool :=
  decide (e.contested.length ≤ 1) || e.bettingLocked || decide (e.street = .showdown)

/-- `_advance`, for a number of rounds of its loop. -/
def advanceFor : ℕ → TableM n Unit
  | 0 => throw .diverges
  | rounds + 1 => fun t =>
    if t.phase ≠ .betting then .ok () t
    else if handOver t.engine then settleHand t
    else if t.engine.actor.isSome then .ok () t
    else (do onEngine Engine.nextStreet; advanceFor rounds : TableM n Unit) t

/-- What `start_hand` forgets of the hand before. -/
def openHand (t : PokerTable n) : PokerTable n :=
  { t with handInitial := some t.chips, handResult := none, shown := [] }

def setBetting (t : PokerTable n) : PokerTable n := { t with phase := .betting }

def startHand (rounds : ℕ) (deck : List Card) : TableM n Unit := fun t =>
  if t.phase ≠ .lobby ∧ t.phase ≠ .settled then
    .error (.valueError "A new hand can start only at an open table between hands") t
  else if (t.engine.seatsWhere fun p => 0 < p.stack).length < 2 then
    .error (.valueError "At least two players need chips to start a hand") t
  else (do
    modify openHand
    let _ ← onEngine (Engine.startHand none deck)
    modify setBetting
    advanceFor rounds : TableM n Unit) t

def outsideRange (lg : Legal) (command : Scalar) (fields : List (Scalar × Scalar)) : Bool :=
  decide (command = .str Command.raiseTo.word) &&
    (!lg.canRaise || !((amountOf fields).any fun amount => lg.minTo ≤ amount ∧ amount ≤ lg.maxTo))

def command (py : PyText) (rounds : ℕ) (playerId command : Scalar) (payload : Payload) : TableM n CommandResult :=
  fun t =>
  match t.seatOf playerId with
  | none => .error (.valueError "Player is not seated at this table") t
  | some seat =>
    match commandPayload py command payload false with
    | .error x => .error x t
    | .ok fields =>
      if t.phase ≠ .betting ∨ t.engine.actor ≠ some seat then
        .error (.valueError "It is not this player's turn") t
      else if outsideRange (t.engine.legal seat) command fields then
        .error (.valueError "Raise target is outside the legal range") t
      else (do
        onEngine (Engine.applyCommand py seat.val command (.dict fields))
        advanceFor rounds
        return { tableId := t.tableId, command } : TableM n CommandResult) t

def close : TableM n (Option (CloseResult n)) := fun t =>
  if t.phase = .betting then .error (.valueError "Finish the current hand before closing the table") t
  else match t.closeResult with
    | some result => .ok (some result) t
    | none =>
      let result := { resultId := t.tableId ++ "/close", initialChips := t.initial, finalChips := t.chips }
      .ok (some result) { t with closeResult := some result, phase := .closed }

end PokerTable

end Holdem
