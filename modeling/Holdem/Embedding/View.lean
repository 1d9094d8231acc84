import Holdem.Wire
import Holdem.Embedding.Table

/-!
What a player is shown: `contract.build_snapshot`, `player_info.turn_view` and `PokerTable.view`.
-/

namespace Holdem

variable {n : ℕ}

def cardStr (card : Card) : String := card.rank ++ ["c", "d", "h", "s"].getD card.s ""

/-- `Card.__str__`, which the log uses. -/
def Card.glyph (card : Card) : String := card.rank ++ card.suit

def rankWord (words : List String) (v : ℕ) : Except PyError String :=
  match v - 2, words[v - 2]? with
  | _, some word => if 2 ≤ v then .ok word else .error .keyError
  | _, none => .error .keyError

def rankName : ℕ → Except PyError String := rankWord
  ["Two", "Three", "Four", "Five", "Six", "Seven", "Eight", "Nine", "Ten", "Jack", "Queen", "King", "Ace"]

def rankPlural : ℕ → Except PyError String := rankWord
  ["Twos", "Threes", "Fours", "Fives", "Sixes", "Sevens", "Eights", "Nines", "Tens", "Jacks", "Queens", "Kings", "Aces"]

def Score.tie (score : Score) (k : ℕ) : Except PyError ℕ :=
  match score.tiebreakers[k]? with
  | some value => .ok value
  | none => .error .indexError

def handName (score : Score) : Except PyError String := do
  if score.category = 8 then
    if (← score.tie 0) = 14 then return "Royal Flush"
  match ["High Card", "One Pair", "Two Pair", "Three of a Kind", "Straight", "Flush", "Full House", "Four of a Kind",
    "Straight Flush"][score.category]? with
  | some name => return name
  | none => throw .keyError

def kickerWords (score : Score) : Except PyError String := do
  return "-".intercalate (← (score.tiebreakers.drop 1).mapM rankName)

def describeScore (score : Score) : Except PyError String := do
  match score.category with
  | 8 =>
    if (← score.tie 0) = 14 then return "Royal Flush"
    return (← rankName (← score.tie 0)) ++ "-high Straight Flush"
  | 7 => return "Four " ++ (← rankPlural (← score.tie 0)) ++ ", " ++ (← rankName (← score.tie 1)) ++ " kicker"
  | 6 => return (← rankPlural (← score.tie 0)) ++ " full of " ++ (← rankPlural (← score.tie 1))
  | 5 => return (← rankName (← score.tie 0)) ++ "-high Flush"
  | 4 => return (← rankName (← score.tie 0)) ++ "-high Straight"
  | 3 => return "Three " ++ (← rankPlural (← score.tie 0)) ++ ", " ++ (← rankName (← score.tie 1)) ++ "-" ++
      (← rankName (← score.tie 2)) ++ " kickers"
  | 2 => return (← rankPlural (← score.tie 0)) ++ " and " ++ (← rankPlural (← score.tie 1)) ++ ", " ++
      (← rankName (← score.tie 2)) ++ " kicker"
  | 1 => return "Pair of " ++ (← rankPlural (← score.tie 0)) ++ ", " ++ (← kickerWords score) ++ " kickers"
  | _ =>
    let rest ← kickerWords score
    return (← rankName (← score.tie 0)) ++ "-high" ++ if rest = "" then "" else ", " ++ rest ++ " kickers"

structure MadeHand where
  name : String
  description : String
  bestFive : List String
  boardPlays : Bool

def madeHandView (hole board : List Card) : Except PyError (Option MadeHand) := do
  if hole.length ≠ 2 ∨ board.length < 3 then return none
  let score ← evaluate (hole ++ board)
  let best ← bestFive (hole ++ board)
  let plays ← if board.length = 5 then some <$> evaluate board else pure none
  return some ⟨← handName score, ← describeScore score, best.map cardStr, decide (plays = some score)⟩

/-- `street.replace("_", " ").title()`. -/
def Street.label : Street → String
  | .idle => "Idle"
  | .preflop => "Preflop"
  | .flop => "Flop"
  | .turn => "Turn"
  | .river => "River"
  | .showdown => "Showdown"

/-- `street.upper()`. -/
def Street.title : Street → String
  | .idle => "IDLE"
  | .preflop => "PREFLOP"
  | .flop => "FLOP"
  | .turn => "TURN"
  | .river => "RIVER"
  | .showdown => "SHOWDOWN"

def Blind.label : Blind → String
  | .sb => "SB"
  | .bb => "BB"
  | .ante => "ante"
  | .post => "post"
  | .deadSb => "dead SB"
  | .str => "STR"

/-- `label.lower()`. -/
def Blind.word : Blind → String
  | .sb => "sb"
  | .bb => "bb"
  | .ante => "ante"
  | .post => "post"
  | .deadSb => "dead sb"
  | .str => "str"

def LastAction.word : LastAction → String
  | .none => ""
  | .posted label amount => label.label ++ " " ++ toString amount
  | .fold => "FOLD"
  | .check => "CHECK"
  | .call amount => "CALL " ++ toString amount
  | .allIn target => "ALL-IN " ++ toString target
  | .bet amount => "BET " ++ toString amount
  | .raise target => "RAISE " ++ toString target

structure EventView where
  seq : ℕ
  kind : String
  event : String
  text : String
  handNum : ℕ
  street : String
  payload : List (String × Json)

def showBoard (board : List Card) : String := " ".intercalate (board.map Card.glyph)

def boardField (board : List Card) : String × Json := ("board", .arr (board.map fun card => .str (cardStr card)))

section Log

variable (names : Fin n → String)

def seatField (i : Fin n) : String × Json := ("seat", .int i)

def actionFields (i : Fin n) (action : String) (amount target : ℤ) : List (String × Json) :=
  [("seat", .int i), ("action", .str action), ("amount", .int amount), ("to", .int target)]

/-- What one event says: its kind, name, text and payload. With one run of the board, an award names
none. -/
def EventBody.words (handNo : ℕ) (street : Street) :
    EventBody n → Except PyError (String × String × String × List (String × Json))
  | .handStarted sb bb ante =>
    .ok ("hand", "hand_started",
      "--- Hand #" ++ toString handNo ++ "  (" ++ toString sb ++ "/" ++ toString bb ++
        (if ante ≠ 0 then " +ante" else "") ++ ") ---",
      [("small_blind", .int sb), ("big_blind", .int bb), ("ante", .int ante)])
  | .deadSmallBlind =>
    .ok ("blind", "post_blind", "small blind is dead",
      [("seat", .null), ("blind", .str "dead_sb"), ("amount", .int 0), ("all_in", .bool false)])
  | .postBlind i label amount allIn dead pot =>
    .ok ("blind", "post_blind",
      names i ++ " posts " ++ label.label ++ " " ++ toString amount ++ (if allIn then " (all-in)" else ""),
      [seatField i, ("blind", .str label.word), ("amount", .int amount), ("all_in", .bool allIn)] ++
        (if dead then [("dead", .bool true)] else []) ++ [("pot_after", .int pot)])
  | .straddle i amount allIn pot =>
    .ok ("blind", "post_blind", names i ++ " straddles to " ++ toString amount,
      [seatField i, ("blind", .str "straddle"), ("amount", .int amount), ("all_in", .bool allIn), ("pot_after", .int pot)])
  | .fold i target pot =>
    .ok ("fold", "action", names i ++ " folds", actionFields i "fold" 0 target ++ [("pot_after", .int pot)])
  | .check i target pot =>
    .ok ("check", "action", names i ++ " checks", actionFields i "check" 0 target ++ [("pot_after", .int pot)])
  | .call i amount target allIn pot =>
    .ok ("bet", "action",
      names i ++ " calls " ++ toString amount ++ (if allIn then " and is all-in" else "") ++ " | pot " ++ toString pot,
      actionFields i "call" amount target ++ [("all_in", .bool allIn), ("pot_after", .int pot)])
  | .raise i opening amount target allIn full pot =>
    .ok ("raise", "action",
      (if allIn then names i ++ " is all-in for " ++ toString target
        else names i ++ (if opening then " bets " ++ toString amount else " raises to " ++ toString target)) ++
        " | pot " ++ toString pot,
      actionFields i (if opening then "bet" else "raise") amount target ++
        [("all_in", .bool allIn), ("full_raise", .bool full), ("pot_after", .int pot)])
  | .dealBoard none board =>
    .ok ("street", "deal_board", "=== " ++ street.title ++ "  [" ++ showBoard board ++ "] ===", [boardField board])
  | .dealBoard (some run) board =>
    .ok ("street", "deal_board", "=== RUN " ++ toString run ++ "  [" ++ showBoard board ++ "] ===",
      [("run", .int run), boardField board])
  | .refund i amount pot =>
    .ok ("pot", "refund", toString amount ++ " returned to " ++ names i ++ " (uncalled)",
      [seatField i, ("amount", .int amount), ("pot_after", .int pot)])
  | .shows i score best => do
    let name ← handName score
    return ("show", "showdown", names i ++ " shows " ++ name,
      [seatField i, ("shown", .bool true), ("hand", .str name),
        ("score", .arr [.int score.category, .arr (score.tiebreakers.map fun v => .int v)]),
        ("best", .arr (best.map fun card => .str (cardStr card)))])
  | .mucks i =>
    .ok ("fold", "showdown", names i ++ " mucks", [seatField i, ("shown", .bool false), ("mucked", .bool true)])
  | .award potIndex run amount winners payouts hand => do
    let who := ", ".intercalate (winners.map names)
    let fields := [("pot_index", .int potIndex), ("run", .int run), ("amount", .int amount),
      ("winners", .arr (winners.map fun i => .int i)),
      ("payouts", .obj (payouts.map fun paid => (toString paid.1.val, .int paid.2)))]
    match hand with
    | none => return ("pot", "award", who ++ " wins " ++ toString amount ++ " (everyone else folded)",
        fields ++ [("uncontested", .bool true)])
    | some score =>
      let label ← handName score
      let name := if potIndex = 0 then "Main pot" else "Side pot " ++ toString potIndex
      return ("pot", "award", name ++ " " ++ toString amount ++ " -> " ++ who ++ " (" ++ label ++ ")",
        fields ++ [("hand", .str label)])

def Event.view (event : Event n) : Except PyError EventView := do
  let (kind, name, text, payload) ← event.body.words names event.handNum event.street
  return ⟨event.seq, kind, name, text, event.handNum, event.street.word, payload⟩

def eventViews (events : List (Event n)) : Except PyError (List EventView) := events.mapM (Event.view names)

end Log

inductive TurnPhase where
  | lobby | betting | settled
  deriving DecidableEq

structure Decision where
  actionLabel : String
  toCall : ℤ
  canCheck : Bool
  canRaise : Bool
  potNow : ℤ
  potAfterCall : ℤ
  potOdds : ℚ
  potOddsPct : ℚ
  stackAfterCall : ℤ
  effectiveStack : ℤ
  minRaiseTo : ℤ
  maxRaiseTo : ℤ
  callIsAllIn : Bool

structure TurnView where
  state : String
  headline : String
  street : String
  streetLabel : String
  actor : ℤ
  actorName : String
  pot : ℤ
  yourStack : ℤ
  yourBet : ℤ
  effectiveStack : ℤ
  decision : Option Decision

def seatOr {n : ℕ} (seat : Option (Fin n)) : ℤ := match seat with
  | some i => i
  | none => -1

namespace Engine

variable (names : Fin n → String)

/-- `effective_stack`: what is at stake between the seat and its best-stacked opponent. -/
def effectiveStack (e : Engine n) (seat : Fin n) : ℤ :=
  let own := (e.players seat).stack + (e.players seat).bet
  let opponents := e.contested.filter (· ≠ seat)
  min own (((opponents.map fun i => (e.players i).stack + (e.players i).bet).max?).getD own)

def turnState (e : Engine n) (seat : Fin n) (phase : TurnPhase) (winners : List (Fin n)) : String × String :=
  let player := e.players seat
  match phase with
  | .settled => ("hand_complete",
      if seat ∈ winners then "You won " ++ toString player.won
      else if player.folded then "You folded | hand complete" else "Hand complete")
  | .lobby => ("lobby", "Waiting for players")
  | .betting =>
    if player.folded then ("folded_waiting", "You folded | hand in progress")
    else if player.allIn then ("all_in_waiting", "All-in | waiting for the runout")
    else match e.actor with
      | some i =>
        if i = seat then ("your_turn", "Your turn | " ++ e.street.label) else ("waiting", "Waiting for " ++ names i)
      | none => ("resolving", "Resolving " ++ e.street.label)

def decision (e : Engine n) (seat : Fin n) : Decision :=
  let legal := e.legal seat
  let after := legal.pot + legal.toCall
  let odds : ℚ := if legal.toCall ≠ 0 ∧ after ≠ 0 then legal.toCall / after else 0
  let tenths := odds * 1000
  { actionLabel := if legal.canCheck then "Check" else "Call " ++ toString legal.toCall
    toCall := legal.toCall
    canCheck := legal.canCheck
    canRaise := legal.canRaise
    potNow := legal.pot
    potAfterCall := after
    potOdds := odds
    potOddsPct := (if Int.fract tenths = 1 / 2 ∧ Even ⌊tenths⌋ then ⌊tenths⌋ else round tenths : ℤ) / 10
    stackAfterCall := (e.players seat).stack - legal.toCall
    effectiveStack := e.effectiveStack seat
    minRaiseTo := legal.minTo
    maxRaiseTo := legal.maxTo
    callIsAllIn := decide (0 < legal.toCall ∧ (e.players seat).stack ≤ legal.toCall) }

/-- `turn_view`, for a table that neither ends a match nor voids a hand. -/
def turnView (e : Engine n) (seat : Fin n) (phase : TurnPhase) (winners : List (Fin n)) : TurnView :=
  let (state, headline) := e.turnState names seat phase winners
  let decides := phase = .betting ∧ e.actor = some seat
  let call := if (e.legal seat).canCheck then " | check available" else " | " ++ toString (e.legal seat).toCall ++ " to call"
  { state
    headline := if decides then headline ++ call else headline
    street := e.street.word
    streetLabel := e.street.label
    actor := seatOr e.actor
    actorName := (e.actor.map names).getD ""
    pot := e.pot
    yourStack := (e.players seat).stack
    yourBet := (e.players seat).bet
    effectiveStack := e.effectiveStack seat
    decision := if decides then some (e.decision seat) else none }

end Engine

structure SeatView where
  seat : ℕ
  playerId : String
  name : String
  stack : ℤ
  bet : ℤ
  folded : Bool
  allIn : Bool
  inSeat : Bool
  sittingOut : Bool
  lastAction : String
  pos : Option String
  isYou : Bool

structure YouView where
  hole : Option (List String)
  madeHand : Option MadeHand
  legal : Option Legal

structure ShownHand where
  seat : ℕ
  playerId : String
  hole : List String

structure TableView (n : ℕ) where
  tableId : String
  playerId : String
  seat : ℕ
  phase : TablePhase
  handNum : ℕ
  street : String
  board : List String
  pot : ℤ
  button : ℕ
  sbSeat : Option ℕ
  bbSeat : Option ℕ
  actionOn : ℤ
  seats : List SeatView
  you : YouView
  turn : TurnView
  events : List (String × EventView)
  showdown : List ShownHand
  result : Option (HandResult n)

namespace Engine

def posBadge (e : Engine n) (i : Fin n) : Option String :=
  if i = e.button then some "BTN"
  else if e.sbSeat = some i then some "SB"
  else if e.bbSeat = some i then some "BB"
  else none

def seatView (names playerIds : Fin n → String) (e : Engine n) (you i : Fin n) : SeatView :=
  let p := e.players i
  { seat := i, playerId := playerIds i, name := names i, stack := p.stack, bet := p.bet, folded := p.folded
    allIn := p.allIn, inSeat := p.inSeat, sittingOut := p.sittingOut, lastAction := p.lastAction.word
    pos := e.posBadge i, isYou := decide (i = you) }

/-- The `you` part of `build_snapshot`: the one place where hole cards are read. -/
def youView (e : Engine n) (seat : Fin n) : Except PyError YouView := do
  let hole := (e.players seat).hole
  let madeHand ← if hole = [] then pure none else madeHandView hole e.board
  return { hole := if hole = [] then none else some (hole.map cardStr)
           madeHand
           legal := if e.actor = some seat then some (e.legal seat) else none }

end Engine

namespace PokerTable

def showSeat (t : PokerTable n) (i : Fin n) : ShownHand :=
  ⟨i, t.playerIds i, (t.engine.players i).hole.map cardStr⟩

def eventId (t : PokerTable n) (event : EventView) : String :=
  t.tableId ++ "/hand/" ++ toString t.engine.handNo ++ "/event/" ++ toString event.seq

def turnPhase (t : PokerTable n) : TurnPhase :=
  if t.phase = .betting then .betting else if t.handResult.isSome then .settled else .lobby

def winners (t : PokerTable n) : List (Fin n) :=
  match t.handResult with
  | none => []
  | some result => result.winnerIds.filterMap fun key => t.seatOf (.str key)

/-- The turn as `view` shows it: between hands nobody is to act, and a closed table says so. -/
def shownTurn (names : Fin n → String) (t : PokerTable n) (seat : Fin n) : TurnView :=
  let turn := t.engine.turnView names seat t.turnPhase t.winners
  let turn := if t.turnPhase = .betting then turn else { turn with actor := -1, actorName := "" }
  if t.phase = .closed then { turn with state := "table_closed", headline := "Table closed" } else turn

def view (names : Fin n → String) (t : PokerTable n) (playerId : Scalar) : Except PyError (TableView n) :=
  match t.seatOf playerId with
  | none => .error (.valueError "Player is not seated at this table")
  | some seat => do
    let e := t.engine
    let you ← e.youView seat
    let events ← eventViews names e.publicEvents
    let betting := t.turnPhase = .betting
    return {
      tableId := t.tableId
      playerId := t.playerIds seat
      seat := seat
      phase := t.phase
      handNum := e.handNo
      street := e.street.word
      board := e.board.map cardStr
      pot := e.pot
      button := e.button
      sbSeat := e.sbSeat.map Fin.val
      bbSeat := e.bbSeat.map Fin.val
      actionOn := if betting then seatOr e.actor else -1
      seats := (List.finRange n).map (e.seatView names t.playerIds seat)
      you := if betting then you else { you with legal := none }
      turn := t.shownTurn names seat
      events := events.map fun event => (t.eventId event, event)
      showdown := t.shown.map t.showSeat
      result := t.handResult }

end PokerTable

end Holdem
