import Mathlib.Algebra.BigOperators.Fin
import Mathlib.Data.Fintype.Basic
import Holdem.Lib.Method
import Holdem.Lib.Circle
import Holdem.Cards

/-!
The state of `Engine` and the helpers its methods share. A seat is an element of `Fin n`, chip counts
are integers.
-/

namespace Holdem

variable {n : ℕ}

inductive Street where
  | idle | preflop | flop | turn | river | showdown
  deriving DecidableEq, Repr

def Street.word : Street → String
  | .idle => "idle"
  | .preflop => "preflop"
  | .flop => "flop"
  | .turn => "turn"
  | .river => "river"
  | .showdown => "showdown"

inductive BettingStructure where
  | noLimit | potLimit | fixedLimit
  deriving DecidableEq, Repr

inductive Blind where
  | sb | bb | ante | post | deadSb | str
  deriving DecidableEq, Repr

inductive LastAction where
  | none
  | posted (label : Blind) (amount : ℤ)
  | fold | check
  | call (amount : ℤ)
  | allIn (bet : ℤ)
  | bet (amount : ℤ)
  | raise (target : ℤ)
  deriving DecidableEq, Repr

structure Player where
  stack : ℤ
  hole : List Card := []
  folded : Bool := false
  allIn : Bool := false
  inSeat : Bool := true
  bet : ℤ := 0
  totalLive : ℤ := 0
  totalDead : ℤ := 0
  lastAction : LastAction := .none
  won : ℤ := 0
  sittingOut : Bool := false
  owesBb : Bool := false
  owesSb : Bool := false
  waitForBb : Bool := false
  postEntry : Bool := false
  deriving DecidableEq

def Player.total (p : Player) : ℤ := p.totalLive + p.totalDead

/-- What `emit` logs, by call site. -/
inductive EventBody (n : ℕ) where
  | handStarted (smallBlind bigBlind ante : ℤ)
  | deadSmallBlind
  | postBlind (seat : Fin n) (blind : Blind) (amount : ℤ) (allIn dead : Bool) (potAfter : ℤ)
  | straddle (seat : Fin n) (amount : ℤ) (allIn : Bool) (potAfter : ℤ)
  | fold (seat : Fin n) (target potAfter : ℤ)
  | check (seat : Fin n) (target potAfter : ℤ)
  | call (seat : Fin n) (amount target : ℤ) (allIn : Bool) (potAfter : ℤ)
  | raise (seat : Fin n) (opening : Bool) (amount target : ℤ) (allIn fullRaise : Bool) (potAfter : ℤ)
  | dealBoard (run : Option ℕ) (board : List Card)
  | refund (seat : Fin n) (amount potAfter : ℤ)
  | shows (seat : Fin n) (score : Score) (best : List Card)
  | mucks (seat : Fin n)
  | award (potIndex run : ℕ) (amount : ℤ) (winners : List (Fin n)) (payouts : List (Fin n × ℤ))
      (hand : Option Score)
  deriving DecidableEq

structure Event (n : ℕ) where
  seq : ℕ
  handNum : ℕ
  street : Street
  body : EventBody n
  deriving DecidableEq

structure Engine (n : ℕ) where
  players : Fin n → Player
  sb : ℤ
  bb : ℤ
  bettingStructure : BettingStructure
  bbAnte : Bool
  dealSittingOut : Bool
  button : Fin n
  bbSeat : Option (Fin n) := none
  sbSeat : Option (Fin n) := none
  sbI : Option (Fin n) := none
  bbI : Option (Fin n) := none
  /-- The undealt cards; empty before the first hand, where the source has no deck. -/
  deck : List Card := []
  board : List Card := []
  board2 : Option (List Card) := none
  street : Street := .idle
  currentBet : ℤ := 0
  minRaise : ℤ
  needToAct : Finset (Fin n) := ∅
  actor : Option (Fin n) := none
  handNo : ℕ := 0
  raisesThisStreet : ℕ := 0
  noRaise : Finset (Fin n) := ∅
  actedAt : Fin n → Option ℤ := fun _ => none
  riverAggr : Option (Fin n) := none
  straddler : Option (Fin n) := none
  publicEvents : List (Event n) := []

/-- A method of the engine: what it changed before raising stays changed. -/
abbrev EngineM (n : ℕ) := EStateM PyError (Engine n)

namespace Engine

/-- `Engine.__init__` with one player per seat; the button starts at the last seat. -/
def init (chips : Fin n → ℤ) (button : Fin n) (sb bb : ℤ) (bettingStructure : BettingStructure)
    (bbAnte dealSittingOut : Bool) : Engine n :=
  { players := fun i => { stack := chips i }, sb, bb, bettingStructure, bbAnte, dealSittingOut,
    button, minRaise := bb }

def pot (e : Engine n) : ℤ := ∑ i, (e.players i).total

def seatsWhere (e : Engine n) (p : Player → Bool) : List (Fin n) :=
  (List.finRange n).filter fun i => p (e.players i)

def seated (e : Engine n) : List (Fin n) := e.seatsWhere Player.inSeat

def contested (e : Engine n) : List (Fin n) := e.seatsWhere fun p => p.inSeat && !p.folded

end Engine

def Player.canAct (p : Player) : Bool := p.inSeat && !p.folded && !p.allIn && decide (0 < p.stack)

namespace Engine

def bettingLocked (e : Engine n) : Bool :=
  decide (1 < e.contested.length) &&
    decide ((e.contested.filter fun i => !(e.players i).allIn && decide (0 < (e.players i).stack)).length ≤ 1) &&
    e.actor.isNone

/-- `_next`: the first seat after `i` whose player satisfies the predicate. -/
def next (e : Engine n) (i : Fin n) (pred : Player → Bool) : Option (Fin n) :=
  Circle.first (Circle.step i 1) fun j => pred (e.players j)

/-- `_seek`: the first seat from `start` on that still needs to act. -/
def seek (e : Engine n) (start : Fin n) : Option (Fin n) :=
  Circle.first start fun j => decide (j ∈ e.needToAct)

def emit (e : Engine n) (body : EventBody n) : Engine n :=
  { e with publicEvents := e.publicEvents ++
      [{ seq := e.publicEvents.length + 1, handNum := e.handNo, street := e.street, body }] }

def update (e : Engine n) (i : Fin n) (f : Player → Player) : Engine n :=
  { e with players := Function.update e.players i (f (e.players i)) }

def addChips (i : Fin n) (amount : ℤ) : EngineM n Bool := fun e =>
  if e.street ≠ .idle ∨ amount ≤ 0 then .ok false e
  else .ok true (e.update i fun p => { p with stack := p.stack + amount })

def sitOut (e : Engine n) (i : Fin n) : Engine n :=
  e.update i fun p => { p with sittingOut := true }

def sitIn (e : Engine n) (i : Fin n) (postNow : Bool) : Engine n :=
  e.update i fun p =>
    { p with
      sittingOut := false
      postEntry := p.postEntry || ((p.owesBb || p.owesSb) && postNow)
      waitForBb := p.waitForBb || ((p.owesBb || p.owesSb) && !postNow) }

end Engine

/-- `_commit`: move live chips from the stack to the bet, all of them at most. -/
def Player.commit (p : Player) (amt : ℤ) : Player :=
  let amt := max 0 (min amt p.stack)
  { p with
    stack := p.stack - amt
    bet := p.bet + amt
    totalLive := p.totalLive + amt
    allIn := p.allIn || decide (p.stack - amt = 0) }

def Player.commitDead (p : Player) (amt : ℤ) : Player :=
  { p with
    stack := p.stack - amt
    totalDead := p.totalDead + amt
    allIn := p.allIn || decide (p.stack - amt = 0) }

def Player.did (p : Player) (action : LastAction) : Player := { p with lastAction := action }

-- named, so that a definition over a fixed number of seats has no generated proof in it
instance lawful_seats {n : ℕ} : LawfulBEq (Fin n) := inferInstance

instance two_seats : NeZero 2 := inferInstance

instance three_seats : NeZero 3 := inferInstance

instance four_seats : NeZero 4 := inferInstance

namespace Engine

theorem seat_lt {i : ℤ} (range : 0 ≤ i ∧ i < n) : i.toNat < n := by omega

/-- `_post`: a blind or another live post, capped by the stack. -/
def post (e : Engine n) (i : Fin n) (amount : ℤ) (label : Blind) : Engine n :=
  let amt := min amount (e.players i).stack
  let e := e.update i fun p => (p.commit amt).did (.posted label amt)
  e.emit (.postBlind i label amt (e.players i).allIn false e.pot)

/-- `_post_dead`: an ante or a dead blind, which buys no stake in the live betting. -/
def postDead (e : Engine n) (i : Fin n) (amount : ℤ) (label : Blind) : Engine n :=
  let amt := min amount (e.players i).stack
  let e := e.update i fun p => p.commitDead amt
  e.emit (.postBlind i label amt (e.players i).allIn true e.pot)

/-- `_open_round`: start a betting round, `first` being the seat the action is sought from. -/
def openRound (e : Engine n) (first : Fin n) : Engine n :=
  let e := { e with noRaise := ∅, actedAt := fun _ => none }
  let actors := e.seatsWhere Player.canAct
  if actors.length < 2 ∧ ∀ i ∈ actors, (e.players i).bet = e.currentBet then
    { e with needToAct := ∅, actor := none }
  else
    let e := { e with needToAct := actors.toFinset }
    { e with actor := e.seek first }

def deal (k : ℕ) : EngineM n (List Card) := fun e =>
  match Deck.deal e.deck k with
  | .ok (out, rest) => .ok out { e with deck := rest }
  | .error x => .error x e

end Engine

end Holdem
