import Holdem.Engine.State

/-!
Legality and actions: `Engine.legal`, `Engine.act` and `Engine.next_street`.
-/

namespace Holdem

/-- The action word a caller passes; `act` knows three. -/
inductive Action where
  | fold | call | raise
  | other (word : String)
  deriving DecidableEq, Repr

/-- The amount a caller passes, as far as `act` can tell: a whole number, a value `int()` makes one of,
or a value `int()` raises on. -/
inductive Amount where
  | whole (value : ℤ)
  | coercible (value : ℤ)
  | unconvertible
  deriving DecidableEq, Repr

def Amount.int : Amount → Except PyError ℤ
  | .whole value | .coercible value => .ok value
  | .unconvertible => .error .typeError

structure Legal where
  toCall : ℤ
  canCheck : Bool
  canRaise : Bool
  minTo : ℤ
  maxTo : ℤ
  pot : ℤ
  yourBet : ℤ
  deriving DecidableEq, Repr

namespace Engine

variable {n : ℕ}

def minTarget (e : Engine n) (p : Player) : ℤ :=
  if e.currentBet = 0 then min (p.bet + e.bb) (p.bet + p.stack)
  else min (e.currentBet + e.minRaise) (p.bet + p.stack)

def fixedTarget (e : Engine n) (p : Player) : ℤ :=
  let unit := if e.street = .preflop ∨ e.street = .flop then e.bb else 2 * e.bb
  min (e.currentBet + unit) (p.bet + p.stack)

/-- The raise range `(min_to, max_to)` the structure allows, before the final clamp. -/
def raiseRange (e : Engine n) (p : Player) : ℤ × ℤ :=
  match e.bettingStructure with
  | .noLimit => (e.minTarget p, p.bet + p.stack)
  | .fixedLimit => (e.fixedTarget p, e.fixedTarget p)
  | .potLimit =>
    let plMax := e.currentBet + (e.pot + max 0 (e.currentBet - p.bet))
    (e.minTarget p, min (p.bet + p.stack) (max plMax (e.minTarget p)))

def toCall (e : Engine n) (p : Player) : ℤ := min (max 0 (e.currentBet - p.bet)) p.stack

def legal (e : Engine n) (i : Fin n) : Legal :=
  let p := e.players i
  let range := e.raiseRange p
  let capped := e.bettingStructure = .fixedLimit ∧ 4 ≤ e.raisesThisStreet
  { toCall := e.toCall p
    canCheck := decide (e.toCall p = 0)
    canRaise := decide (e.toCall p < p.stack ∧ i ∉ e.noRaise ∧ ¬capped ∧ e.currentBet < range.2)
    minTo := min range.1 range.2
    maxTo := range.2
    pot := e.pot
    yourBet := p.bet }

def fold (e : Engine n) (i : Fin n) : Engine n :=
  let e := e.update i fun p => { p with folded := true, lastAction := .fold }
  e.emit (.fold i (e.players i).bet e.pot)

def callChips (amt : ℤ) (p : Player) : Player :=
  (p.commit amt).did (if (p.commit amt).allIn then .allIn (p.commit amt).bet else .call amt)

def call (e : Engine n) (i : Fin n) : Engine n :=
  let amt := e.toCall (e.players i)
  if amt = 0 then
    let e := e.update i fun p => p.did .check
    e.emit (.check i (e.players i).bet e.pot)
  else
    let e := e.update i (callChips amt)
    e.emit (.call i amt (e.players i).bet (e.players i).allIn e.pot)

/-- A full raise: every seat that can act has to respond, and all may raise again. -/
def reopen (e : Engine n) (raiseSize : ℤ) : Engine n :=
  { e with minRaise := raiseSize, noRaise := ∅, needToAct := (e.seatsWhere Player.canAct).toFinset }

/-- The seats an all-in for less than a full raise leaves behind the bet. -/
def behind (e : Engine n) (i : Fin n) : Finset (Fin n) :=
  Finset.univ.filter fun q =>
    (e.players q).canAct = true ∧ q ≠ i ∧ (e.players q).bet < e.currentBet

/-- Has the bet grown by a full raise since this seat acted? Absent if it has not acted. -/
def regrown (e : Engine n) (q : Fin n) : Option Bool :=
  (e.actedAt q).map fun acted => decide (e.minRaise ≤ e.currentBet - acted)

/-- An all-in for less than a full raise: the seats behind must respond, and those that have acted
may raise again only if the bet has grown by a full raise since (TDA 47-A). -/
def shortRaise (e : Engine n) (i : Fin n) : Engine n :=
  { e with
    noRaise := (e.noRaise.filter fun q => ¬(q ∈ e.behind i ∧ e.regrown q = some true)) ∪
      (e.behind i).filter fun q => e.regrown q = some false
    needToAct := e.needToAct ∪ e.behind i }

def raiseBet (e : Engine n) (i : Fin n) : Engine n :=
  { e with
    currentBet := (e.players i).bet
    raisesThisStreet := e.raisesThisStreet + 1
    riverAggr := if e.street = .river then some i else e.riverAggr }

def raiseChips (opening : Bool) (add : ℤ) (p : Player) : Player :=
  (p.commit add).did (if (p.commit add).allIn then .allIn (p.commit add).bet
    else if opening then .bet add else .raise (p.commit add).bet)

/-- The raise branch of `act` once the target is known to add chips. -/
def raiseTo (e : Engine n) (i : Fin n) (add : ℤ) : Engine n :=
  let opening := decide (e.currentBet = 0)
  let raised := e.update i (raiseChips opening add)
  let raiseSize := (raised.players i).bet - e.currentBet
  let full := decide (e.minRaise ≤ raiseSize)
  let e :=
    if e.currentBet < (raised.players i).bet then
      if full then (raised.raiseBet i).reopen raiseSize else (raised.raiseBet i).shortRaise i
    else raised
  e.emit (.raise i opening add (e.players i).bet (e.players i).allIn full e.pot)

/-- The raise branch of `act`: the amount is kept inside the legal range, and a target that adds no
chips is a call. -/
def raise (e : Engine n) (i : Fin n) (amount : ℤ) : Engine n :=
  let lg := e.legal i
  let target := max (min amount lg.maxTo) lg.minTo
  let add := target - (e.players i).bet
  if add ≤ 0 then e.call i else e.raiseTo i add

/-- The end of `act`: the seat has acted, at this level, and the action moves on. -/
def actDone (e : Engine n) (i : Fin n) : Engine n :=
  let e := { e with
    actedAt := Function.update e.actedAt i (some (e.players i).bet)
    needToAct := e.needToAct.erase i }
  { e with actor := e.seek (Circle.step i 1) }

def checkAmount (e : Engine n) (lg : Legal) (amount : Amount) : Except PyError Unit :=
  if e.bettingStructure = .fixedLimit then .ok ()
  else match amount with
    | .whole value =>
      if lg.minTo ≤ value ∧ value ≤ lg.maxTo then .ok ()
      else .error (.illegalAction (.outsideRange value lg.minTo lg.maxTo))
    | _ => .error (.illegalAction .notWhole)

/-- `act` once the seat is known to be the actor and able to act. -/
def perform (e : Engine n) (i : Fin n) (action : Action) (amount : Amount) : Except PyError (Engine n) := do
  let lg := e.legal i
  match action with
  | .fold => return (e.fold i).actDone i
  | .call => return (e.call i).actDone i
  | .raise =>
    if ¬lg.canRaise then throw (.illegalAction (.mayNotRaise i))
    e.checkAmount lg amount
    let value ← amount.int
    return (e.raise i value).actDone i
  | .other word => throw (.illegalAction (.unknownAction word))

/-- `Engine.act`. Every refusal comes before the first change. -/
def act (i : ℤ) (action : Action) (amount : Amount) : EngineM n Unit := fun e =>
  let refuse why := EStateM.Result.error (PyError.illegalAction why) e
  match action with
  | .other word => refuse (.unknownAction word)
  | _ =>
    if range : 0 ≤ i ∧ i < n then
      let seat : Fin n := ⟨i.toNat, seat_lt range⟩
      if e.actor ≠ some seat then refuse (.outOfTurn i (e.actor.map Fin.val))
      else if ¬(e.players seat).canAct then refuse (.cannotAct i)
      else match e.perform seat action amount with
        | .ok e' => .ok () e'
        | .error x => .error x e
    else refuse (.noSuchSeat i)

def clearBets (e : Engine n) : Engine n :=
  { e with
    players := fun i =>
      let p := { e.players i with bet := 0 }
      if !p.folded && !p.allIn then { p with lastAction := .none } else p
    currentBet := 0, minRaise := e.bb, raisesThisStreet := 0 }

/-- The end of `next_street` for every street but the river: announce the board, open the round. -/
def openStreet (e : Engine n) : Engine n :=
  (e.emit (.dealBoard none e.board)).openRound (Circle.step e.button 1)

/-- `self.board += self.deck.deal(k)`, and the round on the street that follows. -/
def dealStreet (k : ℕ) (street : Street) : EngineM n Unit := do
  let cards ← deal k
  modify fun e => openStreet { e with board := e.board ++ cards, street }

/-- `Engine.next_street`. A street that is none of the four betting streets just opens a round. -/
def nextStreet : EngineM n Unit := fun e =>
  let e := e.clearBets
  match e.street with
  | .preflop => dealStreet 3 .flop e
  | .flop => dealStreet 1 .turn e
  | .turn => dealStreet 1 .river e
  | .river => .ok () { e with street := .showdown }
  | .idle | .showdown => .ok () e.openStreet

end Engine

end Holdem
