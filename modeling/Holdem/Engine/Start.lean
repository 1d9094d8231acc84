import Holdem.Engine.State

/-!
Hand setup: the dead-button positions, the posts and the deal of `Engine.start_hand`.
-/

namespace Holdem.Engine

variable {n : ℕ}

def blindEligible (e : Engine n) (p : Player) : Bool :=
  decide (0 < p.stack) && !(p.sittingOut && !e.dealSittingOut)

def dealt (e : Engine n) (p : Player) : Bool :=
  e.blindEligible p && !(p.waitForBb && !p.postEntry)

/-- The first-hand branch of `_advance_positions`: with nobody dealt in, the search for the button
comes back empty and the next one raises. -/
def firstPositions : EngineM n Unit := fun e =>
  match e.next e.button e.dealt with
  | none => .error .typeError e
  | some button =>
    if (e.seatsWhere e.dealt).length = 2 then
      .ok () { e with button, sbSeat := some button, bbSeat := e.next button e.dealt }
    else
      let sbSeat := e.next button e.dealt
      .ok () { e with button, sbSeat, bbSeat := sbSeat.bind fun s => e.next s e.dealt }

/-- Seats passed over by the big blind owe it if they have chips but sit out. -/
def owing (e : Engine n) (skipped : List (Fin n)) : Engine n :=
  { e with players := fun i =>
      if i ∈ skipped ∧ 0 < (e.players i).stack ∧ (e.players i).sittingOut then
        { e.players i with owesBb := true }
      else e.players i }

/-- The seats a scan forward from the old big blind passes before it finds an eligible one. -/
def passedOver (e : Engine n) (prevBb : Fin n) : List (Fin n) :=
  (Circle.lap (Circle.step prevBb 1)).takeWhile fun j => !e.blindEligible (e.players j)

def moveBigBlind (e : Engine n) (prevBb bb : Fin n) : Engine n :=
  { (e.owing (e.passedOver prevBb)).update bb fun p =>
      { p with waitForBb := false, owesBb := false, owesSb := false } with bbSeat := some bb }

/-- A small blind that lands on a seat with chips that sits out is dead, and owed. -/
def deadSmallBlind (e : Engine n) (i : Fin n) : Engine n :=
  if 0 < (e.players i).stack ∧ (e.players i).sittingOut ∧ ¬e.dealSittingOut then
    e.update i fun p => { p with owesSb := true }
  else e

/-- The small blind and button trail the big blind, except that a heads-up hand puts both on the
other seat. -/
def trailPositions (e : Engine n) (prevBb bb : Fin n) (prevSb : Option (Fin n)) : Engine n :=
  match e.seatsWhere e.dealt with
  | [a, b] =>
    let other := if a ≠ bb then a else b
    { e with sbSeat := some other, button := other }
  | _ =>
    -- chain: BB -> SB -> BTN
    deadSmallBlind { e with sbSeat := some prevBb, button := prevSb.getD e.button } prevBb

/-- The later-hand branch of `_advance_positions`. -/
def movePositions (prevBb : Fin n) : EngineM n Unit := fun e =>
  match e.next prevBb e.blindEligible with
  | none => .error .typeError { e.owing (e.passedOver prevBb) with bbSeat := none }
  | some bb => .ok () ((e.moveBigBlind prevBb bb).trailPositions prevBb bb e.sbSeat)

def advancePositions : EngineM n Unit := fun e =>
  match e.bbSeat with
  | none => firstPositions e
  | some prevBb => movePositions prevBb e

def resetPlayer (p : Player) (inSeat : Bool) : Player :=
  { p with
    inSeat, hole := [], folded := !inSeat, allIn := false, bet := 0, totalLive := 0
    totalDead := 0, lastAction := .none, won := 0 }

def resetSeats (e : Engine n) : Engine n :=
  { e with players := fun i => resetPlayer (e.players i) (e.dealt (e.players i)) }

/-- The table state a hand starts from, and the first event of the hand. -/
def newHand (e : Engine n) (deck : List Card) : Engine n :=
  { e with
    deck, board := [], board2 := none, street := .preflop, currentBet := 0, minRaise := e.bb
    raisesThisStreet := 0, riverAggr := none, straddler := none, publicEvents := []
    handNo := e.handNo + 1 : Engine n }.emit
      (.handStarted e.sb e.bb (if e.bbAnte then e.bb else 0))

def postSmallBlind (e : Engine n) (sbSeat : Fin n) : Engine n :=
  if (e.players sbSeat).inSeat then { e.post sbSeat e.sb .sb with sbI := some sbSeat }
  else { e with sbI := none }.emit .deadSmallBlind

/-- The big blind and, where it is played, the big blind ante after it. -/
def postBigBlind (e : Engine n) (bbSeat : Fin n) : Engine n :=
  let e := { e with bbI := some bbSeat }.post bbSeat e.bb .bb
  if e.bbAnte then e.postDead bbSeat e.bb .ante else e

def entryPost (e : Engine n) (sbSeat bbSeat i : Fin n) : Engine n :=
  if (e.players i).postEntry ∧ i ≠ sbSeat ∧ i ≠ bbSeat then
    let owes := (e.players i).owesSb
    let e := e.post i e.bb .post
    if owes then e.postDead i e.sb .deadSb else e
  else e

def enter (sbSeat bbSeat : Fin n) (e : Engine n) (i : Fin n) : Engine n :=
  (e.entryPost sbSeat bbSeat i).update i fun p =>
    { p with postEntry := false, owesBb := false, owesSb := false, waitForBb := false }

/-- The bring-in is the full big blind even when the big blind is all-in for less. -/
def bringIn (e : Engine n) : Engine n :=
  { e with currentBet := (List.finRange n).foldl (fun m i => max m (e.players i).bet) e.bb }

/-- The straddle post: twice the big blind, live, and the bet to call from then on. -/
def postStraddle (e : Engine n) (utg : Fin n) : Engine n :=
  let e := { e.post utg (2 * e.bb) .str with straddler := some utg }
  let u := e.players utg
  let e := { e with currentBet := max e.currentBet u.bet, minRaise := max e.minRaise (2 * e.bb) }
  e.emit (.straddle utg u.bet u.allIn e.pot)

/-- The seat that straddles, if the game allows it and the seat wants to. -/
def straddlerSeat (e : Engine n) (bbSeat : Fin n) (straddleFn : Option (Fin n → Bool)) : Option (Fin n) := do
  let wants ← straddleFn
  let utg ← e.next bbSeat Player.inSeat
  if 3 ≤ e.seated.length ∧ e.bettingStructure ≠ .fixedLimit ∧ 0 < (e.players utg).stack ∧
      ¬(e.players utg).allIn ∧ wants utg then
    return utg
  else none

def straddle (e : Engine n) (bbSeat : Fin n) (straddleFn : Option (Fin n → Bool)) : Engine n :=
  match e.straddlerSeat bbSeat straddleFn with
  | some utg => e.postStraddle utg
  | none => e

def dealOrder (e : Engine n) : List (Fin n) :=
  (Circle.lap (Circle.step e.button 1)).filter fun j => (e.players j).inSeat

def dealTo (i : Fin n) : EngineM n Unit := do
  let cards ← deal 1
  modify fun e => e.update i fun p => { p with hole := p.hole ++ cards }

def dealHoles : EngineM n Unit := do
  let order := (← get).dealOrder
  order.forM dealTo
  order.forM dealTo

/-- Heads-up the button acts first, otherwise the seat after the straddle or the big blind. -/
def firstToAct (e : Engine n) (bbSeat : Fin n) : Option (Fin n) :=
  match e.straddler with
  | some utg => e.next utg Player.inSeat
  | none => if e.seated.length = 2 then some e.button else e.next bbSeat Player.inSeat

def openPreflop (bbSeat : Fin n) : EngineM n Unit := fun e =>
  match e.firstToAct bbSeat with
  | some seat => .ok () (e.openRound seat)
  | none => .error .typeError e

def postForced (e : Engine n) (sbSeat bbSeat : Fin n) : Engine n :=
  e.seated.foldl (enter sbSeat bbSeat) ((e.postSmallBlind sbSeat).postBigBlind bbSeat)

def postAll (e : Engine n) (sbSeat bbSeat : Fin n) (straddleFn : Option (Fin n → Bool)) : Engine n :=
  (e.postForced sbSeat bbSeat).bringIn.straddle bbSeat straddleFn

def playHand (straddleFn : Option (Fin n → Bool)) (deck : List Card) : EngineM n Unit := fun e =>
  match e.sbSeat, e.bbSeat with
  | some sbSeat, some bbSeat =>
    (do dealHoles; openPreflop bbSeat) ((e.newHand deck).postAll sbSeat bbSeat straddleFn)
  | some sbSeat, none => .error .typeError { (e.newHand deck).postSmallBlind sbSeat with bbI := none }
  | none, _ => .error .typeError { e.newHand deck with sbI := none }

/-- `Engine.start_hand`; the deck is the given one, or any shuffle where the source makes its own. -/
def startHand (straddleFn : Option (Fin n → Bool)) (deck : List Card) : EngineM n Bool := do
  advancePositions
  modify resetSeats
  if (← get).seated.length < 2 then
    return false
  playHand straddleFn deck
  return true

end Holdem.Engine
