import Holdem.Engine.Start
import Holdem.Engine.Settle

/-!
`ReplicaTable`: one peer's copy of the table for a single hand. Its engine deals a dummy deck, and the
real cards come in from outside.
-/

namespace Holdem

inductive Phase where
  | betting | streetOver | showdown | handOver | settled
  deriving DecidableEq, Repr

def Phase.word : Phase → String
  | .betting => "betting"
  | .streetOver => "street_over"
  | .showdown => "showdown"
  | .handOver => "hand_over"
  | .settled => "settled"

inductive Verdict where
  | applied | buffered | stale | rejected | overflow
  deriving DecidableEq, Repr

structure Entry where
  seat : ℤ
  action : Action
  amount : ℤ
  deriving DecidableEq, Repr

/-- `MAX_PENDING`: the forward window for out-of-order actions, and the buffer's capacity. -/
def maxPending : ℕ := 64

structure Replica (n : ℕ) where
  engine : Engine n
  handNo : ℕ
  startTotal : ℤ
  nextSeq : ℤ := 0
  phase : Phase := .betting
  pending : List (ℤ × Entry) := []
  result : Option (SettleResult n) := none
  realHoles : Finset ℤ := ∅

abbrev ReplicaM (n : ℕ) := EStateM PyError (Replica n)

def dummyDeck : List Card := fullDeck.reverse

namespace Replica

variable {n : ℕ}

/-- `ReplicaTable.__init__`; `last` is the last seat, where a new engine puts the button. -/
def init (handNo : ℕ) (last : Fin n) (chips : Fin n → ℤ) (sb bb : ℤ) (bettingStructure : BettingStructure) :
    Replica n :=
  { engine := Engine.init chips last sb bb bettingStructure false false
    handNo, startTotal := ∑ i, chips i }

def withEngine (r : Replica n) (engine : Engine n) : Replica n := { r with engine }

def onEngine {α : Type} (m : EngineM n α) : ReplicaM n α := Method.within Replica.engine withEngine m

def phaseOf (e : Engine n) : Phase :=
  if e.contested.length ≤ 1 then .handOver
  else if e.needToAct ≠ ∅ then .betting
  else if e.street = .river ∨ e.street = .showdown then .showdown
  else .streetOver

def recomputePhase (r : Replica n) : Replica n :=
  { r with phase := if r.phase = .settled then .settled else phaseOf r.engine }

/-- The positions `start_hand` seeds the engine with; a blind that is not given is left as it is. -/
def seedPositions (button : Fin n) (bbSeat sbSeat : Option (Fin n)) (r : Replica n) : Replica n :=
  { r with engine := { r.engine with
      button
      bbSeat := bbSeat.or r.engine.bbSeat
      sbSeat := sbSeat.or r.engine.sbSeat } }

/-- `start_hand` with the dummy deck it deals from. -/
def startHandFrom (deck : List Card) (button : Fin n) (bbSeat sbSeat : Option (Fin n)) : ReplicaM n Bool := do
  modify (seedPositions button bbSeat sbSeat)
  let ok ← onEngine (Engine.startHand none deck)
  modify recomputePhase
  return ok

def startHand (button : Fin n) (bbSeat sbSeat : Option (Fin n)) : ReplicaM n Bool :=
  startHandFrom dummyDeck button bbSeat sbSeat

/-- `positions`: the dead-button chain state that seeds the next hand. -/
def positions (r : Replica n) : Option (Fin n) × Option (Fin n) × Fin n :=
  (r.engine.bbSeat, r.engine.sbSeat, r.engine.button)

def stackOf (r : Replica n) (i : Fin n) : ℤ := (r.engine.players i).stack

def seatsDealt (r : Replica n) : List (Fin n) := r.engine.seated

/-- `players[seat]`: a negative index counts from the end. -/
def seatAt (n : ℕ) (seat : ℤ) : Option (Fin n) :=
  if range : 0 ≤ seat ∧ seat < n then some ⟨seat.toNat, Engine.seat_lt range⟩
  else if range : -n ≤ seat ∧ seat < 0 then some ⟨(seat + n).toNat, by omega⟩
  else none

def twoCards : List (Option Card) → Option (List Card)
  | [some a, some b] => some [a, b]
  | _ => none

def putHole (seat : ℤ) (cards : List Card) : ReplicaM n Unit := fun r =>
  match seatAt n seat with
  | none => .error .indexError r
  | some i => .ok () { r with
      engine := r.engine.update i fun p => { p with hole := cards }
      realHoles := insert seat r.realHoles }

def setOwnHole (seat : ℤ) (cards : List (Option Card)) : ReplicaM n Unit :=
  match twoCards cards with
  | none => throw (.valueError "need two recovered cards")
  | some cards => putHole seat cards

/-- The engine is the authority on legality; its refusal is a verdict. -/
def submit (seat : ℤ) (action : Action) (amount : ℤ) : ReplicaM n Verdict := fun r =>
  match Engine.act seat action (.whole amount) r.engine with
  | .ok _ engine => .ok .applied (r.withEngine engine).recomputePhase
  | .error (.illegalAction _) engine => .ok .rejected (r.withEngine engine)
  | .error x engine => .error x (r.withEngine engine)

def applyNow (entry : Entry) : ReplicaM n Verdict := fun r =>
  if r.phase ≠ .betting then .ok .rejected r
  else match r.engine.actor with
    | none => .ok .rejected r
    | some actor =>
      if entry.seat ≠ actor.val then .ok .rejected r
      else match entry.action with
        | .other _ => .ok .rejected r
        | action =>
          if action = .raise ∧ ¬(r.engine.legal actor).canRaise then .ok .rejected r
          else submit entry.seat action entry.amount r

def unqueue (r : Replica n) (seq : ℤ) : Replica n :=
  { r with pending := r.pending.filter fun waiting => waiting.1 ≠ seq }

def countOn (r : Replica n) : Replica n := { r with nextSeq := r.nextSeq + 1 }

/-- `_drain_pending`: an invalid buffered message stops it and is gone. Each pass takes one message
out, so the number of messages bounds the passes. -/
def drainFor : ℕ → ReplicaM n Unit
  | 0 => pure ()
  | fuel + 1 => fun r =>
    match r.pending.lookup r.nextSeq with
    | none => .ok () r
    | some entry => (do
        if (← applyNow entry) = .applied then
          modify countOn
          drainFor fuel : ReplicaM n Unit) (r.unqueue r.nextSeq)

def drainPending : ReplicaM n Unit := fun r => drainFor r.pending.length r

def enqueue (r : Replica n) (seq : ℤ) (entry : Entry) : Replica n :=
  { r with pending := r.pending ++ [(seq, entry)] }

/-- A message ahead of its turn is buffered, unless it is too far ahead or contradicts one that is. -/
def buffer (seq : ℤ) (entry : Entry) : ReplicaM n Verdict := fun r =>
  match r.pending.lookup seq with
  | some waiting => .ok (if waiting = entry then .buffered else .rejected) r
  | none =>
    if maxPending < seq - r.nextSeq ∨ maxPending ≤ r.pending.length then .ok .overflow r
    else .ok .buffered (r.enqueue seq entry)

def applyAction (seq : ℤ) (entry : Entry) : ReplicaM n Verdict := fun r =>
  if seq < r.nextSeq then .ok .stale r
  else if r.nextSeq < seq then buffer seq entry r
  else (do
    let verdict ← applyNow entry
    if verdict = .applied then
      modify countOn
      drainPending
    return verdict : ReplicaM n Verdict) r

def cardsDue : Street → Option ℕ
  | .preflop => some 3
  | .flop | .turn => some 1
  | _ => none

def preload (cards : List Card) (r : Replica n) : Replica n :=
  { r with engine := { r.engine with deck := r.engine.deck ++ cards } }

/-- `advance_street`: the revealed cards go on the dummy deck's tail, and are dealt from there. -/
def advanceStreet (cards : List (Option Card)) : ReplicaM n Unit := fun r =>
  if r.phase ≠ .streetOver then .error (.runtimeError ("cannot advance street in phase " ++ r.phase.word)) r
  else match cardsDue r.engine.street with
    | none => .error (.runtimeError ("no street to deal from " ++ r.engine.street.word)) r
    | some need =>
      if cards.length ≠ need ∨ none ∈ cards then
        .error (.valueError ("need " ++ toString need ++ " recovered cards")) r
      else (do
        modify (preload cards.reduceOption)
        onEngine Engine.nextStreet
        modify recomputePhase : ReplicaM n Unit) r

def dealtTwice (seat : ℤ) (c : Card) : PyError :=
  .valueError ("seat " ++ toString seat ++ ": card " ++ c.rank ++ c.suit ++ " is dealt twice")

def checkCards (seat : ℤ) : List Card → List Card → Except PyError (List Card)
  | seen, [] => .ok seen
  | seen, c :: rest => if c ∈ seen then .error (dealtTwice seat c) else checkCards seat (c :: seen) rest

/-- The checks of `set_all_holes`, which come before any change. -/
def checkHoles (n : ℕ) : List Card → List (ℤ × List (Option Card)) → Except PyError Unit
  | _, [] => .ok ()
  | seen, (seat, cards) :: rest =>
    if ¬(0 ≤ seat ∧ seat < n) then .error (.valueError ("seat " ++ toString seat ++ ": no such seat"))
    else match twoCards cards with
      | none => .error (.valueError ("seat " ++ toString seat ++ ": need two cards"))
      | some two => do checkHoles n (← checkCards seat seen two) rest

/-- `set_all_holes`. The checks leave two cards for every seat named, so that all of them are put. -/
def setAllHoles (holes : List (ℤ × List (Option Card))) : ReplicaM n Unit := fun r =>
  match checkHoles n r.engine.board holes with
  | .error x => .error x r
  | .ok _ => (holes.forM fun (seat, cards) => putHole seat cards.reduceOption) r

def unverified (r : Replica n) : List (Fin n) :=
  r.engine.contested.filter fun i => (i.val : ℤ) ∉ r.realHoles

def recordResult (r : Replica n) (result : SettleResult n) : Replica n :=
  { r with result := some result, phase := .settled }

/-- The end of `finish`: the stacks must hold the chips the hand was dealt with. -/
def conclude (result : SettleResult n) : ReplicaM n (SettleResult n) := fun r =>
  let total := ∑ i, r.stackOf i
  if total ≠ r.startTotal then .error (.chipConservation total r.startTotal) r
  else .ok result (r.recordResult result)

/-- `finish`. What `settle` returns is already canonical here: seats are in order, and sets are
finite sets. -/
def finish (forceTabled : Bool) : ReplicaM n (SettleResult n) := fun r =>
  if r.phase ≠ .showdown ∧ r.phase ≠ .handOver then
    .error (.runtimeError ("cannot settle in phase " ++ r.phase.word)) r
  else if 1 < r.engine.contested.length ∧ r.engine.board.length < 5 then
    .error (.runtimeError "board incomplete: reveal remaining streets via the mental deal before settling") r
  else if 1 < r.engine.contested.length ∧ r.unverified ≠ [] then
    .error (.unverifiedHoles (r.unverified.map Fin.val)) r
  else (do
    let raw ← onEngine (Engine.settle 1 forceTabled)
    conclude raw : ReplicaM n (SettleResult n)) r

/-- What `state_digest` hashes of a player. -/
structure PlayerDigest where
  stack : ℤ
  bet : ℤ
  totalLive : ℤ
  totalDead : ℤ
  folded : Bool
  allIn : Bool
  inSeat : Bool
  deriving DecidableEq

/-- What `state_digest` hashes: all betting-relevant state, hole cards excluded. -/
structure Digest (n : ℕ) where
  hand : ℕ
  seq : ℤ
  phase : Phase
  street : Street
  actor : Option (Fin n)
  button : Fin n
  sbSeat : Option (Fin n)
  bbSeat : Option (Fin n)
  currentBet : ℤ
  minRaise : ℤ
  raises : ℕ
  need : Finset (Fin n)
  noRaise : Finset (Fin n)
  board : List Card
  players : Fin n → PlayerDigest
  result : Option (SettleResult n)
  deriving DecidableEq

def digestParts (r : Replica n) : Digest n :=
  let e := r.engine
  { hand := r.handNo, seq := r.nextSeq, phase := r.phase, street := e.street, actor := e.actor
    button := e.button, sbSeat := e.sbSeat, bbSeat := e.bbSeat, currentBet := e.currentBet
    minRaise := e.minRaise, raises := e.raisesThisStreet, need := e.needToAct, noRaise := e.noRaise
    board := e.board
    players := fun i =>
      let p := e.players i
      ⟨p.stack, p.bet, p.totalLive, p.totalDead, p.folded, p.allIn, p.inSeat⟩
    result := r.result }

def stateDigest {H : Type} (hash : Digest n → H) (r : Replica n) : H := hash r.digestParts

def duel : Replica 2 := init 1 1 (fun _ => 100) 1 2 .noLimit

end Replica

end Holdem
