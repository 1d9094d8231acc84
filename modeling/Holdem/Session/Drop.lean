import Holdem.Engine.Forfeit
import Holdem.Room.Ingress
import Holdem.Session.Peer

/-!
A seat that drops. Every game that is still playing settles its own copy of the table from where its
hand stands, and says so in its notice.
-/

namespace Holdem

/-- A session and what the rules for a drop read of its deal. -/
structure Game (n : ℕ) (H : Type) extends Session n H where
  /-- `prevention`: the table runs Bayer-Groth. -/
  prevention : Bool
  /-- `deal.is_shuffle_complete()`, for a hand that has a deal. -/
  shuffled : Bool := false
  rounds : ℕ := 0
  proofsVerified : ℕ := 0
  dropStacks : Option (Fin n → ℤ) := none
  dropStage : Option Room.DropStage := none
  dropCompared : List ℤ := []

def unsettledText (hand : ℕ) : PyError → Option String
  | .chipConservation total startTotal =>
    some ("chip conservation failed: hand " ++ toString hand ++ " settled to " ++ toString total ++
      " chips but was dealt with " ++ toString startTotal)
  | .unverifiedHoles seats =>
    some ("cannot settle hand " ++ toString hand ++ ": contested seat(s) " ++ toString seats ++
      " have no audit-verified hole cards")
  | _ => none

namespace Game

variable {n : ℕ} {H : Type} [DecidableEq H]

def onSession (f : Session n H → Session n H) (g : Game n H) : Game n H := { g with toSession := f g.toSession }

def live (g : Game n H) : Bool := g.handResult.isNone && !g.handVoided

def dropNotice (lost : Fin n) (g : Game n H) : DropNotice :=
  let settled := g.replica.isSome && g.handResult.isSome
  { hand := g.handNo
    lostSeat := lost.val
    dealt := g.replica.isSome && !g.handVoided && (settled || g.shuffled)
    settled
    actions := g.replica.elim 0 Replica.nextSeq }

def playing (lost : Fin n) (r : Replica n) (g : Game n H) : List (Fin n) :=
  (if g.handResult.isNone then r.seatsDealt else activeSeats r.stackOf).filter fun seat => seat ≠ lost

def earlyMark (disputed : String) (g : Game n H) : String :=
  match (List.finRange n).filter fun seat => g.earlySettled seat ≠ [] with
  | first :: _ =>
    if disputed = "" then
      "; disputed: seat " ++ toString first.val ++ " had settled hand " ++ toString g.handNo ++ ", this game had not"
    else disputed
  | [] => disputed

/-- The end of `_settle_drop`, for a hand that was dealt and is settled on its proofs. -/
def forfeitHand (lost : Fin n) (r : Replica n) (disputed : String) (g : Game n H) :
    Except PyError (String × Game n H) :=
  let hand := toString g.handNo
  let e := r.engine
  if e.contested = [lost] then
    match r.finish false with
    | .ok result r' =>
      .ok ("; everyone else had folded hand " ++ hand ++ ", so it is paid the pot" ++ disputed,
        { g with replica := some r', handResult := some result })
    | .error x r' =>
      match unsettledText g.handNo x with
      | some text => .ok ("; hand " ++ hand ++ " was not settled: " ++ text ++ disputed, { g with replica := some r' })
      | none => .error x
  else
    match settleForfeit (fun i => (e.players i).stack) (fun i => (e.players i).totalLive)
      (fun i => (e.players i).totalDead) e.contested lost e.button with
    | .ok out =>
      .ok ("; it forfeits hand " ++ hand ++ disputed,
        { g with dropStacks := some out.chips }.onSession (Session.endHand .forfeit false))
    | .error x => .error x

/-- The part of `_settle_drop` for a hand that is being played. -/
def stopHand (lost : Fin n) (r : Replica n) (disputed : String) (cancel : Bool) (g : Game n H) :
    Except PyError (String × Game n H) :=
  let hand := toString g.handNo
  let disputed := g.earlyMark disputed
  let g := { g with earlySettled := fun _ => [] }
  if cancel then
    .ok ("; hand " ++ hand ++ " was cancelled before the deal and its blinds go back" ++ disputed,
      g.onSession (Session.endHand .voidPeerLost false))
  else if ¬g.prevention then
    .ok ("; hand " ++ hand ++ " was not settled: this table runs no Bayer-Groth shuffle proofs" ++ disputed, g)
  else if g.proofsVerified ≠ g.rounds then
    .ok ("; hand " ++ hand ++ " was not settled: this game verified " ++ toString g.proofsVerified ++ " of its " ++
      toString g.rounds ++ " shuffle proofs" ++ disputed, g)
  else g.forfeitHand lost r disputed

/-- Remember where the hand stood at the drop, and whose notice was compared with it. -/
def noteStage (lost : Fin n) (r : Replica n) (sender : Option ℤ) (g : Game n H) : Game n H :=
  { g with
    dropStage := some ⟨g.dropNotice lost, g.live, (g.playing lost r).map fun seat => (seat.val : ℤ)⟩
    dropCompared := sender.toList ++ g.dropCompared }

/-- `_settle_drop`: what happened, for the terminal reason, and the game after it. -/
def settleDrop (lost : Fin n) (notice : Message) (sender : Option ℤ) (g : Game n H) :
    Except PyError (String × Game n H) :=
  match g.replica with
  | none => .ok ("", g)
  | some r =>
    if g.eliminated then .ok ("", g)
    else
      let own := g.dropNotice lost
      let (disputed, undealt) := own.dropDispute g.live notice sender
      let noted := g.noteStage lost r sender
      if ¬g.live then .ok (disputed, noted)
      else noted.stopHand lost r disputed (!own.dealt || undealt)

/-- `last_settled_stacks`, for a table that ends when a seat drops. -/
def lastSettledStacks (g : Game n H) : Option (Fin n → ℤ) :=
  g.dropStacks.or <| g.finalStacks.or <| (g.settledAt.map Prod.snd).or <| g.handCarry.map Carry.chips

def seatInPlay (seat : Fin n) (g : Game n H) : Bool :=
  match g.replica with
  | none => true
  | some r =>
    if g.handResult.isSome then
      decide (seat ∈ g.endedSeats ∧ seat ∉ g.endedAgreed) ||
        decide (2 ≤ (g.active r.stackOf).length ∧ seat ∈ g.active r.stackOf)
    else decide (seat ∈ r.seatsDealt ∧ seat ∉ g.departed)

/-- `_on_peer_lost` for the report of a busted host: a game that needs the seat says where its hand stands
and ends. What it broadcasts, its terminal reason, and the game after it. -/
def onReport (lost : Fin n) (host : ℤ) (label : String) (g : Game n H) :
    Except PyError (Option (DropNotice × String × Game n H)) :=
  if g.eliminated || !g.seatInPlay lost then .ok none
  else
    let notice := g.dropNotice lost
    match g.settleDrop lost notice.message (some host) with
    | .ok (outcome, g') =>
      .ok (some (notice, label ++ " disconnected (reported by seat " ++ toString host ++ ")" ++ outcome, g'))
    | .error x => .error x

end Game

end Holdem
