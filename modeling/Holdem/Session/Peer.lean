import Mathlib.Data.List.Dedup
import Holdem.Replica.Continuity

/-!
`Session`, as far as it carries a table from hand to hand: one peer's current hand, and the reports by
which the seats agree on how a hand ended.
-/

namespace Holdem

/-- A `hand_settled` report as it is compared: the stacks are there if they are a chip count per seat. -/
structure Report (n : ℕ) (H : Type) where
  digest : H
  chips : Option (Fin n → ℤ)
  deriving DecidableEq

inductive PeerMessage (n : ℕ) (H : Type) where
  | handSettled (hand : ℕ) (digest : H) (chips : Option (Fin n → ℤ))
  | handVoid (hand : Option ℕ)
  | sessionEnd (hand : ℕ) (winner : Option (Fin n)) (chips : Fin n → ℤ)
  | betAction (hand : ℕ) (seq : ℤ) (action : Action) (amount : ℤ) (digest : Option H)
  deriving DecidableEq

/-- How `_end_hand` records the end of a hand. -/
inductive HandOutcome where
  | completed | voidProtocol | voidEquivocation | voidPeerLost | forfeit
  deriving DecidableEq

/-- How a session ended; the ways a connection can be lost are one. -/
inductive Ending where
  | endedNormal | abortedProtocol | lost
  deriving DecidableEq

/-- A hand that was begun, what it was begun from, and whether that is the payout of the hand before. -/
structure Begun (n : ℕ) where
  hand : ℕ
  carry : Carry n
  paid : Bool

/-- The hash of the state digest, and the resource limits of the buffer for the next hand's messages. -/
structure SessionEnv (n : ℕ) (H : Type) where
  hash : Replica.Digest n → H
  budget : List (Fin n × PeerMessage n H) → Fin n × PeerMessage n H → Bool

structure Session (n : ℕ) (H : Type) where
  localSeat : Fin n
  /-- `departed_seats`. -/
  departed : Finset (Fin n) := ∅
  terminal : Option Ending := none
  cfg : Option (TableCfg n) := none
  handNo : ℕ := 0
  replica : Option (Replica n) := none
  handRecord : Option HandOutcome := none
  handResult : Option (SettleResult n) := none
  handCarry : Option (Carry n) := none
  endedHand : Option ℕ := none
  endedDigest : Option H := none
  endedStacks : Option (Fin n → ℤ) := none
  endedSeats : Finset (Fin n) := ∅
  endedAgreed : Finset (Fin n) := ∅
  earlySettled : Fin n → List (Report n H) := fun _ => []
  spectator : Bool := false
  sessionOver : Bool := false
  sessionWinner : Option (Fin n) := none
  finalStacks : Option (Fin n → ℤ) := none
  endAnnounced : Bool := false
  followed : Option (ℕ × (Fin n → ℤ)) := none
  /-- `_follow_reports`, sorted by hand. -/
  followReports : List (ℕ × (Fin n → List (Option (Report n H)))) := []
  endClaims : Fin n → Option (ℕ × (Fin n → ℤ)) := fun _ => none
  msgBuffer : List (Fin n × PeerMessage n H) := []
  /-- Everything broadcast so far. -/
  sent : List (PeerMessage n H) := []
  begun : List (Begun n) := []

def activeSeats {n : ℕ} (chips : Fin n → ℤ) : List (Fin n) := (List.finRange n).filter fun i => 0 < chips i

def remaining {n : ℕ} (departed : Finset (Fin n)) (chips : Fin n → ℤ) : List (Fin n) :=
  (activeSeats chips).filter fun i => i ∉ departed

def keepTwo {α : Type} [DecidableEq α] (report : α) (kept : List α) : List α :=
  if report ∉ kept ∧ kept.length < 2 then kept ++ [report] else kept

namespace Session

variable {n : ℕ} {H : Type} [DecidableEq H]

def sendHostless (message : PeerMessage n H) (s : Session n H) : Session n H := { s with sent := s.sent ++ [message] }

/-- `terminate`: the first cause wins, and nothing queued survives. -/
def terminate (ending : Ending) (s : Session n H) : Session n H :=
  if s.terminal.isSome then s else { s with terminal := some ending, msgBuffer := [] }

/-- `_active_seats`. -/
def active (chips : Fin n → ℤ) (s : Session n H) : List (Fin n) := remaining s.departed chips

def handVoided (s : Session n H) : Bool := s.handRecord.any fun outcome => outcome ≠ .completed

def eliminated (s : Session n H) : Bool :=
  s.spectator || match s.replica, s.handResult with
    | some r, some _ => decide (r.stackOf s.localSeat = 0) && decide (2 ≤ (s.active r.stackOf).length)
    | _, _ => false

def settledAt (s : Session n H) : Option (ℕ × (Fin n → ℤ)) :=
  match s.replica, s.handResult with
  | some r, some _ => some (s.handNo, r.stackOf)
  | _, _ => none

def soleWinner (chips : Fin n → ℤ) (s : Session n H) : Option (Fin n) :=
  match s.active chips with
  | [winner] => some winner
  | _ => none

def finishSession (chips : Fin n → ℤ) (announce : Bool) (s : Session n H) : Session n H :=
  if s.sessionOver then s
  else
    let shut := { s with
      sessionOver := true
      sessionWinner := s.soleWinner chips
      finalStacks := some chips
      spectator := decide (s.localSeat ∉ s.active chips) }
    let told := if announce ∧ ¬s.endAnnounced then
        { shut with endAnnounced := true }.sendHostless (.sessionEnd s.handNo (s.soleWinner chips) chips)
      else shut
    told.terminate .endedNormal

def settledReport (digest : H) (chips : Option (Fin n → ℤ)) : Report n H :=
  ⟨digest, chips.filter fun counts => ∀ i, 0 ≤ counts i⟩

/-- `_ended_report`: none for a void. -/
def endedReport (s : Session n H) : Option (Report n H) := s.endedDigest.map fun digest => ⟨digest, s.endedStacks⟩

/-- `_settlement_disagrees`: two seats ended the same hand differently, and the table ends. -/
def settlementDisagrees (s : Session n H) : Session n H := s.terminate .abortedProtocol

/-- The end of `_hand_ended`: every seat that reported early must have reported just this end. -/
def holdEarly (early : Fin n → List (Report n H)) : List (Fin n) → Session n H → Session n H
  | [], s => s
  | seat :: rest, s =>
    if early seat = [] then holdEarly early rest s
    else if (early seat).map some ≠ [s.endedReport] then s.settlementDisagrees
    else holdEarly early rest { s with endedAgreed := insert seat s.endedAgreed }

def recordEnd (digest : Option H) (s : Session n H) : Session n H :=
  { s with
    endedHand := some s.handNo
    endedDigest := digest
    endedStacks := digest.bind fun _ => s.replica.map Replica.stackOf
    endedSeats := s.replica.elim ∅ fun r => r.seatsDealt.toFinset
    endedAgreed := if digest.isSome then {s.localSeat} else ∅
    earlySettled := fun _ => [] }

def handEnded (digest : Option H) (s : Session n H) : Session n H :=
  holdEarly s.earlySettled (List.finRange n) (s.recordEnd digest)

def endHand (outcome : HandOutcome) (announce : Bool) (s : Session n H) : Session n H :=
  if s.terminal.isSome then s
  else if s.handRecord.isSome ∨ s.handResult.isSome then s
  else
    let ended := { s with handRecord := some outcome }
    if outcome = .completed then ended
    else (if announce then ended.sendHostless (.handVoid (some s.handNo)) else ended).handEnded none

def voidHand (announce : Bool) (s : Session n H) : Session n H := s.endHand .voidProtocol announce

/-- What a busted seat has followed the table to, and how it knows. -/
structure Following (n : ℕ) (H : Type) where
  last : ℕ
  known : Fin n → ℤ
  agreed : Option (ℕ × H × (Fin n → ℤ) × Finset (Fin n)) := none

/-- The stacks a busted seat may move on to: the same chips, and none for a seat that had none. -/
def credible (known settled : Fin n → ℤ) : Bool :=
  decide (∑ i, settled i = ∑ i, known i) && decide (∀ i, known i = 0 → settled i = 0)

/-- One hand of the loop of `_follow_settled`; none if its reports differ. -/
def followHand (departed : Finset (Fin n)) (hand : ℕ) (reports : Fin n → List (Option (Report n H)))
    (f : Following n H) : Option (Following n H) :=
  let playing := remaining departed f.known
  let got := (playing.flatMap reports).dedup
  let complete := playing.all fun seat => reports seat ≠ []
  if 1 < got.length ∧ (complete ∨ hand = f.last + 1) then none
  else if ¬complete then some f
  else match got with
    | [some ⟨digest, some settled⟩] =>
      if credible f.known settled then
        some { last := hand, known := settled, agreed := some (hand, digest, settled, playing.toFinset) }
      else some f
    | _ => some f

/-- The loop of `_follow_settled`. -/
def followAll (departed : Finset (Fin n)) :
    List (ℕ × (Fin n → List (Option (Report n H)))) → Following n H → Option (Following n H)
  | [], f => some f
  | (hand, reports) :: rest, f =>
    if (remaining departed f.known).length < 2 then some f
    else (followHand departed hand reports f).bind (followAll departed rest)

def noteReport (hand : ℕ) (seat : Fin n) (report : Option (Report n H)) :
    List (ℕ × (Fin n → List (Option (Report n H)))) → List (ℕ × (Fin n → List (Option (Report n H))))
  | [] => [(hand, Function.update (fun _ => []) seat [report])]
  | (h, kept) :: rest =>
    if hand = h then (h, Function.update kept seat (keepTwo report (kept seat))) :: rest
    else if hand < h then (hand, Function.update (fun _ => []) seat [report]) :: (h, kept) :: rest
    else (h, kept) :: noteReport hand seat report rest

def finishFollowed (s : Session n H) : Session n H :=
  match s.followed.or s.settledAt with
  | none => s
  | some reached =>
    if s.endedAgreed = s.endedSeats ∧ ∃ seat, s.endClaims seat = some reached then
      s.finishSession reached.2 false
    else s

def followAhead : ℕ := 64

/-- The end of `_follow_settled`, where the reports lead on. -/
def followTo (f : Following n H) (s : Session n H) : Session n H :=
  match f.agreed with
  | none => s
  | some (hand, digest, chips, seats) =>
    finishFollowed { s with
      followed := some (f.last, f.known)
      endedHand := some hand
      endedDigest := some digest
      endedStacks := some chips
      endedSeats := seats
      endedAgreed := seats
      followReports := s.followReports.filter fun kept => f.last < kept.1 }

/-- `_follow_settled`; a void is no report. -/
def followSettled (seat : Fin n) (hand : ℕ) (report : Option (Report n H)) (s : Session n H) : Session n H :=
  match s.followed.or s.settledAt with
  | none => s
  | some (last, chips) =>
    let s := { s with followed := some (last, chips) }
    if (s.active chips).length < 2 ∨ seat ∉ s.active chips ∨ ¬(last < hand ∧ hand ≤ last + followAhead) then s
    else
      let s := { s with followReports := noteReport hand seat report s.followReports }
      match followAll s.departed s.followReports { last, known := chips } with
      | none => s.terminate .abortedProtocol
      | some f => s.followTo f

/-- `_hand_msg_ok`, for a message that ingress has not put off. -/
def handMsgOk (hand : ℕ) (s : Session n H) : Bool := !s.spectator && decide (hand = s.handNo)

def onHandSettled (seat : Fin n) (hand : ℕ) (digest : H) (chips : Option (Fin n → ℤ)) (s : Session n H) :
    Session n H :=
  if s.terminal.isSome then s
  else
    let report := settledReport digest chips
    if s.endedHand = some hand then
      if seat ∉ s.endedSeats then s
      else if some report ≠ s.endedReport then s.settlementDisagrees
      else if seat ∉ s.endedAgreed then finishFollowed { s with endedAgreed := insert seat s.endedAgreed }
      else s
    else if s.eliminated then s.followSettled seat hand (some report)
    else if ¬s.handMsgOk hand then s
    else if s.replica.any fun r => seat ∈ r.seatsDealt then
      { s with earlySettled := Function.update s.earlySettled seat (keepTwo report (s.earlySettled seat)) }
    else s

def onHandVoid (seat : Fin n) (hand : Option ℕ) (s : Session n H) : Session n H :=
  let hand := hand.getD s.handNo
  if s.endedDigest.isSome ∧ s.endedHand = some hand then
    if seat ∈ s.endedSeats then s.settlementDisagrees else s
  else if s.eliminated then s.followSettled seat hand none
  else if ¬s.handMsgOk hand then s
  else if s.replica.any fun r => seat ∉ r.seatsDealt then s
  else s.voidHand false

def onSessionEnd (seat : Fin n) (hand : ℕ) (winner : Option (Fin n)) (chips : Fin n → ℤ) (s : Session n H) :
    Session n H :=
  if s.terminal.isSome then s
  else if hand < s.handNo then s
  else if ¬(s.eliminated ∧ hand ≠ s.handNo) ∧ s.settledAt ≠ some (hand, chips) then s
  else if ∃ i, chips i < 0 then s
  else if s.cfg.any fun cfg => ∑ i, chips i ≠ ∑ i, cfg.chips i then s
  else if 1 < (s.active chips).length ∨ winner ≠ s.soleWinner chips then s
  else finishFollowed { s with endClaims := Function.update s.endClaims seat (some (hand, chips)) }

variable (env : SessionEnv n H)

def onBetAction (seat : Fin n) (hand : ℕ) (seq : ℤ) (action : Action) (amount : ℤ) (digest : Option H)
    (s : Session n H) : Session n H :=
  match s.replica with
  | none => s
  | some r =>
    if ¬s.handMsgOk hand ∨ s.handVoided ∨ seq < 0 ∨ amount < 0 then s
    else match r.applyAction seq ⟨seat.val, action, amount⟩ with
      | .ok .applied r' =>
        let s := { s with replica := some r' }
        if r'.nextSeq = seq + 1 ∧ digest.any (· ≠ r'.stateDigest env.hash) then s.voidHand true else s
      | result => { s with replica := some (Method.after result) }

/-- `_deliver_hand_message`, and the notice that the match is over. -/
def deliverHandMessage (seat : Fin n) : PeerMessage n H → Session n H → Session n H
  | .handSettled hand digest chips, s => s.onHandSettled seat hand digest chips
  | .handVoid hand, s => s.onHandVoid seat hand
  | .sessionEnd hand winner chips, s => s.onSessionEnd seat hand winner chips
  | .betAction hand seq action amount digest, s => s.onBetAction env seat hand seq action amount digest

def deferredHand : PeerMessage n H → Option ℕ
  | .handSettled hand _ _ | .betAction hand _ _ _ _ => some hand
  | .handVoid hand => hand
  | .sessionEnd _ _ _ => none

def futureHandAllowed (hand : ℕ) (s : Session n H) : Bool :=
  decide (s.handNo < hand) &&
    if s.handNo = 0 then (s.msgBuffer.head?.bind fun kept => deferredHand kept.2).all (· = hand)
    else decide (hand ≤ s.handNo + 1)

/-- `_queue_future_hostless`. -/
def queueFuture (item : Fin n × PeerMessage n H) (s : Session n H) : Session n H :=
  if (deferredHand item.2).any s.futureHandAllowed ∧ item ∉ s.msgBuffer ∧ env.budget s.msgBuffer item then
    { s with msgBuffer := s.msgBuffer ++ [item] }
  else s

def handleMessage (seat : Fin n) (message : PeerMessage n H) (s : Session n H) : Session n H :=
  if s.terminal.isSome then s
  else if ¬s.eliminated ∧ (deferredHand message).any (s.handNo < ·) then s.queueFuture env (seat, message)
  else s.deliverHandMessage env seat message

end Session

end Holdem
