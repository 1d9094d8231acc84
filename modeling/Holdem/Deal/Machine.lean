import Holdem.Lib.Method
import Holdem.Deal.Map
import Holdem.Deal.Audit

/-!
`MentalDeal`: one seat's part of a mental-poker hand, from the key ceremony to the audit. Messages are
dictionaries with any values; what is drawn at random is an argument.
-/

namespace Holdem

open Function (update)

namespace MentalDeal

inductive Phase where
  | keygen | shuffle | deal | audit | done | aborted
  deriving DecidableEq, Repr

inductive AbortReason where
  | unknownKeySeat (seat : Json)
  | malformedKey (seat : Json)
  | badPop (seat : Json)
  | conflictingKeys (seat : Json)
  | degenerateKey
  | malformedRound
  | outOfTurn (seat round : ℤ) (expected : Option ℕ)
  | unparseableDeck (seat : ℕ)
  | deckSize (seat size : ℕ)
  | trivialCipher (seat : ℕ)
  | noProof (seat round : ℕ)
  | undecodableProof (seat round : ℕ) (why : String)
  | invalidProof (seat round : ℕ)
  | malformedShare
  | unknownShareSeat (seat : ℤ)
  | undealtPosition (pos : ℤ)
  | badShare (seat pos : ℤ)
  | notACard (pos : ℕ)
  | malformedOpening
  | unknownOpeningSeat (seat : ℤ)
  | malformedWitness (seat : ℤ)
  | auditFailed (problems : List String)
  | tooManyHeld

/-- The public parameters of a hand and the seat this instance plays. Seats come sorted. -/
structure Config where
  sessionId : String
  handNo : ℕ
  seat : ℕ
  seatsIn : List ℕ
  button : ℕ
  prevention : Bool
  sorted : seatsIn.Pairwise (· < ·)
  seated : seat ∈ seatsIn

/-- What `shuffle_deck` draws: a permutation, and scalars that are not zero. -/
structure Coins (F : Type) [Zero F] where
  witness : ShuffleWitness F
  perm : witness.perm.Perm ((List.range 52).map Int.ofNat)
  scalars : witness.scalars.length = 52
  nonzero : ∀ r ∈ witness.scalars, r ≠ 0

/-- What a seat keeps to itself: its key share, which is drawn and so not zero, and what its provers
and its shuffles come up with. -/
structure Secrets (F G P S : Type) [Zero F] where
  share : F
  share_ne : share ≠ 0
  pop : P
  coins : ℕ → Coins F
  shuffleProof : G → Deck G → Deck G → ShuffleWitness F → List String → S
  dealProof : ℕ → G → P
  auditProof : ℕ → G → P

/-- The state of an instance. Dictionaries by seat or by position are functions, and the deck is empty
before the chain starts. -/
structure State (F G P : Type) where
  phase : Phase := .keygen
  xShare : Option F := none
  pubkeys : ℕ → Option G := fun _ => none
  jointPk : Option G := none
  deck : Deck G := []
  shuffleRound : ℕ := 0
  proofsVerified : ℕ := 0
  holePos : List (ℕ × List ℕ) := []
  boardPos : List ℕ := []
  shares : ℕ → ℕ → Option G := fun _ _ => none
  hole : List (Option (Fin 52)) := [none, none]
  board : List (Option (Fin 52)) := [none, none, none, none, none]
  revealed : List String := []
  roundDecks : List (Deck G) := []
  auditShares : ℕ → Option (List (DeckAudit.PositionShare G P)) := fun _ => none
  auditWitnesses : ℕ → Option (ShuffleWitness F) := fun _ => none
  myShuffles : List (ℕ × Deck G × ShuffleWitness F) := []
  auditReport : Option DeckAudit.AuditReport := none
  auditOpened : Bool := false
  abortReason : Option AbortReason := none
  badSeat : Option Json := none
  announced : Bool := false
  held : List Message := []

abbrev DealM (F G P : Type) := EStateM PyError (State F G P)

def maxHeld : ℕ := 1024

namespace Config

variable (c : Config)

def seatOf (value : Json) : Option ℕ := c.seatsIn.find? fun s => value.number = some (s : ℚ)

/-- `_expected_shuffler`: the seat that shuffles a round, counted from one. -/
def expectedShuffler (round : ℕ) : Option ℕ := if 1 ≤ round then c.seatsIn[round - 1]? else none

def popCtx (seat : String) : String :=
  "poker.dkg.v1|" ++ c.sessionId ++ "|" ++ toString c.handNo ++ "|" ++ seat

/-- `_bg_ctx`: its parts go in with their lengths. -/
def bgCtx (round seat : ℕ) : List String :=
  ["poker.mentaldeal.bg.v1", c.sessionId, toString c.handNo, toString round, toString seat,
    "poker.mentaldeal.bg.ck.v1"]

end Config

variable {F G P S : Type} [Field F] [DecidableEq F] [AddCommGroup G] [Module F G] [DecidableEq G]

section Messages

variable (C : Suite F G P S)

def cipherJson (ct : Ciphertext G) : Json := .arr [.str (C.pointHex ct.c0), .str (C.pointHex ct.c1)]

def keyAnnounce (seat : ℕ) (X : G) (pop : P) : Message :=
  [("type", .str "key_announce"), ("seat", .int seat), ("X_hex", .str (C.pointHex X)), ("pop_hex", .str (C.proofHex pop))]

def deckRound (round seat : ℕ) (deck : Deck G) (proof : Option S) : Message :=
  [("type", .str "deck_round"), ("round", .int round), ("seat", .int seat), ("deck", .arr (deck.map (cipherJson C)))] ++
    (proof.map fun s => ("proof", C.encodeShuffle s)).toList

def dealShare (pos seat : ℕ) (D : G) (proof : P) : Message :=
  [("type", .str "deal_share"), ("position", .int pos), ("seat_from", .int seat), ("D_hex", .str (C.pointHex D)),
    ("dleq_hex", .str (C.proofHex proof))]

def witnessJson : Option (ShuffleWitness F) → Json
  | none => .null
  | some w => .obj [("perm", .arr (w.perm.map .int)), ("scalars", .arr (w.scalars.map fun r => .str (C.scalarHex r)))]

def auditOpen (seat : ℕ) (shares : List (DeckAudit.PositionShare G P)) (w : Option (ShuffleWitness F)) : Message :=
  [("type", .str "audit_open"), ("seat", .int seat),
    ("shares", .arr (shares.map fun share => .arr [.str (C.pointHex share.1), .str (C.proofHex share.2)])),
    ("witness", witnessJson C w)]

/-- `parse(bytes.fromhex(value))`, for a parser that raises `why`. -/
def readHex {α : Type} (parse : String → Option α) (why : String) (value : Json) : Except PyError α := do
  match parse (← value.text) with
  | some x => .ok x
  | none => .error (.valueError why)

def readPoint : Json → Except PyError G :=
  readHex C.parsePoint "non-canonical or low-order Ristretto255 point"

def readProof : Json → Except PyError P :=
  readHex C.parseProof "non-hexadecimal number found in fromhex() arg"

def readScalar : Json → Except PyError F :=
  readHex C.parseScalar "non-canonical scalar (not reduced below the group order)"

def readCipher : Json → Except PyError (Ciphertext G)
  | .arr [.str c0, .str c1] => do return ⟨← readPoint C (.str c0), ← readPoint C (.str c1)⟩
  | _ => .error (.valueError "ciphertext must be a pair of hexadecimal strings")

def readKey (msg : Message) : Except PyError (G × P) := do
  let X ← readPoint C (← msg.field "X_hex")
  let pop ← readProof C (← msg.field "pop_hex")
  return (X, pop)

def readRound (msg : Message) : Except PyError ℤ := do (← msg.field "round").toInt C.parseInt

def readDeckRound (msg : Message) : Except PyError (ℤ × ℤ × Json) := do
  let round ← readRound C msg
  let seat ← (← msg.field "seat").toInt C.parseInt
  return (round, seat, ← msg.field "deck")

def readDeck (raw : Json) : Except PyError (Deck G) := do (← raw.items).mapM (readCipher C)

def readDealShare (msg : Message) : Except PyError (ℤ × ℤ × G × P) := do
  let pos ← (← msg.field "position").toInt C.parseInt
  let seat ← (← msg.field "seat_from").toInt C.parseInt
  let D ← readPoint C (← msg.field "D_hex")
  let proof ← readProof C (← msg.field "dleq_hex")
  return (pos, seat, D, proof)

def readPositionShare (pair : Json) : Except PyError (DeckAudit.PositionShare G P) := do
  return (← readPoint C (← pair.item 0), ← readProof C (← pair.item 1))

def readAuditOpen (msg : Message) : Except PyError (ℤ × List (DeckAudit.PositionShare G P)) := do
  let seat ← (← msg.field "seat").toInt C.parseInt
  let raw ← msg.field "shares"
  return (seat, ← (← raw.items).mapM (readPositionShare C))

def parseWitness : Json → Except PyError (Option (ShuffleWitness F))
  | .null => .ok none
  | .obj raw => do
    let perm ← Message.field raw "perm"
    if (← perm.len) ≠ 52 then throw (.valueError "witness must cover exactly 52 positions")
    let scalars ← Message.field raw "scalars"
    if (← scalars.len) ≠ 52 then throw (.valueError "witness must cover exactly 52 positions")
    let perm ← (← perm.items).mapM (Json.toInt C.parseInt)
    let scalars ← (← scalars.items).mapM (readScalar C)
    return some ⟨perm, scalars⟩
  | _ => .error (.valueError "witness must be an object")

end Messages

def State.abort (m : State F G P) (reason : AbortReason) (badSeat : Option Json) : State F G P :=
  { m with phase := .aborted, abortReason := some reason, badSeat }

def abort (reason : AbortReason) (badSeat : Option Json) : DealM F G P (List Message) := fun m =>
  .ok [] (m.abort reason badSeat)

variable (C : Suite F G P S) (c : Config) (K : Secrets F G P S)

def start : DealM F G P (List Message) := fun m =>
  if m.phase ≠ .keygen ∨ m.announced then .ok [] m
  else
    let m := { m with xShare := some K.share }
    match C.backend.mulBase K.share with
    | .error x => .error x m
    | .ok X =>
      .ok [keyAnnounce C c.seat X K.pop] { m with announced := true, pubkeys := update m.pubkeys c.seat (some X) }

def State.joint (m : State F G P) : G := m.jointPk.getD 0

def maybeEmitShuffle : DealM F G P (List Message) := fun m =>
  let round := m.shuffleRound + 1
  if c.expectedShuffler round ≠ some c.seat then .ok [] m
  else
    let w := (K.coins m.myShuffles.length).witness
    match C.shuffleDeck m.joint m.deck w with
    | .error x => .error x m
    | .ok deck =>
      let proof := if c.prevention then some (K.shuffleProof m.joint m.deck deck w (c.bgCtx round c.seat)) else none
      .ok [deckRound C round c.seat deck proof] { m with myShuffles := m.myShuffles ++ [(round, deck, w)] }

def finishKeygen : DealM F G P (List Message) := fun m =>
  let joint := (c.seatsIn.map fun s => (m.pubkeys s).getD 0).sum
  if joint = 0 then abort .degenerateKey none m
  else maybeEmitShuffle C c K
    { m with jointPk := some joint, phase := .shuffle, deck := C.trivialDeck, shuffleRound := 0 }

def onKeyAnnounce (msg : Message) : DealM F G P (List Message) := fun m =>
  if m.phase ≠ .keygen then .ok [] m
  else match msg.field "seat" with
  | .error x => .error x m
  | .ok seat =>
    match c.seatOf seat with
    | none => abort (.unknownKeySeat seat) (some seat) m
    | some i =>
      match readKey C msg with
      | .error x =>
        -- `except (ValueError, KeyError)`: a value of another type is not caught
        if x.isValueError ∨ x = .keyError then
          abort (.malformedKey seat) (some seat) m
        else .error x m
      | .ok (X, pop) =>
        if C.popVerify X pop (c.popCtx (C.text seat)) = false then
          abort (.badPop seat) (some seat) m
        else if (m.pubkeys i).any (· ≠ X) then
          abort (.conflictingKeys seat) (some seat) m
        else
          let m := { m with pubkeys := update m.pubkeys i (some X) }
          if c.seatsIn.all fun s => (m.pubkeys s).isSome then finishKeygen C c K m else .ok [] m

/-- `_prevention_failure`: why the proof of a round is not acceptable. -/
def preventionFailure (msg : Message) (deck : Deck G) (round seat : ℕ) (m : State F G P) : Option AbortReason :=
  match msg.get "proof" with
  | .null => some (.noProof seat round)
  | raw =>
    match C.decodeShuffle raw with
    | .error why => some (.undecodableProof seat round why)
    | .ok proof =>
      if C.shuffleVerify m.joint m.deck deck (c.bgCtx round seat) proof then none else some (.invalidProof seat round)

def cardAt (m : State F G P) (pos : ℕ) : Except PyError (Ciphertext G) :=
  match m.deck[pos]? with
  | some ct => .ok ct
  | none => .error .indexError

def State.decryptShare (m : State F G P) (ct : Ciphertext G) : Except PyError (F × G) :=
  match m.xShare with
  | some x => .ok (x, mulSafe x ct.c0)
  | none => .error .typeError

def State.record (m : State F G P) (pos seat : ℕ) (D : G) : State F G P :=
  { m with shares := update m.shares pos (update (m.shares pos) seat (some D)) }

def makeShareMsg (pos : ℕ) : DealM F G P Message := fun m =>
  match (do let ct ← cardAt m pos; return (ct, ← m.decryptShare ct) : Except PyError _) with
  | .error x => .error x m
  | .ok (ct, x, D) =>
    -- `dleq.prove` multiplies without the safe variant
    match C.backend.mul x ct.c0 with
    | .error e => .error e m
    | .ok _ => .ok (dealShare C pos c.seat D (K.dealProof pos ct.c0)) (m.record pos c.seat D)

def makeShareMsgs : List ℕ → DealM F G P (List Message)
  | [] => pure []
  | pos :: rest => do
    let msg ← makeShareMsg C c K pos
    let msgs ← makeShareMsgs rest
    return msg :: msgs

def State.holesOf (m : State F G P) (seat : ℕ) : List ℕ := (m.holePos.lookup seat).getD []

def recordOwn : List ℕ → DealM F G P Unit
  | [] => pure ()
  | pos :: rest => do
    let m ← get
    match (do m.decryptShare (← cardAt m pos) : Except PyError _) with
    | .error x => throw x
    | .ok (_, D) => set (m.record pos c.seat D)
    recordOwn rest

def enterDeal : DealM F G P (List Message) := do
  modify fun m => { m with
    phase := .deal
    holePos := DealMap.holePositions c.button c.seatsIn
    boardPos := DealMap.boardPositions c.button c.seatsIn }
  recordOwn c ((← get).holesOf c.seat)
  let others := (← get).holePos.filter fun entry => entry.1 ≠ c.seat
  makeShareMsgs C c K (others.flatMap Prod.snd)

def State.accept (m : State F G P) (round : ℕ) (deck : Deck G) : State F G P :=
  { m with deck, shuffleRound := round, roundDecks := m.roundDecks ++ [deck] }

/-- `_on_deck_round`, once the deck is accepted. -/
def followRound (round : ℕ) : DealM F G P (List Message) :=
  if round = c.seatsIn.length then enterDeal C c K else maybeEmitShuffle C c K

/-- `_on_deck_round`, for a message of the round that comes next, by the seat whose turn it is. -/
def judgeDeck (msg : Message) (raw : Json) (round seat : ℕ) : DealM F G P (List Message) := fun m =>
  match readDeck C raw with
  | .error x =>
    if x.isValueError ∨ x = .typeError then
      abort (.unparseableDeck seat) (some (.int seat)) m
    else .error x m
  | .ok deck =>
    if deck.length ≠ 52 then
      abort (.deckSize seat deck.length) (some (.int seat)) m
    else if deck.any fun ct => ct.c0 = 0 then
      abort (.trivialCipher seat) (some (.int seat)) m
    else if c.prevention then
      match preventionFailure C c msg deck round seat m with
      | some failure => abort failure (some (.int seat)) m
      | none => followRound C c K round ({ m with proofsVerified := m.proofsVerified + 1 }.accept round deck)
    else followRound C c K round (m.accept round deck)

def onDeckRound (msg : Message) : DealM F G P (List Message) := fun m =>
  if m.phase ≠ .shuffle then .ok [] m
  else match readDeckRound C msg with
  | .error x => if x.isMalformed then abort .malformedRound none m else .error x m
  | .ok (round, seat, raw) =>
    if round ≠ (m.shuffleRound + 1 : ℕ) then .ok [] m
    else match c.expectedShuffler (m.shuffleRound + 1) with
    | some expected =>
      if seat ≠ expected then abort (.outOfTurn seat round (some expected)) (some (.int seat)) m
      else judgeDeck C c K msg raw (m.shuffleRound + 1) expected m
    | none => abort (.outOfTurn seat round none) (some (.int seat)) m

def State.validPositions (m : State F G P) : List ℕ := m.boardPos ++ m.holePos.flatMap Prod.snd

def decryptCard (pos : ℕ) (shares : List G) : DealM F G P (Option (Fin 52)) := fun m =>
  match cardAt m pos with
  | .error x => .error x m
  | .ok ct =>
    match C.pointToCard (Suite.combine ct shares) with
    | some card => .ok (some card) m
    | none => .ok none (m.abort (.notACard pos) none)

def fill (pos slot : ℕ) (shares : List G) (read : State F G P → List (Option (Fin 52)))
    (write : State F G P → List (Option (Fin 52)) → State F G P) : DealM F G P Unit := do
  if (read (← get))[slot]? = some none then
    match ← decryptCard C pos shares with
    | some card => modify fun m => write m ((read m).set slot (some card))
    | none => pure ()

def tryComplete (pos : ℕ) : DealM F G P Unit := fun m =>
  if c.seatsIn.all (fun s => (m.shares pos s).isSome) = false then .ok () m
  else
    let shares := c.seatsIn.map fun s => (m.shares pos s).getD 0
    if pos ∈ m.boardPos then
      fill C pos (m.boardPos.idxOf pos) shares State.board (fun m board => { m with board }) m
    else if pos ∈ m.holesOf c.seat then
      fill C pos ((m.holesOf c.seat).idxOf pos) shares State.hole (fun m hole => { m with hole }) m
    else .ok () m

def streetSlots : String → Option (List ℕ)
  | "flop" => some [0, 1, 2]
  | "turn" => some [3]
  | "river" => some [4]
  | _ => none

def revealStreet (street : String) : DealM F G P (List Message) := fun m =>
  if m.phase ≠ .deal ∧ m.phase ≠ .audit then .ok [] m
  else if street ∈ m.revealed then .ok [] m
  else match streetSlots street with
  | none => .error (.valueError ("unknown street " ++ street)) m
  | some slots =>
    (do
      modify fun m => { m with revealed := street :: m.revealed }
      let positions := slots.map fun slot => m.boardPos.getD slot 0
      let msgs ← makeShareMsgs C c K positions
      positions.forM (tryComplete C c)
      return msgs : DealM F G P (List Message)) m

def onDealShare (msg : Message) : DealM F G P (List Message) := fun m =>
  if m.phase ≠ .deal ∧ m.phase ≠ .audit then .ok [] m
  else match readDealShare C msg with
  | .error x => if x.isMalformed then abort .malformedShare none m else .error x m
  | .ok (pos, seat, D, proof) =>
    match c.seatOf (.int seat) with
    | none => abort (.unknownShareSeat seat) (some (.int seat)) m
    | some from' =>
      if pos < 0 ∨ pos.toNat ∉ m.validPositions then
        abort (.undealtPosition pos) (some (.int seat)) m
      else match (do return (← cardAt m pos.toNat, m.pubkeys from') : Except PyError _) with
      | .error x => .error x m
      | .ok (_, none) => .error .keyError m
      | .ok (ct, some X) =>
        if C.dleqVerify X D ct.c0 proof = false then
          abort (.badShare seat pos) (some (.int seat)) m
        else (do
          modify fun m => m.record pos.toNat from' D
          tryComplete C c pos.toNat
          return [] : DealM F G P (List Message)) m

/-- The rounds of the chain as the audit judges them; seats are indices into `seats_in`. -/
def State.chain (m : State F G P) : List (DeckAudit.ShuffleRound F G) :=
  m.roundDecks.zipIdx.map fun (deck, k) =>
    let shuffler := (c.expectedShuffler (k + 1)).getD 0
    ⟨c.seatsIn.idxOf shuffler, deck, m.auditWitnesses shuffler⟩

def maybeRunAudit : DealM F G P Unit := fun m =>
  if c.seatsIn.all (fun s => (m.auditShares s).isSome) = false ∨ m.auditReport.isSome then .ok () m
  else
    let pubkeys := c.seatsIn.map fun s => (m.pubkeys s).getD 0
    let shares := c.seatsIn.map fun s => (m.auditShares s).getD []
    let report := DeckAudit.auditDeck C m.joint m.deck pubkeys shares (m.chain c)
    let m := { m with auditReport := some report }
    if report.ok then .ok () { m with phase := .done }
    else
      let blame := (report.badSeats.head?.bind fun k => c.seatsIn[k]?).map fun s => Json.int s
      .ok () (m.abort (.auditFailed report.problems) blame)

def State.acceptedWitness (m : State F G P) : Option (ShuffleWitness F) :=
  m.myShuffles.findSome? fun (round, deck, w) =>
    if 1 ≤ round ∧ m.roundDecks[round - 1]? = some deck then some w else none

def makeShares (x : F) (deck : Deck G) : Except PyError (List (DeckAudit.PositionShare G P)) :=
  DeckAudit.makeShares C (fun i _ => K.auditProof i) deck x

def openAudit : DealM F G P (List Message) := fun m =>
  if (m.phase ≠ .deal ∧ m.phase ≠ .audit) ∨ m.auditOpened then .ok [] m
  else
    let m := { m with phase := .audit, auditOpened := true }
    match (match m.xShare with
      | some x => makeShares C K x m.deck
      | none => .error .typeError) with
    | .error e => .error e m
    | .ok shares =>
      let w := m.acceptedWitness
      (do
        set { m with
          auditShares := update m.auditShares c.seat (some shares)
          auditWitnesses := update m.auditWitnesses c.seat w }
        maybeRunAudit C c
        return [auditOpen C c.seat shares w] : DealM F G P (List Message)) m

def onAuditOpen (msg : Message) : DealM F G P (List Message) := fun m =>
  if m.phase ≠ .deal ∧ m.phase ≠ .audit then .ok [] m
  else match readAuditOpen C msg with
  | .error x => if x.isMalformed ∨ x = .indexError then abort .malformedOpening none m else .error x m
  | .ok (seat, shares) =>
    match c.seatOf (.int seat) with
    | none => abort (.unknownOpeningSeat seat) (some (.int seat)) m
    | some from' =>
      match parseWitness C (msg.get "witness") with
      | .error x =>
        if x.isMalformed then abort (.malformedWitness seat) (some (.int seat)) m
        else .error x m
      | .ok w =>
        (do
          modify fun m => { m with
            auditShares := update m.auditShares from' (some shares)
            auditWitnesses := update m.auditWitnesses from' w }
          maybeRunAudit C c
          return [] : DealM F G P (List Message)) m

inductive Kind where
  | keyAnnounce | deckRound | dealShare | auditOpen | other
  deriving DecidableEq

def kind (msg : Message) : Kind :=
  match msg.get "type" with
  | .str "key_announce" => .keyAnnounce
  | .str "deck_round" => .deckRound
  | .str "deal_share" => .dealShare
  | .str "audit_open" => .auditOpen
  | _ => .other

def dispatch (msg : Message) : DealM F G P (List Message) :=
  match kind msg with
  | .keyAnnounce => onKeyAnnounce C c K msg
  | .deckRound => onDeckRound C c K msg
  | .dealShare => onDealShare C c msg
  | .auditOpen => onAuditOpen C c msg
  | .other => pure []

/-- `_premature`: can the message not be acted on yet? -/
def premature (msg : Message) (m : State F G P) : Except PyError Bool :=
  match kind msg with
  | .deckRound =>
    if m.phase = .keygen then .ok true
    else if m.phase ≠ .shuffle then .ok false
    else match readRound C msg with
    | .error x => if x.isMalformed then .ok false else .error x
    | .ok round => .ok (decide ((m.shuffleRound + 1 : ℕ) < round))
  | .dealShare | .auditOpen => .ok (decide (m.phase = .keygen ∨ m.phase = .shuffle))
  | .keyAnnounce | .other => .ok false

def hold (msg : Message) : DealM F G P (List Message) := fun m =>
  if maxHeld ≤ m.held.length then abort .tooManyHeld none m
  else .ok [] { m with held := m.held ++ [msg] }

/-- One pass of `_drain_held` over the messages that were held. -/
def drainPass : List Message → DealM F G P (List Message × Bool)
  | [] => pure ([], false)
  | msg :: rest => fun m =>
    if m.phase = .aborted then .ok ([], false) m
    else match premature C msg m with
    | .error x => .error x m
    | .ok true => drainPass rest { m with held := m.held ++ [msg] }
    | .ok false =>
      (do
        let out ← dispatch C c K msg
        let (more, _) ← drainPass rest
        return (out ++ more, true) : DealM F G P (List Message × Bool)) m

/-- `_drain_held`. A pass that consumes nothing is the last one, so there are at most as many as
messages held, and one. -/
def drainFor : ℕ → DealM F G P (List Message)
  | 0 => throw .diverges
  | passes + 1 => fun m =>
    if m.phase = .aborted then .ok [] { m with held := [] }
    else if m.held = [] then .ok [] m
    else (do
      set { m with held := [] }
      let (out, consumed) ← drainPass C c K m.held
      if consumed then return out ++ (← drainFor passes)
      else return out : DealM F G P (List Message)) m

def handle (msg : Message) : DealM F G P (List Message) := fun m =>
  if m.phase = .aborted then .ok [] m
  else match premature C msg m with
  | .error x => .error x m
  | .ok true => hold msg m
  | .ok false =>
    (do
      let out ← dispatch C c K msg
      let more ← drainFor C c K ((← get).held.length + 1)
      return out ++ more : DealM F G P (List Message)) m

inductive Call where
  | start
  | handle (msg : Message)
  | reveal (street : String)
  | openAudit

def make : Call → DealM F G P (List Message)
  | .start => start C c K
  | .handle msg => handle C c K msg
  | .reveal street => revealStreet C c K street
  | .openAudit => openAudit C c K

structure Played (F G P : Type) where
  state : State F G P := {}
  sent : List Message := []

def Played.call (w : Played F G P) (call : Call) : Played F G P :=
  ⟨Method.after (make C c K call w.state), w.sent ++ (Method.value (make C c K call w.state)).getD []⟩

def play (calls : List Call) : Played F G P := calls.foldl (Played.call C c K) {}

end MentalDeal

namespace Sample

open MentalDeal

def coins : Coins Point where
  witness := ⟨(List.range 52).map Int.ofNat, List.replicate 52 1⟩
  perm := .refl _
  scalars := List.length_replicate
  nonzero := by simp

def secrets (share : Point) (nonzero : share ≠ 0) : Secrets Point Point Point (ShuffleWitness Point) where
  share
  share_ne := nonzero
  pop := share
  coins _ := coins
  shuffleProof _ _ _ w _ := w
  dealProof _ _ := share
  auditProof _ _ := share

def pair (seat : ℕ) (seated : seat ∈ [1, 2]) : Config where
  sessionId := "table"
  handNo := 1
  seat
  seatsIn := [1, 2]
  button := 1
  prevention := true
  sorted := by decide
  seated

end Sample

end Holdem
