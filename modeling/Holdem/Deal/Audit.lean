import Mathlib.Data.Finset.Sort
import Holdem.Wire
import Holdem.Deal.Shuffling

/-!
What a mental-poker hand uses of the crypto modules, and the audit of a finished hand. The proof systems
are whatever their verifiers accept. Cards are named by their index in `elgamal.CARDS`.
-/

namespace Holdem

open List

/-- The crypto modules, over proofs `P` and shuffle proofs `S`. -/
structure Suite (F G P S : Type) [AddCommGroup G] where
  base : G
  base_ne : base ≠ 0
  card : Fin 52 → G
  card_injective : Function.Injective card
  pointHex : G → String
  parsePoint : String → Option G
  parse_pointHex : ∀ p, parsePoint (pointHex p) = some p
  scalarHex : F → String
  parseScalar : String → Option F
  parse_scalarHex : ∀ k, parseScalar (scalarHex k) = some k
  proofHex : P → String
  parseProof : String → Option P
  parse_proofHex : ∀ p, parseProof (proofHex p) = some p
  encodeShuffle : S → Json
  encodeShuffle_ne : ∀ s, encodeShuffle s ≠ .null
  decodeShuffle : Json → Except String S
  decode_encodeShuffle : ∀ s, decodeShuffle (encodeShuffle s) = .ok s
  popVerify : G → P → String → Bool
  dleqVerify : G → G → G → P → Bool
  shuffleVerify : G → Deck G → Deck G → List String → S → Bool
  parseInt : String → Option ℤ
  /-- What `str(value)` makes of a value in a message. -/
  text : Json → String
  text_int : ∀ k, text (.int k) = toString k

def cardLabel (card : Fin 52) : String :=
  ["2", "3", "4", "5", "6", "7", "8", "9", "T", "J", "Q", "K", "A"].getD (card.val % 13) "" ++
    ["c", "d", "h", "s"].getD (card.val / 13) ""

namespace Suite

variable {F G P S : Type} [Field F] [DecidableEq F] [AddCommGroup G] [Module F G] [DecidableEq G] (C : Suite F G P S)
  {prev : Deck G} {pk : G}

def backend : Backend G := ⟨C.base, false⟩

def pointToCard (p : G) : Option (Fin 52) := (finRange 52).find? fun i => C.card i = p

omit [Field F] [DecidableEq F] [Module F G] in
theorem pointToCard_card (i : Fin 52) : C.pointToCard (C.card i) = some i := by
  unfold pointToCard
  rw [find?_eq_some_iff_append]
  obtain ⟨before, after, split⟩ := append_of_mem (mem_finRange i)
  refine ⟨by simp, before, after, split, fun j member => ?_⟩
  have distinct : (before ++ i :: after).Nodup := split ▸ nodup_finRange 52
  have other : j ≠ i := by
    rintro rfl
    exact disjoint_of_nodup_append distinct member (.head _)
  simpa using fun same => other (C.card_injective same)

abbrev trivialDeck : Deck G := ElGamal.makeTrivialDeck C.card

/-- `combine`: `C1` less the sum of the shares. -/
def combine (ct : Ciphertext G) (shares : List G) : G := ct.c1 - shares.sum

theorem combine_ok (ct : Ciphertext G) {shares : List G} (some_ : shares ≠ []) :
    ElGamal.combine ct shares = .ok (combine ct shares) := ElGamal.combine_eq ct some_

abbrev shuffleDeck (pk : G) (prev : Deck G) (w : ShuffleWitness F) : Except PyError (Deck G) :=
  ShuffleMp.shuffleDeck C.backend pk prev w

theorem shuffleDeck_eq (sound : pk ≠ 0) {w : ShuffleWitness F} (fits : w.Fits prev.length) (nonzero : ∀ r ∈ w.scalars, r ≠ 0) :
    C.shuffleDeck pk prev w = .ok ((List.range prev.length).map (ShuffleMp.rearranged C.base pk prev w)) := by
  refine ShuffleMp.shuffleDeck_ok_iff.mpr ⟨fits, fun i below => .inr ?_, rfl⟩
  have drawn : w.scalar i ≠ 0 := by
    rw [ShuffleWitness.scalar, getD_eq_getElem _ _ (fits.scalars.symm ▸ below)]
    exact nonzero _ (getElem_mem _)
  exact ⟨smul_ne_zero drawn C.base_ne, smul_ne_zero drawn sound⟩

end Suite

namespace DeckAudit

abbrev PositionShare (G P : Type) := G × P

structure ShuffleRound (F G : Type) where
  seat : ℕ
  output : Deck G
  witness : Option (ShuffleWitness F)

structure AuditReport where
  ok : Bool
  cards : List (Option (Fin 52))
  badSeats : List ℕ
  problems : List String
  sharesValid : Bool
  deriving DecidableEq

variable {F G P S : Type} [Field F] [DecidableEq F] [AddCommGroup G] [Module F G] [DecidableEq G] (C : Suite F G P S)

/-- `make_shares`, with the proofs that `dleq.prove` draws position by position. -/
def makeShares (dleqProve : ℕ → F → G → P) (deck : Deck G) (x : F) : Except PyError (List (PositionShare G P)) :=
  deck.zipIdx.mapM fun (ct, i) =>
    if ct.c0 = 0 then .error (.valueError ("position " ++ toString i ++ ": trivial ciphertext in a post-shuffle deck"))
    else do
      let d ← C.backend.mul x ct.c0
      return (d, dleqProve i x ct.c0)

def checkPosition (pk : G) (prev out : Deck G) (i : ℕ) (source : ℤ) (r : F) : Option String :=
  match ShuffleMp.reencryptFrom C.backend pk prev source r with
  | .error (.valueError why) => some ("position " ++ toString i ++ ": witness scalar unusable (" ++ why ++ ")")
  | .error _ => some ("position " ++ toString i ++ ": witness scalar unusable")
  | .ok expect =>
    if out[i]? = some expect then none
    else some ("position " ++ toString i ++ " is not derived from input position " ++ toString source)

/-- `verify_shuffle_round`: nothing if `out` is `prev` permuted and re-encrypted by the witness. -/
def verifyShuffleRound (pk : G) (prev out : Deck G) (w : ShuffleWitness F) : Option String :=
  if out.length ≠ prev.length then
    some ("output has " ++ toString out.length ++ " positions, input " ++ toString prev.length)
  else if ¬w.perm.Perm ((List.range prev.length).map Int.ofNat) then
    some "witness permutation is not a permutation of the deck"
  else if w.scalars.length ≠ prev.length then
    some ("witness has " ++ toString w.scalars.length ++ " scalars, expected " ++ toString prev.length)
  else ((w.perm.zip w.scalars).zipIdx).findSome? fun ((source, r), i) => checkPosition C pk prev out i source r

def verifyRounds (pk : G) (finalDeck : Deck G) : ℕ → Deck G → List (ShuffleRound F G) → List String × List ℕ
  | _, prev, [] =>
    if prev = finalDeck then ([], []) else (["audited deck is not the output of the shuffle chain"], [])
  | r, prev, round :: rest =>
    match round.witness with
    | none => (["round " ++ toString r ++ " (seat " ++ toString round.seat ++ "): shuffle witness not opened"], [round.seat])
    | some w =>
      match verifyShuffleRound C pk prev round.output w with
      | some why =>
        (["round " ++ toString r ++ " (seat " ++ toString round.seat ++
          "): output is not a shuffle of its input: " ++ why], [round.seat])
      | none => verifyRounds pk finalDeck (r + 1) round.output rest

def verifyChain (pk : G) (rounds : List (ShuffleRound F G)) (finalDeck : Deck G) : List String × List ℕ :=
  if rounds = [] then (["shuffle chain is empty"], [])
  else verifyRounds C pk finalDeck 1 C.trivialDeck rounds

def seatSet (seats : List ℕ) : List ℕ := seats.toFinset.sort (· ≤ ·)

def badShare (deck : Deck G) (X : G) (shares : List (PositionShare G P)) : Option ℕ :=
  (shares.zipIdx.find? fun (share, i) =>
    !C.dleqVerify X share.1 ((deck[i]?).map Ciphertext.c0 |>.getD 0) share.2).map Prod.snd

def surplus (cards : List (Option (Fin 52))) : List (Fin 52) :=
  (finRange 52).filter fun i => 1 < cards.count (some i)

def missing (cards : List (Option (Fin 52))) : List (Fin 52) :=
  (finRange 52).filter fun i => cards.count (some i) < 1

def labels (cards : List (Fin 52)) : String :=
  ", ".intercalate ((cards.map cardLabel).insertionSort (· ≤ ·))

/-- `audit_deck`, with the chain it is always given here. -/
def auditDeck (pk : G) (deck : Deck G) (pubkeys : List G) (sharesBySeat : List (List (PositionShare G P)))
    (rounds : List (ShuffleRound F G)) : AuditReport :=
  let (chainProblems, chainBad) := verifyChain C pk rounds deck
  let n := deck.length
  if n ≠ 52 then
    ⟨false, [], seatSet chainBad, chainProblems ++ ["deck has " ++ toString n ++ " positions, expected 52"], true⟩
  else if sharesBySeat.length ≠ pubkeys.length then
    ⟨false, [], seatSet chainBad, chainProblems ++ ["one share list per seat pubkey required"], true⟩
  else
    let trivial := deck.zipIdx.filterMap fun (ct, i) =>
      if ct.c0 = 0 then some ("position " ++ toString i ++ ": trivial ciphertext (invalid post-shuffle)") else none
    let short := sharesBySeat.zipIdx.filter fun (shares, _) => shares.length ≠ n
    let structural := trivial ++ short.map fun (shares, s) =>
      "seat " ++ toString s ++ ": " ++ toString shares.length ++ " shares, expected " ++ toString n
    if structural ≠ [] then
      ⟨false, [], seatSet (chainBad ++ short.map Prod.snd), chainProblems ++ structural, decide (short = [])⟩
    else
      let failed := (pubkeys.zip sharesBySeat).zipIdx.filterMap fun ((X, shares), s) =>
        (badShare C deck X shares).map fun i => (s, i)
      let cards := deck.zipIdx.map fun (ct, i) =>
        C.pointToCard (Suite.combine ct (sharesBySeat.map fun shares => (shares[i]?.map Prod.fst).getD 0))
      let badSeats := seatSet (chainBad ++ failed.map Prod.fst)
      let problems := chainProblems ++
        failed.map (fun (s, i) => "seat " ++ toString s ++ ": DLEQ failed at position " ++ toString i) ++
        (cards.zipIdx.filterMap fun (card, i) =>
          if card = none then some ("position " ++ toString i ++ ": decrypts to a non-card point") else none) ++
        (if surplus cards = [] then [] else ["duplicated cards: " ++ labels (surplus cards)]) ++
        (if missing cards = [] then [] else ["missing cards: " ++ labels (missing cards)])
      ⟨decide (problems = [] ∧ badSeats = []), cards, badSeats, problems, decide (failed = [])⟩

end DeckAudit

/-! A suite to run hands with: points and scalars are the integers modulo 53, and a proof is the secret
itself, so its verifiers are sound and complete. -/

namespace Sample

abbrev Point := ZMod 53

def hex (p : Point) : String := String.ofList (List.replicate p.val '1')

def parse (text : String) : Option Point := some text.length

theorem parse_hex (p : Point) : parse (hex p) = some p := by
  simp [parse, hex]

def encode (w : ShuffleWitness Point) : Json :=
  .arr [.arr (w.perm.map .int), .arr (w.scalars.map fun r => .str (hex r))]

def decode : Json → Except String (ShuffleWitness Point)
  | .arr [.arr perm, .arr scalars] => .ok
    ⟨perm.filterMap fun | .int k => some k | _ => none, scalars.filterMap fun | .str text => parse text | _ => none⟩
  | _ => .error "not a witness"

theorem decode_encode (w : ShuffleWitness Point) : decode (encode w) = .ok w := by
  simp [encode, decode, List.filterMap_map, parse_hex]

def shuffleVerify (pk : Point) (prev out : Deck Point) (w : ShuffleWitness Point) : Bool :=
  decide (prev.length = 52 ∧ w.perm.Perm ((List.range 52).map Int.ofNat) ∧ w.scalars.length = 52 ∧
    out = (w.perm.zip w.scalars).map fun (source, r) => prev.getD source.toNat 0 + ElGamal.cipher (1 : Point) pk 0 r)

def suite : Suite Point Point Point (ShuffleWitness Point) where
  base := 1
  base_ne := one_ne_zero
  card i := ((i : ℕ) : Point)
  card_injective i j same := by
    have := congrArg ZMod.val same
    rw [ZMod.val_natCast_of_lt (by omega), ZMod.val_natCast_of_lt (by omega)] at this
    exact Fin.ext this
  pointHex := hex
  parsePoint := parse
  parse_pointHex := parse_hex
  scalarHex := hex
  parseScalar := parse
  parse_scalarHex := parse_hex
  proofHex := hex
  parseProof := parse
  parse_proofHex := parse_hex
  encodeShuffle := encode
  encodeShuffle_ne := nofun
  decodeShuffle := decode
  decode_encodeShuffle := decode_encode
  popVerify X x _ := decide (X = x)
  dleqVerify X D c0 x := decide (X = x ∧ D = x * c0)
  shuffleVerify pk prev out _ w := shuffleVerify pk prev out w
  parseInt _ := none
  text
    | .int k => toString k
    | _ => ""
  text_int _ := rfl

end Sample

end Holdem
