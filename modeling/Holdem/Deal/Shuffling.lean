import Mathlib.Data.ZMod.Basic
import Mathlib.Algebra.Field.ZMod
import Mathlib.Data.List.FinRange
import Holdem.Crypto.Group
import Holdem.Lib.Arrangement

/-!
`shuffle_mp.py` over any backend. A chain of shuffles moves the card at `p1[p2[…pᵣ[j]…]]` to `j` and
adds an encryption of the identity, which the shares of all seats take off again.
-/

set_option linter.unusedSectionVars false

namespace Holdem

open List Arrangement

abbrev Deck (G : Type) := List (Ciphertext G)

/-- A shuffle's permutation, from output to input positions, and its re-encryption scalars. -/
structure ShuffleWitness (F : Type) where
  perm : List ℤ
  scalars : List F
  deriving DecidableEq

variable {F G : Type} [Field F] [DecidableEq F] [AddCommGroup G] [Module F G] [DecidableEq G]

/-- What the backend makes of a re-encryption scalar: libsodium refuses one that masks with the identity. -/
def Backend.Accepts (R : Backend G) (pk : G) (r : F) : Prop := R.total = true ∨ r • R.base ≠ 0 ∧ r • pk ≠ 0

instance (R : Backend G) (pk : G) (r : F) : Decidable (R.Accepts pk r) := inferInstanceAs (Decidable (_ ∨ _))

theorem Backend.accepts_iff {R : Backend G} {pk : G} {r : F} (generator : R.base ≠ 0) (key : R.total = true ∨ pk ≠ 0) :
    R.Accepts pk r ↔ R.total = true ∨ r ≠ 0 := by
  obtain total | key := key
  · simp [Accepts, total]
  simp [Accepts, smul_eq_zero, generator, key]

namespace ElGamal

variable {R : Backend G} {pk : G} {r : F}

theorem reencrypt_accepted (ct : Ciphertext G) (accepts : R.Accepts pk r) :
    reencrypt R pk ct r = .ok (ct + cipher R.base pk 0 r) := by
  obtain total | ⟨mask, shared⟩ := accepts
  · exact reencrypt_total total pk ct r
  simp only [reencrypt, Backend.mulBase, Backend.mul, mask, shared, and_false, if_false]
  refine congrArg Except.ok ?_
  ext <;> simp [cipher]

theorem reencrypt_refused (ct : Ciphertext G) (refused : ¬R.Accepts pk r) :
    ∃ why, reencrypt R pk ct r = .error (.valueError why) := by
  obtain ⟨native, identity⟩ := not_or.mp refused
  rw [Bool.not_eq_true] at native
  by_cases mask : r • R.base = 0
  · refine ⟨"base scalarmult failed (zero scalar?)", ?_⟩
    rw [reencrypt, Backend.mulBase, if_pos ⟨native, mask⟩]
    rfl
  have shared : r • pk = 0 := by
    by_contra other
    exact identity ⟨mask, other⟩
  refine ⟨"scalarmult failed (identity or invalid point)", ?_⟩
  rw [reencrypt, Backend.mulBase, if_neg (fun both => mask both.2), Backend.mul, if_pos ⟨native, shared⟩]
  rfl

theorem reencrypt_ok_iff {ct out : Ciphertext G} :
    reencrypt R pk ct r = .ok out ↔ R.Accepts pk r ∧ out = ct + cipher R.base pk 0 r := by
  by_cases accepts : R.Accepts pk r
  · rw [reencrypt_accepted ct accepts, Except.ok.injEq]
    simp only [accepts, true_and]
    exact eq_comm
  obtain ⟨why, raised⟩ := reencrypt_refused ct accepts
  rw [raised]
  simp [accepts]

def partialDecrypt (ct : Ciphertext G) (x : F) : G := mulSafe x ct.c0

def combine (ct : Ciphertext G) : List G → Except PyError G
  | [] => .error (.valueError "combine requires at least one decryption share")
  | first :: rest => .ok (ct.c1 - rest.foldl (· + ·) first)

def jointPublicKey : List G → Except PyError G
  | [] => .error (.valueError "joint_public_key requires at least one share")
  | first :: rest => .ok (rest.foldl (· + ·) first)

def makeTrivialDeck (card : Fin 52 → G) : Deck G := (finRange 52).map fun i => ⟨0, card i⟩

def deckPoints (card : Fin 52 → G) : List G := (finRange 52).map card

theorem foldl_add_eq (first : G) (rest : List G) : rest.foldl (· + ·) first = (first :: rest).sum := by
  induction rest generalizing first with
  | nil => simp
  | cons a rest ih =>
    rw [foldl_cons, ih]
    simp only [sum_cons, add_assoc]

theorem combine_eq (ct : Ciphertext G) {shares : List G} (some_ : shares ≠ []) :
    combine ct shares = .ok (ct.c1 - shares.sum) := by
  cases shares with
  | nil => exact absurd rfl some_
  | cons first rest => rw [combine, foldl_add_eq]

theorem jointPublicKey_ok {publics : List G} (joint : jointPublicKey publics = .ok pk) :
    publics ≠ [] ∧ pk = publics.sum := by
  cases publics with
  | nil => cases joint
  | cons first rest =>
    rw [jointPublicKey, foldl_add_eq, Except.ok.injEq] at joint
    exact ⟨cons_ne_nil _ _, joint.symm⟩

@[simp] theorem length_makeTrivialDeck (card : Fin 52 → G) : (makeTrivialDeck card).length = 52 := by simp [makeTrivialDeck]

theorem makeTrivialDeck_getD {card : Fin 52 → G} {k : ℕ} (below : k < 52) :
    (makeTrivialDeck card).getD k 0 = ⟨0, card ⟨k, below⟩⟩ := by
  rw [makeTrivialDeck, getD_eq_getElem _ _ (by simpa using below), getElem_map, getElem_finRange]
  rfl

theorem sum_partialDecrypt {base : G} {ct : Ciphertext G} {s : F} (masked : ct.c0 = s • base) (xs : List F) :
    (xs.map (partialDecrypt ct)).sum = s • (xs.map (· • base)).sum := by
  induction xs with
  | nil => simp
  | cons x xs ih =>
    rw [map_cons, map_cons, sum_cons, sum_cons, ih, smul_add, partialDecrypt, mulSafe_eq, masked, smul_comm]

end ElGamal

namespace ShuffleWitness

structure Fits (w : ShuffleWitness F) (n : ℕ) : Prop where
  perm : Arranges w.perm n
  scalars : w.scalars.length = n

instance (w : ShuffleWitness F) (n : ℕ) : Decidable (w.Fits n) :=
  decidable_of_iff (Arranges w.perm n ∧ w.scalars.length = n) ⟨fun h => ⟨h.1, h.2⟩, fun h => ⟨h.1, h.2⟩⟩

def source (w : ShuffleWitness F) (i : ℕ) : ℕ := entry w.perm i

def scalar (w : ShuffleWitness F) (i : ℕ) : F := w.scalars.getD i 0

/-- The position of the first deck whose card a chain of shuffles brings to `j`: `p1[p2[…pᵣ[j]…]]`. -/
def follow (rounds : List (ShuffleWitness F)) (j : ℕ) : ℕ := rounds.foldr (fun w k => w.source k) j

variable {w : ShuffleWitness F} {n i : ℕ}

theorem Fits.source_lt (fits : w.Fits n) (below : i < n) : w.source i < n := fits.perm.entry_lt below

theorem Fits.zip_eq (fits : w.Fits n) :
    w.perm.zip w.scalars = (List.range n).map fun i => ((w.source i : ℤ), w.scalar i) := by
  conv_lhs => rw [fits.perm.eq_map_range, Folding.eq_map_range w.scalars 0, fits.scalars]
  rw [zip_map']
  rfl

theorem follow_perm {α : Type*} {rounds : List (ShuffleWitness F)} (fits : ∀ w ∈ rounds, w.Fits n) (f : ℕ → α) :
    ((List.range n).map fun j => f (follow rounds j)).Perm ((List.range n).map f) := by
  induction rounds generalizing f with
  | nil => exact List.Perm.refl _
  | cons w rounds ih =>
    have later := ih (fun v member => fits v (.tail _ member)) fun k => f (w.source k)
    exact later.trans ((fits w (.head _)).perm.map_entry_perm f)

end ShuffleWitness

namespace ShuffleMp

open ShuffleWitness (follow follow_perm)

def reencryptFrom (R : Backend G) (pk : G) (prev : Deck G) (source : ℤ) (r : F) : Except PyError (Ciphertext G) :=
  match prev[source.toNat]? with
  | some ct => ElGamal.reencrypt R pk ct r
  | none => .error .indexError

/-- `shuffle_deck`, with the permutation and the scalars it was given or drew. -/
def shuffleDeck (R : Backend G) (pk : G) (prev : Deck G) (w : ShuffleWitness F) : Except PyError (Deck G) :=
  if ¬w.perm.Perm ((List.range prev.length).map Int.ofNat) then
    .error (.valueError "perm must be a permutation of range(len(prev))")
  else if w.scalars.length ≠ prev.length then
    .error (.valueError "scalars must have one entry per deck position")
  else (w.perm.zip w.scalars).mapM fun (source, r) => reencryptFrom R pk prev source r

def shuffleRounds (R : Backend G) (pk : G) : Deck G → List (ShuffleWitness F) → Except PyError (Deck G)
  | prev, [] => .ok prev
  | prev, w :: rounds => do
    let next ← shuffleDeck R pk prev w
    shuffleRounds R pk next rounds

def rearranged (base pk : G) (prev : Deck G) (w : ShuffleWitness F) (i : ℕ) : Ciphertext G :=
  prev.getD (w.source i) 0 + ElGamal.cipher base pk 0 (w.scalar i)

variable {R : Backend G} {pk : G} {prev out : Deck G} {w : ShuffleWitness F} {rounds : List (ShuffleWitness F)} {n : ℕ}

theorem reencryptFrom_eq {k : ℕ} (inside : k < prev.length) (r : F) :
    reencryptFrom R pk prev (k : ℤ) r = ElGamal.reencrypt R pk (prev.getD k 0) r := by
  rw [reencryptFrom, Int.toNat_natCast, getElem?_eq_getElem inside, getD_eq_getElem _ _ inside]

theorem shuffleDeck_mapM (fits : w.Fits prev.length) : shuffleDeck R pk prev w =
      (List.range prev.length).mapM fun i => ElGamal.reencrypt R pk (prev.getD (w.source i) 0) (w.scalar i) := by
  have perm : w.perm.Perm ((List.range prev.length).map Int.ofNat) := fits.perm
  rw [shuffleDeck, if_neg (not_not.mpr perm), if_neg (not_not.mpr fits.scalars), fits.zip_eq, mapM_map]
  refine Folding.mapM_congr fun i member => ?_
  exact reencryptFrom_eq (fits.source_lt (List.mem_range.mp member)) _

theorem shuffleDeck_fits (went : shuffleDeck R pk prev w = .ok out) : w.Fits prev.length := by
  rw [shuffleDeck] at went
  by_cases perm : w.perm.Perm ((List.range prev.length).map Int.ofNat)
  · rw [if_neg (not_not.mpr perm)] at went
    by_cases scalars : w.scalars.length = prev.length
    · exact ⟨perm, scalars⟩
    rw [if_pos scalars] at went
    cases went
  rw [if_pos perm] at went
  cases went

theorem shuffleDeck_ok_iff : shuffleDeck R pk prev w = .ok out ↔
      w.Fits prev.length ∧ (∀ i < prev.length, R.Accepts pk (w.scalar i)) ∧
        out = (List.range prev.length).map (rearranged R.base pk prev w) := by
  constructor
  · intro went
    have fits := shuffleDeck_fits went
    rw [shuffleDeck_mapM fits] at went
    have : Inhabited (Ciphertext G) := ⟨0⟩
    obtain ⟨value, each, rfl⟩ := Folding.mapM_ok went
    have entries (i : ℕ) (below : i < prev.length) := ElGamal.reencrypt_ok_iff.mp (each i (List.mem_range.mpr below))
    exact ⟨fits, fun i below => (entries i below).1, Folding.map_range_congr fun i below => (entries i below).2⟩
  rintro ⟨fits, accepts, rfl⟩
  rw [shuffleDeck_mapM fits]
  exact Folding.mapM_range_eq_ok fun i below => ElGamal.reencrypt_accepted _ (accepts i below)

theorem shuffleDeck_ok_iff_each (fits : w.Fits prev.length) (same : out.length = prev.length) :
    shuffleDeck R pk prev w = .ok out ↔
      ∀ i < prev.length, reencryptFrom R pk prev (w.source i : ℤ) (w.scalar i) = .ok (out.getD i 0) := by
  have each : ∀ i < prev.length, (reencryptFrom R pk prev (w.source i : ℤ) (w.scalar i) = .ok (out.getD i 0) ↔
      R.Accepts pk (w.scalar i) ∧ out.getD i 0 = rearranged R.base pk prev w i) := by
    intro i below
    rw [reencryptFrom_eq (fits.source_lt below), ElGamal.reencrypt_ok_iff]
    rfl
  rw [shuffleDeck_ok_iff]
  constructor
  · rintro ⟨-, accepts, made⟩ i below
    refine (each i below).mpr ⟨accepts i below, ?_⟩
    rw [made, Folding.getD_map_range _ _ below]
  intro all
  refine ⟨fits, fun i below => ((each i below).mp (all i below)).1, ?_⟩
  rw [Folding.eq_map_range out 0, same]
  exact Folding.map_range_congr fun i below => ((each i below).mp (all i below)).2

structure Carried (base pk : G) (prev out : Deck G) (rounds : List (ShuffleWitness F)) : Prop where
  length : out.length = prev.length
  inside : ∀ j < prev.length, follow rounds j < prev.length
  entry : ∀ j < prev.length, ∃ s : F,
    out.getD j 0 = prev.getD (follow rounds j) 0 + ElGamal.cipher base pk 0 s

theorem Carried.cons {next : Deck G} (fits : w.Fits prev.length)
    (made : next = (List.range prev.length).map (rearranged R.base pk prev w)) (rest : Carried (F := F) R.base pk next out rounds) :
    Carried R.base pk prev out (w :: rounds) := by
  have length : next.length = prev.length := by rw [made, length_map, length_range]
  refine ⟨rest.length.trans length, fun j below => fits.source_lt (length ▸ rest.inside j (length ▸ below)), fun j below => ?_⟩
  have inside := rest.inside j (length ▸ below)
  obtain ⟨s, same⟩ := rest.entry j (length ▸ below)
  refine ⟨w.scalar (follow rounds j) + s, ?_⟩
  have moved : next.getD (follow rounds j) 0 = rearranged R.base pk prev w (follow rounds j) := by
    rw [made, Folding.getD_map_range _ _ (length ▸ inside)]
  rw [same, moved, rearranged, add_assoc, ElGamal.cipher_add, add_zero]
  rfl

theorem shuffleRounds_carried (went : shuffleRounds R pk prev rounds = .ok out) : Carried R.base pk prev out rounds := by
  induction rounds generalizing prev with
  | nil =>
    cases went
    refine ⟨rfl, fun j below => below, fun j below => ⟨0, ?_⟩⟩
    have nothing : ElGamal.cipher R.base pk 0 (0 : F) = 0 := by ext <;> simp [ElGamal.cipher]
    rw [nothing, add_zero]
    rfl
  | cons w rounds ih =>
    obtain ⟨next, first, rest⟩ := Folding.bind_eq_ok went
    obtain ⟨fits, -, made⟩ := shuffleDeck_ok_iff.mp first
    exact Carried.cons fits made (ih rest)

theorem shuffleRounds_fits (went : shuffleRounds R pk prev rounds = .ok out) : ∀ w ∈ rounds, w.Fits prev.length := by
  induction rounds generalizing prev with
  | nil => exact fun w member => absurd member not_mem_nil
  | cons w rounds ih =>
    obtain ⟨next, first, rest⟩ := Folding.bind_eq_ok went
    obtain ⟨fits, -, made⟩ := shuffleDeck_ok_iff.mp first
    have length : next.length = prev.length := by rw [made, length_map, length_range]
    exact List.forall_mem_cons.mpr ⟨fits, length ▸ ih rest⟩

theorem shuffleRounds_goes (fits : ∀ w ∈ rounds, w.Fits prev.length) :
    (∃ out, shuffleRounds R pk prev rounds = .ok out) ↔ ∀ w ∈ rounds, ∀ r ∈ w.scalars, R.Accepts pk r := by
  induction rounds generalizing prev with
  | nil => exact ⟨fun _ w member => absurd member not_mem_nil, fun _ => ⟨prev, rfl⟩⟩
  | cons w rounds ih =>
    have fit := fits w (.head _)
    have scalars : (∀ r ∈ w.scalars, R.Accepts pk r) ↔ ∀ i < prev.length, R.Accepts pk (w.scalar i) := by
      rw [← fit.scalars]
      constructor
      · intro each i inside
        rw [ShuffleWitness.scalar, getD_eq_getElem _ _ inside]
        exact each _ (getElem_mem inside)
      intro each r member
      obtain ⟨i, inside, rfl⟩ := getElem_of_mem member
      have := each i inside
      rwa [ShuffleWitness.scalar, getD_eq_getElem _ _ inside] at this
    have length : ((List.range prev.length).map (rearranged R.base pk prev w)).length = prev.length := by
      rw [length_map, length_range]
    have later : (∃ out, shuffleRounds R pk ((List.range prev.length).map (rearranged R.base pk prev w)) rounds = .ok out) ↔ _ :=
      ih fun v member => length.symm ▸ fits v (.tail _ member)
    rw [forall_mem_cons, scalars, ← later]
    constructor
    · rintro ⟨out, went⟩
      obtain ⟨next, first, rest⟩ := Folding.bind_eq_ok went
      obtain ⟨-, accepts, rfl⟩ := shuffleDeck_ok_iff.mp first
      exact ⟨accepts, out, rest⟩
    rintro ⟨accepts, out, rest⟩
    refine ⟨out, ?_⟩
    rw [shuffleRounds, shuffleDeck_ok_iff.mpr ⟨fit, accepts, rfl⟩]
    exact rest

end ShuffleMp

namespace ElGamal

def shares (xs : List F) (ct : Ciphertext G) : List G := xs.map (partialDecrypt ct)

variable {base m : G} {xs : List F} {ct : Ciphertext G} {s : F}

theorem combine_shares (some_ : xs ≠ []) (masked : ct = ⟨0, m⟩ + cipher base (xs.map (· • base)).sum 0 s) :
    combine ct (shares xs ct) = .ok m := by
  have c0 : ct.c0 = s • base := by simp [masked, cipher]
  rw [combine_eq _ (by simpa [shares] using some_), shares, sum_partialDecrypt c0, masked]
  simp [cipher]

theorem combine_without {i : ℕ} {x : F} (at_ : xs[i]? = some x) (matters : x • ct.c0 ≠ 0) (more : 2 ≤ xs.length) :
    ∃ other, combine ct ((shares xs ct).eraseIdx i) = .ok other ∧ combine ct (shares xs ct) ≠ .ok other := by
  obtain ⟨inside, rfl⟩ := List.getElem?_eq_some_iff.mp at_
  have long : (shares xs ct).length = xs.length := by rw [shares, length_map]
  have split := (getElem_cons_eraseIdx_perm (l := shares xs ct) (long.symm ▸ inside)).sum_eq
  have share : (shares xs ct)[i] = xs[i] • ct.c0 := by
    simp only [shares, getElem_map, partialDecrypt, mulSafe_eq]
  rw [sum_cons, share] at split
  have left : (shares xs ct).eraseIdx i ≠ [] := by
    intro empty
    have := congrArg List.length empty
    rw [length_eraseIdx_of_lt (long.symm ▸ inside), long, length_nil] at this
    omega
  refine ⟨_, combine_eq ct left, ?_⟩
  rw [combine_eq ct (by intro empty; rw [empty] at long; simp at long; omega), ← split, Ne, Except.ok.injEq]
  intro same
  apply matters
  have := sub_right_inj.mp same
  simpa using this

end ElGamal

namespace ShuffleMp

open ElGamal
open ShuffleWitness (follow follow_perm)

structure Opens (card : Fin 52 → G) (xs : List F) (rounds : List (ShuffleWitness F)) (deck : Deck G) : Prop where
  length : deck.length = 52
  plain : ∀ j ct, deck[j]? = some ct →
    ∃ point, (deckPoints card)[follow rounds j]? = some point ∧ combine ct (shares xs ct) = .ok point
  canonical : ∃ points, (deck.mapM fun ct => combine ct (shares xs ct)) = .ok points ∧ points.Perm (deckPoints card)
  lacking : ∀ ct ∈ deck, ∀ i x, xs[i]? = some x → x • ct.c0 ≠ 0 → 2 ≤ xs.length →
    ∃ other, combine ct ((shares xs ct).eraseIdx i) = .ok other ∧ combine ct (shares xs ct) ≠ .ok other

variable {card : Fin 52 → G} {xs : List F} {deck : Deck G}

theorem combine_carried (some_ : xs ≠ [])
    (carried : Carried (F := F) base (xs.map (· • base)).sum (makeTrivialDeck card) deck rounds) {j : ℕ} (below : j < 52) :
    combine (deck.getD j 0) (shares xs (deck.getD j 0)) =
      .ok ((deckPoints card).getD (follow rounds j) 0) := by
  have inside : follow rounds j < 52 := by
    simpa [length_makeTrivialDeck] using carried.inside j (by rwa [length_makeTrivialDeck])
  obtain ⟨s, entry⟩ := carried.entry j (by rwa [length_makeTrivialDeck])
  rw [makeTrivialDeck_getD inside] at entry
  rw [combine_shares some_ entry, deckPoints, getD_eq_getElem _ _ (by simpa using inside), getElem_map,
    getElem_finRange]
  rfl

theorem carried_opens (some_ : xs ≠ []) (fits : ∀ w ∈ rounds, w.Fits 52)
    (carried : Carried (F := F) base (xs.map (· • base)).sum (makeTrivialDeck card) deck rounds) :
    Opens card xs rounds deck := by
  have length : deck.length = 52 := carried.length.trans (length_makeTrivialDeck _)
  refine ⟨length, fun j ct at_ => ?_, ?_, fun ct _ i x at_ matters more => combine_without at_ matters more⟩
  · obtain ⟨inside, rfl⟩ := List.getElem?_eq_some_iff.mp at_
    have below : follow rounds j < (deckPoints card).length := by
      simpa [deckPoints, length_makeTrivialDeck] using carried.inside j (by rw [length_makeTrivialDeck]; omega)
    refine ⟨_, getElem?_eq_getElem below, ?_⟩
    have opened := combine_carried some_ carried (length ▸ inside)
    rwa [getD_eq_getElem _ _ inside, getD_eq_getElem _ _ below] at opened
  refine ⟨(List.range 52).map fun j => (deckPoints card).getD (follow rounds j) 0, ?_, ?_⟩
  · rw [Folding.eq_map_range deck 0, length, mapM_map]
    exact Folding.mapM_range_eq_ok fun j below => combine_carried some_ carried below
  have points : deckPoints card = (List.range 52).map fun k => (deckPoints card).getD k 0 := by
    conv_lhs => rw [Folding.eq_map_range (deckPoints card) 0]
    rw [deckPoints, length_map, length_finRange]
  conv_rhs => rw [points]
  exact follow_perm fits fun k => (deckPoints card).getD k 0

/-- Shuffles of the trivial deck under the joint key go through exactly when the backend accepts their
scalars, and what comes out opens to the cards in the composed order for all seats together, and to
another point once a share that matters is missing. -/
theorem chain_decrypts (R : Backend G) (card : Fin 52 → G) (xs : List F) (pk : G) (rounds : List (ShuffleWitness F))
    (joint : jointPublicKey (xs.map (· • R.base)) = .ok pk) (fits : ∀ w ∈ rounds, w.Fits 52) :
    ((∃ deck, shuffleRounds R pk (makeTrivialDeck card) rounds = .ok deck) ↔
      ∀ w ∈ rounds, ∀ r ∈ w.scalars, R.Accepts pk r) ∧
    ∀ deck, shuffleRounds R pk (makeTrivialDeck card) rounds = .ok deck → Opens card xs rounds deck := by
  obtain ⟨some_, rfl⟩ := jointPublicKey_ok joint
  refine ⟨shuffleRounds_goes (by rwa [length_makeTrivialDeck]), fun deck went => ?_⟩
  exact carried_opens (by simpa using some_) fits (shuffleRounds_carried went)

instance prime_fiftyThree : Fact (Nat.Prime 53) := ⟨by decide⟩

def sodium : Backend (ZMod 53) := ⟨1, false⟩

def sampleCard (i : Fin 52) : ZMod 53 := (i : ℕ)

def sampleRound : ShuffleWitness (ZMod 53) := ⟨(List.range 52).map fun i => ((51 - i : ℕ) : ℤ), replicate 52 1⟩

theorem chain_decrypts_two :
    ∃ deck, shuffleRounds sodium 3 (makeTrivialDeck sampleCard) [sampleRound, sampleRound] = .ok deck ∧
      Opens sampleCard [1, 2] [sampleRound, sampleRound] deck := by
  have whole := chain_decrypts sodium sampleCard [1, 2] 3 [sampleRound, sampleRound] (by decide +kernel) (by decide +kernel)
  obtain ⟨deck, went⟩ := whole.1.mpr (by decide +kernel)
  exact ⟨deck, went, whole.2 deck went⟩

/-- One seat alone: without its share there is nothing to combine. -/
theorem only_share_missing :
    jointPublicKey ([1].map (· • sodium.base)) = .ok 1 ∧
    ∃ deck, shuffleRounds sodium 1 (makeTrivialDeck sampleCard) [sampleRound] = .ok deck ∧
      ∃ ct ∈ deck, (1 : ZMod 53) • ct.c0 ≠ 0 ∧
        ∀ other, combine ct ((shares [(1 : ZMod 53)] ct).eraseIdx 0) ≠ .ok other := by
  refine ⟨by decide +kernel, (List.range 52).map (rearranged 1 1 (makeTrivialDeck sampleCard) sampleRound), ?_, ?_⟩
  · rw [shuffleRounds, shuffleDeck_ok_iff.mpr ⟨by decide +kernel, by decide +kernel, rfl⟩]
    rfl
  refine ⟨rearranged 1 1 (makeTrivialDeck sampleCard) sampleRound 0, mem_map_of_mem (by decide), by decide +kernel, ?_⟩
  intro other given
  cases given

end ShuffleMp

end Holdem
