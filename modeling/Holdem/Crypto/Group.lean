import Holdem.Cards
import Holdem.Lib.Folding
import Mathlib.Algebra.Module.Prod
import Mathlib.Algebra.Group.InjSurj

/-!
The group of `ristretto.py`, written additively over a field of scalars, the ciphertexts of
`elgamal.py`, the commitments of `pedersen.py` and the transcripts.
-/

set_option linter.unusedSectionVars false

namespace Holdem

open Finset List Folding

variable {F G : Type} [Field F] [DecidableEq F] [AddCommGroup G] [Module F G] [DecidableEq G]

/-- What the host supplies. libsodium refuses a product that is the identity; a backend whose
multiplication is total does not. -/
structure Backend (G : Type) where
  base : G
  total : Bool

namespace Backend

def mul (R : Backend G) (k : F) (p : G) : Except PyError G :=
  if R.total = false ∧ k • p = 0 then .error (.valueError "scalarmult failed (identity or invalid point)")
  else .ok (k • p)

def mulBase (R : Backend G) (k : F) : Except PyError G :=
  if R.total = false ∧ k • R.base = 0 then .error (.valueError "base scalarmult failed (zero scalar?)")
  else .ok (k • R.base)

theorem mul_total {R : Backend G} (total : R.total = true) (k : F) (p : G) : R.mul k p = .ok (k • p) := by
  rw [mul, if_neg (by simp [total])]

theorem mulBase_total {R : Backend G} (total : R.total = true) (k : F) : R.mulBase k = .ok (k • R.base) := by
  rw [mulBase, if_neg (by simp [total])]

end Backend

/-- `mul_safe`: the identity for a zero scalar or the identity point, where `mul` could refuse. -/
def mulSafe (k : F) (p : G) : G := if k = 0 ∨ p = 0 then 0 else k • p

@[simp] theorem mulSafe_eq (k : F) (p : G) : mulSafe k p = k • p := by
  unfold mulSafe
  split
  · next zero =>
    obtain rfl | rfl := zero
    · rw [zero_smul]
    rw [smul_zero]
  rfl

def multiscalarMul (scalars : List F) (points : List G) : Except PyError G :=
  if scalars.length ≠ points.length then
    .error (.valueError "multiscalar_mul: scalars and points differ in length")
  else .ok (List.zipWith mulSafe scalars points).sum

theorem multiscalarMul_eq {scalars : List F} {points : List G} {n : ℕ} (hs : scalars.length = n)
    (hp : points.length = n) :
    multiscalarMul scalars points = .ok (∑ i ∈ Finset.range n, scalars.getD i 0 • points.getD i 0) := by
  rw [multiscalarMul, if_neg (by rw [hs, hp]; simp), sum_zipWith mulSafe 0 0 hs hp]
  simp only [mulSafe_eq]

@[ext] structure Ciphertext (G : Type) where
  c0 : G
  c1 : G
  deriving DecidableEq

namespace Ciphertext

def toProd (c : Ciphertext G) : G × G := (c.c0, c.c1)

theorem toProd_injective : Function.Injective (toProd : Ciphertext G → G × G) := by
  rintro ⟨a, b⟩ ⟨c, d⟩ same
  cases same
  rfl

instance : Zero (Ciphertext G) := ⟨⟨0, 0⟩⟩
/-- `_cipher_add`. -/
instance : Add (Ciphertext G) := ⟨fun a b => ⟨a.c0 + b.c0, a.c1 + b.c1⟩⟩
instance : Neg (Ciphertext G) := ⟨fun a => ⟨-a.c0, -a.c1⟩⟩
instance : Sub (Ciphertext G) := ⟨fun a b => ⟨a.c0 - b.c0, a.c1 - b.c1⟩⟩
instance {R : Type} [SMul R G] : SMul R (Ciphertext G) := ⟨fun k a => ⟨k • a.c0, k • a.c1⟩⟩

instance : AddCommGroup (Ciphertext G) :=
  toProd_injective.addCommGroup toProd rfl (fun _ _ => rfl) (fun _ => rfl) (fun _ _ => rfl)
    (fun _ _ => rfl) (fun _ _ => rfl)

def toProdHom : Ciphertext G →+ G × G where
  toFun := toProd
  map_zero' := rfl
  map_add' _ _ := rfl

instance : Module F (Ciphertext G) := toProd_injective.module F toProdHom fun _ _ => rfl

@[simp] theorem zero_c0 : (0 : Ciphertext G).c0 = 0 := rfl
@[simp] theorem zero_c1 : (0 : Ciphertext G).c1 = 0 := rfl
@[simp] theorem add_c0 (a b : Ciphertext G) : (a + b).c0 = a.c0 + b.c0 := rfl
@[simp] theorem add_c1 (a b : Ciphertext G) : (a + b).c1 = a.c1 + b.c1 := rfl
@[simp] theorem smul_c0 (k : F) (a : Ciphertext G) : (k • a).c0 = k • a.c0 := rfl
@[simp] theorem smul_c1 (k : F) (a : Ciphertext G) : (k • a).c1 = k • a.c1 := rfl

end Ciphertext

namespace ElGamal

/-- `(r*G, m + r*PK)` as a point of the group, with no refusal. -/
def cipher (base pk m : G) (r : F) : Ciphertext G := ⟨r • base, m + r • pk⟩

theorem cipher_add (base pk m m' : G) (r r' : F) :
    cipher base pk m r + cipher base pk m' r' = cipher base pk (m + m') (r + r') := by
  ext <;> simp only [cipher, Ciphertext.add_c0, Ciphertext.add_c1] <;> module

theorem smul_cipher (base pk m : G) (k r : F) : k • cipher base pk m r = cipher base pk (k • m) (k * r) := by
  ext <;> simp only [cipher, Ciphertext.smul_c0, Ciphertext.smul_c1] <;> module

def encrypt (R : Backend G) (pk m : G) (r : F) : Except PyError (Ciphertext G) := do
  let c0 ← R.mulBase r
  let shared ← R.mul r pk
  return ⟨c0, m + shared⟩

def reencrypt (R : Backend G) (pk : G) (ct : Ciphertext G) (r : F) : Except PyError (Ciphertext G) := do
  let mask ← R.mulBase r
  let shared ← R.mul r pk
  return ⟨ct.c0 + mask, ct.c1 + shared⟩

theorem encrypt_total {R : Backend G} (total : R.total = true) (pk m : G) (r : F) :
    encrypt R pk m r = .ok (cipher R.base pk m r) := by
  rw [encrypt, Backend.mulBase_total total, Backend.mul_total total]
  rfl

theorem reencrypt_total {R : Backend G} (total : R.total = true) (pk : G) (ct : Ciphertext G) (r : F) :
    reencrypt R pk ct r = .ok (ct + cipher R.base pk 0 r) := by
  rw [reencrypt, Backend.mulBase_total total, Backend.mul_total total]
  apply congrArg Except.ok
  ext <;> simp [cipher]

end ElGamal

structure CommitmentKey (G : Type) where
  H : G
  Gs : List G

namespace CommitmentKey

def n (ck : CommitmentKey G) : ℕ := ck.Gs.length

/-- The commitment to the first `width` values of a vector, as a point of the group. -/
def com (ck : CommitmentKey G) (width : ℕ) (values : ℕ → F) (r : F) : G :=
  r • ck.H + ∑ j ∈ Finset.range width, values j • ck.Gs.getD j 0

end CommitmentKey

def commit (ck : CommitmentKey G) (values : List F) (r : F) : Except PyError G :=
  if values.length > ck.n then .error (.valueError s!"too many values: {values.length} > n={ck.n}")
  else multiscalarMul (r :: values) (ck.H :: ck.Gs.take values.length)

variable {ck : CommitmentKey G}

theorem commit_eq {values : List F} (r : F) (fits : values.length ≤ ck.n) :
    commit ck values r = .ok (ck.com values.length (values.getD · 0) r) := by
  have keys : (ck.Gs.take values.length).length = values.length := by
    rw [length_take]
    exact min_eq_left fits
  rw [commit, if_neg (by omega), multiscalarMul_eq (n := values.length + 1) rfl (by rw [length_cons, keys]),
    Finset.sum_range_succ', CommitmentKey.com, add_comm]
  congr 2
  refine sum_congr rfl fun j member => ?_
  have below := Finset.mem_range.mp member
  rw [getD_cons_succ, getD_cons_succ, getD_eq_getElem?_getD (l := List.take _ _),
    getElem?_take_of_lt below, getD_eq_getElem?_getD (l := ck.Gs)]

theorem commit_map_range {width : ℕ} (values : ℕ → F) (r : F) (fits : width ≤ ck.n) :
    commit ck ((List.range width).map values) r = .ok (ck.com width values r) := by
  have long : ((List.range width).map values).length = width := by rw [length_map, length_range]
  rw [commit_eq r (by rw [long]; exact fits), long, CommitmentKey.com, CommitmentKey.com]
  congr 2
  refine sum_congr rfl fun j member => ?_
  rw [getD_map_range values 0 (Finset.mem_range.mp member)]

theorem commit_map_congr {width : ℕ} {f g : ℕ → F} (r : F) (fits : width ≤ ck.n)
    (same : ∀ i < width, f i = g i) : commit ck ((List.range width).map f) r = .ok (ck.com width g r) := by
  rw [map_range_congr same, commit_map_range g r fits]

namespace CommitmentKey

variable (ck : CommitmentKey G) (width : ℕ)

theorem com_congr {values values' : ℕ → F} (r : F) (same : ∀ j < width, values j = values' j) :
    ck.com width values r = ck.com width values' r := by
  rw [com, com]
  congr 1
  exact sum_congr rfl fun j member => by rw [same j (Finset.mem_range.mp member)]

theorem com_add (u v : ℕ → F) (r s : F) :
    ck.com width u r + ck.com width v s = ck.com width (fun j => u j + v j) (r + s) := by
  simp only [com, add_smul, sum_add_distrib]
  exact add_add_add_comm _ _ _ _

theorem smul_com (k : F) (v : ℕ → F) (r : F) : k • ck.com width v r = ck.com width (fun j => k * v j) (k * r) := by
  simp only [com, smul_add, mul_smul, Finset.smul_sum]

theorem com_zero : ck.com width (fun _ => (0 : F)) 0 = 0 := by simp [com]

theorem sum_smul_com (count : ℕ) (weight : ℕ → F) (v : ℕ → ℕ → F) (r : ℕ → F) :
    ∑ i ∈ Finset.range count, weight i • ck.com width (v i) (r i) =
      ck.com width (fun j => ∑ i ∈ Finset.range count, weight i * v i j)
        (∑ i ∈ Finset.range count, weight i * r i) := by
  induction count with
  | zero => simp [com]
  | succ count ih =>
    rw [Finset.sum_range_succ, ih, smul_com, com_add, Finset.sum_range_succ]
    simp only [Finset.sum_range_succ]

end CommitmentKey

theorem commit_single (ck : CommitmentKey G) (v r : F) (fits : 1 ≤ ck.n) :
    commit ck [v] r = .ok (ck.com 1 (fun _ => v) r) := by
  rw [commit_eq r (by simpa using fits), length_singleton]
  refine congrArg Except.ok (CommitmentKey.com_congr ck 1 r fun j below => ?_)
  rw [Nat.lt_one_iff.mp below]
  rfl

/-- One field of a transcript. Texts and byte strings go in with their length. -/
inductive Absorbed (F G B : Type) where
  | text (s : String)
  | bytes (b : B)
  | scalar (a : F)
  | point (p : G)
  | count (k : ℕ)

/-- SHA-512 and `nonzero_challenge`, as any functions of the transcript and the label. -/
structure Oracle (F G B : Type) [Zero F] where
  digest : List (Absorbed F G B) → B
  challenge : List (Absorbed F G B) → String → {x : F // x ≠ 0}

def pointList {F G B : Type} (points : List G) : List (Absorbed F G B) :=
  .count points.length :: points.map .point

def cipherList {F G B : Type} (ciphers : List (Ciphertext G)) : List (Absorbed F G B) :=
  .count ciphers.length :: ciphers.flatMap fun c => [.point c.c0, .point c.c1]

def requireWitness (ok : Bool) (message : String) : Except PyError Unit :=
  if ok then .ok () else .error (.valueError message)

/-- The `except (AttributeError, IndexError, TypeError, ValueError)` around a verifier's body. -/
def guarded (body : Except PyError Bool) : Except PyError Bool :=
  match body with
  | .ok accepted => .ok accepted
  | .error .typeError | .error .indexError => .ok false
  | .error e => if e.isValueError then .ok false else .error e

theorem ok_bind {α β : Type} (a : α) (f : α → Except PyError β) : (Except.ok a >>= f) = f a := rfl

theorem requireWitness_bind {ok : Bool} (message : String) (holds : ok = true) {β : Type} (f : Unit → Except PyError β) :
    (requireWitness ok message >>= f) = f () := by
  rw [requireWitness, if_pos holds, ok_bind]

end Holdem
