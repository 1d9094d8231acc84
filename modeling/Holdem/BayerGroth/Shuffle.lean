import Holdem.BayerGroth.MultiExp
import Holdem.BayerGroth.Product
import Mathlib.Algebra.Field.ZMod

/-!
The shuffle argument of `bg_shuffle.py`: an output deck is a permuted re-encryption of an input deck.
-/

namespace Holdem.BgShuffle

open Finset CommitmentKey Folding BgZero ElGamal
open List hiding range mem_range

variable {q : ℕ} [Fact q.Prime] {G B : Type} [AddCommGroup G] [Module (ZMod q) G] [DecidableEq G]

structure ShuffleProof (F G : Type) where
  aCommits : List G
  bCommits : List G
  product : BgProduct.ProductProof F G
  multi : MultiExponentiationProof F G

structure Coins (F : Type) where
  aBlinders : ℕ → F
  bBlinders : ℕ → F
  product : BgProduct.Coins F
  multi : MultiCoins F

/-- `[x^1, .., x^count]`. -/
def xPowers (x : ZMod q) (count : ℕ) : List (ZMod q) := powersFrom x 1 count

/-- `_scalar_int`: only a value below the group order is a scalar. -/
def scalarInt (value : ℕ) : Except PyError (ZMod q) :=
  if q ≤ value then .error (.valueError "non-canonical scalar (not reduced below the group order)") else .ok value

def statementContext (O : Oracle (ZMod q) G B) (context : B) (ck : CommitmentKey G) (pk : G)
    (inDeck outDeck : List (Ciphertext G)) (m n : ℕ) : B :=
  O.digest ([.text "poker.bg.shuffle.v1", .bytes context, .point pk, .point ck.H] ++ pointList ck.Gs ++
    [.count m, .count n] ++ cipherList inDeck ++ cipherList outDeck)

def challengeX (O : Oracle (ZMod q) G B) (statement : B) (aCommits : List G) : ZMod q :=
  (O.challenge ([.bytes statement, .text "permutation-commitments"] ++ pointList aCommits) "").val

def challengeYZ (O : Oracle (ZMod q) G B) (statement : B) (aCommits bCommits : List G) : ZMod q × ZMod q :=
  let transcript := [.bytes statement, .text "product-challenges"] ++ pointList aCommits ++ pointList bCommits
  ((O.challenge transcript "y").val, (O.challenge transcript "z").val)

def productContext (O : Oracle (ZMod q) G B) (statement : B) (x y z : ZMod q) : B :=
  O.digest [.text "poker.bg.shuffle.v1|product|", .bytes statement, .scalar x, .scalar y, .scalar z]

def validate (ck : CommitmentKey G) (inDeck outDeck : List (Ciphertext G)) (m n : ℕ) : Except PyError Unit :=
  if m < 2 ∨ n < 2 then .error (.valueError "shuffle dimensions require m,n >= 2")
  else if m * n ≠ inDeck.length ∨ outDeck.length ≠ inDeck.length then
    .error (.valueError "shuffle deck length does not match m*n")
  else if n > ck.n then .error (.valueError "shuffle row width exceeds commitment key")
  else .ok ()

/-- `_chunks`: rows of `n`, the last one perhaps shorter. -/
def chunks {α : Type} (values : List α) (n : ℕ) : List (List α) :=
  (List.range ((values.length + n - 1) / n)).map fun i => (values.drop (i * n)).take n

def claimed (x y z : ZMod q) (count : ℕ) : Except PyError (ZMod q) := do
  let factors ← (List.range count).mapM fun index => do
    let k ← scalarInt (index + 1)
    .ok (y * k + (xPowers x count).getD index 0 - z)
  .ok factors.prod

section Calls

variable (R : Backend G) (mask : G) (O : Oracle (ZMod q) G B) (pk : G) (ck : CommitmentKey G)
  (inDeck outDeck : List (Ciphertext G)) (perm : List ℕ) (scalars : List (ZMod q)) (m n : ℕ) (context : B)

/-- `_prove_unchecked`: the prover without the check of its own witness. -/
def proveUnchecked (coins : Coins (ZMod q)) : Except PyError (ShuffleProof (ZMod q) G) := do
  let statement := statementContext O context ck pk inDeck outDeck m n
  let indices ← (List.range (m * n)).mapM fun i => scalarInt (i + 1)
  let aFlat := perm.map fun source => indices.getD source 0
  let aChunks := chunks aFlat n
  let aBlinders := (List.range m).map coins.aBlinders
  let aCommits ← (aChunks.zip aBlinders).mapM fun p => commit ck p.1 p.2
  let x := challengeX O statement aCommits
  let bFlat := perm.map fun source => (xPowers x (m * n)).getD source 0
  let bChunks := chunks bFlat n
  let bBlinders := (List.range m).map coins.bBlinders
  let bCommits ← (bChunks.zip bBlinders).mapM fun p => commit ck p.1 p.2
  let yz := challengeYZ O statement aCommits bCommits
  let dFlat := List.zipWith (fun a b => yz.1 * a + b - yz.2) aFlat bFlat
  let t := List.zipWith (fun r s => yz.1 * r + s) aBlinders bBlinders
  let dChunks := chunks dFlat n
  let dCommits ← (dChunks.zip t).mapM fun p => commit ck p.1 p.2
  let b ← claimed x yz.1 yz.2 (m * n)
  let product ← BgProduct.prove O ck dCommits dChunks t b (productContext O statement x yz.1 yz.2) coins.product
  let rho := (scalars.zip bFlat).foldl (fun rho p => rho - p.1 * p.2) 0
  let expected ← dotCipher (xPowers x (m * n)) inDeck
  let multi ← multiProve R mask O pk ck statement aCommits bCommits (chunks outDeck n) bChunks bBlinders rho expected m n
    coins.multi
  .ok { aCommits := aCommits, bCommits := bCommits, product := product, multi := multi }

def prove (coins : Coins (ZMod q)) : Except PyError (ShuffleProof (ZMod q) G) := do
  validate ck inDeck outDeck m n
  if perm.length ≠ inDeck.length ∨ perm.insertionSort (· ≤ ·) ≠ List.range inDeck.length then
    .error (.valueError "perm must be a permutation of the deck positions")
  else if scalars.length ≠ inDeck.length then .error (.valueError "scalars must match the deck length")
  else do
    (List.range perm.length).forM fun i => do
      let expected ← reencrypt R pk (inDeck.getD (perm.getD i 0) 0) (scalars.getD i 0)
      if expected = outDeck.getD i 0 then .ok ()
      else .error (.valueError "output deck does not match the shuffle witness")
    proveUnchecked R mask O pk ck inDeck outDeck perm scalars m n context coins

def verify (proof : ShuffleProof (ZMod q) G) : Except PyError Bool := guarded do
  validate ck inDeck outDeck m n
  let statement := statementContext O context ck pk inDeck outDeck m n
  let x := challengeX O statement proof.aCommits
  let yz := challengeYZ O statement proof.aCommits proof.bCommits
  let b ← claimed x yz.1 yz.2 (m * n)
  let shifted := List.zipWith (fun a b => mulSafe yz.1 a + b) proof.aCommits proof.bCommits
  let negZ ← commit ck (List.replicate n (-yz.2)) 0
  let dCommits := shifted.map fun value => value + negZ
  let first ← BgProduct.verify O ck dCommits n b (productContext O statement x yz.1 yz.2) proof.product
  if first then do
    let expected ← dotCipher (xPowers x (m * n)) inDeck
    multiVerify R mask O pk ck statement proof.aCommits proof.bCommits (chunks outDeck n) expected proof.multi m n
  else .ok false

end Calls

section Chunks

variable {m n i : ℕ} {α : Type} {values : List α}

theorem chunks_eq (wide : 2 ≤ n) (len : values.length = m * n) :
    chunks values n = (List.range m).map fun i => (values.drop (i * n)).take n := by
  have count : (m * n + n - 1) / n = m := by
    rw [Nat.add_sub_assoc (by omega), Nat.add_comm, Nat.add_mul_div_right _ _ (by omega),
      Nat.div_eq_of_lt (by omega), Nat.zero_add]
  rw [chunks, len, count]

theorem chunks_getD (wide : 2 ≤ n) (len : values.length = m * n) (row : i < m) :
    (chunks values n).getD i [] = (values.drop (i * n)).take n := by
  rw [chunks_eq wide len, getD_map_range _ _ row]

theorem row_fits (row : i < m) : i * n + n ≤ m * n := by
  calc i * n + n = (i + 1) * n := by ring
    _ ≤ m * n := Nat.mul_le_mul_right n row

theorem chunks_width (wide : 2 ≤ n) (len : values.length = m * n) (row : i < m) :
    ((chunks values n).getD i []).length = n := by
  have fits := row_fits (n := n) row
  rw [chunks_getD wide len row, length_take, length_drop]
  omega

theorem chunks_at (d : α) (wide : 2 ≤ n) (len : values.length = m * n) {j : ℕ}
    (row : i < m) (column : j < n) : ((chunks values n).getD i []).getD j d = values.getD (i * n + j) d := by
  rw [chunks_getD wide len row, getD_eq_getElem?_getD, getElem?_take_of_lt column, getElem?_drop,
    ← getD_eq_getElem?_getD]

theorem chunks_length (wide : 2 ≤ n) (len : values.length = m * n) : (chunks values n).length = m := by
  rw [chunks_eq wide len, length_map, length_range]

theorem commit_chunks {ck : CommitmentKey G} {values : List (ZMod q)} {blinders : ℕ → ZMod q} (wide : 2 ≤ n)
    (fits : n ≤ ck.n) (len : values.length = m * n) :
    (((chunks values n).zip ((List.range m).map blinders)).mapM fun p => commit ck p.1 p.2) =
      .ok ((List.range m).map fun i => ck.com n (entry (chunks values n) i) (blinders i)) := by
  have rows : chunks values n = (List.range m).map fun i => (chunks values n).getD i [] := by
    conv_lhs => rw [eq_map_range (chunks values n) [], chunks_length wide len]
  rw [rows, List.zip, zipWith_map_range, ← rows, mapM_eq_ok (g := fun p => ck.com n (p.1.getD · 0) p.2), List.map_map]
  · rfl
  intro p member
  obtain ⟨i, inside, rfl⟩ := List.mem_map.mp member
  have row := List.mem_range.mp inside
  rw [commit_eq _ (by rw [chunks_width wide len row]; exact fits), chunks_width wide len row]

end Chunks

section Completeness

variable {m n : ℕ} {inDeck outDeck : List (Ciphertext G)} {perm : List ℕ} {scalars : List (ZMod q)} {R : Backend G}
  {pk : G} {aFlat bFlat : List (ZMod q)} {table : List (ZMod q)} {p : ℕ}

theorem xPowers_getD (x : ZMod q) {count i : ℕ} (below : i < count) : (xPowers x count).getD i 0 = x ^ (i + 1) := by
  rw [xPowers, powersFrom_eq, getD_map_range _ _ below, one_mul]

theorem length_xPowers (x : ZMod q) (count : ℕ) : (xPowers x count).length = count := by
  rw [xPowers, powersFrom_eq, length_map, length_range]

theorem scalarInt_ok {value : ℕ} (small : value < q) : scalarInt value = .ok (value : ZMod q) := if_neg (by omega)

theorem claimed_eq (x y z : ZMod q) {count : ℕ} (small : count < q) :
    claimed x y z count = .ok (∏ k ∈ range count, (y * ((k + 1 : ℕ) : ZMod q) + x ^ (k + 1) - z)) := by
  rw [claimed, mapM_range_eq_ok (g := fun k => y * ((k + 1 : ℕ) : ZMod q) + x ^ (k + 1) - z), ok_bind, prod_list_range]
  intro k below
  rw [scalarInt_ok (by omega), ok_bind, xPowers_getD x below]

theorem foldl_sub_mul (l : List (ZMod q × ZMod q)) (start : ZMod q) :
    l.foldl (fun rho p => rho - p.1 * p.2) start = start - (l.map fun p => p.1 * p.2).sum := by
  induction l generalizing start with
  | nil => simp
  | cons p l ih => rw [foldl_cons, ih, List.map_cons, List.sum_cons, sub_sub]

theorem batched_decks (total : R.total = true) (permutes : perm.Perm (List.range (m * n)))
    (shuffled : ∀ i < m * n, reencrypt R pk (inDeck.getD (perm.getD i 0) 0) (scalars.getD i 0) = .ok (outDeck.getD i 0))
    (x : ZMod q) :
    ∑ j ∈ range (m * n), x ^ (j + 1) • inDeck.getD j 0 =
      cipher R.base pk 0 (-∑ p ∈ range (m * n), scalars.getD p 0 * x ^ (perm.getD p 0 + 1)) +
        ∑ p ∈ range (m * n), x ^ (perm.getD p 0 + 1) • outDeck.getD p 0 := by
  have outs : ∀ p ∈ range (m * n), x ^ (perm.getD p 0 + 1) • outDeck.getD p 0 =
      x ^ (perm.getD p 0 + 1) • inDeck.getD (perm.getD p 0) 0 +
        x ^ (perm.getD p 0 + 1) • cipher R.base pk ((0 : ZMod q) • (0 : G)) (scalars.getD p 0) := by
    intro p member
    have out := shuffled p (mem_range.mp member)
    rw [reencrypt_total total] at out
    rw [← Except.ok.inj out, smul_add, smul_zero]
  rw [sum_congr rfl outs, sum_add_distrib, sum_smul_cipher,
    sum_perm permutes fun k => x ^ (k + 1) • inDeck.getD k 0, smul_zero]
  rw [add_left_comm, cipher_add, add_zero, neg_add_cancel]
  have empty : cipher R.base pk 0 (0 : ZMod q) = 0 := by ext <;> simp [cipher]
  rw [empty, add_zero]

section

variable (permutes : perm.Perm (List.range (m * n)))
include permutes

theorem perm_below (below : p < m * n) : perm.getD p 0 < m * n := by
  have long : perm.length = m * n := by rw [permutes.length_eq, length_range]
  rw [getD_eq_getElem _ _ (by omega)]
  exact List.mem_range.mp (permutes.subset (getElem_mem _))

theorem flat_getD (below : p < m * n) :
    (perm.map fun source => table.getD source 0).getD p 0 = table.getD (perm.getD p 0) 0 := by
  rw [map_perm permutes, getD_map_range _ _ below]

theorem flat_length : (perm.map fun source => table.getD source 0).length = m * n := by
  rw [length_map, permutes.length_eq, length_range]

end

theorem shifted_commits (ck : CommitmentKey G) (wide : 2 ≤ n) (lenA : aFlat.length = m * n)
    (lenB : bFlat.length = m * n) (ra rb : ℕ → ZMod q) (y z : ZMod q) :
    ((List.zipWith (fun a b => mulSafe y a + b) ((List.range m).map fun i => ck.com n (entry (chunks aFlat n) i) (ra i))
        ((List.range m).map fun i => ck.com n (entry (chunks bFlat n) i) (rb i))).map
        fun value => value + ck.com n (fun _ => -z) 0) =
      (List.range m).map fun i => ck.com n
        (entry (chunks (List.zipWith (fun a b => y * a + b - z) aFlat bFlat) n) i) (y * ra i + rb i) := by
  have lenD : (List.zipWith (fun a b => y * a + b - z) aFlat bFlat).length = m * n := by
    rw [length_zipWith, lenA, lenB, min_self]
  rw [zipWith_map_range, List.map_map]
  refine map_range_congr fun i row => ?_
  rw [Function.comp_apply, mulSafe_eq, smul_com, com_add, com_add, add_zero]
  refine com_congr ck n _ fun j column => ?_
  have inside : i * n + j < m * n := by
    have := row_fits (n := n) row
    omega
  rw [entry, entry, entry, chunks_at 0 wide lenA row column, chunks_at 0 wide lenB row column,
    chunks_at 0 wide lenD row column, getD_eq_getElem _ _ (by omega), getD_eq_getElem _ _ (by omega),
    getD_eq_getElem _ _ (by omega), getElem_zipWith]
  ring

theorem rows_product (wide : 2 ≤ n) (permutes : perm.Perm (List.range (m * n)))
    (lenA : aFlat.length = m * n) (lenB : bFlat.length = m * n) {x : ZMod q} (y z : ZMod q)
    (atA : ∀ p < m * n, aFlat.getD p 0 = ((perm.getD p 0 + 1 : ℕ) : ZMod q))
    (atB : ∀ p < m * n, bFlat.getD p 0 = x ^ (perm.getD p 0 + 1)) :
    ∏ j ∈ range n, ∏ i ∈ range m,
        entry (chunks (List.zipWith (fun a b => y * a + b - z) aFlat bFlat) n) i j =
      ∏ k ∈ range (m * n), (y * ((k + 1 : ℕ) : ZMod q) + x ^ (k + 1) - z) := by
  have lenD : (List.zipWith (fun a b => y * a + b - z) aFlat bFlat).length = m * n := by
    rw [length_zipWith, lenA, lenB, min_self]
  rw [prod_comm, ← prod_perm permutes fun k => y * ((k + 1 : ℕ) : ZMod q) + x ^ (k + 1) - z, ← prod_rows_flat]
  refine prod_congr rfl fun i row => prod_congr rfl fun j column => ?_
  have inside : i * n + j < m * n := by
    have := row_fits (n := n) (mem_range.mp row)
    have := mem_range.mp column
    omega
  rw [entry, chunks_at 0 wide lenD (mem_range.mp row) (mem_range.mp column), ← atA _ inside, ← atB _ inside,
    getD_eq_getElem _ _ (by omega), getD_eq_getElem _ _ (by omega), getD_eq_getElem _ _ (by omega),
    getElem_zipWith]

omit [Fact (Nat.Prime q)] in
theorem chunks_widths {values : List (ZMod q)} (wide : 2 ≤ n) (len : values.length = m * n) :
    ∀ vec ∈ chunks values n, vec.length = n := by
  intro vec member
  obtain ⟨i, below, rfl⟩ := getElem_of_mem member
  rw [chunks_length wide len] at below
  rw [← getD_eq_getElem _ [] (by rwa [chunks_length wide len])]
  exact chunks_width wide len below

omit [AddCommGroup G] [DecidableEq G] in
theorem validate_ok {ck : CommitmentKey G} (rows : 2 ≤ m) (wide : 2 ≤ n) (fits : n ≤ ck.n)
    (lenIn : inDeck.length = m * n) (lenOut : outDeck.length = m * n) : validate ck inDeck outDeck m n = .ok () := by
  rw [validate, if_neg (by omega), if_neg (by omega), if_neg (by omega)]

theorem insertionSort_perm (permutes : perm.Perm (List.range (m * n))) :
    perm.insertionSort (· ≤ ·) = List.range (m * n) := by
  apply List.Perm.eq_of_pairwise
  · intro a b _ _ left right
    exact Nat.le_antisymm left right
  · exact pairwise_insertionSort _ _
  · exact pairwise_le_range
  exact (perm_insertionSort _ _).trans permutes

/-- For all dimensions, keys, decks, permutations and randomness, and for any nonzero challenges, the
prover does not raise and the verifier accepts what it sent. -/
theorem shuffle_proof_complete (R : Backend G) (mask : G) (O : Oracle (ZMod q) G B) (pk : G) (ck : CommitmentKey G)
    (inDeck outDeck : List (Ciphertext G)) (perm : List ℕ) (scalars : List (ZMod q)) (m n : ℕ) (context : B)
    (coins : Coins (ZMod q)) (total : R.total = true) (rows : 2 ≤ m) (wide : 2 ≤ n) (small : m * n < q)
    (key : n ≤ ck.n) (lenIn : inDeck.length = m * n) (lenOut : outDeck.length = m * n)
    (permutes : perm.Perm (List.range (m * n))) (lenScalars : scalars.length = m * n)
    (shuffled : ∀ i < m * n,
      reencrypt R pk (inDeck.getD (perm.getD i 0) 0) (scalars.getD i 0) = .ok (outDeck.getD i 0)) :
    ∃ proof, prove R mask O pk ck inDeck outDeck perm scalars m n context coins = .ok proof ∧
      verify R mask O pk ck inDeck outDeck m n context proof = .ok true := by
  have long : perm.length = m * n := by rw [permutes.length_eq, length_range]
  generalize statementEq : statementContext O context ck pk inDeck outDeck m n = statement
  -- the first commitments and their challenge
  let aFlat := perm.map fun source => ((List.range (m * n)).map fun i => ((i + 1 : ℕ) : ZMod q)).getD source 0
  have lenA : aFlat.length = m * n := flat_length permutes
  have atA : ∀ p < m * n, aFlat.getD p 0 = ((perm.getD p 0 + 1 : ℕ) : ZMod q) := fun p below => by
    rw [flat_getD permutes below, getD_map_range _ _ (perm_below permutes below)]
  let aCommits := (List.range m).map fun i => ck.com n (entry (chunks aFlat n) i) (coins.aBlinders i)
  generalize xEq : challengeX O statement aCommits = x
  -- the second commitments and their challenges
  let bFlat := perm.map fun source => (xPowers x (m * n)).getD source 0
  have lenB : bFlat.length = m * n := flat_length permutes
  have atB : ∀ p < m * n, bFlat.getD p 0 = x ^ (perm.getD p 0 + 1) := fun p below => by
    rw [flat_getD permutes below, xPowers_getD x (perm_below permutes below)]
  let bCommits := (List.range m).map fun i => ck.com n (entry (chunks bFlat n) i) (coins.bBlinders i)
  generalize yzEq : challengeYZ O statement aCommits bCommits = yz
  -- the product argument
  let dFlat := List.zipWith (fun a b => yz.1 * a + b - yz.2) aFlat bFlat
  have lenD : dFlat.length = m * n := by rw [length_zipWith, lenA, lenB, min_self]
  let t := fun i => yz.1 * coins.aBlinders i + coins.bBlinders i
  let dCommits := (List.range m).map fun i => ck.com n (entry (chunks dFlat n) i) (t i)
  obtain ⟨product, proveP, verifyP⟩ := BgProduct.complete dCommits (chunks dFlat n) ((List.range m).map t) O (productContext O statement x yz.1 yz.2) coins.product (chunks_length wide lenD)
    (by simp [dCommits]) (by simp) rows wide key (chunks_widths wide lenD)
    (fun i row => by rw [getD_map_range _ _ row, getD_map_range _ _ row])
    (rows_product wide permutes lenA lenB yz.1 yz.2 atA atB)
  -- the multi-exponentiation
  let rho := -∑ p ∈ range (m * n), scalars.getD p 0 * x ^ (perm.getD p 0 + 1)
  have expected : dotCipher (xPowers x (m * n)) inDeck =
      .ok (∑ j ∈ range (m * n), x ^ (j + 1) • inDeck.getD j 0) := by
    rw [dotCipher_eq (length_xPowers x _) lenIn]
    exact congrArg _ (sum_congr rfl fun j member => by rw [xPowers_getD x (mem_range.mp member)])
  have relation : ∑ j ∈ range (m * n), x ^ (j + 1) • inDeck.getD j 0 = cipher R.base pk 0 rho +
      ∑ i ∈ range m, dot (chunks outDeck n) n (entry (chunks bFlat n) i) i := by
    rw [batched_decks total permutes shuffled,
      ← sum_rows_flat fun p => x ^ (perm.getD p 0 + 1) • outDeck.getD p 0]
    refine congrArg _ (sum_congr rfl fun i row => sum_congr rfl fun j column => ?_)
    have here := mem_range.mp row
    have there := mem_range.mp column
    rw [entry, chunks_at 0 wide lenB here there, chunks_at 0 wide lenOut here there,
      atB _ (by have := row_fits (n := n) here; omega)]
  obtain ⟨multi, proveM, verifyM⟩ := multi_complete mask O statement aCommits bCommits
    ((List.range m).map coins.bBlinders) coins.multi total
    (by omega) (by omega) key (by simp [aCommits]) (by simp [bCommits]) (by simp) (chunks_length wide lenOut)
    (fun i row => chunks_width wide lenB row) (fun i row => chunks_width wide lenOut row)
    (fun i row => by rw [getD_map_range _ _ row, getD_map_range _ _ row]) relation
  refine ⟨⟨aCommits, bCommits, product, multi⟩, ?_, ?_⟩
  · have checks : ((List.range perm.length).forM fun i => do
        let expected ← reencrypt R pk (inDeck.getD (perm.getD i 0) 0) (scalars.getD i 0)
        if expected = outDeck.getD i 0 then Except.ok ()
        else .error (.valueError "output deck does not match the shuffle witness")) = .ok () :=
      forM_eq_ok fun i member => by
        rw [long] at member
        rw [shuffled i (List.mem_range.mp member), ok_bind, if_pos rfl]
    have indices : ((List.range (m * n)).mapM fun i => scalarInt (i + 1)) =
        .ok ((List.range (m * n)).map fun i => ((i + 1 : ℕ) : ZMod q)) :=
      mapM_range_eq_ok fun i below => scalarInt_ok (by omega)
    have rhoEq : (scalars.zip bFlat).foldl (fun rho p => rho - p.1 * p.2) 0 = rho := by
      rw [foldl_sub_mul, zero_sub, List.zip, map_zipWith,
        sum_zipWith (n := m * n) (fun s b => s * b) 0 0 lenScalars lenB]
      exact congrArg _ (sum_congr rfl fun p member => by rw [atB p (mem_range.mp member)])
    rw [prove, validate_ok rows wide key lenIn lenOut, ok_bind, if_neg (by simp [long, lenIn, insertionSort_perm permutes]),
      if_neg (by omega), checks, ok_bind, proveUnchecked]
    simp only [statementEq]
    rw [indices, ok_bind, commit_chunks wide key lenA, ok_bind, xEq, commit_chunks wide key lenB, ok_bind, yzEq,
      zipWith_map_range, commit_chunks wide key lenD, ok_bind, claimed_eq _ _ _ small, ok_bind, proveP, ok_bind, rhoEq,
      expected, ok_bind, proveM, ok_bind]
  have negZ : commit ck (List.replicate n (-yz.2)) 0 = .ok (ck.com n (fun _ => -yz.2) 0) := by
    have flat : List.replicate n (-yz.2) = (List.range n).map fun _ => -yz.2 := by simp
    rw [flat, commit_map_range _ _ key]
  rw [verify, validate_ok rows wide key lenIn lenOut, ok_bind]
  simp only [statementEq, xEq, yzEq]
  rw [claimed_eq _ _ _ small, ok_bind, negZ, ok_bind, shifted_commits ck wide lenA lenB, verifyP, ok_bind, if_pos rfl,
    expected, ok_bind, verifyM, guarded]

local instance prime_five : Fact (Nat.Prime 5) := ⟨by decide⟩

def fixedCoins : Coins (ZMod 5) :=
  ⟨fun i => i, fun i => i + 1, ⟨2, ⟨fun i => i, ⟨fun i => i, fun _ => 3, 1, 4, fun i => i⟩⟩, ⟨fun i => i, 1, fun _ => 2, 3, 4⟩⟩,
    ⟨fun i => i, 2, fun i => i, fun _ => 1, fun i => i⟩⟩

def fixedOracle : Oracle (ZMod 5) (ZMod 5) Unit := ⟨fun _ => (), fun _ _ => ⟨2, by decide⟩⟩

theorem shuffle_proof_complete_four :
    ∃ proof, prove ⟨1, true⟩ 4 fixedOracle 3 ⟨2, [1, 4]⟩ [⟨1, 2⟩, ⟨0, 4⟩, ⟨0, 0⟩, ⟨2, 2⟩] [⟨1, 2⟩, ⟨3, 3⟩, ⟨0, 1⟩, ⟨4, 2⟩]
        [1, 0, 3, 2] [1, 2, 3, 4] 2 2 () fixedCoins = .ok proof ∧
      verify ⟨1, true⟩ 4 fixedOracle 3 ⟨2, [1, 4]⟩ [⟨1, 2⟩, ⟨0, 4⟩, ⟨0, 0⟩, ⟨2, 2⟩] [⟨1, 2⟩, ⟨3, 3⟩, ⟨0, 1⟩, ⟨4, 2⟩]
        2 2 () proof = .ok true := by
  refine shuffle_proof_complete _ _ _ _ _ _ _ _ _ _ _ _ _ rfl ?_ ?_ ?_ ?_ rfl rfl ?_ rfl ?_
  all_goals decide +kernel

end Completeness

end Holdem.BgShuffle
