import Holdem.BayerGroth.Zero

/-!
The multi-exponentiation argument inside `bg_shuffle.py`: committed weights turn the output deck into
a public ciphertext, up to an encryption of zero.
-/

set_option linter.unusedSectionVars false

namespace Holdem.BgShuffle

open Finset Folding BgZero ElGamal
open List hiding range mem_range

variable {F G B : Type} [Field F] [DecidableEq F] [AddCommGroup G] [Module F G] [DecidableEq G]

structure MultiExponentiationProof (F G : Type) where
  a0Commit : G
  commitBk : List G
  vectorEk : List (Ciphertext G)
  rBlinded : F
  bBlinded : F
  sBlinded : F
  tauBlinded : F
  aBlinded : List F

structure MultiCoins (F : Type) where
  a0 : ℕ → F
  r0 : F
  b : ℕ → F
  s : ℕ → F
  tau : ℕ → F

def cipherScale (scalar : F) (cipher : Ciphertext G) : Ciphertext G := ⟨mulSafe scalar cipher.c0, mulSafe scalar cipher.c1⟩

theorem cipherScale_eq (scalar : F) (cipher : Ciphertext G) : cipherScale scalar cipher = scalar • cipher := by
  rw [cipherScale, mulSafe_eq, mulSafe_eq]
  rfl

def dotCipher (values : List F) (ciphers : List (Ciphertext G)) : Except PyError (Ciphertext G) :=
  if values.length ≠ ciphers.length then .error (.valueError "dot product lengths differ")
  else .ok (List.zipWith cipherScale values ciphers).sum

def dotScalar (left right : List F) : Except PyError F :=
  if left.length ≠ right.length then .error (.valueError "scalar dot-product lengths differ")
  else .ok (List.zipWith (· * ·) left right).sum

def commitScalars (ck : CommitmentKey G) (values blinders : List F) : Except PyError (List G) :=
  if values.length ≠ blinders.length then .error (.valueError "values and blinders differ in length")
  else (values.zip blinders).mapM fun p => commit ck [p.1] p.2

def multiChallenge (O : Oracle F G B) (statement : B) (aCommits bCommits : List G) (product : Ciphertext G) (a0Commit : G)
    (commitBk : List G) (vectorEk : List (Ciphertext G)) : F :=
  (O.challenge ([.text "poker.bg.shuffle.multi-exponentiation.v1", .bytes statement] ++ pointList aCommits ++
    pointList bCommits ++ [.point product.c0, .point product.c1, .point a0Commit] ++ pointList commitBk ++
    cipherList vectorEk) "").val

/-- Entry `k` of `diagonals` as `_multi_prove` leaves it: entry `0` is inserted in front, and the loop
writes the entries below and above the center. -/
def multiDiagonal (a0 : List F) (A : List (List F)) (C : List (List (Ciphertext G))) (m k : ℕ) :
    Except PyError (Ciphertext G) :=
  if k = 0 then dotCipher a0 (C.getD (C.length - 1) [])
  else if k < m then do
    let distance := m - k
    let additional ← dotCipher a0 (C.getD (distance - 1) [])
    let left ← (List.range' distance (m - distance)).mapM fun i => dotCipher (A.getD (i - distance) []) (C.getD i [])
    .ok (left.sum + additional)
  else if k = m then do
    let center ← (List.range m).mapM fun i => dotCipher (A.getD i []) (C.getD i [])
    .ok center.sum
  else do
    let distance := k - m
    let right ← (List.range' distance (m - distance)).mapM fun i => dotCipher (A.getD i []) (C.getD (i - distance) [])
    .ok right.sum

/-- `_multi_prove`. The mask generator is the point the blinding values are encoded with. -/
def multiProve (R : Backend G) (mask : G) (O : Oracle F G B) (pk : G) (ck : CommitmentKey G) (statement : B)
    (aCommits bCommits : List G) (outChunks : List (List (Ciphertext G))) (A : List (List F)) (blinders : List F)
    (rho : F) (product : Ciphertext G) (m n : ℕ) (coins : MultiCoins F) :
    Except PyError (MultiExponentiationProof F G) := do
  let a0 := (List.range n).map coins.a0
  let bValues := ((List.range (2 * m)).map coins.b).set m 0
  let sValues := ((List.range (2 * m)).map coins.s).set m 0
  let tauValues := ((List.range (2 * m)).map coins.tau).set m rho
  let a0Commit ← commit ck a0 coins.r0
  let commitBk ← commitScalars ck bValues sValues
  let vectorEk ← (List.range (2 * m)).mapM fun k => do
    let masking ← encrypt R pk (mulSafe (bValues.getD k 0) mask) (tauValues.getD k 0)
    let diagonal ← multiDiagonal a0 A outChunks m k
    .ok (masking + diagonal)
  let challengePowers := powers (multiChallenge O statement aCommits bCommits product a0Commit commitBk vectorEk) (2 * m)
  let xArray := (challengePowers.drop 1).take m
  let folded ← dotScalar blinders xArray
  let bBlinded ← dotScalar bValues challengePowers
  let sBlinded ← dotScalar sValues challengePowers
  let tauBlinded ← dotScalar tauValues challengePowers
  .ok { a0Commit := a0Commit, commitBk := commitBk, vectorEk := vectorEk
        rBlinded := coins.r0 + folded, bBlinded := bBlinded, sBlinded := sBlinded, tauBlinded := tauBlinded
        aBlinded := (List.range n).map fun j =>
          a0.getD j 0 + ((List.range m).map fun i => xArray.getD i 0 * entry A i j).sum }

def multiVerify (R : Backend G) (mask : G) (O : Oracle F G B) (pk : G) (ck : CommitmentKey G) (statement : B)
    (aCommits bCommits : List G) (outChunks : List (List (Ciphertext G))) (product : Ciphertext G)
    (proof : MultiExponentiationProof F G) (m n : ℕ) : Except PyError Bool :=
  if aCommits.length ≠ m ∨ bCommits.length ≠ m then .ok false
  else if proof.commitBk.length ≠ 2 * m ∨ proof.vectorEk.length ≠ 2 * m then .ok false
  else if proof.aBlinded.length ≠ n then .ok false
  else do
    let zeroCommit ← commit ck [(0 : F)] 0
    if proof.commitBk.getD m 0 = zeroCommit ∧ proof.vectorEk.getD m 0 = product then do
      let challengePowers := powers (multiChallenge O statement aCommits bCommits product proof.a0Commit proof.commitBk
        proof.vectorEk) (2 * m)
      let xArray := (challengePowers.drop 1).take m
      let cbx ← multiscalarMul xArray bCommits
      let openedA ← commit ck proof.aBlinded proof.rBlinded
      if cbx + proof.a0Commit = openedA then do
        let cbk ← multiscalarMul challengePowers proof.commitBk
        let openedB ← commit ck [proof.bBlinded] proof.sBlinded
        if cbk = openedB then do
          let masking ← encrypt R pk (mulSafe proof.bBlinded mask) proof.tauBlinded
          let rows ← (List.range m).mapM fun i => dotCipher
            (proof.aBlinded.map fun value => challengePowers.getD (m - 1 - i) 0 * value) (outChunks.getD i [])
          let sumE := (List.range (2 * m)).map fun k => cipherScale (challengePowers.getD k 0) (proof.vectorEk.getD k 0)
          .ok (decide (sumE.sum = masking + rows.sum))
        else .ok false
      else .ok false
    else .ok false

section Completeness

variable {m n : ℕ} {A : List (List F)} {C : List (List (Ciphertext G))} {a0 : ℕ → F} {ck : CommitmentKey G} {k : ℕ}

/-- The ciphertext that a vector of weights makes of row `i` of the output deck. -/
def dot (C : List (List (Ciphertext G))) (n : ℕ) (v : ℕ → F) (i : ℕ) : Ciphertext G :=
  ∑ j ∈ range n, v j • (C.getD i []).getD j 0

theorem dotCipher_eq {values : List F} {ciphers : List (Ciphertext G)} (hv : values.length = n)
    (hc : ciphers.length = n) :
    dotCipher values ciphers = .ok (∑ j ∈ range n, values.getD j 0 • ciphers.getD j 0) := by
  rw [dotCipher, if_neg (by rw [hv, hc]; simp), sum_zipWith cipherScale 0 0 hv hc]
  simp only [cipherScale_eq]

theorem dotScalar_eq {left right : ℕ → F} :
    dotScalar ((List.range n).map left) ((List.range n).map right) = .ok (∑ i ∈ range n, left i * right i) := by
  rw [dotScalar, if_neg (by simp), zipWith_map_range, sum_list_range]

theorem commitScalars_eq {values blinders : ℕ → F} (fits : 1 ≤ ck.n) :
    commitScalars ck ((List.range n).map values) ((List.range n).map blinders) =
      .ok ((List.range n).map fun k => ck.com 1 (fun _ => values k) (blinders k)) := by
  rw [commitScalars, if_neg (by simp), List.zip, zipWith_map_range,
    mapM_eq_ok (g := fun p => ck.com 1 (fun _ => p.1) p.2) fun p _ => commit_single _ p.1 p.2 fits, List.map_map]
  rfl

/-- Diagonal `k` of the weights, with the blinding row in front, against the rows of the deck. -/
def band (C : List (List (Ciphertext G))) (m n : ℕ) (A : ℕ → ℕ → F) (k : ℕ) : Ciphertext G :=
  ∑ i ∈ (range m).filter (fun i => m ≤ k + i + 1 ∧ k + i + 1 - m ≤ m), dot C n (A (k + i + 1 - m)) i

theorem sum_range'_eq {M : Type} [AddCommMonoid M] (f : ℕ → M) (start len : ℕ) :
    ((List.range' start len).map f).sum = ∑ t ∈ range len, f (start + t) := by
  rw [range'_eq_map_range, List.map_map, sum_list_range]
  rfl

variable (A C a0) in
theorem band_below (pos : 0 < k) (below : k < m) : band C m n (withFirst a0 (entry A)) k =
    ∑ t ∈ range k, dot C n (entry A t) (m - k + t) + dot C n a0 (m - k - 1) := by
  have members : (range m).filter (fun i => m ≤ k + i + 1 ∧ k + i + 1 - m ≤ m) = Finset.Ico (m - k - 1) m := by
    ext i
    simp only [Finset.mem_filter, mem_range, mem_Ico]
    omega
  rw [band, members, sum_Ico_eq_sum_range, show m - (m - k - 1) = k + 1 by omega, Finset.sum_range_succ']
  congr 1
  · refine sum_congr rfl fun t _ => ?_
    rw [show k + (m - k - 1 + (t + 1)) + 1 - m = t + 1 by omega, show m - k - 1 + (t + 1) = m - k + t by omega]
    rfl
  rw [show k + (m - k - 1 + 0) + 1 - m = 0 by omega]
  rfl

variable (A C a0) in
theorem band_above (above : m ≤ k) : band C m n (withFirst a0 (entry A)) k =
    ∑ t ∈ range (m - (k - m)), dot C n (entry A (k - m + t)) t := by
  have members : (range m).filter (fun i => m ≤ k + i + 1 ∧ k + i + 1 - m ≤ m) = range (m - (k - m)) := by
    ext i
    simp only [Finset.mem_filter, mem_range]
    omega
  rw [band, members]
  refine sum_congr rfl fun t _ => ?_
  rw [show k + t + 1 - m = k - m + t + 1 by omega]
  rfl

theorem multiDiagonal_eq (lenC : C.length = m) (widthA : ∀ i < m, (A.getD i []).length = n)
    (widthC : ∀ i < m, (C.getD i []).length = n) (some : 1 ≤ m) :
    multiDiagonal ((List.range n).map a0) A C m k = .ok (band C m n (withFirst a0 (entry A)) k) := by
  have blind : ∀ i < m, dotCipher ((List.range n).map a0) (C.getD i []) = .ok (dot C n a0 i) := by
    intro i row
    rw [dotCipher_eq (by simp) (widthC i row), dot]
    refine congrArg _ (sum_congr rfl fun j member => ?_)
    rw [getD_map_range _ _ (mem_range.mp member)]
  have weighed : ∀ l < m, ∀ i < m, dotCipher (A.getD l []) (C.getD i []) = .ok (dot C n (entry A l) i) :=
    fun l left i row => dotCipher_eq (widthA l left) (widthC i row)
  rw [multiDiagonal]
  split
  · next first =>
    rw [first, lenC, blind (m - 1) (by omega), band]
    have members : (range m).filter (fun i => m ≤ 0 + i + 1 ∧ 0 + i + 1 - m ≤ m) = {m - 1} := by
      ext i
      simp only [Finset.mem_filter, mem_range, Finset.mem_singleton]
      omega
    rw [members, Finset.sum_singleton, show 0 + (m - 1) + 1 - m = 0 by omega]
    rfl
  next later =>
  split
  · next below =>
    simp only
    rw [blind (m - k - 1) (by omega), ok_bind,
      mapM_eq_ok (g := fun i => dot C n (entry A (i - (m - k))) i) fun i member => by
        have range := List.mem_range'_1.mp member
        exact weighed _ (by omega) _ (by omega),
      ok_bind, sum_range'_eq, band_below A C a0 (by omega) below, show m - (m - k) = k by omega]
    congr 2
    refine sum_congr rfl fun t _ => ?_
    rw [Nat.add_sub_cancel_left]
  next notBelow =>
  split
  · next center =>
    rw [mapM_range_eq_ok (g := fun i => dot C n (entry A i) i) fun i row => weighed i row i row, ok_bind,
      sum_list_range, band_above A C a0 (by omega), center, Nat.sub_self, Nat.sub_zero]
    simp only [Nat.zero_add]
  next above =>
  simp only
  rw [mapM_eq_ok (g := fun i => dot C n (entry A i) (i - (k - m))) fun i member => by
      have range := List.mem_range'_1.mp member
      exact weighed _ (by omega) _ (by omega),
    ok_bind, sum_range'_eq, band_above A C a0 (by omega)]
  refine congrArg _ (sum_congr rfl fun t _ => ?_)
  rw [Nat.add_sub_cancel_left]

theorem sum_smul_cipher (base pk mask : G) (count : ℕ) (weight b t : ℕ → F) :
    ∑ k ∈ range count, weight k • cipher base pk (b k • mask) (t k) =
      cipher base pk ((∑ k ∈ range count, b k * weight k) • mask) (∑ k ∈ range count, t k * weight k) := by
  induction count with
  | zero =>
    ext <;> simp [cipher]
  | succ count ih =>
    simp only [Finset.sum_range_succ]
    rw [ih, smul_cipher, cipher_add, add_smul, smul_smul, mul_comm (weight count), mul_comm (weight count)]

theorem sum_rows (C : List (List (Ciphertext G))) (A : ℕ → ℕ → F) (x : F) : ∑ i ∈ range m, ∑ j ∈ range n,
        (x ^ (m - 1 - i) * ∑ l ∈ range (m + 1), x ^ l * A l j) • (C.getD i []).getD j 0 =
      ∑ k ∈ range (2 * m), x ^ k • band C m n A k := by
  simp only [band]
  rw [sum_bands x (fun l i => dot C n (A l) i)]
  refine sum_congr rfl fun i _ => ?_
  simp only [dot, Finset.smul_sum]
  rw [sum_comm]
  refine sum_congr rfl fun j _ => ?_
  rw [mul_sum, Finset.sum_smul]
  refine sum_congr rfl fun l _ => ?_
  rw [smul_smul]
  congr 1
  ring

/-- The honest proof for challenge `x`. The first message does not depend on `x`. -/
def multiHonest (R : Backend G) (mask pk : G) (ck : CommitmentKey G) (C : List (List (Ciphertext G))) (A : ℕ → ℕ → F)
    (blinders : ℕ → F) (m n : ℕ) (r0 : F) (b s tau : ℕ → F) (x : F) : MultiExponentiationProof F G :=
  { a0Commit := ck.com n (A 0) r0
    commitBk := (List.range (2 * m)).map fun k => ck.com 1 (fun _ => b k) (s k)
    vectorEk := (List.range (2 * m)).map fun k => cipher R.base pk (b k • mask) (tau k) + band C m n A k
    rBlinded := r0 + ∑ i ∈ range m, blinders i * x ^ (i + 1)
    bBlinded := ∑ k ∈ range (2 * m), b k * x ^ k
    sBlinded := ∑ k ∈ range (2 * m), s k * x ^ k
    tauBlinded := ∑ k ∈ range (2 * m), tau k * x ^ k
    aBlinded := (List.range n).map fun j => ∑ l ∈ range (m + 1), x ^ l * A l j }

theorem powers_double (x : F) (some : 1 ≤ m) : powers x (2 * m) = (List.range (2 * m)).map fun i => x ^ i := by
  obtain ⟨k, double⟩ : ∃ k, 2 * m = k + 1 := ⟨2 * m - 1, by omega⟩
  rw [double, powers_eq]

theorem xArray_eq (x : F) (some : 1 ≤ m) :
    ((powers x (2 * m)).drop 1).take m = (List.range m).map fun i => x ^ (i + 1) := by
  rw [powers, drop_succ_cons, drop_zero, powersFrom_eq, ← map_take, take_range, min_eq_left (by omega)]
  simp only [one_mul]

section Verifier

variable {R : Backend G} {mask pk : G} {ck : CommitmentKey G} {A : ℕ → ℕ → F} {blinders : ℕ → F} {r0 : F}
  {b s tau : ℕ → F} {bCommits : List G} {x : F}

theorem folded_weights (lenB : bCommits.length = m)
    (openB : ∀ i < m, bCommits.getD i 0 = ck.com n (A (i + 1)) (blinders i)) :
    multiscalarMul ((List.range m).map fun i => x ^ (i + 1)) bCommits =
      .ok (ck.com n (fun j => ∑ i ∈ range m, x ^ (i + 1) * A (i + 1) j)
        (∑ i ∈ range m, x ^ (i + 1) * blinders i)) := by
  rw [multiscalarMul_eq (n := m) (by simp) lenB, ← CommitmentKey.sum_smul_com]
  refine congrArg _ (sum_congr rfl fun i member => ?_)
  rw [getD_map_range _ _ (mem_range.mp member), openB i (mem_range.mp member)]

theorem folded_values : multiscalarMul ((List.range (2 * m)).map fun k => x ^ k)
        (multiHonest R mask pk ck C A blinders m n r0 b s tau x).commitBk =
      .ok (ck.com 1 (fun _ => ∑ k ∈ range (2 * m), b k * x ^ k) (∑ k ∈ range (2 * m), s k * x ^ k)) := by
  rw [multiscalarMul_eq (n := 2 * m) (by simp) (by simp [multiHonest])]
  have flip : ∀ f : ℕ → F, ∑ k ∈ range (2 * m), f k * x ^ k = ∑ k ∈ range (2 * m), x ^ k * f k :=
    fun f => sum_congr rfl fun k _ => mul_comm _ _
  rw [flip, flip, ← CommitmentKey.sum_smul_com]
  refine congrArg _ (sum_congr rfl fun k member => ?_)
  rw [getD_map_range _ _ (mem_range.mp member), multiHonest, getD_map_range _ _ (mem_range.mp member)]

theorem folded_ciphers :
    ((List.range (2 * m)).map fun k => cipherScale (((List.range (2 * m)).map fun k => x ^ k).getD k 0)
        ((multiHonest R mask pk ck C A blinders m n r0 b s tau x).vectorEk.getD k 0)).sum =
      cipher R.base pk ((∑ k ∈ range (2 * m), b k * x ^ k) • mask) (∑ k ∈ range (2 * m), tau k * x ^ k) +
        ∑ k ∈ range (2 * m), x ^ k • band C m n A k := by
  rw [sum_list_range, ← sum_smul_cipher, ← sum_add_distrib]
  refine sum_congr rfl fun k member => ?_
  rw [getD_map_range _ _ (mem_range.mp member), multiHonest, getD_map_range _ _ (mem_range.mp member),
    cipherScale_eq, smul_add]

theorem rows_eq (widthC : ∀ i < m, (C.getD i []).length = n) : ((List.range m).mapM fun i => dotCipher
        ((multiHonest R mask pk ck C A blinders m n r0 b s tau x).aBlinded.map fun value =>
          ((List.range (2 * m)).map fun k => x ^ k).getD (m - 1 - i) 0 * value) (C.getD i [])) =
      .ok ((List.range m).map fun i => ∑ j ∈ range n,
        (x ^ (m - 1 - i) * ∑ l ∈ range (m + 1), x ^ l * A l j) • (C.getD i []).getD j 0) := by
  refine mapM_range_eq_ok fun i row => ?_
  rw [multiHonest, List.map_map, dotCipher_eq (by simp) (widthC i row)]
  refine congrArg _ (sum_congr rfl fun j member => ?_)
  rw [getD_map_range _ _ (mem_range.mp member), Function.comp_apply, getD_map_range _ _ (by omega)]

theorem multiVerify_honest (O : Oracle F G B) {statement : B} {aCommits : List G} {product : Ciphertext G}
    (total : R.total = true) (some : 1 ≤ m) (pos : 1 ≤ n) (fits : n ≤ ck.n) (lenA : aCommits.length = m)
    (lenB : bCommits.length = m) (widthC : ∀ i < m, (C.getD i []).length = n)
    (openB : ∀ i < m, bCommits.getD i 0 = ck.com n (A (i + 1)) (blinders i)) (zeroB : b m = 0) (zeroS : s m = 0)
    (relation : product = cipher R.base pk 0 (tau m) + band C m n A m)
    {proof : MultiExponentiationProof F G} (honest : proof = multiHonest R mask pk ck C A blinders m n r0 b s tau x)
    (drawn : multiChallenge O statement aCommits bCommits product proof.a0Commit proof.commitBk proof.vectorEk = x) :
    multiVerify R mask O pk ck statement aCommits bCommits C product proof m n = .ok true := by
  have centered : proof.commitBk.getD m 0 = ck.com 1 (fun _ => (0 : F)) 0 ∧ proof.vectorEk.getD m 0 = product := by
    constructor
    · rw [honest, multiHonest, getD_map_range _ _ (by omega), zeroB, zeroS]
    rw [honest, multiHonest, getD_map_range _ _ (by omega), zeroB, zero_smul, relation]
  have openedA : commit ck proof.aBlinded proof.rBlinded =
      .ok (ck.com n (fun j => ∑ l ∈ range (m + 1), x ^ l * A l j)
        (r0 + ∑ i ∈ range m, blinders i * x ^ (i + 1))) := honest ▸ commit_map_range _ _ fits
  have blinded : ck.com n (fun j => ∑ i ∈ range m, x ^ (i + 1) * A (i + 1) j)
        (∑ i ∈ range m, x ^ (i + 1) * blinders i) + proof.a0Commit =
      ck.com n (fun j => ∑ l ∈ range (m + 1), x ^ l * A l j)
        (r0 + ∑ i ∈ range m, blinders i * x ^ (i + 1)) := by
    rw [honest, multiHonest, CommitmentKey.com_add]
    congr 1
    · funext j
      rw [Finset.sum_range_succ', pow_zero, one_mul]
    rw [add_comm]
    exact congrArg _ (sum_congr rfl fun i _ => mul_comm _ _)
  have openedB : commit ck [proof.bBlinded] proof.sBlinded =
      .ok (ck.com 1 (fun _ => ∑ k ∈ range (2 * m), b k * x ^ k) (∑ k ∈ range (2 * m), s k * x ^ k)) :=
    honest ▸ commit_single _ _ _ (by omega)
  have masked : encrypt R pk (mulSafe proof.bBlinded mask) proof.tauBlinded =
      .ok (cipher R.base pk ((∑ k ∈ range (2 * m), b k * x ^ k) • mask)
        (∑ k ∈ range (2 * m), tau k * x ^ k)) := by
    rw [honest, encrypt_total total, mulSafe_eq]
    rfl
  subst honest
  rw [multiVerify, if_neg (by simp [lenA, lenB]), if_neg (by simp [multiHonest]), if_neg (by simp [multiHonest]),
    commit_single _ _ _ (by omega), ok_bind, if_pos centered, drawn]
  simp only
  rw [xArray_eq x some, powers_double x some, folded_weights lenB openB, ok_bind, openedA, ok_bind, if_pos blinded,
    folded_values, ok_bind, openedB, ok_bind, if_pos rfl, masked, ok_bind, rows_eq widthC, ok_bind, folded_ciphers,
    sum_list_range, sum_rows, decide_eq_true rfl]

end Verifier

theorem multi_complete {R : Backend G} (mask : G) {pk : G} (O : Oracle F G B) (statement : B)
    (aCommits bCommits : List G) (blinders : List F) {rho : F} {product : Ciphertext G} (coins : MultiCoins F)
    (total : R.total = true) (some : 1 ≤ m) (pos : 1 ≤ n) (fits : n ≤ ck.n) (lenA : aCommits.length = m)
    (lenB : bCommits.length = m) (lenBlind : blinders.length = m) (lenC : C.length = m)
    (widthA : ∀ i < m, (A.getD i []).length = n) (widthC : ∀ i < m, (C.getD i []).length = n)
    (openB : ∀ i < m, bCommits.getD i 0 = ck.com n (entry A i) (blinders.getD i 0))
    (relation : product = cipher R.base pk 0 rho + ∑ i ∈ range m, dot C n (entry A i) i) :
    ∃ proof, multiProve R mask O pk ck statement aCommits bCommits C A blinders rho product m n coins = .ok proof ∧
      multiVerify R mask O pk ck statement aCommits bCommits C product proof m n = .ok true := by
  let b := Function.update coins.b m 0
  let s := Function.update coins.s m 0
  let tau := Function.update coins.tau m rho
  let first : F → MultiExponentiationProof F G := multiHonest R mask pk ck C (withFirst coins.a0 (entry A))
    (blinders.getD · 0) m n coins.r0 b s tau
  let x := multiChallenge O statement aCommits bCommits product (first 0).a0Commit (first 0).commitBk (first 0).vectorEk
  have center : band C m n (withFirst coins.a0 (entry A)) m = ∑ i ∈ range m, dot C n (entry A i) i := by
    rw [band_above A C coins.a0 (le_refl m), Nat.sub_self, Nat.sub_zero]
    simp only [Nat.zero_add]
  have encrypted : ((List.range (2 * m)).mapM fun k => do
      let masking ← encrypt R pk (mulSafe (((List.range (2 * m)).map b).getD k 0) mask) (((List.range (2 * m)).map tau).getD k 0)
      let diagonal ← multiDiagonal ((List.range n).map coins.a0) A C m k
      .ok (masking + diagonal)) = .ok (first 0).vectorEk := by
    refine mapM_range_eq_ok fun k below => ?_
    rw [getD_map_range _ _ below, getD_map_range _ _ below, encrypt_total total, ok_bind,
      multiDiagonal_eq lenC widthA widthC some, ok_bind, mulSafe_eq]
  have folded : ∀ j < n, ((List.range n).map coins.a0).getD j 0 +
      ((List.range m).map fun i => ((List.range m).map fun i => x ^ (i + 1)).getD i 0 * entry A i j).sum =
      ∑ l ∈ range (m + 1), x ^ l * withFirst coins.a0 (entry A) l j := by
    intro j inside
    rw [getD_map_range _ _ inside, sum_list_range, Finset.sum_range_succ', pow_zero, one_mul, add_comm]
    congr 1
    refine sum_congr rfl fun i member => ?_
    rw [getD_map_range _ _ (mem_range.mp member)]
    rfl
  have blind : blinders = (List.range m).map (blinders.getD · 0) := by
    conv_lhs => rw [eq_map_range blinders 0, lenBlind]
  refine ⟨first x, ?_, ?_⟩
  · simp only [multiProve, set_map_range]
    rw [commit_map_range _ _ fits, ok_bind, commitScalars_eq (by omega), ok_bind, encrypted, ok_bind]
    have drawn : multiChallenge O statement aCommits bCommits product (ck.com n coins.a0 coins.r0)
      ((List.range (2 * m)).map fun k => ck.com 1 (fun _ => b k) (s k)) (first 0).vectorEk = x := rfl
    rw [drawn, xArray_eq x some, powers_double x some, blind, dotScalar_eq, ok_bind, dotScalar_eq, ok_bind, dotScalar_eq,
      ok_bind, dotScalar_eq, ok_bind, map_range_congr folded]
    rfl
  refine multiVerify_honest O total some pos fits lenA lenB widthC (fun i row => openB i row)
    (Function.update_self _ _ _) (Function.update_self _ _ _) ?_ rfl rfl
  rw [relation, center, show tau m = rho from Function.update_self _ _ _]

end Completeness

end Holdem.BgShuffle
