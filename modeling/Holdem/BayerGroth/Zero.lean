import Holdem.Crypto.Group

/-!
The zero argument of `bg_zero.py`: committed vectors `a_1 .. a_m` and `b_0 .. b_(m-1)` satisfy
`0 = sum a_i * b_(i-1)` for a public bilinear map.
-/

set_option linter.unusedSectionVars false

namespace Holdem.BgZero

open Finset CommitmentKey Folding
open List hiding range mem_range

variable {F G B : Type} [Field F] [DecidableEq F] [AddCommGroup G] [Module F G] [DecidableEq G]

structure BilinearMap (F : Type) [Zero F] where
  coefficients : List F
  nonempty : coefficients ≠ []
  nonzero : ∀ c ∈ coefficients, c ≠ 0

namespace BilinearMap

def n (bmap : BilinearMap F) : ℕ := bmap.coefficients.length

/-- `BilinearMap.from_challenge`: the coefficients `y^1 .. y^n`. -/
def fromChallenge (y : F) (n : ℕ) : Except PyError (BilinearMap F) :=
  if empty : n < 1 then .error (.valueError "bilinear map needs n >= 1")
  else if zero : y = 0 then .error (.valueError "bilinear map challenge y must be nonzero")
  else .ok {
    coefficients := powersFrom y 1 n
    nonempty := by
      rw [powersFrom_eq]
      simp
      omega
    nonzero := by
      intro c member
      rw [powersFrom_eq] at member
      obtain ⟨i, -, rfl⟩ := List.mem_map.mp member
      exact mul_ne_zero one_ne_zero (pow_ne_zero _ zero) }

def evaluate (bmap : BilinearMap F) (u v : List F) : Except PyError F :=
  if u.length ≠ bmap.n ∨ v.length ≠ bmap.n then .error (.valueError "bilinear map applied to wrong-width vectors")
  else .ok ((List.range bmap.n).map fun j => bmap.coefficients.getD j 0 * (u.getD j 0 * v.getD j 0)).sum

def pair (bmap : BilinearMap F) (u v : ℕ → F) : F :=
  ∑ j ∈ range bmap.n, bmap.coefficients.getD j 0 * (u j * v j)

theorem evaluate_eq {bmap : BilinearMap F} {u v : List F} (hu : u.length = bmap.n) (hv : v.length = bmap.n) :
    bmap.evaluate u v = .ok (bmap.pair (u.getD · 0) (v.getD · 0)) := by
  rw [evaluate, if_neg (by simp [hu, hv]), sum_list_range, pair]

theorem pair_congr {bmap : BilinearMap F} {u u' v v' : ℕ → F} (hu : ∀ j < bmap.n, u j = u' j)
    (hv : ∀ j < bmap.n, v j = v' j) : bmap.pair u v = bmap.pair u' v' :=
  sum_congr rfl fun j member => by
    rw [hu j (mem_range.mp member), hv j (mem_range.mp member)]

theorem pair_sums (bmap : BilinearMap F) (p q : ℕ) (wu wv : ℕ → F) (u v : ℕ → ℕ → F) :
    bmap.pair (fun j => ∑ i ∈ range p, wu i * u i j) (fun j => ∑ i ∈ range q, wv i * v i j) =
      ∑ i ∈ range p, ∑ k ∈ range q, wu i * wv k * bmap.pair (u i) (v k) := by
  have spread : ∀ j, bmap.coefficients.getD j 0 * ((∑ i ∈ range p, wu i * u i j) * ∑ k ∈ range q, wv k * v k j) =
      ∑ i ∈ range p, ∑ k ∈ range q, wu i * wv k * (bmap.coefficients.getD j 0 * (u i j * v k j)) := by
    intro j
    rw [sum_mul_sum, mul_sum]
    refine sum_congr rfl fun i _ => ?_
    rw [mul_sum]
    refine sum_congr rfl fun k _ => ?_
    ring
  rw [pair, sum_congr rfl fun j _ => spread j, sum_comm]
  refine sum_congr rfl fun i _ => ?_
  rw [sum_comm]
  refine sum_congr rfl fun k _ => ?_
  rw [pair, mul_sum]

end BilinearMap

structure ZeroProof (F G : Type) where
  cA0 : G
  cBm : G
  cD : List G
  aTilde : List F
  bTilde : List F
  rTilde : F
  sTilde : F
  tTilde : F

structure Coins (F : Type) where
  a0 : ℕ → F
  bm : ℕ → F
  r0 : F
  sm : F
  t : ℕ → F

def challenge (O : Oracle F G B) (ck : CommitmentKey G) (n m : ℕ) (bmap : BilinearMap F) (context : B)
    (cA cB : List G) (cA0 cBm : G) (cD : List G) : F :=
  (O.challenge ([.text "poker.bg.zero.v1", .count 1, .point ck.H] ++ pointList ck.Gs ++ [.count n, .count m] ++
    bmap.coefficients.map .scalar ++ [.bytes context] ++ pointList cA ++ pointList cB ++
    [.point cA0, .point cBm] ++ pointList cD) "").val

def powers (x : F) (count : ℕ) : List F := 1 :: powersFrom x 1 (count - 1)

theorem powers_eq (x : F) (count : ℕ) : powers x (count + 1) = (List.range (count + 1)).map fun i => x ^ i := by
  rw [powers, powersFrom_eq, Nat.add_sub_cancel, range_succ_eq_map, List.map_cons, List.map_map]
  simp [Function.comp_def]

def entry (vectors : List (List F)) (i j : ℕ) : F := (vectors.getD i []).getD j 0

def foldVectors (vectors : List (List F)) (weights : List F) (n : ℕ) : List F :=
  (List.range n).map fun j => (List.zipWith (fun vec w => w * vec.getD j 0) vectors weights).sum

def foldScalars (values weights : List F) : F := (List.zipWith (fun v w => w * v) values weights).sum

def diagonals (A C : List (List F)) (m : ℕ) (bmap : BilinearMap F) : Except PyError (List F) :=
  (List.range (2 * m + 1)).mapM fun k => do
    let terms ← ((List.range (m + 1)).filter fun i => k ≤ m + i ∧ m + i - k ≤ m).mapM fun i =>
      bmap.evaluate (A.getD i []) (C.getD (m + i - k) [])
    return terms.sum

def checkOpening (ck : CommitmentKey G) (family : String) (c : List G) (vectors : List (List F)) (blinders : List F)
    (idx : ℕ) : Except PyError Unit := do
  let opened ← commit ck (vectors.getD idx []) (blinders.getD idx 0)
  if opened = c.getD idx 0 then .ok ()
  else .error (.valueError s!"{family}[{idx}] does not open to its vector")

def prove (O : Oracle F G B) (ck : CommitmentKey G) (cA : List G) (a : List (List F)) (r : List F) (cB : List G)
    (b : List (List F)) (s : List F) (bmap : BilinearMap F) (context : B) (coins : Coins F) :
    Except PyError (ZeroProof F G) :=
  let m := a.length
  let n := bmap.n
  if m < 1 then .error (.valueError "zero argument requires m >= 1")
  else if n < 1 then .error (.valueError "zero argument requires n >= 1")
  else if n > ck.n then .error (.valueError s!"vector wider than commitment key: {n} > {ck.n}")
  else if ¬(cA.length = m ∧ r.length = m) then .error (.valueError "c_A, a and r must all have length m")
  else if ¬(cB.length = m ∧ b.length = m ∧ s.length = m) then
    .error (.valueError "c_B, b and s must all have length m")
  else if ¬∀ vec ∈ a ++ b, vec.length = n then .error (.valueError "every witness vector must have length n")
  else do
    (List.range m).forM fun idx => do
      checkOpening ck "c_A" cA a r idx
      checkOpening ck "c_B" cB b s idx
    let A := (List.range n).map coins.a0 :: a
    let C := b ++ [(List.range n).map coins.bm]
    let d ← diagonals A C m bmap
    requireWitness (decide (d.getD (m + 1) 0 = 0)) "witness does not satisfy sum a_i * b_(i-1) == 0"
    let cA0 ← commit ck ((List.range n).map coins.a0) coins.r0
    let cBm ← commit ck ((List.range n).map coins.bm) coins.sm
    let t := ((List.range (2 * m + 1)).map coins.t).set (m + 1) 0
    let cD ← (List.range (2 * m + 1)).mapM fun k => commit ck [d.getD k 0] (t.getD k 0)
    let x := challenge O ck n m bmap context cA cB cA0 cBm cD
    let xs := powers x (2 * m + 1)
    let aWeights := xs.take (m + 1)
    let bWeights := (List.range (m + 1)).map fun j => xs.getD (m - j) 0
    return { cA0 := cA0, cBm := cBm, cD := cD
             aTilde := foldVectors A aWeights n
             bTilde := foldVectors C bWeights n
             rTilde := foldScalars (coins.r0 :: r) aWeights
             sTilde := foldScalars (s ++ [coins.sm]) bWeights
             tTilde := foldScalars t xs }

def checkEquations (ck : CommitmentKey G) (cA cB : List G) (bmap : BilinearMap F) (proof : ZeroProof F G) (x : F) :
    Except PyError Bool := do
  let m := cA.length
  let xs := powers x (2 * m + 1)
  let foldedA ← multiscalarMul (xs.take (m + 1)) (proof.cA0 :: cA)
  let openedA ← commit ck proof.aTilde proof.rTilde
  if foldedA = openedA then do
    let foldedB ← multiscalarMul ((List.range (m + 1)).map fun j => xs.getD (m - j) 0) (cB ++ [proof.cBm])
    let openedB ← commit ck proof.bTilde proof.sTilde
    if foldedB = openedB then
      match bmap.evaluate proof.aTilde proof.bTilde with
      | .error _ => .ok false
      | .ok paired => do
        let foldedD ← multiscalarMul xs proof.cD
        let openedD ← commit ck [paired] proof.tTilde
        .ok (decide (foldedD = openedD))
    else .ok false
  else .ok false

def verify (O : Oracle F G B) (ck : CommitmentKey G) (cA cB : List G) (bmap : BilinearMap F) (context : B)
    (proof : ZeroProof F G) : Except PyError Bool :=
  let m := cA.length
  let n := bmap.n
  if m < 1 ∨ n < 1 ∨ n > ck.n then .ok false
  else if cB.length ≠ m then .ok false
  else if proof.cD.length ≠ 2 * m + 1 then .ok false
  else if proof.aTilde.length ≠ n ∨ proof.bTilde.length ≠ n then .ok false
  else if proof.cD.getD (m + 1) 0 ≠ 0 then .ok false
  else checkEquations ck cA cB bmap proof (challenge O ck n m bmap context cA cB proof.cA0 proof.cBm proof.cD)

section Completeness

variable {m n : ℕ} {i j : ℕ}

def withFirst (first : ℕ → F) (rest : ℕ → ℕ → F) : ℕ → ℕ → F
  | 0 => first
  | i + 1 => rest i

def withLast (m : ℕ) (rest : ℕ → ℕ → F) (last : ℕ → F) (i : ℕ) : ℕ → F := if i < m then rest i else last

theorem entry_cons (coins : Coins F) (a : List (List F)) (inside : j < n) :
    entry ((List.range n).map coins.a0 :: a) i j = withFirst coins.a0 (entry a) i j := by
  cases i with
  | zero => rw [entry, getD_cons_zero, getD_map_range _ _ inside, withFirst]
  | succ i => rw [entry, getD_cons_succ, withFirst, entry]

theorem entry_append (coins : Coins F) {b : List (List F)} (len : b.length = m) (row : i < m + 1)
    (inside : j < n) : entry (b ++ [(List.range n).map coins.bm]) i j = withLast m (entry b) coins.bm i j := by
  by_cases before : i < m
  · rw [entry, getD_append _ _ _ _ (by omega), withLast, if_pos before, entry]
  rw [entry, getD_append_right _ _ _ _ (by omega), show i - b.length = 0 by omega, getD_cons_zero,
    getD_map_range _ _ inside, withLast, if_neg before]

def diagonal (bmap : BilinearMap F) (m : ℕ) (A C : ℕ → ℕ → F) (k : ℕ) : F :=
  ∑ i ∈ (range (m + 1)).filter (fun i => k ≤ m + i ∧ m + i - k ≤ m), bmap.pair (A i) (C (m + i - k))

theorem diagonal_next (bmap : BilinearMap F) (A C : ℕ → ℕ → F) (m : ℕ) :
    diagonal bmap m A C (m + 1) = ∑ i ∈ range m, bmap.pair (A (i + 1)) (C i) := by
  have members : (range (m + 1)).filter (fun i => m + 1 ≤ m + i ∧ m + i - (m + 1) ≤ m) =
      (range m).map ⟨Nat.succ, Nat.succ_injective⟩ := by
    ext i
    simp only [Finset.mem_filter, mem_range, Finset.mem_map, Function.Embedding.coeFn_mk]
    constructor
    · intro h
      exact ⟨i - 1, by omega, by omega⟩
    rintro ⟨k, below, rfl⟩
    omega
  rw [diagonal, members, sum_map]
  refine sum_congr rfl fun i _ => ?_
  rw [Function.Embedding.coeFn_mk, Nat.succ_eq_add_one, show m + (i + 1) - (m + 1) = i by omega]

/-- The honest proof for challenge `x`. The first message does not depend on `x`. -/
def honest (ck : CommitmentKey G) (bmap : BilinearMap F) (m : ℕ) (A C : ℕ → ℕ → F) (rA sB t : ℕ → F) (x : F) :
    ZeroProof F G :=
  { cA0 := ck.com bmap.n (A 0) (rA 0)
    cBm := ck.com bmap.n (C m) (sB m)
    cD := (List.range (2 * m + 1)).map fun k => ck.com 1 (fun _ => diagonal bmap m A C k) (t k)
    aTilde := (List.range bmap.n).map fun j => ∑ i ∈ range (m + 1), x ^ i * A i j
    bTilde := (List.range bmap.n).map fun j => ∑ i ∈ range (m + 1), x ^ (m - i) * C i j
    rTilde := ∑ i ∈ range (m + 1), x ^ i * rA i
    sTilde := ∑ i ∈ range (m + 1), x ^ (m - i) * sB i
    tTilde := ∑ k ∈ range (2 * m + 1), x ^ k * t k }

theorem powers_getD (x : F) {k i : ℕ} (below : i < k + 1) : (powers x (k + 1)).getD i 0 = x ^ i := by
  rw [powers_eq, getD_map_range _ _ below]

theorem powers_take (x : F) (m : ℕ) : (powers x (2 * m + 1)).take (m + 1) = (List.range (m + 1)).map fun i => x ^ i := by
  rw [powers_eq, ← map_take, take_range, min_eq_left (by omega)]

theorem bWeights_eq (x : F) (m : ℕ) : ((List.range (m + 1)).map fun j => (powers x (2 * m + 1)).getD (m - j) 0) =
      (List.range (m + 1)).map fun j => x ^ (m - j) :=
  map_range_congr fun j _ => powers_getD x (by omega)

section Equations

variable {ck : CommitmentKey G} {bmap : BilinearMap F} {cA cB : List G} {A C : ℕ → ℕ → F} {rA sB t : ℕ → F}

theorem fold_first (lenA : cA.length = m) (openA : ∀ i < m, cA.getD i 0 = ck.com bmap.n (A (i + 1)) (rA (i + 1)))
    (x : F) : multiscalarMul ((powers x (2 * m + 1)).take (m + 1)) ((honest ck bmap m A C rA sB t x).cA0 :: cA) =
      .ok (ck.com bmap.n (fun j => ∑ i ∈ range (m + 1), x ^ i * A i j)
        (∑ i ∈ range (m + 1), x ^ i * rA i)) := by
  rw [powers_take, multiscalarMul_eq (n := m + 1) (by simp) (by simp [lenA]), ← sum_smul_com]
  apply congrArg Except.ok
  refine sum_congr rfl fun i member => ?_
  have below := mem_range.mp member
  rw [getD_map_range _ _ below]
  cases i with
  | zero => rfl
  | succ i => rw [getD_cons_succ, openA i (by omega)]

theorem fold_second (lenB : cB.length = m) (openB : ∀ i < m, cB.getD i 0 = ck.com bmap.n (C i) (sB i)) (x : F) :
    multiscalarMul ((List.range (m + 1)).map fun j => (powers x (2 * m + 1)).getD (m - j) 0)
        (cB ++ [(honest ck bmap m A C rA sB t x).cBm]) =
      .ok (ck.com bmap.n (fun j => ∑ i ∈ range (m + 1), x ^ (m - i) * C i j)
        (∑ i ∈ range (m + 1), x ^ (m - i) * sB i)) := by
  rw [bWeights_eq, multiscalarMul_eq (n := m + 1) (by simp) (by simp [lenB]), ← sum_smul_com]
  apply congrArg Except.ok
  refine sum_congr rfl fun i member => ?_
  have below := mem_range.mp member
  rw [getD_map_range _ _ below]
  by_cases before : i < m
  · rw [getD_append _ _ _ _ (by omega), openB i before]
  rw [getD_append_right _ _ _ _ (by omega), show i - cB.length = 0 by omega, getD_cons_zero, honest,
    show i = m by omega]

theorem fold_third (x : F) : multiscalarMul (powers x (2 * m + 1)) (honest ck bmap m A C rA sB t x).cD =
      .ok (ck.com 1 (fun _ => ∑ k ∈ range (2 * m + 1), x ^ k * diagonal bmap m A C k)
        (∑ k ∈ range (2 * m + 1), x ^ k * t k)) := by
  rw [powers_eq, multiscalarMul_eq (n := 2 * m + 1) (by simp) (by simp [honest]), ← sum_smul_com]
  apply congrArg Except.ok
  refine sum_congr rfl fun k member => ?_
  rw [getD_map_range _ _ (mem_range.mp member), honest, getD_map_range _ _ (mem_range.mp member)]

theorem pair_folded (x : F) : bmap.pair (fun j => ∑ i ∈ range (m + 1), x ^ i * A i j)
        (fun j => ∑ i ∈ range (m + 1), x ^ (m - i) * C i j) =
      ∑ k ∈ range (2 * m + 1), x ^ k * diagonal bmap m A C k := by
  rw [BilinearMap.pair_sums, ← sum_diagonals x (fun i j => bmap.pair (A i) (C j))]
  rfl

theorem checkEquations_honest (lenA : cA.length = m) (lenB : cB.length = m) (fits : bmap.n ≤ ck.n) (pos : 1 ≤ bmap.n)
    (openA : ∀ i < m, cA.getD i 0 = ck.com bmap.n (A (i + 1)) (rA (i + 1)))
    (openB : ∀ i < m, cB.getD i 0 = ck.com bmap.n (C i) (sB i)) (x : F) :
    checkEquations ck cA cB bmap (honest ck bmap m A C rA sB t x) x = .ok true := by
  have openedA : commit ck (honest ck bmap m A C rA sB t x).aTilde (honest ck bmap m A C rA sB t x).rTilde =
      .ok (ck.com bmap.n (fun j => ∑ i ∈ range (m + 1), x ^ i * A i j)
        (∑ i ∈ range (m + 1), x ^ i * rA i)) := commit_map_range _ _ fits
  have openedB : commit ck (honest ck bmap m A C rA sB t x).bTilde (honest ck bmap m A C rA sB t x).sTilde =
      .ok (ck.com bmap.n (fun j => ∑ i ∈ range (m + 1), x ^ (m - i) * C i j)
        (∑ i ∈ range (m + 1), x ^ (m - i) * sB i)) := commit_map_range _ _ fits
  have paired : bmap.evaluate (honest ck bmap m A C rA sB t x).aTilde (honest ck bmap m A C rA sB t x).bTilde =
      .ok (∑ k ∈ range (2 * m + 1), x ^ k * diagonal bmap m A C k) := by
    rw [BilinearMap.evaluate_eq (by simp [honest]) (by simp [honest]), ← pair_folded]
    exact congrArg _ (BilinearMap.pair_congr (fun j below => getD_map_range _ _ below)
      fun j below => getD_map_range _ _ below)
  have openedD := commit_single ck (∑ k ∈ range (2 * m + 1), x ^ k * diagonal bmap m A C k)
    (∑ k ∈ range (2 * m + 1), x ^ k * t k) (by omega)
  simp only [checkEquations, lenA]
  rw [fold_first lenA openA, ok_bind, openedA, ok_bind, if_pos rfl, fold_second lenB openB, ok_bind, openedB,
    ok_bind, if_pos rfl, paired]
  simp only
  rw [fold_third, ok_bind]
  have last : (honest ck bmap m A C rA sB t x).tTilde = ∑ k ∈ range (2 * m + 1), x ^ k * t k := rfl
  rw [last, openedD, ok_bind, decide_eq_true rfl]

theorem verify_honest (O : Oracle F G B) (context : B) (lenA : cA.length = m) (lenB : cB.length = m) (some : 1 ≤ m)
    (fits : bmap.n ≤ ck.n) (pos : 1 ≤ bmap.n)
    (openA : ∀ i < m, cA.getD i 0 = ck.com bmap.n (A (i + 1)) (rA (i + 1)))
    (openB : ∀ i < m, cB.getD i 0 = ck.com bmap.n (C i) (sB i)) (forced : t (m + 1) = 0)
    (zero : diagonal bmap m A C (m + 1) = 0) {x : F}
    (drawn : challenge O ck bmap.n m bmap context cA cB (honest ck bmap m A C rA sB t x).cA0
      (honest ck bmap m A C rA sB t x).cBm (honest ck bmap m A C rA sB t x).cD = x) :
    verify O ck cA cB bmap context (honest ck bmap m A C rA sB t x) = .ok true := by
  have identity : (honest ck bmap m A C rA sB t x).cD.getD (m + 1) 0 = 0 := by
    rw [honest, getD_map_range _ _ (by omega), zero, forced, com_zero]
  simp only [verify, lenA, drawn]
  rw [if_neg (by omega), if_neg (by simp [lenB]), if_neg (by simp [honest]), if_neg (by simp [honest]),
    if_neg (not_not_intro identity), checkEquations_honest lenA lenB fits pos openA openB]

end Equations

section Prover

variable {ck : CommitmentKey G} {bmap : BilinearMap F} {cA cB : List G} {a b : List (List F)} {r s : List F}
  {vectors : List (List F)} {w : ℕ → F}

theorem checkOpening_ok {family : String} {c : List G} {blinders : List F} {idx : ℕ}
    (width : (vectors.getD idx []).length = n) (fits : n ≤ ck.n)
    (opens : c.getD idx 0 = ck.com n (entry vectors idx) (blinders.getD idx 0)) :
    checkOpening ck family c vectors blinders idx = .ok () := by
  rw [checkOpening, commit_eq _ (by omega), ok_bind, width, opens]
  exact if_pos rfl

theorem diagonals_eq {A C : List (List F)} {A' C' : ℕ → ℕ → F}
    (widthA : ∀ i < m + 1, (A.getD i []).length = bmap.n) (widthC : ∀ i < m + 1, (C.getD i []).length = bmap.n)
    (sameA : ∀ i < m + 1, ∀ j < bmap.n, entry A i j = A' i j) (sameC : ∀ i < m + 1, ∀ j < bmap.n, entry C i j = C' i j) :
    diagonals A C m bmap = .ok ((List.range (2 * m + 1)).map (diagonal bmap m A' C')) := by
  refine mapM_range_eq_ok fun k _ => ?_
  rw [mapM_eq_ok (g := fun i => bmap.pair (A' i) (C' (m + i - k)))]
  · rw [ok_bind, diagonal]
    apply congrArg Except.ok
    rw [← sum_toFinset _ (List.nodup_range.filter _)]
    refine sum_congr ?_ fun _ _ => rfl
    ext i
    simp
  intro i member
  simp only [List.mem_filter, List.mem_range, decide_eq_true_eq] at member
  rw [BilinearMap.evaluate_eq (widthA i (by omega)) (widthC _ (by omega))]
  exact congrArg _ (BilinearMap.pair_congr (sameA i (by omega)) (sameC _ (by omega)))

theorem foldVectors_eq {v : ℕ → ℕ → F} (len : vectors.length = m + 1)
    (same : ∀ i < m + 1, ∀ j < n, entry vectors i j = v i j) :
    foldVectors vectors ((List.range (m + 1)).map w) n =
      (List.range n).map fun j => ∑ i ∈ range (m + 1), w i * v i j := by
  refine map_range_congr fun j inside => ?_
  rw [sum_zipWith (n := m + 1) _ [] 0 len (by simp)]
  refine sum_congr rfl fun i member => ?_
  have below := mem_range.mp member
  rw [getD_map_range _ _ below, ← same i below j inside, entry]

theorem foldScalars_eq {values : List F} {k : ℕ} (len : values.length = k) :
    foldScalars values ((List.range k).map w) = ∑ i ∈ range k, w i * values.getD i 0 := by
  rw [foldScalars, sum_zipWith (n := k) _ 0 0 len (by simp)]
  refine sum_congr rfl fun i member => ?_
  rw [getD_map_range _ _ (mem_range.mp member)]

theorem complete (O : Oracle F G B) (context : B) (coins : Coins F) (lena : a.length = m) (lenA : cA.length = m)
    (lenr : r.length = m) (lenB : cB.length = m) (lenb : b.length = m) (lens : s.length = m) (some : 1 ≤ m)
    (pos : 1 ≤ bmap.n) (fits : bmap.n ≤ ck.n) (width : ∀ vec ∈ a ++ b, vec.length = bmap.n)
    (openA : ∀ i < m, cA.getD i 0 = ck.com bmap.n (entry a i) (r.getD i 0))
    (openB : ∀ i < m, cB.getD i 0 = ck.com bmap.n (entry b i) (s.getD i 0))
    (zero : ∑ i ∈ range m, bmap.pair (entry a i) (entry b i) = 0) :
    ∃ proof, prove O ck cA a r cB b s bmap context coins = .ok proof ∧
      verify O ck cA cB bmap context proof = .ok true := by
  have widtha : ∀ i < m, (a.getD i []).length = bmap.n := by
    intro i below
    rw [getD_eq_getElem _ _ (by omega)]
    exact width _ (mem_append_left _ (getElem_mem _))
  have widthb : ∀ i < m, (b.getD i []).length = bmap.n := by
    intro i below
    rw [getD_eq_getElem _ _ (by omega)]
    exact width _ (mem_append_right _ (getElem_mem _))
  let A := withFirst coins.a0 (entry a)
  let C := withLast m (entry b) coins.bm
  -- the blinder of the claimed zero is forced
  let t := Function.update coins.t (m + 1) 0
  have checks : ((List.range m).forM fun idx => do
      checkOpening ck "c_A" cA a r idx
      checkOpening ck "c_B" cB b s idx) = .ok () := by
    refine forM_eq_ok fun idx member => ?_
    have below := List.mem_range.mp member
    rw [checkOpening_ok (widtha idx below) fits (openA idx below), ok_bind,
      checkOpening_ok (widthb idx below) fits (openB idx below)]
  have sameA : ∀ i < m + 1, ∀ j < bmap.n, entry ((List.range bmap.n).map coins.a0 :: a) i j = A i j :=
    fun i _ j inside => entry_cons coins a inside
  have sameC : ∀ i < m + 1, ∀ j < bmap.n, entry (b ++ [(List.range bmap.n).map coins.bm]) i j = C i j :=
    fun i row j inside => entry_append coins lenb row inside
  have diag : diagonals ((List.range bmap.n).map coins.a0 :: a) (b ++ [(List.range bmap.n).map coins.bm]) m bmap =
      .ok ((List.range (2 * m + 1)).map (diagonal bmap m A C)) := by
    refine diagonals_eq ?_ ?_ sameA sameC
    · intro i below
      cases i with
      | zero => simp
      | succ i => rw [getD_cons_succ, widtha i (by omega)]
    intro i below
    by_cases before : i < m
    · rw [getD_append _ _ _ _ (by omega), widthb i before]
    rw [getD_append_right _ _ _ _ (by omega), show i - b.length = 0 by omega]
    simp
  have vanish : diagonal bmap m A C (m + 1) = 0 := by
    rw [diagonal_next, ← zero]
    refine sum_congr rfl fun i member => ?_
    rw [show C i = entry b i from if_pos (mem_range.mp member)]
    rfl
  have commits : ((List.range (2 * m + 1)).mapM fun k => commit ck
      [((List.range (2 * m + 1)).map (diagonal bmap m A C)).getD k 0]
      (((List.range (2 * m + 1)).map t).getD k 0)) =
      .ok ((List.range (2 * m + 1)).map fun k => ck.com 1 (fun _ => diagonal bmap m A C k) (t k)) :=
    mapM_range_eq_ok fun k below => by
      rw [getD_map_range _ _ below, getD_map_range _ _ below, commit_single _ _ _ (by omega)]
  have last : (s ++ [coins.sm]).getD m 0 = coins.sm := by
    rw [getD_append_right _ _ _ _ (by omega), show m - s.length = 0 by omega, getD_cons_zero]
  have lastRow : C m = coins.bm := if_neg (lt_irrefl m)
  refine ⟨honest ck bmap m A C ((coins.r0 :: r).getD · 0) ((s ++ [coins.sm]).getD · 0) t
    (challenge O ck bmap.n m bmap context cA cB (ck.com bmap.n coins.a0 coins.r0) (ck.com bmap.n coins.bm coins.sm)
      ((List.range (2 * m + 1)).map fun k => ck.com 1 (fun _ => diagonal bmap m A C k) (t k))),
    ?_, ?_⟩
  · simp only [prove, lena]
    rw [if_neg (by omega), if_neg (by omega), if_neg (by omega), if_neg (not_not_intro ⟨lenA, lenr⟩),
      if_neg (not_not_intro ⟨lenB, lenb, lens⟩), if_neg (not_not_intro width), checks, ok_bind, diag, ok_bind,
      requireWitness_bind _ (decide_eq_true (by rw [getD_map_range _ _ (by omega), vanish])),
      commit_map_range _ _ fits, ok_bind, commit_map_range _ _ fits, ok_bind, set_map_range, commits, ok_bind]
    apply congrArg Except.ok
    rw [powers_take, bWeights_eq, foldVectors_eq (by simp [lena]) sameA, foldVectors_eq (by simp [lenb]) sameC,
      foldScalars_eq (by simp [lenr]), foldScalars_eq (by simp [lens]), powers_eq, foldScalars_eq (by simp), honest,
      last, lastRow]
    congr 1
    exact sum_congr rfl fun k member => by rw [getD_map_range _ _ (mem_range.mp member)]
  refine verify_honest O context lenA lenB some fits pos (fun i below => ?_) (fun i below => ?_)
    (Function.update_self _ _ _) vanish ?_
  · rw [openA i below, getD_cons_succ]
    rfl
  · rw [openB i below, getD_append _ _ _ _ (by omega), show C i = entry b i from if_pos below]
  have blinded : ck.com bmap.n (C m) ((s ++ [coins.sm]).getD m 0) = ck.com bmap.n coins.bm coins.sm := by
    rw [last, lastRow]
  exact congrArg (challenge O ck bmap.n m bmap context cA cB (ck.com bmap.n coins.a0 coins.r0) · _) blinded

end Prover

end Completeness

end Holdem.BgZero
