import Holdem.BayerGroth.Zero

/-!
The Hadamard product argument of `bg_hadamard.py`: one committed vector is the entry-wise product of
a sequence of committed vectors. It reduces to a single zero argument.
-/

set_option linter.unusedSectionVars false

namespace Holdem.BgHadamard

open Finset Folding BgZero
open List hiding range mem_range

variable {F G B : Type} [Field F] [DecidableEq F] [AddCommGroup G] [Module F G] [DecidableEq G]

structure HadamardProof (F G : Type) where
  cBInterior : List G
  zero : ZeroProof F G

structure Coins (F : Type) where
  s : ℕ → F
  zero : BgZero.Coins F

def transcript (ck : CommitmentKey G) (n m : ℕ) (context : B) (cA : List G) (cb : G) (cB : List G) :
    List (Absorbed F G B) :=
  [.text "poker.bg.hadamard.v1", .count 1, .point ck.H] ++ pointList ck.Gs ++ [.count n, .count m, .bytes context] ++
    pointList cA ++ [.point cb] ++ pointList cB

/-- `_challenges`: the pair `(x, y)` drawn from one transcript. -/
def challenges (O : Oracle F G B) (transcript : List (Absorbed F G B)) : F × F :=
  ((O.challenge transcript "x").val, (O.challenge transcript "y").val)

def zeroContext (O : Oracle F G B) (context : B) (cA : List G) (cb : G) (cB : List G) (x y : F) : B :=
  O.digest ([.text "poker.bg.hadamard.zero-context.v1", .bytes context] ++ pointList cA ++ [.point cb] ++
    pointList cB ++ [.scalar x, .scalar y])

/-- `c_D1 .. c_D(m-1)`, `c_D` and `c_-1`. -/
structure Derived (G : Type) where
  cDList : List G
  cD : G
  cNeg1 : G

def derivedCommitments (ck : CommitmentKey G) (cB : List G) (m n : ℕ) (xs : List F) : Except PyError (Derived G) := do
  let cDList := (List.range (m - 1)).map fun i => mulSafe (xs.getD (i + 1) 0) (cB.getD i 0)
  let cD ← multiscalarMul ((List.range (m - 1)).map fun i => xs.getD (i + 1) 0)
    ((List.range (m - 1)).map fun i => cB.getD (i + 1) 0)
  let cNeg1 ← commit ck ((List.range n).map fun _ => (-1 : F)) 0
  .ok ⟨cDList, cD, cNeg1⟩

/-- The openings `d_1 .. d_(m-1)` and `d` of the derived commitments. -/
def derivedVectors (xs : List F) (partials : List (List F)) (m n : ℕ) : List (List F) :=
  ((List.range (m - 1)).map fun i => (List.range n).map fun j => xs.getD (i + 1) 0 * (partials.getD i []).getD j 0) ++
    [(List.range n).map fun j =>
      ((List.range (m - 1)).map fun i => xs.getD (i + 1) 0 * (partials.getD (i + 1) []).getD j 0).sum]

/-- The blinders `t_1 .. t_(m-1)` and `t` of the derived commitments. -/
def derivedBlinders (xs sList : List F) (m : ℕ) : List F :=
  ((List.range (m - 1)).map fun i => xs.getD (i + 1) 0 * sList.getD i 0) ++
    [((List.range (m - 1)).map fun i => xs.getD (i + 1) 0 * sList.getD (i + 1) 0).sum]

def rowProducts (a : List (List F)) (n : ℕ) : List (List F) :=
  a.tail.scanl (fun prev row => (List.range n).map fun j => prev.getD j 0 * row.getD j 0) (a.getD 0 [])

def prove (O : Oracle F G B) (ck : CommitmentKey G) (cA : List G) (a : List (List F)) (r : List F) (cb : G)
    (b : List F) (s : F) (context : B) (coins : Coins F) : Except PyError (HadamardProof F G) :=
  let m := a.length
  let n := (a.getD 0 []).length
  if m < 2 then .error (.valueError "Hadamard product argument requires m >= 2")
  else if n < 1 then .error (.valueError "Hadamard product argument requires n >= 1")
  else if n > ck.n then .error (.valueError s!"vector wider than commitment key: {n} > {ck.n}")
  else if ¬(cA.length = m ∧ r.length = m) then .error (.valueError "c_A, a and r must all have length m")
  else if ¬∀ vec ∈ a, vec.length = n then .error (.valueError "every a_i must have length n")
  else if b.length ≠ n then .error (.valueError "b must have length n")
  else do
    (List.range m).forM fun i => checkOpening ck "c_A" cA a r i
    let opened ← commit ck b s
    if opened = cb then do
      let products := rowProducts a n
      requireWitness (decide (∀ j < n, (products.getD (m - 1) []).getD j 0 = b.getD j 0))
        "witness does not satisfy b == product of a_i"
      -- the claimed vector from here on
      let partials := products.set (m - 1) b
      let sList := r.getD 0 0 :: ((List.range (m - 2)).map coins.s ++ [s])
      let interior ← (List.range (m - 2)).mapM fun i => commit ck (partials.getD (i + 1) []) (coins.s i)
      let cB := cA.getD 0 0 :: (interior ++ [cb])
      let drawn := challenges O (transcript ck n m context cA cb cB)
      let xs := powers drawn.1 m
      let bmap ← BilinearMap.fromChallenge drawn.2 n
      let derived ← derivedCommitments ck cB m n xs
      let zeroProof ← BgZero.prove O ck (cA.tail ++ [derived.cNeg1])
        (a.tail ++ [(List.range n).map fun _ => (-1 : F)]) (r.tail ++ [0]) (derived.cDList ++ [derived.cD])
        (derivedVectors xs partials m n) (derivedBlinders xs sList m) bmap (zeroContext O context cA cb cB drawn.1 drawn.2) coins.zero
      .ok { cBInterior := interior, zero := zeroProof }
    else .error (.valueError "c_b does not open to (b, s)")

def verify (O : Oracle F G B) (ck : CommitmentKey G) (cA : List G) (cb : G) (n : ℕ) (context : B)
    (proof : HadamardProof F G) : Except PyError Bool := guarded <|
  let m := cA.length
  if m < 2 ∨ n < 1 ∨ n > ck.n then .ok false
  else if proof.cBInterior.length ≠ m - 2 then .ok false
  else do
    let cB := cA.getD 0 0 :: (proof.cBInterior ++ [cb])
    let drawn := challenges O (transcript ck n m context cA cb cB)
    let bmap ← BilinearMap.fromChallenge drawn.2 n
    let derived ← derivedCommitments ck cB m n (powers drawn.1 m)
    BgZero.verify O ck (cA.tail ++ [derived.cNeg1]) (derived.cDList ++ [derived.cD]) bmap
      (zeroContext O context cA cb cB drawn.1 drawn.2) proof.zero

section Completeness

variable {m n i : ℕ} {ck : CommitmentKey G} {cA : List G} {a : List (List F)} {r b : List F} {cb : G} {s : F}
  {rest : List (List F)} {prev : List F}

def product (a : List (List F)) (i j : ℕ) : F := ∏ k ∈ range (i + 1), entry a k j

theorem entry_scanl {j : ℕ} (row : i ≤ rest.length) (inside : j < n) :
    entry (rest.scanl (fun prev row => (List.range n).map fun j => prev.getD j 0 * row.getD j 0) prev) i j =
      prev.getD j 0 * ∏ k ∈ range i, entry rest k j := by
  induction rest generalizing prev i with
  | nil =>
    rw [length_nil, Nat.le_zero] at row
    subst row
    simp [entry]
  | cons next rest ih =>
    rw [scanl_cons]
    cases i with
    | zero => simp [entry]
    | succ i =>
      have below : i ≤ rest.length := by simpa using row
      rw [entry, getD_cons_succ, ← entry, ih below, getD_map_range _ _ inside, Finset.prod_range_succ', mul_assoc,
        mul_comm (next.getD j 0)]
      rfl

theorem entry_rowProducts {j : ℕ} (len : a.length = m) (row : i < m) (inside : j < n) :
    entry (rowProducts a n) i j = product a i j := by
  cases a with
  | nil => rw [length_nil] at len; omega
  | cons first rest =>
    rw [length_cons] at len
    rw [rowProducts, tail_cons, getD_cons_zero, entry_scanl (by omega) inside, product,
      Finset.prod_range_succ', mul_comm]
    rfl

theorem width_scanl (start : prev.length = n) (row : i ≤ rest.length) :
    ((rest.scanl (fun prev row => (List.range n).map fun j => prev.getD j 0 * row.getD j 0) prev).getD i []).length =
      n := by
  induction rest generalizing prev i with
  | nil =>
    rw [length_nil, Nat.le_zero] at row
    subst row
    simpa using start
  | cons next rest ih =>
    rw [scanl_cons]
    cases i with
    | zero => simpa using start
    | succ i => rw [getD_cons_succ, ih (by simp) (by simpa using row)]

theorem width_rowProducts (len : a.length = m) (width : ∀ vec ∈ a, vec.length = n) (row : i < m) :
    ((rowProducts a n).getD i []).length = n := by
  cases a with
  | nil => rw [length_nil] at len; omega
  | cons first rest =>
    rw [length_cons] at len
    exact width_scanl (width first List.mem_cons_self) (by rw [tail_cons]; omega)

theorem rowProducts_set (len : a.length = m) (width : ∀ vec ∈ a, vec.length = n) (some : 1 ≤ m) (lenb : b.length = n)
    (claim : ∀ j < n, b.getD j 0 = product a (m - 1) j) : (rowProducts a n).set (m - 1) b = rowProducts a n := by
  have last : (rowProducts a n).getD (m - 1) [] = b := by
    rw [eq_map_range ((rowProducts a n).getD (m - 1) []) 0, width_rowProducts len width (by omega), eq_map_range b 0, lenb]
    refine map_range_congr fun j inside => ?_
    rw [claim j inside, ← entry_rowProducts len (by omega) inside]
    rfl
  rw [← last, set_getD_self]

theorem fromChallenge_ok {y : F} (nonzero : y ≠ 0) (pos : 1 ≤ n) :
    ∃ bmap : BilinearMap F, BilinearMap.fromChallenge y n = .ok bmap ∧ bmap.n = n := by
  refine ⟨_, by rw [BilinearMap.fromChallenge, dif_neg (by omega), dif_neg nonzero], ?_⟩
  change (powersFrom y 1 n).length = n
  rw [powersFrom_eq, length_map, length_range]

def blinders (coins : Coins F) (m : ℕ) (first last : F) : List F :=
  first :: ((List.range (m - 2)).map coins.s ++ [last])

theorem derivedCommitments_eq {cB : List G} {p : ℕ → ℕ → F} {sl : ℕ → F} (some : 1 ≤ m) (fits : n ≤ ck.n)
    (opens : ∀ i < m, cB.getD i 0 = ck.com n (p i) (sl i)) (x : F) :
    derivedCommitments ck cB m n (powers x m) = .ok
      { cDList := (List.range (m - 1)).map fun i =>
          ck.com n (fun j => x ^ (i + 1) * p i j) (x ^ (i + 1) * sl i)
        cD := ck.com n (fun j => ∑ i ∈ range (m - 1), x ^ (i + 1) * p (i + 1) j)
          (∑ i ∈ range (m - 1), x ^ (i + 1) * sl (i + 1))
        cNeg1 := ck.com n (fun _ => (-1 : F)) 0 } := by
  obtain ⟨m, rfl⟩ : ∃ k, m = k + 1 := ⟨m - 1, by omega⟩
  rw [derivedCommitments, multiscalarMul_eq (n := m) (by simp) (by simp), ok_bind, commit_map_range _ _ fits, ok_bind,
    ← CommitmentKey.sum_smul_com, Nat.add_sub_cancel]
  apply congrArg Except.ok
  congr 1
  · refine map_range_congr fun i below => ?_
    rw [powers_getD x (by omega), opens i (by omega), mulSafe_eq, CommitmentKey.smul_com]
  refine sum_congr rfl fun i member => ?_
  have below := mem_range.mp member
  rw [getD_map_range _ _ below, getD_map_range _ _ below, powers_getD x (by omega), opens (i + 1) (by omega)]

theorem batched_pairs (bmap : BilinearMap F) (x : F) (m : ℕ) (a : List (List F)) (p : ℕ → ℕ → F) :
    ∑ i ∈ range m, bmap.pair (entry a (i + 1)) (fun j => x ^ (i + 1) * p i j) +
        bmap.pair (fun _ => -1) (fun j => ∑ i ∈ range m, x ^ (i + 1) * p (i + 1) j) =
      ∑ j ∈ range bmap.n, bmap.coefficients.getD j 0 *
        ∑ i ∈ range m, x ^ (i + 1) * (entry a (i + 1) j * p i j - p (i + 1) j) := by
  simp only [BilinearMap.pair]
  rw [sum_comm, ← sum_add_distrib]
  refine sum_congr rfl fun j _ => ?_
  rw [← mul_sum, ← mul_add, neg_one_mul, ← sub_eq_add_neg, ← sum_sub_distrib]
  refine congrArg _ (sum_congr rfl fun i _ => ?_)
  ring

theorem batched_zero (bmap : BilinearMap F) (x : F) (m : ℕ) (a : List (List F)) :
    ∑ i ∈ range m, bmap.pair (entry a (i + 1)) (fun j => x ^ (i + 1) * product a i j) +
      bmap.pair (fun _ => -1) (fun j => ∑ i ∈ range m, x ^ (i + 1) * product a (i + 1) j) = 0 := by
  rw [batched_pairs]
  refine Finset.sum_eq_zero fun j _ => mul_eq_zero_of_right _ (Finset.sum_eq_zero fun i _ => ?_)
  rw [product, product, Finset.prod_range_succ _ (i + 1)]
  ring

theorem opens_products {interior : List G} {coins : Coins F} (two : 2 ≤ m)
    (openA : ∀ i < m, cA.getD i 0 = ck.com n (entry a i) (r.getD i 0))
    (inner : interior = (List.range (m - 2)).map fun i => ck.com n (product a (i + 1)) (coins.s i))
    (claim : cb = ck.com n (product a (m - 1)) s) (row : i < m) :
    (cA.getD 0 0 :: (interior ++ [cb])).getD i 0 =
      ck.com n (product a i) ((blinders coins m (r.getD 0 0) s).getD i 0) := by
  have long : interior.length = m - 2 := by rw [inner, length_map, length_range]
  cases i with
  | zero =>
    rw [getD_cons_zero, openA 0 (by omega), blinders, getD_cons_zero]
    exact CommitmentKey.com_congr ck n _ fun j _ => by rw [product, zero_add, prod_range_one]
  | succ i =>
    rw [getD_cons_succ, blinders, getD_cons_succ]
    by_cases inside : i < m - 2
    · rw [getD_append _ _ _ _ (by omega), inner, getD_map_range _ _ inside,
        getD_append _ _ _ _ (by simpa using inside), getD_map_range _ _ inside]
    rw [getD_append_right _ _ _ _ (by omega), getD_append_right _ _ _ _ (by simp; omega), long,
      length_map, length_range, show i - (m - 2) = 0 by omega, getD_cons_zero, getD_cons_zero, claim,
      show i + 1 = m - 1 by omega]

section Reduction

variable {k i j : ℕ} {partials : List (List F)} {sList : List F} {x : F} {p : ℕ → ℕ → F}

theorem derivedVectors_entry (known : ∀ i < k + 1, ∀ j < n, (partials.getD i []).getD j 0 = p i j)
    (row : i < k) (inside : j < n) :
    entry (derivedVectors (powers x (k + 1)) partials (k + 1) n) i j = x ^ (i + 1) * p i j := by
  rw [entry, derivedVectors, getD_concat_lt _ _ (by simp) row, Nat.add_sub_cancel, getD_map_range _ _ row,
    getD_map_range _ _ inside, powers_getD x (by omega), known i (by omega) j inside]

theorem derivedVectors_last (known : ∀ i < k + 1, ∀ j < n, (partials.getD i []).getD j 0 = p i j)
    (inside : j < n) : entry (derivedVectors (powers x (k + 1)) partials (k + 1) n) k j =
      ∑ i ∈ range k, x ^ (i + 1) * p (i + 1) j := by
  rw [entry, derivedVectors, getD_concat_last _ _ (by simp), Nat.add_sub_cancel, getD_map_range _ _ inside, sum_list_range]
  refine sum_congr rfl fun i member => ?_
  have below := mem_range.mp member
  rw [powers_getD x (by omega), known (i + 1) (by omega) j inside]

theorem derivedVectors_width : ∀ vec ∈ derivedVectors (powers x (k + 1)) partials (k + 1) n, vec.length = n := by
  intro vec member
  obtain member | member := List.mem_append.mp member
  · obtain ⟨i, -, rfl⟩ := List.mem_map.mp member
    simp
  rw [List.mem_singleton.mp member]
  simp

theorem derivedBlinders_getD (row : i < k) :
    (derivedBlinders (powers x (k + 1)) sList (k + 1)).getD i 0 = x ^ (i + 1) * sList.getD i 0 := by
  rw [derivedBlinders, getD_concat_lt _ _ (by simp) row, Nat.add_sub_cancel, getD_map_range _ _ row, powers_getD x (by omega)]

theorem derivedBlinders_last : (derivedBlinders (powers x (k + 1)) sList (k + 1)).getD k 0 =
    ∑ i ∈ range k, x ^ (i + 1) * sList.getD (i + 1) 0 := by
  rw [derivedBlinders, getD_concat_last _ _ (by simp), Nat.add_sub_cancel, sum_list_range]
  refine sum_congr rfl fun i member => ?_
  rw [powers_getD x (by have := mem_range.mp member; omega)]

theorem slots_entry (lena : a.length = k + 1) (row : i < k) :
    entry (a.tail ++ [(List.range n).map fun _ => (-1 : F)]) i = entry a (i + 1) := by
  funext j
  rw [entry, getD_concat_lt _ _ (by simp [lena]) row, getD_tail]
  rfl

theorem slots_last (lena : a.length = k + 1) (inside : j < n) :
    entry (a.tail ++ [(List.range n).map fun _ => (-1 : F)]) k j = -1 := by
  rw [entry, getD_concat_last _ _ (by simp [lena]), getD_map_range _ _ inside]

theorem zero_complete (sList : List F) (x : F) (O : Oracle F G B) (context : B) (coins : BgZero.Coins F) {bmap : BilinearMap F}
    {cD : List G} (wideMap : bmap.n = n) (lena : a.length = k + 1) (lenA : cA.length = k + 1) (lenr : r.length = k + 1)
    (pos : 1 ≤ n) (fits : n ≤ ck.n) (width : ∀ vec ∈ a, vec.length = n)
    (openA : ∀ i < k + 1, cA.getD i 0 = ck.com n (entry a i) (r.getD i 0))
    (known : ∀ i < k + 1, ∀ j < n, (partials.getD i []).getD j 0 = product a i j)
    (derived : cD = ((List.range k).map fun i =>
        ck.com n (fun j => x ^ (i + 1) * product a i j) (x ^ (i + 1) * sList.getD i 0)) ++
      [ck.com n (fun j => ∑ i ∈ range k, x ^ (i + 1) * product a (i + 1) j)
        (∑ i ∈ range k, x ^ (i + 1) * sList.getD (i + 1) 0)]) :
    ∃ proof, BgZero.prove O ck (cA.tail ++ [ck.com n (fun _ => (-1 : F)) 0])
        (a.tail ++ [(List.range n).map fun _ => (-1 : F)]) (r.tail ++ [0]) cD
        (derivedVectors (powers x (k + 1)) partials (k + 1) n) (derivedBlinders (powers x (k + 1)) sList (k + 1))
        bmap context coins = .ok proof ∧
      BgZero.verify O ck (cA.tail ++ [ck.com n (fun _ => (-1 : F)) 0]) cD bmap context proof = .ok true := by
  subst wideMap derived
  refine BgZero.complete (m := k + 1) O context coins (by simp [lena]) (by simp [lenA]) (by simp [lenr]) (by simp)
    (by simp [derivedVectors]) (by simp [derivedBlinders]) (by omega) pos fits ?_ ?_ ?_ ?_
  · intro vec member
    obtain member | member := List.mem_append.mp member
    · obtain member | member := List.mem_append.mp member
      · exact width vec (mem_of_mem_tail member)
      rw [List.mem_singleton.mp member]
      simp
    exact derivedVectors_width vec member
  · intro i row
    obtain before | rfl := Nat.lt_succ_iff_lt_or_eq.mp row
    · rw [getD_concat_lt _ _ (by simp [lenA]) before, getD_tail, openA (i + 1) (by omega), slots_entry lena before,
        getD_concat_lt _ _ (by simp [lenr]) before, getD_tail]
    rw [getD_concat_last _ _ (by simp [lenA]), getD_concat_last _ _ (by simp [lenr])]
    exact CommitmentKey.com_congr ck _ _ fun j inside => (slots_last lena inside).symm
  · intro i row
    obtain before | rfl := Nat.lt_succ_iff_lt_or_eq.mp row
    · rw [getD_concat_lt _ _ (by simp) before, getD_map_range _ _ before, derivedBlinders_getD before]
      exact CommitmentKey.com_congr ck _ _ fun j inside => (derivedVectors_entry known before inside).symm
    rw [getD_concat_last _ _ (by simp), derivedBlinders_last]
    exact CommitmentKey.com_congr ck _ _ fun j inside => (derivedVectors_last known inside).symm
  rw [Finset.sum_range_succ, ← batched_zero bmap x k a]
  congr 1
  · refine sum_congr rfl fun i member => ?_
    have before := mem_range.mp member
    rw [slots_entry lena before]
    exact BilinearMap.pair_congr (fun _ _ => rfl) fun j inside => derivedVectors_entry known before inside
  exact BilinearMap.pair_congr (fun j inside => slots_last lena inside) fun j inside => derivedVectors_last known inside

end Reduction

theorem complete (O : Oracle F G B) (context : B) (coins : Coins F) (lena : a.length = m) (lenA : cA.length = m)
    (lenr : r.length = m) (two : 2 ≤ m) (pos : 1 ≤ n) (fits : n ≤ ck.n) (width : ∀ vec ∈ a, vec.length = n)
    (lenb : b.length = n) (openA : ∀ i < m, cA.getD i 0 = ck.com n (entry a i) (r.getD i 0))
    (opensb : cb = ck.com n (b.getD · 0) s) (claim : ∀ j < n, b.getD j 0 = product a (m - 1) j) :
    ∃ proof, prove O ck cA a r cb b s context coins = .ok proof ∧ verify O ck cA cb n context proof = .ok true := by
  have widtha : ∀ i < m, (a.getD i []).length = n := by
    intro i below
    rw [getD_eq_getElem _ _ (by omega)]
    exact width _ (getElem_mem _)
  have checks : ((List.range m).forM fun i => checkOpening ck "c_A" cA a r i) = .ok () :=
    forM_eq_ok fun i member => checkOpening_ok (widtha i (List.mem_range.mp member)) fits (openA i (List.mem_range.mp member))
  have opened : commit ck b s = .ok cb := by rw [commit_eq _ (by omega), lenb, opensb]
  have kept := rowProducts_set lena width (by omega) lenb claim
  have partials : ∀ i < m, ∀ j < n, ((rowProducts a n).getD i []).getD j 0 = product a i j :=
    fun i row j inside => entry_rowProducts lena row inside
  have witnessed : ∀ j < n, ((rowProducts a n).getD (m - 1) []).getD j 0 = b.getD j 0 := by
    intro j inside
    rw [partials (m - 1) (by omega) j inside, claim j inside]
  have interiors : ((List.range (m - 2)).mapM fun i => commit ck ((rowProducts a n).getD (i + 1) []) (coins.s i)) =
      .ok ((List.range (m - 2)).map fun i => ck.com n (product a (i + 1)) (coins.s i)) := by
    refine mapM_range_eq_ok fun i below => ?_
    have wide := width_rowProducts lena width (i := i + 1) (by omega)
    rw [commit_eq _ (by omega), wide, CommitmentKey.com_congr ck n _ (partials (i + 1) (by omega))]
  generalize inner : ((List.range (m - 2)).map fun i => ck.com n (product a (i + 1)) (coins.s i)) = interior at interiors
  have claimed : cb = ck.com n (product a (m - 1)) s := by rw [opensb, CommitmentKey.com_congr ck n _ claim]
  have opensB : ∀ i < m, (cA.getD 0 0 :: (interior ++ [cb])).getD i 0 =
      ck.com n (product a i) ((blinders coins m (r.getD 0 0) s).getD i 0) :=
    fun i row => opens_products two openA inner.symm claimed row
  generalize drawnEq : challenges O (transcript ck n m context cA cb (cA.getD 0 0 :: (interior ++ [cb]))) = drawn
  have nonzero : drawn.2 ≠ 0 := by
    rw [← drawnEq]
    exact (O.challenge _ "y").property
  obtain ⟨bmap, mapped, wideMap⟩ := fromChallenge_ok nonzero pos
  have derived := derivedCommitments_eq (by omega) fits opensB drawn.1
  obtain ⟨k, rfl⟩ : ∃ k, m = k + 1 := ⟨m - 1, by omega⟩
  obtain ⟨zero, proved, accepted⟩ := zero_complete (blinders coins (k + 1) (r.getD 0 0) s) drawn.1 O
    (zeroContext O context cA cb (cA.getD 0 0 :: (interior ++ [cb])) drawn.1 drawn.2) coins.zero wideMap lena lenA lenr
    pos fits width openA partials rfl
  refine ⟨⟨interior, zero⟩, ?_, ?_⟩
  · simp only [prove, lena, widtha 0 (by omega)]
    rw [if_neg (by omega), if_neg (by omega), if_neg (by omega), if_neg (not_not_intro ⟨lenA, lenr⟩),
      if_neg (not_not_intro width), if_neg (not_not_intro lenb), checks, ok_bind, opened, ok_bind, if_pos rfl,
      requireWitness_bind _ (decide_eq_true witnessed), kept, interiors, ok_bind, drawnEq, mapped, ok_bind, derived, ok_bind,
      Nat.add_sub_cancel]
    exact congrArg (· >>= fun zeroProof => Except.ok (HadamardProof.mk interior zeroProof)) proved
  have long : interior.length = k + 1 - 2 := by rw [← inner, length_map, length_range]
  simp only [verify, lenA]
  rw [if_neg (by omega), if_neg (not_not_intro long), drawnEq, mapped, ok_bind, derived, ok_bind, Nat.add_sub_cancel]
  exact congrArg guarded accepted

end Completeness

end Holdem.BgHadamard
