import Holdem.BayerGroth.Hadamard
import Holdem.Crypto.Opening
import Mathlib.Algebra.Field.ZMod

/-!
What accepted answers of the zero argument determine, also for the Hadamard argument. The pairing of the
folded families is a polynomial in the challenge, and the statement is one coefficient.
-/

namespace Holdem.BgZero

open Finset Folding Extraction
open List hiding range mem_range

variable {F G B : Type} [Field F] [DecidableEq F] [AddCommGroup G] [Module F G] [DecidableEq G]

structure Answer (F : Type) where
  aTilde : List F
  bTilde : List F
  rTilde : F
  sTilde : F
  tTilde : F

namespace Answer

def proof (answer : Answer F) (cA0 cBm : G) (cD : List G) : ZeroProof F G :=
  ⟨cA0, cBm, cD, answer.aTilde, answer.bTilde, answer.rTilde, answer.sTilde, answer.tTilde⟩

def left (n : ℕ) (answer : Answer F) : Opening F n := (answer.rTilde, fun j => answer.aTilde.getD j 0)

def right (n : ℕ) (answer : Answer F) : Opening F n := (answer.sTilde, fun j => answer.bTilde.getD j 0)

def paired (bmap : BilinearMap F) (answer : Answer F) : Opening F 1 :=
  (answer.tTilde, fun _ => bmap.pair (answer.aTilde.getD · 0) (answer.bTilde.getD · 0))

end Answer

structure Witness (F : Type) where
  a : List (List F)
  r : List F
  b : List (List F)
  s : List F

/-- `sum a_i * b_(i-1) = 0`, for the rows of two matrices. -/
def ZeroRelation (bmap : BilinearMap F) (m : ℕ) (a b : List (List F)) : Prop :=
  ∃ terms, ((List.range m).mapM fun i => bmap.evaluate (a.getD i []) (b.getD i [])) = .ok terms ∧ terms.sum = 0

structure Witness.Valid (ck : CommitmentKey G) (cA cB : List G) (bmap : BilinearMap F) (found : Witness F) : Prop where
  opensA : ∀ i < cA.length, commit ck (found.a.getD i []) (found.r.getD i 0) = .ok (cA.getD i 0)
  opensB : ∀ i < cA.length, commit ck (found.b.getD i []) (found.s.getD i 0) = .ok (cB.getD i 0)
  zero : ZeroRelation bmap cA.length found.a found.b

def extract (m : ℕ) (bmap : BilinearMap F) (x : ℕ → F) (answers : ℕ → Answer F) : Extracted F (Witness F) :=
  let left l := (answers l).left bmap.n
  let right l := (answers l).right bmap.n
  let a := interpolate (m + 1) x left
  let b := interpolate (m + 1) x right
  -- the commitment to the statement's own coefficient is the identity
  let center := interpolate (2 * m + 1) x (fun l => (answers l).paired bmap) (m + 1)
  extractOr (Opening.relation center ::
      (((List.range (2 * m + 1)).map fun l => Opening.relation (residue (m + 1) x left l)) ++
        (List.range (2 * m + 1)).map fun l => Opening.relation (residue (m + 1) x right l)))
    { a := (List.range m).map fun i => List.ofFn (a (i + 1)).2
      r := (List.range m).map fun i => (a (i + 1)).1
      b := (List.range m).map fun i => List.ofFn (b (m - i)).2
      s := (List.range m).map fun i => (b (m - i)).1 }

/-- The checks of `check_equations`, on an answer to a challenge. -/
structure Accepted (ck : CommitmentKey G) (cA cB : List G) (bmap : BilinearMap F) (cA0 cBm : G) (cD : List G) (x : F)
    (answer : Answer F) : Prop where
  fits : bmap.n ≤ ck.n
  one : 1 ≤ ck.n
  left : ck.opened F bmap.n (answer.left bmap.n) =
    evalAt (cA.length + 1) (fun i => if i = 0 then cA0 else cA.getD (i - 1) 0) x
  right : ck.opened F bmap.n (answer.right bmap.n) =
    evalAt (cA.length + 1) (fun i => (cB ++ [cBm]).getD (cA.length - i) 0) x
  paired : ck.opened F 1 (answer.paired bmap) = evalAt (2 * cA.length + 1) (cD.getD · 0) x
  lenB : cB.length = cA.length

theorem evaluate_ok {bmap : BilinearMap F} {u v : List F} {p : F} (evaluated : bmap.evaluate u v = .ok p) :
    u.length = bmap.n ∧ v.length = bmap.n ∧ p = bmap.pair (u.getD · 0) (v.getD · 0) := by
  by_cases width : u.length ≠ bmap.n ∨ v.length ≠ bmap.n
  · rw [BilinearMap.evaluate, if_pos width] at evaluated
    cases evaluated
  rw [not_or, not_not, not_not] at width
  rw [BilinearMap.evaluate_eq width.1 width.2] at evaluated
  exact ⟨width.1, width.2, (Except.ok.inj evaluated).symm⟩

theorem accepted_of_checkEquations {ck : CommitmentKey G} {cA cB : List G} {bmap : BilinearMap F} {cA0 cBm : G}
    {cD : List G} {x : F} {answer : Answer F}
    (checked : checkEquations ck cA cB bmap (answer.proof cA0 cBm cD) x = .ok true) :
    Accepted ck cA cB bmap cA0 cBm cD x answer := by
  unfold checkEquations at checked
  obtain ⟨foldedA, sumA, checked⟩ := bind_eq_ok checked
  obtain ⟨openedA, committedA, checked⟩ := bind_eq_ok checked
  split at checked
  · next sameA =>
    obtain ⟨foldedB, sumB, checked⟩ := bind_eq_ok checked
    obtain ⟨openedB, committedB, checked⟩ := bind_eq_ok checked
    split at checked
    · next sameB =>
      split at checked
      · cases checked
      next paired evaluated =>
      obtain ⟨foldedD, sumD, checked⟩ := bind_eq_ok checked
      obtain ⟨openedD, committedD, checked⟩ := bind_eq_ok checked
      have sameD := of_decide_eq_true (Except.ok.inj checked)
      simp only [Answer.proof] at sumA sumB sumD committedA committedB committedD evaluated
      rw [powers_take] at sumA
      rw [bWeights_eq] at sumB
      rw [powers_eq] at sumD
      obtain ⟨-, sumA⟩ := multiscalarMul_ok (n := cA.length + 1) (by simp) sumA
      obtain ⟨lenB, sumB⟩ := multiscalarMul_ok (n := cA.length + 1) (by simp) sumB
      obtain ⟨-, sumD⟩ := multiscalarMul_ok (n := 2 * cA.length + 1) (by simp) sumD
      obtain ⟨widthA, widthB, rfl⟩ := evaluate_ok evaluated
      obtain ⟨fits, left⟩ := CommitmentKey.opened_of_commit widthA committedA
      obtain ⟨-, right⟩ := CommitmentKey.opened_of_commit widthB committedB
      obtain ⟨one, single⟩ := CommitmentKey.opened_of_commit (n := 1) rfl committedD
      refine ⟨fits, one, ?_, ?_, ?_, by simpa using lenB⟩
      · refine left.trans (sameA.symm.trans (sumA.trans (sum_congr rfl fun i member => ?_)))
        rw [getD_map_range _ _ (mem_range.mp member)]
        cases i with
        | zero => rfl
        | succ i => rfl
      · refine right.trans (sameB.symm.trans (sumB.trans ?_))
        rw [evalAt, ← sum_range_reflect]
        refine sum_congr rfl fun j member => ?_
        have below := mem_range.mp member
        rw [Nat.add_sub_cancel, getD_map_range _ _ (by omega), show cA.length - (cA.length - j) = j by omega]
      refine Eq.trans (congrArg _ (Prod.ext rfl (funext fun j => ?_))) (single.trans (sameD.symm.trans
        (sumD.trans (sum_congr rfl fun k member => ?_))))
      · rw [Fin.fin_one_eq_zero j]
      rw [getD_map_range _ _ (mem_range.mp member)]
    cases checked
  cases checked

section

variable {ck : CommitmentKey G} {cA cB : List G} {bmap : BilinearMap F} {cA0 cBm : G} {cD : List G} {x : ℕ → F}
  {answers : ℕ → Answer F}

theorem zero_of_families (answers : ℕ → Answer F) {m : ℕ} (distinct : Set.InjOn x (Set.Iio (2 * m + 1))) (some : 1 ≤ m)
    (a b : ℕ → Opening F bmap.n) (left : ∀ l < 2 * m + 1, (answers l).left bmap.n = evalAt (m + 1) a (x l))
    (right : ∀ l < 2 * m + 1, (answers l).right bmap.n = evalAt (m + 1) b (x l))
    (centered : interpolate (2 * m + 1) x (fun l => (answers l).paired bmap) (m + 1) = 0) :
    ∑ i ∈ range m, bmap.pair (Opening.entry (a (i + 1))) (Opening.entry (b (m - i))) = 0 := by
  have agree : ∀ l < 2 * m + 1, evalAt (2 * m + 1)
      (fun k => Opening.entry (interpolate (2 * m + 1) x (fun l => (answers l).paired bmap) k) 0) (x l) =
      evalAt (2 * m + 1) (diagonal bmap m (fun i => Opening.entry (a i)) fun i => Opening.entry (b (m - i))) (x l) := by
    intro l below
    have value : Opening.entry ((answers l).paired bmap) 0 =
        bmap.pair ((answers l).aTilde.getD · 0) ((answers l).bTilde.getD · 0) := Opening.entry_eq _ Nat.one_pos
    have interpolated : evalAt (2 * m + 1)
        (fun k => Opening.entry (interpolate (2 * m + 1) x (fun l => (answers l).paired bmap) k) 0) (x l) = _ :=
      (Opening.entry_evalAt _ _ Nat.one_pos).symm
    have folded : evalAt (2 * m + 1) (diagonal bmap m (fun i => Opening.entry (a i))
        fun i => Opening.entry (b (m - i))) (x l) = _ := (pair_folded (x l)).symm
    rw [interpolated, evalAt_interpolate (w := fun l => (answers l).paired bmap) distinct below, value, folded]
    refine BilinearMap.pair_congr (fun j inside => ?_) fun j inside => ?_
    · rw [← Opening.entry_evalAt _ _ inside, ← left l below, Opening.entry_eq _ inside]
      rfl
    have reflected := sum_range_reflect (fun i => x l ^ i * Opening.entry (b i) j) (m + 1)
    simp only [Nat.add_sub_cancel] at reflected
    rw [reflected, ← Opening.entry_evalAt _ _ inside, ← right l below, Opening.entry_eq _ inside]
    rfl
  have center := coefficients_eq distinct agree (show m + 1 < 2 * m + 1 by omega)
  rw [diagonal_next, centered, Opening.entry_eq _ Nat.one_pos] at center
  exact center.symm

theorem extract_sound (accepted : ∀ l < 2 * cA.length + 1, Accepted ck cA cB bmap cA0 cBm cD (x l) (answers l))
    (distinct : Set.InjOn x (Set.Iio (2 * cA.length + 1))) (some : 1 ≤ cA.length)
    (identity : cD.getD (cA.length + 1) 0 = 0) :
    (extract cA.length bmap x answers).Sound ck (Witness.Valid ck cA cB bmap) := by
  have fits := (accepted 0 (by omega)).fits
  have lenB := (accepted 0 (by omega)).lenB
  have early := distinct.mono (Set.Iio_subset_Iio (show cA.length + 1 ≤ 2 * cA.length + 1 by omega))
  refine extractOr_sound ?_ fun none => ⟨?_, ?_, ?_⟩
  · intro relation member
    obtain rfl | member := List.mem_cons.mp member
    · refine commit_relation (accepted 0 (by omega)).one ?_
      rw [map_interpolate_eq distinct (fun l below => (accepted l below).paired) (by omega)]
      exact identity
    obtain member | member := List.mem_append.mp member
    · obtain ⟨l, inside, rfl⟩ := List.mem_map.mp member
      exact commit_relation fits (map_residue distinct (by omega) (fun l below => (accepted l below).left)
        (List.mem_range.mp inside))
    obtain ⟨l, inside, rfl⟩ := List.mem_map.mp member
    exact commit_relation fits (map_residue distinct (by omega) (fun l below => (accepted l below).right)
      (List.mem_range.mp inside))
  · intro i row
    rw [getD_map_range _ _ row, getD_map_range _ _ row, CommitmentKey.commit_ofFn _ fits,
      map_interpolate_eq early (fun l below => (accepted l (by omega)).left) (by omega)]
    rfl
  · intro i row
    rw [getD_map_range _ _ row, getD_map_range _ _ row, CommitmentKey.commit_ofFn _ fits,
      map_interpolate_eq early (fun l below => (accepted l (by omega)).right) (by omega),
      show cA.length - (cA.length - i) = i by omega, getD_concat_lt _ _ lenB row]
  have zero := zero_of_families answers distinct some (interpolate (cA.length + 1) x fun l => (answers l).left bmap.n)
    (interpolate (cA.length + 1) x fun l => (answers l).right bmap.n) (fun l below => ?_) (fun l below => ?_) ?_
  · refine ⟨_, mapM_range_eq_ok fun i row => ?_, (sum_list_range _ _).trans zero⟩
    rw [getD_map_range _ _ row, getD_map_range _ _ row, BilinearMap.evaluate_eq length_ofFn length_ofFn]
    simp only [Opening.getD_ofFn]
  · exact eq_of_residue (trivial_relation_iff.mp (none _ (.tail _ (mem_append_left _
      (List.mem_map_of_mem (List.mem_range.mpr below))))))
  · exact eq_of_residue (trivial_relation_iff.mp (none _ (.tail _ (mem_append_right _
      (List.mem_map_of_mem (List.mem_range.mpr below))))))
  exact trivial_relation_iff.mp (none _ (.head _))

end

end Holdem.BgZero

namespace Holdem.BgHadamard

open Finset Folding Extraction BgZero
open List hiding range mem_range

variable {F G B : Type} [Field F] [DecidableEq F] [AddCommGroup G] [Module F G] [DecidableEq G]

section

variable {n k : ℕ} {a b : List (List F)} {x y : F} {i j : ℕ}

theorem fromChallenge_coefficients {bmap : BilinearMap F} (mapped : BilinearMap.fromChallenge y n = .ok bmap) :
    bmap.n = n ∧ ∀ j < n, bmap.coefficients.getD j 0 = y ^ (j + 1) := by
  unfold BilinearMap.fromChallenge at mapped
  split at mapped
  · cases mapped
  split at mapped
  · cases mapped
  obtain rfl := Except.ok.inj mapped
  refine ⟨?_, fun j inside => ?_⟩
  · show (powersFrom y 1 n).length = n
    rw [powersFrom_eq, length_map, length_range]
  show (powersFrom y 1 n).getD j 0 = y ^ (j + 1)
  rw [powersFrom_eq, getD_map_range _ _ inside, one_mul]

theorem entries_of_zeroRelation {bmap : BilinearMap F} (mapped : BilinearMap.fromChallenge y n = .ok bmap)
    (rows : a.length = k + 1) (zero : ZeroRelation bmap (k + 1) (a.tail ++ [(List.range n).map fun _ => (-1 : F)])
      (derivedVectors (powers x (k + 1)) b (k + 1) n)) :
    ∑ j ∈ range n, y ^ (j + 1) *
      ∑ i ∈ range k, x ^ (i + 1) * (entry a (i + 1) j * entry b i j - entry b (i + 1) j) = 0 := by
  obtain ⟨wide, coefficients⟩ := fromChallenge_coefficients mapped
  obtain ⟨terms, evaluated, sum⟩ := zero
  have : Inhabited F := ⟨0⟩
  obtain ⟨term, each, rfl⟩ := mapM_ok evaluated
  have paired : ∀ i < k + 1, term i = bmap.pair (entry (a.tail ++ [(List.range n).map fun _ => (-1 : F)]) i)
      (entry (derivedVectors (powers x (k + 1)) b (k + 1) n) i) :=
    fun i row => (evaluate_ok (each i (List.mem_range.mpr row))).2.2
  have known : ∀ i < k + 1, ∀ j < n, (b.getD i []).getD j 0 = entry b i j := fun _ _ _ _ => rfl
  subst wide
  rw [sum_list_range, Finset.sum_range_succ, paired k k.lt_succ_self,
    BilinearMap.pair_congr (fun j inside => slots_last rows inside) fun j inside => derivedVectors_last known inside,
    sum_congr rfl fun i member => (paired i (Nat.lt_succ_of_lt (mem_range.mp member))).trans
      (BilinearMap.pair_congr (fun j _ => congrFun (slots_entry rows (mem_range.mp member)) j)
        fun j inside => derivedVectors_entry known (mem_range.mp member) inside),
    batched_pairs bmap x k a (entry b)] at sum
  rw [← sum]
  refine sum_congr rfl fun j member => ?_
  rw [coefficients j (mem_range.mp member)]

theorem rows_multiply {points : Finset F} {inner : F → Finset F} (rows : a.length = k + 1) (enough : points.card = k)
    (nonzero : 0 ∉ points) (enoughInner : ∀ x ∈ points, (inner x).card = n) (nonzeroInner : ∀ x ∈ points, 0 ∉ inner x)
    (zero : ∀ x ∈ points, ∀ y ∈ inner x, ∃ bmap, BilinearMap.fromChallenge y n = .ok bmap ∧
      ZeroRelation bmap (k + 1) (a.tail ++ [(List.range n).map fun _ => (-1 : F)])
        (derivedVectors (powers x (k + 1)) b (k + 1) n)) (row : i < k) (column : j < n) :
    entry b (i + 1) j = entry a (i + 1) j * entry b i j := by
  have vanish : ∀ x ∈ points, ∑ i ∈ range k, x ^ (i + 1) • (entry a (i + 1) j * entry b i j - entry b (i + 1) j) = 0 := by
    intro x member
    refine eq_zero_of_finset (v := fun j => ∑ i ∈ range k, x ^ (i + 1) • (entry a (i + 1) j * entry b i j -
      entry b (i + 1) j)) (enoughInner x member) (nonzeroInner x member) (fun y inside => ?_) column
    obtain ⟨bmap, mapped, relation⟩ := zero x member y inside
    exact entries_of_zeroRelation mapped rows relation
  exact (sub_eq_zero.mp (eq_zero_of_finset enough nonzero vanish row)).symm

omit [DecidableEq F] in
theorem last_row (links : ∀ i < k, ∀ j < n, entry b (i + 1) j = entry a (i + 1) j * entry b i j) (row : i ≤ k)
    (column : j < n) : entry b i j = entry b 0 j * ∏ l ∈ range i, entry a (l + 1) j := by
  induction i with
  | zero => rw [prod_range_zero, mul_one]
  | succ i ih =>
    rw [links i row j column, ih (Nat.le_of_succ_le row), Finset.prod_range_succ]
    ring

end

/-- The vectors of the zero relation are what the commitments open to that `verify` hands to the zero
argument. -/
def DerivedOpen (ck : CommitmentKey G) (cA cB : List G) (a b : List (List F)) (r s : List F) (m n : ℕ) (x : F) : Prop :=
  ∃ derived, derivedCommitments ck cB m n (powers x m) = .ok derived ∧ ∀ i < m,
    commit ck ((a.tail ++ [(List.range n).map fun _ => (-1 : F)]).getD i []) ((r.tail ++ [0]).getD i 0) =
        .ok ((cA.tail ++ [derived.cNeg1]).getD i 0) ∧
      commit ck ((derivedVectors (powers x m) b m n).getD i []) ((derivedBlinders (powers x m) s m).getD i 0) =
        .ok ((derived.cDList ++ [derived.cD]).getD i 0)

theorem derived_opens {ck : CommitmentKey G} {cA cB : List G} {a b : List (List F)} {r s : List F} {k n : ℕ} (fits : n ≤ ck.n)
    (rows : a.length = k + 1) (lenA : cA.length = k + 1) (lenr : r.length = k + 1)
    (widthB : ∀ i < k + 1, (b.getD i []).length = n)
    (opensA : ∀ i < k + 1, commit ck (a.getD i []) (r.getD i 0) = .ok (cA.getD i 0))
    (opensB : ∀ i < k + 1, commit ck (b.getD i []) (s.getD i 0) = .ok (cB.getD i 0)) (x : F) :
    DerivedOpen ck cA cB a b r s (k + 1) n x := by
  have opened : ∀ i < k + 1, cB.getD i 0 = ck.com n (entry b i) (s.getD i 0) := by
    intro i row
    have committed := opensB i row
    rw [commit_eq _ (by rw [widthB i row]; exact fits), widthB i row] at committed
    exact (Except.ok.inj committed).symm
  have known : ∀ i < k + 1, ∀ j < n, (b.getD i []).getD j 0 = entry b i j := fun _ _ _ _ => rfl
  have width : ∀ i < k + 1, ((derivedVectors (powers x (k + 1)) b (k + 1) n).getD i []).length = n := by
    intro i row
    rw [getD_eq_getElem _ _ (by simpa [derivedVectors] using row)]
    exact derivedVectors_width _ (getElem_mem _)
  refine ⟨_, derivedCommitments_eq k.succ_pos fits opened x, fun i row => ⟨?_, ?_⟩⟩
  · obtain before | rfl := Nat.lt_succ_iff_lt_or_eq.mp row
    · rw [getD_concat_lt _ _ (by simp [rows]) before, getD_concat_lt _ _ (by simp [lenr]) before,
        getD_concat_lt _ _ (by simp [lenA]) before, getD_tail, getD_tail, getD_tail, opensA (i + 1) (by omega)]
    rw [getD_concat_last _ _ (by simp [rows]), getD_concat_last _ _ (by simp [lenr]),
      getD_concat_last _ _ (by simp [lenA]), commit_map_range _ _ fits]
  rw [commit_eq _ (by rw [width i row]; exact fits), width i row]
  obtain before | rfl := Nat.lt_succ_iff_lt_or_eq.mp row
  · rw [derivedBlinders_getD before, getD_concat_lt _ _ (by simp) before]
    refine congrArg Except.ok (Eq.trans ?_ (getD_map_range _ _ before).symm)
    exact CommitmentKey.com_congr ck _ _ fun j inside => derivedVectors_entry known before inside
  rw [derivedBlinders_last, getD_concat_last _ _ (by simp)]
  exact congrArg Except.ok (CommitmentKey.com_congr ck _ _ fun j inside => derivedVectors_last known inside)

/-- The first row is under two names. Two openings of it are a relation between the generators. -/
def closed (n : ℕ) (a b : List (List F)) (r s : List F) : Extracted F (List F) :=
  extractOr [(r.getD 0 0 - s.getD 0 0, (List.range n).map fun j => entry a 0 j - entry b 0 j)]
    ((List.range n).map fun j => ∏ i ∈ range a.length, entry a i j)

/-- The zero argument extracts openings that satisfy its relation, and the Hadamard argument reads from
them that each row of `c_B` is the row before times the next row of `c_A`. -/
theorem hadamard_extracts (ck : CommitmentKey G) :
    (∀ (cA cB : List G) (bmap : BilinearMap F) (cA0 cBm : G) (cD : List G) (x : ℕ → F) (answers : ℕ → Answer F),
      1 ≤ cA.length → cD.getD (cA.length + 1) 0 = 0 →
      (∀ l < 2 * cA.length + 1, checkEquations ck cA cB bmap ((answers l).proof cA0 cBm cD) (x l) = .ok true) →
      Set.InjOn x (Set.Iio (2 * cA.length + 1)) →
      (extract cA.length bmap x answers).Sound ck (Witness.Valid ck cA cB bmap)) ∧
    ∀ (cA interior : List G) (cb : G) (a b : List (List F)) (r s : List F) (m n : ℕ) (X : Finset F) (Y : F → Finset F),
      2 ≤ m → a.length = m → cA.length = m → r.length = m → interior.length = m - 2 →
      (∀ i < m, (a.getD i []).length = n) → (∀ i < m, (b.getD i []).length = n) →
      (∀ i < m, commit ck (a.getD i []) (r.getD i 0) = .ok (cA.getD i 0)) →
      (∀ i < m, commit ck (b.getD i []) (s.getD i 0) = .ok ((cA.getD 0 0 :: (interior ++ [cb])).getD i 0)) →
      X.card = m - 1 → 0 ∉ X → (∀ x ∈ X, (Y x).card = n) → (∀ x ∈ X, 0 ∉ Y x) →
      (∀ x ∈ X, ∀ y ∈ Y x, ∃ bmap, BilinearMap.fromChallenge y n = .ok bmap ∧
        ZeroRelation bmap m (a.tail ++ [(List.range n).map fun _ => (-1 : F)]) (derivedVectors (powers x m) b m n)) →
      (∀ x, DerivedOpen ck cA (cA.getD 0 0 :: (interior ++ [cb])) a b r s m n x) ∧
      (∀ i < m - 1, ∀ j < n, entry b (i + 1) j = entry a (i + 1) j * entry b i j) ∧
        (closed n a b r s).Sound ck fun product => commit ck product (s.getD (m - 1) 0) = .ok cb := by
  refine ⟨?_, ?_⟩
  · intro cA cB bmap cA0 cBm cD x answers some identity checked distinct
    exact extract_sound (fun l below => accepted_of_checkEquations (checked l below)) distinct some identity
  intro cA interior cb a b r s m n X Y two rows lenA lenr inside widthA widthB opensA opensB enough nonzero enoughInner nonzeroInner zero
  obtain ⟨k, rfl⟩ : ∃ k, m = k + 1 := ⟨m - 1, by omega⟩
  have links : ∀ i < k, ∀ j < n, entry b (i + 1) j = entry a (i + 1) j * entry b i j :=
    fun i row j column => rows_multiply rows enough nonzero enoughInner nonzeroInner zero row column
  obtain ⟨fits, openedA⟩ := CommitmentKey.opened_of_commit (widthA 0 k.succ_pos) (opensA 0 k.succ_pos)
  obtain ⟨-, openedB⟩ := CommitmentKey.opened_of_commit (widthB 0 k.succ_pos) (opensB 0 k.succ_pos)
  refine ⟨derived_opens fits rows lenA lenr widthB opensA opensB, links, extractOr_sound ?_ fun none => ?_⟩
  · intro relation member
    rw [List.mem_singleton.mp member, commit_map_range _ _ fits, ← CommitmentKey.opened_eq_com]
    have difference := map_sub (ck.opened F n) (r.getD 0 0, fun j : Fin n => (a.getD 0 []).getD j 0)
      (s.getD 0 0, fun j : Fin n => (b.getD 0 []).getD j 0)
    rw [openedA, openedB, getD_cons_zero, sub_self] at difference
    exact congrArg Except.ok difference
  have first : ∀ j < n, entry a 0 j = entry b 0 j := by
    intro j column
    refine sub_eq_zero.mp ((none _ (List.mem_singleton_self _)).2 _ ?_)
    exact List.mem_map.mpr ⟨j, List.mem_range.mpr column, rfl⟩
  have last : (cA.getD 0 0 :: (interior ++ [cb])).getD k 0 = cb := by
    obtain ⟨k, rfl⟩ : ∃ l, k = l + 1 := ⟨k - 1, by omega⟩
    rw [getD_cons_succ, getD_concat_last _ _ (by omega)]
  rw [← last, ← opensB k k.lt_succ_self, eq_map_range (b.getD k []) 0, widthB k k.lt_succ_self]
  refine congrArg (commit ck · _) (map_range_congr fun j column => ?_)
  rw [rows, Finset.prod_range_succ', mul_comm, first j column]
  exact (last_row links le_rfl column).symm

local instance prime_seven_zero : Fact (Nat.Prime 7) := ⟨by decide⟩

theorem hadamard_extracts_two :
    let ck : CommitmentKey (ZMod 7) := ⟨3, [1, 5]⟩
    let bmap : BilinearMap (ZMod 7) := ⟨[1, 1], by decide, by decide⟩
    let A (i _j : ℕ) : ZMod 7 := i
    let C (i j : ℕ) : ZMod 7 := if i = 0 then [1, 6].getD j 0 else 2
    let x (l : ℕ) : ZMod 7 := [1, 2].getD l 4
    let blinders (i : ℕ) : ZMod 7 := if i = 2 then 0 else 5
    let proof (x : ZMod 7) := honest ck bmap 1 A C blinders blinders blinders x
    let answers (l : ℕ) : Answer (ZMod 7) := ⟨(proof (x l)).aTilde, (proof (x l)).bTilde, (proof (x l)).rTilde,
      (proof (x l)).sTilde, (proof (x l)).tTilde⟩
    (extract 1 bmap x answers).Sound ck (Witness.Valid ck [ck.com 2 (A 1) 5] [ck.com 2 (C 0) 5] bmap) ∧
      (closed 2 [[2, 3], [4, 5]] [[2, 3], [1, 1]] [1, 2] [1, 6]).Sound ck fun product =>
        commit ck product (6 : ZMod 7) = .ok 3 := by
  intro ck bmap A C x blinders proof answers
  constructor
  · refine (hadamard_extracts ck).1 [ck.com 2 (A 1) 5] [ck.com 2 (C 0) 5] bmap (proof 0).cA0 (proof 0).cBm (proof 0).cD x
      answers le_rfl (by decide) (fun l _ => ?_) fun i hi j hj same => ?_
    · refine checkEquations_honest (m := 1) (A := A) (C := C) rfl rfl le_rfl one_le_two (fun i row => ?_) (fun i row => ?_)
        (x l)
      · obtain rfl := Nat.lt_one_iff.mp row
        rfl
      obtain rfl := Nat.lt_one_iff.mp row
      rfl
    change i < 3 at hi
    change j < 3 at hj
    interval_cases i <;> interval_cases j <;> first | rfl | exact absurd same (by decide)
  refine ((hadamard_extracts ck).2 [6, 0] [] 3 [[2, 3], [4, 5]] [[2, 3], [1, 1]] [1, 2] [1, 6] 2 2 {1} (fun _ => {1, 2})
    le_rfl rfl rfl rfl rfl (by decide) (by decide) ?_ ?_ (by decide) (by decide) (by decide) (by decide) ?_).2.2
  · intro i row
    interval_cases i <;> exact (commit_eq _ (by decide)).trans (congrArg Except.ok (by decide))
  · intro i row
    interval_cases i <;> exact (commit_eq _ (by decide)).trans (congrArg Except.ok (by decide))
  intro x one y member
  rw [Finset.mem_singleton.mp one]
  obtain rfl | member := Finset.mem_insert.mp member
  · exact ⟨_, rfl, _, rfl, by decide⟩
  rw [Finset.mem_singleton.mp member]
  exact ⟨_, rfl, _, rfl, by decide⟩

end Holdem.BgHadamard
