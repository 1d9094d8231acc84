import Holdem.BayerGroth.Svp
import Holdem.Crypto.Opening
import Mathlib.Algebra.Field.ZMod

/-!
What accepted answers of the single-value product argument determine. The chain `b_tilde`, times powers of
the challenge, is a polynomial that leads with the product of the committed values.
-/

set_option linter.unusedSectionVars false

namespace Holdem.BgSvp

open List Folding Extraction Polynomial Opening

variable {F G B : Type} [Field F] [DecidableEq F] [AddCommGroup G] [Module F G] [DecidableEq G]

structure Answer (F : Type) where
  aTilde : List F
  bTilde : List F
  rTilde : F
  sTilde : F

def Answer.proof (answer : Answer F) (cd cdelta cDelta : G) : SVPProof F G :=
  ⟨cd, cdelta, cDelta, answer.aTilde, answer.bTilde, answer.rTilde, answer.sTilde⟩

def Answer.values (n : ℕ) (answer : Answer F) : Opening F n := (answer.rTilde, fun j => answer.aTilde.getD j 0)

def Answer.links (n : ℕ) (x : F) (answer : Answer F) : Opening F (n - 1) :=
  (answer.sTilde, fun i => x * answer.bTilde.getD (i + 1) 0 - answer.bTilde.getD i 0 * answer.aTilde.getD (i + 1) 0)

/-- Values under `c_a` and their randomness, or a relation that one of the answers gives away. -/
def extract (n : ℕ) (x : ℕ → F) (answers : ℕ → Answer F) : Extracted F (List F × F) :=
  let values l := (answers l).values n
  let links l := (answers l).links n (x l)
  let found := interpolate 2 x values 1
  extractOr (((range (n + 1)).map fun l => Opening.relation (residue 2 x values l)) ++
    (range (n + 1)).map fun l => Opening.relation (residue 2 x links l)) (ofFn found.2, found.1)

/-- The checks of `verify`, on an answer to a challenge. -/
structure Accepted (ck : CommitmentKey G) (ca : G) (n : ℕ) (b : F) (cd cdelta cDelta : G) (x : F) (answer : Answer F) :
    Prop where
  wide : 2 ≤ n
  fits : n ≤ ck.n
  values : ck.opened F n (answer.values n) = x • ca + cd
  links : ck.opened F (n - 1) (answer.links n x) = x • cDelta + cdelta
  first : answer.bTilde.getD 0 0 = answer.aTilde.getD 0 0
  last : answer.bTilde.getD (n - 1) 0 = x * b

theorem accepted_of_verify {O : Oracle F G B} {ck : CommitmentKey G} {ca : G} {n : ℕ} {b : F} {cd cdelta cDelta : G}
    {context : B} {answer : Answer F}
    (verified : verify O ck ca n b context (answer.proof cd cdelta cDelta) = .ok true) :
    Accepted ck ca n b cd cdelta cDelta (challenge O ck ca n b cd cdelta cDelta context) answer := by
  unfold verify at verified
  split at verified
  · cases verified
  next shape =>
  split at verified
  · cases verified
  next lengths =>
  rw [not_or, not_lt, not_lt] at shape
  have lenA : answer.aTilde.length = n := not_not.mp (not_or.mp lengths).1
  have opened : commit ck answer.aTilde answer.rTilde = .ok (ck.opened F n (answer.values n)) := by
    rw [commit_eq _ (by omega), lenA]
    exact congrArg Except.ok (ck.opened_eq_com _ _).symm
  rw [show commit ck (answer.proof cd cdelta cDelta).aTilde (answer.proof cd cdelta cDelta).rTilde = _ from opened,
    ok_bind] at verified
  split at verified
  · next same =>
    rw [commit_map_range _ _ (by omega), ok_bind] at verified
    simp only [Except.ok.injEq, Bool.and_eq_true, decide_eq_true_eq, mulSafe_eq] at verified same
    obtain ⟨⟨chained, first⟩, last⟩ := verified
    refine ⟨shape.1, shape.2, same.symm, ?_, first, last⟩
    exact (ck.opened_eq_com _ _).trans chained.symm
  cases verified

section Chain

variable (a d step shift : ℕ → F)

noncomputable def chain : ℕ → F[X]
  | 0 => C (a 0) * X + C (d 0)
  | i + 1 => chain i * (C (a (i + 1)) * X + C (d (i + 1))) + X ^ i * (C (step i) * X + C (shift i))

theorem chain_natDegree (i : ℕ) : (chain a d step shift i).natDegree ≤ i + 1 := by
  induction i with
  | zero => exact natDegree_linear_le
  | succ i ih =>
    refine natDegree_add_le_of_degree_le ?_ ?_
    · exact natDegree_mul_le_of_le ih natDegree_linear_le
    exact (natDegree_mul_le_of_le (natDegree_X_pow_le i) natDegree_linear_le).trans (by omega)

theorem chain_coeff (i : ℕ) : (chain a d step shift i).coeff (i + 1) = ∏ j ∈ Finset.range (i + 1), a j := by
  induction i with
  | zero => simp [chain]
  | succ i ih =>
    have low : (X ^ i * (C (step i) * X + C (shift i))).coeff (i + 1 + 1) = 0 := by
      apply coeff_eq_zero_of_natDegree_lt
      have := natDegree_mul_le_of_le (natDegree_X_pow_le (R := F) i) (natDegree_linear_le (a := step i) (b := shift i))
      omega
    have top : (chain a d step shift i).coeff (i + 1 + 1) = 0 :=
      coeff_eq_zero_of_natDegree_lt (by have := chain_natDegree a d step shift i; omega)
    rw [chain, coeff_add, low, add_zero, Finset.prod_range_succ, ← ih, mul_add, coeff_add, coeff_mul_C, top, zero_mul,
      add_zero, mul_comm (C _) X, ← mul_assoc, coeff_mul_C, coeff_mul_X]

variable {a d step shift}

theorem chain_eval {n : ℕ} {x : F} (bTilde : ℕ → F) (start : bTilde 0 = x * a 0 + d 0)
    (links : ∀ i, i + 1 < n → x * bTilde (i + 1) - bTilde i * (x * a (i + 1) + d (i + 1)) = x * step i + shift i)
    {i : ℕ} (below : i < n) : (chain a d step shift i).eval x = x ^ i * bTilde i := by
  induction i with
  | zero => simp only [chain, eval_add, eval_mul, eval_C, eval_X, pow_zero, one_mul, start, mul_comm x]
  | succ i ih =>
    simp only [chain, eval_add, eval_mul, eval_C, eval_X, eval_pow, ih (by omega)]
    linear_combination (-x ^ i) * links i below

variable (a d step shift) in
theorem prod_eq_of_chain {n : ℕ} {b : F} (points : Finset F) (enough : n + 1 < points.card)
    (agree : ∀ x ∈ points, (chain a d step shift n).eval x = x ^ n * (x * b)) :
    ∏ j ∈ Finset.range (n + 1), a j = b := by
  have same : chain a d step shift n = C b * X ^ (n + 1) := by
    apply eq_of_degree_sub_lt_of_eval_finset_eq points
    · refine (degree_le_of_natDegree_le (n := n + 1) ?_).trans_lt (by exact_mod_cast enough)
      have highest := natDegree_sub_le_of_le (chain_natDegree a d step shift n) (natDegree_C_mul_X_pow_le b (n + 1))
      rwa [max_self] at highest
    intro x member
    rw [agree x member, eval_mul, eval_C, eval_pow, eval_X]
    ring
  rw [← chain_coeff a d step shift, same, coeff_C_mul_X_pow, if_pos rfl]

end Chain

section Extraction

variable {ck : CommitmentKey G} {ca : G} {n : ℕ} {b : F} {cd cdelta cDelta : G} {x : ℕ → F} {answers : ℕ → Answer F}

section

variable (accepted : ∀ l < n + 1, Accepted ck ca n b cd cdelta cDelta (x l) (answers l)) (distinct : Set.InjOn x
  (Set.Iio (n + 1)))
include accepted distinct

theorem product_of_lines (openings : ℕ → Opening F n) (steps : ℕ → Opening F (n - 1))
    (values : ∀ l < n + 1, (answers l).values n = openings 0 + x l • openings 1)
    (links : ∀ l < n + 1, (answers l).links n (x l) = steps 0 + x l • steps 1) :
    (ofFn (openings 1).2).prod = b := by
  have wide := (accepted 0 n.succ_pos).wide
  have folded : ∀ l < n + 1, ∀ j < n, (answers l).aTilde.getD j 0 =
      x l * Opening.entry (openings 1) j + Opening.entry (openings 0) j := by
    intro l below j inside
    have entry := congrFun (congrArg Prod.snd (values l below)) ⟨j, inside⟩
    rw [entry_eq _ inside, entry_eq _ inside, add_comm]
    exact entry
  have linked : ∀ l < n + 1, ∀ i, i + 1 < n → x l * (answers l).bTilde.getD (i + 1) 0 -
      (answers l).bTilde.getD i 0 * (x l * Opening.entry (openings 1) (i + 1) + Opening.entry (openings 0) (i + 1)) =
      x l * Opening.entry (steps 1) i + Opening.entry (steps 0) i := by
    intro l below i inside
    have entry := congrFun (congrArg Prod.snd (links l below)) ⟨i, by omega⟩
    rw [← folded l below _ inside, entry_eq _ (by omega), entry_eq _ (by omega), add_comm (x l * _)]
    exact entry
  have points : ((Finset.range (n + 1)).image x).card = n + 1 := by
    rw [Finset.card_image_of_injOn (by simpa [Set.Iio] using distinct), Finset.card_range]
  have product : ∏ j ∈ Finset.range (n - 1 + 1), Opening.entry (openings 1) j = b := by
    refine prod_eq_of_chain _ (Opening.entry (openings 0)) (Opening.entry (steps 1)) (Opening.entry (steps 0))
      ((Finset.range (n + 1)).image x) (by omega) fun y member => ?_
    obtain ⟨l, inside, rfl⟩ := Finset.mem_image.mp member
    have below := Finset.mem_range.mp inside
    rw [← (accepted l below).last]
    refine chain_eval (n := n) (fun i => (answers l).bTilde.getD i 0) ?_ (linked l below) (by omega)
    rw [(accepted l below).first, folded l below 0 (by omega)]
  rw [← product, show n - 1 + 1 = n by omega, prod_ofFn, ← Fin.prod_univ_eq_prod_range]
  exact Finset.prod_congr rfl fun j _ => (entry_eq _ j.2).symm

theorem extract_sound : (extract n x answers).Sound ck fun found =>
      found.1.length = n ∧ commit ck found.1 found.2 = .ok ca ∧ found.1.prod = b := by
  have wide := (accepted 0 n.succ_pos).wide
  have fits := (accepted 0 n.succ_pos).fits
  have values : ∀ l < n + 1, ck.opened F n ((answers l).values n) = evalAt 2 (fun i => if i = 0 then cd else ca) (x l) := by
    intro l below
    rw [evalAt_two, (accepted l below).values, add_comm]
    rfl
  have links : ∀ l < n + 1, ck.opened F (n - 1) ((answers l).links n (x l)) =
      evalAt 2 (fun i => if i = 0 then cdelta else cDelta) (x l) := by
    intro l below
    rw [evalAt_two, (accepted l below).links, add_comm]
    rfl
  refine extractOr_sound ?_ fun none => ⟨length_ofFn, ?_, ?_⟩
  · intro relation member
    obtain member | member := mem_append.mp member
    · obtain ⟨l, inside, rfl⟩ := mem_map.mp member
      exact commit_relation fits (map_residue distinct (by omega) values (mem_range.mp inside))
    obtain ⟨l, inside, rfl⟩ := mem_map.mp member
    exact commit_relation (by omega) (map_residue distinct (by omega) links (mem_range.mp inside))
  · rw [CommitmentKey.commit_ofFn _ fits]
    exact congrArg Except.ok (map_interpolate_eq (distinct.mono (Set.Iio_subset_Iio (by omega)))
      (fun l below => values l (by omega)) Nat.one_lt_two)
  apply product_of_lines accepted distinct (interpolate 2 x fun l => (answers l).values n)
    (interpolate 2 x fun l => (answers l).links n (x l))
  · intro l below
    rw [← evalAt_two]
    exact eq_of_residue (trivial_relation_iff.mp (none _ (mem_append_left _
      (mem_map_of_mem (mem_range.mpr below)))))
  intro l below
  rw [← evalAt_two]
  exact eq_of_residue (trivial_relation_iff.mp (none _ (mem_append_right _
    (mem_map_of_mem (mem_range.mpr below)))))

end

/-- Answers with one first message that `verify` accepts for `n + 1` challenges give away values under
`c_a` whose product is `b`, or a relation between the generators. -/
theorem svp_extracts (O : ℕ → Oracle F G B) (context : ℕ → B) (ck : CommitmentKey G) (ca : G) (n : ℕ) (b : F)
    (cd cdelta cDelta : G) (answers : ℕ → Answer F)
    (verified : ∀ l < n + 1, verify (O l) ck ca n b (context l) ((answers l).proof cd cdelta cDelta) = .ok true)
    (distinct : Set.InjOn (fun l => challenge (O l) ck ca n b cd cdelta cDelta (context l)) (Set.Iio (n + 1))) :
    (extract n (fun l => challenge (O l) ck ca n b cd cdelta cDelta (context l)) answers).Sound ck fun found =>
      found.1.length = n ∧ commit ck found.1 found.2 = .ok ca ∧ found.1.prod = b :=
  extract_sound (fun l below => accepted_of_verify (verified l below)) distinct

local instance prime_seven : Fact (Nat.Prime 7) := ⟨by decide⟩

def fixed (x : {x : ZMod 7 // x ≠ 0}) : Oracle (ZMod 7) (ZMod 7) Unit := ⟨fun _ => (), fun _ _ => x⟩

theorem svp_extracts_two :
    let ck : CommitmentKey (ZMod 7) := ⟨3, [1, 5]⟩
    let a (j : ℕ) : ZMod 7 := [2, 3].getD j 0
    let challenges (l : ℕ) : {x : ZMod 7 // x ≠ 0} := [⟨1, by decide⟩, ⟨2, by decide⟩].getD l ⟨4, by decide⟩
    let proof (x : ZMod 7) := honest ck 2 a 4 ⟨fun _ => 6, 2, fun _ => 0, 5, 3⟩ x
    let answers (l : ℕ) : Answer (ZMod 7) := ⟨(proof (challenges l)).aTilde, (proof (challenges l)).bTilde,
      (proof (challenges l)).rTilde, (proof (challenges l)).sTilde⟩
    (extract 2 (fun l => (challenges l).val) answers).Sound ck fun found =>
      found.1.length = 2 ∧ commit ck found.1 found.2 = .ok (ck.com 2 a 4) ∧ found.1.prod = 6 := by
  intro ck a challenges proof answers
  refine svp_extracts (fun l => fixed (challenges l)) (fun _ => ()) ck (ck.com 2 a 4) 2 6
    (proof 0).cd (proof 0).cdelta (proof 0).cDelta answers ?_ ?_
  · exact fun l _ => verify_honest (fixed (challenges l)) () _ (by decide) (by decide) (by decide)
  intro i hi j hj same
  rw [Set.mem_Iio] at hi hj
  interval_cases i <;> interval_cases j <;> first | rfl | exact absurd same (by decide)

end Extraction

end Holdem.BgSvp
