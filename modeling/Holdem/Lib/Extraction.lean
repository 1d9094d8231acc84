import Mathlib.LinearAlgebra.Lagrange
import Mathlib.RingTheory.SimpleRing.Principal
import Mathlib.LinearAlgebra.Vandermonde
import Mathlib.LinearAlgebra.Dual.Lemmas
import Mathlib.LinearAlgebra.Quotient.Basic
import Mathlib.Tactic.LinearCombination

/-!
What an extractor computes from many accepting answers: a product identity at enough points pins a
multiset, and powers of distinct challenges pin each term of a batched sum.
-/

namespace Extraction

open Polynomial Finset

variable {F ι M : Type*} [Field F] [Fintype ι] [AddCommGroup M] [Module F M] {N : ℕ} {x : Fin N → F} {v : Fin N → M}

noncomputable def factors (u : ι → F) : F[X] := ∏ i, (X - C (u i))

theorem factors_monic (u : ι → F) : (factors u).Monic := monic_prod_of_monic _ _ fun i _ => monic_X_sub_C (u i)

theorem factors_degree (u : ι → F) : (factors u).degree = Fintype.card ι := by
  rw [factors, degree_prod, sum_congr rfl fun i _ => degree_X_sub_C (u i)]
  simp

theorem factors_eval (u : ι → F) (z : F) : (factors u).eval z = (-1) ^ Fintype.card ι * ∏ i, (u i - z) := by
  have flip : ∏ i, (z - u i) = ∏ i, (-1) * (u i - z) := prod_congr rfl fun i _ => by ring
  rw [factors, eval_prod, prod_congr rfl fun i _ => by rw [eval_sub, eval_X, eval_C], flip, prod_mul_distrib,
    prod_const, card_univ]

theorem factors_roots (u : ι → F) : (factors u).roots = univ.val.map u := by
  rw [factors, prod_eq_multiset_prod]
  have shape : univ.val.map (fun i => X - C (u i)) = (univ.val.map u).map fun a => X - C a := by
    rw [Multiset.map_map]
    rfl
  rw [shape, roots_multiset_prod_X_sub_C]

theorem map_eq_of_prod_sub_eq {u v : ι → F} {Z : Finset F} (enough : Fintype.card ι ≤ Z.card)
    (agree : ∀ z ∈ Z, ∏ i, (u i - z) = ∏ i, (v i - z)) : univ.val.map u = univ.val.map v := by
  have same : factors u = factors v := by
    cases isEmpty_or_nonempty ι with
    | inl empty => rw [factors, factors, prod_of_isEmpty, prod_of_isEmpty]
    | inr inhabited =>
      apply eq_of_degree_sub_lt_of_eval_finset_eq Z
      · have lower : (factors u - factors v).degree < (factors u).degree := by
          apply degree_sub_lt_left
          · rw [factors_degree, factors_degree]
          · exact (factors_monic u).ne_zero
          rw [(factors_monic u).leadingCoeff, (factors_monic v).leadingCoeff]
        rw [factors_degree] at lower
        exact lower.trans_le (by exact_mod_cast enough)
      intro z member
      rw [factors_eval, factors_eval, agree z member]
  rw [← factors_roots, same, factors_roots]

section Pencils

variable [DecidableEq F] {a b c d : ι → F} {Y : Finset F}

def meetings (Y : Finset F) (a b c d : F) : Finset F :=
  Y.filter fun y => y * a + b = y * c + d ∧ ¬(a = c ∧ b = d)

theorem card_meetings (Y : Finset F) (a b c d : F) : (meetings Y a b c d).card ≤ 1 := by
  refine card_le_one.mpr fun y hy y' hy' => ?_
  obtain ⟨-, meet, differ⟩ := mem_filter.mp hy
  obtain ⟨-, meet', -⟩ := mem_filter.mp hy'
  by_contra distinct
  have slopes : (y - y') * (a - c) = 0 := by linear_combination meet - meet'
  have slope : a = c := sub_eq_zero.mp ((mul_eq_zero.mp slopes).resolve_left (sub_ne_zero.mpr distinct))
  exact differ ⟨slope, by rw [slope] at meet; exact add_left_cancel meet⟩

theorem exists_separating (a b c d : ι → F) (enough : Fintype.card ι ^ 2 < Y.card) :
    ∃ y ∈ Y, ∀ i k, y * a i + b i = y * c k + d k → a i = c k ∧ b i = d k := by
  classical
  let met := (univ : Finset (ι × ι)).biUnion fun p => meetings Y (a p.1) (b p.1) (c p.2) (d p.2)
  have few : met.card ≤ Fintype.card ι ^ 2 := by
    calc met.card ≤ ∑ p : ι × ι, (meetings Y (a p.1) (b p.1) (c p.2) (d p.2)).card := card_biUnion_le
      _ ≤ ∑ _p : ι × ι, 1 := sum_le_sum fun p _ => card_meetings _ _ _ _ _
      _ = Fintype.card ι ^ 2 := by simp [sq]
  obtain ⟨y, member, apart⟩ := exists_mem_notMem_of_card_lt_card (few.trans_lt enough)
  refine ⟨y, member, fun i k meet => ?_⟩
  by_contra differ
  exact apart (mem_biUnion.mpr ⟨(i, k), mem_univ _, mem_filter.mpr ⟨member, meet, differ⟩⟩)

theorem exists_perm_of_lines (slopes : Function.Injective c) (enough : Fintype.card ι ^ 2 < Y.card)
    (agree : ∀ y ∈ Y, univ.val.map (fun i => y * a i + b i) = univ.val.map fun k => y * c k + d k) :
    ∃ σ : Equiv.Perm ι, ∀ i, a i = c (σ i) ∧ b i = d (σ i) := by
  classical
  obtain ⟨y, member, separates⟩ := exists_separating a b c d enough
  have found : ∀ k, ∃ i, a i = c k ∧ b i = d k := by
    intro k
    have value : y * c k + d k ∈ univ.val.map fun i => y * a i + b i := by
      rw [agree y member]
      exact Multiset.mem_map_of_mem _ (mem_univ k)
    obtain ⟨i, -, meet⟩ := Multiset.mem_map.mp value
    exact ⟨i, separates i k meet⟩
  choose place hplace using found
  have injective : Function.Injective place := by
    intro k k' same
    apply slopes
    rw [← (hplace k).1, same, (hplace k').1]
  let matching := Equiv.ofBijective place (Finite.injective_iff_bijective.mp injective)
  refine ⟨matching.symm, fun i => ?_⟩
  have back : place (matching.symm i) = i := matching.apply_symm_apply i
  have lines := hplace (matching.symm i)
  rwa [back] at lines

end Pencils

theorem coefficients_eq_zero (distinct : Function.Injective x)
    (vanish : ∀ l, ∑ j : Fin N, x l ^ j.val • v j = 0) : v = 0 := by
  funext j
  rw [Pi.zero_apply, ← Module.forall_dual_apply_eq_zero_iff F]
  intro φ
  have image : (fun j => φ (v j)) = 0 := by
    apply Matrix.eq_zero_of_forall_index_sum_pow_mul_eq_zero distinct
    intro l
    have applied := congrArg φ (vanish l)
    rw [map_sum, map_zero] at applied
    rw [← applied]
    exact sum_congr rfl fun j _ => (map_smul φ _ _).symm
  exact congrFun image j

theorem eq_zero_of_sum_pow_smul (distinct : Function.Injective x)
    (nonzero : ∀ l, x l ≠ 0) (vanish : ∀ l, ∑ j : Fin N, x l ^ (j.val + 1) • v j = 0) : v = 0 := by
  refine coefficients_eq_zero distinct fun l => ?_
  have scaled : x l • ∑ j : Fin N, x l ^ j.val • v j = 0 := by
    rw [← vanish l, smul_sum]
    exact sum_congr rfl fun j _ => by rw [pow_succ', mul_smul]
  exact (smul_eq_zero.mp scaled).resolve_left (nonzero l)

theorem eq_zero_of_finset {points : Finset F} {v : ℕ → M} (enough : points.card = N) (nonzero : 0 ∉ points)
    (vanish : ∀ x ∈ points, ∑ j ∈ range N, x ^ (j + 1) • v j = 0) {j : ℕ} (below : j < N) : v j = 0 := by
  let x := points.equivFinOfCardEq enough
  have zero := eq_zero_of_sum_pow_smul (v := fun j : Fin N => v j) (x := fun l => ((x.symm l : points) : F))
    (Subtype.val_injective.comp x.symm.injective) (fun l => ne_of_mem_of_not_mem (x.symm l).property nonzero) ?_
  · exact congrFun zero ⟨j, below⟩
  intro l
  rw [← vanish _ (x.symm l).property]
  exact Fin.sum_univ_eq_sum_range (fun j => ((x.symm l : points) : F) ^ (j + 1) • v j) N

theorem mem_of_sum_pow_smul_mem (S : Submodule F M) (distinct : Function.Injective x) (nonzero : ∀ l, x l ≠ 0)
    (inside : ∀ l, ∑ j : Fin N, x l ^ (j.val + 1) • v j ∈ S) (j : Fin N) : v j ∈ S := by
  have zero : (fun j => S.mkQ (v j)) = 0 := by
    apply eq_zero_of_sum_pow_smul distinct nonzero
    intro l
    have image := (Submodule.Quotient.mk_eq_zero S).mpr (inside l)
    rw [← Submodule.mkQ_apply, map_sum] at image
    simpa only [map_smul] using image
  exact (Submodule.Quotient.mk_eq_zero S).mp (congrFun zero j)

end Extraction
