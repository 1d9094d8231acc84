import Holdem.Lib.Extraction

/-!
Interpolation over a module, by Newton's recursion: the coefficients of the polynomial of degree below
`k` with given values at `k` distinct points, linear in the values.
-/

namespace Extraction

open Finset

variable {F M N : Type*} [Field F] [AddCommGroup M] [Module F M] [AddCommGroup N] [Module F N] {k : ℕ} {i : ℕ}

def evalAt (k : ℕ) (u : ℕ → M) (x : F) : M := ∑ i ∈ range k, x ^ i • u i

theorem evalAt_two (u : ℕ → M) (x : F) : evalAt 2 u x = u 0 + x • u 1 := by
  rw [evalAt, sum_range_succ, sum_range_one, pow_zero, one_smul, pow_one]

def interpolate : ℕ → (ℕ → F) → (ℕ → M) → ℕ → M
  | 0, _, _ => fun _ => 0
  | k + 1, x, w =>
    let slopes := interpolate k (fun l => x (l + 1)) fun l => (x (l + 1) - x 0)⁻¹ • (w (l + 1) - w 0)
    fun i => (if i = 0 then w 0 else slopes (i - 1)) - x 0 • slopes i

theorem interpolate_beyond (x : ℕ → F) (w : ℕ → M) (beyond : k ≤ i) : interpolate k x w i = 0 := by
  induction k generalizing x w i with
  | zero => rfl
  | succ k ih =>
    have inner : k ≤ i - 1 := Nat.le_sub_one_of_lt beyond
    simp only [interpolate, ih _ _ inner, ih _ _ (inner.trans (Nat.sub_le _ _)), smul_zero, sub_zero]
    exact if_neg (by omega)

theorem evalAt_interpolate_succ (k : ℕ) (x : ℕ → F) (w : ℕ → M) (y : F) :
    evalAt (k + 1) (interpolate (k + 1) x w) y = w 0 + (y - x 0) • evalAt k (interpolate k (fun l => x (l + 1))
      fun l => (x (l + 1) - x 0)⁻¹ • (w (l + 1) - w 0)) y := by
  rw [interpolate]
  generalize slopesEq : interpolate k (fun l => x (l + 1))
    (fun l => (x (l + 1) - x 0)⁻¹ • (w (l + 1) - w 0)) = slopes
  have last : slopes k = 0 := slopesEq ▸ interpolate_beyond _ _ le_rfl
  have raised : ∑ i ∈ range (k + 1), y ^ i • (if i = 0 then w 0 else slopes (i - 1)) = w 0 + y • evalAt k slopes y := by
    rw [sum_range_succ', if_pos rfl, pow_zero, one_smul, add_comm, evalAt, smul_sum]
    congr 1
    refine sum_congr rfl fun i _ => ?_
    rw [if_neg i.succ_ne_zero, Nat.add_sub_cancel, pow_succ', mul_smul]
  have same : ∑ i ∈ range (k + 1), y ^ i • x 0 • slopes i = x 0 • evalAt k slopes y := by
    rw [sum_range_succ, last, smul_zero, smul_zero, add_zero, evalAt, smul_sum]
    exact sum_congr rfl fun i _ => smul_comm _ _ _
  simp only [evalAt, smul_sub] at *
  rw [sum_sub_distrib, raised, same, sub_smul, add_sub_assoc]

theorem evalAt_interpolate {x : ℕ → F} {w : ℕ → M} (distinct : Set.InjOn x (Set.Iio k)) {l : ℕ}
    (below : l < k) : evalAt k (interpolate k x w) (x l) = w l := by
  induction k generalizing x w l with
  | zero => exact absurd below l.not_lt_zero
  | succ k ih =>
    rw [evalAt_interpolate_succ]
    cases l with
    | zero => rw [sub_self, zero_smul, add_zero]
    | succ l =>
      have apart : x (l + 1) - x 0 ≠ 0 := by
        intro same
        exact l.succ_ne_zero (distinct below (Set.mem_Iio.mpr k.succ_pos) (sub_eq_zero.mp same))
      have tail : Set.InjOn (fun l => x (l + 1)) (Set.Iio k) := by
        intro i hi j hj same
        exact Nat.succ_injective (distinct (Nat.succ_lt_succ hi) (Nat.succ_lt_succ hj) same)
      rw [ih tail (Nat.lt_of_succ_lt_succ below), smul_inv_smul₀ apart, add_sub_cancel]

theorem coefficients_eq {x : ℕ → F} {u v : ℕ → M} (distinct : Set.InjOn x (Set.Iio k))
    (agree : ∀ l < k, evalAt k u (x l) = evalAt k v (x l)) (below : i < k) : u i = v i := by
  have zero : (fun j : Fin k => u j - v j) = 0 := by
    refine coefficients_eq_zero (x := fun l : Fin k => x l) (fun l l' same => Fin.ext (distinct l.2 l'.2 same)) ?_
    intro l
    have difference := sub_eq_zero.mpr (agree l l.2)
    simp only [evalAt, ← sum_sub_distrib, ← smul_sub] at difference
    rw [← difference, ← Fin.sum_univ_eq_sum_range (fun j => x l ^ j • (u j - v j))]
  exact sub_eq_zero.mp (congrFun zero ⟨i, below⟩)

theorem map_interpolate (φ : M →ₗ[F] N) (k : ℕ) (x : ℕ → F) (w : ℕ → M) (i : ℕ) :
    φ (interpolate k x w i) = interpolate k x (fun l => φ (w l)) i := by
  induction k generalizing x w i with
  | zero => exact map_zero φ
  | succ k ih =>
    simp only [interpolate, map_sub, map_smul, ih, apply_ite φ]

theorem map_evalAt (φ : M →ₗ[F] N) (k : ℕ) (u : ℕ → M) (x : F) : φ (evalAt k u x) = evalAt k (fun i => φ (u i)) x := by
  simp only [evalAt, map_sum, map_smul]

section Batches

variable {k : ℕ} {x : ℕ → F} {w : ℕ → M} {c : ℕ → N} {φ : M →ₗ[F] N} {l : ℕ}

theorem map_interpolate_eq (distinct : Set.InjOn x (Set.Iio k))
    (batches : ∀ l < k, φ (w l) = evalAt k c (x l)) {i : ℕ} (below : i < k) :
    φ (interpolate k x w i) = c i := by
  rw [map_interpolate]
  refine coefficients_eq distinct (fun l inside => ?_) below
  rw [evalAt_interpolate distinct inside, batches l inside]

def residue (k : ℕ) (x : ℕ → F) (w : ℕ → M) (l : ℕ) : M := w l - evalAt k (interpolate k x w) (x l)

theorem eq_of_residue (zero : residue k x w l = 0) : w l = evalAt k (interpolate k x w) (x l) :=
  sub_eq_zero.mp zero

theorem map_residue {count : ℕ} (distinct : Set.InjOn x (Set.Iio count)) (enough : k ≤ count)
    (batches : ∀ l < count, φ (w l) = evalAt k c (x l)) (below : l < count) :
    φ (residue k x w l) = 0 := by
  have openings : ∀ i ∈ range k, φ (interpolate k x w i) = c i := by
    intro i inside
    exact map_interpolate_eq (distinct.mono (Set.Iio_subset_Iio enough))
      (fun l early => batches l (early.trans_le enough)) (mem_range.mp inside)
  rw [residue, map_sub, map_evalAt, batches l below, sub_eq_zero]
  exact (sum_congr rfl fun i inside => congrArg _ (openings i inside)).symm

end Batches

end Extraction
