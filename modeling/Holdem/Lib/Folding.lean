import Mathlib.Algebra.BigOperators.Intervals
import Mathlib.Algebra.BigOperators.Ring.Finset
import Mathlib.Algebra.BigOperators.GroupWithZero.Action
import Mathlib.Algebra.Module.BigOperators
import Mathlib.Data.List.GetD
import Mathlib.Tactic.Ring
import Mathlib.Tactic.Module

/-!
Lists that a loop over `range` builds, read as functions of the index, and the sums that loops over
such lists compute.
-/

namespace Folding

open Finset

variable {α β M : Type*} {n i : ℕ} {l : List α}

theorem getD_map_range (f : ℕ → α) (d : α) (below : i < n) : ((List.range n).map f).getD i d = f i := by
  rw [List.getD_eq_getElem?_getD, List.getElem?_map, List.getElem?_range below]
  rfl

theorem eq_map_range (l : List α) (d : α) : l = (List.range l.length).map fun i => l.getD i d := by
  apply List.ext_getElem
  · rw [List.length_map, List.length_range]
  intro i _ _
  rw [List.getElem_map, List.getElem_range, List.getD_eq_getElem]

theorem getD_default (d e : α) (inside : i < l.length) : l.getD i d = l.getD i e := by
  rw [List.getD_eq_getElem _ _ inside, List.getD_eq_getElem _ _ inside]

theorem getD_tail (l : List α) (i : ℕ) (d : α) : l.tail.getD i d = l.getD (i + 1) d := by
  cases l with
  | nil => rfl
  | cons a l => rw [List.tail_cons, List.getD_cons_succ]

theorem getD_concat_lt (z d : α) (len : l.length = n) (below : i < n) :
    (l ++ [z]).getD i d = l.getD i d := List.getD_append _ _ _ _ (by omega)

theorem getD_concat_last (z d : α) (len : l.length = n) : (l ++ [z]).getD n d = z := by
  rw [List.getD_append_right _ _ _ _ (by omega), len, Nat.sub_self, List.getD_cons_zero]

theorem set_getD_self (l : List α) (i : ℕ) (d : α) : l.set i (l.getD i d) = l := by
  by_cases inside : i < l.length
  · rw [List.getD_eq_getElem _ _ inside, List.set_getElem_self]
  rw [List.set_eq_of_length_le (by omega)]

theorem map_range_congr {f g : ℕ → α} (same : ∀ i < n, f i = g i) : (List.range n).map f = (List.range n).map g :=
  List.map_congr_left fun i member => same i (List.mem_range.mp member)

theorem set_map_range (f : ℕ → α) (n m : ℕ) (v : α) :
    ((List.range n).map f).set m v = (List.range n).map (Function.update f m v) := by
  apply List.ext_getElem
  · simp
  intro i _ _
  rw [List.getElem_set, List.getElem_map, List.getElem_map, List.getElem_range, Function.update_apply]
  exact if_congr eq_comm rfl rfl

theorem prod_list_range {R : Type*} [CommMonoid R] (f : ℕ → R) (n : ℕ) :
    ((List.range n).map f).prod = ∏ i ∈ range n, f i := by
  induction n with
  | zero => rfl
  | succ n ih => rw [List.range_succ, List.map_append, List.prod_append, ih, prod_range_succ]; simp

theorem sum_list_range [AddCommMonoid M] (f : ℕ → M) (n : ℕ) : ((List.range n).map f).sum = ∑ i ∈ range n, f i :=
  prod_list_range (R := Multiplicative M) f n

theorem zipWith_map_range {γ : Type*} (f : α → β → γ) (g : ℕ → α) (h : ℕ → β) (n : ℕ) :
    List.zipWith f ((List.range n).map g) ((List.range n).map h) = (List.range n).map fun i => f (g i) (h i) := by
  rw [List.zipWith_map, List.zipWith_self]

theorem sum_zipWith [AddCommMonoid M] (f : α → β → M) {k : List β} (dl : α) (dk : β)
    (hl : l.length = n) (hk : k.length = n) :
    (List.zipWith f l k).sum = ∑ i ∈ range n, f (l.getD i dl) (k.getD i dk) := by
  conv_lhs => rw [eq_map_range l dl, eq_map_range k dk, hl, hk, zipWith_map_range]
  exact sum_list_range _ n

/-- The loop that starts at `current` and multiplies by `x` before each entry. -/
def powersFrom {F : Type*} [Mul F] (x : F) : F → ℕ → List F
  | _, 0 => []
  | current, count + 1 => current * x :: powersFrom x (current * x) count

theorem powersFrom_eq {F : Type*} [CommMonoid F] (x current : F) (count : ℕ) :
    powersFrom x current count = (List.range count).map fun i => current * x ^ (i + 1) := by
  induction count generalizing current with
  | zero => rfl
  | succ count ih =>
    rw [powersFrom, ih, List.range_succ_eq_map, List.map_cons, List.map_map, pow_one]
    congr 1
    apply List.map_congr_left
    intro i _
    rw [Function.comp_apply, mul_assoc, ← pow_succ']

section Scan

variable {F : Type*} [CommMonoid F]

def running : List F → List F
  | [] => []
  | a :: rest => rest.scanl (· * ·) a

theorem length_running (l : List F) : (running l).length = l.length := by
  cases l with
  | nil => rfl
  | cons a rest => rw [running, List.length_scanl, List.length_cons]

theorem getD_scanl {l : List F} {a : F} {i : ℕ} (inside : i ≤ l.length) :
    (l.scanl (· * ·) a).getD i 1 = a * ∏ j ∈ range i, l.getD j 1 := by
  induction l generalizing a i with
  | nil =>
    rw [List.length_nil, Nat.le_zero] at inside
    subst inside
    simp
  | cons b l ih =>
    rw [List.scanl_cons]
    cases i with
    | zero => simp
    | succ i =>
      rw [List.getD_cons_succ, ih (by simpa using inside), prod_range_succ']
      simp only [List.getD_cons_succ, List.getD_cons_zero]
      rw [mul_assoc, mul_comm b]

theorem getD_running {l : List F} {i : ℕ} (d e : F) (inside : i < l.length) :
    (running l).getD i d = ∏ j ∈ range (i + 1), l.getD j e := by
  have defaults : ∏ j ∈ range (i + 1), l.getD j e = ∏ j ∈ range (i + 1), l.getD j 1 :=
    prod_congr rfl fun j member => getD_default e 1 (by have := mem_range.mp member; omega)
  rw [defaults, getD_default d 1 (by rwa [length_running])]
  cases l with
  | nil => cases inside
  | cons a rest =>
    rw [running, getD_scanl (by simpa [Nat.lt_succ_iff] using inside), prod_range_succ']
    simp only [List.getD_cons_succ, List.getD_cons_zero]
    rw [mul_comm]

end Scan

section Rows

theorem prod_rows_flat [CommMonoid M] (f : ℕ → M) (m n : ℕ) :
    ∏ i ∈ range m, ∏ j ∈ range n, f (i * n + j) = ∏ p ∈ range (m * n), f p := by
  induction m with
  | zero => rw [Nat.zero_mul, range_zero, prod_empty, prod_empty]
  | succ m ih => rw [prod_range_succ, ih, Nat.succ_mul, prod_range_add]

theorem sum_rows_flat [AddCommMonoid M] (f : ℕ → M) (m n : ℕ) :
    ∑ i ∈ range m, ∑ j ∈ range n, f (i * n + j) = ∑ p ∈ range (m * n), f p :=
  prod_rows_flat (M := Multiplicative M) f m n

variable {perm : List ℕ} {n : ℕ}

theorem map_perm (permutes : perm.Perm (List.range n)) (f : ℕ → α) :
    perm.map f = (List.range n).map fun p => f (perm.getD p 0) := by
  have long : perm.length = n := by rw [permutes.length_eq, List.length_range]
  conv_lhs => rw [eq_map_range perm 0, long, List.map_map]
  rfl

theorem prod_perm [CommMonoid M] (permutes : perm.Perm (List.range n)) (f : ℕ → M) :
    ∏ p ∈ range n, f (perm.getD p 0) = ∏ k ∈ range n, f k := by
  rw [← prod_list_range, ← prod_list_range, ← map_perm permutes, (permutes.map f).prod_eq]

theorem sum_perm [AddCommMonoid M] (permutes : perm.Perm (List.range n)) (f : ℕ → M) :
    ∑ p ∈ range n, f (perm.getD p 0) = ∑ k ∈ range n, f k :=
  prod_perm (M := Multiplicative M) permutes f

end Rows

section Diagonals

theorem sum_row_diagonals [AddCommMonoid M] (g : ℕ → M) {m i : ℕ} (inside : i < m + 1) :
    ∑ k ∈ (range (2 * m + 1)).filter (fun k => k ≤ m + i ∧ m + i - k ≤ m), g k = ∑ j ∈ range (m + 1), g (m + i - j) := by
  refine sum_nbij' (fun k => m + i - k) (fun j => m + i - j) ?_ ?_ ?_ ?_ ?_
  all_goals intro k member
  all_goals simp only [mem_filter, mem_range] at member ⊢
  any_goals omega
  congr 1
  omega

theorem sum_diagonals {F : Type*} [CommSemiring F] (x : F) (f : ℕ → ℕ → F) (m : ℕ) : ∑ k ∈ range (2 * m + 1), x ^ k *
        ∑ i ∈ (range (m + 1)).filter (fun i => k ≤ m + i ∧ m + i - k ≤ m), f i (m + i - k) =
      ∑ i ∈ range (m + 1), ∑ j ∈ range (m + 1), x ^ i * x ^ (m - j) * f i j := by
  simp only [mul_sum, sum_filter]
  rw [sum_comm]
  refine sum_congr rfl fun i inside => ?_
  have row := sum_row_diagonals (fun k => x ^ k * f i (m + i - k)) (mem_range.mp inside)
  rw [sum_filter] at row
  simp only [mul_ite, mul_zero] at row ⊢
  rw [row]
  refine sum_congr rfl fun j column => ?_
  have left := mem_range.mp column
  rw [show m + i - (m + i - j) = j by omega, ← pow_add, show i + (m - j) = m + i - j by omega]

theorem sum_bands {F : Type*} [CommSemiring F] [AddCommMonoid M] [Module F M] (x : F) (f : ℕ → ℕ → M) (m : ℕ) :
    ∑ k ∈ range (2 * m), x ^ k •
        ∑ i ∈ (range m).filter (fun i => m ≤ k + i + 1 ∧ k + i + 1 - m ≤ m), f (k + i + 1 - m) i =
      ∑ i ∈ range m, ∑ l ∈ range (m + 1), x ^ (l + (m - 1 - i)) • f l i := by
  simp only [smul_sum, sum_filter]
  rw [sum_comm]
  refine sum_congr rfl fun i inside => ?_
  have below := mem_range.mp inside
  simp only [smul_ite, smul_zero]
  rw [← sum_filter]
  refine sum_nbij' (fun k => k + i + 1 - m) (fun l => l + (m - 1 - i)) ?_ ?_ ?_ ?_ ?_
  all_goals intro k member
  all_goals simp only [mem_filter, mem_range] at member ⊢
  any_goals omega
  rw [show k + i + 1 - m + (m - 1 - i) = k by omega]

end Diagonals

section Checked

variable {ε : Type*} {f : α → Except ε β} {l : List α}

theorem mapM_congr {g : α → Except ε β} (same : ∀ a ∈ l, f a = g a) : l.mapM f = l.mapM g := by
  induction l with
  | nil => rfl
  | cons a l ih =>
    rw [List.mapM_cons, List.mapM_cons, same a List.mem_cons_self, ih fun b member => same b (List.mem_cons_of_mem _ member)]

theorem mapM_eq_ok {g : α → β} (each : ∀ a ∈ l, f a = .ok (g a)) : l.mapM f = .ok (l.map g) :=
  (mapM_congr each).trans List.mapM_pure

theorem mapM_range_eq_ok {f : ℕ → Except ε β} {g : ℕ → β} {n : ℕ} (each : ∀ i < n, f i = .ok (g i)) :
    (List.range n).mapM f = .ok ((List.range n).map g) :=
  mapM_eq_ok fun i member => each i (List.mem_range.mp member)

theorem bind_eq_ok.{u} {σ τ : Type u} {x : Except ε σ} {f : σ → Except ε τ} {b : τ} (bound : (x >>= f) = .ok b) :
    ∃ a, x = .ok a ∧ f a = .ok b := by
  cases x with
  | error e => cases bound
  | ok a => exact ⟨a, rfl, bound⟩

theorem mapM_ok [Inhabited β] {results : List β} (all : l.mapM f = .ok results) :
    ∃ g : α → β, (∀ a ∈ l, f a = .ok (g a)) ∧ results = l.map g := by
  have each : ∀ a ∈ l, ∃ b, f a = .ok b := by
    induction l generalizing results with
    | nil => exact fun a member => absurd member List.not_mem_nil
    | cons first rest ih =>
      rw [List.mapM_cons] at all
      obtain ⟨b, head, all⟩ := bind_eq_ok all
      obtain ⟨bs, tail, -⟩ := bind_eq_ok all
      intro a member
      obtain rfl | later := List.mem_cons.mp member
      · exact ⟨b, head⟩
      exact ih tail a later
  have value : ∀ a ∈ l, f a = .ok (match f a with | .ok b => b | .error _ => default) := by
    intro a member
    obtain ⟨b, same⟩ := each a member
    rw [same]
  exact ⟨_, value, Except.ok.inj (all.symm.trans (mapM_eq_ok value))⟩

theorem forM_eq_ok {f : α → Except ε PUnit} (each : ∀ a ∈ l, f a = .ok ⟨⟩) : l.forM f = .ok ⟨⟩ := by
  induction l with
  | nil => rfl
  | cons a l ih =>
    change (f a >>= fun _ => l.forM f) = .ok ⟨⟩
    rw [each a List.mem_cons_self]
    exact ih fun b member => each b (.tail _ member)

end Checked

end Folding
