import Mathlib.Data.List.GetD
import Mathlib.Data.List.Nodup
import Mathlib.Data.List.Perm.Basic
import Mathlib.Data.List.FinRange
import Mathlib.Data.Fintype.Card

/-!
Permutations of the indices below `n`, written as lists of integers: what stands at an index, how two
of them compose, and the loop that writes the inverse.
-/

namespace Arrangement

open List

def Arranges (p : List ℤ) (n : ℕ) : Prop := p.Perm ((range n).map Int.ofNat)

instance (p : List ℤ) (n : ℕ) : Decidable (Arranges p n) := inferInstanceAs (Decidable (List.Perm _ _))

def entry (p : List ℤ) (i : ℕ) : ℕ := (p.getD i 0).toNat

variable {p q : List ℤ} {n i j : ℕ} {f : ℕ → ℕ}

theorem entry_map_range (below : i < n) : entry ((range n).map fun k => (f k : ℤ)) i = f i := by
  rw [entry, getD_eq_getElem _ _ (by simpa using below), getElem_map, getElem_range, Int.toNat_natCast]

namespace Arranges

section

variable (h : Arranges p n)
include h

theorem length_eq : p.length = n := by
  rw [List.Perm.length_eq h, length_map, length_range]

theorem nodup : p.Nodup :=
  h.nodup_iff.mpr (List.nodup_range.map fun _ _ same => Int.ofNat.inj same)

theorem getElem?_eq (below : i < n) : p[i]? = some (entry p i : ℤ) := by
  have inside : i < p.length := h.length_eq ▸ below
  have member : p[i] ∈ (range n).map Int.ofNat := h.mem_iff.mp (getElem_mem inside)
  obtain ⟨k, -, same⟩ := List.mem_map.mp member
  rw [getElem?_eq_getElem inside, entry, getD_eq_getElem _ _ inside, ← same]
  rfl

theorem entry_lt (below : i < n) : entry p i < n := by
  have member := h.mem_iff.mp (mem_of_getElem? (h.getElem?_eq below))
  obtain ⟨k, inside, same⟩ := List.mem_map.mp member
  have : k = entry p i := Int.ofNat.inj same
  rw [← this]
  exact List.mem_range.mp inside

theorem entry_inj (hi : i < n) (hj : j < n) (same : entry p i = entry p j) : i = j := by
  refine (getElem?_inj (h.length_eq ▸ hi) h.nodup).mp ?_
  rw [h.getElem?_eq hi, h.getElem?_eq hj, same]

theorem eq_map_range : p = (range n).map fun i => (entry p i : ℤ) := by
  apply ext_getElem?
  intro i
  by_cases below : i < n
  · rw [h.getElem?_eq below, getElem?_map, getElem?_range below]
    rfl
  rw [getElem?_eq_none (by rw [h.length_eq]; omega), getElem?_eq_none (by simpa using by omega)]

theorem map_entry_perm {α : Type*} (f : ℕ → α) : ((range n).map fun i => f (entry p i)).Perm ((range n).map f) := by
  have walked : ((range n).map fun i => f (entry p i)) = p.map fun k => f k.toNat := by
    conv_rhs => rw [h.eq_map_range, map_map]
    rfl
  rw [walked]
  refine (h.map _).trans ?_
  rw [map_map]
  exact List.Perm.refl _

theorem exists_entry (below : j < n) : ∃ i < n, entry p i = j := by
  have walked := (h.map_entry_perm id).mem_iff.mpr (by simpa using below)
  simpa using walked

end

end Arranges

theorem arranges_map_range (inside : ∀ i < n, f i < n) (distinct : ∀ i < n, ∀ j < n, f i = f j → i = j) :
    Arranges ((range n).map fun i => (f i : ℤ)) n := by
  have nodup : ((range n).map f).Nodup :=
    List.Nodup.map_on (fun i hi j hj => distinct i (List.mem_range.mp hi) j (List.mem_range.mp hj)) nodup_range
  have subset : (range n).map f ⊆ range n := by
    intro k member
    obtain ⟨i, below, rfl⟩ := List.mem_map.mp member
    exact List.mem_range.mpr (inside i (List.mem_range.mp below))
  have walked : ((range n).map f).Perm (range n) := (nodup.subperm subset).perm_of_length_le (by rw [length_map])
  have cast := walked.map Int.ofNat
  rw [map_map] at cast
  exact cast

def compose (p q : List ℤ) : List ℤ := (range q.length).map fun i => (entry p (entry q i) : ℤ)

theorem entry_compose (below : i < q.length) : entry (compose p q) i = entry p (entry q i) := entry_map_range below

theorem Arranges.compose (hp : Arranges p n) (hq : Arranges q n) : Arranges (compose p q) n := by
  rw [Arrangement.compose, hq.length_eq]
  refine arranges_map_range (fun i hi => hp.entry_lt (hq.entry_lt hi)) fun i hi j hj same => ?_
  exact hq.entry_inj hi hj (hp.entry_inj (hq.entry_lt hi) (hq.entry_lt hj) same)

/-- The loop `inv[src] = i`, with positions counted from `k`. -/
def scatter (p : List ℤ) (k : ℕ) (inv : List ℤ) : List ℤ :=
  (p.zipIdx k).foldl (fun inv written => inv.set written.1.toNat (written.2 : ℤ)) inv

theorem scatter_cons (a : ℤ) (p : List ℤ) (k : ℕ) (inv : List ℤ) :
    scatter (a :: p) k inv = scatter p (k + 1) (inv.set a.toNat (k : ℤ)) := rfl

@[simp] theorem length_scatter (p : List ℤ) (k : ℕ) (inv : List ℤ) : (scatter p k inv).length = inv.length := by
  induction p generalizing k inv with
  | nil => rfl
  | cons a p ih => rw [scatter_cons, ih, length_set]

theorem scatter_other {m : ℕ} (k : ℕ) (inv : List ℤ) (absent : ∀ s ∈ p, s.toNat ≠ m) :
    (scatter p k inv)[m]? = inv[m]? := by
  induction p generalizing k inv with
  | nil => rfl
  | cons a p ih =>
    rw [scatter_cons, ih _ _ fun s member => absent s (mem_cons_of_mem _ member), getElem?_set_ne (absent a (.head _))]

theorem scatter_entry {s : ℤ} (k : ℕ) (inv : List ℤ) (distinct : (p.map Int.toNat).Nodup)
    (at_ : p[j]? = some s) (inside : s.toNat < inv.length) : (scatter p k inv)[s.toNat]? = some ((k + j : ℕ) : ℤ) := by
  induction p generalizing k inv j with
  | nil => simp at at_
  | cons a p ih =>
    rw [map_cons, nodup_cons] at distinct
    rw [scatter_cons]
    cases j with
    | zero =>
      obtain rfl : a = s := by simpa using at_
      rw [scatter_other _ _ fun t member same => distinct.1 (List.mem_map.mpr ⟨t, member, same⟩),
        getElem?_set_self inside, Nat.add_zero]
    | succ j =>
      rw [ih (k + 1) _ distinct.2 (by simpa using at_) (by rwa [length_set])]
      congr 2
      omega

def inverse (p : List ℤ) : List ℤ := scatter p 0 (replicate p.length 0)

@[simp] theorem length_inverse (p : List ℤ) : (inverse p).length = p.length := by
  rw [inverse, length_scatter, length_replicate]

theorem Arranges.inverse_getElem? (h : Arranges p n) (below : i < n) : (Arrangement.inverse p)[entry p i]? = some (i : ℤ) := by
  have distinct : (p.map Int.toNat).Nodup := by
    have walked := h.map Int.toNat
    rw [map_map] at walked
    refine walked.nodup_iff.mpr ?_
    simpa [Function.comp_def] using nodup_range
  have written := scatter_entry 0 (replicate p.length 0) distinct (h.getElem?_eq below)
    (by simpa [h.length_eq] using h.entry_lt below)
  rwa [Int.toNat_natCast, Nat.zero_add] at written

theorem Arranges.inverse_entry (h : Arranges p n) (below : i < n) : entry (Arrangement.inverse p) (entry p i) = i := by
  rw [entry, getD_eq_getElem?_getD, h.inverse_getElem? below]
  simp

theorem Arranges.entry_inverse (h : Arranges p n) (below : j < n) :
    entry (Arrangement.inverse p) j < n ∧ entry p (entry (Arrangement.inverse p) j) = j := by
  obtain ⟨i, inside, rfl⟩ := h.exists_entry below
  rw [h.inverse_entry inside]
  exact ⟨inside, rfl⟩

theorem Arranges.inverse (h : Arranges p n) : Arranges (Arrangement.inverse p) n := by
  have whole : Arrangement.inverse p = (range n).map fun i => (entry (Arrangement.inverse p) i : ℤ) := by
    apply ext_getElem?
    intro j
    by_cases below : j < n
    · obtain ⟨i, inside, rfl⟩ := h.exists_entry below
      rw [h.inverse_getElem? inside, getElem?_map, getElem?_range below, Option.map_some, h.inverse_entry inside]
    rw [getElem?_eq_none (by rw [length_inverse, h.length_eq]; omega), getElem?_eq_none (by simpa using by omega)]
  rw [whole]
  refine arranges_map_range (fun j hj => (h.entry_inverse hj).1) fun i hi j hj same => ?_
  rw [← (h.entry_inverse hi).2, same, (h.entry_inverse hj).2]

end Arrangement
