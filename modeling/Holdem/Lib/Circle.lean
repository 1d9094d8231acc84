import Mathlib.Data.List.FinRange
import Mathlib.Data.Fintype.Card

/-!
Places round a table, numbered `0` to `n - 1` and walked clockwise. A search that looks one lap ahead
finds the first place with a property, if there is one.
-/

namespace Circle

open List

variable {n : ℕ} {i j : Fin n} {p : Fin n → Bool} {a b c : Fin n} {k : Fin n}

def step (i : Fin n) (k : ℕ) : Fin n := ⟨(i.val + k) % n, Nat.mod_lt _ i.pos⟩

def dist (i j : Fin n) : ℕ := if i.val ≤ j.val then j.val - i.val else j.val + n - i.val

def lap (i : Fin n) : List (Fin n) := (range n).map (step i)

def first (i : Fin n) (p : Fin n → Bool) : Option (Fin n) := (lap i).find? p

theorem step_val {k : ℕ} (short : k ≤ n) : (step i k).val = if i.val + k < n then i.val + k else i.val + k - n := by
  have hi := i.isLt
  change (i.val + k) % n = _
  split
  · exact Nat.mod_eq_of_lt ‹_›
  rw [Nat.mod_eq_sub_mod (by omega)]
  exact Nat.mod_eq_of_lt (by omega)

theorem dist_lt (i j : Fin n) : dist i j < n := by
  have hi := i.isLt
  have hj := j.isLt
  unfold dist
  split <;> omega

theorem step_dist (i j : Fin n) : step i (dist i j) = j := by
  have hi := i.isLt
  have hj := j.isLt
  apply Fin.ext
  rw [step_val (Nat.le_of_lt (dist_lt i j))]
  unfold dist
  split <;> split <;> omega

theorem dist_step {k : ℕ} (short : k < n) : dist i (step i k) = k := by
  have hi := i.isLt
  unfold dist
  rw [step_val (Nat.le_of_lt short)]
  split <;> split <;> omega

theorem dist_self (i : Fin n) : dist i i = 0 := by simp [dist]

theorem dist_eq_zero (h : dist i j = 0) : i = j := by
  have := step_dist i j
  rw [h] at this
  rw [← this]
  apply Fin.ext
  simp [step, Nat.mod_eq_of_lt i.isLt]

theorem mem_lap (i j : Fin n) : j ∈ lap i :=
  List.mem_map.mpr ⟨dist i j, List.mem_range.mpr (dist_lt i j), step_dist i j⟩

theorem lap_nodup (i : Fin n) : (lap i).Nodup := by
  refine List.Nodup.map_on ?_ nodup_range
  intro a ha b hb same
  have := congrArg (dist i) same
  rwa [dist_step (List.mem_range.mp ha), dist_step (List.mem_range.mp hb)] at this

theorem lap_perm (i : Fin n) : (lap i).Perm (finRange n) :=
  (perm_ext_iff_of_nodup (lap_nodup i) (nodup_finRange n)).mpr
    fun j => ⟨fun _ => mem_finRange j, fun _ => mem_lap i j⟩

theorem first_eq_none : first i p = none ↔ ∀ j, p j = false := by
  simp only [first, find?_eq_none, Bool.not_eq_true]
  exact ⟨fun h j => h j (mem_lap i j), fun h j _ => h j⟩

theorem first_holds (h : first i p = some j) : p j = true :=
  find?_some h

theorem first_isSome (h : p j = true) : ∃ k, first i p = some k := by
  cases found : first i p with
  | some k => exact ⟨k, rfl⟩
  | none => rw [first_eq_none.mp found j] at h; cases h

theorem first_nearest (h : first i p = some j) (nearer : dist i k < dist i j) : p k = false := by
  obtain ⟨_, before, after, split, none⟩ := List.find?_eq_some_iff_append.mp h
  have place : ∀ m < before.length, before[m]? = some (step i m) := by
    intro m hm
    have := congrArg (fun xs => xs[m]?) split
    simp only [getElem?_append_left hm] at this
    rw [← this, lap, getElem?_map, getElem?_range]
    · rfl
    have len := congrArg List.length split
    simp [lap] at len
    omega
  have here : step i before.length = j := by
    have := congrArg (fun xs => xs[before.length]?) split
    simp only [getElem?_append_right (Nat.le_refl _), Nat.sub_self, getElem?_cons_zero] at this
    rw [lap, getElem?_map] at this
    obtain ⟨m, hm, eq⟩ := Option.map_eq_some_iff.mp this
    obtain ⟨_, rfl⟩ := List.getElem?_eq_some_iff.mp hm
    simpa using eq
  have len : before.length < n := by
    have := congrArg List.length split
    simp [lap] at this
    omega
  rw [← here, dist_step len] at nearer
  have member : k ∈ before := by
    have := place (dist i k) nearer
    rw [step_dist] at this
    exact mem_of_getElem? this
  simpa using none k member

/-- Clockwise from `a` comes `b` and then `c`, three different places. -/
def Ordered (a b c : Fin n) : Prop := 0 < dist a b ∧ dist a b < dist a c

theorem ordered_rotate : Ordered a b c ↔ Ordered b c a := by
  have ha := a.isLt
  have hb := b.isLt
  have hc := c.isLt
  unfold Ordered dist
  split <;> split <;> split <;> split <;> omega

theorem ordered_distinct (h : Ordered a b c) : a ≠ b ∧ b ≠ c ∧ a ≠ c := by
  obtain ⟨positive, less⟩ := h
  refine ⟨?_, ?_, ?_⟩ <;> rintro rfl
  · rw [dist_self] at positive
    omega
  · omega
  rw [dist_self] at less
  omega

theorem first_step_nearest (h : first (step i 1) p = some j)
    (here : p k = true) (other : k ≠ i) : j ≠ i ∧ dist i j ≤ dist i k := by
  have hi := i.isLt
  have hj := j.isLt
  have hk := k.isLt
  have near : ¬dist (step i 1) k < dist (step i 1) j := fun nearer => by
    rw [first_nearest h nearer] at here
    cases here
  have apart : k.val ≠ i.val := fun same => other (Fin.ext same)
  have one := step_val (i := i) (k := 1) (by omega)
  unfold dist at near ⊢
  rw [one] at near
  refine ⟨fun same => ?_, ?_⟩
  · rw [same] at near
    split at near <;> split at near <;> split at near <;> omega
  split at near <;> split at near <;> split at near <;> split <;> split <;> omega

end Circle
