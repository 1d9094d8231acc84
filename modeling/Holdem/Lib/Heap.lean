import Mathlib.Data.Nat.Notation
import Holdem.Lib.Method

/-!
Mutable lists and who can see them change. A copy gets an address of its own, so code that changes only
its own copies leaves the lists of its caller as they were.
-/

namespace Heap

open List

variable {ε α : Type}

abbrev Lists (α : Type) := List (List α)

def load (h : Lists α) (a : ℕ) : List α := h.getD a []

def copy (a : ℕ) : EStateM ε (Lists α) ℕ := fun h => .ok h.length (h ++ [load h a])

def change (a i : ℕ) (f : α → α) : EStateM ε (Lists α) Unit := fun h =>
  .ok () (h.modify a fun xs => xs.modify i f)

def Unchanged (h h' : Lists α) : Prop := ∀ a < h.length, load h' a = load h a

theorem load_append {h : Lists α} {a : ℕ} (known : a < h.length) (more : Lists α) : load (h ++ more) a = load h a := by
  simp [load, List.getD, getElem?_append_left known]

theorem load_own (h own : Lists α) (k : ℕ) : load (h ++ own) (h.length + k) = load own k := by
  simp [load, List.getD, getElem?_append_right]

theorem unchanged_append (h own : Lists α) : Unchanged h (h ++ own) := fun _ known => load_append known own

theorem copy_apply (a : ℕ) (h : Lists α) : (copy a : EStateM ε _ _) h = .ok h.length (h ++ [load h a]) := rfl

theorem change_own (h own : Lists α) (k i : ℕ) (f : α → α) :
    (change (h.length + k) i f : EStateM ε _ _) (h ++ own) = .ok () (h ++ own.modify k fun xs => xs.modify i f) := by
  refine congrArg (EStateM.Result.ok ()) (ext_getElem? fun j => ?_)
  rw [getElem?_modify]
  obtain old | new := Nat.lt_or_ge j h.length
  · have other : h.length + k ≠ j := by omega
    rw [getElem?_append_left old, getElem?_append_left old]
    simp [other]
  obtain ⟨d, rfl⟩ := Nat.exists_eq_add_of_le new
  rw [getElem?_append_right new, getElem?_append_right new, getElem?_modify]
  simp

end Heap
