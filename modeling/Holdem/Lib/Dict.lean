import Mathlib.Data.List.Nodup
import Mathlib.Logic.Function.Basic

/-!
Dictionaries that remember the order of their keys, as Python's do: a key that is set again stays where it
is, and one that was deleted comes back at the end.
-/

structure Dict (κ α : Type) where
  keys : List κ
  get : κ → Option α
  nodup : keys.Nodup
  mem_keys : ∀ k, k ∈ keys ↔ (get k).isSome

namespace Dict

variable {κ α : Type}

def empty : Dict κ α := ⟨[], fun _ => none, .nil, by simp⟩

instance : EmptyCollection (Dict κ α) := ⟨empty⟩

def values (d : Dict κ α) : List α := d.keys.filterMap d.get

def keep (d : Dict κ α) (p : κ → Bool) : Dict κ α where
  keys := d.keys.filter p
  get k := if p k then d.get k else none
  nodup := d.nodup.filter p
  mem_keys k := by
    rw [List.mem_filter, d.mem_keys]
    split <;> simp_all

@[simp] theorem get_keep (d : Dict κ α) (p : κ → Bool) (k : κ) : (d.keep p).get k = if p k then d.get k else none := rfl

variable [DecidableEq κ]

def set (d : Dict κ α) (k : κ) (v : α) : Dict κ α where
  keys := if k ∈ d.keys then d.keys else d.keys ++ [k]
  get := Function.update d.get k (some v)
  nodup := by
    split
    · exact d.nodup
    rename_i fresh
    exact List.nodup_append.mpr ⟨d.nodup, List.nodup_singleton k, fun a member b other same =>
      fresh (List.mem_singleton.mp other ▸ same ▸ member)⟩
  mem_keys k' := by
    have known := d.mem_keys k'
    by_cases same : k' = k
    · subst same
      split <;> simp_all
    split <;> simp_all [Function.update_of_ne]

def pop (d : Dict κ α) (k : κ) : Dict κ α := d.keep fun k' => k' ≠ k

@[simp] theorem get_set (d : Dict κ α) (k : κ) (v : α) (k' : κ) :
    (d.set k v).get k' = if k' = k then some v else d.get k' := by
  by_cases same : k' = k
  · subst same
    simp [set]
  simp [set, same]

end Dict
