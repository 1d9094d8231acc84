import Mathlib.Data.List.Lex
import Mathlib.Data.List.Sort
import Mathlib.Data.List.Perm.Subperm

/-!
Descending lists compared place by place. Of the descending lists drawn from one of them, its own start
is the greatest.
-/

namespace Descending

open List

variable {α β : Type} [LinearOrder α] {a b : α} {l l' : List α} {drawn : List α} {f : β → α}

theorem le_of_head_lt (less : a < b) : a :: l ≤ b :: l' := le_of_lt (List.Lex.rel less)

theorem head_le (desc : (b :: l).Pairwise (· > ·)) (member : a ∈ b :: l) : a ≤ b := by
  obtain rfl | later := List.mem_cons.mp member
  · exact le_refl _
  exact (rel_of_pairwise_cons desc later).le

theorem le_take (desc : l.Pairwise (· > ·)) (drops : drawn.Pairwise (· > ·)) (sub : drawn ⊆ l) :
    drawn ≤ l.take drawn.length := by
  induction drawn generalizing l with
  | nil => exact le_refl _
  | cons a drawn ih =>
    cases l with
    | nil => exact absurd (sub (.head _)) not_mem_nil
    | cons b l =>
      rw [length_cons, take_succ_cons]
      obtain less | rfl := lt_or_eq_of_le (head_le desc (sub (.head _)))
      · exact le_of_head_lt less
      refine cons_le_cons _ (ih desc.of_cons drops.of_cons fun c member => ?_)
      refine (List.mem_cons.mp (sub (.tail _ member))).resolve_left fun same => ?_
      exact absurd (rel_of_pairwise_cons drops member) (same ▸ lt_irrefl _)

theorem eq_of_perm (desc : l.Pairwise (· > ·)) (desc' : l'.Pairwise (· > ·)) (perm : l.Perm l') : l = l' :=
  desc.eq_of_mem_iff desc' fun _ => perm.mem_iff

theorem insertionSort_desc (distinct : l.Nodup) : (l.insertionSort (· ≥ ·)).Pairwise (· > ·) := by
  have sorted := pairwise_insertionSort (· ≥ ·) l
  have nodup : (l.insertionSort (· ≥ ·)).Nodup := (perm_insertionSort _ l).nodup_iff.mpr distinct
  exact (sorted.and nodup).imp fun ⟨ge, ne⟩ => lt_of_le_of_ne ge ne.symm

omit [LinearOrder α] in
theorem map_subperm {xs ys : List β} (sub : xs.Subperm ys) : (xs.map f).Subperm (ys.map f) := by
  obtain ⟨listed, perm, sublist⟩ := sub
  exact ⟨listed.map f, perm.map f, sublist.map f⟩

omit [LinearOrder α] in
theorem subperm_map {xs : List β} (sub : drawn.Subperm (xs.map f)) :
    ∃ ys : List β, ys.Sublist xs ∧ (ys.map f).Perm drawn := by
  obtain ⟨listed, perm, sublist⟩ := sub
  obtain ⟨ys, drawn', rfl⟩ := List.sublist_map_iff.mp sublist
  exact ⟨ys, drawn', perm⟩

end Descending
