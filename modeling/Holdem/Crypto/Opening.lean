import Holdem.Crypto.Group
import Holdem.Lib.Interpolation

/-!
Openings of vector commitments as a vector space, and what an extractor returns: a relation between the
generators, or what it was to extract. An extractor sees scalars only.
-/

set_option linter.unusedSectionVars false

namespace Holdem

open List Folding

variable {F G : Type} [Field F] [DecidableEq F] [AddCommGroup G] [Module F G] [DecidableEq G] {n : ℕ}

abbrev Opening (F : Type) (n : ℕ) : Type := F × (Fin n → F)

def Opening.entry {n : ℕ} (w : Opening F n) (j : ℕ) : F := if below : j < n then w.2 ⟨j, below⟩ else 0

theorem Opening.entry_eq {j : ℕ} (w : Opening F n) (below : j < n) : Opening.entry w j = w.2 ⟨j, below⟩ := dif_pos below

theorem Opening.getD_ofFn (w : Opening F n) (j : ℕ) : (ofFn w.2).getD j 0 = Opening.entry w j := by
  by_cases below : j < n
  · rw [Opening.entry_eq w below, getD_eq_getElem _ _ (by rwa [length_ofFn]), List.getElem_ofFn]
  rw [Opening.entry, dif_neg below, getD_eq_default _ _ (by rw [length_ofFn]; omega)]

theorem Opening.entry_evalAt {j k : ℕ} (u : ℕ → Opening F n) (x : F) (below : j < n) :
    Opening.entry (Extraction.evalAt k u x) j = ∑ i ∈ Finset.range k, x ^ i * Opening.entry (u i) j := by
  simp only [Opening.entry_eq _ below, Extraction.evalAt, Prod.snd_sum, Finset.sum_apply, Prod.smul_snd, Pi.smul_apply,
    smul_eq_mul]

namespace CommitmentKey

variable {n : ℕ} {ck : CommitmentKey G}

def opened (F : Type) [Field F] [Module F G] (ck : CommitmentKey G) (n : ℕ) : Opening F n →ₗ[F] G where
  toFun w := w.1 • ck.H + ∑ j : Fin n, w.2 j • ck.Gs.getD j 0
  map_add' v w := by
    simp only [Prod.fst_add, Prod.snd_add, Pi.add_apply, add_smul, Finset.sum_add_distrib]
    exact add_add_add_comm _ _ _ _
  map_smul' k w := by
    simp only [Prod.smul_fst, Prod.smul_snd, Pi.smul_apply, smul_eq_mul, mul_smul, smul_add, Finset.smul_sum,
      RingHom.id_apply]

theorem opened_eq_com (ck : CommitmentKey G) (values : ℕ → F) (r : F) :
    ck.opened F n (r, fun j => values j) = ck.com n values r := by
  rw [com, ← Fin.sum_univ_eq_sum_range (fun j => values j • ck.Gs.getD j 0)]
  rfl

theorem commit_ofFn (w : Opening F n) (fits : n ≤ ck.n) : commit ck (ofFn w.2) w.1 = .ok (ck.opened F n w) := by
  have values : ∀ j : Fin n, (ofFn w.2).getD j 0 = w.2 j := fun j =>
    (Opening.getD_ofFn w j).trans (Opening.entry_eq w j.2)
  rw [commit_eq _ (by rwa [length_ofFn]), length_ofFn, ← opened_eq_com]
  simp only [values]

theorem opened_of_commit {values : List F} {r : F} {c : G} (len : values.length = n)
    (committed : commit ck values r = .ok c) : n ≤ ck.n ∧ ck.opened F n (r, fun j => values.getD j 0) = c := by
  have fits : values.length ≤ ck.n := by
    by_contra tooLong
    rw [commit, if_pos (not_le.mp tooLong)] at committed
    cases committed
  rw [commit_eq r fits, len] at committed
  exact ⟨len ▸ fits, (ck.opened_eq_com _ _).trans (Except.ok.inj committed)⟩

end CommitmentKey

theorem multiscalarMul_ok {scalars : List F} {points : List G} {p : G} (len : scalars.length = n)
    (summed : multiscalarMul scalars points = .ok p) :
    points.length = n ∧ p = ∑ i ∈ Finset.range n, scalars.getD i 0 • points.getD i 0 := by
  have lengths : points.length = n := by
    by_contra differ
    rw [multiscalarMul, if_pos (by rw [len]; exact Ne.symm differ)] at summed
    cases summed
  rw [multiscalarMul_eq len lengths] at summed
  exact ⟨lengths, (Except.ok.inj summed).symm⟩

inductive Extracted (F α : Type) where
  | relation (r : F) (values : List F)
  | witness (found : α)

/-- The relation is one between the generators and not the trivial one, or the witness is good. -/
def Extracted.Sound {α : Type} (ck : CommitmentKey G) (good : α → Prop) : Extracted F α → Prop
  | .relation r values => commit ck values r = .ok 0 ∧ (r ≠ 0 ∨ ∃ v ∈ values, v ≠ 0)
  | .witness found => good found

def Trivial (relation : F × List F) : Prop := relation.1 = 0 ∧ ∀ v ∈ relation.2, v = 0

instance (relation : F × List F) : Decidable (Trivial relation) := inferInstanceAs (Decidable (_ ∧ _))

def extractOr {α : Type} (relations : List (F × List F)) (found : α) : Extracted F α :=
  match relations.find? fun relation => ¬Trivial relation with
  | some relation => .relation relation.1 relation.2
  | none => .witness found

variable {ck : CommitmentKey G} {w : Opening F n}

theorem extractOr_sound {α : Type} {good : α → Prop} {relations : List (F × List F)} {found : α}
    (hold : ∀ relation ∈ relations, commit ck relation.2 relation.1 = .ok 0)
    (else_good : (∀ relation ∈ relations, Trivial relation) → good found) :
    (extractOr relations found).Sound ck good := by
  unfold extractOr
  split
  · next relation hit =>
    have member := mem_of_find?_eq_some hit
    have proper : ¬Trivial relation := by simpa using find?_some hit
    refine ⟨hold relation member, ?_⟩
    rw [Trivial, not_and_or] at proper
    exact proper.imp id fun some => by simpa using some
  next miss =>
  refine else_good fun relation member => ?_
  have trivial := List.find?_eq_none.mp miss relation member
  simpa using trivial

def Opening.relation {n : ℕ} (w : Opening F n) : F × List F := (w.1, ofFn w.2)

theorem trivial_relation_iff : Trivial (Opening.relation w) ↔ w = 0 := by
  rw [Trivial, Prod.ext_iff, funext_iff]
  simp [Opening.relation, mem_ofFn]

theorem commit_relation (fits : n ≤ ck.n)
    (zero : ck.opened F n w = 0) : commit ck (Opening.relation w).2 (Opening.relation w).1 = .ok 0 := by
  rw [← zero]
  exact CommitmentKey.commit_ofFn w fits

end Holdem
