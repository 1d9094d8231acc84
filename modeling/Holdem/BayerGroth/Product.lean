import Holdem.BayerGroth.Hadamard
import Holdem.BayerGroth.Svp

/-!
The matrix product argument of `bg_product.py`: all entries under a list of commitments multiply to a
public scalar.
-/

namespace Holdem.BgProduct

open Folding BgZero BgHadamard

variable {F G B : Type} [Field F] [DecidableEq F] [AddCommGroup G] [Module F G] [DecidableEq G]

structure ProductProof (F G : Type) where
  cb : G
  hadamard : HadamardProof F G
  svp : BgSvp.SVPProof F G

structure Coins (F : Type) where
  sb : F
  hadamard : BgHadamard.Coins F
  svp : BgSvp.Coins F

def childContext (O : Oracle F G B) (context : B) (tag : String) (ck : CommitmentKey G) (cA : List G) (n : ℕ) (b : F)
    (cb : G) : B :=
  O.digest ([.text "poker.bg.product.v1", .text tag, .bytes context, .point ck.H] ++ pointList ck.Gs ++
    [.count cA.length, .count n] ++ pointList cA ++ [.scalar b, .point cb])

/-- `_validate_shape`, without the checks on the vectors that only `prove` makes. -/
def validateShape (ck : CommitmentKey G) (cA : List G) (rows n : ℕ) : Except PyError Unit :=
  if cA.length < 2 then .error (.valueError "product argument requires m >= 2")
  else if n < 2 then .error (.valueError "product argument requires n >= 2")
  else if n > ck.n then .error (.valueError "product argument vector width exceeds commitment key")
  else if rows ≠ cA.length then .error (.valueError "c_A and matrix must have the same number of vectors")
  else .ok ()

def prove (O : Oracle F G B) (ck : CommitmentKey G) (cA : List G) (a : List (List F)) (r : List F) (b : F) (context : B)
    (coins : Coins F) : Except PyError (ProductProof F G) :=
  if a = [] then .error (.valueError "product argument requires a non-empty matrix")
  else do
    let n := (a.getD 0 []).length
    let m := cA.length
    validateShape ck cA a.length n
    if r.length ≠ m then .error (.valueError "c_A, matrix and openings must have length m")
    else if ¬∀ vec ∈ a, vec.length = n then .error (.valueError "every matrix vector must have width n")
    else do
      (List.range m).forM fun i => checkOpening ck "c_A" cA a r i
      let last := (rowProducts a n).getD (m - 1) []
      requireWitness (decide (last.prod = b)) "witness does not satisfy product of all matrix entries"
      let cb ← commit ck last coins.sb
      let hadamard ← BgHadamard.prove O ck cA a r cb last coins.sb (childContext O context "hadamard" ck cA n b cb)
        coins.hadamard
      let svp ← BgSvp.prove O ck last coins.sb b (childContext O context "single-value-product" ck cA n b cb) coins.svp
      .ok { cb := cb, hadamard := hadamard, svp := svp }

def verify (O : Oracle F G B) (ck : CommitmentKey G) (cA : List G) (n : ℕ) (b : F) (context : B)
    (proof : ProductProof F G) : Except PyError Bool := guarded do
  validateShape ck cA cA.length n
  let first ← BgHadamard.verify O ck cA proof.cb n (childContext O context "hadamard" ck cA n b proof.cb) proof.hadamard
  if first then
    BgSvp.verify O ck proof.cb n b (childContext O context "single-value-product" ck cA n b proof.cb) proof.svp
  else .ok false

section Completeness

variable {m n : ℕ} {ck : CommitmentKey G} {cA : List G} {a : List (List F)} {r : List F} {b : F}

omit [AddCommGroup G] [DecidableEq G] in
theorem validateShape_ok (lenA : cA.length = m) (two : 2 ≤ m) (wide : 2 ≤ n) (fits : n ≤ ck.n) :
    validateShape ck cA m n = .ok () := by
  rw [validateShape, if_neg (by omega), if_neg (by omega), if_neg (by omega), if_neg (by omega)]

theorem complete (cA : List G) (a : List (List F)) (r : List F) (O : Oracle F G B) (context : B) (coins : Coins F) (lena : a.length = m) (lenA : cA.length = m)
    (lenr : r.length = m) (two : 2 ≤ m) (wide : 2 ≤ n) (fits : n ≤ ck.n) (width : ∀ vec ∈ a, vec.length = n)
    (openA : ∀ i < m, cA.getD i 0 = ck.com n (entry a i) (r.getD i 0))
    (claim : ∏ j ∈ Finset.range n, ∏ i ∈ Finset.range m, entry a i j = b) :
    ∃ proof, prove O ck cA a r b context coins = .ok proof ∧ verify O ck cA n b context proof = .ok true := by
  have widtha : ∀ i < m, (a.getD i []).length = n := by
    intro i below
    rw [List.getD_eq_getElem _ _ (by omega)]
    exact width _ (List.getElem_mem _)
  have checks : ((List.range m).forM fun i => checkOpening ck "c_A" cA a r i) = .ok () :=
    forM_eq_ok fun i member => checkOpening_ok (widtha i (List.mem_range.mp member)) fits (openA i (List.mem_range.mp member))
  have long := width_rowProducts lena width (i := m - 1) (by omega)
  have known : ∀ j < n, ((rowProducts a n).getD (m - 1) []).getD j 0 = product a (m - 1) j :=
    fun j inside => entry_rowProducts lena (by omega) inside
  generalize lastEq : (rowProducts a n).getD (m - 1) [] = last at long known
  have total : ∏ j ∈ Finset.range n, last.getD j 0 = b := by
    rw [← claim]
    refine Finset.prod_congr rfl fun j member => ?_
    rw [known j (Finset.mem_range.mp member), product, show m - 1 + 1 = m by omega]
  have witnessed : last.prod = b := by rw [eq_map_range last 0, long, prod_list_range, total]
  have committed : commit ck last coins.sb = .ok (ck.com n (last.getD · 0) coins.sb) := by
    rw [commit_eq _ (by omega), long]
  obtain ⟨hadamard, proveH, verifyH⟩ := BgHadamard.complete (s := coins.sb) O
    (childContext O context "hadamard" ck cA n b (ck.com n (last.getD · 0) coins.sb)) coins.hadamard lena lenA lenr two
    (by omega) fits width long openA rfl known
  obtain ⟨svp, proveS, verifyS⟩ := BgSvp.complete O coins.sb
    (childContext O context "single-value-product" ck cA n b (ck.com n (last.getD · 0) coins.sb)) coins.svp long wide fits
    total
  refine ⟨⟨ck.com n (last.getD · 0) coins.sb, hadamard, svp⟩, ?_, ?_⟩
  · have filled : a ≠ [] := by
      rintro rfl
      rw [List.length_nil] at lena
      omega
    simp only [prove, widtha 0 (by omega), lena, lenA]
    rw [if_neg filled, validateShape_ok lenA two wide fits, ok_bind, if_neg (not_not_intro lenr),
      if_neg (not_not_intro width), checks, ok_bind, lastEq, requireWitness_bind _ (decide_eq_true witnessed), committed,
      ok_bind, proveH, ok_bind, proveS, ok_bind]
  rw [verify, lenA, validateShape_ok lenA two wide fits, ok_bind, verifyH, ok_bind, if_pos rfl, verifyS, guarded]

end Completeness

end Holdem.BgProduct
