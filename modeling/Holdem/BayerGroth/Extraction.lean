import Holdem.BayerGroth.Shuffle
import Holdem.Lib.Extraction

/-!
What answers to enough challenges of the shuffle argument determine: one permutation, and a
re-encryption of each card.
-/

namespace Holdem.BgShuffle

open Folding ElGamal Finset

variable {G : Type} [AddCommGroup G] [DecidableEq G] {N : ℕ}

def zeros (q : ℕ) [Fact q.Prime] [Module (ZMod q) G] (base pk : G) : ZMod q →ₗ[ZMod q] Ciphertext G where
  toFun r := cipher base pk 0 r
  map_add' r s := by rw [cipher_add, add_zero]
  map_smul' k r := by rw [smul_eq_mul, RingHom.id_apply, smul_cipher, smul_zero]

variable {q : ℕ} [Fact q.Prime] [Module (ZMod q) G]

/-- The product equation that `verify` checks, for openings `a` and `b` at one pair of challenges. -/
def ProductHolds (a b : List (ZMod q)) (x y z : ZMod q) : Prop :=
  claimed x y z a.length = .ok (List.zipWith (fun ai bi => y * ai + bi - z) a b).prod

/-- The relation that the multi-exponentiation checks, for the weights `b`. -/
def MultiHolds (R : Backend G) (pk : G) (inDeck outDeck : List (Ciphertext G)) (b : List (ZMod q)) (x : ZMod q) : Prop :=
  ∃ (tau : ZMod q) (mask expected weighed : Ciphertext G), encrypt R pk (0 : G) tau = .ok mask ∧
    dotCipher (xPowers x inDeck.length) inDeck = .ok expected ∧ dotCipher b outDeck = .ok weighed ∧
    expected = mask + weighed

theorem index_injective (small : N < q) : Function.Injective fun k : Fin N => ((k.val + 1 : ℕ) : ZMod q) := by
  intro j k same
  have residues := (ZMod.natCast_eq_natCast_iff' _ _ _).mp same
  rw [Nat.mod_eq_of_lt (by omega), Nat.mod_eq_of_lt (by omega)] at residues
  exact Fin.ext (by omega)

section

variable {N : ℕ} {a b : List (ZMod q)} {x : ZMod q}

theorem productHolds_factors (small : N < q) (lenA : a.length = N) (lenB : b.length = N) {y z : ZMod q}
    (holds : ProductHolds a b x y z) :
    ∏ i : Fin N, (y * a.getD i 0 + b.getD i 0 - z) = ∏ k : Fin N, (y * ((k.val + 1 : ℕ) : ZMod q) + x ^ (k.val + 1) - z) := by
  have factors : List.zipWith (fun ai bi => y * ai + bi - z) a b =
      (List.range N).map fun i => y * a.getD i 0 + b.getD i 0 - z := by
    conv_lhs => rw [eq_map_range a 0, eq_map_range b 0, lenA, lenB, zipWith_map_range]
  rw [ProductHolds, lenA, claimed_eq _ _ _ small, factors, prod_list_range] at holds
  rw [Fin.prod_univ_eq_prod_range (fun i => y * a.getD i 0 + b.getD i 0 - z) N,
    Fin.prod_univ_eq_prod_range (fun k => y * ((k + 1 : ℕ) : ZMod q) + x ^ (k + 1) - z) N]
  exact (Except.ok.inj holds).symm

theorem opened_pairs (small : N < q) (lenA : a.length = N) (lenB : b.length = N) {Y : Finset (ZMod q)}
    (enough : Y.card = N ^ 2 + 1)
    (products : ∀ y ∈ Y, ∃ Z : Finset (ZMod q), Z.card = N ∧ ∀ z ∈ Z, ProductHolds a b x y z) :
    ∃ σ : Equiv.Perm (Fin N), ∀ i : Fin N, a.getD i 0 = ((σ i).val + 1 : ℕ) ∧ b.getD i 0 = x ^ ((σ i).val + 1) := by
  have lines := Extraction.exists_perm_of_lines (Y := Y) (a := fun i : Fin N => a.getD i 0)
    (b := fun i : Fin N => b.getD i 0) (c := fun k : Fin N => ((k.val + 1 : ℕ) : ZMod q))
    (d := fun k : Fin N => x ^ (k.val + 1)) (index_injective small) (by rw [Fintype.card_fin, enough]; omega) ?_
  · exact lines
  intro y member
  obtain ⟨Z, points, holds⟩ := products y member
  apply Extraction.map_eq_of_prod_sub_eq (Z := Z)
  · rw [Fintype.card_fin, points]
  intro z inside
  exact productHolds_factors small lenA lenB (holds z inside)

end

theorem batched_difference {R : Backend G} (total : R.total = true) {pk : G} {inDeck outDeck : List (Ciphertext G)}
    {b : List (ZMod q)} {x : ZMod q} (lenIn : inDeck.length = N) (lenOut : outDeck.length = N) (lenB : b.length = N)
    (σ : Equiv.Perm (Fin N)) (weights : ∀ i : Fin N, b.getD i 0 = x ^ ((σ i).val + 1))
    (holds : MultiHolds R pk inDeck outDeck b x) :
    ∑ j : Fin N, x ^ (j.val + 1) • (inDeck.getD j 0 - outDeck.getD (σ.symm j) 0) ∈ LinearMap.range (zeros q R.base pk) := by
  obtain ⟨tau, mask, expected, weighed, masked, left, right, equation⟩ := holds
  rw [encrypt_total total] at masked
  rw [lenIn, dotCipher_eq (length_xPowers x N) lenIn] at left
  rw [dotCipher_eq lenB lenOut] at right
  have reordered : ∑ j : Fin N, x ^ (j.val + 1) • outDeck.getD (σ.symm j) 0 =
      ∑ i : Fin N, b.getD i 0 • outDeck.getD i 0 := by
    rw [← Equiv.sum_comp σ]
    exact sum_congr rfl fun i _ => by rw [Equiv.symm_apply_apply, weights i]
  refine ⟨tau, ?_⟩
  simp only [smul_sub]
  rw [sum_sub_distrib, reordered, Fin.sum_univ_eq_sum_range (fun i => b.getD i 0 • outDeck.getD i 0) N, Except.ok.inj right,
    Fin.sum_univ_eq_sum_range (fun j => x ^ (j + 1) • inDeck.getD j 0) N]
  have powers : ∑ j ∈ range N, x ^ (j + 1) • inDeck.getD j 0 = expected := by
    rw [← Except.ok.inj left]
    exact sum_congr rfl fun j member => by rw [xPowers_getD x (mem_range.mp member)]
  rw [powers, equation, add_sub_cancel_right]
  exact Except.ok.inj masked

theorem perm_ofFn (σ : Equiv.Perm (Fin N)) : (List.ofFn fun i => (σ i).val).Perm (List.range N) := by
  have listed := σ.ofFn_comp_perm fun i : Fin N => i.val
  have plain : (List.ofFn fun i : Fin N => i.val) = List.range N := by
    apply List.ext_getElem <;> simp
  rwa [plain] at listed

/-- Openings that satisfy what `verify` checks for enough challenges come from a shuffle: the output
deck is the input deck, permuted and re-encrypted. -/
theorem shuffle_extracts (R : Backend G) (pk : G) (inDeck outDeck : List (Ciphertext G)) (m n : ℕ)
    (a : List (ZMod q)) (X : Finset (ZMod q)) (total : R.total = true) (rows : 2 ≤ m) (wide : 2 ≤ n)
    (small : m * n < q) (lenIn : inDeck.length = m * n) (lenOut : outDeck.length = m * n) (lenA : a.length = m * n)
    (challenges : X.card = m * n) (nonzero : 0 ∉ X)
    (answers : ∀ x ∈ X, ∃ b : List (ZMod q), b.length = m * n ∧
      (∃ Y : Finset (ZMod q), Y.card = (m * n) ^ 2 + 1 ∧
        ∀ y ∈ Y, ∃ Z : Finset (ZMod q), Z.card = m * n ∧ ∀ z ∈ Z, ProductHolds a b x y z) ∧
      MultiHolds R pk inDeck outDeck b x) :
    ∃ perm : List ℕ, perm.Perm (List.range (m * n)) ∧ ∃ rho : ℕ → ZMod q, ∀ i < m * n,
      reencrypt R pk (inDeck.getD (perm.getD i 0) 0) (rho i) = .ok (outDeck.getD i 0) := by
  have pos : 0 < m * n := Nat.mul_pos (by omega) (by omega)
  -- one permutation serves every challenge, because it is read off the fixed openings
  obtain ⟨first, inX⟩ : X.Nonempty := card_pos.mp (by omega)
  obtain ⟨b, lenB, ⟨Y, enough, products⟩, -⟩ := answers first inX
  obtain ⟨σ, pairs⟩ := opened_pairs small lenA lenB enough products
  have differences : ∀ x ∈ X, ∑ j : Fin (m * n), x ^ (j.val + 1) • (inDeck.getD j 0 - outDeck.getD (σ.symm j) 0) ∈
      LinearMap.range (zeros q R.base pk) := by
    intro x member
    obtain ⟨b, lenB, ⟨Y, enough, products⟩, multi⟩ := answers x member
    obtain ⟨σ', pairs'⟩ := opened_pairs small lenA lenB enough products
    refine batched_difference total lenIn lenOut lenB σ (fun i => ?_) multi
    have same : σ' i = σ i := index_injective small ((pairs' i).1.symm.trans (pairs i).1)
    rw [(pairs' i).2, same]
  -- powers of enough challenges separate the cards
  let x := X.equivFinOfCardEq challenges
  have cards := Extraction.mem_of_sum_pow_smul_mem (LinearMap.range (zeros q R.base pk))
    (x := fun l => ((x.symm l : X) : ZMod q)) (Subtype.val_injective.comp x.symm.injective)
    (fun l => ne_of_mem_of_not_mem (x.symm l).property nonzero) fun l => differences _ (x.symm l).property
  choose r hr using cards
  refine ⟨List.ofFn fun i => (σ i).val, perm_ofFn σ, fun i => if h : i < m * n then -r (σ ⟨i, h⟩) else 0, fun i below => ?_⟩
  have card := hr (σ ⟨i, below⟩)
  rw [Equiv.symm_apply_apply] at card
  have position : (List.ofFn fun i => (σ i).val).getD i 0 = (σ ⟨i, below⟩).val := by
    rw [List.getD_eq_getElem _ _ (by simpa using below), List.getElem_ofFn]
  have moved : outDeck.getD i 0 = inDeck.getD (σ ⟨i, below⟩) 0 - zeros q R.base pk (r (σ ⟨i, below⟩)) := by
    rw [card, sub_sub_cancel]
  rw [reencrypt_total total, position, moved, sub_eq_add_neg, ← map_neg]
  exact congrArg (fun r => Except.ok (inDeck.getD (σ ⟨i, below⟩) 0 + cipher R.base pk 0 r)) (dif_pos below)

local instance prime_seventeen : Fact (Nat.Prime 17) := ⟨by decide⟩

theorem shuffle_extracts_four :
    ∃ perm : List ℕ, perm.Perm (List.range (2 * 2)) ∧ ∃ rho : ℕ → ZMod 17, ∀ i < 2 * 2,
      reencrypt (⟨1, true⟩ : Backend (ZMod 17)) 3
        ([⟨1, 2⟩, ⟨5, 4⟩, ⟨0, 9⟩, ⟨7, 7⟩].getD (perm.getD i 0) 0) (rho i) =
        .ok ([⟨6, 7⟩, ⟨3, 8⟩, ⟨10, 16⟩, ⟨4, 4⟩].getD i 0) := by
  refine shuffle_extracts ⟨1, true⟩ 3 [⟨1, 2⟩, ⟨5, 4⟩, ⟨0, 9⟩, ⟨7, 7⟩] [⟨6, 7⟩, ⟨3, 8⟩, ⟨10, 16⟩, ⟨4, 4⟩] 2 2
    [2, 1, 4, 3] {1, 2, 3, 4} rfl (by decide) (by decide) (by decide) rfl rfl rfl (by decide) (by decide) ?_
  intro x member
  refine ⟨[x ^ 2, x, x ^ 4, x ^ 3], rfl, ⟨Finset.univ, by decide, fun y _ => ⟨{0, 1, 2, 3}, by decide, ?_⟩⟩, ?_⟩
  · intro z _
    refine (claimed_eq x y z (by decide)).trans (congrArg Except.ok ?_)
    revert x y z
    decide +kernel
  refine ⟨-(x ^ 2 * 1 + x * 2 + x ^ 4 * 3 + x ^ 3 * 4), _, _, _, encrypt_total rfl .., rfl, rfl, ?_⟩
  revert x
  decide +kernel

end Holdem.BgShuffle
