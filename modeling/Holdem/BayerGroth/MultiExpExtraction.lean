import Holdem.BayerGroth.MultiExp
import Holdem.Crypto.Opening
import Mathlib.Algebra.Field.ZMod

/-!
What accepted answers of the multi-exponentiation argument determine: the weights under `b_commits`, and
that they make the public ciphertext of the output deck.
-/

namespace Holdem.BgShuffle

open Finset Folding Extraction BgZero ElGamal
open List hiding range mem_range

variable {F G B : Type} [Field F] [DecidableEq F] [AddCommGroup G] [Module F G] [DecidableEq G] {c : Ciphertext G}

structure MultiAnswer (F : Type) where
  rBlinded : F
  bBlinded : F
  sBlinded : F
  tauBlinded : F
  aBlinded : List F

namespace MultiAnswer

def proof (answer : MultiAnswer F) (a0Commit : G) (commitBk : List G) (vectorEk : List (Ciphertext G)) :
    MultiExponentiationProof F G :=
  ⟨a0Commit, commitBk, vectorEk, answer.rBlinded, answer.bBlinded, answer.sBlinded, answer.tauBlinded, answer.aBlinded⟩

def weights (n : ℕ) (answer : MultiAnswer F) : Opening F n := (answer.rBlinded, fun j => answer.aBlinded.getD j 0)

def blinding (answer : MultiAnswer F) : Opening F 1 := (answer.sBlinded, fun j => [answer.bBlinded].getD j 0)

end MultiAnswer

structure MultiWitness (F : Type) where
  rows : List (List F)
  blinders : List F
  t : F

def multiExtract (m n : ℕ) (x : ℕ → F) (answers : ℕ → MultiAnswer F) : Extracted F (MultiWitness F) :=
  let weights l := (answers l).weights n
  let rows := interpolate (m + 1) x weights
  -- the commitment to the blinding of the statement's own coefficient is the identity
  let center := interpolate (2 * m) x (fun l => (answers l).blinding) m
  extractOr (Opening.relation center ::
      (List.range (2 * m)).map fun l => Opening.relation (residue (m + 1) x weights l))
    { rows := (List.range m).map fun i => List.ofFn (rows (i + 1)).2
      blinders := (List.range m).map fun i => (rows (i + 1)).1
      t := interpolate (2 * m) x (fun l => (answers l).tauBlinded) m }

/-- The checks of `_multi_verify`, on an answer to a challenge. -/
structure MultiAccepted (R : Backend G) (mask pk : G) (ck : CommitmentKey G) (bCommits : List G)
    (C : List (List (Ciphertext G))) (product : Ciphertext G) (a0Commit : G) (commitBk : List G)
    (vectorEk : List (Ciphertext G)) (m n : ℕ) (x : F) (answer : MultiAnswer F) : Prop where
  fits : n ≤ ck.n
  one : 1 ≤ ck.n
  zero : commitBk.getD m 0 = 0
  center : vectorEk.getD m 0 = product
  weights : ck.opened F n (answer.weights n) =
    evalAt (m + 1) (fun i => if i = 0 then a0Commit else bCommits.getD (i - 1) 0) x
  blinding : ck.opened F 1 answer.blinding = evalAt (2 * m) (commitBk.getD · 0) x
  decks : evalAt (2 * m) (vectorEk.getD · 0) x = cipher R.base pk (answer.bBlinded • mask) answer.tauBlinded +
    ∑ i ∈ range m, ∑ j ∈ range n, (x ^ (m - 1 - i) * answer.aBlinded.getD j 0) • (C.getD i []).getD j 0

omit [DecidableEq F] in
theorem encrypt_ok {R : Backend G} {pk message : G} {r : F} (encrypted : encrypt R pk message r = .ok c) :
    c = cipher R.base pk message r := by
  obtain ⟨c0, first, encrypted⟩ := bind_eq_ok encrypted
  obtain ⟨shared, second, encrypted⟩ := bind_eq_ok encrypted
  unfold Backend.mulBase at first
  unfold Backend.mul at second
  split at first
  · cases first
  split at second
  · cases second
  cases first
  cases second
  cases encrypted
  rfl

theorem dotCipher_ok {values : List F} {ciphers : List (Ciphertext G)} {n : ℕ} (len : values.length = n)
    (dotted : dotCipher values ciphers = .ok c) : c = ∑ j ∈ range n, values.getD j 0 • ciphers.getD j 0 := by
  have lengths : ciphers.length = n := by
    by_contra differ
    rw [dotCipher, if_pos (by rw [len]; exact Ne.symm differ)] at dotted
    cases dotted
  rw [dotCipher_eq len lengths] at dotted
  exact (Except.ok.inj dotted).symm

section

variable {R : Backend G} {mask pk a0Commit : G} {ck : CommitmentKey G} {aCommits bCommits commitBk : List G}
  {C : List (List (Ciphertext G))} {product : Ciphertext G} {vectorEk : List (Ciphertext G)} {m n : ℕ} {x : ℕ → F}
  {answers : ℕ → MultiAnswer F}

theorem accepted_of_multiVerify {O : Oracle F G B} {statement : B} {answer : MultiAnswer F} (some : 1 ≤ m)
    (verified : multiVerify R mask O pk ck statement aCommits bCommits C product
      (answer.proof a0Commit commitBk vectorEk) m n = .ok true) :
    MultiAccepted R mask pk ck bCommits C product a0Commit commitBk vectorEk m n
      (multiChallenge O statement aCommits bCommits product a0Commit commitBk vectorEk) answer := by
  unfold multiVerify at verified
  split at verified
  · cases verified
  split at verified
  · cases verified
  split at verified
  · cases verified
  next lengths =>
  have lenA : answer.aBlinded.length = n := not_not.mp lengths
  obtain ⟨zeroCommit, zeroed, verified⟩ := bind_eq_ok verified
  obtain ⟨one, zeroed⟩ := CommitmentKey.opened_of_commit (n := 1) rfl zeroed
  split at verified
  · next centered =>
    obtain ⟨cbx, folded, verified⟩ := bind_eq_ok verified
    obtain ⟨openedA, committedA, verified⟩ := bind_eq_ok verified
    split at verified
    · next sameA =>
      obtain ⟨cbk, foldedB, verified⟩ := bind_eq_ok verified
      obtain ⟨openedB, committedB, verified⟩ := bind_eq_ok verified
      split at verified
      · next sameB =>
        obtain ⟨masking, masked, verified⟩ := bind_eq_ok verified
        obtain ⟨rows, dotted, verified⟩ := bind_eq_ok verified
        have equation := of_decide_eq_true (Except.ok.inj verified)
        -- what each of the sums is, by index
        simp only [MultiAnswer.proof] at folded committedA foldedB committedB masked dotted equation centered sameA
        generalize multiChallenge O statement aCommits bCommits product a0Commit commitBk vectorEk = x at *
        rw [xArray_eq x some] at folded
        rw [powers_double x some] at foldedB dotted equation
        obtain ⟨-, foldedA⟩ := multiscalarMul_ok (n := m) (by simp) folded
        obtain ⟨-, foldedB⟩ := multiscalarMul_ok (n := 2 * m) (by simp) foldedB
        obtain ⟨fits, weighed⟩ := CommitmentKey.opened_of_commit lenA committedA
        obtain ⟨-, blinded⟩ := CommitmentKey.opened_of_commit (n := 1) rfl committedB
        have : Inhabited (Ciphertext G) := ⟨0⟩
        obtain ⟨row, each, rfl⟩ := mapM_ok dotted
        refine ⟨fits, one, ?_, centered.2, ?_, ?_, ?_⟩
        · rw [centered.1, ← zeroed]
          simp [CommitmentKey.opened]
        · rw [evalAt, Finset.sum_range_succ', pow_zero, one_smul, if_pos rfl]
          refine weighed.trans (sameA.symm.trans ?_)
          rw [foldedA]
          refine congrArg (· + a0Commit) (sum_congr rfl fun i member => ?_)
          rw [getD_map_range _ _ (mem_range.mp member), if_neg i.succ_ne_zero, Nat.add_sub_cancel]
        · refine blinded.trans (sameB.symm.trans (foldedB.trans (sum_congr rfl fun k member => ?_)))
          rw [getD_map_range _ _ (mem_range.mp member)]
        rw [sum_list_range, sum_list_range, encrypt_ok masked, mulSafe_eq] at equation
        refine Eq.trans (sum_congr rfl fun k member => ?_) (equation.trans (congrArg _ ?_))
        · rw [getD_map_range _ _ (mem_range.mp member), cipherScale_eq]
        refine sum_congr rfl fun i member => ?_
        have below := mem_range.mp member
        rw [dotCipher_ok (by rw [length_map, lenA]) (each i (List.mem_range.mpr below))]
        refine sum_congr rfl fun j column => ?_
        rw [getD_eq_getElem _ _ (by rw [length_map, lenA]; exact mem_range.mp column), getElem_map,
          getD_map_range _ _ (by omega), ← getD_eq_getElem]
      cases verified
    cases verified
  cases verified

omit [DecidableEq F] in
theorem band_center (A : ℕ → ℕ → F) : band C m n A m = ∑ i ∈ range m, dot C n (A (i + 1)) i := by
  have members : (range m).filter (fun i => m ≤ m + i + 1 ∧ m + i + 1 - m ≤ m) = range m := by
    ext i
    simp only [Finset.mem_filter, mem_range]
    omega
  rw [band, members]
  refine sum_congr rfl fun i _ => ?_
  rw [show m + i + 1 - m = i + 1 by omega]

theorem product_of_rows (accepted : ∀ l < 2 * m, MultiAccepted R mask pk ck bCommits C product a0Commit commitBk vectorEk m n
    (x l) (answers l)) (distinct : Set.InjOn x (Set.Iio (2 * m))) (some : 1 ≤ m) (rows : ℕ → Opening F n)
    (folded : ∀ l < 2 * m, (answers l).weights n = evalAt (m + 1) rows (x l))
    (centered : interpolate (2 * m) x (fun l => (answers l).blinding) m = 0) :
    product = cipher R.base pk 0 (interpolate (2 * m) x (fun l => (answers l).tauBlinded) m) +
      ∑ i ∈ range m, dot C n (Opening.entry (rows (i + 1))) i := by
  set tau := interpolate (2 * m) x fun l => (answers l).tauBlinded
  set b : ℕ → F := fun k => Opening.entry (interpolate (2 * m) x (fun l => (answers l).blinding) k) 0
  have agree : ∀ l < 2 * m, evalAt (2 * m) (vectorEk.getD · 0) (x l) = evalAt (2 * m)
      (fun k => cipher R.base pk (b k • mask) (tau k) + band C m n (fun l => Opening.entry (rows l)) k) (x l) := by
    intro l below
    have bFolded : (answers l).bBlinded = ∑ k ∈ range (2 * m), b k * x l ^ k := by
      have value : Opening.entry (answers l).blinding 0 = (answers l).bBlinded := Opening.entry_eq _ Nat.one_pos
      rw [← value, ← evalAt_interpolate (w := fun l => (answers l).blinding) distinct below,
        Opening.entry_evalAt _ _ Nat.one_pos]
      exact sum_congr rfl fun k _ => mul_comm _ _
    have tauFolded : (answers l).tauBlinded = ∑ k ∈ range (2 * m), tau k * x l ^ k := by
      rw [← evalAt_interpolate (w := fun l => (answers l).tauBlinded) distinct below]
      exact sum_congr rfl fun k _ => mul_comm _ _
    have aFolded : ∀ j < n, (answers l).aBlinded.getD j 0 =
        ∑ i ∈ range (m + 1), x l ^ i * Opening.entry (rows i) j := by
      intro j inside
      rw [← Opening.entry_evalAt _ _ inside, ← folded l below, Opening.entry_eq _ inside]
      rfl
    rw [(accepted l below).decks, bFolded, tauFolded, ← sum_smul_cipher]
    simp only [evalAt, smul_add, sum_add_distrib]
    rw [← sum_rows]
    refine congrArg _ (sum_congr rfl fun i _ => sum_congr rfl fun j column => ?_)
    rw [aFolded j (mem_range.mp column)]
  have center := coefficients_eq distinct agree (show m < 2 * m by omega)
  rw [(accepted 0 (by omega)).center] at center
  have blind : b m = 0 := by
    rw [show b m = Opening.entry _ 0 from rfl, centered, Opening.entry_eq _ Nat.one_pos]
    rfl
  rw [center, blind, zero_smul, band_center]

/-- Rows of weights that open `b_commits` and make the public ciphertext of the output deck. -/
structure MultiWitness.Valid (R : Backend G) (pk : G) (ck : CommitmentKey G) (bCommits : List G)
    (C : List (List (Ciphertext G))) (product : Ciphertext G) (m n : ℕ) (found : MultiWitness F) : Prop where
  rows : found.rows.length = m
  width : ∀ row ∈ found.rows, row.length = n
  opens : ∀ i < m, commit ck (found.rows.getD i []) (found.blinders.getD i 0) = .ok (bCommits.getD i 0)
  product : product = cipher R.base pk 0 found.t +
    ∑ i ∈ range m, ∑ j ∈ range n, entry found.rows i j • (C.getD i []).getD j 0

theorem multiExtract_sound (accepted : ∀ l < 2 * m, MultiAccepted R mask pk ck bCommits C product a0Commit commitBk vectorEk
    m n (x l) (answers l)) (distinct : Set.InjOn x (Set.Iio (2 * m))) (some : 1 ≤ m) :
    (multiExtract m n x answers).Sound ck (MultiWitness.Valid R pk ck bCommits C product m n) := by
  have fits := (accepted 0 (by omega)).fits
  have early := distinct.mono (Set.Iio_subset_Iio (show m + 1 ≤ 2 * m by omega))
  refine extractOr_sound ?_ fun none => ⟨?_, ?_, ?_, ?_⟩
  · intro relation member
    obtain rfl | member := List.mem_cons.mp member
    · refine commit_relation (accepted 0 (by omega)).one ?_
      rw [map_interpolate_eq distinct (fun l below => (accepted l below).blinding) (by omega)]
      exact (accepted 0 (by omega)).zero
    obtain ⟨l, inside, rfl⟩ := List.mem_map.mp member
    exact commit_relation fits (map_residue distinct (by omega) (fun l below => (accepted l below).weights)
      (List.mem_range.mp inside))
  · rw [length_map, length_range]
  · intro row member
    obtain ⟨i, -, rfl⟩ := List.mem_map.mp member
    exact length_ofFn
  · intro i row
    rw [getD_map_range _ _ row, getD_map_range _ _ row, CommitmentKey.commit_ofFn _ fits,
      map_interpolate_eq early (fun l below => (accepted l (by omega)).weights) (by omega), if_neg i.succ_ne_zero,
      Nat.add_sub_cancel]
  refine (product_of_rows accepted distinct some (interpolate (m + 1) x fun l => (answers l).weights n)
    (fun l below => ?_) ?_).trans (congrArg _ ?_)
  · exact eq_of_residue (trivial_relation_iff.mp (none _ (List.mem_cons_of_mem _
      (List.mem_map_of_mem (List.mem_range.mpr below)))))
  · exact trivial_relation_iff.mp (none _ (.head _))
  refine sum_congr rfl fun i row => sum_congr rfl fun j _ => ?_
  rw [entry, getD_map_range _ _ (mem_range.mp row), Opening.getD_ofFn]

/-- Answers with one first message that `_multi_verify` accepts for `2 * m` challenges give away rows
under `b_commits` that make the public ciphertext, or a relation between the generators. -/
theorem multi_extracts (R : Backend G) (mask pk : G) (ck : CommitmentKey G) (O : ℕ → Oracle F G B) (statement : ℕ → B)
    (aCommits bCommits : List G) (C : List (List (Ciphertext G))) (product : Ciphertext G) (a0Commit : G)
    (commitBk : List G) (vectorEk : List (Ciphertext G)) (m n : ℕ) (answers : ℕ → MultiAnswer F) (rows : 2 ≤ m)
    (verified : ∀ l < 2 * m, multiVerify R mask (O l) pk ck (statement l) aCommits bCommits C product
      ((answers l).proof a0Commit commitBk vectorEk) m n = .ok true)
    (distinct : Set.InjOn (fun l => multiChallenge (O l) (statement l) aCommits bCommits product a0Commit commitBk vectorEk)
      (Set.Iio (2 * m))) :
    (multiExtract m n (fun l => multiChallenge (O l) (statement l) aCommits bCommits product a0Commit commitBk vectorEk)
      answers).Sound ck (MultiWitness.Valid R pk ck bCommits C product m n) :=
  multiExtract_sound (fun l below => accepted_of_multiVerify (by omega) (verified l below)) distinct (by omega)

end

local instance prime_seven_multi : Fact (Nat.Prime 7) := ⟨by decide⟩

theorem multi_extracts_four :
    let R : Backend (ZMod 7) := ⟨1, true⟩
    let ck : CommitmentKey (ZMod 7) := ⟨3, [1, 5]⟩
    let C : List (List (Ciphertext (ZMod 7))) := [[⟨1, 2⟩, ⟨3, 4⟩], [⟨5, 6⟩, ⟨0, 1⟩]]
    let A (i j : ℕ) : ZMod 7 := i + 2 * j
    let bCommits := (List.range 2).map fun i => ck.com 2 (A (i + 1)) (i : ZMod 7)
    let blinding (k : ℕ) : ZMod 7 := if k = 2 then 0 else 1
    let challenges (l : ℕ) : {x : ZMod 7 // x ≠ 0} :=
      [⟨1, by decide⟩, ⟨2, by decide⟩, ⟨3, by decide⟩].getD l ⟨4, by decide⟩
    let product := cipher R.base 3 0 (2 : ZMod 7) + band C 2 2 A 2
    let proof (x : ZMod 7) := multiHonest R 2 3 ck C A (fun i => (i : ZMod 7)) 2 2 6 blinding blinding (fun k => (k : ZMod 7)) x
    let answers (l : ℕ) : MultiAnswer (ZMod 7) := ⟨(proof (challenges l)).rBlinded, (proof (challenges l)).bBlinded,
      (proof (challenges l)).sBlinded, (proof (challenges l)).tauBlinded, (proof (challenges l)).aBlinded⟩
    (multiExtract 2 2 (fun l => (challenges l).val) answers).Sound ck
      (MultiWitness.Valid R 3 ck bCommits C product 2 2) := by
  intro R ck C A bCommits blinding challenges product proof answers
  let O (l : ℕ) : Oracle (ZMod 7) (ZMod 7) Unit := ⟨fun _ => (), fun _ _ => challenges l⟩
  refine multi_extracts R 2 3 ck O (fun _ => ()) [0, 0] bCommits C product (proof 0).a0Commit (proof 0).commitBk
    (proof 0).vectorEk 2 2 answers le_rfl (fun l _ => ?_) fun i hi j hj same => ?_
  · refine multiVerify_honest (O l) rfl one_le_two one_le_two le_rfl rfl rfl (by decide) (fun i row => ?_) rfl rfl rfl rfl rfl
    exact getD_map_range _ _ row
  rw [Set.mem_Iio] at hi hj
  interval_cases i <;> interval_cases j <;> first | rfl | exact absurd same (by decide)

end Holdem.BgShuffle
