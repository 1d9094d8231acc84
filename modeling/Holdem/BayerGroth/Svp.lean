import Holdem.Crypto.Group

/-!
The single-value product argument of `bg_svp.py`: the values under one commitment multiply to a
public scalar.
-/

namespace Holdem.BgSvp

open List Folding CommitmentKey

variable {F G B : Type} [Field F] [DecidableEq F] [AddCommGroup G] [Module F G] [DecidableEq G]

structure SVPProof (F G : Type) where
  cd : G
  cdelta : G
  cDelta : G
  aTilde : List F
  bTilde : List F
  rTilde : F
  sTilde : F

structure Coins (F : Type) where
  d : ℕ → F
  rd : F
  delta : ℕ → F
  s1 : F
  sx : F

def challenge (O : Oracle F G B) (ck : CommitmentKey G) (ca : G) (n : ℕ) (b : F) (cd cdelta cDelta : G)
    (context : B) : F :=
  (O.challenge ([.text "poker.bg.svp.v1", .bytes context, .point ck.H] ++ ck.Gs.map .point ++
    [.point ca, .count n, .scalar b, .point cd, .point cdelta, .point cDelta]) "").val

def prove (O : Oracle F G B) (ck : CommitmentKey G) (a : List F) (r b : F) (context : B) (coins : Coins F) :
    Except PyError (SVPProof F G) :=
  let n := a.length
  if n < 2 then .error (.valueError "single-value product argument requires n >= 2")
  else if n > ck.n then .error (.valueError s!"vector longer than commitment key: {n} > {ck.n}")
  else do
    let products := running a
    requireWitness (decide (products.getD (n - 1) 0 = b)) "witness does not satisfy prod(a) == b"
    -- the claimed value from here on
    let partials := products.set (n - 1) b
    let d := (range n).map coins.d
    let delta := d.getD 0 0 :: ((range (n - 2)).map coins.delta ++ [0])
    let cd ← commit ck d coins.rd
    let cdelta ← commit ck ((range (n - 1)).map fun i => -(delta.getD i 0 * d.getD (i + 1) 0)) coins.s1
    let cDelta ← commit ck ((range (n - 1)).map fun i =>
      delta.getD (i + 1) 0 - a.getD (i + 1) 0 * delta.getD i 0 - partials.getD i 0 * d.getD (i + 1) 0) coins.sx
    let ca ← commit ck a r
    let x := challenge O ck ca n b cd cdelta cDelta context
    return { cd := cd, cdelta := cdelta, cDelta := cDelta
             aTilde := (range n).map fun i => x * a.getD i 0 + d.getD i 0
             rTilde := x * r + coins.rd
             bTilde := (range n).map fun i => x * partials.getD i 0 + delta.getD i 0
             sTilde := x * coins.sx + coins.s1 }

def verify (O : Oracle F G B) (ck : CommitmentKey G) (ca : G) (n : ℕ) (b : F) (context : B)
    (proof : SVPProof F G) : Except PyError Bool :=
  if n < 2 ∨ n > ck.n then .ok false
  else if proof.aTilde.length ≠ n ∨ proof.bTilde.length ≠ n then .ok false
  else do
    let x := challenge O ck ca n b proof.cd proof.cdelta proof.cDelta context
    let opened ← commit ck proof.aTilde proof.rTilde
    if mulSafe x ca + proof.cd = opened then do
      let chained ← commit ck ((range (n - 1)).map fun i =>
        x * proof.bTilde.getD (i + 1) 0 - proof.bTilde.getD i 0 * proof.aTilde.getD (i + 1) 0) proof.sTilde
      .ok (decide (mulSafe x proof.cDelta + proof.cdelta = chained) &&
        decide (proof.bTilde.getD 0 0 = proof.aTilde.getD 0 0) &&
        decide (proof.bTilde.getD (n - 1) 0 = x * b))
    else .ok false

section Completeness

variable {n : ℕ} {ck : CommitmentKey G} {b : F} {a : List F}

/-- The blinding of the running products: the first is the blinding of the first value, the last is
zero. -/
def blinding (coins : Coins F) (n i : ℕ) : F :=
  if i = 0 then coins.d 0 else if i = n - 1 then 0 else coins.delta (i - 1)

omit [DecidableEq F] in
theorem blinding_getD (coins : Coins F) {i : ℕ} (wide : 2 ≤ n) (inside : i < n) :
    (coins.d 0 :: ((range (n - 2)).map coins.delta ++ [0])).getD i 0 = blinding coins n i := by
  cases i with
  | zero => rfl
  | succ i =>
    rw [getD_cons_succ, blinding, if_neg (Nat.succ_ne_zero i), Nat.add_sub_cancel]
    by_cases last : i + 1 = n - 1
    · rw [if_pos last, getD_append_right _ _ _ _ (by simp; omega)]
      simp [show i - (n - 2) = 0 by omega]
    rw [if_neg last, getD_append _ _ _ _ (by simp; omega), getD_map_range _ _ (by omega)]

/-- The honest proof for challenge `x`, by what its lists hold at each index. The first message does
not depend on `x`. -/
def honest (ck : CommitmentKey G) (n : ℕ) (a : ℕ → F) (r : F) (coins : Coins F) (x : F) : SVPProof F G :=
  { cd := ck.com n coins.d coins.rd
    cdelta := ck.com (n - 1) (fun i => -(blinding coins n i * coins.d (i + 1))) coins.s1
    cDelta := ck.com (n - 1) (fun i => blinding coins n (i + 1) - a (i + 1) * blinding coins n i -
      (∏ j ∈ Finset.range (i + 1), a j) * coins.d (i + 1)) coins.sx
    aTilde := (range n).map fun i => x * a i + coins.d i
    rTilde := x * r + coins.rd
    bTilde := (range n).map fun i => x * (∏ j ∈ Finset.range (i + 1), a j) + blinding coins n i
    sTilde := x * coins.sx + coins.s1 }

def drawn (O : Oracle F G B) (ck : CommitmentKey G) (n : ℕ) (a : ℕ → F) (r b : F) (context : B)
    (coins : Coins F) : F :=
  let first := honest ck n a r coins 0
  challenge O ck (ck.com n a r) n b first.cd first.cdelta first.cDelta context

theorem prove_eq (O : Oracle F G B) (r : F) (context : B)
    (coins : Coins F) (len : a.length = n) (wide : 2 ≤ n) (fits : n ≤ ck.n)
    (product : ∏ j ∈ Finset.range n, a.getD j 0 = b) :
    prove O ck a r b context coins =
      .ok (honest ck n (a.getD · 0) r coins (drawn O ck n (a.getD · 0) r b context coins)) := by
  have partials : ∀ i < n, (running a).getD i 0 = ∏ j ∈ Finset.range (i + 1), a.getD j 0 :=
    fun i inside => getD_running 0 0 (by omega)
  have last : (running a).getD (n - 1) 0 = b := by
    rw [partials _ (by omega), show n - 1 + 1 = n by omega, product]
  have kept : (running a).set (n - 1) b = running a := by rw [← last, set_getD_self]
  have d : ∀ i < n, ((range n).map coins.d).getD i 0 = coins.d i := fun i inside => getD_map_range _ _ inside
  have delta : ∀ i < n, (((range n).map coins.d).getD 0 0 :: ((range (n - 2)).map coins.delta ++ [0])).getD i 0
      = blinding coins n i := by
    intro i inside
    rw [d 0 (by omega), blinding_getD coins wide inside]
  simp only [prove, len]
  rw [if_neg (by omega), if_neg (by omega), requireWitness_bind _ (decide_eq_true last), kept,
    commit_map_range _ _ fits, ok_bind,
    commit_map_congr (g := fun i => -(blinding coins n i * coins.d (i + 1))) _ (by omega)
      fun i inside => by rw [delta i (by omega), d (i + 1) (by omega)], ok_bind,
    commit_map_congr (g := fun i => blinding coins n (i + 1) - a.getD (i + 1) 0 * blinding coins n i -
      (∏ j ∈ Finset.range (i + 1), a.getD j 0) * coins.d (i + 1)) _ (by omega)
      fun i inside => by rw [delta i (by omega), delta (i + 1) (by omega), d (i + 1) (by omega), partials i (by omega)],
    ok_bind, commit_eq _ (by omega), ok_bind, len]
  apply congrArg Except.ok
  rw [honest]
  congr 1
  · exact map_range_congr fun i inside => by rw [d i inside]; rfl
  exact map_range_congr fun i inside => by rw [partials i inside, delta i inside]; rfl

theorem verify_honest (O : Oracle F G B) {a : ℕ → F} {r : F} (context : B)
    (coins : Coins F) (wide : 2 ≤ n) (fits : n ≤ ck.n) (product : ∏ j ∈ Finset.range n, a j = b) :
    verify O ck (ck.com n a r) n b context (honest ck n a r coins (drawn O ck n a r b context coins)) = .ok true := by
  generalize same : drawn O ck n a r b context coins = x
  have challenged : challenge O ck (ck.com n a r) n b (honest ck n a r coins x).cd
      (honest ck n a r coins x).cdelta (honest ck n a r coins x).cDelta context = x := same
  rw [verify, if_neg (by omega), if_neg (by simp [honest]), challenged]
  have opened : mulSafe x (ck.com n a r) + (honest ck n a r coins x).cd =
      ck.com n (fun i => x * a i + coins.d i) (x * r + coins.rd) := by
    rw [mulSafe_eq, smul_com, honest, com_add]
  have folded : commit ck (honest ck n a r coins x).aTilde (honest ck n a r coins x).rTilde =
      .ok (ck.com n (fun i => x * a i + coins.d i) (x * r + coins.rd)) := commit_map_range _ _ fits
  have chained : commit ck ((range (n - 1)).map fun i => x * (honest ck n a r coins x).bTilde.getD (i + 1) 0 -
      (honest ck n a r coins x).bTilde.getD i 0 * (honest ck n a r coins x).aTilde.getD (i + 1) 0)
      (honest ck n a r coins x).sTilde =
      .ok (mulSafe x (honest ck n a r coins x).cDelta + (honest ck n a r coins x).cdelta) := by
    rw [mulSafe_eq, honest, smul_com, com_add]
    refine commit_map_congr _ (by omega) fun i inside => ?_
    -- the square of the challenge drops out because each running product is the next value times
    -- the one before
    rw [getD_map_range _ _ (by omega), getD_map_range _ _ (by omega), getD_map_range _ _ (by omega),
      Finset.prod_range_succ _ (i + 1)]
    ring
  have start : (honest ck n a r coins x).bTilde.getD 0 0 = (honest ck n a r coins x).aTilde.getD 0 0 := by
    rw [honest, getD_map_range _ _ (by omega), getD_map_range _ _ (by omega), zero_add, Finset.prod_range_one,
      blinding, if_pos rfl]
  have final : (honest ck n a r coins x).bTilde.getD (n - 1) 0 = x * b := by
    rw [honest, getD_map_range _ _ (by omega), show n - 1 + 1 = n by omega, product, blinding, if_neg (by omega),
      if_pos rfl, add_zero]
  rw [folded, ok_bind, if_pos opened, chained, ok_bind, decide_eq_true rfl, decide_eq_true start, decide_eq_true final]
  rfl

theorem complete (O : Oracle F G B) (r : F) (context : B)
    (coins : Coins F) (len : a.length = n) (wide : 2 ≤ n) (fits : n ≤ ck.n)
    (product : ∏ j ∈ Finset.range n, a.getD j 0 = b) :
    ∃ proof, prove O ck a r b context coins = .ok proof ∧
      verify O ck (ck.com n (a.getD · 0) r) n b context proof = .ok true :=
  ⟨_, prove_eq O r context coins len wide fits product, verify_honest O context coins wide fits product⟩

end Completeness

end Holdem.BgSvp
