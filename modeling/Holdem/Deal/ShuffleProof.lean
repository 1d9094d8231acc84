import Holdem.Deal.Shuffling

/-!
`shuffle_proof.py`: the cut-and-choose argument. A shadow deck is opened to the input deck or to the
output deck, as the challenge bit says.
-/

set_option linter.unusedSectionVars false

/-- A number as `width` bytes, the most significant one first. -/
def Framing.digits : ℕ → ℕ → List UInt8
  | 0, _ => []
  | width + 1, n => digits width (n / 256) ++ [UInt8.ofNat (n % 256)]

namespace Holdem

open List Folding ShuffleMp Arrangement

variable {F G : Type} [Field F] [DecidableEq F] [AddCommGroup G] [Module F G] [DecidableEq G]

def toBytes (width n : ℕ) : Except PyError (List UInt8) :=
  if n < 256 ^ width then .ok (Framing.digits width n) else .error .overflowError

namespace ShuffleProof

structure ShadowOpening (F : Type) where
  bit : ℕ
  perm : List ℤ
  scalars : List F

def ShadowOpening.witness (op : ShadowOpening F) : ShuffleWitness F := ⟨op.perm, op.scalars⟩

structure Proof (F G : Type) where
  shadows : List (Deck G)
  openings : List (ShadowOpening F)

/-- `_challenge_bits`, as any function of the transcript. -/
abbrev Draw (G : Type) := List UInt8 → Deck G → Deck G → List (Deck G) → ℕ → Except PyError (List ℕ)

def domain : List UInt8 := "poker.shuffleproof.shadow.v1".toList.map fun c => UInt8.ofNat c.toNat

def hashDeck (bytes : G → List UInt8) (deck : Deck G) : List UInt8 := deck.flatMap fun ct => bytes ct.c0 ++ bytes ct.c1

def blockBits (block : List UInt8) : List ℕ := block.flatMap fun byte => (List.range 8).map fun j => (byte.toNat >>> j) % 2

/-- The loop of `_challenge_bits`: blocks are drawn until there are `k` bits. -/
def expand (sha512 : List UInt8 → List UInt8) (seed : List UInt8) (k : ℕ) : ℕ → ℕ → List ℕ → Except PyError (List ℕ)
  | 0, _, _ => .error .diverges
  | fuel + 1, counter, bits =>
    if k ≤ bits.length then .ok bits
    else do
      let suffix ← toBytes 4 counter
      expand sha512 seed k fuel (counter + 1) ((bits ++ blockBits (sha512 (seed ++ suffix))).take k)

def challengeBits (sha512 : List UInt8 → List UInt8) (bytes : G → List UInt8) : Draw G := fun ctx inDeck outDeck shadows k => do
  let ctxLen ← toBytes 4 ctx.length
  let count ← toBytes 4 k
  let deckLen ← toBytes 4 inDeck.length
  let seed := sha512 (domain ++ ctxLen ++ ctx ++ count ++ deckLen ++ hashDeck bytes inDeck ++ hashDeck bytes outDeck ++
    shadows.flatMap (hashDeck bytes))
  expand sha512 seed k (k + 1) 0 []

theorem blockBits_binary (block : List UInt8) : ∀ b ∈ blockBits block, b = 0 ∨ b = 1 := by
  intro b member
  obtain ⟨byte, -, inner⟩ := List.mem_flatMap.mp member
  obtain ⟨j, -, rfl⟩ := List.mem_map.mp inner
  omega

theorem length_blockBits (block : List UInt8) : (blockBits block).length = 8 * block.length := by
  rw [blockBits, length_flatMap]
  simp [mul_comm]

variable {sha512 : List UInt8 → List UInt8} {k n : ℕ} {ctx : List UInt8} {R : Backend G} {pk : G}
  {inDeck outDeck shadow : Deck G} {w σ : ShuffleWitness F} {shadows : List (Deck G)} {draw : Draw G} {bits : List ℕ}
  {i : ℕ}

theorem expand_ok (filled : ∀ m, sha512 m ≠ []) (seed : List UInt8)
    (small : k < 256 ^ 4) (fuel counter : ℕ) (bits : List ℕ) (enough : k < bits.length + fuel) (most : bits.length ≤ k)
    (behind : counter ≤ bits.length) (binary : ∀ b ∈ bits, b = 0 ∨ b = 1) :
    ∃ all, expand sha512 seed k fuel counter bits = .ok all ∧ all.length = k ∧ ∀ b ∈ all, b = 0 ∨ b = 1 := by
  induction fuel generalizing counter bits with
  | zero => omega
  | succ fuel ih =>
    rw [expand]
    split_ifs with full
    · exact ⟨bits, rfl, by omega, binary⟩
    rw [toBytes, if_pos (by omega)]
    have block : 0 < (blockBits (sha512 (seed ++ Framing.digits 4 counter))).length := by
      rw [length_blockBits]
      have := length_pos_of_ne_nil (filled (seed ++ Framing.digits 4 counter))
      omega
    refine ih _ _ ?_ ?_ ?_ ?_
    · rw [length_take, length_append]
      omega
    · rw [length_take]
      omega
    · rw [length_take, length_append]
      omega
    intro b member
    obtain old | new := List.mem_append.mp (mem_of_mem_take member)
    · exact binary b old
    exact blockBits_binary _ b new

theorem challengeBits_ok (filled : ∀ m, sha512 m ≠ []) (bytes : G → List UInt8)
    {inDeck outDeck : Deck G} (hctx : ctx.length < 256 ^ 4)
    (hk : k < 256 ^ 4) (hn : inDeck.length < 256 ^ 4) :
    ∃ bits, challengeBits sha512 bytes ctx inDeck outDeck shadows k = .ok bits ∧ bits.length = k ∧ ∀ b ∈ bits, b = 0 ∨ b = 1 := by
  rw [challengeBits, toBytes, toBytes, toBytes, if_pos hctx, if_pos hk, if_pos hn]
  exact expand_ok filled _ hk (k + 1) 0 [] (by simp) (by simp) (by simp) (by simp)

def openShadow (w shadow : ShuffleWitness F) (bit : ℕ) : ShadowOpening F :=
  if bit = 0 then ⟨0, shadow.perm, shadow.scalars⟩
  else
    let phi := w.perm.map fun p => (inverse shadow.perm).getD p.toNat 0
    ⟨1, phi, zipWith (fun rho p => rho - shadow.scalars.getD p.toNat 0) w.scalars phi⟩

/-- `prove`, with the witnesses of the shadows that it draws. -/
def prove (R : Backend G) (draw : Draw G) (pk : G) (inDeck outDeck : Deck G) (w : ShuffleWitness F) (ctx : List UInt8) (k : ℕ)
    (coins : List (ShuffleWitness F)) : Except PyError (Proof F G) := do
  if outDeck.length ≠ inDeck.length then
    throw (.valueError "in_deck and out_deck differ in length")
  if ¬w.perm.Perm ((List.range inDeck.length).map Int.ofNat) then
    throw (.valueError "perm must be a permutation of range(len(in_deck))")
  if w.scalars.length ≠ inDeck.length then
    throw (.valueError "scalars must have one entry per position")
  let shadows ← coins.mapM (ShuffleMp.shuffleDeck R pk inDeck)
  let bits ← draw ctx inDeck outDeck shadows k
  return ⟨shadows, zipWith (openShadow w) coins bits⟩

def derives (R : Backend G) (pk : G) (source : Deck G) : List ((ℤ × F) × Ciphertext G) → Except PyError Bool
  | [] => .ok true
  | ((p, r), target) :: rest => do
    let expect ← ShuffleMp.reencryptFrom R pk source p r
    if expect = target then derives R pk source rest else return false

def checkOpening (R : Backend G) (pk : G) (inDeck outDeck shadow : Deck G) (op : ShadowOpening F) (bit : ℕ) :
    Except PyError Bool :=
  if op.bit ≠ bit then .ok false
  else if op.perm.length ≠ inDeck.length ∨ op.scalars.length ≠ inDeck.length then .ok false
  else if ¬op.perm.Perm ((List.range inDeck.length).map Int.ofNat) then .ok false
  else if bit = 0 then derives R pk inDeck ((op.perm.zip op.scalars).zip shadow)
  else derives R pk shadow ((op.perm.zip op.scalars).zip outDeck)

def checkOpenings (R : Backend G) (pk : G) (inDeck outDeck : Deck G) : List ((Deck G × ShadowOpening F) × ℕ) → Except PyError Bool
  | [] => .ok true
  | ((shadow, op), bit) :: rest => do
    if ← checkOpening R pk inDeck outDeck shadow op bit then checkOpenings R pk inDeck outDeck rest else return false

def verify (R : Backend G) (draw : Draw G) (pk : G) (inDeck outDeck : Deck G) (proof : Proof F G) (ctx : List UInt8) (k : ℕ) :
    Except PyError Bool := do
  if outDeck.length ≠ inDeck.length then return false
  if proof.shadows.length ≠ k ∨ proof.openings.length ≠ k then return false
  if ¬∀ shadow ∈ proof.shadows, shadow.length = inDeck.length then return false
  let bits ← draw ctx inDeck outDeck proof.shadows k
  checkOpenings R pk inDeck outDeck ((proof.shadows.zip proof.openings).zip bits)

theorem derives_true_iff {source : Deck G} {entries : List ((ℤ × F) × Ciphertext G)} :
    derives R pk source entries = .ok true ↔ ∀ e ∈ entries, reencryptFrom R pk source e.1.1 e.1.2 = .ok e.2 := by
  induction entries with
  | nil => simp [derives]
  | cons e rest ih =>
    obtain ⟨⟨p, r⟩, target⟩ := e
    rw [derives, forall_mem_cons, ← ih]
    cases reencryptFrom R pk source p r with
    | error why =>
      constructor <;> intro h
      · cases h
      cases h.1
    | ok expect =>
      by_cases same : expect = target
      · simp [same, ok_bind]
      simp only [ok_bind, same, if_false, Except.ok.injEq, false_and, iff_false]
      exact fun h => by cases h

theorem derives_iff_shuffleDeck {source target : Deck G} (fits : w.Fits source.length) (same : target.length = source.length) :
    derives R pk source ((w.perm.zip w.scalars).zip target) = .ok true ↔ shuffleDeck R pk source w = .ok target := by
  have entries : (w.perm.zip w.scalars).zip target =
      (List.range source.length).map fun i => (((w.source i : ℤ), w.scalar i), target.getD i 0) := by
    rw [fits.zip_eq]
    conv_lhs => rw [eq_map_range target 0, same, zip_map']
  rw [derives_true_iff, entries, forall_mem_map, shuffleDeck_ok_iff_each fits same]
  simp only [mem_range]

theorem checkOpening_iff {op : ShadowOpening F} {bit : ℕ} (same : shadow.length = inDeck.length)
    (out : outDeck.length = inDeck.length) :
    checkOpening R pk inDeck outDeck shadow op bit = .ok true ↔
      op.bit = bit ∧ shuffleDeck R pk (if bit = 0 then inDeck else shadow) op.witness =
        .ok (if bit = 0 then shadow else outDeck) := by
  have source : (if bit = 0 then inDeck else shadow).length = inDeck.length := by split <;> simp [same]
  have target : (if bit = 0 then shadow else outDeck).length = (if bit = 0 then inDeck else shadow).length := by
    split <;> simp [same, out]
  have body : (if bit = 0 then derives R pk inDeck ((op.perm.zip op.scalars).zip shadow)
      else derives R pk shadow ((op.perm.zip op.scalars).zip outDeck)) =
      derives R pk (if bit = 0 then inDeck else shadow) ((op.perm.zip op.scalars).zip (if bit = 0 then shadow else outDeck)) := by
    split <;> rfl
  rw [checkOpening, body]
  by_cases sided : op.bit = bit
  · rw [if_neg (not_not.mpr sided)]
    by_cases fits : op.witness.Fits inDeck.length
    · have perm : op.perm.Perm ((List.range inDeck.length).map Int.ofNat) := fits.perm
      rw [if_neg (by rw [not_or, not_not, not_not]; exact ⟨fits.perm.length_eq, fits.scalars⟩), if_neg (not_not.mpr perm)]
      refine (derives_iff_shuffleDeck (w := op.witness) (source.symm ▸ fits) target).trans ?_
      simp only [sided, true_and]
    constructor
    · intro accepted
      by_cases lengths : op.perm.length ≠ inDeck.length ∨ op.scalars.length ≠ inDeck.length
      · rw [if_pos lengths] at accepted
        cases accepted
      by_cases perm : op.perm.Perm ((List.range inDeck.length).map Int.ofNat)
      · rw [not_or, not_not, not_not] at lengths
        exact absurd ⟨perm, lengths.2⟩ fits
      rw [if_neg lengths, if_pos perm] at accepted
      cases accepted
    intro shuffles
    exact absurd (source ▸ shuffleDeck_fits shuffles.2) fits
  rw [if_pos sided]
  simp [sided]

theorem checkOpenings_iff {entries : List ((Deck G × ShadowOpening F) × ℕ)} :
    checkOpenings R pk inDeck outDeck entries = .ok true ↔
      ∀ e ∈ entries, checkOpening R pk inDeck outDeck e.1.1 e.1.2 e.2 = .ok true := by
  induction entries with
  | nil => simp [checkOpenings]
  | cons e rest ih =>
    obtain ⟨⟨shadow, op⟩, bit⟩ := e
    rw [checkOpenings, forall_mem_cons, ← ih]
    cases checkOpening R pk inDeck outDeck shadow op bit with
    | error why =>
      constructor <;> intro h
      · cases h
      cases h.1
    | ok accepted => cases accepted <;> simp [ok_bind, pure, Except.pure]

def bridge (w σ : ShuffleWitness F) : ShuffleWitness F := (openShadow w σ 1).witness

/-- The two shuffles re-encrypt no card with the same scalar. -/
def Apart (w σ : ShuffleWitness F) (n : ℕ) : Prop :=
  ∀ i < n, ∀ i' < n, w.source i = σ.source i' → w.scalar i ≠ σ.scalar i'

section

variable (hw : w.Fits n) (hσ : σ.Fits n)
include hw hσ

theorem bridge_perm : (bridge w σ).perm = compose (inverse σ.perm) w.perm := by
  show (w.perm.map fun p => (inverse σ.perm).getD p.toNat 0) = _
  conv_lhs => rw [hw.perm.eq_map_range, map_map]
  rw [compose, hw.perm.length_eq]
  refine map_range_congr fun i below => ?_
  have at_ := hσ.perm.inverse.getElem?_eq (hw.source_lt below)
  rw [Function.comp_apply, Int.toNat_natCast, getD_eq_getElem?_getD]
  exact congrArg (Option.getD · 0) at_

theorem bridge_source (below : i < n) : (bridge w σ).source i < n ∧ σ.source ((bridge w σ).source i) = w.source i := by
  have at_ : (bridge w σ).source i = entry (inverse σ.perm) (w.source i) := by
    rw [ShuffleWitness.source, bridge_perm hw hσ, entry_compose (hw.perm.length_eq.symm ▸ below)]
    rfl
  rw [at_]
  exact hσ.perm.entry_inverse (hw.source_lt below)

theorem bridge_fits : (bridge w σ).Fits n := by
  have perm : Arranges (bridge w σ).perm n := bridge_perm hw hσ ▸ hσ.perm.inverse.compose hw.perm
  refine ⟨perm, ?_⟩
  show (zipWith _ w.scalars (bridge w σ).perm).length = n
  rw [length_zipWith, hw.scalars, perm.length_eq, min_self]

theorem bridge_scalar (below : i < n) : (bridge w σ).scalar i = w.scalar i - σ.scalar ((bridge w σ).source i) := by
  have fits := bridge_fits hw hσ
  have inside : i < w.scalars.length := hw.scalars.symm ▸ below
  have inside' : i < (bridge w σ).perm.length := fits.perm.length_eq.symm ▸ below
  show (zipWith (fun rho (p : ℤ) => rho - σ.scalars.getD p.toNat 0) w.scalars (bridge w σ).perm).getD i 0 = _
  rw [getD_eq_getElem _ _ (by rw [length_zipWith]; omega), getElem_zipWith, ShuffleWitness.scalar,
    ShuffleWitness.scalar, ShuffleWitness.source, entry, getD_eq_getElem _ _ inside, getD_eq_getElem _ _ inside']

end

theorem bridge_shuffles (genuine : shuffleDeck R pk inDeck w = .ok outDeck)
    (shadowed : shuffleDeck R pk inDeck σ = .ok shadow) :
    shuffleDeck R pk shadow (bridge w σ) = .ok outDeck ↔ ∀ i < inDeck.length, R.Accepts pk ((bridge w σ).scalar i) := by
  obtain ⟨hw, -, rfl⟩ := shuffleDeck_ok_iff.mp genuine
  obtain ⟨hσ, -, made⟩ := shuffleDeck_ok_iff.mp shadowed
  have length : shadow.length = inDeck.length := by rw [made, length_map, length_range]
  rw [shuffleDeck_ok_iff, length]
  refine ⟨fun h => h.2.1, fun accepts => ⟨bridge_fits hw hσ, accepts, map_range_congr fun i below => ?_⟩⟩
  obtain ⟨inside, back⟩ := bridge_source hw hσ below
  have card : shadow.getD ((bridge w σ).source i) 0 = rearranged R.base pk inDeck σ ((bridge w σ).source i) := by
    rw [made, getD_map_range _ _ inside]
  rw [rearranged, rearranged, card, rearranged, back, add_assoc, ElGamal.cipher_add, add_zero,
    bridge_scalar hw hσ below, add_sub_cancel]

theorem bridge_accepted_iff (generator : R.base ≠ 0) (hw : w.Fits n) (hσ : σ.Fits n)
    (accepts : ∀ i < n, R.Accepts pk (w.scalar i)) :
    (∀ i < n, R.Accepts pk ((bridge w σ).scalar i)) ↔ R.total = true ∨ Apart w σ n := by
  by_cases total : R.total = true
  · simp [Backend.Accepts, total]
  have key (i : ℕ) (below : i < n) : R.total = true ∨ pk ≠ 0 := by
    obtain all | ⟨-, shared⟩ := accepts i below
    · exact .inl all
    exact .inr fun zero => shared (by rw [zero, smul_zero])
  simp only [total, false_or, Bool.false_eq_true]
  constructor
  · intro each i below i' below' same equal
    obtain ⟨inside, back⟩ := bridge_source hw hσ below
    have landed : (bridge w σ).source i = i' := hσ.perm.entry_inj inside below' (back.trans same)
    have accepted := each i below
    rw [Backend.accepts_iff generator (key i below), bridge_scalar hw hσ below, landed] at accepted
    obtain all | nonzero := accepted
    · exact total all
    exact nonzero (sub_eq_zero.mpr equal)
  intro apart i below
  obtain ⟨inside, back⟩ := bridge_source hw hσ below
  rw [Backend.accepts_iff generator (key i below), bridge_scalar hw hσ below]
  exact .inr (sub_ne_zero.mpr (apart i below _ inside back.symm))

theorem zip_openings {α β γ : Type} (g : α → β) (f : α → ℕ → γ) (coins : List α) (bits : List ℕ) :
    ((coins.map g).zip (zipWith f coins bits)).zip bits = (coins.zip bits).map fun e => ((g e.1, f e.1 e.2), e.2) := by
  induction coins generalizing bits with
  | nil => rfl
  | cons a coins ih =>
    cases bits with
    | nil => rfl
    | cons b bits =>
      rw [zipWith_cons_cons, map_cons, zip_cons_cons, zip_cons_cons, zip_cons_cons, map_cons, ih]

theorem verify_eq {proof : Proof F G}
    (out : outDeck.length = inDeck.length) (shadows : proof.shadows.length = k) (openings : proof.openings.length = k)
    (lengths : ∀ shadow ∈ proof.shadows, shadow.length = inDeck.length)
    (drawn : draw ctx inDeck outDeck proof.shadows k = .ok bits) :
    verify R draw pk inDeck outDeck proof ctx k =
      checkOpenings R pk inDeck outDeck ((proof.shadows.zip proof.openings).zip bits) := by
  rw [verify, if_neg (not_not.mpr out), if_neg (by rw [not_or, not_not, not_not]; exact ⟨shadows, openings⟩),
    if_neg (not_not.mpr lengths), drawn]
  rfl

theorem prove_accepted_iff (generator : R.base ≠ 0) {coins : List (ShuffleWitness F)}
    (genuine : shuffleDeck R pk inDeck w = .ok outDeck)
    (many : coins.length = k) (shadowed : coins.mapM (shuffleDeck R pk inDeck) = .ok shadows)
    (drawn : draw ctx inDeck outDeck shadows k = .ok bits) (length : bits.length = k) (binary : ∀ b ∈ bits, b = 0 ∨ b = 1) :
    ∃ proof, prove R draw pk inDeck outDeck w ctx k coins = .ok proof ∧
      (verify R draw pk inDeck outDeck proof ctx k = .ok true ↔
        R.total = true ∨ ∀ σ b, (σ, b) ∈ coins.zip bits → b = 1 → Apart w σ inDeck.length) := by
  obtain ⟨hw, accepts, made⟩ := shuffleDeck_ok_iff.mp genuine
  have out : outDeck.length = inDeck.length := by rw [made, length_map, length_range]
  have perm : w.perm.Perm ((List.range inDeck.length).map Int.ofNat) := hw.perm
  refine ⟨⟨shadows, zipWith (openShadow w) coins bits⟩, ?_, ?_⟩
  · simp [prove, out, perm, hw.scalars, shadowed, drawn, bind, Except.bind, pure, Except.pure]
  have : Inhabited (Deck G) := ⟨[]⟩
  obtain ⟨g, each, rfl⟩ := mapM_ok shadowed
  have lengths : ∀ shadow ∈ coins.map g, shadow.length = inDeck.length := by
    intro shadow member
    obtain ⟨σ, chosen, rfl⟩ := List.mem_map.mp member
    obtain ⟨-, -, made⟩ := shuffleDeck_ok_iff.mp (each σ chosen)
    rw [made, length_map, length_range]
  have opened : (zipWith (openShadow w) coins bits).length = k := by rw [length_zipWith, many, length, min_self]
  rw [verify_eq out (by rwa [length_map]) opened lengths drawn, zip_openings, checkOpenings_iff, forall_mem_map]
  have one : ∀ e ∈ coins.zip bits, (checkOpening R pk inDeck outDeck (g e.1) (openShadow w e.1 e.2) e.2 = .ok true ↔
      (e.2 = 1 → R.total = true ∨ Apart w e.1 inDeck.length)) := by
    rintro ⟨σ, b⟩ member
    obtain ⟨chosen, bit⟩ := of_mem_zip member
    have shadow := each σ chosen
    obtain ⟨hσ, -, -⟩ := shuffleDeck_ok_iff.mp shadow
    rw [checkOpening_iff (lengths _ (mem_map_of_mem chosen)) out]
    obtain rfl | rfl := binary b bit
    · simpa [openShadow, ShadowOpening.witness] using shadow
    rw [if_neg one_ne_zero, if_neg one_ne_zero, ← bridge_accepted_iff generator hw hσ accepts, ← bridge_shuffles genuine shadow]
    exact ⟨fun h _ => h.2, fun h => ⟨rfl, h rfl⟩⟩
  constructor
  · intro all
    by_cases total : R.total = true
    · exact .inl total
    refine .inr fun σ b member bit => ?_
    exact ((one (σ, b) member).mp (all (σ, b) member) bit).resolve_left total
  rintro allowed e member
  refine (one e member).mpr fun bit => ?_
  exact allowed.imp id fun apart => apart e.1 e.2 member bit

def composed (first second : ShuffleWitness F) : ShuffleWitness F :=
  ⟨compose first.perm second.perm,
    (List.range second.perm.length).map fun i => second.scalar i + first.scalar (second.source i)⟩

theorem composed_shuffles {first second : ShuffleWitness F} (one : shuffleDeck R pk inDeck first = .ok shadow)
    (two : shuffleDeck R pk shadow second = .ok outDeck) :
    (composed first second).Fits inDeck.length ∧
      outDeck = (List.range inDeck.length).map (rearranged R.base pk inDeck (composed first second)) := by
  obtain ⟨h1, -, made⟩ := shuffleDeck_ok_iff.mp one
  obtain ⟨h2, -, rfl⟩ := shuffleDeck_ok_iff.mp two
  have length : shadow.length = inDeck.length := by rw [made, length_map, length_range]
  rw [length] at h2 ⊢
  refine ⟨⟨h1.perm.compose h2.perm, by rw [composed, length_map, length_range, h2.perm.length_eq]⟩, ?_⟩
  refine map_range_congr fun i below => ?_
  have inside : i < second.perm.length := h2.perm.length_eq.symm ▸ below
  have source : (composed first second).source i = first.source (second.source i) := entry_compose inside
  have scalar : (composed first second).scalar i = second.scalar i + first.scalar (second.source i) :=
    getD_map_range _ _ inside
  rw [rearranged, rearranged, made, getD_map_range _ _ (h2.source_lt below), rearranged,
    add_assoc, ElGamal.cipher_add, add_zero, source, scalar, add_comm (first.scalar _)]

/-- The witness shuffles the input deck into the output deck, and `reencrypt` says so card by card unless
the backend refuses a scalar of it. -/
structure Links (R : Backend G) (pk : G) (inDeck outDeck : Deck G) (c : ShuffleWitness F) : Prop where
  fits : c.Fits inDeck.length
  entry : ∀ i < inDeck.length, outDeck.getD i 0 = ShuffleMp.rearranged R.base pk inDeck c i
  reencrypts : (∀ i < inDeck.length, ElGamal.reencrypt R pk (inDeck.getD (c.source i) 0) (c.scalar i) = .ok (outDeck.getD i 0)) ↔
    R.total = true ∨ ∀ i < inDeck.length, c.scalar i ≠ 0

theorem openings_compose (generator : R.base ≠ 0) {op0 op1 : ShadowOpening F} (same : shadow.length = inDeck.length)
    (out : outDeck.length = inDeck.length) (zero : checkOpening R pk inDeck outDeck shadow op0 0 = .ok true)
    (one : checkOpening R pk inDeck outDeck shadow op1 1 = .ok true) :
    Links R pk inDeck outDeck (composed op0.witness op1.witness) := by
  have first := ((checkOpening_iff same out).mp zero).2
  have second := ((checkOpening_iff same out).mp one).2
  rw [if_pos rfl, if_pos rfl] at first
  rw [if_neg one_ne_zero, if_neg one_ne_zero] at second
  obtain ⟨fits, made⟩ := composed_shuffles first second
  obtain ⟨-, accepts, -⟩ := shuffleDeck_ok_iff.mp second
  generalize composed op0.witness op1.witness = c at fits made
  have entries : ∀ i < inDeck.length, outDeck.getD i 0 = rearranged R.base pk inDeck c i :=
    fun i below => by rw [made, getD_map_range _ _ below]
  have each : ∀ i < inDeck.length, (ElGamal.reencrypt R pk (inDeck.getD (c.source i) 0) (c.scalar i) = .ok (outDeck.getD i 0) ↔
      R.total = true ∨ c.scalar i ≠ 0) := by
    intro i below
    have key : R.total = true ∨ pk ≠ 0 := (accepts i (same ▸ below)).imp id fun h zero => h.2 (by rw [zero, smul_zero])
    rw [ElGamal.reencrypt_ok_iff, Backend.accepts_iff generator key, entries i below]
    exact and_iff_left rfl
  refine ⟨fits, entries, fun all => ?_, fun allowed i below => ?_⟩
  · by_cases total : R.total = true
    · exact .inl total
    exact .inr fun i below => ((each i below).mp (all i below)).resolve_left total
  exact (each i below).mpr (allowed.imp id fun nonzero => nonzero i below)

/-- The argument in both directions, over any backend. -/
theorem cut_and_choose_iff (R : Backend G) (generator : R.base ≠ 0) (pk : G) (inDeck outDeck : Deck G) :
    (∀ (w : ShuffleWitness F) (draw : Draw G) (ctx : List UInt8) (k : ℕ) (coins : List (ShuffleWitness F)) (shadows : List (Deck G))
      (bits : List ℕ), ShuffleMp.shuffleDeck R pk inDeck w = .ok outDeck → coins.length = k →
      coins.mapM (ShuffleMp.shuffleDeck R pk inDeck) = .ok shadows → draw ctx inDeck outDeck shadows k = .ok bits →
      bits.length = k → (∀ b ∈ bits, b = 0 ∨ b = 1) →
      ∃ proof, prove R draw pk inDeck outDeck w ctx k coins = .ok proof ∧
        (verify R draw pk inDeck outDeck proof ctx k = .ok true ↔
          R.total = true ∨ ∀ σ b, (σ, b) ∈ coins.zip bits → b = 1 → Apart w σ inDeck.length)) ∧
    ∀ (shadow : Deck G) (op₀ op₁ : ShadowOpening F), shadow.length = inDeck.length → outDeck.length = inDeck.length →
      checkOpening R pk inDeck outDeck shadow op₀ 0 = .ok true → checkOpening R pk inDeck outDeck shadow op₁ 1 = .ok true →
      Links R pk inDeck outDeck (composed op₀.witness op₁.witness) :=
  ⟨fun _ _ _ _ _ _ _ genuine many shadowed drawn length binary =>
    prove_accepted_iff generator genuine many shadowed drawn length binary,
    fun _ _ _ same out zero one => openings_compose generator same out zero one⟩

def sampleDraw : Draw (ZMod 53) := challengeBits (fun _ => replicate 64 1) fun p => [UInt8.ofNat p.val]

def sampleWitness (r : ZMod 53) : ShuffleWitness (ZMod 53) := ⟨[0], [r]⟩

theorem cut_and_choose_iff_swapped :
    let inDeck : Deck (ZMod 53) := [⟨0, 5⟩, ⟨1, 7⟩]
    let outDeck : Deck (ZMod 53) := [⟨3, 13⟩, ⟨3, 14⟩]
    let w : ShuffleWitness (ZMod 53) := ⟨[1, 0], [2, 3]⟩
    let coins : List (ShuffleWitness (ZMod 53)) := [⟨[1, 0], [4, 6]⟩, ⟨[0, 1], [7, 8]⟩]
    ∃ proof, prove ShuffleMp.sodium sampleDraw 3 inDeck outDeck w [] 2 coins = .ok proof ∧
      verify ShuffleMp.sodium sampleDraw 3 inDeck outDeck proof [] 2 = .ok true := by
  intro inDeck outDeck w coins
  let shadows : List (Deck (ZMod 53)) := [[⟨5, 19⟩, ⟨6, 23⟩], [⟨7, 26⟩, ⟨9, 31⟩]]
  obtain ⟨bits, drawn, length, binary⟩ : ∃ bits, sampleDraw [] inDeck outDeck shadows 2 = .ok bits ∧ bits.length = 2 ∧
      ∀ b ∈ bits, b = 0 ∨ b = 1 := challengeBits_ok (fun _ => by decide) _ (by decide) (by decide) (by decide)
  obtain ⟨proof, built, accepted⟩ := (cut_and_choose_iff ShuffleMp.sodium (by decide) 3 inDeck outDeck).1 w sampleDraw [] 2
    coins shadows bits (by decide +kernel) rfl (by decide +kernel) drawn length binary
  have apart : ∀ σ ∈ coins, Apart w σ 2 := by
    unfold Apart
    decide +kernel
  exact ⟨proof, built, accepted.mpr (.inr fun σ _ member _ => apart σ (of_mem_zip member).1)⟩

/-- The shadow uses the scalar of the shuffle itself: the bridge would add nothing, and `verify` raises. -/
theorem bridge_refused : ∃ proof : Proof (ZMod 53) (ZMod 53),
    ShuffleMp.shuffleDeck ShuffleMp.sodium 3 [⟨0, 5⟩] (sampleWitness 2) = .ok [⟨2, 11⟩] ∧
    prove ShuffleMp.sodium sampleDraw 3 [⟨0, 5⟩] [⟨2, 11⟩] (sampleWitness 2) [] 1 [sampleWitness 2] = .ok proof ∧
      verify ShuffleMp.sodium sampleDraw 3 [⟨0, 5⟩] [⟨2, 11⟩] proof [] 1 =
        .error (.valueError "base scalarmult failed (zero scalar?)") :=
  ⟨⟨[[⟨2, 11⟩]], [⟨1, [0], [0]⟩]⟩, by decide +kernel, by rfl, by decide +kernel⟩

end ShuffleProof

end Holdem
