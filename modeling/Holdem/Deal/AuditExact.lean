import Holdem.Deal.Audit

/-!
What an audit report means. It is `ok` exactly when the deck comes out of the opened shuffles, every
share is proven and the cards are the canonical ones.
-/

set_option linter.unusedSectionVars false

namespace Holdem

open List ShuffleWitness

namespace DeckAudit

open ElGamal ShuffleMp

variable {F G P S : Type} [Field F] [DecidableEq F] [AddCommGroup G] [Module F G] [DecidableEq G] {C : Suite F G P S}
  {pk : G} {prev out deck : Deck G} {w : ShuffleWitness F} {pubkeys : List G}
  {sharesBySeat : List (List (PositionShare G P))} {rounds : List (ShuffleRound F G)} {dleqProve : ℕ → F → G → P}

def Follows (C : Suite F G P S) (pk : G) : Deck G → List (ShuffleRound F G) → Deck G → Prop
  | prev, [], final => prev = final
  | prev, round :: rest, final =>
    ∃ w, round.witness = some w ∧ shuffleDeck C.backend pk prev w = .ok round.output ∧ Follows C pk round.output rest final

theorem checkPosition_none_iff {i : ℕ} {source : ℤ} {r : F} :
    checkPosition C pk prev out i source r = none ↔ ∃ expect, reencryptFrom C.backend pk prev source r = .ok expect ∧ out[i]? = some expect := by
  rw [checkPosition]
  cases reencryptFrom C.backend pk prev source r with
  | error e => cases e <;> simp
  | ok expect => by_cases at_ : out[i]? = some expect <;> simp [at_]

theorem verifyShuffleRound_none_iff :
    verifyShuffleRound C pk prev out w = none ↔ shuffleDeck C.backend pk prev w = .ok out := by
  by_cases fits : w.Fits prev.length ∧ out.length = prev.length
  · obtain ⟨fits, length⟩ := fits
    have perm : w.perm.Perm ((List.range prev.length).map Int.ofNat) := fits.perm
    rw [verifyShuffleRound, if_neg (not_not.mpr length), if_neg (not_not.mpr perm), if_neg (not_not.mpr fits.scalars),
      findSome?_eq_none_iff, shuffleDeck_ok_iff_each fits length, fits.zip_eq]
    constructor
    · intro all i below
      obtain ⟨expect, made, at_⟩ := checkPosition_none_iff.mp (all (((w.source i : ℤ), w.scalar i), i) (by
        rw [mem_zipIdx_iff_getElem?, getElem?_map, getElem?_range below]
        rfl))
      rw [made, getD_eq_getElem?_getD, at_]
      rfl
    rintro all ⟨⟨source, r⟩, i⟩ member
    rw [mem_zipIdx_iff_getElem?] at member
    dsimp only at member
    obtain ⟨below, same⟩ := List.getElem?_eq_some_iff.mp member
    rw [length_map, length_range] at below
    rw [getElem_map, getElem_range] at same
    cases same
    refine checkPosition_none_iff.mpr ⟨_, all i below, ?_⟩
    rw [getD_eq_getElem _ _ (length ▸ below), getElem?_eq_getElem]
  constructor
  · intro none_
    rw [verifyShuffleRound] at none_
    split_ifs at none_ with length perm scalars
    rw [not_not] at length scalars
    exact absurd ⟨⟨perm, scalars⟩, length⟩ fits
  intro shuffles
  obtain ⟨fit, -, made⟩ := shuffleDeck_ok_iff.mp shuffles
  exact absurd ⟨fit, by rw [made, length_map, length_range]⟩ fits

theorem verifyRounds_nil_iff {r : ℕ} :
    (verifyRounds C pk deck r prev rounds).1 = [] ↔ Follows C pk prev rounds deck := by
  induction rounds generalizing r prev with
  | nil => by_cases same : prev = deck <;> simp [verifyRounds, Follows, same]
  | cons round rest ih =>
    rw [verifyRounds, Follows]
    cases witness : round.witness with
    | none => simp
    | some w =>
      cases checked : verifyShuffleRound C pk prev round.output w with
      | some why =>
        have : shuffleDeck C.backend pk prev w ≠ .ok round.output := by
          rw [Ne, ← verifyShuffleRound_none_iff, checked]
          simp
        simp [checked, this]
      | none =>
        have := verifyShuffleRound_none_iff.mp checked
        simp [checked, this, ih]

theorem verifyRounds_blames {r : ℕ} (follows : Follows C pk prev rounds deck) :
    verifyRounds C pk deck r prev rounds = ([], []) := by
  induction rounds generalizing r prev with
  | nil => exact if_pos follows
  | cons round rest ih =>
    obtain ⟨w, witness, shuffles, rest⟩ := follows
    simp only [verifyRounds, witness, verifyShuffleRound_none_iff.mpr shuffles]
    exact ih rest

theorem Follows.shuffleRounds (follows : Follows C pk prev rounds deck) :
    ∃ ws, rounds.map (·.witness) = ws.map some ∧ ShuffleMp.shuffleRounds C.backend pk prev ws = .ok deck := by
  induction rounds generalizing prev with
  | nil => exact ⟨[], rfl, congrArg Except.ok follows⟩
  | cons round rest ih =>
    obtain ⟨w, witness, shuffles, rest⟩ := follows
    obtain ⟨ws, opened, went⟩ := ih rest
    refine ⟨w :: ws, by rw [map_cons, map_cons, witness, opened], ?_⟩
    rw [ShuffleMp.shuffleRounds, shuffles]
    exact went

def auditCards (C : Suite F G P S) (deck : Deck G) (sharesBySeat : List (List (PositionShare G P))) : List (Option (Fin 52)) :=
  deck.zipIdx.map fun (ct, i) =>
    C.pointToCard (Suite.combine ct (sharesBySeat.map fun shares => (shares[i]?.map Prod.fst).getD 0))

structure Proven (C : Suite F G P S) (deck : Deck G) (pubkeys : List G) (sharesBySeat : List (List (PositionShare G P))) : Prop where
  seats : sharesBySeat.length = pubkeys.length
  masked : ∀ ct ∈ deck, ct.c0 ≠ 0
  lengths : ∀ shares ∈ sharesBySeat, shares.length = deck.length
  proofs : ∀ e ∈ pubkeys.zip sharesBySeat, badShare C deck e.1 e.2 = none

structure Canonical (cards : List (Option (Fin 52))) : Prop where
  known : none ∉ cards
  surplus : surplus cards = []
  missing : missing cards = []

theorem verifyChain_nil_iff : (verifyChain C pk rounds deck).1 = [] ↔ rounds ≠ [] ∧ Follows C pk C.trivialDeck rounds deck := by
  rw [verifyChain]
  split_ifs with empty
  · simp [empty]
  simp [empty, verifyRounds_nil_iff]

theorem verifyChain_clean (clean : (verifyChain C pk rounds deck).1 = []) : (verifyChain C pk rounds deck).2 = [] := by
  obtain ⟨some_, follows⟩ := verifyChain_nil_iff.mp clean
  rw [verifyChain, if_neg some_, verifyRounds_blames follows]

theorem filterMap_zipIdx_nil_iff {α β : Type} {l : List α} {f : α × ℕ → Option β} {P : α → Prop}
    (each : ∀ a i, f (a, i) = none ↔ P a) : l.zipIdx.filterMap f = [] ↔ ∀ a ∈ l, P a := by
  rw [filterMap_eq_nil_iff]
  constructor
  · intro all a member
    obtain ⟨i, inside, rfl⟩ := getElem_of_mem member
    exact (each _ i).mp (all (l[i], i) (List.mem_zipIdx_iff_getElem?.mpr (getElem?_eq_getElem inside)))
  rintro all ⟨a, i⟩ member
  exact (each a i).mpr (all a (mem_of_getElem? (List.mem_zipIdx_iff_getElem?.mp member)))

theorem short_nil_iff {n : ℕ} :
    (sharesBySeat.zipIdx.filter fun (shares, _) => shares.length ≠ n) = [] ↔ ∀ shares ∈ sharesBySeat, shares.length = n := by
  rw [← filterMap_eq_filter]
  refine filterMap_zipIdx_nil_iff fun shares i => ?_
  simp [Option.guard]

theorem structural_nil_iff {n : ℕ} : (deck.zipIdx.filterMap (fun (ct, i) =>
        if ct.c0 = 0 then some ("position " ++ toString i ++ ": trivial ciphertext (invalid post-shuffle)") else none)) ++
      (sharesBySeat.zipIdx.filter fun (shares, _) => shares.length ≠ n).map (fun (shares, s) =>
        "seat " ++ toString s ++ ": " ++ toString shares.length ++ " shares, expected " ++ toString n) = [] ↔
      (∀ ct ∈ deck, ct.c0 ≠ 0) ∧ ∀ shares ∈ sharesBySeat, shares.length = n := by
  rw [append_eq_nil_iff, map_eq_nil_iff, short_nil_iff]
  exact and_congr_left' (filterMap_zipIdx_nil_iff fun ct i => by simp)

theorem failed_nil_iff : ((pubkeys.zip sharesBySeat).zipIdx.filterMap fun ((X, shares), s) =>
    (badShare C deck X shares).map fun i => (s, i)) = [] ↔ ∀ e ∈ pubkeys.zip sharesBySeat, badShare C deck e.1 e.2 = none :=
  filterMap_zipIdx_nil_iff fun e i => by simp

theorem auditDeck_ok_iff : (auditDeck C pk deck pubkeys sharesBySeat rounds).ok = true ↔
      (rounds ≠ [] ∧ Follows C pk C.trivialDeck rounds deck) ∧ deck.length = 52 ∧ Proven C deck pubkeys sharesBySeat ∧
        Canonical (auditCards C deck sharesBySeat) := by
  rw [← verifyChain_nil_iff, auditDeck]
  have clean := @verifyChain_clean F G P S _ _ _ _ _ C pk deck rounds
  generalize verifyChain C pk rounds deck = chain at clean ⊢
  obtain ⟨problems, bad⟩ := chain
  dsimp only at clean ⊢
  by_cases length : deck.length = 52
  · rw [if_neg (not_not.mpr length)]
    by_cases seats : sharesBySeat.length = pubkeys.length
    · rw [if_neg (not_not.mpr seats)]
      by_cases structural : (∀ ct ∈ deck, ct.c0 ≠ 0) ∧ ∀ shares ∈ sharesBySeat, shares.length = deck.length
      · rw [if_neg (not_not.mpr (structural_nil_iff.mpr structural))]
        have cards : (deck.zipIdx.map fun (ct, i) =>
            C.pointToCard (Suite.combine ct (sharesBySeat.map fun shares => (shares[i]?.map Prod.fst).getD 0))) =
            auditCards C deck sharesBySeat := rfl
        simp only [decide_eq_true_eq, cards, append_eq_nil_iff, map_eq_nil_iff, failed_nil_iff,
          ite_eq_left_iff, cons_ne_nil, imp_false, not_not]
        rw [filterMap_zipIdx_nil_iff (P := fun card => card ≠ none) fun card i => ?_]
        swap
        · simp
        constructor
        · rintro ⟨⟨⟨⟨⟨none_, proofs⟩, known⟩, surplus⟩, missing⟩, -⟩
          exact ⟨none_, length, ⟨seats, structural.1, structural.2, proofs⟩, fun member => known none member rfl, surplus, missing⟩
        rintro ⟨none_, -, proven, canonical⟩
        refine ⟨⟨⟨⟨⟨none_, proven.proofs⟩, fun card member same => canonical.known (same ▸ member)⟩, canonical.surplus⟩,
          canonical.missing⟩, ?_⟩
        rw [failed_nil_iff.mpr proven.proofs, clean none_]
        simp [seatSet]
      rw [if_pos (fun nil => structural (structural_nil_iff.mp nil))]
      simp only [Bool.false_eq_true, false_iff]
      exact fun h => structural ⟨h.2.2.1.masked, h.2.2.1.lengths⟩
    rw [if_pos seats]
    simp only [Bool.false_eq_true, false_iff]
    exact fun h => seats h.2.2.1.seats
  rw [if_pos length]
  simp [length]

theorem auditDeck_of_ok (ok : (auditDeck C pk deck pubkeys sharesBySeat rounds).ok = true) :
    (auditDeck C pk deck pubkeys sharesBySeat rounds).problems = [] ∧
      (auditDeck C pk deck pubkeys sharesBySeat rounds).badSeats = [] ∧
      (auditDeck C pk deck pubkeys sharesBySeat rounds).cards = auditCards C deck sharesBySeat := by
  obtain ⟨-, length, proven, -⟩ := auditDeck_ok_iff.mp ok
  rw [auditDeck] at ok ⊢
  generalize verifyChain C pk rounds deck = chain at ok ⊢
  dsimp only at ok ⊢
  rw [if_neg (not_not.mpr length), if_neg (not_not.mpr proven.seats),
    if_neg (not_not.mpr (structural_nil_iff.mpr ⟨proven.masked, proven.lengths⟩))] at ok ⊢
  obtain ⟨problems, bad⟩ := of_decide_eq_true ok
  exact ⟨problems, bad, rfl⟩

def TrueShares (deck : Deck G) (x : F) (shares : List (PositionShare G P)) : Prop :=
  shares.map Prod.fst = deck.map fun ct => partialDecrypt ct x

structure Dleq (C : Suite F G P S) (dleqProve : ℕ → F → G → P) : Prop where
  sound : ∀ X D c0 proof, C.dleqVerify X D c0 proof = true → ∀ x : F, X = x • C.base → D = x • c0
  complete : ∀ i x c0, x • c0 ≠ 0 → C.dleqVerify (x • C.base) (x • c0) c0 (dleqProve i x c0) = true

theorem badShare_none_iff {X : G} {shares : List (PositionShare G P)} : badShare C deck X shares = none ↔
      ∀ (i : ℕ) (share : PositionShare G P), shares[i]? = some share → C.dleqVerify X share.1 ((deck[i]?).map Ciphertext.c0 |>.getD 0) share.2 = true := by
  rw [badShare, Option.map_eq_none_iff, find?_eq_none]
  constructor
  · intro all i share at_
    simpa using all (share, i) (List.mem_zipIdx_iff_getElem?.mpr at_)
  rintro all ⟨share, i⟩ member
  simpa using all i share (List.mem_zipIdx_iff_getElem?.mp member)

variable {x : F}

theorem Dleq.trueShares (dleq : Dleq C dleqProve) {shares : List (PositionShare G P)} (length : shares.length = deck.length)
    (good : badShare C deck (x • C.base) shares = none) : TrueShares deck x shares := by
  apply ext_getElem
  · simpa using length
  intro i hi hi'
  rw [length_map] at hi hi'
  have := badShare_none_iff.mp good i shares[i] (getElem?_eq_getElem hi)
  rw [getElem?_eq_getElem hi'] at this
  rw [getElem_map, getElem_map, partialDecrypt, mulSafe_eq]
  exact dleq.sound _ _ _ _ this x rfl

theorem makeShares_ok {shares : List (PositionShare G P)} (made : makeShares C dleqProve deck x = .ok shares) :
    (∀ ct ∈ deck, x • ct.c0 ≠ 0) ∧ shares = deck.zipIdx.map fun e => (x • e.1.c0, dleqProve e.2 x e.1.c0) := by
  have : Inhabited (PositionShare G P) := ⟨(0, dleqProve 0 x 0)⟩
  obtain ⟨g, each, rfl⟩ := Folding.mapM_ok made
  have one : ∀ e ∈ deck.zipIdx, x • e.1.c0 ≠ 0 ∧ g e = (x • e.1.c0, dleqProve e.2 x e.1.c0) := by
    rintro ⟨ct, i⟩ member
    have ran := each (ct, i) member
    dsimp only at ran
    split_ifs at ran with trivial
    · obtain ⟨d, multiplied, ran⟩ := Folding.bind_eq_ok ran
      rw [Backend.mul] at multiplied
      split_ifs at multiplied with refused
      · rw [not_and] at refused
        cases multiplied
        exact ⟨refused rfl, (Except.ok.inj ran).symm⟩
  refine ⟨fun ct member => ?_, map_congr_left fun e member => (one e member).2⟩
  obtain ⟨i, inside, rfl⟩ := getElem_of_mem member
  exact (one (deck[i], i) (List.mem_zipIdx_iff_getElem?.mpr (getElem?_eq_getElem inside))).1

theorem Dleq.makeShares (dleq : Dleq C dleqProve) {shares : List (PositionShare G P)}
    (made : makeShares C dleqProve deck x = .ok shares) :
    shares.length = deck.length ∧ TrueShares deck x shares ∧ badShare C deck (x • C.base) shares = none := by
  obtain ⟨nonzero, rfl⟩ := makeShares_ok made
  refine ⟨by simp, ?_, badShare_none_iff.mpr fun i share at_ => ?_⟩
  · rw [TrueShares, map_map]
    conv_rhs => rw [← zipIdx_map_fst 0 deck, map_map]
    exact map_congr_left fun e _ => (mulSafe_eq _ _).symm
  rw [getElem?_map, Option.map_eq_some_iff] at at_
  obtain ⟨⟨ct, k⟩, at_, rfl⟩ := at_
  rw [getElem?_zipIdx, Option.map_eq_some_iff] at at_
  obtain ⟨ct', at_, same⟩ := at_
  cases same
  rw [at_]
  exact dleq.complete _ x _ (nonzero _ (mem_of_getElem? at_))

variable {xs : List F}

theorem shares_at (true_ : List.Forall₂ (TrueShares deck) xs sharesBySeat) {i : ℕ} {ct : Ciphertext G}
    (at_ : deck[i]? = some ct) :
    (sharesBySeat.map fun shares => (shares[i]?.map Prod.fst).getD 0) = shares xs ct := by
  induction true_ with
  | nil => rfl
  | cons first _ ih =>
    rw [map_cons, ih]
    refine congrArg (· :: _) ?_
    rw [← getElem?_map, first, getElem?_map, at_]
    rfl

variable {ws : List (ShuffleWitness F)}

theorem auditCards_eq (some_ : xs ≠ [])
    (went : shuffleRounds C.backend (xs.map (· • C.base)).sum C.trivialDeck ws = .ok deck)
    (true_ : List.Forall₂ (TrueShares deck) xs sharesBySeat) :
    auditCards C deck sharesBySeat = (List.range 52).map fun j => (List.finRange 52)[follow ws j]? := by
  have carried : Carried C.base (xs.map (· • C.base)).sum (makeTrivialDeck C.card) deck ws := shuffleRounds_carried went
  have length : deck.length = 52 := carried.length.trans (length_makeTrivialDeck _)
  apply ext_getElem
  · simp [auditCards, length]
  intro j hj hj'
  rw [length_map, length_range] at hj'
  have inside : follow ws j < 52 := by
    simpa [length_makeTrivialDeck] using carried.inside j (by rwa [length_makeTrivialDeck])
  have opened := combine_carried some_ carried hj'
  have below : j < deck.length := length.symm ▸ hj'
  rw [getD_eq_getElem _ _ below, Suite.combine_ok _ (by simpa [shares] using some_), Except.ok.injEq] at opened
  simp only [auditCards, getElem_map, getElem_zipIdx, Nat.zero_add, getElem_range]
  rw [shares_at true_ (getElem?_eq_getElem below), opened, deckPoints,
    getD_eq_getElem _ _ (by simpa using inside), getElem_map, C.pointToCard_card, getElem?_eq_getElem]

theorem cards_perm (fits : ∀ w ∈ ws, w.Fits 52) :
    ((List.range 52).map fun j => (List.finRange 52)[follow ws j]?).Perm ((List.finRange 52).map some) := by
  have whole : ((List.range 52).map fun k => (List.finRange 52)[k]?) = (List.finRange 52).map some := by decide
  rw [← whole]
  exact follow_perm fits fun k => (List.finRange 52)[k]?

theorem canonical_of_perm {cards : List (Option (Fin 52))} (perm : cards.Perm ((List.finRange 52).map some)) : Canonical cards := by
  have once (i : Fin 52) : cards.count (some i) = 1 := by
    rw [perm.count_eq, count_map_of_injective _ _ (Option.some_injective _)]
    exact count_eq_one_of_mem (nodup_finRange 52) (mem_finRange i)
  refine ⟨fun member => ?_, ?_, ?_⟩
  · simpa using perm.mem_iff.mp member
  · simp [surplus, once]
  simp [missing, once]

theorem key_ne_zero (went : shuffleRounds C.backend pk C.trivialDeck ws = .ok deck)
    (length : deck.length = 52) (masked : ∀ ct ∈ deck, ct.c0 ≠ 0) : ws ≠ [] ∧ pk ≠ 0 := by
  cases ws with
  | nil =>
    cases went
    exact absurd rfl (masked ⟨0, C.card 0⟩ (mem_map_of_mem (mem_finRange 0)))
  | cons w ws =>
    obtain ⟨next, first, -⟩ := Folding.bind_eq_ok went
    obtain ⟨-, accepts, -⟩ := shuffleDeck_ok_iff.mp first
    refine ⟨cons_ne_nil _ _, fun zero => ?_⟩
    rcases accepts 0 (by simp) with total | ⟨-, shared⟩
    · cases total
    exact shared (by rw [zero, smul_zero])

theorem Proven.trueShares (dleq : Dleq C dleqProve) (proven : Proven C deck (xs.map (· • C.base)) sharesBySeat) :
    List.Forall₂ (TrueShares deck) xs sharesBySeat := by
  rw [forall₂_iff_zip]
  refine ⟨by simpa using proven.seats.symm, fun {x shares} member => ?_⟩
  refine dleq.trueShares (proven.lengths _ (of_mem_zip member).2) (proven.proofs (x • C.base, shares) ?_)
  rw [zip_map_left]
  exact mem_map_of_mem member

/-- An `ok` report means what it says, and honest play gets one. -/
theorem audit_exact (C : Suite F G P S) (dleqProve : ℕ → F → G → P) (cyclic : ∀ X : G, ∃ x : F, X = x • C.base)
    (dleq : Dleq C dleqProve) (deck : Deck G) (pubkeys : List G) (sharesBySeat : List (List (PositionShare G P)))
    (rounds : List (ShuffleRound F G)) :
    ((auditDeck C pubkeys.sum deck pubkeys sharesBySeat rounds).ok = true →
      ∃ (ws : List (ShuffleWitness F)) (xs : List F), rounds.map (·.witness) = ws.map some ∧ shuffleRounds C.backend pubkeys.sum C.trivialDeck ws = .ok deck ∧
        pubkeys = xs.map (· • C.base) ∧ List.Forall₂ (TrueShares deck) xs sharesBySeat ∧
        (auditDeck C pubkeys.sum deck pubkeys sharesBySeat rounds).cards =
          (List.range 52).map (fun j => (List.finRange 52)[ShuffleWitness.follow ws j]?) ∧
        (auditDeck C pubkeys.sum deck pubkeys sharesBySeat rounds).cards.Perm ((List.finRange 52).map some)) ∧
    ∀ xs : List F, pubkeys = xs.map (· • C.base) → Follows C pubkeys.sum C.trivialDeck rounds deck → (∀ ct ∈ deck, ct.c0 ≠ 0) →
      List.Forall₂ (fun x shares => makeShares C dleqProve deck x = .ok shares) xs sharesBySeat →
      (auditDeck C pubkeys.sum deck pubkeys sharesBySeat rounds).ok = true ∧
        (auditDeck C pubkeys.sum deck pubkeys sharesBySeat rounds).problems = [] ∧
        (auditDeck C pubkeys.sum deck pubkeys sharesBySeat rounds).badSeats = [] := by
  constructor
  · intro ok
    obtain ⟨⟨-, follows⟩, length, proven, -⟩ := auditDeck_ok_iff.mp ok
    obtain ⟨ws, opened, went⟩ := follows.shuffleRounds
    choose log logs using cyclic
    have keys : pubkeys = (pubkeys.map log).map (· • C.base) := by
      rw [map_map]
      conv_lhs => rw [← map_id pubkeys]
      exact map_congr_left fun X _ => logs X
    generalize pubkeys.map log = xs at keys
    subst keys
    have some_ : xs ≠ [] := by
      rintro rfl
      exact (key_ne_zero went length proven.masked).2 rfl
    have true_ := proven.trueShares dleq
    have cards := (auditDeck_of_ok ok).2.2.trans (auditCards_eq some_ went true_)
    have fits : ∀ w ∈ ws, w.Fits 52 := by simpa using shuffleRounds_fits went
    exact ⟨ws, xs, opened, went, rfl, true_, cards, cards ▸ cards_perm fits⟩
  rintro xs rfl follows masked honest
  obtain ⟨ws, opened, went⟩ := follows.shuffleRounds
  have length : deck.length = 52 := by simpa using (shuffleRounds_carried went).length
  obtain ⟨shuffled, key⟩ := key_ne_zero went length masked
  have some_ : xs ≠ [] := by
    rintro rfl
    exact key rfl
  obtain ⟨seats, each⟩ := List.forall₂_iff_zip.mp honest
  have true_ : List.Forall₂ (TrueShares deck) xs sharesBySeat := honest.imp fun x shares made => (dleq.makeShares made).2.1
  have proven : Proven C deck (xs.map (· • C.base)) sharesBySeat := by
    refine ⟨by simpa using seats.symm, masked, fun shares member => ?_, fun e member => ?_⟩
    · obtain ⟨i, inside, rfl⟩ := getElem_of_mem member
      exact (dleq.makeShares (honest.get (seats.symm ▸ inside) inside)).1
    rw [zip_map_left] at member
    obtain ⟨⟨x, shares⟩, pair, rfl⟩ := List.mem_map.mp member
    exact (dleq.makeShares (each pair)).2.2
  have ok : (auditDeck C (xs.map (· • C.base)).sum deck (xs.map (· • C.base)) sharesBySeat rounds).ok = true := by
    refine auditDeck_ok_iff.mpr ⟨⟨?_, follows⟩, length, proven, ?_⟩
    · rintro rfl
      exact shuffled (by simpa using opened.symm)
    rw [auditCards_eq some_ went true_]
    exact canonical_of_perm (cards_perm (by simpa using shuffleRounds_fits went))
  exact ⟨ok, (auditDeck_of_ok ok).1, (auditDeck_of_ok ok).2.1⟩

open Sample

def sampleDeck : Deck Sample.Point := (List.range 52).map (rearranged 1 ((3 : ℕ) : Sample.Point) suite.trivialDeck sampleRound)

def sampleShares (x : Sample.Point) : List (PositionShare Sample.Point Sample.Point) := sampleDeck.zipIdx.map fun e => (x • e.1.c0, x)

theorem sample_dleq : Dleq suite fun _ x _ => x where
  sound X D c0 proof accepted x same := by
    obtain ⟨rfl, rfl⟩ : X = proof ∧ D = proof * c0 := of_decide_eq_true accepted
    have secret : X = x := by simpa [suite] using same
    rw [secret]
    rfl
  complete i x c0 _ := decide_eq_true ⟨mul_one x, rfl⟩

theorem audit_exact_two : (auditDeck suite ([1, 2] : List Sample.Point).sum sampleDeck [1, 2] [sampleShares 1, sampleShares 2]
    [⟨0, sampleDeck, some sampleRound⟩]).ok = true := by
  refine ((audit_exact suite (fun _ x _ => x) (fun X => ⟨X, (mul_one X).symm⟩) sample_dleq sampleDeck [1, 2]
    [sampleShares 1, sampleShares 2] [⟨0, sampleDeck, some sampleRound⟩]).2 [1, 2] (by decide +kernel) ?_ (by decide +kernel) ?_).1
  · exact ⟨sampleRound, rfl, shuffleDeck_ok_iff.mpr ⟨by decide +kernel, by decide +kernel, by decide +kernel⟩, rfl⟩
  exact .cons (by decide +kernel) (.cons (by decide +kernel) .nil)

end DeckAudit

end Holdem
