import Mathlib.Algebra.Order.BigOperators.Group.List
import Mathlib.Algebra.Order.Monoid.NatCast
import Mathlib.Algebra.Order.Ring.Nat
import Mathlib.Data.Fintype.Card
import Holdem.Cards

/-!
The evaluator never raises on five or more distinct cards. A rank comes at most four times, so each
pattern it recognises leaves cards enough for the kickers it then reads.
-/

namespace Holdem

open List

variable {cards : List Card} {k : ℕ} {most : ℕ} {v : ℕ}

theorem counts_le_four (distinct : cards.Nodup) (v : ℕ) : counts cards v ≤ 4 := by
  rw [counts, countP_eq_length_filter]
  have suits : ((cards.filter fun c => decide (c.v = v)).map Card.s).Nodup := by
    refine List.Nodup.map_on ?_ (distinct.filter _)
    intro a ha b hb same
    simp only [mem_filter, decide_eq_true_eq] at ha hb
    obtain ⟨av, as, _, _⟩ := a
    obtain ⟨bv, bs, _, _⟩ := b
    simp_all
  simpa using suits.length_le_card

theorem counts_cons (c : Card) (cards : List Card) (v : ℕ) :
    counts (c :: cards) v = counts cards v + if c.v = v then 1 else 0 := by
  simp [counts, countP_cons]

theorem counts_total (cards : List Card) : (ranksDown.map (counts cards)).sum = cards.length := by
  induction cards with
  | nil => rfl
  | cons c cards ih =>
    have one : ∀ r ≤ 14, 2 ≤ r → (ranksDown.map fun v => if r = v then 1 else 0).sum = 1 := by decide
    rw [funext (counts_cons c cards), sum_map_add, ih, one c.v c.high c.low, length_cons]

theorem ranks_split (ranks without : List ℕ) (cards : List Card)
    (few : ∀ v ∈ ranks, v ∉ without → counts cards v ≤ most) :
    (ranks.map (counts cards)).sum ≤ ((ranks.filter (· ∈ without)).map (counts cards)).sum +
      most * (ranks.filter fun v => 0 < counts cards v ∧ v ∉ without).length := by
  induction ranks with
  | nil => simp
  | cons v ranks ih =>
    have rest := ih fun u hu => few u (.tail _ hu)
    have here := few v (.head _)
    by_cases out : v ∈ without
    · simp [out] at rest ⊢
      omega
    have := here out
    obtain zero | held := Nat.eq_zero_or_pos (counts cards v)
    · simp [out, zero] at rest ⊢
      omega
    simp [out, held, Nat.mul_add] at rest ⊢
    omega

theorem length_le_kickers (without : List ℕ) (few : ∀ v ∈ ranksDown, v ∉ without → counts cards v ≤ most) :
    cards.length ≤ (without.map (counts cards)).sum + most * (kickers cards without).length := by
  have split := ranks_split ranksDown without cards few
  rw [counts_total] at split
  have named : ((ranksDown.filter (· ∈ without)).map (counts cards)).sum ≤ (without.map (counts cards)).sum := by
    have distinct : (ranksDown.filter (· ∈ without)).Nodup := List.Nodup.filter _ (by decide)
    obtain ⟨chosen, perm, sub⟩ := subperm_of_subset distinct (fun v hv => by simpa using (List.mem_filter.mp hv).2)
    rw [← (perm.map _).sum_eq]
    exact (sub.map _).sum_le_sum (fun _ _ => Nat.zero_le _)
  exact split.trans (Nat.add_le_add_right named _)

def tier (cards : List Card) (k : ℕ) : List ℕ := ranksDown.filter fun v => counts cards v = k

theorem mem_tier : v ∈ tier cards k ↔ v ∈ ranksDown ∧ counts cards v = k := by
  rw [tier, mem_filter, decide_eq_true_eq]

def grouped (cards : List Card) (done : List ℕ) : Groups :=
  let trips := (done.find? fun v => counts cards v = 3).getD 0
  { quads := (done.find? fun v => counts cards v = 4).getD 0
    trips
    pairs := done.filter fun v => counts cards v = 2 ∨ counts cards v = 3 ∧ v ≠ trips }

theorem groupStep_scan {done : List ℕ} (nonzero : ∀ u ∈ done, u ≠ 0) (new : v ∉ done) :
    groupStep cards (grouped cards done) v = grouped cards (done ++ [v]) := by
  have found : ∀ {k u}, done.find? (fun v => decide (counts cards v = k)) = some u → u ≠ 0 ∧ u ≠ v := fun some =>
    have member := mem_of_find?_eq_some some
    ⟨nonzero _ member, fun same => new (same ▸ member)⟩
  by_cases four : counts cards v = 4
  · unfold groupStep grouped
    cases first : done.find? fun v => counts cards v = 4 with
    | none => simp [four, first]
    | some q => simp [four, first, (found first).1]
  by_cases three : counts cards v = 3
  · unfold groupStep grouped
    cases first : done.find? fun v => counts cards v = 3 with
    | none =>
      have absent : ∀ u ∈ done, counts cards u ≠ 3 := by simpa using first
      have same : (done.filter fun u => counts cards u = 2 ∨ counts cards u = 3 ∧ u ≠ 0) =
          done.filter fun u => counts cards u = 2 ∨ counts cards u = 3 ∧ u ≠ v :=
        filter_congr fun u member => by simp [absent u member]
      simpa [three, first] using same
    | some t => simp [three, first, (found first).1, (found first).2.symm]
  by_cases two : counts cards v = 2
  · unfold groupStep grouped
    simp [two]
  unfold groupStep grouped
  simp [four, three, two]

theorem groupSteps_scan {done rest : List ℕ} (nonzero : ∀ u ∈ done ++ rest, u ≠ 0) (distinct : (done ++ rest).Nodup) :
    rest.foldl (groupStep cards) (grouped cards done) = grouped cards (done ++ rest) := by
  induction rest generalizing done with
  | nil => rw [append_nil]; rfl
  | cons v rest ih =>
    have here : v ∉ done := fun member => disjoint_of_nodup_append distinct member (.head _)
    rw [foldl_cons, groupStep_scan (fun u member => nonzero u (mem_append_left _ member)) here, ih]
    · rw [append_assoc]
      rfl
    · rwa [append_assoc]
    rwa [append_assoc]

theorem find?_tier (cards : List Card) (k : ℕ) :
    (ranksDown.find? fun v => decide (counts cards v = k)).getD 0 = (tier cards k).headD 0 := by
  rw [tier, headD_eq_head?_getD, head?_filter]

theorem groups_eq (cards : List Card) : groups cards =
    { quads := (tier cards 4).headD 0
      trips := (tier cards 3).headD 0
      pairs := ranksDown.filter fun v => counts cards v = 2 ∨ counts cards v = 3 ∧ v ≠ (tier cards 3).headD 0 } := by
  have scanned := @groupSteps_scan cards [] ranksDown (by decide) (by decide)
  rw [nil_append] at scanned
  rw [← find?_tier, ← find?_tier]
  exact scanned

structure Grouped (cards : List Card) (g : Groups) : Prop where
  quads : g.quads = 0 → ∀ v ∈ ranksDown, counts cards v ≠ 4
  noTrips : g.trips = 0 → (∀ v ∈ ranksDown, counts cards v ≠ 3) ∧ g.pairs = tier cards 2
  trips : g.trips ≠ 0 → counts cards g.trips = 3 ∧
    (g.pairs = [] → ∀ v ∈ ranksDown, v ≠ g.trips → counts cards v ≠ 2 ∧ counts cards v ≠ 3)

theorem headD_tier (cards : List Card) (k : ℕ) : (tier cards k).headD 0 = 0 ∧ (∀ v ∈ ranksDown, counts cards v ≠ k) ∨
      (tier cards k).headD 0 ≠ 0 ∧ counts cards ((tier cards k).headD 0) = k := by
  cases held : tier cards k with
  | nil => exact .inl ⟨rfl, fun v member count => by simpa [held] using mem_tier.mpr ⟨member, count⟩⟩
  | cons v vs =>
    obtain ⟨member, count⟩ := mem_tier.mp (held ▸ mem_cons_self : v ∈ tier cards k)
    have nonzero : ∀ u ∈ ranksDown, u ≠ 0 := by decide
    exact .inr ⟨nonzero v member, count⟩

theorem groups_grouped (cards : List Card) : Grouped cards (groups cards) := by
  rw [groups_eq]
  refine ⟨fun zero => ?_, fun zero => ?_, fun some => ?_⟩
  · exact ((headD_tier cards 4).resolve_right fun found => found.1 zero).2
  · have none := ((headD_tier cards 3).resolve_right fun found => found.1 zero).2
    exact ⟨none, filter_congr fun v member => by simp [none v member]⟩
  refine ⟨((headD_tier cards 3).resolve_left fun none => some none.1).2, fun empty v member other => ?_⟩
  have out := List.filter_eq_nil_iff.mp empty v member
  simp only [decide_eq_true_eq, not_or, not_and] at out
  exact ⟨out.1, fun three => out.2 three other⟩

section

variable (enough : 5 ≤ cards.length) {r : ℕ}
include enough

theorem kicker_exists {without : List ℕ} (atMost : ∀ v ∈ ranksDown, v ∉ without → counts cards v ≤ 4)
    (used : (without.map (counts cards)).sum ≤ 4) : ∃ kick, (kickers cards without).max? = some kick := by
  have fits := length_le_kickers without atMost
  cases held : (kickers cards without).max? with
  | some kick => exact ⟨kick, rfl⟩
  | none =>
    rw [max?_eq_none_iff] at held
    rw [held] at fits
    simp at fits
    omega

theorem single_kickers (single : ∀ v ∈ ranksDown, v ≠ r → counts cards v ≤ 1) :
    5 ≤ counts cards r + (kickers cards [r]).length := by
  have fits := length_le_kickers [r] fun v member out => single v member (by simpa using out)
  simp only [map_cons, map_nil, sum_cons, sum_nil] at fits
  omega

theorem trips_kickers (count : counts cards r = 3)
    (single : ∀ v ∈ ranksDown, v ≠ r → counts cards v ≤ 1) : ∃ k0 k1 rest, kickers cards [r] = k0 :: k1 :: rest := by
  have fits := single_kickers enough single
  match kickers cards [r], fits with
  | k0 :: k1 :: rest, _ => exact ⟨k0, k1, rest, rfl⟩
  | [], fits => simp [count] at fits
  | [_], fits => simp [count] at fits

theorem pair_kickers (count : counts cards r = 2) (single : ∀ v ∈ ranksDown, v ≠ r → counts cards v ≤ 1) :
    ∃ k0 k1 k2 rest, kickers cards [r] = k0 :: k1 :: k2 :: rest := by
  have fits := single_kickers enough single
  match kickers cards [r], fits with
  | k0 :: k1 :: k2 :: rest, _ => exact ⟨k0, k1, k2, rest, rfl⟩
  | [], fits => simp [count] at fits
  | [_], fits => simp [count] at fits
  | [_, _], fits => simp [count] at fits

theorem evaluateRanks_returns (distinct : cards.Nodup) : ∃ score, evaluateRanks cards = .ok score := by
  obtain ⟨quads, noTrips, trips⟩ := groups_grouped cards
  have atMost := counts_le_four distinct
  unfold evaluateRanks
  dsimp only
  split
  · obtain ⟨kick, held⟩ := kicker_exists enough (fun v _ _ => atMost v)
      (show ([(groups cards).quads].map (counts cards)).sum ≤ 4 by simpa using atMost (groups cards).quads)
    exact ⟨_, by rw [held]⟩
  rename_i noQuads
  have three : ∀ v ∈ ranksDown, counts cards v ≤ 3 := fun v member => by
    have := quads (not_not.mp noQuads) v member
    have := atMost v
    omega
  cases ht : (groups cards).trips with
  | succ t =>
    cases hp : (groups cards).pairs with
    | cons pair rest => exact ⟨_, rfl⟩
    | nil =>
      dsimp only
      split
      · exact ⟨_, rfl⟩
      rw [if_pos (Nat.succ_ne_zero t)]
      obtain ⟨count, others⟩ := trips (by omega)
      rw [ht] at count others
      obtain ⟨k0, k1, rest, eq⟩ := trips_kickers enough count fun v member other => by
        have := three v member
        have := others hp v member other
        omega
      exact ⟨_, by rw [eq]⟩
  | zero =>
    obtain ⟨noThree, pairs⟩ := noTrips ht
    have two : ∀ v ∈ ranksDown, counts cards v ≤ 2 := fun v member => by
      have := three v member
      have := noThree v member
      omega
    have paired : ∀ v, v ∈ (groups cards).pairs ↔ v ∈ ranksDown ∧ counts cards v = 2 := fun v => by
      rw [pairs, mem_tier]
    dsimp only
    split
    · exact ⟨_, rfl⟩
    rw [if_neg (by simp)]
    cases hp : (groups cards).pairs with
    | nil => exact ⟨_, rfl⟩
    | cons p1 others =>
      rw [hp] at paired
      have first := ((paired p1).mp (by simp)).2
      cases others with
      | nil =>
        obtain ⟨k0, k1, k2, rest, eq⟩ := pair_kickers enough first fun v member other => by
          have := two v member
          have : counts cards v ≠ 2 := fun pair => other (by simpa using (paired v).mpr ⟨member, pair⟩)
          omega
        exact ⟨_, by dsimp only; rw [eq]⟩
      | cons p2 others =>
        have second := ((paired p2).mp (by simp)).2
        obtain ⟨kick, held⟩ := kicker_exists enough (fun v _ _ => atMost v)
          (show ([p1, p2].map (counts cards)).sum ≤ 4 by simp [first, second])
        exact ⟨_, by dsimp only; rw [held]⟩

end

theorem evaluate_returns (distinct : cards.Nodup) (enough : 5 ≤ cards.length) :
    ∃ score, evaluate cards = .ok score := by
  unfold evaluate
  split
  · exact ⟨_, rfl⟩
  exact evaluateRanks_returns enough distinct

theorem mem_combinations {α : Type} {xs combo : List α} (h : combo ∈ combinations k xs) :
    combo.Sublist xs ∧ combo.length = k := by
  induction xs generalizing k combo with
  | nil =>
    cases k with
    | zero => simp [combinations] at h; simp [h]
    | succ k => simp [combinations] at h
  | cons x xs ih =>
    cases k with
    | zero => simp [combinations] at h; simp [h]
    | succ k =>
      simp only [combinations, mem_append, mem_map] at h
      obtain ⟨rest, member, rfl⟩ | without := h
      · obtain ⟨sub, length⟩ := ih member
        exact ⟨sub.cons_cons x, by simp [length]⟩
      obtain ⟨sub, length⟩ := ih without
      exact ⟨sub.cons x, length⟩

theorem combinations_ne_nil {α : Type} {xs : List α} (enough : k ≤ xs.length) : combinations k xs ≠ [] := by
  induction xs generalizing k with
  | nil =>
    obtain rfl : k = 0 := by simpa using enough
    simp [combinations]
  | cons x xs ih =>
    cases k with
    | zero => simp [combinations]
    | succ k =>
      have := ih (k := k) (by simpa using enough)
      simp [combinations, this]

theorem bestScan_returns (combos : List (List Card))
    (good : ∀ combo ∈ combos, ∃ score, evaluate combo = .ok score) (best : Option (Score × List Card)) :
    ∃ found, combos.foldlM bestStep best = .ok found ∧ (combos ≠ [] ∨ best ≠ none → found ≠ none) := by
  induction combos generalizing best with
  | nil => exact ⟨best, rfl, fun h => h.resolve_left (by simp)⟩
  | cons combo rest ih =>
    obtain ⟨score, scored⟩ := good combo (.head _)
    have step : ∃ next, bestStep best combo = .ok (some next) := by
      cases best with
      | none => exact ⟨(score, combo), by simp [bestStep, scored, bind, Except.bind, pure, Except.pure]⟩
      | some top =>
        by_cases better : top.1.key < score.key
        · exact ⟨(score, combo), by simp [bestStep, scored, better, bind, Except.bind, pure, Except.pure]⟩
        exact ⟨top, by simp [bestStep, scored, better, bind, Except.bind, pure, Except.pure]⟩
    obtain ⟨next, step⟩ := step
    obtain ⟨found, ran, held⟩ := ih (fun c hc => good c (.tail _ hc)) (some next)
    refine ⟨found, ?_, fun _ => held (Or.inr (by simp))⟩
    rw [foldlM_cons, step]
    exact ran

theorem bestFive_returns (distinct : cards.Nodup) (enough : 5 ≤ cards.length) :
    ∃ combo, bestFive cards = .ok combo := by
  obtain ⟨found, ran, held⟩ := bestScan_returns (combinations 5 cards) (fun combo member => by
    obtain ⟨sub, length⟩ := mem_combinations member
    exact evaluate_returns (distinct.sublist sub) (by omega)) none
  obtain ⟨⟨score, combo⟩, rfl⟩ := Option.ne_none_iff_exists'.mp (held (Or.inl (combinations_ne_nil enough)))
  exact ⟨combo, by rw [bestFive, ran]; rfl⟩

end Holdem
