import Holdem.Evaluator.Best
import Holdem.Engine.State

/-!
The fast evaluator is the poker ranking: on five cards it is the rank defined directly, and on up to seven
the greatest rank of any five of them.
-/

namespace Holdem

open List

variable {cards hand : List Card} {l : List ℕ} {k : ℕ} {high : ℕ}

open Descending Method

def inGroups (hand : List Card) : List ℕ := [4, 3, 2, 1].flatMap (tier hand)

def straightOf : List ℕ → Option ℕ
  | [14, 5, 4, 3, 2] => some 5
  | [a, b, c, d, e] => if a = b + 1 ∧ b = c + 1 ∧ c = d + 1 ∧ d = e + 1 then some a else none
  | _ => none

/-- The rank of five cards: the sizes of the groups, or else whether they are in a row and of one suit. -/
def pokerRank (hand : List Card) : Score :=
  match (inGroups hand).map (counts hand) with
  | [4, 1] => ⟨7, inGroups hand⟩
  | [3, 2] => ⟨6, inGroups hand⟩
  | [3, 1, 1] => ⟨3, inGroups hand⟩
  | [2, 2, 1] => ⟨2, inGroups hand⟩
  | [2, 1, 1, 1] => ⟨1, inGroups hand⟩
  | _ =>
    match decide (∀ c ∈ hand, ∀ d ∈ hand, c.s = d.s), straightOf (inGroups hand) with
    | true, some high => ⟨8, [high]⟩
    | true, none => ⟨5, inGroups hand⟩
    | false, some high => ⟨4, [high]⟩
    | false, none => ⟨0, inGroups hand⟩

theorem sum_by_size {c : ℕ → ℕ} (atMost : ∀ v, c v ≤ 4) :
    (l.map c).sum = 4 * (l.filter fun v => c v = 4).length + 3 * (l.filter fun v => c v = 3).length +
      2 * (l.filter fun v => c v = 2).length + (l.filter fun v => c v = 1).length := by
  induction l with
  | nil => rfl
  | cons v l ih =>
    have most := atMost v
    rw [map_cons, sum_cons, ih]
    simp only [filter_cons, decide_eq_true_eq]
    obtain zero | one | two | three | four : c v = 0 ∨ c v = 1 ∨ c v = 2 ∨ c v = 3 ∨ c v = 4 := by omega
    all_goals simp [*] <;> omega

theorem tier_sizes (atMost : ∀ v, counts cards v ≤ 4) :
    4 * (tier cards 4).length + 3 * (tier cards 3).length + 2 * (tier cards 2).length + (tier cards 1).length = cards.length := by
  rw [← counts_total, sum_by_size atMost]
  rfl

theorem counts_top {v : ℕ} {vs : List ℕ} (held : tier cards k = v :: vs) : counts cards v = k :=
  (mem_tier.mp (held ▸ mem_cons_self)).2

theorem straightOf_some (range : ∀ v ∈ l, 2 ≤ v ∧ v ≤ 14) (found : straightOf l = some high) :
    5 ≤ high ∧ high ≤ 14 ∧ straightTo high ⊆ l := by
  unfold straightOf at found
  split at found
  · cases found
    decide
  · rename_i a b c d e _
    split at found
    · rename_i row
      cases found
      obtain ⟨rfl, rfl, rfl, rfl⟩ := row
      have low := (range e (by simp)).1
      have high := (range (e + 1 + 1 + 1 + 1) (by simp)).2
      refine ⟨by omega, high, fun v member => ?_⟩
      have each : v = e + 1 + 1 + 1 + 1 ∨ v = e + 1 + 1 + 1 ∨ v = e + 1 + 1 ∨ v = e + 1 ∨ v = e := by
        simp only [straightTo, aceHigh, map_cons, map_nil, mem_cons, not_mem_nil, or_false] at member
        split_ifs at member <;> omega
      simpa using each
    cases found
  cases found

theorem straightOf_row (least : 5 ≤ high) (most : high ≤ 14) (desc : l.Pairwise (· > ·))
    (perm : l.Perm (straightTo high)) : straightOf l = some high := by
  have listed : l = (straightTo high).insertionSort (· ≥ ·) :=
    eq_of_perm desc (insertionSort_desc (straightTo_nodup least most)) (perm.trans (perm_insertionSort _ _).symm)
  rw [listed]
  interval_cases high <;> decide

section Single

variable (single : ∀ v, counts hand v ≤ 1) (five : hand.length = 5)
include single five

theorem single_tiers : tier hand 4 = [] ∧ tier hand 3 = [] ∧ tier hand 2 = [] ∧ (tier hand 1).length = 5 := by
  have none : ∀ {k}, 1 < k → tier hand k = [] := fun more =>
    List.filter_eq_nil_iff.mpr fun v _ => by
      have := single v
      simp
      omega
  have sizes := @tier_sizes hand fun v => (single v).trans (by decide)
  rw [none (by decide : 1 < 4), none (by decide : 1 < 3), none (by decide : 1 < 2)] at sizes
  exact ⟨none (by decide), none (by decide), none (by decide), by simpa [five] using sizes⟩

theorem single_groups : inGroups hand = tier hand 1 := by
  obtain ⟨four, three, two, -⟩ := single_tiers single five
  simp [inGroups, four, three, two]

omit five in
theorem single_perm : (tier hand 1).Perm (ranks hand) := by
  have once : (ranks hand).Nodup := List.nodup_iff_count_le_one.mpr fun v => counts_eq_count hand v ▸ single v
  refine (perm_ext_iff_of_nodup ((tier_desc hand 1).imp ne_of_gt) once).mpr fun v => ?_
  have most := single v
  rw [mem_tier, mem_ranks]
  constructor
  · omega
  intro some
  exact ⟨ranks_range (mem_ranks.mpr some), by omega⟩

theorem single_straight : straightOf (tier hand 1) =
    if straightHigh (rankMask hand) = 0 then none else some (straightHigh (rankMask hand)) := by
  have perm := single_perm single
  obtain ⟨zero, none⟩ | ⟨least, most, held, -⟩ := straightHigh_highest hand
  · rw [if_pos zero]
    by_contra some
    obtain ⟨high, found⟩ := Option.ne_none_iff_exists'.mp some
    obtain ⟨least, most, held⟩ := straightOf_some (fun v member => mem_ranksDown.mp (mem_tier.mp member).1) found
    exact none high most least fun v member => perm.subset (held member)
  rw [if_neg (by omega)]
  refine straightOf_row least most (tier_desc hand 1) (perm.trans ?_)
  have sub := subperm_of_subset (straightTo_nodup least most) held
  refine (sub.perm_of_length_le ?_).symm
  rw [ranks, length_map, five]
  rfl

theorem single_rank : pokerRank hand =
    match decide (∀ c ∈ hand, ∀ d ∈ hand, c.s = d.s), straightHigh (rankMask hand) with
    | true, 0 => ⟨5, tier hand 1⟩
    | true, high + 1 => ⟨8, [high + 1]⟩
    | false, 0 => ⟨0, tier hand 1⟩
    | false, high + 1 => ⟨4, [high + 1]⟩ := by
  have sizes : (tier hand 1).map (counts hand) = [1, 1, 1, 1, 1] := by
    obtain ⟨-, -, -, length⟩ := single_tiers single five
    refine List.eq_replicate_iff.mpr ⟨(length_map _).trans length, fun k member => ?_⟩
    obtain ⟨v, held, rfl⟩ := List.mem_map.mp member
    exact (mem_tier.mp held).2
  unfold pokerRank
  rw [single_groups single five, sizes, single_straight single five]
  cases decide (∀ c ∈ hand, ∀ d ∈ hand, c.s = d.s) <;> cases straightHigh (rankMask hand) <;> rfl

end Single

theorem tier_only {q : ℕ} (only : tier hand k = [q]) (some : 0 < k) (v : ℕ) : counts hand v = k ↔ v = q := by
  constructor
  · intro count
    have member := mem_tier.mpr ⟨ranks_range (mem_ranks.mpr (count ▸ some)), count⟩
    rwa [only, mem_singleton] at member
  rintro rfl
  exact counts_top only

theorem kickers_single {without : List ℕ} (aside : ∀ v, 0 < counts hand v → (v ∉ without ↔ counts hand v = 1)) :
    kickers hand without = tier hand 1 := by
  refine filter_congr fun v _ => decide_eq_decide.mpr ?_
  have apart := aside v
  constructor
  · rintro ⟨some, out⟩
    exact (apart some).mp out
  intro one
  exact ⟨by omega, (apart (by omega)).mpr one⟩

section Five

variable (atMost : ∀ v, counts hand v ≤ 4) (five : hand.length = 5)
include atMost five

theorem quads_rank {q kick : ℕ} {qs : List ℕ} (four : tier hand 4 = q :: qs) (kicker : (kickers hand [q]).max? = some kick) :
    pokerRank hand = ⟨7, [q, kick]⟩ := by
  have sizes := tier_sizes atMost
  rw [five, four, length_cons] at sizes
  obtain rfl : qs = [] := eq_nil_of_length_eq_zero (by omega)
  have none3 : tier hand 3 = [] := eq_nil_of_length_eq_zero (by omega)
  have none2 : tier hand 2 = [] := eq_nil_of_length_eq_zero (by omega)
  obtain ⟨k, one⟩ := List.length_eq_one_iff.mp (show (tier hand 1).length = 1 by omega)
  rw [kickers_single, one] at kicker
  · cases kicker
    unfold pokerRank
    rw [show inGroups hand = [q, k] by simp [inGroups, four, none3, none2, one]]
    simp [counts_top four, counts_top one]
  intro v some
  have most := atMost v
  have apart := tier_only four (by decide) v
  have noThree := counts_ne none3 (by decide) v
  have noTwo := counts_ne none2 (by decide) v
  rw [mem_singleton]
  omega

section

variable (noQuads : tier hand 4 = [])
include noQuads

theorem house_rank {t p : ℕ} {ts ps : List ℕ} (three : tier hand 3 = t :: ts) (fill : fillers hand t = p :: ps) :
    pokerRank hand = ⟨6, [t, p]⟩ := by
  have sizes := tier_sizes atMost
  rw [five, noQuads, three, length_nil, length_cons] at sizes
  obtain rfl : ts = [] := eq_nil_of_length_eq_zero (by omega)
  obtain ⟨member, paired⟩ := mem_fillers.mp (fill ▸ mem_cons_self : p ∈ fillers hand t)
  have pair : p ∈ tier hand 2 := by
    have apart := tier_only three (by decide) p
    exact mem_tier.mpr ⟨member, by omega⟩
  have some := length_pos_of_mem pair
  obtain ⟨p', two⟩ := List.length_eq_one_iff.mp (show (tier hand 2).length = 1 by omega)
  obtain rfl : p = p' := by rwa [two, mem_singleton] at pair
  have none1 : tier hand 1 = [] := eq_nil_of_length_eq_zero (by omega)
  unfold pokerRank
  rw [show inGroups hand = [t, p] by simp [inGroups, noQuads, three, two, none1]]
  simp [counts_top three, counts_top two]

theorem trips_rank {t k0 k1 : ℕ} {ts ks : List ℕ} (three : tier hand 3 = t :: ts) (noFill : fillers hand t = [])
    (kicker : kickers hand [t] = k0 :: k1 :: ks) : pokerRank hand = ⟨3, [t, k0, k1]⟩ := by
  have sizes := tier_sizes atMost
  rw [five, noQuads, three, length_nil, length_cons] at sizes
  obtain rfl : ts = [] := eq_nil_of_length_eq_zero (by omega)
  have none2 : tier hand 2 = [] := List.eq_nil_iff_forall_not_mem.mpr fun v pair => by
    obtain ⟨member, count⟩ := mem_tier.mp pair
    exact not_mem_nil (noFill ▸ mem_fillers.mpr ⟨member, .inl count⟩)
  rw [none2, length_nil] at sizes
  rw [kickers_single] at kicker
  · rw [kicker, length_cons, length_cons] at sizes
    obtain rfl : ks = [] := eq_nil_of_length_eq_zero (by omega)
    have second : counts hand k1 = 1 := (mem_tier.mp (by rw [kicker]; simp : k1 ∈ tier hand 1)).2
    unfold pokerRank
    rw [show inGroups hand = [t, k0, k1] by simp [inGroups, noQuads, three, none2, kicker]]
    simp [counts_top three, counts_top kicker, second]
  intro v some
  have most := atMost v
  have apart := tier_only three (by decide) v
  have noFour := counts_ne noQuads (by decide) v
  have noTwo := counts_ne none2 (by decide) v
  rw [mem_singleton]
  omega

theorem twoPair_rank {p1 p2 kick : ℕ} {ps : List ℕ} (noTrips : tier hand 3 = [])
    (pairs : tier hand 2 = p1 :: p2 :: ps) (kicker : (kickers hand [p1, p2]).max? = some kick) :
    pokerRank hand = ⟨2, [p1, p2, kick]⟩ := by
  have sizes := tier_sizes atMost
  rw [five, noQuads, noTrips, pairs, length_nil, length_cons, length_cons] at sizes
  obtain rfl : ps = [] := eq_nil_of_length_eq_zero (by omega)
  obtain ⟨k, one⟩ := List.length_eq_one_iff.mp (show (tier hand 1).length = 1 by omega)
  have paired : ∀ v, v ∈ ranksDown ∧ counts hand v = 2 ↔ v = p1 ∨ v = p2 := fun v => by
    rw [← mem_tier, pairs]
    simp
  have second := ((paired p2).mpr (.inr rfl)).2
  rw [kickers_single, one] at kicker
  · cases kicker
    unfold pokerRank
    rw [show inGroups hand = [p1, p2, k] by simp [inGroups, noQuads, noTrips, pairs, one]]
    simp [counts_top pairs, second, counts_top one]
  intro v some
  have most := atMost v
  have range := ranks_range (mem_ranks.mpr some)
  have apart := paired v
  have noFour := counts_ne noQuads (by decide) v
  have noThree := counts_ne noTrips (by decide) v
  simp only [mem_cons, not_mem_nil, or_false]
  simp only [range, true_and] at apart
  omega

theorem pair_rank {p k0 k1 k2 : ℕ} {ks : List ℕ} (noTrips : tier hand 3 = []) (pairs : tier hand 2 = [p])
    (kicker : kickers hand [p] = k0 :: k1 :: k2 :: ks) : pokerRank hand = ⟨1, [p, k0, k1, k2]⟩ := by
  have sizes := tier_sizes atMost
  rw [five, noQuads, noTrips, pairs] at sizes
  rw [kickers_single] at kicker
  · rw [kicker] at sizes
    simp only [length_nil, length_cons] at sizes
    obtain rfl : ks = [] := eq_nil_of_length_eq_zero (by omega)
    have second : counts hand k1 = 1 := (mem_tier.mp (by rw [kicker]; simp : k1 ∈ tier hand 1)).2
    have third : counts hand k2 = 1 := (mem_tier.mp (by rw [kicker]; simp : k2 ∈ tier hand 1)).2
    unfold pokerRank
    rw [show inGroups hand = [p, k0, k1, k2] by simp [inGroups, noQuads, noTrips, pairs, kicker]]
    simp [counts_top pairs, counts_top kicker, second, third]
  intro v some
  have most := atMost v
  have apart := tier_only pairs (by decide) v
  have noFour := counts_ne noQuads (by decide) v
  have noThree := counts_ne noTrips (by decide) v
  rw [mem_singleton]
  omega

end

omit atMost in
theorem straight_rank (mixed : ¬∀ c ∈ hand, ∀ d ∈ hand, c.s = d.s) (found : straightHigh (rankMask hand) ≠ 0) :
    pokerRank hand = ⟨4, [straightHigh (rankMask hand)]⟩ := by
  have single : ∀ v, counts hand v ≤ 1 := by
    obtain ⟨none, -⟩ | ⟨least, most, held, -⟩ := straightHigh_highest hand
    · exact absurd none found
    have once := straightTo_nodup least most
    have perm := (subperm_of_subset once held).perm_of_length_le (by rw [ranks, length_map, five]; rfl)
    intro v
    rw [counts_eq_count, ← perm.count_eq]
    exact List.nodup_iff_count_le_one.mp once v
  rw [single_rank single five, decide_eq_false mixed]
  cases high : straightHigh (rankMask hand) with
  | zero => exact absurd high found
  | succ high => rfl

theorem high_rank (mixed : ¬∀ c ∈ hand, ∀ d ∈ hand, c.s = d.s) (noQuads : tier hand 4 = []) (noTrips : tier hand 3 = [])
    (noStraight : straightHigh (rankMask hand) = 0) (noPairs : tier hand 2 = []) :
    pokerRank hand = ⟨0, (kickers hand []).take 5⟩ := by
  have single : ∀ v, counts hand v ≤ 1 := fun v =>
    single_most atMost noQuads noTrips (by rw [noPairs]; exact not_mem_nil)
  obtain ⟨-, -, -, length⟩ := single_tiers single five
  have listed : kickers hand [] = tier hand 1 := kickers_single fun v some => by
    have most := single v
    simp
    omega
  rw [single_rank single five, decide_eq_false mixed, noStraight, listed, take_of_length_le length.le]

theorem read_rank {score : Score} (read : Read hand score) (mixed : ¬∀ c ∈ hand, ∀ d ∈ hand, c.s = d.s) :
    pokerRank hand = score := by
  cases read with
  | quads four kicker => exact quads_rank atMost five four kicker
  | fullHouse noQuads three fill => exact house_rank atMost five noQuads three fill
  | straight noQuads noHouse found => exact straight_rank five mixed found
  | trips noQuads three noFill noStraight kicker => exact trips_rank atMost five noQuads three noFill kicker
  | twoPair noQuads noTrips noStraight pairs kicker => exact twoPair_rank atMost five noQuads noTrips pairs kicker
  | pair noQuads noTrips noStraight pairs kicker => exact pair_rank atMost five noQuads noTrips pairs kicker
  | high noQuads noTrips noStraight noPairs => exact high_rank atMost five mixed noQuads noTrips noStraight noPairs

end Five

theorem flush_rank (distinct : hand.Nodup) (five : hand.length = 5) {fs : Fin 4} (many : 5 ≤ suitCount hand fs) :
    pokerRank hand = evaluateFlush hand fs := by
  have all : suited hand fs = hand := by
    rw [suitCount_eq, ← five] at many
    exact List.filter_sublist.eq_of_length_le many
  have same : ∀ c ∈ hand, c.s = fs := fun c member => by
    rw [← all] at member
    simpa using (List.mem_filter.mp member).2
  have once : (ranks hand).Nodup := all ▸ suited_nodup distinct fs
  have single : ∀ v, counts hand v ≤ 1 := fun v => counts_eq_count hand v ▸ List.nodup_iff_count_le_one.mp once v
  obtain ⟨-, -, -, length⟩ := single_tiers single five
  have sorted : (ranks hand).insertionSort (· ≥ ·) = tier hand 1 :=
    eq_of_perm (insertionSort_desc once) (tier_desc hand 1)
      ((perm_insertionSort _ _).trans (single_perm single).symm)
  have flush : decide (∀ c ∈ hand, ∀ d ∈ hand, c.s = d.s) = true :=
    decide_eq_true fun c member d member' => (same c member).trans (same d member').symm
  rw [single_rank single five, flush]
  unfold evaluateFlush
  change _ = if straightHigh (rankMask (suited hand fs)) ≠ 0 then Score.mk 8 [straightHigh (rankMask (suited hand fs))]
    else Score.mk 5 (((ranks (suited hand fs)).insertionSort (· ≥ ·)).take 5)
  rw [all, sorted, take_of_length_le length.le]
  cases straightHigh (rankMask hand) <;> rfl

theorem evaluate_five (distinct : hand.Nodup) (five : hand.length = 5) : evaluate hand = .ok (pokerRank hand) := by
  unfold evaluate
  cases flush : flushSuit hand with
  | some fs =>
    have many : 5 ≤ suitCount hand fs := by simpa using find?_some flush
    rw [flush_rank distinct five many]
  | none =>
    obtain ⟨score, ran⟩ := evaluateRanks_returns five.ge distinct
    have mixed : ¬∀ c ∈ hand, ∀ d ∈ hand, c.s = d.s := by
      intro same
      cases hand with
      | nil => cases five
      | cons c rest =>
        have few : suitCount (c :: rest) c.s < 5 := by simpa using List.find?_eq_none.mp flush c.s (mem_finRange c.s)
        have all : suitCount (c :: rest) c.s = (c :: rest).length := List.countP_eq_length.mpr fun d member => by
          simpa using same d member c mem_cons_self
        omega
    rw [read_rank (counts_le_four distinct) five (evaluateRanks_reads ran) mixed]
    exact ran

theorem key_injective {score score' : Score} (same : score.key = score'.key) : score = score' := by
  obtain ⟨category, breakers⟩ := score
  obtain ⟨category', breakers'⟩ := score'
  obtain ⟨rfl, rfl⟩ := List.cons.inj same
  rfl

structure TopRank (cards : List Card) (score : Score) : Prop where
  attained : ∃ five : List Card, five.Sublist cards ∧ five.length = 5 ∧ pokerRank five = score
  greatest : ∀ five : List Card, five.Subperm cards → five.length = 5 → (pokerRank five).key ≤ score.key

theorem evaluate_topRank (distinct : cards.Nodup) (least : 5 ≤ cards.length) (most : cards.length ≤ 7) :
    ∃ score, evaluate cards = .ok score ∧ TopRank cards score := by
  obtain ⟨score, ran, made, best⟩ := evaluate_best distinct least most
  have ranked : ∀ five : List Card, five.Subperm cards → five.length = 5 → (pokerRank five).key ≤ score.key := by
    intro five sub length
    have distinct' : five.Nodup := by
      obtain ⟨listed, perm, drawn⟩ := sub
      exact perm.nodup_iff.mp (distinct.sublist drawn)
    obtain ⟨score', ran', made', -⟩ := evaluate_best distinct' length.ge (by omega)
    rw [evaluate_five distinct' length] at ran'
    cases ran'
    exact best _ (made'.mono sub)
  refine ⟨score, ran, ?_, ranked⟩
  obtain ⟨five, sub, length, made'⟩ := made.five
  have distinct' := distinct.sublist sub
  obtain ⟨score', ran', -, best'⟩ := evaluate_best distinct' length.ge (by omega)
  rw [evaluate_five distinct' length] at ran'
  cases ran'
  exact ⟨five, sub, length, key_injective (le_antisymm (ranked five sub.subperm length) (best' score made'))⟩

theorem evaluate_perm (distinct : cards.Nodup) (least : 5 ≤ cards.length) (most : cards.length ≤ 7) {shuffled : List Card}
    (perm : shuffled.Perm cards) : evaluate shuffled = evaluate cards := by
  obtain ⟨score, ran, made, best⟩ := evaluate_best distinct least most
  obtain ⟨score', ran', made', best'⟩ := evaluate_best (perm.nodup_iff.mpr distinct) (perm.length_eq ▸ least) (perm.length_eq ▸ most)
  have same : score' = score :=
    key_injective (le_antisymm (best _ (made'.mono perm.subperm)) (best' _ (made.mono perm.symm.subperm)))
  rw [ran, ran', same]

theorem mem_combinations_of {α : Type} {xs combo : List α} (sub : combo.Sublist xs) (length : combo.length = k) :
    combo ∈ combinations k xs := by
  induction sub generalizing k with
  | slnil => subst length; simp [combinations]
  | @cons combo xs x sub ih =>
    cases k with
    | zero => simp [combinations, eq_nil_of_length_eq_zero length]
    | succ k => exact mem_append_right _ (ih length)
  | @cons_cons combo xs x sub ih =>
    cases k with
    | zero => cases length
    | succ k => exact mem_append_left _ (mem_map_of_mem (ih (by simpa using length)))

theorem bestScan_best (combos : List (List Card)) (ranked : ∀ combo ∈ combos, evaluate combo = .ok (pokerRank combo))
    {best : Option (Score × List Card)} {top : Score × List Card} (ran : combos.foldlM bestStep best = .ok (some top)) :
    (best = some top ∨ top.2 ∈ combos ∧ top.1 = pokerRank top.2) ∧ (∀ combo ∈ combos, (pokerRank combo).key ≤ top.1.key) ∧
      ∀ first, best = some first → first.1.key ≤ top.1.key := by
  induction combos generalizing best with
  | nil =>
    cases ran
    exact ⟨.inl rfl, by simp, fun first same => by cases same; exact le_refl _⟩
  | cons combo rest ih =>
    rw [foldlM_cons] at ran
    have step : ∃ next : Score × List Card, bestStep best combo = .ok (some next) ∧
        (best = some next ∨ next = (pokerRank combo, combo)) ∧ (pokerRank combo).key ≤ next.1.key ∧
        ∀ first, best = some first → first.1.key ≤ next.1.key := by
      unfold bestStep
      rw [ranked combo mem_cons_self]
      cases best with
      | none => exact ⟨_, rfl, .inr rfl, le_refl _, fun first none => nomatch none⟩
      | some first =>
        obtain ⟨top, held⟩ := first
        by_cases better : top.key < (pokerRank combo).key
        · refine ⟨(pokerRank combo, combo), by simp [better, bind, Except.bind, pure, Except.pure], .inr rfl, le_refl _, ?_⟩
          rintro _ ⟨rfl⟩
          exact le_of_lt better
        refine ⟨(top, held), by simp [better, bind, Except.bind, pure, Except.pure], .inl rfl, le_of_not_gt better, ?_⟩
        rintro _ ⟨rfl⟩
        exact le_refl _
    obtain ⟨next, stepped, which, tops, under⟩ := step
    rw [stepped] at ran
    obtain ⟨found, others, kept⟩ := ih (fun c member => ranked c (.tail _ member)) ran
    have up := kept next rfl
    refine ⟨?_, fun c member => ?_, fun first same => (under first same).trans up⟩
    · obtain same | ⟨member, rank⟩ := found
      · cases same
        obtain same | rfl := which
        · exact .inl same
        exact .inr ⟨mem_cons_self, rfl⟩
      exact .inr ⟨mem_cons_of_mem _ member, rank⟩
    obtain rfl | member := List.mem_cons.mp member
    · exact tops.trans up
    exact others c member

theorem bestFive_ranked (distinct : cards.Nodup) (least : 5 ≤ cards.length) :
    ∃ five, bestFive cards = .ok five ∧ five.Sublist cards ∧ five.length = 5 ∧
      ∀ combo : List Card, combo.Sublist cards → combo.length = 5 → (pokerRank combo).key ≤ (pokerRank five).key := by
  obtain ⟨five, ran⟩ := bestFive_returns distinct least
  have ranked : ∀ combo ∈ combinations 5 cards, evaluate combo = .ok (pokerRank combo) := fun combo member =>
    have ⟨sub, length⟩ := mem_combinations member
    evaluate_five (distinct.sublist sub) length
  obtain ⟨found, scanned, chosen⟩ := check_ok ran
  cases found with
  | none => cases chosen
  | some top =>
    obtain ⟨score, combo⟩ := top
    cases chosen
    obtain ⟨held, others, -⟩ := bestScan_best _ ranked scanned
    obtain ⟨member, rank⟩ := held.resolve_left (fun none => nomatch none)
    obtain ⟨sub, length⟩ := mem_combinations member
    refine ⟨five, ran, sub, length, fun combo sub length => ?_⟩
    rw [← rank]
    exact others combo (mem_combinations_of sub length)

/-- The evaluator returns the greatest poker rank of five of the cards, in whatever order they come, and
`best_five` five cards of that rank. -/
theorem evaluate_is_poker_rank (distinct : cards.Nodup) (least : 5 ≤ cards.length) (most : cards.length ≤ 7) :
    ∃ score, evaluate cards = .ok score ∧ TopRank cards score ∧
      (∀ shuffled : List Card, shuffled.Perm cards → evaluate shuffled = .ok score) ∧
      ∃ five, bestFive cards = .ok five ∧ five.Sublist cards ∧ five.length = 5 ∧ pokerRank five = score := by
  obtain ⟨score, ran, top⟩ := evaluate_topRank distinct least most
  refine ⟨score, ran, top, fun shuffled perm => (evaluate_perm distinct least most perm).trans ran, ?_⟩
  obtain ⟨five, chosen, sub, length, best⟩ := bestFive_ranked distinct least
  obtain ⟨five', sub', length', rfl⟩ := top.attained
  exact ⟨five, chosen, sub, length, key_injective (le_antisymm (top.greatest five sub.subperm length) (best five' sub' length'))⟩

theorem evaluate_is_poker_rank_seven :
    let c (v : Fin 13) (s : Fin 4) : Card := ⟨v.val + 2, s, Nat.le_add_left 2 v, Nat.add_le_add_right (Nat.le_of_lt_succ v.isLt) 2⟩
    let cards := [c 0 0, c 4 1, c 1 0, c 2 0, c 4 0, c 3 0, c 0 2]
    cards.Nodup ∧ ∃ score, evaluate cards = .ok score ∧ TopRank cards score ∧ score = ⟨8, [6]⟩ := by
  intro c cards
  obtain ⟨score, ran, top, -, -⟩ := evaluate_is_poker_rank (by decide : cards.Nodup) (by decide) (by decide)
  refine ⟨by decide, score, ran, top, ?_⟩
  have six : evaluate cards = .ok ⟨8, [6]⟩ := by decide +kernel
  rw [ran] at six
  exact Except.ok.inj six

/-- A hand never gets worse as the board comes out. -/
theorem evaluate_grows {more : List Card} (distinct : more.Nodup) (sub : cards.Subperm more) (least : 5 ≤ cards.length)
    (most : more.length ≤ 7) :
    ∃ score score', evaluate cards = .ok score ∧ evaluate more = .ok score' ∧ score.key ≤ score'.key := by
  have distinct' : cards.Nodup := by
    obtain ⟨listed, perm, drawn⟩ := sub
    exact perm.nodup_iff.mp (distinct.sublist drawn)
  obtain ⟨score, ran, top⟩ := evaluate_topRank distinct' least (sub.length_le.trans most)
  obtain ⟨score', ran', top'⟩ := evaluate_topRank distinct (least.trans sub.length_le) most
  obtain ⟨five, sub', length, rfl⟩ := top.attained
  exact ⟨_, score', ran, ran', top'.greatest five (sub'.subperm.trans sub) length⟩

theorem evaluate_grows_five : ∃ score score', evaluate (fullDeck.take 5) = .ok score ∧ evaluate (fullDeck.take 7) = .ok score' ∧
    score.key ≤ score'.key :=
  evaluate_grows (by decide) (by decide) (by decide) (by decide)

end Holdem
