import Holdem.Evaluator.Patterns

/-!
What the evaluator returns is a hand the cards make, and no hand they make is better: its branches try
the patterns from the best down.
-/

namespace Holdem

open List

variable {cards : List Card} {need : List ℕ} {score : Score} {t v : ℕ} {k : ℕ}

open Descending

theorem cons_le {a b : ℕ} {l l' : List ℕ} (first : a ≤ b) (rest : a = b → l ≤ l') : a :: l ≤ b :: l' := by
  obtain less | rfl := lt_or_eq_of_le first
  · exact le_of_head_lt less
  exact cons_le_cons _ (rest rfl)

theorem max_kicker {l : List ℕ} {k kick : ℕ} (greatest : l.max? = some kick) (member : k ∈ l) : k ≤ kick :=
  (List.max?_eq_some_iff.mp greatest).2 k member

def fillers (cards : List Card) (trips : ℕ) : List ℕ :=
  ranksDown.filter fun v => counts cards v = 2 ∨ counts cards v = 3 ∧ v ≠ trips

theorem mem_fillers : v ∈ fillers cards t ↔ v ∈ ranksDown ∧ (counts cards v = 2 ∨ counts cards v = 3 ∧ v ≠ t) := by
  rw [fillers, mem_filter, decide_eq_true_eq]

theorem filler_of_counts (least : 2 ≤ counts cards v) (most : counts cards v ≤ 3) (apart : v ≠ t) : v ∈ fillers cards t := by
  have held : v ∈ ranks cards := mem_ranks.mpr (by omega)
  exact mem_fillers.mpr ⟨ranks_range held, by omega⟩

/-- The branches of `evaluate` without a flush. -/
inductive Read (cards : List Card) : Score → Prop
  | quads {q kick : ℕ} {qs : List ℕ} (four : tier cards 4 = q :: qs) (kicker : (kickers cards [q]).max? = some kick) :
      Read cards ⟨7, [q, kick]⟩
  | fullHouse {t p : ℕ} {ts ps : List ℕ} (noQuads : tier cards 4 = []) (three : tier cards 3 = t :: ts)
      (fill : fillers cards t = p :: ps) : Read cards ⟨6, [t, p]⟩
  | straight (noQuads : tier cards 4 = []) (noHouse : ∀ t ts, tier cards 3 = t :: ts → fillers cards t = [])
      (found : straightHigh (rankMask cards) ≠ 0) : Read cards ⟨4, [straightHigh (rankMask cards)]⟩
  | trips {t k0 k1 : ℕ} {ts ks : List ℕ} (noQuads : tier cards 4 = []) (three : tier cards 3 = t :: ts)
      (noFill : fillers cards t = []) (noStraight : straightHigh (rankMask cards) = 0)
      (kicker : kickers cards [t] = k0 :: k1 :: ks) : Read cards ⟨3, [t, k0, k1]⟩
  | twoPair {p1 p2 kick : ℕ} {ps : List ℕ} (noQuads : tier cards 4 = []) (noTrips : tier cards 3 = [])
      (noStraight : straightHigh (rankMask cards) = 0) (pairs : tier cards 2 = p1 :: p2 :: ps)
      (kicker : (kickers cards [p1, p2]).max? = some kick) : Read cards ⟨2, [p1, p2, kick]⟩
  | pair {p k0 k1 k2 : ℕ} {ks : List ℕ} (noQuads : tier cards 4 = []) (noTrips : tier cards 3 = [])
      (noStraight : straightHigh (rankMask cards) = 0) (pairs : tier cards 2 = [p])
      (kicker : kickers cards [p] = k0 :: k1 :: k2 :: ks) : Read cards ⟨1, [p, k0, k1, k2]⟩
  | high (noQuads : tier cards 4 = []) (noTrips : tier cards 3 = []) (noStraight : straightHigh (rankMask cards) = 0)
      (noPairs : tier cards 2 = []) : Read cards ⟨0, (kickers cards []).take 5⟩

theorem tier_pos {k v : ℕ} (member : v ∈ tier cards k) : v ≠ 0 := by
  have := (mem_ranksDown.mp (mem_tier.mp member).1).1
  omega

theorem tier_nil (zero : (tier cards k).headD 0 = 0) : tier cards k = [] := by
  cases held : tier cards k with
  | nil => rfl
  | cons v vs =>
    rw [held] at zero
    exact absurd zero (tier_pos (held ▸ mem_cons_self))

theorem counts_ne (none : tier cards k = []) (some : 0 < k) (v : ℕ) : counts cards v ≠ k := by
  intro count
  have held : v ∈ ranks cards := mem_ranks.mpr (count ▸ some)
  have member := mem_tier.mpr ⟨ranks_range held, count⟩
  rw [none] at member
  exact absurd member not_mem_nil

theorem fillers_zero (noTrips : tier cards 3 = []) : fillers cards 0 = tier cards 2 := by
  refine filter_congr fun v member => ?_
  have apart : counts cards v ≠ 3 := fun three => by
    have := mem_tier.mpr ⟨member, three⟩
    rw [noTrips] at this
    exact absurd this not_mem_nil
  simp [apart]

theorem evaluateRanks_reads (ran : evaluateRanks cards = .ok score) : Read cards score := by
  unfold evaluateRanks at ran
  rw [groups_eq] at ran
  dsimp only at ran
  split at ran
  · rename_i quads
    cases four : tier cards 4 with
    | nil => exact absurd (by rw [four]; rfl) quads
    | cons q qs =>
      rw [four] at ran
      split at ran
      · rename_i kick kicker
        cases ran
        exact .quads four kicker
      cases ran
  rename_i noQuads
  have noQuads := tier_nil (not_not.mp noQuads)
  have pairs : ∀ t, (ranksDown.filter fun v => counts cards v = 2 ∨ counts cards v = 3 ∧ v ≠ t) = fillers cards t :=
    fun _ => rfl
  rw [pairs] at ran
  cases three : tier cards 3 with
  | cons t ts =>
    obtain ⟨t, rfl⟩ : ∃ t', t = t' + 1 := Nat.exists_eq_succ_of_ne_zero (tier_pos (three ▸ mem_cons_self))
    rw [three, headD_cons] at ran
    cases fill : fillers cards (t + 1) with
    | cons p ps =>
      rw [fill] at ran
      cases ran
      exact .fullHouse noQuads three fill
    | nil =>
      rw [fill] at ran
      dsimp only at ran
      split at ran
      · rename_i found
        cases ran
        refine .straight noQuads (fun t' ts' three' => ?_) found
        cases three.symm.trans three'
        exact fill
      rename_i noStraight
      rw [if_pos (Nat.succ_ne_zero t)] at ran
      split at ran
      · rename_i k0 k1 ks kicker
        cases ran
        exact .trips noQuads three fill (not_not.mp noStraight) kicker
      cases ran
  | nil =>
    rw [three, headD_nil, fillers_zero three] at ran
    dsimp only at ran
    split at ran
    · rename_i found
      cases ran
      exact .straight noQuads (fun t ts some => by rw [three] at some; cases some) found
    rename_i noStraight
    have noStraight := not_not.mp noStraight
    rw [if_neg (by decide)] at ran
    split at ran
    · rename_i p1 p2 ps pairs
      split at ran
      · rename_i kick kicker
        cases ran
        exact .twoPair noQuads three noStraight pairs kicker
      cases ran
    · rename_i p pairs
      split at ran
      · rename_i k0 k1 k2 ks kicker
        cases ran
        exact .pair noQuads three noStraight pairs kicker
      cases ran
    rename_i noPairs
    cases ran
    exact .high noQuads three noStraight noPairs

section

variable (atMost : ∀ v, counts cards v ≤ 4) (noQuads : tier cards 4 = [])
include atMost noQuads

theorem three_most (v : ℕ) : counts cards v ≤ 3 := by
  have four := atMost v
  have noFour := counts_ne noQuads (by decide) v
  omega

variable (noTrips : tier cards 3 = [])
include noTrips

theorem two_most (v : ℕ) : counts cards v ≤ 2 := by
  have three := three_most atMost noQuads v
  have noThree := counts_ne noTrips (by decide) v
  omega

theorem single_most {v : ℕ} (unpaired : v ∉ tier cards 2) : counts cards v ≤ 1 := by
  have two := two_most atMost noQuads noTrips v
  by_contra pair
  have held : v ∈ ranks cards := mem_ranks.mpr (by omega)
  exact unpaired (mem_tier.mpr ⟨ranks_range held, by omega⟩)

end

theorem tier_top {k u v : ℕ} {vs : List ℕ} (top : tier cards k = v :: vs) (some : 0 < k) (count : counts cards u = k) : u ≤ v := by
  have held : u ∈ ranks cards := mem_ranks.mpr (count ▸ some)
  exact head_le (top ▸ tier_desc cards k) (top ▸ mem_tier.mpr ⟨ranks_range held, count⟩)

theorem subperm_of_counts (enough : ∀ v ∈ need, need.count v ≤ counts cards v) : need.Subperm (ranks cards) :=
  List.subperm_ext_iff.mpr fun v member => counts_eq_count cards v ▸ enough v member

theorem subperm_beside {v k : ℕ} {ks : List ℕ} (count : k ≤ counts cards v) (held : ks ⊆ ranks cards) (distinct : ks.Nodup)
    (apart : v ∉ ks) : (replicate k v ++ ks).Subperm (ranks cards) := by
  refine subperm_of_counts fun u member => ?_
  rw [count_append, count_replicate]
  by_cases same : v = u
  · subst same
    rw [count_eq_zero_of_not_mem apart]
    simpa using count
  have other : u ∈ ks := by simpa [Ne.symm same] using member
  have once : ks.count u ≤ 1 := List.nodup_iff_count_le_one.mp distinct u
  have some := mem_ranks.mp (held other)
  simp only [beq_iff_eq, same, if_false]
  omega

theorem straightTo_nodup {high : ℕ} (least : 5 ≤ high) (most : high ≤ 14) : (straightTo high).Nodup := by
  interval_cases high <;> decide

theorem Read.makes (read : Read cards score) (enough : 5 ≤ cards.length) (atMost : ∀ v, counts cards v ≤ 4) :
    Makes cards score := by
  have top : ∀ {k v vs}, tier cards k = v :: vs → counts cards v = k := fun held =>
    (mem_tier.mp (held ▸ mem_cons_self)).2
  have kept : ∀ without ks rest, kickers cards without = ks ++ rest →
      ks ⊆ ranks cards ∧ ks.Pairwise (· > ·) ∧ ∀ v ∈ without, v ∉ ks := by
    intro without ks rest split
    have desc := kickers_desc cards without
    rw [split] at desc
    have member : ∀ v ∈ ks, v ∈ kickers cards without := fun v held => split ▸ mem_append_left _ held
    exact ⟨fun v held => (mem_kickers.mp (member v held)).1, (List.pairwise_append.mp desc).1,
      fun v out held => (mem_kickers.mp (member v held)).2 out⟩
  have distinct : ∀ {ks : List ℕ}, ks.Pairwise (· > ·) → ks.Nodup := fun desc => desc.imp ne_of_gt
  cases read with
  | @quads q kick qs four kicker =>
    obtain ⟨held, apart⟩ := mem_kickers.mp (List.max?_eq_some_iff.mp kicker).1
    rw [mem_singleton] at apart
    refine .ranks (.quads apart) (@subperm_beside cards q 4 [kick] (top four).ge (by simpa using held) (by simp) ?_)
    simpa using Ne.symm apart
  | @fullHouse t p ts ps noQuads three fill =>
    have trips := top three
    have paired := (mem_fillers.mp (fill ▸ mem_cons_self)).2
    have apart : p ≠ t := fun same => by rw [same, trips] at paired; omega
    refine .ranks (.fullHouse apart) (subperm_of_counts fun v member => ?_)
    have either : v = t ∨ v = p := by simpa using member
    obtain rfl | rfl := either
    · rw [trips]
      simp [apart]
    simp only [count_cons, count_nil, beq_self_eq_true, beq_iff_eq, apart.symm, if_false, if_true]
    omega
  | straight noQuads noHouse found =>
    obtain ⟨none, -⟩ | ⟨least, most, held, -⟩ := straightHigh_highest cards
    · exact absurd none found
    exact .ranks (.straight least most) (subperm_of_subset (straightTo_nodup least most) held)
  | @trips t k0 k1 ts ks noQuads three noFill noStraight kicker =>
    obtain ⟨held, desc, apart⟩ := kept [t] [k0, k1] ks kicker
    have out := apart t (.head _)
    exact .ranks (.trips out desc) (subperm_beside (top three).ge held (distinct desc) out)
  | @twoPair p1 p2 kick ps noQuads noTrips noStraight pairs kicker =>
    obtain ⟨held, apart⟩ := mem_kickers.mp (List.max?_eq_some_iff.mp kicker).1
    have desc := tier_desc cards 2
    have second : p2 ∈ tier cards 2 := by rw [pairs]; simp
    rw [pairs] at desc
    have less : p1 > p2 := rel_of_pairwise_cons desc (.head _)
    refine .ranks (.twoPair apart (by simpa using less)) (subperm_of_counts fun v member => ?_)
    have first := top pairs
    have second := (mem_tier.mp second).2
    have some := mem_ranks.mp held
    simp only [mem_cons, not_mem_nil, or_false, not_or] at apart member
    have either : v = p1 ∨ v = p2 ∨ v = kick := by tauto
    obtain rfl | rfl | rfl := either
    · simp [first, apart.1, less.ne]
    · simp [second, apart.2, less.ne']
    simp only [count_cons, count_nil, beq_self_eq_true, beq_iff_eq, Ne.symm apart.1, Ne.symm apart.2, if_false, if_true]
    omega
  | @pair p k0 k1 k2 ks noQuads noTrips noStraight pairs kicker =>
    obtain ⟨held, desc, apart⟩ := kept [p] [k0, k1, k2] ks kicker
    have out := apart p (.head _)
    exact .ranks (.pair out desc) (subperm_beside (top pairs).ge held (distinct desc) out)
  | high noQuads noTrips noStraight noPairs =>
    obtain ⟨held, desc, -⟩ := kept [] _ _ (take_append_drop 5 (kickers cards [])).symm
    have many := length_le_kickers [] fun v _ _ =>
      single_most atMost noQuads noTrips (v := v) (by rw [noPairs]; exact not_mem_nil)
    refine .ranks (.high ?_ desc) (subperm_of_subset (distinct desc) held)
    simp at many
    rw [length_take]
    omega

theorem le_counts {v k : ℕ} (held : need.Subperm (ranks cards)) (sub : (replicate k v).Sublist need) : k ≤ counts cards v := by
  rw [counts_eq_count]
  exact (List.replicate_sublist_iff.mp sub).trans (held.count_le v)

theorem key_le {category : ℕ} {breakers breakers' : List ℕ} (le : breakers ≤ breakers') :
    (Score.mk category breakers).key ≤ (Score.mk category breakers').key := cons_le_cons _ le

theorem key_le_of_lt {score score' : Score} (less : score.category < score'.category) : score.key ≤ score'.key :=
  le_of_head_lt less

section Absent

variable {score' : Score} (pattern : RankPattern need score') (held : need.Subperm (ranks cards))

include pattern in
theorem category_le_seven : score'.category ≤ 7 := by
  cases pattern <;> simp

include pattern held

theorem category_le_six (three : ∀ v, counts cards v ≤ 3) : score'.category ≤ 6 := by
  refine Nat.le_of_lt_succ (lt_of_le_of_ne (category_le_seven pattern) fun eq => ?_)
  cases pattern with
  | @quads q k =>
    have four := le_counts (k := 4) held (sublist_append_left [q, q, q, q] [k])
    exact absurd (three q) (by omega)
  | _ => cases eq

theorem category_le_four (three : ∀ v, counts cards v ≤ 3)
    (noHouse : ∀ t ts, tier cards 3 = t :: ts → fillers cards t = []) : score'.category ≤ 4 := by
  have six := category_le_six pattern held three
  cases pattern with
  | @quads q k => exact absurd six (by simp)
  | @fullHouse t p apart =>
    have trips := le_counts (k := 3) held (sublist_append_left [t, t, t] [p, p])
    have pair := le_counts (k := 2) held (sublist_append_right [t, t, t] [p, p])
    have most := three t
    -- the pair fills up the top trips, unless the trips here are not the top
    cases top : tier cards 3 with
    | nil => exact absurd (counts_ne top (by decide) t) (by omega)
    | cons u us =>
      have none := noHouse u us top
      have filled : ∃ v, v ∈ fillers cards u := by
        by_cases same : t = u
        · exact ⟨p, filler_of_counts pair (three p) (same ▸ apart)⟩
        exact ⟨t, filler_of_counts (by omega) (three t) same⟩
      obtain ⟨v, member⟩ := filled
      rw [none] at member
      exact absurd member not_mem_nil
  | _ => simp

theorem category_le_three (four : score'.category ≤ 4) (noStraight : straightHigh (rankMask cards) = 0) : score'.category ≤ 3 := by
  refine Nat.le_of_lt_succ (lt_of_le_of_ne four fun eq => ?_)
  cases pattern with
  | straight least most =>
    obtain ⟨-, none⟩ | ⟨some, -⟩ := straightHigh_highest cards
    · exact none _ most least held.subset
    omega
  | _ => cases eq

theorem category_le_two (three : score'.category ≤ 3) (two : ∀ v, counts cards v ≤ 2) : score'.category ≤ 2 := by
  refine Nat.le_of_lt_succ (lt_of_le_of_ne three fun eq => ?_)
  cases pattern with
  | @trips t k0 k1 =>
    have trips := le_counts (k := 3) held (sublist_append_left [t, t, t] [k0, k1])
    exact absurd (two t) (by omega)
  | _ => cases eq

theorem category_le_one {p : ℕ} (two : score'.category ≤ 2) (single : ∀ v, v ≠ p → counts cards v ≤ 1) : score'.category ≤ 1 := by
  refine Nat.le_of_lt_succ (lt_of_le_of_ne two fun eq => ?_)
  cases pattern with
  | @twoPair p1 p2 k apart desc =>
    have first := le_counts (k := 2) held (sublist_append_left [p1, p1] [p2, p2, k])
    have second := le_counts (k := 2) held ((sublist_append_left [p2, p2] [k]).trans (sublist_append_right [p1, p1] _))
    have less : p1 > p2 := rel_of_pairwise_cons desc (.head _)
    have one := single p1
    have other := single p2
    omega
  | _ => cases eq

theorem category_le_zero (one : score'.category ≤ 1) (single : ∀ v, counts cards v ≤ 1) : score'.category ≤ 0 := by
  refine Nat.le_of_lt_succ (lt_of_le_of_ne one fun eq => ?_)
  cases pattern with
  | @pair p k0 k1 k2 =>
    have pair := le_counts (k := 2) held (sublist_append_left [p, p] [k0, k1, k2])
    exact absurd (single p) (by omega)
  | _ => cases eq

end Absent

section Best

variable {score' : Score} (atMost : ∀ v, counts cards v ≤ 4) (pattern : RankPattern need score') (held : need.Subperm (ranks cards))
include atMost pattern held

theorem quads_best {q kick : ℕ} {qs : List ℕ} (four : tier cards 4 = q :: qs) (kicker : (kickers cards [q]).max? = some kick) :
    score'.key ≤ (Score.mk 7 [q, kick]).key := by
  obtain less | eq := (category_le_seven pattern).lt_or_eq
  · exact key_le_of_lt less
  cases pattern with
  | @quads q' k apart =>
    have count := le_counts (k := 4) held (sublist_append_left [q', q', q', q'] [k])
    have most := atMost q'
    refine key_le (cons_le (tier_top four (by decide) (by omega)) fun same => cons_le ?_ fun _ => le_refl _)
    refine max_kicker kicker (mem_kickers.mpr ⟨held.subset (by simp), ?_⟩)
    rwa [← same, mem_singleton]
  | _ => cases eq

theorem house_best {t p : ℕ} {ts ps : List ℕ} (noQuads : tier cards 4 = []) (top : tier cards 3 = t :: ts)
    (fill : fillers cards t = p :: ps) : score'.key ≤ (Score.mk 6 [t, p]).key := by
  have three := three_most atMost noQuads
  obtain less | eq := (category_le_six pattern held three).lt_or_eq
  · exact key_le_of_lt less
  cases pattern with
  | @fullHouse t' p' apart =>
    have trips := le_counts (k := 3) held (sublist_append_left [t', t', t'] [p', p'])
    have pair := le_counts (k := 2) held (sublist_append_right [t', t', t'] [p', p'])
    have most := three t'
    refine key_le (cons_le (tier_top top (by decide) (by omega)) fun same => cons_le ?_ fun _ => le_refl _)
    have desc : (fillers cards t).Pairwise (· > ·) := ranksDown_desc.filter _
    exact head_le (fill ▸ desc) (fill ▸ filler_of_counts pair (three p') (same ▸ apart))
  | _ => cases eq

theorem straight_best (noQuads : tier cards 4 = []) (noHouse : ∀ t ts, tier cards 3 = t :: ts → fillers cards t = [])
    (found : straightHigh (rankMask cards) ≠ 0) : score'.key ≤ (Score.mk 4 [straightHigh (rankMask cards)]).key := by
  obtain less | eq := (category_le_four pattern held (three_most atMost noQuads) noHouse).lt_or_eq
  · exact key_le_of_lt less
  cases pattern with
  | straight least most =>
    obtain ⟨none, -⟩ | ⟨-, -, -, greatest⟩ := straightHigh_highest cards
    · exact absurd none found
    exact key_le (cons_le (greatest _ most least held.subset) fun _ => le_refl _)
  | _ => cases eq

theorem trips_best {t k0 k1 : ℕ} {ts ks : List ℕ} (noQuads : tier cards 4 = []) (top : tier cards 3 = t :: ts)
    (noFill : fillers cards t = []) (noStraight : straightHigh (rankMask cards) = 0)
    (kicker : kickers cards [t] = k0 :: k1 :: ks) : score'.key ≤ (Score.mk 3 [t, k0, k1]).key := by
  have three := three_most atMost noQuads
  have four := category_le_four pattern held three fun t' ts' top' => by
    cases top.symm.trans top'
    exact noFill
  obtain less | eq := (category_le_three pattern held four noStraight).lt_or_eq
  · exact key_le_of_lt less
  cases pattern with
  | @trips t' k0' k1' apart desc =>
    have trips := le_counts (k := 3) held (sublist_append_left [t', t', t'] [k0', k1'])
    have most := three t'
    refine key_le (cons_le (tier_top top (by decide) (by omega)) fun same => ?_)
    have drawn := le_take (kickers_desc cards [t]) desc fun v member => by
      refine mem_kickers.mpr ⟨held.subset (mem_append_right [t', t', t'] member), ?_⟩
      rw [mem_singleton, ← same]
      exact fun eq => apart (eq ▸ member)
    rwa [kicker] at drawn
  | _ => cases eq

section NoTrips

variable (noQuads : tier cards 4 = []) (noTrips : tier cards 3 = []) (noStraight : straightHigh (rankMask cards) = 0)
include noQuads noTrips noStraight

theorem category_le_pairs : score'.category ≤ 2 := by
  have four := category_le_four pattern held (three_most atMost noQuads) fun t ts top => by
    rw [noTrips] at top
    cases top
  exact category_le_two pattern held (category_le_three pattern held four noStraight) (two_most atMost noQuads noTrips)

theorem twoPair_best {p1 p2 kick : ℕ} {ps : List ℕ} (pairs : tier cards 2 = p1 :: p2 :: ps)
    (kicker : (kickers cards [p1, p2]).max? = some kick) : score'.key ≤ (Score.mk 2 [p1, p2, kick]).key := by
  have two := two_most atMost noQuads noTrips
  obtain less | eq := (category_le_pairs atMost pattern held noQuads noTrips noStraight).lt_or_eq
  · exact key_le_of_lt less
  cases pattern with
  | @twoPair p1' p2' k apart desc =>
    have first := le_counts (k := 2) held (sublist_append_left [p1', p1'] [p2', p2', k])
    have second := le_counts (k := 2) held
      ((sublist_append_left [p2', p2'] [k]).trans (sublist_append_right [p1', p1'] _))
    have most := two p1'
    have most' := two p2'
    have less : p1' > p2' := rel_of_pairwise_cons desc (.head _)
    refine key_le (cons_le (tier_top pairs (by decide) (by omega)) fun same => ?_)
    have paired : p2' ∈ tier cards 2 := mem_tier.mpr ⟨ranks_range (held.subset (by simp)), by omega⟩
    rw [pairs] at paired
    have later : p2' ∈ p2 :: ps := (List.mem_cons.mp paired).resolve_left (by omega)
    refine cons_le (head_le (pairs ▸ tier_desc cards 2).of_cons later) fun same' => cons_le ?_ fun _ => le_refl _
    refine max_kicker kicker (mem_kickers.mpr ⟨held.subset (by simp), ?_⟩)
    rwa [← same, ← same']
  | _ => cases eq

theorem pair_best {p k0 k1 k2 : ℕ} {ks : List ℕ} (pairs : tier cards 2 = [p]) (kicker : kickers cards [p] = k0 :: k1 :: k2 :: ks) :
    score'.key ≤ (Score.mk 1 [p, k0, k1, k2]).key := by
  have two := two_most atMost noQuads noTrips
  have one := category_le_one (p := p) pattern held (category_le_pairs atMost pattern held noQuads noTrips noStraight) fun v other =>
    single_most atMost noQuads noTrips (by rw [pairs, mem_singleton]; exact other)
  obtain less | eq := one.lt_or_eq
  · exact key_le_of_lt less
  cases pattern with
  | @pair p' k0' k1' k2' apart desc =>
    have pair := le_counts (k := 2) held (sublist_append_left [p', p'] [k0', k1', k2'])
    have most := two p'
    refine key_le (cons_le (tier_top pairs (by decide) (by omega)) fun same => ?_)
    have drawn := le_take (kickers_desc cards [p]) desc fun v member => by
      refine mem_kickers.mpr ⟨held.subset (mem_append_right [p', p'] member), ?_⟩
      rw [mem_singleton, ← same]
      exact fun eq => apart (eq ▸ member)
    rwa [kicker] at drawn
  | _ => cases eq

theorem high_best (noPairs : tier cards 2 = []) : score'.key ≤ (Score.mk 0 ((kickers cards []).take 5)).key := by
  have single : ∀ v, counts cards v ≤ 1 := fun v =>
    single_most atMost noQuads noTrips (by rw [noPairs]; exact not_mem_nil)
  have one := category_le_one (p := 0) pattern held (category_le_pairs atMost pattern held noQuads noTrips noStraight) fun v _ => single v
  obtain less | eq := (category_le_zero pattern held one single).lt_or_eq
  · exact key_le_of_lt less
  cases pattern with
  | @high vs five desc =>
    have drawn := le_take (kickers_desc cards []) desc fun v member => mem_kickers.mpr ⟨held.subset member, not_mem_nil⟩
    rw [five] at drawn
    exact key_le drawn
  | _ => cases eq

end NoTrips

end Best

theorem Read.dominates {score' : Score} (read : Read cards score) (atMost : ∀ v, counts cards v ≤ 4)
    (pattern : RankPattern need score') (held : need.Subperm (ranks cards)) : score'.key ≤ score.key := by
  cases read with
  | quads four kicker => exact quads_best atMost pattern held four kicker
  | fullHouse noQuads three fill => exact house_best atMost pattern held noQuads three fill
  | straight noQuads noHouse found => exact straight_best atMost pattern held noQuads noHouse found
  | trips noQuads three noFill noStraight kicker => exact trips_best atMost pattern held noQuads three noFill noStraight kicker
  | twoPair noQuads noTrips noStraight pairs kicker => exact twoPair_best atMost pattern held noQuads noTrips noStraight pairs kicker
  | pair noQuads noTrips noStraight pairs kicker => exact pair_best atMost pattern held noQuads noTrips noStraight pairs kicker
  | high noQuads noTrips noStraight noPairs => exact high_best atMost pattern held noQuads noTrips noStraight noPairs

theorem suitCount_eq (cards : List Card) (suit : Fin 4) : suitCount cards suit = (suited cards suit).length :=
  countP_eq_length_filter

theorem suited_nodup (distinct : cards.Nodup) (suit : Fin 4) : (ranks (suited cards suit)).Nodup := by
  refine List.Nodup.map_on (fun c member d member' same => ?_) (distinct.filter _)
  have suit1 := (List.mem_filter.mp member).2
  have suit2 := (List.mem_filter.mp member').2
  obtain ⟨v, s, _, _⟩ := c
  obtain ⟨w, t, _, _⟩ := d
  simp_all

theorem suit_split (cards : List Card) (suit : Fin 4) :
    ∃ others : List Card, (suited cards suit).length + others.length = cards.length ∧
      (∀ v, counts cards v = counts (suited cards suit) v + counts others v) ∧
      ∀ suit', suit' ≠ suit → (suited cards suit').length ≤ others.length := by
  have split := filter_append_perm (fun c : Card => decide (c.s = suit)) cards
  refine ⟨cards.filter fun c => !decide (c.s = suit), ?_, fun v => ?_, fun suit' other => ?_⟩
  · rw [← split.length_eq, length_append]
    rfl
  · rw [counts, ← split.countP_eq, countP_append]
    rfl
  refine List.Sublist.length_le (monotone_filter_right _ fun c held => ?_)
  have at' : c.s = suit' := by simpa using held
  simpa [at'] using other

theorem counts_add_le {u v : ℕ} (apart : u ≠ v) (cards : List Card) : counts cards u + counts cards v ≤ cards.length := by
  induction cards with
  | nil => simp [counts]
  | cons c cards ih =>
    rw [counts_cons, counts_cons, length_cons]
    split <;> split <;> omega

section Flush

variable {fs : Fin 4} (distinct : cards.Nodup) (five : 5 ≤ suitCount cards fs)
include distinct five

theorem evaluateFlush_makes : Makes cards (evaluateFlush cards fs) := by
  have once := suited_nodup distinct fs
  have sorted := perm_insertionSort (· ≥ ·) (ranks (suited cards fs))
  have length : (ranks (suited cards fs)).length = suitCount cards fs := by rw [suitCount_eq, ranks, length_map]
  unfold evaluateFlush
  dsimp only
  split
  · rename_i found
    obtain ⟨none, -⟩ | ⟨least, most, held, -⟩ := straightHigh_highest (suited cards fs)
    · exact absurd none found
    exact .suited fs (.straightFlush least most) (subperm_of_subset (straightTo_nodup least most) held)
  refine .suited fs (.flush ?_ ?_) ((take_sublist 5 _).subperm.trans sorted.subperm)
  · rw [length_take]
    have := sorted.length_eq
    change min 5 (List.insertionSort (· ≥ ·) (ranks (suited cards fs))).length = 5
    omega
  exact (insertionSort_desc once).sublist (take_sublist 5 _)

variable (most : cards.length ≤ 7)
include most

theorem category_le_flush {score' : Score} (pattern : RankPattern need score') (held : need.Subperm (ranks cards)) :
    score'.category ≤ 4 := by
  obtain ⟨others, total, split, -⟩ := suit_split cards fs
  have few : others.length ≤ 2 := by
    rw [suitCount_eq] at five
    omega
  have once : ∀ v, counts (suited cards fs) v ≤ 1 := fun v => by
    rw [counts_eq_count]
    exact List.nodup_iff_count_le_one.mp (suited_nodup distinct fs) v
  have beside : ∀ v, counts others v ≤ others.length := fun v => countP_le_length
  cases pattern with
  | @quads q k =>
    have four := le_counts (k := 4) held (sublist_append_left [q, q, q, q] [k])
    have one := once q
    have rest := beside q
    rw [split] at four
    omega
  | @fullHouse t p apart =>
    have trips := le_counts (k := 3) held (sublist_append_left [t, t, t] [p, p])
    have pair := le_counts (k := 2) held (sublist_append_right [t, t, t] [p, p])
    have one := once t
    have one' := once p
    have rest := counts_add_le apart others
    rw [split] at trips pair
    omega
  | _ => simp

omit distinct in
theorem suit_unique {suit : Fin 4} (many : 5 ≤ (suited cards suit).length) : suit = fs := by
  obtain ⟨others, total, -, elsewhere⟩ := suit_split cards fs
  by_contra other
  have few := elsewhere suit other
  rw [suitCount_eq] at five
  omega

theorem evaluateFlush_dominates (made : Makes cards score) : score.key ≤ (evaluateFlush cards fs).key := by
  have highest := straightHigh_highest (suited cards fs)
  have sorted := perm_insertionSort (· ≥ ·) (ranks (suited cards fs))
  unfold evaluateFlush
  dsimp only
  cases made with
  | ranks pattern held =>
    have four := category_le_flush distinct five most pattern held
    split
    · exact key_le_of_lt (lt_of_le_of_lt four (by simp))
    exact key_le_of_lt (lt_of_le_of_lt four (by simp))
  | @suited need score suit pattern held =>
    have many := held.length_le
    rw [pattern.length, ranks, length_map] at many
    obtain rfl := suit_unique five most many
    split
    · rename_i found
      cases pattern with
      | straightFlush least most =>
        obtain ⟨none, -⟩ | ⟨-, -, -, greatest⟩ := highest
        · exact absurd none found
        exact key_le (cons_le (greatest _ most least held.subset) fun _ => le_refl _)
      | flush => exact key_le_of_lt (by simp)
    rename_i none
    cases pattern with
    | straightFlush least most =>
      obtain ⟨-, none⟩ | ⟨some, -⟩ := highest
      · exact absurd held.subset (none _ most least)
      exact absurd (not_not.mp none) (by change straightHigh (rankMask (suited cards suit)) ≠ 0; omega)
    | flush length desc =>
      have drawn := le_take (insertionSort_desc (suited_nodup distinct suit)) desc fun v member => sorted.mem_iff.mpr (held.subset member)
      rw [length] at drawn
      exact key_le drawn

end Flush

theorem evaluate_best (distinct : cards.Nodup) (least : 5 ≤ cards.length) (most : cards.length ≤ 7) :
    ∃ score, evaluate cards = .ok score ∧ Makes cards score ∧ ∀ score', Makes cards score' → score'.key ≤ score.key := by
  have atMost := counts_le_four distinct
  unfold evaluate
  cases flush : flushSuit cards with
  | some fs =>
    have five : 5 ≤ suitCount cards fs := by simpa using find?_some flush
    exact ⟨_, rfl, evaluateFlush_makes distinct five, fun _ made => evaluateFlush_dominates distinct five most made⟩
  | none =>
    obtain ⟨score, ran⟩ := evaluateRanks_returns least distinct
    have read := evaluateRanks_reads ran
    refine ⟨score, ran, read.makes least atMost, fun score' made => ?_⟩
    cases made with
    | ranks pattern held => exact read.dominates atMost pattern held
    | suited suit pattern held =>
      have few : suitCount cards suit < 5 := by simpa using List.find?_eq_none.mp flush suit (mem_finRange suit)
      have many := held.length_le
      rw [pattern.length, ranks, length_map, ← suitCount_eq] at many
      omega

end Holdem
