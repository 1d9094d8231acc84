import Mathlib.Tactic.IntervalCases
import Holdem.Evaluate
import Holdem.Lib.Descending

/-!
What the evaluator reads off the cards: the highest straight held, and the ranks held two, three and
four times. A `Pattern` is one way to read five ranks as a poker hand.
-/

namespace Holdem

open List Descending

variable {cards : List Card} {v : ℕ} {score : Score} {need : List ℕ}

def ranks (cards : List Card) : List ℕ := cards.map Card.v

theorem counts_eq_count (cards : List Card) (v : ℕ) : counts cards v = (ranks cards).count v := by
  rw [counts, ranks, List.count, countP_map]
  rfl

theorem mem_ranks : v ∈ ranks cards ↔ 0 < counts cards v := by
  rw [counts_eq_count, count_pos_iff]

theorem mem_ranksDown : v ∈ ranksDown ↔ 2 ≤ v ∧ v ≤ 14 := by
  simp only [ranksDown, mem_cons, not_mem_nil, or_false]
  omega

theorem ranks_range (held : v ∈ ranks cards) : v ∈ ranksDown := by
  obtain ⟨c, -, rfl⟩ := List.mem_map.mp held
  exact mem_ranksDown.mpr ⟨c.low, c.high⟩

theorem ranksDown_desc : ranksDown.Pairwise (· > ·) := by decide

/-- `top` is the greatest from 5 to `bound` of which `P` holds, or 0 if there is none. -/
def Highest (P : ℕ → Prop) (bound top : ℕ) : Prop :=
  (top = 0 ∧ ∀ high ≤ bound, 5 ≤ high → ¬P high) ∨
    (5 ≤ top ∧ top ≤ bound ∧ P top ∧ ∀ high ≤ bound, 5 ≤ high → P high → high ≤ top)

def FiveFrom (mask high : ℕ) : Prop := ∀ k < 5, mask.testBit (high - k) = true

def down : ℕ → List ℕ
  | 0 => []
  | r + 1 => (r + 1) :: down r

theorem straightScan_highest (mask r run : ℕ) (short : run < 5) (behind : ∀ k < run, mask.testBit (r + 1 + k) = true) :
    Highest (FiveFrom mask) (r + run) (straightScan mask (down r) run) := by
  induction r generalizing run with
  | zero => exact .inl ⟨rfl, fun high most least => by omega⟩
  | succ r ih =>
    unfold down straightScan
    by_cases bit : mask.testBit (r + 1) = true
    · rw [if_pos bit]
      have longer : ∀ k < run + 1, mask.testBit (r + 1 + k) = true := by
        intro k less
        cases k with
        | zero => exact bit
        | succ k => exact (by rw [show r + 1 + (k + 1) = r + 1 + 1 + k by omega]; exact behind k (by omega))
      by_cases five : run + 1 = 5
      · rw [if_pos five]
        refine .inr ⟨by omega, by omega, fun k less => ?_, fun high most _ _ => by omega⟩
        rw [show r + 1 + 4 - k = r + 1 + (4 - k) by omega]
        exact longer _ (by omega)
      rw [if_neg five, show r + 1 + run = r + (run + 1) by omega]
      exact ih (run + 1) (by omega) longer
    rw [if_neg bit]
    -- no five in a row has this bit in it
    have broken : ∀ high ≤ r + 1 + run, r < high → ¬FiveFrom mask high := by
      intro high most above five
      refine bit ?_
      rw [show r + 1 = high - (high - (r + 1)) by omega]
      exact five _ (by omega)
    have rest := ih 0 (by omega) fun k less => absurd less (by omega)
    obtain ⟨zero, none⟩ | ⟨least, most, five, greatest⟩ := rest
    · refine .inl ⟨zero, fun high most least five => ?_⟩
      by_cases above : r < high
      · exact broken high most above five
      exact none high (by omega) least five
    refine .inr ⟨least, by omega, five, fun high bound low five => ?_⟩
    by_cases above : r < high
    · exact absurd five (broken high bound above)
    exact greatest high (by omega) low five

theorem testBit_rankMask (cards : List Card) (v : ℕ) : (rankMask cards).testBit v = true ↔ v ∈ ranks cards := by
  have folded : ∀ mask, (cards.foldl (fun mask c => mask ||| 1 <<< c.v) mask).testBit v = true ↔
      mask.testBit v = true ∨ v ∈ ranks cards := by
    induction cards with
    | nil => simp [ranks]
    | cons c cards ih =>
      intro mask
      rw [foldl_cons, ih, Nat.testBit_or, Nat.one_shiftLeft, Nat.testBit_two_pow, Bool.or_eq_true, decide_eq_true_eq,
        or_assoc, eq_comm (b := v)]
      exact or_congr_right List.mem_cons.symm
  rw [rankMask, folded, Nat.zero_testBit]
  simp

def aceHigh (r : ℕ) : ℕ := if r = 1 then 14 else r

def straightTo (high : ℕ) : List ℕ := [high, high - 1, high - 2, high - 3, high - 4].map aceHigh

theorem straightHigh_highest (cards : List Card) :
    Highest (fun high => straightTo high ⊆ ranks cards) 14 (straightHigh (rankMask cards)) := by
  obtain ⟨mask, low⟩ : ∃ mask, (if (rankMask cards).testBit 14 then rankMask cards ||| 1 <<< 1 else rankMask cards) = mask :=
    ⟨_, rfl⟩
  have bits : ∀ r, 1 ≤ r → (mask.testBit r = true ↔ aceHigh r ∈ ranks cards) := by
    intro r least
    have ace : (rankMask cards).testBit 1 = false := by
      rw [Bool.eq_false_iff, ne_eq, testBit_rankMask]
      exact fun held => absurd (mem_ranksDown.mp (ranks_range held)).1 (by decide)
    rw [← low, aceHigh]
    by_cases one : r = 1
    · subst one
      rw [if_pos rfl, ← testBit_rankMask]
      split
      · rename_i held
        exact iff_of_true (by rw [Nat.testBit_or, ace]; rfl) held
      rename_i none
      exact iff_of_false (by rw [ace]; decide) none
    rw [if_neg one, ← testBit_rankMask]
    have other : (1 <<< 1).testBit r = false := by
      rw [Nat.one_shiftLeft, Nat.testBit_two_pow]
      exact decide_eq_false (Ne.symm one)
    split
    · rw [Nat.testBit_or, other, Bool.or_false]
    exact Iff.rfl
  have fives : ∀ high, 5 ≤ high → (FiveFrom mask high ↔ straightTo high ⊆ ranks cards) := by
    intro high least
    constructor
    · intro five v member
      simp only [straightTo, map_cons, map_nil, mem_cons, not_mem_nil, or_false] at member
      obtain rfl | rfl | rfl | rfl | rfl := member
      · exact (bits _ (by omega)).mp (five 0 (by omega))
      · exact (bits _ (by omega)).mp (five 1 (by omega))
      · exact (bits _ (by omega)).mp (five 2 (by omega))
      · exact (bits _ (by omega)).mp (five 3 (by omega))
      exact (bits _ (by omega)).mp (five 4 (by omega))
    intro held k less
    refine (bits _ (by omega)).mpr (held (mem_map_of_mem ?_))
    interval_cases k <;> simp
  have found := straightScan_highest mask 14 0 (by decide) fun k less => absurd less (by omega)
  unfold straightHigh
  rw [low]
  obtain ⟨zero, none⟩ | ⟨least, most, five, greatest⟩ := found
  · exact .inl ⟨zero, fun high most least held => none high most least ((fives high least).mpr held)⟩
  exact .inr ⟨least, most, (fives _ least).mp five, fun high most' least' held =>
    greatest high most' least' ((fives high least').mpr held)⟩

theorem tier_desc (cards : List Card) (k : ℕ) : (tier cards k).Pairwise (· > ·) := ranksDown_desc.filter _

theorem mem_kickers {without : List ℕ} : v ∈ kickers cards without ↔ v ∈ ranks cards ∧ v ∉ without := by
  rw [kickers, mem_filter, decide_eq_true_eq, mem_ranks]
  exact ⟨And.right, fun h => ⟨ranks_range (mem_ranks.mpr h.1), h⟩⟩

theorem kickers_desc (cards : List Card) (without : List ℕ) : (kickers cards without).Pairwise (· > ·) :=
  ranksDown_desc.filter _

inductive RankPattern : List ℕ → Score → Prop
  | quads {q k : ℕ} (apart : k ≠ q) : RankPattern [q, q, q, q, k] ⟨7, [q, k]⟩
  | fullHouse {t p : ℕ} (apart : p ≠ t) : RankPattern [t, t, t, p, p] ⟨6, [t, p]⟩
  | straight {high : ℕ} (least : 5 ≤ high) (most : high ≤ 14) : RankPattern (straightTo high) ⟨4, [high]⟩
  | trips {t k0 k1 : ℕ} (apart : t ∉ [k0, k1]) (desc : [k0, k1].Pairwise (· > ·)) :
      RankPattern [t, t, t, k0, k1] ⟨3, [t, k0, k1]⟩
  | twoPair {p1 p2 k : ℕ} (apart : k ∉ [p1, p2]) (desc : [p1, p2].Pairwise (· > ·)) :
      RankPattern [p1, p1, p2, p2, k] ⟨2, [p1, p2, k]⟩
  | pair {p k0 k1 k2 : ℕ} (apart : p ∉ [k0, k1, k2]) (desc : [k0, k1, k2].Pairwise (· > ·)) :
      RankPattern [p, p, k0, k1, k2] ⟨1, [p, k0, k1, k2]⟩
  | high {vs : List ℕ} (five : vs.length = 5) (desc : vs.Pairwise (· > ·)) : RankPattern vs ⟨0, vs⟩

inductive SuitPattern : List ℕ → Score → Prop
  | straightFlush {high : ℕ} (least : 5 ≤ high) (most : high ≤ 14) : SuitPattern (straightTo high) ⟨8, [high]⟩
  | flush {vs : List ℕ} (five : vs.length = 5) (desc : vs.Pairwise (· > ·)) : SuitPattern vs ⟨5, vs⟩

def suited (cards : List Card) (suit : Fin 4) : List Card := cards.filter fun c => c.s = suit

inductive Makes (cards : List Card) : Score → Prop
  | ranks {need : List ℕ} {score : Score} (pattern : RankPattern need score) (held : need.Subperm (ranks cards)) :
      Makes cards score
  | suited {need : List ℕ} {score : Score} (suit : Fin 4) (pattern : SuitPattern need score)
      (held : need.Subperm (Holdem.ranks (Holdem.suited cards suit))) : Makes cards score

theorem RankPattern.length (pattern : RankPattern need score) : need.length = 5 := by
  cases pattern with
  | high five => exact five
  | _ => rfl

theorem SuitPattern.length (pattern : SuitPattern need score) : need.length = 5 := by
  cases pattern with
  | straightFlush => rfl
  | flush five => exact five

theorem Makes.mono {fewer : List Card} (made : Makes fewer score) (sub : fewer.Subperm cards) : Makes cards score := by
  cases made with
  | ranks pattern held => exact .ranks pattern (held.trans (map_subperm sub))
  | suited suit pattern held => exact .suited suit pattern (held.trans (map_subperm (sub.filter _)))

theorem Makes.five (made : Makes cards score) :
    ∃ five : List Card, five.Sublist cards ∧ five.length = 5 ∧ Makes five score := by
  cases made with
  | ranks pattern held =>
    obtain ⟨five, sub, perm⟩ := subperm_map held
    refine ⟨five, sub, ?_, .ranks pattern perm.symm.subperm⟩
    rw [← pattern.length, ← perm.length_eq, length_map]
  | suited suit pattern held =>
    obtain ⟨five, sub, perm⟩ := subperm_map held
    have all : Holdem.suited five suit = five := List.filter_eq_self.mpr fun c member => (List.mem_filter.mp (sub.subset member)).2
    refine ⟨five, sub.trans filter_sublist, ?_, .suited suit pattern (all.symm ▸ perm.symm.subperm)⟩
    rw [← pattern.length, ← perm.length_eq, length_map]

end Holdem
