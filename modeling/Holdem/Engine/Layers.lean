import Holdem.Engine.Pots

/-!
The closed form of `_pot_layers`. While the loop climbs the levels, the pots a contender may win hold
the dead money and every stake up to its own. Stakes above every contender join the last pot.
-/

namespace Holdem

open Finset List

variable {n : ℕ} {live : Fin n → ℤ} {contenders : List (Fin n)} {pots : List (Pot n)} {dead : Fin n → ℤ}

def claimOn (pots : List (Pot n)) (i : Fin n) : ℤ :=
  (pots.map fun pot => if i ∈ pot.eligible then pot.amount else 0).sum

def Narrows (wide narrow : List (Fin n)) : Prop := narrow.toFinset ⊂ wide.toFinset

theorem claimOn_concat (pots : List (Pot n)) (pot : Pot n) (i : Fin n) :
    claimOn (pots ++ [pot]) i = claimOn pots i + if i ∈ pot.eligible then pot.amount else 0 := by
  simp [claimOn]

theorem split_last {last : Pot n} (found : pots.getLast? = some last) : ∃ front, pots = front ++ [last] :=
  ⟨pots.dropLast, (dropLast_append_getLast? last found).symm⟩

theorem addToLast_concat (front : List (Pot n)) (last : Pot n) (amount : ℤ) :
    addToLast (front ++ [last]) amount = front ++ [{ last with amount := last.amount + amount }] := by
  simp [addToLast]

/-- The pots once the levels up to `reached` are done, the highest contender's stake being `top`. -/
structure Layered (live : Fin n → ℤ) (contenders : List (Fin n)) (deadTotal top reached : ℤ)
    (pots : List (Pot n)) : Prop where
  positive : ∀ pot ∈ pots, 0 < pot.amount
  total : potsTotal pots = deadTotal + ∑ j, min (live j) (min reached top)
  nested : (pots.map Pot.eligible).IsChain Narrows
  last : ∀ pot ∈ pots.getLast?, pot.eligible = contenders.filter fun i => min reached top ≤ live i
  empty : pots = [] → min reached top ≤ 0
  claims : ∀ i ∈ contenders, claimOn pots i = deadTotal + ∑ j, min (live j) (min reached (live i))

theorem slice_pos {previous level : ℤ} (up : previous < level) {j : Fin n} (stake : live j = level) :
    0 < slice live previous level :=
  sum_pos' (fun i _ => by omega) ⟨j, mem_univ j, by omega⟩

theorem slice_telescopes (live : Fin n → ℤ) (previous level : ℤ) :
    ∑ j, min (live j) previous + slice live previous level = ∑ j, min (live j) level := by
  rw [slice, ← sum_add_distrib]
  exact sum_congr rfl fun j _ => by omega

theorem filter_narrows {low high : ℤ} (up : low ≤ high)
    (other : contenders.filter (fun i => low ≤ live i) ≠ contenders.filter fun i => high ≤ live i) :
    Narrows (contenders.filter fun i => low ≤ live i) (contenders.filter fun i => high ≤ live i) := by
  refine Finset.ssubset_iff_subset_ne.mpr ⟨fun i member => ?_, fun same => other ?_⟩
  · simp only [mem_toFinset, List.mem_filter, decide_eq_true_eq] at member ⊢
    exact ⟨member.1, by omega⟩
  refine List.filter_congr fun i member => ?_
  have alike := Finset.ext_iff.mp same i
  simp only [mem_toFinset, List.mem_filter, member, true_and, decide_eq_true_eq] at alike
  simp [alike]

section Step

variable {deadTotal top previous level : ℤ} (between : ∀ i, live i ≤ previous ∨ level ≤ live i)

include between

theorem layered_skip (reached : ∃ i ∈ contenders, live i = top)
    (layered : Layered live contenders deadTotal top previous pots)
    (nobody : ∀ i ∈ contenders, live i < level) : Layered live contenders deadTotal top level pots := by
  obtain ⟨i, member, stake⟩ := reached
  have below := nobody i member
  have same : min level top = min previous top := by
    have := between i
    omega
  refine ⟨layered.positive, same ▸ layered.total, layered.nested, same ▸ layered.last, same ▸ layered.empty,
    fun j contends => ?_⟩
  have same : min level (live j) = min previous (live j) := by
    have := between j
    have := nobody j contends
    omega
  rw [same]
  exact layered.claims j contends

theorem claims_level (up : previous < level) (i : Fin n) :
    ∑ j, min (live j) (min previous (live i)) + (if level ≤ live i then slice live previous level else 0) =
      ∑ j, min (live j) (min level (live i)) := by
  split
  · rename_i stake
    rw [min_eq_left (by omega : previous ≤ live i), min_eq_left stake]
    exact slice_telescopes live previous level
  rename_i out
  have := between i
  rw [min_eq_right (by omega : live i ≤ previous), min_eq_right (by omega : live i ≤ level), add_zero]

theorem layered_add (up : previous < level) (reached : ∃ i ∈ contenders, live i = top)
    (layered : Layered live contenders deadTotal top previous pots)
    (positive : 0 < slice live previous level) (somebody : level ≤ top) :
    Layered live contenders deadTotal top level (addLayer live contenders pots previous level) := by
  have now : min level top = level := min_eq_left somebody
  have before : min previous top = previous := min_eq_left (by omega)
  have grown := layered.total
  have wide := layered.last
  rw [before] at grown wide
  have telescope := slice_telescopes live previous level
  have claims : ∀ i ∈ contenders, claimOn pots i + (if level ≤ live i then slice live previous level else 0) =
      deadTotal + ∑ j, min (live j) (min level (live i)) := fun i contends => by
    have level := claims_level between up i
    rw [layered.claims i contends]
    omega
  have eligible : ∀ i ∈ contenders, (i ∈ contenders.filter (fun i => level ≤ live i) ↔ level ≤ live i) :=
    fun i contends => by simp [contends]
  have contested : contenders.filter (fun seat => level ≤ live seat) ≠ [] := by
    obtain ⟨i, member, stake⟩ := reached
    exact ne_nil_of_mem ((eligible i member).mpr (by omega))
  unfold addLayer
  rw [if_neg contested]
  split
  · rename_i last found
    obtain ⟨front, rfl⟩ := split_last found
    have old := wide last found
    split
    · -- the same seats contend: the slice joins their pot
      rename_i same
      rw [addToLast_concat]
      refine ⟨fun pot member => ?_, ?_, ?_, fun pot final => ?_, by simp, fun i contends => ?_⟩
      · obtain early | final := List.mem_append.mp member
        · exact layered.positive pot (mem_append_left _ early)
        have := layered.positive last (by simp)
        rw [List.mem_singleton.mp final]
        exact add_pos this positive
      · rw [now]
        simp only [potsTotal, map_append, sum_append, List.map_cons, map_nil, List.sum_cons, sum_nil] at grown ⊢
        omega
      · simpa using layered.nested
      · rw [now]
        obtain rfl : { last with amount := last.amount + slice live previous level } = pot := by simpa using final
        exact same
      have mine := claims i contends
      rw [claimOn_concat] at mine ⊢
      rw [same] at mine ⊢
      simp only [eligible i contends] at mine ⊢
      split_ifs at mine ⊢ <;> omega
    -- a seat is at its last chip below this level: a pot without it
    rename_i fewer
    refine ⟨fun pot member => ?_, ?_, ?_, fun pot final => ?_, by simp, fun i contends => ?_⟩
    · obtain early | final := List.mem_append.mp member
      · exact layered.positive pot early
      rw [List.mem_singleton.mp final]
      exact positive
    · rw [now]
      simp only [potsTotal, map_append, sum_append, List.map_cons, map_nil, List.sum_cons, sum_nil] at grown ⊢
      omega
    · rw [map_append]
      refine List.isChain_append.mpr ⟨layered.nested, by simp, ?_⟩
      intro wider first narrower second
      obtain rfl : last.eligible = wider := by simpa using first
      obtain rfl : _ = narrower := by simpa using second
      rw [old] at fewer ⊢
      exact filter_narrows (le_of_lt up) fewer
    · rw [now]
      obtain rfl : _ = pot := by simpa using final
      rfl
    rw [claimOn_concat]
    simp only [eligible i contends]
    exact claims i contends
  rename_i none
  obtain rfl := List.getLast?_eq_none_iff.mp none
  refine ⟨by simpa using positive, ?_, by simp, fun pot final => ?_, by simp, fun i contends => ?_⟩
  · rw [now]
    simp only [potsTotal, map_nil, sum_nil, List.map_cons, List.sum_cons] at grown ⊢
    omega
  · rw [now]
    obtain rfl : _ = pot := by simpa using final
    rfl
  rw [← nil_append [_], claimOn_concat]
  simp only [eligible i contends]
  exact claims i contends

theorem addLayer_layered (up : previous < level) (highest : ∀ i ∈ contenders, live i ≤ top)
    (reached : ∃ i ∈ contenders, live i = top) (stake : ∃ j, live j = level)
    (layered : Layered live contenders deadTotal top previous pots) :
    Layered live contenders deadTotal top level (addLayer live contenders pots previous level) := by
  obtain ⟨j, stake⟩ := stake
  by_cases somebody : level ≤ top
  · exact layered_add between up reached layered (slice_pos up stake) somebody
  have nobody : ∀ i ∈ contenders, live i < level := fun i contends => by
    have := highest i contends
    omega
  have none : contenders.filter (fun seat => level ≤ live seat) = [] :=
    List.filter_eq_nil_iff.mpr fun i contends => by simpa using nobody i contends
  unfold addLayer
  rw [if_pos none]
  exact layered_skip between reached layered nobody

end Step

section Climb

variable {deadTotal top : ℤ} (highest : ∀ i ∈ contenders, live i ≤ top)
  (reached : ∃ i ∈ contenders, live i = top)

include highest reached

theorem addLayers_layered (up : List ℤ) {previous : ℤ} (sorted : (previous :: up).Pairwise (· < ·))
    (rest : ∀ i, live i ≤ previous ∨ live i ∈ up) (stakes : ∀ level ∈ up, ∃ j, live j = level)
    (layered : Layered live contenders deadTotal top previous pots) :
    ∃ last, (∀ i, live i ≤ last) ∧
      Layered live contenders deadTotal top last (addLayers live contenders pots previous up) := by
  induction up generalizing previous pots with
  | nil => exact ⟨previous, fun i => (rest i).resolve_right not_mem_nil, layered⟩
  | cons level up ih =>
    obtain ⟨below, sorted⟩ := List.pairwise_cons.mp sorted
    have above := (List.pairwise_cons.mp sorted).1
    have between : ∀ i, live i ≤ previous ∨ level ≤ live i := fun i => by
      obtain low | member := rest i
      · exact Or.inl low
      obtain here | later := List.mem_cons.mp member
      · exact Or.inr (le_of_eq here.symm)
      exact Or.inr (le_of_lt (above _ later))
    refine ih sorted (fun i => ?_) (fun l later => stakes l (.tail _ later))
      (addLayer_layered between (below level (.head _)) highest reached
        (stakes level (.head _)) layered)
    obtain low | member := rest i
    · exact Or.inl (le_trans low (le_of_lt (below level (.head _))))
    obtain here | later := List.mem_cons.mp member
    · exact Or.inl (le_of_eq here)
    exact Or.inr later

omit highest reached in
theorem mem_levels {level : ℤ} : level ∈ levels live ↔ (∃ i, live i = level) ∧ 0 < level := by
  simp [levels]

omit highest reached in
theorem levels_rise (live : Fin n → ℤ) : (0 :: levels live).Pairwise (· < ·) :=
  List.pairwise_cons.mpr ⟨fun _ member => (mem_levels.mp member).2, sortedLT_sort _ |>.pairwise⟩

omit highest reached in
theorem levels_eq {xs : List ℤ} (rising : xs.Pairwise (· < ·)) (stakes : ∀ x ∈ xs, 0 < x ∧ ∃ i, live i = x)
    (all : ∀ i, 0 < live i → live i ∈ xs) : levels live = xs := by
  refine List.Pairwise.eq_of_mem_iff (List.pairwise_cons.mp (levels_rise live)).2 rising fun x => ?_
  rw [mem_levels]
  constructor
  · rintro ⟨⟨i, rfl⟩, some⟩
    exact all i some
  intro member
  exact ⟨(stakes x member).2, (stakes x member).1⟩

omit highest in
theorem mainPot_layered (lives : ∀ i, 0 ≤ live i) (dead : 0 ≤ deadTotal) :
    Layered live contenders deadTotal top 0 (mainPot deadTotal contenders) := by
  obtain ⟨i, member, stake⟩ := reached
  have bottom : min 0 top = 0 := min_eq_left (stake ▸ lives i)
  have nothing : ∀ low ≤ (0 : ℤ), 0 ≤ low → ∑ j, min (live j) low = 0 := fun low most least =>
    Finset.sum_eq_zero fun j _ => by
      have := lives j
      omega
  have total := mainPot_total deadTotal contenders
  have everybody : contenders = contenders.filter fun i => (0 : ℤ) ≤ live i :=
    (List.filter_eq_self.mpr fun j _ => by simpa using lives j).symm
  unfold mainPot at total ⊢
  split
  · rename_i some
    rw [if_pos some] at total
    refine ⟨?_, ?_, by simp, fun pot final => ?_, by simp, fun j contends => ?_⟩
    · simp only [List.mem_singleton, forall_eq]
      omega
    · rw [total, bottom, nothing 0 (le_refl 0) (le_refl 0), add_zero]
    · obtain rfl : _ = pot := by simpa using final
      rw [bottom]
      exact everybody
    rw [min_eq_left (lives j), nothing 0 (le_refl 0) (le_refl 0)]
    simp [claimOn, contends]
  rename_i none
  obtain rfl := not_not.mp none
  refine ⟨by simp, ?_, by simp, by simp, fun _ => le_of_eq bottom, fun j contends => ?_⟩
  · rw [bottom, nothing 0 (le_refl 0) (le_refl 0)]
    rfl
  rw [min_eq_left (lives j), nothing 0 (le_refl 0) (le_refl 0)]
  rfl

end Climb

/-- What `_pot_layers` returns: nested pots that hold every chip, and the closed form of what each
contender may win. -/
structure Layering (live dead : Fin n → ℤ) (contenders : List (Fin n)) (pots : List (Pot n)) : Prop where
  positive : ∀ pot ∈ pots, 0 < pot.amount
  nested : (pots.map Pot.eligible).IsChain Narrows
  claims : ∀ i ∈ contenders, claimOn pots i = ∑ j, dead j + ∑ j, min (live j) (live i) +
    if ∀ k ∈ contenders, live k ≤ live i then ∑ j, max 0 (live j - live i) else 0

theorem balancePots_layering {top last : ℤ} (lives : ∀ i, 0 ≤ live i)
    (highest : ∀ i ∈ contenders, live i ≤ top) (reached : ∃ i ∈ contenders, live i = top)
    (done : ∀ i, live i ≤ last) (layered : Layered live contenders (∑ i, dead i) top last pots) :
    Layering live dead contenders (balancePots (∑ i, live i + ∑ i, dead i) contenders pots) := by
  obtain ⟨best, contends, stake⟩ := reached
  have ceiling : min last top = top := min_eq_right (stake ▸ done best)
  have total := layered.total
  have final := layered.last
  have empty := layered.empty
  rw [ceiling] at total final empty
  have rest : ∑ j, live j - ∑ j, min (live j) top = ∑ j, max 0 (live j - top) := by
    rw [← sum_sub_distrib]
    exact sum_congr rfl fun j _ => by omega
  have excess : 0 ≤ ∑ j, max 0 (live j - top) := Finset.sum_nonneg fun j _ => le_max_left _ _
  have claims : ∀ i ∈ contenders, claimOn pots i = ∑ j, dead j + ∑ j, min (live j) (live i) :=
    fun i member => by rw [layered.claims i member, min_eq_right (done i)]
  have highs : ∀ i ∈ contenders, ((∀ k ∈ contenders, live k ≤ live i) ↔ top ≤ live i) := fun i member =>
    ⟨fun most => stake ▸ most best contends, fun most k other => le_trans (highest k other) most⟩
  -- a contender among the highest has exactly the highest stake
  have tops : ∀ i ∈ contenders, top ≤ live i → ∑ j, max 0 (live j - live i) = ∑ j, max 0 (live j - top) :=
    fun i member most => by rw [le_antisymm (highest i member) most]
  have remains : ∑ i, live i + ∑ i, dead i - (pots.map Pot.amount).sum = ∑ j, max 0 (live j - top) := by
    rw [potsTotal] at total
    omega
  unfold balancePots
  dsimp only
  rw [remains]
  split
  · rename_i left
    split
    · rename_i some
      obtain ⟨front, pot, rfl⟩ := (eq_nil_or_concat' pots).resolve_left some
      have eligible := final pot (by simp)
      rw [addToLast_concat]
      refine ⟨fun other member => ?_, by simpa using layered.nested, fun i member => ?_⟩
      · obtain early | late := List.mem_append.mp member
        · exact layered.positive other (mem_append_left _ early)
        have := layered.positive pot (by simp)
        rw [List.mem_singleton.mp late]
        dsimp only
        omega
      have mine := claims i member
      rw [claimOn_concat] at mine ⊢
      dsimp only
      rw [eligible] at mine ⊢
      simp only [List.mem_filter, member, true_and, decide_eq_true_eq, highs i member] at mine ⊢
      split_ifs at mine ⊢ with most
      · rw [tops i member most]
        omega
      omega
    rename_i none
    obtain rfl := not_not.mp none
    have low := empty rfl
    refine ⟨by simp only [List.mem_singleton, forall_eq]; omega, by simp, fun i member => ?_⟩
    have most : top ≤ live i := le_trans low (lives i)
    rw [← nil_append [_], claimOn_concat, if_pos member, if_pos ((highs i member).mpr most), claims i member,
      tops i member most]
  rename_i none
  refine ⟨layered.positive, layered.nested, fun i member => ?_⟩
  rw [claims i member]
  split_ifs with most
  · rw [tops i member ((highs i member).mp most), not_not.mp none, add_zero]
  rw [add_zero]

theorem potLayers_layering (lives : ∀ i, 0 ≤ live i) (deads : ∀ i, 0 ≤ dead i)
    (alive : contenders ≠ []) : Layering live dead contenders (potLayers live dead contenders) := by
  obtain ⟨best, contends, highest⟩ := contenders.toFinset.exists_max_image live (by simpa using alive)
  rw [mem_toFinset] at contends
  have highest : ∀ i ∈ contenders, live i ≤ live best := fun i member => highest i (List.mem_toFinset.mpr member)
  have reached : ∃ i ∈ contenders, live i = live best := ⟨best, contends, rfl⟩
  have pool : 0 ≤ ∑ i, dead i := Finset.sum_nonneg fun i _ => deads i
  have started := mainPot_layered reached lives pool
  obtain ⟨last, done, layered⟩ := addLayers_layered highest reached (levels live) (levels_rise live)
    (fun i => (le_or_gt (live i) 0).imp id fun some => mem_levels.mpr ⟨⟨i, rfl⟩, some⟩)
    (fun level member => (mem_levels.mp member).1) started
  exact balancePots_layering lives highest reached done layered

theorem potLayers_closed_form (live dead : Fin n → ℤ) (contenders : List (Fin n)) (lives : ∀ i, 0 ≤ live i)
    (deads : ∀ i, 0 ≤ dead i) (alive : contenders ≠ []) :
    let pots := potLayers live dead contenders
    (∀ pot ∈ pots, 0 < pot.amount) ∧
    (pots.map Pot.amount).sum = ∑ i, live i + ∑ i, dead i ∧
    (∀ pot ∈ pots, pot.eligible ≠ [] ∧ pot.eligible.Sublist contenders) ∧
    (pots.map Pot.eligible).IsChain (fun wide narrow => narrow.toFinset ⊂ wide.toFinset) ∧
    ∀ i ∈ contenders, claimOn pots i =
      ∑ j, dead j + ∑ j, min (live j) (live i) +
        if ∀ k ∈ contenders, live k ≤ live i then ∑ j, max 0 (live j - live i) else 0 := by
  have layering := potLayers_layering lives deads alive
  refine ⟨layering.positive, potLayers_total live dead contenders, fun pot member => ?_, layering.nested, layering.claims⟩
  obtain ⟨-, contested, eligible⟩ := potLayers_winnable alive lives deads pot member
  exact ⟨contested, eligible⟩

theorem potLayers_closed_form_three :
    claimOn (potLayers (![2, 5, 9] : Fin 3 → ℤ) ![1, 1, 1] [0, 1, 2]) 1 = 3 + (2 + 5 + 5) :=
  ((potLayers_closed_form ![2, 5, 9] ![1, 1, 1] [0, 1, 2] (by decide) (by decide)
    (by decide)).2.2.2.2 1 (by decide)).trans (by decide)

end Holdem
