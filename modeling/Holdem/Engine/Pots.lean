import Mathlib.Algebra.Order.BigOperators.Group.Finset
import Mathlib.Tactic.Ring
import Holdem.Engine.Settle

/-!
Pots and payouts. The layers of `_pot_layers` add up to the chips put in, each is contested by somebody,
and what is paid out of a pot adds up to the pot.
-/

namespace Holdem

open Finset List

variable {n : ℕ} {pots : List (Pot n)} {contenders : List (Fin n)} {previous level : ℤ}

structure Pot.Winnable (contenders : List (Fin n)) (pot : Pot n) : Prop where
  amount : 0 ≤ pot.amount
  contested : pot.eligible ≠ []
  eligible : pot.eligible.Sublist contenders

def potsTotal (pots : List (Pot n)) : ℤ := (pots.map Pot.amount).sum

theorem addToLast_total (some : pots ≠ []) (amount : ℤ) :
    potsTotal (addToLast pots amount) = potsTotal pots + amount := by
  obtain ⟨front, last, rfl⟩ := (eq_nil_or_concat' pots).resolve_left some
  simp only [potsTotal, addToLast, getLast?_append, getLast?_singleton, Option.some_or,
    dropLast_concat, map_append, List.map_cons, map_nil, sum_append, List.sum_cons,
    sum_nil]
  omega

theorem addToLast_winnable {amount : ℤ} (positive : 0 ≤ amount) (old : ∀ pot ∈ pots, pot.Winnable contenders) :
    ∀ pot ∈ addToLast pots amount, pot.Winnable contenders := by
  intro pot member
  unfold addToLast at member
  split at member
  · rename_i last found
    rw [mem_append, List.mem_singleton] at member
    obtain front | rfl := member
    · exact old pot (mem_of_mem_dropLast front)
    obtain ⟨held, contested, eligible⟩ := old last (mem_of_getLast? found)
    exact ⟨by dsimp only; omega, contested, eligible⟩
  exact old pot member

section

variable (live : Fin n → ℤ)
include live

theorem slice_nonneg (up : previous ≤ level) : 0 ≤ slice live previous level :=
  Finset.sum_nonneg fun i _ => by omega

theorem addLayer_winnable (up : previous ≤ level) (old : ∀ pot ∈ pots, pot.Winnable contenders) :
    ∀ pot ∈ addLayer live contenders pots previous level, pot.Winnable contenders := by
  have positive := slice_nonneg live up
  unfold addLayer
  dsimp only
  split
  · exact old
  rename_i contested
  have layer : Pot.Winnable contenders
      ⟨slice live previous level, contenders.filter fun seat => level ≤ live seat⟩ :=
    ⟨positive, contested, filter_sublist⟩
  split
  · split
    · exact addToLast_winnable positive old
    intro pot member
    obtain front | last := List.mem_append.mp member
    · exact old pot front
    rwa [List.mem_singleton.mp last]
  intro pot member
  rwa [List.mem_singleton.mp member]

theorem addLayer_total (contenders : List (Fin n)) (pots : List (Pot n)) (up : previous ≤ level) :
    potsTotal (addLayer live contenders pots previous level) ≤ potsTotal pots + slice live previous level := by
  have positive := slice_nonneg live up
  unfold addLayer
  dsimp only
  split
  · omega
  split
  · rename_i last found
    have some : pots ≠ [] := by rintro rfl; cases found
    split
    · rw [addToLast_total some]
    simp [potsTotal]
  rename_i found
  rw [List.getLast?_eq_none_iff.mp found]
  simp [potsTotal]

theorem addLayers_winnable (up : List ℤ) (sorted : (previous :: up).Pairwise (· ≤ ·))
    (old : ∀ pot ∈ pots, pot.Winnable contenders) :
    (∀ pot ∈ addLayers live contenders pots previous up, pot.Winnable contenders) ∧
      potsTotal (addLayers live contenders pots previous up) ≤
        potsTotal pots + ∑ i, (live i - min (live i) previous) := by
  induction up generalizing pots previous with
  | nil =>
    refine ⟨old, ?_⟩
    have : 0 ≤ ∑ i, (live i - min (live i) previous) := Finset.sum_nonneg fun i _ => by omega
    simp only [addLayers]
    omega
  | cons level rest ih =>
    obtain ⟨below, sorted⟩ := List.pairwise_cons.mp sorted
    have up := below level (.head _)
    obtain ⟨winnable, total⟩ := ih sorted (addLayer_winnable live up old)
    refine ⟨winnable, total.trans ?_⟩
    have layer := addLayer_total live contenders pots up
    have telescope : slice live previous level + ∑ i, (live i - min (live i) level) =
        ∑ i, (live i - min (live i) previous) := by
      rw [slice, ← sum_add_distrib]
      exact sum_congr rfl fun i _ => by omega
    omega

theorem levels_sorted : (0 :: levels live).Pairwise (· ≤ ·) := by
  refine List.pairwise_cons.mpr ⟨fun level member => ?_, pairwise_sort _ _⟩
  rw [levels, mem_sort, Finset.mem_filter] at member
  omega

end

theorem mainPot_total (deadTotal : ℤ) (contenders : List (Fin n)) :
    potsTotal (mainPot deadTotal contenders) = deadTotal := by
  unfold mainPot
  split
  · simp [potsTotal]
  simp only [potsTotal, map_nil, sum_nil]
  omega

theorem balancePots_total (total : ℤ) (contenders : List (Fin n)) (pots : List (Pot n)) :
    potsTotal (balancePots total contenders pots) = total := by
  unfold balancePots
  dsimp only
  split
  · split
    · rename_i some
      rw [addToLast_total some, potsTotal]
      omega
    rename_i none
    rw [not_not.mp none]
    simp [potsTotal]
  rw [potsTotal]
  omega

theorem balancePots_winnable {total : ℤ} (alive : contenders ≠ []) (short : potsTotal pots ≤ total)
    (old : ∀ pot ∈ pots, pot.Winnable contenders) :
    ∀ pot ∈ balancePots total contenders pots, pot.Winnable contenders := by
  rw [potsTotal] at short
  unfold balancePots
  dsimp only
  split
  · split
    · exact addToLast_winnable (by omega) old
    intro pot member
    rw [List.mem_singleton.mp member]
    exact ⟨by dsimp only; omega, alive, List.Sublist.refl _⟩
  exact old

theorem potLayers_total (live dead : Fin n → ℤ) (contenders : List (Fin n)) :
    potsTotal (potLayers live dead contenders) = ∑ i, live i + ∑ i, dead i :=
  balancePots_total _ _ _

theorem potLayers_winnable {live dead : Fin n → ℤ} (alive : contenders ≠ [])
    (lives : ∀ i, 0 ≤ live i) (deads : ∀ i, 0 ≤ dead i) :
    ∀ pot ∈ potLayers live dead contenders, pot.Winnable contenders := by
  have main : ∀ pot ∈ mainPot (∑ i, dead i) contenders, pot.Winnable contenders := by
    intro pot member
    unfold mainPot at member
    split at member
    · rw [List.mem_singleton.mp member]
      have positive : 0 ≤ ∑ i, dead i := Finset.sum_nonneg fun i _ => deads i
      exact ⟨positive, alive, List.Sublist.refl _⟩
    cases member
  obtain ⟨layers, total⟩ := addLayers_winnable live (levels live) (levels_sorted live) main
  have stakes : ∑ i, (live i - min (live i) 0) = ∑ i, live i := sum_congr rfl fun i _ => by have := lives i; omega
  rw [mainPot_total, stakes] at total
  exact balancePots_winnable alive (by omega) layers

namespace Engine

theorem oddChips_total {winners : List (Fin n)} (walk : List (Fin n)) {rem : ℤ} (paid : Fin n → ℤ)
    (positive : 0 ≤ rem) (enough : rem ≤ (walk.filter (· ∈ winners)).length) :
    ∑ i, oddChips winners walk rem paid i = ∑ i, paid i + rem := by
  induction walk generalizing rem paid with
  | nil =>
    simp only [filter_nil, length_nil, Nat.cast_zero] at enough
    simp only [oddChips]
    omega
  | cons j rest ih =>
    unfold oddChips
    split
    · omega
    split
    · rename_i left wins
      rw [ih _ (by omega) (by simp only [List.filter_cons, decide_true, wins] at enough; simp at enough; omega)]
      rw [sum_update_of_mem (mem_univ j), ← add_sum_erase _ paid (mem_univ j)]
      rw [sdiff_singleton_eq_erase]
      omega
    rename_i left wins
    exact ih paid positive (by simpa [List.filter_cons, wins] using enough)

theorem oddChips_bounds {winners : List (Fin n)} (walk : List (Fin n)) (rem : ℤ) (paid : Fin n → ℤ) (i : Fin n) :
    paid i ≤ oddChips winners walk rem paid i ∧ (i ∉ winners → oddChips winners walk rem paid i = paid i) := by
  induction walk generalizing rem paid with
  | nil => exact ⟨le_refl _, fun _ => rfl⟩
  | cons j rest ih =>
    unfold oddChips
    split
    · exact ⟨le_refl _, fun _ => rfl⟩
    split
    · rename_i left wins
      obtain ⟨more, same⟩ := ih (rem - 1) (Function.update paid j (paid j + 1))
      by_cases here : i = j
      · subst here
        rw [Function.update_self] at more
        exact ⟨by omega, fun loses => absurd wins loses⟩
      rw [Function.update_of_ne here] at more same
      exact ⟨more, same⟩
    exact ih rem paid

variable {winners : List (Fin n)} {amount : ℤ} {nruns : ℕ}

theorem payouts_total (e : Engine n) (some : winners ≠ []) (distinct : winners.Nodup) :
    ∑ i, e.payouts winners amount i = amount := by
  have length : 0 < winners.length := length_pos_of_ne_nil some
  have met : ((Circle.lap (Circle.step e.button 1)).filter (· ∈ winners)).length = winners.length := by
    rw [← countP_eq_length_filter, (Circle.lap_perm _).countP_eq, countP_eq_length_filter]
    refine List.Perm.length_eq ((perm_ext_iff_of_nodup ?_ distinct).mpr fun i => ?_)
    · exact (nodup_finRange n).filter _
    simp
  have even : ∑ i, (if i ∈ winners then amount / (winners.length : ℤ) else 0) =
      winners.length * (amount / winners.length) := by
    rw [← sum_filter, sum_const, nsmul_eq_mul]
    congr 2
    rw [← toFinset_card_of_nodup distinct]
    congr 1
    ext i
    simp
  unfold payouts
  rw [oddChips_total, even]
  · exact Int.mul_ediv_add_emod amount winners.length
  · exact Int.emod_nonneg _ (by omega)
  rw [met]
  exact le_of_lt (Int.emod_lt_of_pos _ (by omega))

theorem payouts_nonneg (e : Engine n) (positive : 0 ≤ amount) (i : Fin n) : 0 ≤ e.payouts winners amount i := by
  refine le_trans ?_ (oddChips_bounds _ _ _ i).1
  split
  · exact Int.ediv_nonneg positive (Int.natCast_nonneg _)
  exact le_refl 0

theorem payouts_loser (e : Engine n) {i : Fin n} (loses : i ∉ winners) : e.payouts winners amount i = 0 := by
  rw [payouts, (oddChips_bounds _ _ _ i).2 loses, if_neg loses]

theorem runShares_total (amount : ℤ) (some : 0 < nruns) : (runShares amount nruns).sum = amount := by
  obtain ⟨k, rfl⟩ : ∃ k, nruns = k + 1 := ⟨nruns - 1, by omega⟩
  simp only [runShares, List.sum_cons, sum_replicate, nsmul_eq_mul]
  push_cast
  ring

theorem runShares_nonneg (positive : 0 ≤ amount) : ∀ share ∈ runShares amount nruns, 0 ≤ share := by
  have each : 0 ≤ amount / (nruns : ℤ) := Int.ediv_nonneg positive (Int.natCast_nonneg _)
  intro share member
  cases nruns with
  | zero => cases member
  | succ k =>
    have whole : ((k + 1 : ℕ) : ℤ) * (amount / ((k + 1 : ℕ) : ℤ)) ≤ amount := Int.mul_ediv_self_le (by omega)
    simp only [runShares, List.mem_cons, mem_replicate] at member
    obtain rfl | ⟨-, rfl⟩ := member
    · omega
    exact each

theorem runShares_length (amount : ℤ) (nruns : ℕ) : (runShares amount nruns).length = nruns := by
  cases nruns <;> simp [runShares]

end Engine

end Holdem
