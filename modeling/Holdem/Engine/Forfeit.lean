import Holdem.Engine.Pots
import Holdem.Engine.Chips

/-!
`settle_forfeit`: a hand that stops because a player left. The leaver forfeits every chip it put in, and
the seats left in the hand share each pot they are in.
-/

namespace Holdem

open Finset

variable {n : ℕ}

structure Forfeit (n : ℕ) where
  chips : Fin n → ℤ
  refund : Option (Fin n × ℤ)
  pots : List (Pot n × (Fin n → ℤ))

namespace Forfeit

/-- The seat and the size of an uncalled live bet, as step 1 of `settle` finds it. -/
def uncalled (live : Fin n → ℤ) : Option (Fin n × ℤ) :=
  match (((List.finRange n).map live).filter fun x => 0 < x).insertionSort (· ≥ ·) with
  | top :: second :: _ =>
    if second < top then
      match (List.finRange n).filter fun i => live i = top with
      | [i] => some (i, top - second)
      | _ => none
    else none
  | _ => none

def giveBack : Option (Fin n × ℤ) → (Fin n → ℤ) → (Fin n → ℤ)
  | some (seat, back), counts => Function.update counts seat (counts seat + back)
  | none, counts => counts

def takeOut : Option (Fin n × ℤ) → (Fin n → ℤ) → (Fin n → ℤ)
  | some (seat, back), counts => Function.update counts seat (counts seat - back)
  | none, counts => counts

def shares (button : Fin n) (eligible : List (Fin n)) (amount : ℤ) : Fin n → ℤ :=
  Engine.oddChips eligible (Circle.lap (Circle.step button 1)) (amount % eligible.length)
    fun i => if i ∈ eligible then amount / eligible.length else 0

/-- `sorted(set(in_hand) - {dropped})`. -/
def left (inHand : List (Fin n)) (dropped : Fin n) : List (Fin n) :=
  (List.finRange n).filter fun i => i ∈ inHand ∧ i ≠ dropped

end Forfeit

open Forfeit

def settleForfeit (chips live dead : Fin n → ℤ) (inHand : List (Fin n)) (dropped button : Fin n) :
    Except PyError (Forfeit n) :=
  if ∃ i, chips i < 0 ∨ live i < 0 ∨ dead i < 0 then .error (.valueError "chip counts cannot be negative")
  else if left inHand dropped = [] then
    .error (.valueError ("no seat but " ++ toString dropped.val ++
      " is in the hand; settle() pays a hand betting has already decided"))
  else
    -- the dropper forfeits its uncalled raise; another seat's comes back before the layers are built
    let refund := (uncalled live).filter fun back => back.1 ≠ dropped
    let pots := (potLayers (takeOut refund live) dead (left inHand dropped)).map fun pot =>
      (pot, shares button pot.eligible pot.amount)
    .ok ⟨fun i => giveBack refund chips i + (pots.map fun pot => pot.2 i).sum, refund, pots⟩

namespace Forfeit

variable {chips live dead : Fin n → ℤ} {inHand : List (Fin n)} {dropped button : Fin n} {out : Forfeit n}

theorem mem_left {i : Fin n} : i ∈ left inHand dropped ↔ i ∈ inHand ∧ i ≠ dropped := by
  simp [left]

theorem left_nodup (inHand : List (Fin n)) (dropped : Fin n) : (left inHand dropped).Nodup :=
  (List.nodup_finRange n).filter _

def staked (live : Fin n → ℤ) (button : Fin n) : Engine n :=
  { Engine.init (fun _ => 0) button 0 0 .noLimit false false with
    players := fun i => { stack := 0, totalLive := live i } }

theorem uncalled_staked (live : Fin n → ℤ) (button : Fin n) : (staked live button).uncalled = uncalled live := rfl

theorem takeOut_nonneg (lives : ∀ i, 0 ≤ live i) {refund : Option (Fin n × ℤ)}
    (found : ∀ back ∈ refund, uncalled live = some back) (i : Fin n) : 0 ≤ takeOut refund live i := by
  cases refund with
  | none => exact lives i
  | some back =>
    obtain ⟨seat, back⟩ := back
    have bound := Engine.uncalled_bounds ((uncalled_staked live i).trans (found _ rfl))
    have most : back ≤ live seat := bound.2
    simp only [takeOut, Function.update_apply]
    split
    · omega
    exact lives i

theorem back_total (refund : Option (Fin n × ℤ)) (chips live : Fin n → ℤ) :
    ∑ i, giveBack refund chips i + ∑ i, takeOut refund live i = ∑ i, chips i + ∑ i, live i := by
  cases refund with
  | none => rfl
  | some back =>
    obtain ⟨seat, back⟩ := back
    simp only [giveBack, takeOut, sum_update_of_mem (mem_univ seat)]
    rw [← add_sum_erase _ chips (mem_univ seat), ← add_sum_erase _ live (mem_univ seat), sdiff_singleton_eq_erase]
    ring

theorem shares_total (button : Fin n) {pots : List (Pot n)} (contested : ∀ pot ∈ pots, pot.eligible ≠ [])
    (distinct : ∀ pot ∈ pots, pot.eligible.Nodup) :
    ∑ i, (pots.map fun pot => shares button pot.eligible pot.amount i).sum = potsTotal pots := by
  induction pots with
  | nil => simp [potsTotal]
  | cons pot rest ih =>
    have paid : ∑ i, shares button pot.eligible pot.amount i = pot.amount :=
      Engine.payouts_total (staked (fun _ => 0) button) (contested pot (.head _)) (distinct pot (.head _))
    have others := ih (fun p member => contested p (.tail _ member))
      fun p member => distinct p (.tail _ member)
    simp only [List.map_cons, List.sum_cons, sum_add_distrib, potsTotal] at others ⊢
    rw [paid, others]

structure Settled (chips live dead : Fin n → ℤ) (inHand : List (Fin n)) (dropped button : Fin n) (out : Forfeit n)
    (refund : Option (Fin n × ℤ)) (pots : List (Pot n)) : Prop where
  kept : ∀ back ∈ refund, back.1 ≠ dropped
  layers : pots = potLayers (takeOut refund live) dead (left inHand dropped)
  winnable : ∀ pot ∈ pots, pot.Winnable (left inHand dropped)
  paid : ∀ i, out.chips i = giveBack refund chips i + (pots.map fun pot => shares button pot.eligible pot.amount i).sum

section

variable (settled : settleForfeit chips live dead inHand dropped button = .ok out)
include settled

theorem settleForfeit_settled : ∃ refund pots, Settled chips live dead inHand dropped button out refund pots := by
  unfold settleForfeit at settled
  split at settled
  · cases settled
  rename_i counts
  split at settled
  · cases settled
  rename_i some
  cases settled
  have lives : ∀ i, 0 ≤ live i := fun i => by
    by_contra low
    exact counts ⟨i, by omega⟩
  have deads : ∀ i, 0 ≤ dead i := fun i => by
    by_contra low
    exact counts ⟨i, by omega⟩
  let refund := (uncalled live).filter fun back => back.1 ≠ dropped
  have found : ∀ back ∈ refund, uncalled live = Option.some back ∧ back.1 ≠ dropped := fun back member => by
    simpa using Option.filter_eq_some_iff.mp member
  refine ⟨refund, _, fun back member => (found back member).2, rfl,
    potLayers_winnable some (takeOut_nonneg lives fun back member => (found back member).1) deads, fun i => ?_⟩
  dsimp only
  rw [List.map_map]
  rfl

theorem settleForfeit_total : ∑ i, out.chips i = ∑ i, chips i + ∑ i, live i + ∑ i, dead i := by
  obtain ⟨refund, pots, h⟩ := settleForfeit_settled settled
  have back := back_total refund chips live
  have total := potLayers_total (takeOut refund live) dead (left inHand dropped)
  have paid := shares_total button (fun pot member => (h.winnable pot member).contested)
    fun pot member => (h.winnable pot member).eligible.nodup (left_nodup _ _)
  rw [← h.layers] at total
  calc ∑ i, out.chips i = ∑ i, giveBack refund chips i + potsTotal pots := by
        rw [sum_congr rfl fun i _ => h.paid i, sum_add_distrib, paid]
    _ = ∑ i, chips i + ∑ i, live i + ∑ i, dead i := by omega

theorem settleForfeit_dropped : out.chips dropped = chips dropped := by
  obtain ⟨refund, pots, h⟩ := settleForfeit_settled settled
  have back : giveBack refund chips dropped = chips dropped := by
    cases refund with
    | none => rfl
    | some back => exact Function.update_of_ne (h.kept back rfl).symm _ _
  rw [h.paid, back, List.sum_eq_zero, add_zero]
  intro share member
  obtain ⟨pot, there, rfl⟩ := List.mem_map.mp member
  refine Engine.payouts_loser (staked live button) fun wins => ?_
  exact (mem_left.mp ((h.winnable pot there).eligible.subset wins)).2 rfl

end

end Forfeit

end Holdem
