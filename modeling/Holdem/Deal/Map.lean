import Mathlib.Data.List.Nodup
import Mathlib.Data.List.Perm.Basic
import Mathlib.Data.List.Perm.Lattice
import Mathlib.Data.Nat.ModEq
import Mathlib.Tactic.IntervalCases

/-!
`deal_map.py`: which seat's hole card or which board slot each deck position is for.
-/

namespace Holdem

open List

inductive Destination where
  | hole (seat ordinal : ℕ)
  | board (slot : ℕ)
  deriving DecidableEq

namespace DealMap

variable (button : ℕ) (seats : List ℕ) {seat : ℕ}

/-- The seats the ring steps around: the highest seat index bounds it. -/
def ring : ℕ := max (seats.foldr max 0) button + 1

/-- `seat_deal_order`: left of the button, wrapping, seated. -/
def seatDealOrder : List ℕ :=
  ((range (ring button seats)).map fun k => (button + 1 + k) % ring button seats).filter (· ∈ seats)

/-- `deal_map`: two passes of one hole card each, then the board, the flop in reverse. -/
def dealMap : List Destination :=
  (seatDealOrder button seats).map (.hole · 0) ++ (seatDealOrder button seats).map (.hole · 1) ++
    [.board 2, .board 1, .board 0, .board 3, .board 4]

def position (target : Destination) : ℕ := (dealMap button seats).idxOf target

def holePositions : List (ℕ × List ℕ) :=
  (seatDealOrder button seats).map fun seat =>
    (seat, [position button seats (.hole seat 0), position button seats (.hole seat 1)])

def boardPositions : List ℕ := (range 5).map fun slot => position button seats (.board slot)

variable {button seats}

theorem le_foldr_max {seats : List ℕ} (member : seat ∈ seats) : seat ≤ seats.foldr max 0 := by
  induction seats with
  | nil => cases member
  | cons first rest ih =>
    rw [foldr_cons]
    obtain rfl | later := List.mem_cons.mp member
    · exact le_max_left _ _
    exact (ih later).trans (le_max_right _ _)

theorem mem_seatDealOrder : seat ∈ seatDealOrder button seats ↔ seat ∈ seats := by
  rw [seatDealOrder, mem_filter, decide_eq_true_eq, and_iff_right_iff_imp]
  intro member
  have below : seat < ring button seats := by
    have := le_foldr_max member
    unfold ring
    omega
  have start : button < ring button seats := by
    unfold ring
    omega
  -- as many steps as take the walk from the button round to the seat
  refine List.mem_map.mpr ⟨(seat + ring button seats - (button + 1)) % ring button seats,
    List.mem_range.mpr (Nat.mod_lt _ (by omega)), ?_⟩
  rw [Nat.add_mod_mod, show button + 1 + (seat + ring button seats - (button + 1)) = seat + ring button seats by omega,
    Nat.add_mod_right, Nat.mod_eq_of_lt below]

theorem seatDealOrder_nodup : (seatDealOrder button seats).Nodup := by
  refine List.Nodup.filter _ (List.Nodup.map_on ?_ nodup_range)
  intro j first k second same
  have j' := List.mem_range.mp first
  have k' := List.mem_range.mp second
  have congruent : j ≡ k [MOD ring button seats] := Nat.ModEq.add_left_cancel' (button + 1) same
  rwa [Nat.ModEq, Nat.mod_eq_of_lt j', Nat.mod_eq_of_lt k'] at congruent

theorem mem_dealMap_hole {ordinal : ℕ} : .hole seat ordinal ∈ dealMap button seats ↔ seat ∈ seats ∧ ordinal < 2 := by
  simp only [dealMap, mem_append, mem_map, Destination.hole.injEq, mem_seatDealOrder]
  constructor
  · rintro ((⟨i, member, rfl, rfl⟩ | ⟨i, member, rfl, rfl⟩) | board)
    · exact ⟨member, by decide⟩
    · exact ⟨member, by decide⟩
    simp at board
  rintro ⟨member, below⟩
  interval_cases ordinal
  · exact .inl (.inl ⟨seat, member, rfl, rfl⟩)
  exact .inl (.inr ⟨seat, member, rfl, rfl⟩)

theorem mem_dealMap_board {slot : ℕ} (below : slot < 5) : .board slot ∈ dealMap button seats := by
  refine mem_append_right _ ?_
  interval_cases slot <;> simp

theorem dealMap_nodup : (dealMap button seats).Nodup := by
  have pass : ∀ ordinal, ((seatDealOrder button seats).map (Destination.hole · ordinal)).Nodup := fun ordinal =>
    seatDealOrder_nodup.map fun _ _ same => (Destination.hole.inj same).1
  refine List.nodup_append.mpr ⟨List.nodup_append.mpr ⟨pass 0, pass 1, ?_⟩, by decide, ?_⟩
  · rintro a first b second rfl
    obtain ⟨i, -, rfl⟩ := List.mem_map.mp first
    obtain ⟨j, -, same⟩ := List.mem_map.mp second
    cases same
  rintro a first b second rfl
  rcases List.mem_append.mp first with first | first <;>
  · obtain ⟨i, -, rfl⟩ := List.mem_map.mp first
    simp at second

theorem position_injective {first second : Destination} (member : first ∈ dealMap button seats)
    (same : position button seats first = position button seats second) : first = second :=
  (idxOf_inj member).mp same

theorem length_dealMap (distinct : seats.Nodup) : (dealMap button seats).length = 2 * seats.length + 5 := by
  have order : (seatDealOrder button seats).length = seats.length :=
    ((perm_ext_iff_of_nodup seatDealOrder_nodup distinct).mpr fun _ => mem_seatDealOrder).length_eq
  rw [dealMap, length_append, length_append, length_map, length_map, order]
  simp only [length_cons, length_nil]
  omega

theorem position_lt (distinct : seats.Nodup) {target : Destination} (member : target ∈ dealMap button seats) :
    position button seats target < 2 * seats.length + 5 := by
  rw [← length_dealMap distinct]
  exact idxOf_lt_length_of_mem member

end DealMap

end Holdem
