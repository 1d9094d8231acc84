import Holdem.Lib.Heap
import Holdem.Wire
import Holdem.Engine.Fairness
import Holdem.Engine.Forfeit

/-!
`settle_forfeit` as it is called: on Python lists that the caller keeps, of values that may be anything.
It works on copies of `stacks` and `live`.
-/

namespace Holdem

open List Heap Method

namespace Forfeit

/-- `isinstance(c, int) and not isinstance(c, bool)`. -/
def isWhole : Json → Bool
  | .int _ => true
  | _ => false

def whole : Json → ℤ
  | .int value => value
  | _ => 0

def seatOf (n : ℕ) : Json → Option (Fin n)
  | .int value => if h : 0 ≤ value ∧ value < n then some ⟨value.toNat, Engine.seat_lt h⟩ else none
  | _ => none

structure Table where
  seats : ℕ
  chips : Fin seats → ℤ
  live : Fin seats → ℤ
  dead : Fin seats → ℤ
  inHand : List (Fin seats)
  dropped : Fin seats
  button : Fin seats

def countsOf (xs : List Json) (n : ℕ) : Fin n → ℤ := fun i => whole (xs.getD i .null)

def checkTable (chips live dead inHand : List Json) (dropped button : Json) : Except PyError Table :=
  let n := chips.length
  if live.length ≠ n ∨ dead.length ≠ n then
    .error (.valueError "stacks, live and dead must cover the same seats")
  else if ¬(chips ++ live ++ dead).all isWhole then .error (.valueError "chip counts must be whole numbers")
  else if (chips ++ live ++ dead).any (fun c => whole c < 0) then .error (.valueError "chip counts cannot be negative")
  else if ¬(dropped :: button :: inHand).all isWhole then .error (.valueError "seats must be whole numbers")
  else match seatOf n dropped, seatOf n button, inHand.mapM (seatOf n) with
    | some dropped, some button, some inHand =>
      .ok ⟨n, countsOf chips n, countsOf live n, countsOf dead n, inHand, dropped, button⟩
    | _, _, _ => .error (.valueError "seat out of range")

def addTo (a i : ℕ) (amount : ℤ) : EStateM PyError (Heap.Lists Json) Unit :=
  change a i fun c => .int (whole c + amount)

structure PaidPot where
  amount : ℤ
  eligible : List ℕ
  payouts : List (ℕ × ℤ)

/-- The dict `settle_forfeit` returns; `stacks` is the address of the new list. -/
structure Returned where
  stacksAt : ℕ
  refund : Option (ℕ × ℤ)
  pots : List PaidPot

def addShares (after : ℕ) (payouts : List (ℕ × ℤ)) : EStateM PyError (Heap.Lists Json) Unit :=
  payouts.forM fun (i, amount) => addTo after i amount

def payPot {n : ℕ} (after : ℕ) (button : Fin n) (pot : Pot n) : EStateM PyError (Heap.Lists Json) PaidPot := do
  let payouts := pot.eligible.map fun i => (i.val, shares button pot.eligible pot.amount i)
  addShares after payouts
  return ⟨pot.amount, pot.eligible.map Fin.val, payouts⟩

/-- Step 1 of `settle`, but the dropper forfeits its uncalled raise. -/
def returnRaise {n : ℕ} (after live : ℕ) (refund : Option (Fin n × ℤ)) : EStateM PyError (Heap.Lists Json) Unit :=
  match refund with
  | some (seat, back) => do
    addTo live seat (-back)
    addTo after seat back
  | none => pure ()

end Forfeit

open Forfeit

/-- `settle_forfeit`, the lists given by their addresses. -/
def settleForfeitCall (chips live dead inHand : ℕ) (dropped button : Json) : EStateM PyError (Heap.Lists Json) Returned := do
  let h ← get
  match checkTable (load h chips) (load h live) (load h dead) (load h inHand) dropped button with
  | .error x => throw x
  | .ok table =>
    let contenders := left table.inHand table.dropped
    if contenders = [] then
      throw (.valueError ("no seat but " ++ toString table.dropped.val ++
        " is in the hand; settle() pays a hand betting has already decided"))
    let after ← copy chips
    let live ← copy live
    let refund := (uncalled (countsOf (load (← get) live) table.seats)).filter fun back => back.1 ≠ table.dropped
    returnRaise after live refund
    let h ← get
    let pots := potLayers (countsOf (load h live) table.seats) (countsOf (load h dead) table.seats) contenders
    let paid ← pots.mapM (payPot after table.button)
    return ⟨after, refund.map fun back => (back.1.val, back.2), paid⟩

namespace Forfeit

variable {n : ℕ} {v dropped button : Json} {chips live dead inHand : List Json} {vs : List Json} {i : Fin n}
  {t : Table}

def ints (counts : Fin n → ℤ) : List Json := ofFn fun i => .int (counts i)

theorem countsOf_ints (counts : Fin n → ℤ) : countsOf (ints counts) n = counts := by
  funext i
  simp [countsOf, ints, List.getD, whole]

theorem ints_countsOf {xs : List Json} (length : xs.length = n) (checked : ∀ c ∈ xs, isWhole c = true) :
    ints (countsOf xs n) = xs := by
  refine ext_getElem (by simp [ints, length]) fun i short there => ?_
  have member := checked _ (getElem_mem there)
  simp only [ints, List.getElem_ofFn, countsOf, List.getD, getElem?_eq_getElem there, Option.getD_some]
  cases held : xs[i] with
  | int value => rfl
  | _ =>
    rw [held] at member
    cases member

theorem ints_add (counts : Fin n → ℤ) (i : Fin n) (amount : ℤ) :
    (ints counts).modify i (fun c => .int (whole c + amount)) = ints (Function.update counts i (counts i + amount)) := by
  refine ext_getElem (by simp [ints]) fun j short there => ?_
  have bound : j < n := by simpa [ints] using there
  simp only [getElem_modify, ints, List.getElem_ofFn, Function.update_apply, Fin.ext_iff]
  by_cases here : i.val = j
  · subst here
    simp [whole]
  simp [here, Ne.symm here]

/-- A table `settle_forfeit` can settle, some other seat being left apart. -/
structure WellFormed (chips live dead inHand : List Json) (dropped button : Json) : Prop where
  sameLive : live.length = chips.length
  sameDead : dead.length = chips.length
  counts : ∀ c ∈ chips ++ live ++ dead, ∃ value : ℤ, c = .int value ∧ 0 ≤ value
  seats : ∀ s ∈ dropped :: button :: inHand, ∃ value : ℕ, s = .int value ∧ value < chips.length

structure Describes (chips live dead inHand : List Json) (dropped button : Json) (t : Table) : Prop where
  chips : chips = ints t.chips
  live : live = ints t.live
  dead : dead = ints t.dead
  inHand : inHand = t.inHand.map fun i => .int i.val
  dropped : dropped = .int t.dropped.val
  button : button = .int t.button.val
  nonneg : ∀ i, 0 ≤ t.chips i ∧ 0 ≤ t.live i ∧ 0 ≤ t.dead i

theorem seatOf_some : seatOf n v = some i ↔ v = .int i.val := by
  cases v with
  | int value =>
    simp only [seatOf, Json.int.injEq]
    split
    · rename_i range
      rw [Option.some.injEq, Fin.ext_iff]
      dsimp only
      omega
    rename_i out
    have := i.isLt
    simp only [reduceCtorEq, false_iff]
    omega
  | _ => simp [seatOf]

theorem seatsOf_some {seats : List (Fin n)} : vs.mapM (seatOf n) = some seats ↔ vs = seats.map fun i => .int i.val := by
  induction vs generalizing seats with
  | nil => cases seats <;> simp
  | cons v vs ih =>
    rw [mapM_cons]
    constructor
    · intro ran
      obtain ⟨i, first, ran⟩ := Option.bind_eq_some_iff.mp ran
      obtain ⟨others, rest, same⟩ := Option.bind_eq_some_iff.mp ran
      cases same
      rw [map_cons, seatOf_some.mp first, ih.mp rest]
    intro same
    cases seats with
    | nil => cases same
    | cons i others =>
      obtain ⟨first, rest⟩ := List.cons.inj same
      rw [seatOf_some.mpr first, ih.mpr rest]
      rfl

theorem seatsOf_exists (each : ∀ v ∈ vs, ∃ i, seatOf n v = some i) : ∃ seats, vs.mapM (seatOf n) = some seats := by
  induction vs with
  | nil => exact ⟨[], rfl⟩
  | cons v vs ih =>
    obtain ⟨i, found⟩ := each v (.head _)
    obtain ⟨seats, rest⟩ := ih fun w member => each w (.tail _ member)
    exact ⟨i :: seats, by simp [mapM_cons, found, rest]⟩

theorem isWhole_iff : isWhole v = true ↔ ∃ value : ℤ, v = .int value := by
  cases v <;> simp [isWhole]

theorem seatOf_of_wellFormed (h : WellFormed chips live dead inHand dropped button)
    (member : v ∈ dropped :: button :: inHand) : ∃ i, seatOf chips.length v = some i := by
  obtain ⟨value, rfl, bound⟩ := h.seats v member
  exact ⟨⟨value, bound⟩, seatOf_some.mpr rfl⟩

theorem checkTable_cases (chips live dead inHand : List Json) (dropped button : Json) :
    (WellFormed chips live dead inHand dropped button ∧
      ∃ t, checkTable chips live dead inHand dropped button = .ok t ∧ Describes chips live dead inHand dropped button t) ∨
    (¬WellFormed chips live dead inHand dropped button ∧
      ∃ text, checkTable chips live dead inHand dropped button = .error (.valueError text)) := by
  unfold checkTable
  dsimp only
  split
  · rename_i uneven
    exact .inr ⟨fun h => uneven.elim (absurd h.sameLive) (absurd h.sameDead), _, rfl⟩
  rename_i even
  obtain ⟨sameLive, sameDead⟩ := not_or.mp even
  split
  · rename_i broken
    refine .inr ⟨fun h => broken (List.all_eq_true.mpr fun c member => ?_), _, rfl⟩
    obtain ⟨value, rfl, -⟩ := h.counts c member
    rfl
  rename_i counts
  have counts := List.all_eq_true.mp (not_not.mp counts)
  split
  · rename_i negative
    refine .inr ⟨fun h => ?_, _, rfl⟩
    obtain ⟨c, member, low⟩ := List.any_eq_true.mp negative
    obtain ⟨value, rfl, least⟩ := h.counts c member
    exact absurd (of_decide_eq_true low) (not_lt.mpr least)
  rename_i nonneg
  have nonneg : ∀ c ∈ chips ++ live ++ dead, 0 ≤ whole c := fun c member => by
    by_contra low
    exact nonneg (List.any_eq_true.mpr ⟨c, member, decide_eq_true (not_le.mp low)⟩)
  split
  · rename_i broken
    refine .inr ⟨fun h => broken (List.all_eq_true.mpr fun s member => ?_), _, rfl⟩
    obtain ⟨value, rfl, -⟩ := h.seats s member
    rfl
  split
  · rename_i seat buttonSeat seats found foundButton foundSeats
    rw [seatOf_some] at found foundButton
    rw [seatsOf_some] at foundSeats
    refine .inl ⟨⟨not_not.mp sameLive, not_not.mp sameDead, fun c member => ?_, fun s member => ?_⟩, _, rfl, ?_⟩
    · obtain ⟨value, rfl⟩ := isWhole_iff.mp (counts c member)
      exact ⟨value, rfl, nonneg _ member⟩
    · obtain rfl | member := List.mem_cons.mp member
      · exact ⟨seat, found, seat.isLt⟩
      obtain rfl | member := List.mem_cons.mp member
      · exact ⟨buttonSeat, foundButton, buttonSeat.isLt⟩
      rw [foundSeats] at member
      obtain ⟨i, -, rfl⟩ := List.mem_map.mp member
      exact ⟨i, rfl, i.isLt⟩
    have each : ∀ xs : List Json, xs ⊆ chips ++ live ++ dead → xs.length = chips.length →
        xs = ints (countsOf xs chips.length) ∧ ∀ i, 0 ≤ countsOf xs chips.length i := by
      intro xs sub length
      refine ⟨(ints_countsOf length fun c member => counts c (sub member)).symm, fun i => ?_⟩
      have inside : i.val < xs.length := by
        rw [length]
        exact i.isLt
      have := nonneg _ (sub (getElem_mem inside))
      simpa [countsOf, List.getD, getElem?_eq_getElem inside] using this
    obtain ⟨chipsEq, chipsOk⟩ := each chips (fun c h => by simp [h]) rfl
    obtain ⟨liveEq, liveOk⟩ := each live (fun c h => by simp [h]) (not_not.mp sameLive)
    obtain ⟨deadEq, deadOk⟩ := each dead (fun c h => by simp [h]) (not_not.mp sameDead)
    exact ⟨chipsEq, liveEq, deadEq, foundSeats, found, foundButton, fun i => ⟨chipsOk i, liveOk i, deadOk i⟩⟩
  rename_i none
  refine .inr ⟨fun h => ?_, _, rfl⟩
  obtain ⟨i, first⟩ := seatOf_of_wellFormed h (.head _)
  obtain ⟨j, second⟩ := seatOf_of_wellFormed h (.tail _ (.head _))
  obtain ⟨seats, third⟩ := seatsOf_exists fun v member =>
    seatOf_of_wellFormed h (.tail _ (.tail _ member))
  exact none i j seats first second third

theorem addTo_after (h : Heap.Lists Json) (counts : Fin n → ℤ) (more : Heap.Lists Json) (i : Fin n) (amount : ℤ) :
    addTo h.length i amount (h ++ ints counts :: more) =
      .ok () (h ++ ints (Function.update counts i (counts i + amount)) :: more) := by
  have ran := change_own (ε := PyError) h (ints counts :: more) 0 i fun c => .int (whole c + amount)
  rw [modify_zero_cons, ints_add] at ran
  exact ran

theorem addTo_live (h : Heap.Lists Json) (first : List Json) (counts : Fin n → ℤ) (i : Fin n) (amount : ℤ) :
    addTo (h.length + 1) i amount (h ++ [first, ints counts]) =
      .ok () (h ++ [first, ints (Function.update counts i (counts i + amount))]) := by
  have ran := change_own (ε := PyError) h [first, ints counts] 1 i fun c => .int (whole c + amount)
  rw [modify_succ_cons, modify_zero_cons, ints_add] at ran
  exact ran

theorem returnRaise_ran (h : Heap.Lists Json) (chips live : Fin n → ℤ) (refund : Option (Fin n × ℤ)) :
    returnRaise h.length (h.length + 1) refund (h ++ [ints chips, ints live]) =
      .ok () (h ++ [ints (giveBack refund chips), ints (takeOut refund live)]) := by
  cases refund with
  | none => rfl
  | some back =>
    rw [returnRaise, bind_of_ok (addTo_live h _ live back.1 (-back.2)), addTo_after]
    rfl

theorem addShares_ran (h : Heap.Lists Json) (more : Heap.Lists Json) (share : Fin n → ℤ) (seats : List (Fin n)) (distinct : seats.Nodup)
    (counts : Fin n → ℤ) :
    addShares h.length (seats.map fun i => (i.val, share i)) (h ++ ints counts :: more) =
      .ok () (h ++ ints (fun i => counts i + if i ∈ seats then share i else 0) :: more) := by
  induction seats generalizing counts with
  | nil =>
    simp only [not_mem_nil, if_false, add_zero]
    rfl
  | cons seat rest ih =>
    obtain ⟨fresh, distinct⟩ := List.nodup_cons.mp distinct
    change (addTo h.length seat (share seat) >>= fun _ => addShares h.length (rest.map fun i => (i.val, share i))) _ = _
    rw [bind_of_ok (addTo_after h counts more seat (share seat)), ih distinct]
    congr 4
    funext i
    by_cases here : i = seat
    · subst here
      simp [fresh]
    simp [here]

def paidPot (button : Fin n) (pot : Pot n) : PaidPot :=
  ⟨pot.amount, pot.eligible.map Fin.val, pot.eligible.map fun i => (i.val, shares button pot.eligible pot.amount i)⟩

theorem shares_ineligible (button : Fin n) {eligible : List (Fin n)} (out : i ∉ eligible) (amount : ℤ) :
    shares button eligible amount i = 0 :=
  Engine.payouts_loser (staked (fun _ => 0) button) out

theorem payPot_ran (h : Heap.Lists Json) (more : Heap.Lists Json) (button : Fin n) {pot : Pot n} (distinct : pot.eligible.Nodup)
    (counts : Fin n → ℤ) :
    payPot h.length button pot (h ++ ints counts :: more) = .ok (paidPot button pot)
      (h ++ ints (fun i => counts i + shares button pot.eligible pot.amount i) :: more) := by
  unfold payPot
  rw [bind_of_ok (addShares_ran h more (shares button pot.eligible pot.amount) _ distinct counts)]
  have sums : (fun i => counts i + if i ∈ pot.eligible then shares button pot.eligible pot.amount i else 0) =
      fun i => counts i + shares button pot.eligible pot.amount i := by
    funext i
    split
    · rfl
    rename_i out
    rw [shares_ineligible button out]
  rw [sums]
  rfl

theorem payPots_ran (h : Heap.Lists Json) (more : Heap.Lists Json) (button : Fin n) (pots : List (Pot n))
    (distinct : ∀ pot ∈ pots, pot.eligible.Nodup) (counts : Fin n → ℤ) :
    pots.mapM (payPot h.length button) (h ++ ints counts :: more) = .ok (pots.map (paidPot button))
      (h ++ ints (fun i => counts i + (pots.map fun pot => shares button pot.eligible pot.amount i).sum) :: more) := by
  induction pots generalizing counts with
  | nil => simp [ints, pure, EStateM.pure]
  | cons pot rest ih =>
    rw [mapM_cons, bind_of_ok (payPot_ran h more button (distinct pot mem_cons_self) counts),
      bind_of_ok (ih (fun p member => distinct p (.tail _ member)) _)]
    simp only [map_cons, sum_cons, add_assoc]
    rfl

def shown (out : Forfeit n) (address : ℕ) : Returned :=
  ⟨address, out.refund.map fun back => (back.1.val, back.2), out.pots.map fun paid =>
    ⟨paid.1.amount, paid.1.eligible.map Fin.val, paid.1.eligible.map fun i => (i.val, paid.2 i)⟩⟩

abbrev Arguments (h : Heap.Lists Json) (chips live dead inHand : ℕ) (dropped button : Json) (t : Table) : Prop :=
  Describes (load h chips) (load h live) (load h dead) (load h inHand) dropped button t

theorem layers_distinct (nonneg : ∀ i, 0 ≤ t.chips i ∧ 0 ≤ t.live i ∧ 0 ≤ t.dead i)
    (some : left t.inHand t.dropped ≠ []) {refund : Option (Fin t.seats × ℤ)}
    (found : ∀ back ∈ refund, uncalled t.live = Option.some back) :
    ∀ pot ∈ potLayers (takeOut refund t.live) t.dead (left t.inHand t.dropped), pot.eligible.Nodup := fun pot member =>
  (potLayers_winnable some (takeOut_nonneg (fun i => (nonneg i).2.1) found) (fun i => (nonneg i).2.2) pot
    member).eligible.nodup (left_nodup _ _)

theorem settleForfeitCall_ran {h : Heap.Lists Json} {chips live dead inHand : ℕ}
    (knownLive : live < h.length) (knownDead : dead < h.length)
    (checked : checkTable (load h chips) (load h live) (load h dead) (load h inHand) dropped button = .ok t)
    (describes : Arguments h chips live dead inHand dropped button t) (some : left t.inHand t.dropped ≠ []) :
    ∃ out, settleForfeit t.chips t.live t.dead t.inHand t.dropped t.button = .ok out ∧
      settleForfeitCall chips live dead inHand dropped button h =
        .ok (shown out h.length) (h ++ [ints out.chips, ints (takeOut out.refund t.live)]) := by
  have counts : ¬∃ i, t.chips i < 0 ∨ t.live i < 0 ∨ t.dead i < 0 := by
    rintro ⟨i, low⟩
    have := describes.nonneg i
    omega
  obtain ⟨refund, sought⟩ : ∃ refund, (uncalled t.live).filter (fun back => back.1 ≠ t.dropped) = refund := ⟨_, rfl⟩
  have found : ∀ back ∈ refund, uncalled t.live = Option.some back := fun back member => by
    rw [← sought] at member
    exact (Option.filter_eq_some_iff.mp member).1
  have distinct := layers_distinct describes.nonneg some found
  have copied : load (h ++ [load h chips]) live = ints t.live := by rw [load_append knownLive, describes.live]
  have twice : (h ++ [load h chips]) ++ [load (h ++ [load h chips]) live] = h ++ [ints t.chips, ints t.live] := by
    rw [copied, describes.chips, append_assoc]
    rfl
  have length : (h ++ [load h chips]).length = h.length + 1 := by simp
  refine ⟨_, by rw [settleForfeit, if_neg counts, if_neg some, sought], ?_⟩
  unfold settleForfeitCall
  rw [bind_of_ok (m := get) (a := h) (t := h) rfl, checked]
  dsimp only
  rw [if_neg some]
  rw [bind_of_ok (copy_apply chips h)]
  rw [bind_of_ok (copy_apply live _), twice, length]
  rw [bind_of_ok (m := get) rfl, load_own h [ints t.chips, ints t.live] 1,
    show load [ints t.chips, ints t.live] 1 = ints t.live from rfl, countsOf_ints, sought,
    bind_of_ok (returnRaise_ran h t.chips t.live refund)]
  rw [bind_of_ok (m := get) rfl, load_own h [_, ints (takeOut refund t.live)] 1, load_append knownDead]
  change ((potLayers (countsOf (ints (takeOut refund t.live)) t.seats) _ _).mapM (payPot h.length t.button) >>= _) _ = _
  rw [describes.dead, countsOf_ints, countsOf_ints]
  rw [bind_of_ok (payPots_ran h _ t.button _ distinct _)]
  simp only [shown, map_map]
  rfl

end Forfeit

end Holdem
