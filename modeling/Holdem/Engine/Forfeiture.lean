import Holdem.Engine.Betting
import Holdem.Engine.ForfeitCall

/-!
The rules of a forfeit, and that `settle_forfeit` keeps them: its arguments are left as they were, and
either the table is settled by the rules or a `ValueError` says why not.
-/

namespace Holdem

open List Engine

variable {n : ℕ}

open Method

namespace Engine

theorem returnUncalled_live (e : Engine n) (j : Fin n) :
    (e.returnUncalled.players j).totalLive = Forfeit.takeOut e.uncalled (fun j => (e.players j).totalLive) j := by
  unfold returnUncalled
  cases e.uncalled with
  | none => rfl
  | some back =>
    by_cases here : j = back.1
    · subst here
      simp [giveBack, Forfeit.takeOut, emit_players]
    simp [giveBack, Forfeit.takeOut, emit_players, update_other _ _ here, here]

theorem settle_alone {e : Engine n} {i : Fin n} (lives : ∀ j, 0 ≤ (e.players j).totalLive)
    (deads : ∀ j, 0 ≤ (e.players j).totalDead) (alone : e.contested = [i]) (runs : ℕ) (forceTabled : Bool) :
    ∃ result e', settle runs forceTabled e = .ok result e' ∧ result.refund = e.uncalled ∧
      ∀ j, (e'.players j).stack = (e.players j).stack + refundTo e.uncalled j +
        if j = i then potsTotal (e.returnUncalled.layers [i]) else 0 := by
  have contested : e.returnUncalled.contested = [i] := (contested_of_hands (hands_returnUncalled e)).trans alone
  have board : completeBoard runs forceTabled e.returnUncalled = .ok ([e.returnUncalled.board], forceTabled) e.returnUncalled := by
    unfold completeBoard
    rw [bind_of_ok (m := get) rfl, if_neg (by rw [contested]; simp)]
    rfl
  have score : scoreRuns e.returnUncalled.contested [e.returnUncalled.board] e.returnUncalled = .ok [] e.returnUncalled := by
    rw [contested]
    rfl
  have live : ∀ j, 0 ≤ (e.returnUncalled.players j).totalLive := fun j => by
    rw [returnUncalled_live]
    exact Forfeit.takeOut_nonneg lives (fun back found => found) j
  have dead : ∀ j, 0 ≤ (e.returnUncalled.players j).totalDead := fun j => by
    rw [(returnUncalled_player e j).2.2]
    exact deads j
  obtain ⟨pots, paid, award, out⟩ : ∃ pots paid, awardPots [i] [] (e.returnUncalled.layers [i]) e.returnUncalled =
      .ok pots (e.returnUncalled.pay paid) ∧ Pays.Out [i] (potsTotal (e.returnUncalled.layers [i])) paid :=
    awardPots_pays (by simp) (by simp) _ (potLayers_winnable (by simp) live dead) e.returnUncalled
  have ran := settle_of_steps board score (by rw [contested]; exact award)
  refine ⟨_, _, ran, rfl, fun j => ?_⟩
  obtain ⟨shown, ⟨events, logged⟩, closed⟩ := settled_logged (e.returnUncalled.pay paid) e.returnUncalled.contested e.uncalled
    forceTabled [] pots
  rw [closed, logged]
  change (e.returnUncalled.players j).stack + paid j = _
  rw [(returnUncalled_player e j).1]
  congr 1
  split
  · rename_i here
    subst here
    rw [← out.total]
    exact (Finset.sum_eq_single j (fun k _ other => out.alive k (by simpa using other)) (fun absent => absurd (Finset.mem_univ j) absent)).symm
  rename_i other
  exact out.alive j (by simpa using other)

end Engine

namespace Forfeit

/-- A pot shared by the rules: equally by the seats that are in it, the odd chips to the first of them
clockwise from the button. -/
structure FairPot (t : Table) (pot : Pot t.seats) (paid : Fin t.seats → ℤ) : Prop where
  inHand : ∀ i ∈ pot.eligible, i ∈ t.inHand ∧ i ≠ t.dropped
  others : ∀ i, i ∉ pot.eligible → paid i = 0
  total : ∑ i, paid i = pot.amount
  even : ∀ i ∈ pot.eligible, ∀ j ∈ pot.eligible, paid i ≤ paid j + 1
  odd : ∀ before i later, Engine.clockwise t.button pot.eligible = before ++ i :: later →
    paid i = pot.amount / pot.eligible.length + if before.length < pot.amount % pot.eligible.length then 1 else 0

structure Seated (t : Table) (e : Engine t.seats) : Prop where
  stack : ∀ i, (e.players i).stack = t.chips i
  live : ∀ i, (e.players i).totalLive = t.live i
  dead : ∀ i, (e.players i).totalDead = t.dead i
  inHand : ∀ i, i ∈ e.contested ↔ i ∈ t.inHand

structure Rules (t : Table) (out : Forfeit t.seats) : Prop where
  nonneg : ∀ i, 0 ≤ out.chips i
  total : ∑ i, out.chips i = ∑ i, t.chips i + ∑ i, t.live i + ∑ i, t.dead i
  dropped : out.chips t.dropped = t.chips t.dropped
  outsiders : ∀ i, i ≠ t.dropped → i ∉ t.inHand → out.chips i = t.chips i + refundTo out.refund i
  refund : ∀ i back, out.refund = some (i, back) → i ≠ t.dropped ∧ ∀ j, j ≠ i → t.live j < t.live i
  paid : ∀ i, out.chips i = t.chips i + refundTo out.refund i + (out.pots.map fun pot => pot.2 i).sum
  pots : ∀ pot ∈ out.pots, FairPot t pot.1 pot.2
  alone : ∀ other, left t.inHand t.dropped = [other] → (∃ j, j ≠ t.dropped ∧ t.live t.dropped ≤ t.live j) →
    ∀ e, Seated t e → ∀ runs forceTabled, ∃ result e', Engine.settle runs forceTabled (e.fold t.dropped) = .ok result e' ∧
      (∀ i, (e'.players i).stack = out.chips i) ∧ result.refund = out.refund

theorem giveBack_eq (refund : Option (Fin n × ℤ)) (chips : Fin n → ℤ) (i : Fin n) :
    giveBack refund chips i = chips i + refundTo refund i := by
  cases refund with
  | none => simp [giveBack, refundTo]
  | some back =>
    by_cases here : i = back.1
    · subst here
      simp [giveBack, refundTo]
    simp [giveBack, refundTo, here, Ne.symm here]

theorem uncalled_top {live : Fin n → ℤ} {i : Fin n} {back : ℤ} (found : uncalled live = some (i, back)) (j : Fin n)
    (other : j ≠ i) : live j < live i :=
  (uncalled_refund ((uncalled_staked live i).trans found)).highest j other

theorem shares_fair (button : Fin n) {eligible : List (Fin n)} (distinct : eligible.Nodup) (some : eligible ≠ []) (amount : ℤ) :
    ∑ i, shares button eligible amount i = amount ∧
      (∀ i ∈ eligible, ∀ j ∈ eligible, shares button eligible amount i ≤ shares button eligible amount j + 1) ∧
      ∀ before i later, clockwise button eligible = before ++ i :: later →
        shares button eligible amount i = amount / eligible.length + if before.length < amount % eligible.length then 1 else 0 :=
  ⟨payouts_total (staked (fun _ => 0) button) some distinct,
    fun _ first _ second => payouts_even (e := staked (fun _ => 0) button) first second,
    fun _ _ _ place => payouts_clockwise (e := staked (fun _ => 0) button) place⟩

section Settled

variable {t : Table} {out : Forfeit t.seats} (nonneg : ∀ i, 0 ≤ t.chips i ∧ 0 ≤ t.live i ∧ 0 ≤ t.dead i)
  (some : left t.inHand t.dropped ≠ [])
  (settled : settleForfeit t.chips t.live t.dead t.inHand t.dropped t.button = .ok out)
  {pot : Pot t.seats × (Fin t.seats → ℤ)} {other : Fin t.seats} {i : Fin t.seats}

structure Outcome (t : Table) (out : Forfeit t.seats) : Prop where
  refund : out.refund = (uncalled t.live).filter fun back => back.1 ≠ t.dropped
  pots : out.pots = (potLayers (takeOut out.refund t.live) t.dead (left t.inHand t.dropped)).map fun pot =>
    (pot, shares t.button pot.eligible pot.amount)
  chips : ∀ i, out.chips i = t.chips i + refundTo out.refund i + (out.pots.map fun pot => pot.2 i).sum
  winnable : ∀ pot ∈ potLayers (takeOut out.refund t.live) t.dead (left t.inHand t.dropped),
    pot.Winnable (left t.inHand t.dropped)

include nonneg some settled in
theorem settleForfeit_outcome : Outcome t out := by
  have counts : ¬∃ i, t.chips i < 0 ∨ t.live i < 0 ∨ t.dead i < 0 := by
    rintro ⟨i, low⟩
    have := nonneg i
    omega
  rw [settleForfeit, if_neg counts, if_neg some] at settled
  cases settled
  refine ⟨rfl, rfl, fun i => by dsimp only; rw [giveBack_eq], ?_⟩
  refine potLayers_winnable some (takeOut_nonneg (fun i => (nonneg i).2.1) fun back member => ?_) fun i => (nonneg i).2.2
  exact (Option.filter_eq_some_iff.mp member).1

section

variable (h : Outcome t out)
include h

theorem Outcome.mem_pots (member : pot ∈ out.pots) :
    pot.1.Winnable (left t.inHand t.dropped) ∧ pot.2 = shares t.button pot.1.eligible pot.1.amount := by
  rw [h.pots] at member
  obtain ⟨layer, listed, rfl⟩ := List.mem_map.mp member
  exact ⟨h.winnable layer listed, rfl⟩

theorem Outcome.fairPot (member : pot ∈ out.pots) : FairPot t pot.1 pot.2 := by
  obtain ⟨⟨-, contested, eligible⟩, paid⟩ := h.mem_pots member
  obtain ⟨total, even, odd⟩ := shares_fair t.button (eligible.nodup (left_nodup _ _)) contested pot.1.amount
  rw [paid]
  exact ⟨fun i member => mem_left.mp (eligible.subset member), fun i out => shares_ineligible t.button out _, total, even, odd⟩

theorem Outcome.outside (gone : i ∉ left t.inHand t.dropped) : out.chips i = t.chips i + refundTo out.refund i := by
  rw [h.chips i, sum_eq_zero, add_zero]
  intro share member
  obtain ⟨pot, listed, rfl⟩ := List.mem_map.mp member
  obtain ⟨⟨-, -, eligible⟩, paid⟩ := h.mem_pots listed
  rw [paid]
  exact shares_ineligible t.button (fun there => gone (eligible.subset there)) _

theorem Outcome.refund_kept {back : ℤ} (found : out.refund = Option.some (i, back)) :
    i ≠ t.dropped ∧ ∀ j, j ≠ i → t.live j < t.live i := by
  rw [h.refund] at found
  obtain ⟨sought, kept⟩ := Option.filter_eq_some_iff.mp found
  exact ⟨by simpa using kept, uncalled_top sought⟩

theorem Outcome.winner (alone : left t.inHand t.dropped = [other]) (i : Fin t.seats) :
    (out.pots.map fun pot => pot.2 i).sum =
      if i = other then potsTotal (potLayers (takeOut out.refund t.live) t.dead [other]) else 0 := by
  have eligible : ∀ pot ∈ potLayers (takeOut out.refund t.live) t.dead [other], pot.eligible = [other] := fun pot member => by
    obtain ⟨-, contested, sub⟩ := h.winnable pot (alone ▸ member)
    rw [alone] at sub
    exact (List.sublist_singleton.mp sub).resolve_left contested
  have mine : ∀ amount, shares t.button [other] amount other = amount := fun amount =>
    payouts_alone (e := staked (fun _ => 0) t.button) other
  rw [h.pots, alone, map_map]
  split
  · rename_i here
    subst here
    refine congrArg List.sum (map_congr_left fun pot member => ?_)
    change shares t.button pot.eligible pot.amount i = pot.amount
    rw [eligible pot member, mine]
  rename_i apart
  refine sum_eq_zero fun share member => ?_
  obtain ⟨pot, listed, rfl⟩ := List.mem_map.mp member
  change shares t.button pot.eligible pot.amount i = 0
  rw [eligible pot listed]
  exact shares_ineligible t.button (by simpa using apart) _

end

theorem contested_fold {e : Engine n} (dropped : Fin n) : (e.fold dropped).contested = left e.contested dropped := by
  refine filter_congr fun i _ => ?_
  have here : i ∈ e.contested ↔ (e.players i).inSeat = true ∧ (e.players i).folded = false := by
    simp [Engine.contested, mem_seatsWhere]
  by_cases same : i = dropped
  · subst same
    rw [fold_same]
    simp
  rw [fold_other same]
  simp [same, here]

theorem Outcome.settle (h : Outcome t out) (nonneg : ∀ i, 0 ≤ t.chips i ∧ 0 ≤ t.live i ∧ 0 ≤ t.dead i)
    (alone : left t.inHand t.dropped = [other])
    (called : ∃ j, j ≠ t.dropped ∧ t.live t.dropped ≤ t.live j) {e : Engine t.seats} (seated : Seated t e) (runs : ℕ)
    (forceTabled : Bool) :
    ∃ result e', Engine.settle runs forceTabled (e.fold t.dropped) = .ok result e' ∧
      (∀ i, (e'.players i).stack = out.chips i) ∧ result.refund = out.refund := by
  have kept : ∀ i, ((e.fold t.dropped).players i).stack = t.chips i ∧ ((e.fold t.dropped).players i).totalLive = t.live i ∧
      ((e.fold t.dropped).players i).totalDead = t.dead i := fun i => by
    by_cases same : i = t.dropped
    · subst same
      rw [fold_same]
      exact ⟨seated.stack _, seated.live _, seated.dead _⟩
    rw [fold_other same]
    exact ⟨seated.stack _, seated.live _, seated.dead _⟩
  have lives : (fun i => ((e.fold t.dropped).players i).totalLive) = t.live := funext fun i => (kept i).2.1
  have contested : (e.fold t.dropped).contested = [other] := by
    rw [contested_fold, ← alone]
    refine filter_congr fun i _ => ?_
    simp [seated.inHand i]
  have same : (e.fold t.dropped).uncalled = out.refund := by
    have sought : (e.fold t.dropped).uncalled = uncalled t.live := congrArg uncalled lives
    rw [sought, h.refund]
    cases found : uncalled t.live with
    | none => rfl
    | some back =>
      obtain ⟨j, different, most⟩ := called
      have stays : back.1 ≠ t.dropped := by
        rintro same
        have := uncalled_top found j (same ▸ different)
        rw [same] at this
        omega
      simp [Option.filter, stays]
  obtain ⟨result, e', ran, refund, chips⟩ := Engine.settle_alone (fun j => (kept j).2.1 ▸ (nonneg j).2.1)
    (fun j => (kept j).2.2 ▸ (nonneg j).2.2) contested runs forceTabled
  refine ⟨result, e', ran, fun i => ?_, refund.trans same⟩
  have layers : (e.fold t.dropped).returnUncalled.layers [other] = potLayers (takeOut out.refund t.live) t.dead [other] := by
    unfold Engine.layers
    congr 1
    · funext j
      rw [Engine.returnUncalled_live, lives, same]
    funext j
    rw [(Engine.returnUncalled_player _ j).2.2, (kept j).2.2]
  rw [chips i, h.chips i, h.winner alone i, (kept i).1, same, layers]

include nonneg some settled in
theorem settleForfeit_rules : Rules t out := by
  have h := settleForfeit_outcome nonneg some settled
  refine ⟨fun i => ?_, settleForfeit_total settled, settleForfeit_dropped settled, fun i other gone => ?_,
    fun i back found => h.refund_kept found, h.chips, fun pot member => h.fairPot member,
    fun other alone called e seated runs forceTabled => h.settle nonneg alone called seated runs forceTabled⟩
  · have back : 0 ≤ refundTo out.refund i := by
      cases found : out.refund with
      | none => exact le_refl 0
      | some back =>
        have sought := (Option.filter_eq_some_iff.mp (h.refund.symm.trans found)).1
        have bounds := uncalled_bounds ((uncalled_staked t.live i).trans sought)
        simp only [refundTo]
        split
        · exact le_of_lt bounds.1
        exact le_refl 0
    rw [h.chips i]
    refine add_nonneg (add_nonneg (nonneg i).1 back) (sum_nonneg fun share member => ?_)
    obtain ⟨pot, listed, rfl⟩ := List.mem_map.mp member
    obtain ⟨winnable, paid⟩ := h.mem_pots listed
    rw [paid]
    exact payouts_nonneg (staked (fun _ => 0) t.button) winnable.amount i
  exact h.outside fun there => gone (mem_left.mp there).1

end Settled

theorem left_some {chips live dead inHand : List Json} {dropped button : Json} {t : Table}
    (describes : Describes chips live dead inHand dropped button t) :
    left t.inHand t.dropped ≠ [] ↔ ∃ s ∈ inHand, s ≠ dropped := by
  rw [describes.inHand, describes.dropped]
  constructor
  · intro some
    obtain ⟨i, member⟩ := exists_mem_of_ne_nil _ some
    obtain ⟨inside, stays⟩ := mem_left.mp member
    exact ⟨_, mem_map_of_mem inside, by simpa [Fin.ext_iff] using stays⟩
  rintro ⟨s, member, other⟩
  obtain ⟨i, inside, rfl⟩ := List.mem_map.mp member
  exact ne_nil_of_mem (mem_left.mpr ⟨inside, fun same => other (by rw [same])⟩)

/-- A forfeit is settled by the rules, the arguments stay as they are, and a `ValueError` is raised
exactly on a malformed table or when no other seat is left. -/
theorem settle_forfeit_rules (h : Heap.Lists Json) (chips live dead inHand : Fin h.length) (dropped button : Json) :
    (WellFormed (Heap.load h chips) (Heap.load h live) (Heap.load h dead) (Heap.load h inHand) dropped button ∧
        (∃ s ∈ Heap.load h inHand, s ≠ dropped) →
      ∃ t out h', Arguments h chips live dead inHand dropped button t ∧
        settleForfeitCall chips live dead inHand dropped button h = .ok (shown out h.length) h' ∧
        Heap.load h' h.length = ints out.chips ∧ Heap.Unchanged h h' ∧ Rules t out) ∧
    (¬(WellFormed (Heap.load h chips) (Heap.load h live) (Heap.load h dead) (Heap.load h inHand) dropped button ∧
        ∃ s ∈ Heap.load h inHand, s ≠ dropped) →
      ∃ text, settleForfeitCall chips live dead inHand dropped button h = .error (.valueError text) h) := by
  rcases checkTable_cases (Heap.load h chips) (Heap.load h live) (Heap.load h dead) (Heap.load h inHand) dropped button with
    ⟨formed, t, checked, describes⟩ | ⟨malformed, text, checked⟩
  · by_cases some : left t.inHand t.dropped = []
    · refine ⟨fun good => absurd some ((left_some describes).mpr good.2), fun _ => ?_⟩
      unfold settleForfeitCall
      rw [bind_of_ok (m := get) (a := h) (t := h) rfl, checked]
      dsimp only
      rw [if_pos some]
      exact ⟨_, rfl⟩
    refine ⟨fun _ => ?_, fun bad => absurd ⟨formed, (left_some describes).mp some⟩ bad⟩
    obtain ⟨out, settled, ran⟩ := settleForfeitCall_ran live.isLt dead.isLt checked describes some
    exact ⟨t, out, _, describes, ran, Heap.load_own h _ 0, Heap.unchanged_append h _,
      settleForfeit_rules describes.nonneg some settled⟩
  refine ⟨fun good => absurd good.1 malformed, fun _ => ⟨text, ?_⟩⟩
  unfold settleForfeitCall
  rw [bind_of_ok (m := get) (a := h) (t := h) rfl, checked]
  rfl

end Forfeit

end Holdem
