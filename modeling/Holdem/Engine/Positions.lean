import Mathlib.Data.Fin.VecNotation
import Holdem.Engine.Hand

/-!
Dead-button positions: three seats or more are dealt in with the button, the small blind and the big
blind on different seats exactly if somebody can take the big blind in between.
-/

namespace Holdem.Engine

open Circle

variable {n : ℕ} {e e' : Engine n} {i j : Fin n} {straddleFn : Option (Fin n → Bool)} {pred : Player → Bool}
  {placed : Engine n} {deck : List Card}

open Method TableOp

def Clockwise (e : Engine n) : Prop :=
  ∃ sb bb, e.sbSeat = some sb ∧ e.bbSeat = some bb ∧ Circle.Ordered e.button sb bb

/-- It is the table's first hand, or a seat that can take the big blind is on the way from the last
big blind round to the last small blind. -/
def Spread (e : Engine n) : Prop :=
  e.bbSeat = none ∨ ∃ prevSb prevBb seat, e.sbSeat = some prevSb ∧ e.bbSeat = some prevBb ∧
    e.blindEligible (e.players seat) = true ∧ Circle.Ordered prevBb seat prevSb

theorem startHand_seats (started : startHand straddleFn deck e = .ok true e') :
    ∃ placed, advancePositions e = .ok () placed ∧ e'.button = placed.button ∧ e'.sbSeat = placed.sbSeat ∧
      e'.bbSeat = placed.bbSeat ∧ e'.seated = placed.seatsWhere placed.dealt := by
  obtain ⟨⟨placed, sbSeat, bbSeat, dealt, first, positions, -, -, -, deal, -, rfl⟩⟩ := startHand_opening started
  have ground := posted_ground placed sbSeat bbSeat straddleFn deck
  have deals := keeps_ok (dealHoles_deals _) (deals_refl _) deal
  have table := table_of_still (still_openRound dealt first)
  obtain ⟨_, _, rfl⟩ := deals
  refine ⟨placed, positions, (congrArg Table.button table).trans (congrArg Ground.button ground),
    (congrArg Table.sbSeat table).trans (congrArg Ground.sbSeat ground),
    (congrArg Table.bbSeat table).trans (congrArg Ground.bbSeat ground), ?_⟩
  refine List.filter_congr fun i _ => ?_
  rw [openRound_players]
  exact congrArg (fun g : Ground n => (g.footing i).1) ground

theorem next_nearest (h : e.next i pred = some j) {k : Fin n}
    (here : pred (e.players k) = true) (other : k ≠ i) : j ≠ i ∧ dist i j ≤ dist i k :=
  first_step_nearest h here other

theorem next_next_ordered {a b c : Fin n} (three : 3 ≤ (e.seatsWhere pred).length)
    (first : e.next a pred = some b) (second : e.next b pred = some c) : Circle.Ordered a b c := by
  obtain ⟨d, member, notA, notB⟩ : ∃ d ∈ e.seatsWhere pred, d ≠ a ∧ d ≠ b := by
    by_contra none
    push Not at none
    have sub : e.seatsWhere pred ⊆ [a, b] := fun d member => by
      by_cases isA : d = a
      · simp [isA]
      simp [none d member isA]
    have := (List.subperm_of_subset (seatsWhere_nodup e pred) sub).length_le
    simp only [List.length_cons, List.length_nil] at this
    omega
  have here := mem_seatsWhere.mp member
  obtain ⟨bNotA, near⟩ := next_nearest first here notA
  obtain ⟨cNotB, near'⟩ := next_nearest second here notB
  have apart : ∀ {x y : Fin n}, x ≠ y → 0 < dist y x := fun ne =>
    Nat.pos_of_ne_zero fun zero => ne (dist_eq_zero zero).symm
  have strict : dist a b ≠ dist a d := fun same => notB (by
    rw [← step_dist a b, ← step_dist a d, same])
  have between : Circle.Ordered b d a := ordered_rotate.mp ⟨apart bNotA, by omega⟩
  exact ordered_rotate.mpr ⟨apart cNotB, lt_of_le_of_lt near' between.2⟩

theorem firstPositions_clockwise (fresh : e.bbSeat = none) (three : 3 ≤ (e.seatsWhere e.dealt).length)
    (positions : advancePositions e = .ok () placed) : placed.Clockwise := by
  unfold advancePositions at positions
  rw [fresh] at positions
  simp only [firstPositions] at positions
  split at positions
  · cases positions
  rename_i button found
  split at positions
  · omega
  cases positions
  obtain ⟨sb, foundSb, dealtSb⟩ := next_returns button (first_holds found)
  obtain ⟨bb, foundBb, -⟩ := next_returns sb dealtSb
  refine ⟨sb, bb, foundSb, ?_, next_next_ordered three foundSb foundBb⟩
  rw [foundSb]
  exact foundBb

theorem movePositions_chain {prevBb prevSb : Fin n} (big : e.bbSeat = some prevBb) (small : e.sbSeat = some prevSb)
    (positions : advancePositions e = .ok () placed)
    (three : 3 ≤ (placed.seatsWhere placed.dealt).length) :
    placed.button = prevSb ∧ placed.sbSeat = some prevBb ∧
      ∃ bb, e.next prevBb e.blindEligible = some bb ∧ placed.bbSeat = some bb := by
  unfold advancePositions at positions
  rw [big] at positions
  simp only [movePositions] at positions
  split at positions
  · cases positions
  rename_i bb found
  cases positions
  have seats : ∀ a b, (e.moveBigBlind prevBb bb).seatsWhere (e.moveBigBlind prevBb bb).dealt ≠ [a, b] := by
    intro a b heads
    have same : (e.moveBigBlind prevBb bb).trailPositions prevBb bb e.sbSeat = { e.moveBigBlind prevBb bb with
          sbSeat := some (if a ≠ bb then a else b), button := if a ≠ bb then a else b } := by
      simp only [trailPositions, heads]
    rw [same] at three
    have : ((e.moveBigBlind prevBb bb).seatsWhere (e.moveBigBlind prevBb bb).dealt).length = 2 := by rw [heads]; rfl
    change 3 ≤ ((e.moveBigBlind prevBb bb).seatsWhere (e.moveBigBlind prevBb bb).dealt).length at three
    omega
  have chain : (e.moveBigBlind prevBb bb).trailPositions prevBb bb e.sbSeat =
      deadSmallBlind { e.moveBigBlind prevBb bb with
        sbSeat := some prevBb, button := e.sbSeat.getD (e.moveBigBlind prevBb bb).button } prevBb := by
    unfold trailPositions
    split
    · rename_i a b heads
      exact absurd heads (seats a b)
    rfl
  rw [chain, small]
  unfold deadSmallBlind
  split <;> exact ⟨rfl, rfl, bb, found, rfl⟩

theorem clockwise_iff_spread
    (both : e.bbSeat ≠ none → e.sbSeat ≠ none) (started : startHand straddleFn deck e = .ok true e')
    (three : 3 ≤ e'.seated.length) : e'.Clockwise ↔ e.Spread := by
  obtain ⟨placed, positions, button, sbSeat, bbSeat, seated⟩ := startHand_seats started
  have same : e'.Clockwise ↔ placed.Clockwise := by rw [Clockwise, Clockwise, button, sbSeat, bbSeat]
  rw [same]
  rw [seated] at three
  cases big : e.bbSeat with
  | none =>
    have dealt : placed.seatsWhere placed.dealt = e.seatsWhere e.dealt := by
      unfold advancePositions at positions
      rw [big] at positions
      simp only [firstPositions] at positions
      split at positions
      · cases positions
      split at positions <;> cases positions <;> rfl
    exact ⟨fun _ => Or.inl big, fun _ => firstPositions_clockwise big (dealt ▸ three) positions⟩
  | some prevBb =>
    obtain ⟨prevSb, small⟩ := Option.ne_none_iff_exists'.mp (both (by rw [big]; simp))
    obtain ⟨onButton, onSmall, bb, found, onBig⟩ := movePositions_chain big small positions three
    have order : placed.Clockwise ↔ Circle.Ordered prevBb bb prevSb := by
      rw [Clockwise, onButton, onSmall, onBig, ← ordered_rotate]
      constructor
      · rintro ⟨_, _, rfl', rfl'', ordered⟩
        cases rfl'
        cases rfl''
        exact ordered
      exact fun ordered => ⟨prevBb, bb, rfl, rfl, ordered⟩
    rw [order]
    constructor
    · exact fun ordered => Or.inr ⟨prevSb, prevBb, bb, small, big, first_holds found, ordered⟩
    rintro (fresh | ⟨sb, prev, seat, isSb, isBb, eligible, ordered⟩)
    · rw [big] at fresh
      cases fresh
    rw [small] at isSb
    rw [big] at isBb
    cases isSb
    cases isBb
    obtain ⟨apart, -, -⟩ := ordered_distinct ordered
    obtain ⟨moved, near⟩ := next_nearest found eligible apart.symm
    exact ⟨Nat.pos_of_ne_zero fun zero => moved (dist_eq_zero zero).symm, lt_of_le_of_lt near ordered.2⟩

def Paired (e : Engine n) : Prop := e.bbSeat ≠ none → e.sbSeat ≠ none

theorem paired_of_same (sb : e'.sbSeat = e.sbSeat) (bb : e'.bbSeat = e.bbSeat) (h : e.Paired) : e'.Paired := by
  rwa [Paired, sb, bb]

theorem advancePositions_paired : Keeps (fun e : Engine n => e.Paired) (advancePositions : EngineM n Unit) := by
  intro e h
  unfold advancePositions
  split
  · unfold firstPositions
    split
    · exact h
    split
    · exact fun _ => by simp
    intro big absent
    change e.next _ _ = none at absent
    rw [absent] at big
    exact big rfl
  unfold movePositions
  split
  · exact fun some => absurd rfl some
  intro _
  obtain ⟨sb, small⟩ := (trailPositions_seats (e.moveBigBlind _ _) _ _ e.sbSeat).2
  change (trailPositions _ _ _ _).sbSeat ≠ none
  rw [small]
  simp

theorem playHand_paired (straddleFn : Option (Fin n → Bool)) (deck : List Card) :
    Keeps (fun e : Engine n => e.Paired) (playHand straddleFn deck) := by
  intro e h
  unfold playHand
  split
  · rename_i sbSeat bbSeat _ _
    have ground := ground_postAll (e.newHand deck) sbSeat bbSeat straddleFn
    refine keeps_bind (P := Paired) (fun s hs => ?_) (fun _ s hs => ?_) _
      (paired_of_same (congrArg Ground.sbSeat ground) (congrArg Ground.bbSeat ground) h)
    · obtain ⟨_, _, eq⟩ := dealHoles_deals s s (deals_refl s)
      exact paired_of_same (congrArg Engine.sbSeat eq) (congrArg Engine.bbSeat eq) hs
    unfold openPreflop
    split
    · have table := table_of_still (still_openRound s ‹_›)
      exact paired_of_same (congrArg Table.sbSeat table) (congrArg Table.bbSeat table) hs
    exact hs
  · have ground := ground_postSmallBlind (e.newHand deck) ‹_›
    exact paired_of_same (congrArg Ground.sbSeat ground) (congrArg Ground.bbSeat ground) h
  exact h

theorem startHand_paired (straddleFn : Option (Fin n → Bool)) (deck : List Card) :
    Keeps (fun e : Engine n => e.Paired) (startHand straddleFn deck) := by
  refine keeps_bind advancePositions_paired fun _ => ?_
  refine keeps_bind (keeps_modify fun _ h => h) fun _ => ?_
  refine keeps_bind (m := get) (fun _ h => h) fun s => ?_
  split
  · exact keeps_pure _
  exact keeps_bind (playHand_paired straddleFn deck) fun _ => keeps_pure _

theorem next_paired (op : TableOp n) (h : e.Paired) : (op.next e).Paired := by
  have kept : ∀ s : Engine n, s.table = e.table → s.Paired := fun s table =>
    paired_of_same (congrArg Table.sbSeat table) (congrArg Table.bbSeat table) h
  cases op with
  | startHand straddleFn deck => exact startHand_paired straddleFn deck e h
  | act seat action amount =>
    refine kept _ ?_
    cases ran : Engine.act seat action amount e with
    | ok u e' => simp only [TableOp.next, ran, after_ok, act_table ran]
    | error x e' => simp only [TableOp.next, ran, after_error, act_refused ran]
  | nextStreet => exact kept _ (nextStreet_table e.table e rfl)
  | sitOut i => exact h
  | sitIn i postNow => exact h
  | addChips i amount =>
    simp only [TableOp.next, addChips]
    split <;> exact h
  | settle runs forceTabled => exact kept _ (settle_table e.table runs forceTabled e rfl)

theorem run_paired (ops : List (TableOp n)) (h : e.Paired) : (run e ops).Paired := by
  induction ops generalizing e with
  | nil => exact h
  | cons op rest ih => exact ih (next_paired op h)

/-- Whatever happened at the table before, a hand that deals three seats or more has its button, small
blind and big blind on three seats in clockwise order exactly if it is the first hand or somebody on
the way from the last big blind to the last small blind can take the big blind. -/
theorem positions_clockwise_iff {chips : Fin n → ℤ} {button : Fin n} {sb bb : ℤ} {structure' : BettingStructure}
    {bbAnte dealSittingOut : Bool} (ops : List (TableOp n)) {straddleFn : Option (Fin n → Bool)} {deck : List Card}
    (started : startHand straddleFn deck
      (run (init chips button sb bb structure' bbAnte dealSittingOut) ops) = .ok true e')
    (three : 3 ≤ e'.seated.length) :
    e'.Clockwise ↔ (run (init chips button sb bb structure' bbAnte dealSittingOut) ops).Spread :=
  clockwise_iff_spread (run_paired ops fun some => absurd rfl some) started three

def threeSeats (third : ℤ) : Engine 3 := init ![100, 100, third] 2 1 2 .noLimit false false

theorem positions_clockwise_iff_threeSeats :
    let ops : List (TableOp 3) := [.startHand none fullDeck, .act 0 .fold (.whole 0), .act 1 .fold (.whole 0), .settle 1 false,
      .startHand none fullDeck, .act 1 .fold (.whole 0), .act 2 .fold (.whole 0), .settle 1 false]
    let third := startHand none fullDeck (run (threeSeats 100) ops)
    value third = some true ∧ (after third).handNo = 3 ∧ ((after third).Clockwise ↔ (run (threeSeats 100) ops).Spread) :=
  ⟨by decide +kernel, by decide +kernel, positions_clockwise_iff _ (eq_ok_of_value (by decide +kernel)) (by decide +kernel)⟩

/-- Two heads-up hands put the small blind and the button on one seat. When the third seat has bought
chips, that seat is both the button and the big blind. -/
theorem button_takes_big_blind :
    let ops : List (TableOp 3) := [.startHand none fullDeck, .act 0 .fold (.whole 0), .settle 1 false,
      .startHand none fullDeck, .act 1 .fold (.whole 0), .settle 1 false, .addChips 2 100]
    let third := startHand none fullDeck (run (threeSeats 0) ops)
    Along (fun e op => op.Allowed e ∧ op.InHand e) (threeSeats 0) ops ∧ value third = some true ∧
      (after third).seated = [0, 1, 2] ∧ (after third).button = 1 ∧ (after third).sbSeat = some 0 ∧
      (after third).bbSeat = some 1 := by
  decide +kernel

end Holdem.Engine
