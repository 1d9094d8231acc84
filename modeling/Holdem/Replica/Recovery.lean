import Holdem.Engine.Gist
import Holdem.Engine.Layers
import Holdem.Engine.Hand
import Holdem.Engine.StartView
import Holdem.Replica.Side

/-!
What the digest leaves out. The marks of a round can be told from what is hashed as far as they matter,
and so can the chips dealt with; the last aggressor on the river cannot.
-/

namespace Holdem

open Method

namespace Engine

variable {n : ℕ} {e e' : Engine n} {i : Fin n} {limits : ℤ × ℤ × BettingStructure × Bool × Bool} {total : ℤ}
  {action : Action}

def RiverOnly (e : Engine n) : Prop := e.riverAggr ≠ none → e.street = .river ∧ 0 < e.raisesThisStreet

theorem raiseTo_riverOnly (h : e.RiverOnly) (add : ℤ) : (e.raiseTo i add).RiverOnly := by
  have raised : ((e.update i (raiseChips (decide (e.currentBet = 0)) add)).raiseBet i).RiverOnly := by
    intro some
    by_cases river : e.street = .river
    · exact ⟨river, Nat.succ_pos _⟩
    have none : e.riverAggr = none := by
      by_contra some
      exact river (h some).1
    exact absurd ((if_neg river).trans none) some
  unfold raiseTo
  dsimp only
  split
  · split
    · exact raised
    exact raised
  exact h

theorem call_riverOnly (h : e.RiverOnly) : (e.call i).RiverOnly := by
  unfold call
  dsimp only
  split <;> exact h

theorem move_riverOnly (move : Move e i action e') (h : e.RiverOnly) : (e'.actDone i).RiverOnly := by
  cases move with
  | fold => exact h
  | call => exact call_riverOnly h
  | raise target => exact raiseTo_riverOnly h _
  | raiseCall => exact call_riverOnly h

theorem openRound_riverOnly (h : e.RiverOnly) (first : Fin n) : (e.openRound first).RiverOnly := by
  unfold openRound
  dsimp only
  split <;> exact h

structure Going (limits : ℤ × ℤ × BettingStructure × Bool × Bool) (total : ℤ) (e : Engine n) : Prop where
  paced : e.Paced
  limits : e.limits = limits
  bank : e.bank = total
  river : e.RiverOnly

theorem act_going {seat : ℤ} {amount : Amount} {u : Unit} (h : e.Going limits total)
    (ran : act seat action amount e = .ok u e') : e'.Going limits total := by
  refine ⟨?_, (limits_of_table (act_table ran)).trans h.limits, (pays_bank (act_pays ran)).trans h.bank, ?_⟩
  · obtain ⟨i, -, turn, -, moved, move, rfl⟩ := act_moves ran
    exact move_paced h.paced turn move
  obtain ⟨i, -, -, -, moved, move, rfl⟩ := act_moves ran
  exact move_riverOnly move h.river

theorem Going.redeck (h : e.Going limits total) (deck : List Card) : { e with deck }.Going limits total :=
  ⟨h.paced.kin (f := { e with deck }) rfl rfl, h.limits, h.bank, h.river⟩

theorem nextStreet_going {k : ℕ} {street : Street} {rest cards : List Card} (h : e.Going limits total) (closed : e.actor = none)
    (deals : e.street.deals = some (k, street)) (deck : e.deck = rest ++ cards) (length : cards.length = k) :
    ∃ e', nextStreet e = .ok () e' ∧ e'.Going limits total := by
  have dealt := nextStreet_of_deck deals deck length
  have table := keeps_ok (P := fun v => v.table = e.table) (nextStreet_table e.table) rfl dealt
  have pays := keeps_ok (nextStreet_pays e) (pays_refl e) dealt
  have early : e.riverAggr = none := by
    by_contra some
    rw [(h.river some).1] at deals
    cases deals
  refine ⟨_, dealt, nextStreet_paced h.paced closed dealt, (limits_of_table table).trans h.limits, (pays_bank pays).trans h.bank, ?_⟩
  apply openRound_riverOnly
  exact fun some => absurd early some

theorem startHand_refused {straddleFn : Option (Fin n → Bool)} {deck : List Card}
    (ran : startHand straddleFn deck e = .ok false e') : ∃ placed, e.Rearranges placed ∧ e' = placed.resetSeats := by
  obtain ⟨_, placed, positions, rest⟩ := bind_ok ran
  change (if placed.resetSeats.seated.length < 2 then pure false else do
    playHand straddleFn deck; pure true : EngineM n Bool) placed.resetSeats = _ at rest
  refine ⟨placed, rearranges_of_ok positions, ?_⟩
  split at rest
  · cases rest
    rfl
  obtain ⟨_, t, -, rest⟩ := bind_ok rest
  cases rest

def fresh (chips : Fin n → ℤ) (last : Fin n) (sb bb : ℤ) (bettingStructure : BettingStructure) (button : Fin n)
    (bbSeat sbSeat : Option (Fin n)) : Engine n :=
  { init chips last sb bb bettingStructure false false with button, bbSeat, sbSeat }

section Fresh

variable {chips : Fin n → ℤ} {last button : Fin n} {sb bb : ℤ} {bettingStructure : BettingStructure} {bbSeat sbSeat : Option (Fin n)}

theorem fresh_bank : (fresh chips last sb bb bettingStructure button bbSeat sbSeat).bank = ∑ i, chips i :=
  Finset.sum_congr rfl fun i _ => by
    show chips i + 0 + 0 = chips i
    ring

theorem startHand_going {deck : List Card} {started : Bool} (small : 0 ≤ sb) (blind : 0 < bb)
    (ran : startHand none deck (fresh chips last sb bb bettingStructure button bbSeat sbSeat) = .ok started e') :
    e'.Going (sb, bb, bettingStructure, false, false) (∑ i, chips i) := by
  cases started with
  | true =>
    refine ⟨startHand_paced small blind ran, startHand_limits ran, ?_, ?_⟩
    · exact Finset.sum_congr rfl fun i _ => (startHand_chips small blind.le ran i).1
    obtain ⟨⟨placed, sbSeat, bbSeat, dealt, first, -, -, -, -, deal, -, rfl⟩⟩ := startHand_opening ran
    have none : (placed.posted sbSeat bbSeat none deck).riverAggr = none :=
      congrArg Ground.riverAggr (posted_ground placed sbSeat bbSeat none deck)
    obtain ⟨_, _, rfl⟩ := keeps_ok (dealHoles_deals _) (deals_refl _) deal
    apply openRound_riverOnly
    exact fun some => absurd none some
  | false =>
    obtain ⟨placed, moved, rfl⟩ := startHand_refused ran
    have cleared : placed.Cleared := fun i => by
      obtain ⟨_, _, _, same⟩ := moved.players i
      rw [same]
      exact ⟨rfl, rfl⟩
    have bank : placed.resetSeats.bank = ∑ i, chips i := by
      rw [← fresh_bank]
      exact Finset.sum_congr rfl fun i _ => (resetSeats_worth cleared i).trans (rearranges_chips moved i).1
    have ready := resetSeats_ready placed
    obtain ⟨_, _, _, rest⟩ := moved.rest
    generalize placed.players = players at rest
    subst rest
    refine ⟨⟨⟨⟨blind, ready, fun _ => le_refl 0, fun _ => le_refl 0, le_refl bb⟩, ?_, fun _ _ _ => rfl, ?_, ?_⟩, .inl rfl⟩,
      rfl, bank, fun some => absurd rfl some⟩
    · exact fun i asked => absurd asked (Finset.notMem_empty i)
    · exact fun i turn => nomatch turn
    exact ⟨fun _ => rfl, fun _ => rfl⟩

end Fresh

end Engine

namespace Replica

open Engine

variable {n : ℕ} {r s : Replica n} {aggr : Prop} {forceTabled : Bool}

inductive Reached (handNo : ℕ) (sb bb : ℤ) (bettingStructure : BettingStructure) : Replica n → Prop
  | start {last button : Fin n} {chips : Fin n → ℤ} {bbSeat sbSeat : Option (Fin n)} {started : Bool} {r : Replica n} :
      startHand button bbSeat sbSeat (init handNo last chips sb bb bettingStructure) = .ok started r →
      Reached handNo sb bb bettingStructure r
  | action {r : Replica n} (seq : ℤ) (entry : Entry) :
      Reached handNo sb bb bettingStructure r → Reached handNo sb bb bettingStructure (after (applyAction seq entry r))
  | street {r : Replica n} (cards : List (Option Card)) :
      Reached handNo sb bb bettingStructure r → Reached handNo sb bb bettingStructure (after (advanceStreet cards r))

structure Underway (handNo : ℕ) (limits : ℤ × ℤ × BettingStructure × Bool × Bool) (r : Replica n) : Prop where
  going : r.engine.Going limits r.startTotal
  phase : r.phase = phaseOf r.engine
  handNo : r.handNo = handNo
  real : r.realHoles = ∅
  result : r.result = none

section Underway

variable {handNo : ℕ} {limits : ℤ × ℤ × BettingStructure × Bool × Bool} {sb bb : ℤ} {bettingStructure : BettingStructure}

theorem applyAction_underway (seq : ℤ) (entry : Entry) : Keeps (Underway handNo limits) (applyAction (n := n) seq entry) := by
  refine applyAction_keeps (fun r _ _ h => ⟨h.going, h.phase, h.handNo, h.real, h.result⟩)
    (fun r entry engine accepted h => ?_) seq entry
  have on : r.phase ≠ .settled := by rw [accepted.betting]; decide
  exact ⟨act_going h.going accepted.ran, moved_phase on engine, h.handNo, h.real, h.result⟩

theorem closed_of_over {e : Engine n} (round : e.Round) (shut : phaseOf e = .streetOver) : e.actor = none := by
  refine round.closed.mpr ?_
  by_contra asked
  unfold phaseOf at shut
  rw [if_pos asked] at shut
  split at shut <;> cases shut

theorem advanceStreet_underway (cards : List (Option Card)) : Keeps (Underway handNo limits) (advanceStreet (n := n) cards) := by
  intro r h
  obtain ⟨x, raised⟩ | ⟨engine, dealt, ran⟩ := advanceStreet_cases cards r
  · rw [raised]
    exact h
  rw [ran]
  obtain ⟨next, deals⟩ := cardsDue_deals dealt.due
  have closed := closed_of_over h.going.paced.round (h.phase.symm.trans dealt.shut)
  obtain ⟨engine', ran', going⟩ := nextStreet_going (h.going.redeck (r.engine.deck ++ cards.reduceOption)) closed deals rfl rfl
  cases dealt.ran.symm.trans ran'
  have on : r.phase ≠ .settled := by rw [dealt.shut]; decide
  exact ⟨going, moved_phase (r := r.preload cards.reduceOption) on engine, h.handNo, h.real, h.result⟩

theorem reached_underway (small : 0 ≤ sb) (blind : 0 < bb) (reached : Reached handNo sb bb bettingStructure r) :
    Underway handNo (sb, bb, bettingStructure, false, false) r := by
  induction reached with
  | start started =>
    obtain ⟨engine, ran, rfl⟩ := startHandFrom_ok started
    exact ⟨startHand_going small blind ran, moved_phase (show Phase.betting ≠ .settled by decide) engine, rfl, rfl, rfl⟩
  | action seq entry _ ih => exact applyAction_underway seq entry _ ih
  | street cards _ ih => exact advanceStreet_underway cards _ ih

end Underway

/-- Replicas that agree on all that is left of the hand, the real cards among it, and on the aggressor if it
is asked for. -/
structure Twins (aggr : Prop) (r s : Replica n) : Prop where
  side : Side (Agree aggr r.realHoles) (fun a b => a = r.realHoles ∧ b = r.realHoles) r s
  phase : r.phase = phaseOf r.engine

theorem twins_of_side (real : Finset ℤ) (side : Side (Agree aggr real) (fun a b => a = real ∧ b = real) r s)
    (phase : r.phase = phaseOf r.engine) : Twins aggr r s := by
  obtain ⟨rfl, -⟩ := side.real
  exact ⟨side, phase⟩

theorem agree_carries {real : Finset ℤ} : Carries (Agree (n := n) aggr real) where
  toActs := agree_acts
  street h := h.kin.reads Engine.street
  phase h := h.kin.reads phaseOf

theorem digest_of_kin {R : Engine n → Engine n → Prop} {T : Finset ℤ → Finset ℤ → Prop} (kin : Kin r.engine s.engine)
    (side : Side R T r s) : r.digestParts = s.digestParts := by
  have engine := kin.reads fun v => digestParts { r with engine := v }
  refine engine.trans ?_
  show digestParts { r with engine := s.engine } = digestParts s
  unfold digestParts
  rw [side.handNo, side.nextSeq, side.phase, side.result]

def Phased (r : Replica n) : Prop := r.phase = phaseOf r.engine

theorem applyAction_phased (seq : ℤ) (entry : Entry) : Keeps Phased (applyAction (n := n) seq entry) := by
  refine applyAction_keeps (fun r _ _ h => h) (fun r entry engine accepted h => ?_) seq entry
  exact moved_phase (by rw [accepted.betting]; decide) engine

theorem advanceStreet_phased (cards : List (Option Card)) : Keeps Phased (advanceStreet (n := n) cards) := by
  intro r h
  obtain ⟨x, raised⟩ | ⟨engine, dealt, ran⟩ := advanceStreet_cases cards r
  · rw [raised]
    exact h
  rw [ran]
  exact moved_phase (r := r.preload cards.reduceOption) (show r.phase ≠ .settled by rw [dealt.shut]; decide) engine

theorem applyAction_twins (seq : ℤ) (entry : Entry) :
    Related (Twins aggr) (Twins aggr) (applyAction (n := n) seq entry) (applyAction seq entry) := by
  intro r s h
  have sides := applyAction_side agree_carries seq entry r s h.side
  exact (sides.keeps (applyAction_phased seq entry) h.phase).mono fun _ _ both => twins_of_side _ both.1 both.2

theorem advanceStreet_twins (cards : List (Option Card)) :
    Related (Twins aggr) (Twins aggr) (advanceStreet (n := n) cards) (advanceStreet cards) := by
  intro r s h
  have sides := h.side.advanceStreet agree_carries cards fun shut next deals => by
    have agree := h.side.engine
    have closed := closed_of_over agree.left.round (h.phase.symm.trans shut)
    have loaded : Agree aggr r.realHoles (r.preload cards.reduceOption).engine (s.preload cards.reduceOption).engine :=
      ⟨⟨agree.kin, agree.river⟩, agree.left.kin rfl rfl, agree.right.kin rfl rfl, agree.holes⟩
    obtain ⟨e, f, ran, ran', after⟩ := loaded.street closed deals rfl rfl rfl
    rw [ran, ran']
    exact Matches.ok after
  exact (sides.keeps (advanceStreet_phased cards) h.phase).mono fun _ _ both => twins_of_side _ both.1 both.2

theorem hole_kin (e : Engine n) (i : Fin n) (cards : List Card) : Kin e (e.update i fun p => { p with hole := cards }) := by
  have players := update_keeps (e := e) (f := fun p => { p with hole := cards }) Player.gist i rfl
  exact congrArg (fun players => { e.gist with players }) players.symm

theorem putHole_twins (seat : ℤ) (cards : List Card) :
    Related (Twins aggr) (Twins aggr) (putHole (n := n) seat cards) (putHole seat cards) := by
  intro r s h
  unfold putHole
  cases at' : seatAt n seat with
  | none => exact .error h
  | some i =>
    have agree := h.side.engine
    have left := hole_kin r.engine i cards
    have right := hole_kin s.engine i cards
    refine .ok (twins_of_side (insert seat r.realHoles) { h.side with engine := ?_, real := ?_ } ?_)
    · refine ⟨⟨left.symm.trans (agree.kin.trans right), agree.river⟩, agree.left.kin left rfl, agree.right.kin right rfl, fun j known => ?_⟩
      by_cases here : j = i
      · rw [here, update_same, update_same]
      rw [update_other _ _ here, update_other _ _ here]
      refine agree.holes j ((Finset.mem_insert.mp known).resolve_left fun same => here ?_)
      rw [← same, seatAt_val] at at'
      exact Option.some.inj at'
    · exact ⟨rfl, congrArg (insert seat) h.side.real.2⟩
    exact h.phase.trans (left.reads phaseOf)

theorem setAllHoles_twins (holes : List (ℤ × List (Option Card))) :
    Related (Twins aggr) (Twins aggr) (setAllHoles (n := n) holes) (setAllHoles holes) := by
  intro r s h
  unfold setAllHoles
  rw [show r.engine.board = s.engine.board from h.side.engine.kin.reads Engine.board]
  split
  · exact .error h
  exact related_forM holes (fun _ => putHole_twins _ _) r s h

theorem finish_twins (plays : forceTabled = false → aggr) (h : Twins aggr r s) :
    Matches (fun t t' => t.digestParts = t'.digestParts) (finish forceTabled r) (finish forceTabled s) := by
  have agree := h.side.engine
  have contested : r.engine.contested = s.engine.contested := agree.kin.seatsWhere fun _ => rfl
  have unverified : r.unverified = s.unverified := by
    unfold Replica.unverified
    rw [contested, h.side.real.2]
  have side := h.side.mono fun agree => agree.toSame
  refine (side.finish (same_settles plays) (fun h i => h.kin.reads fun v => (v.players i).stack) unverified ?_).mono
    fun _ _ side => digest_of_kin side.engine.kin side
  intro verified i member
  refine agree.holes i ?_
  by_contra dummy
  exact List.filter_eq_nil_iff.mp verified i member (by simpa using dummy)

def rebuilt (limits : ℤ × ℤ × BettingStructure × Bool × Bool) (d : Digest n) : Engine n :=
  let (sb, bb, bettingStructure, bbAnte, dealSittingOut) := limits
  { players := fun i =>
      let ⟨stack, bet, totalLive, totalDead, folded, allIn, inSeat⟩ := d.players i
      { stack, bet, totalLive, totalDead, folded, allIn, inSeat }
    sb, bb, bettingStructure, bbAnte, dealSittingOut
    button := d.button, sbSeat := d.sbSeat, bbSeat := d.bbSeat, board := d.board, street := d.street
    currentBet := d.currentBet, minRaise := d.minRaise, needToAct := d.need, actor := d.actor
    raisesThisStreet := d.raises, noRaise := d.noRaise }

theorem gist_rebuilt (r : Replica n) : r.engine.gist = rebuilt r.engine.limits r.digestParts := rfl

theorem underway_twins {handNo : ℕ} {limits : ℤ × ℤ × BettingStructure × Bool × Bool} (left : Underway handNo limits r)
    (right : Underway handNo limits s) (idle : r.pending = []) (idle' : s.pending = [])
    (same : r.digestParts = s.digestParts) (river : aggr → r.engine.riverAggr = s.engine.riverAggr) : Twins aggr r s := by
  have kin : Kin r.engine s.engine := by
    show r.engine.gist = s.engine.gist
    rw [gist_rebuilt, gist_rebuilt, same, left.going.limits, right.going.limits]
  have total : r.startTotal = s.startTotal := by
    rw [← left.going.bank, ← right.going.bank]
    exact kin.reads bank
  refine twins_of_side ∅ ⟨⟨⟨kin, river⟩, left.going.paced, right.going.paced, ?_⟩, ⟨left.real, right.real⟩,
    congrArg Digest.hand same, total, congrArg Digest.seq same, congrArg Digest.phase same, idle.trans idle'.symm,
    congrArg Digest.result same⟩ left.phase
  exact fun i known => absurd known (Finset.notMem_empty _)

inductive Onward where
  | applyAction (seq : ℤ) (entry : Entry)
  | advanceStreet (cards : List (Option Card))
  | setAllHoles (holes : List (ℤ × List (Option Card)))

def Onward.make : Onward → ReplicaM n (Option Verdict)
  | .applyAction seq entry => do return some (← Replica.applyAction seq entry)
  | .advanceStreet cards => do Replica.advanceStreet cards; return none
  | .setAllHoles holes => do Replica.setAllHoles holes; return none

theorem make_twins (call : Onward) : Related (Twins aggr) (Twins aggr) (call.make (n := n)) call.make := by
  cases call with
  | applyAction seq entry => exact related_bind (applyAction_twins seq entry) (fun _ _ h => h) fun _ => related_pure _
  | advanceStreet cards => exact related_bind (advanceStreet_twins cards) (fun _ _ h => h) fun _ => related_pure _
  | setAllHoles holes => exact related_bind (setAllHoles_twins holes) (fun _ _ h => h) fun _ => related_pure _

def course (r : Replica n) (calls : List Onward) : List (Option (Option Verdict) × Option PyError × Digest n) :=
  trace Onward.make (fun _ => false) digestParts r calls

/-- Hands of one digest go on the same way, call by call, and are finished with the same result, unless the
showdown asks for an aggressor on the river that they remember differently. -/
theorem digest_determines {handNo : ℕ} {sb bb : ℤ} {bettingStructure : BettingStructure} (small : 0 ≤ sb) (blind : 0 < bb)
    (left : Reached handNo sb bb bettingStructure r) (right : Reached handNo sb bb bettingStructure s)
    (idle : r.pending = []) (idle' : s.pending = []) (same : r.digestParts = s.digestParts) (forceTabled : Bool)
    (aggressor : forceTabled = false → r.engine.street = .river → 0 < r.engine.raisesThisStreet →
      r.engine.riverAggr = s.engine.riverAggr) (calls : List Onward) :
    r.course calls = s.course calls ∧
      answer (finish forceTabled (runAll Onward.make r calls)) = answer (finish forceTabled (runAll Onward.make s calls)) ∧
      (after (finish forceTabled (runAll Onward.make r calls))).digestParts =
        (after (finish forceTabled (runAll Onward.make s calls))).digestParts := by
  have going := reached_underway small blind left
  have going' := reached_underway small blind right
  have river : forceTabled = false → r.engine.riverAggr = s.engine.riverAggr := by
    intro plays
    have street : r.engine.street = s.engine.street := congrArg Digest.street same
    have raises : r.engine.raisesThisStreet = s.engine.raisesThisStreet := congrArg Digest.raises same
    by_cases raised : r.engine.street = .river ∧ 0 < r.engine.raisesThisStreet
    · exact aggressor plays raised.1 raised.2
    have quiet : r.engine.riverAggr = none := by
      by_contra some
      exact raised (going.going.river some)
    have quiet' : s.engine.riverAggr = none := by
      by_contra some
      exact raised (by rw [street, raises]; exact going'.going.river some)
    rw [quiet, quiet']
  have twins : Twins (forceTabled = false) r s := underway_twins going going' idle idle' same river
  obtain ⟨courses, ends⟩ := trace_related Onward.make (fun _ => false) digestParts
    (fun _ _ h => digest_of_kin h.side.engine.kin h.side) make_twins calls twins
  have finished := finish_twins id ends
  exact ⟨courses, finished.answer, finished.after⟩

theorem finish_showdown {scored : List (RunScores n)} {pots : List (Pot n)} {awards : List (PotResult n)}
    (shut : r.phase = .showdown) (full : 5 ≤ r.engine.board.length) (many : 1 < r.engine.contested.length)
    (verified : r.unverified = []) (called : r.engine.uncalled = none)
    (score : value (scoreRuns r.engine.contested [r.engine.board] r.engine.atShowdown) = some scored)
    (layers : r.engine.atShowdown.layers r.engine.contested = pots)
    (award : value (awardPots r.engine.contested scored pots r.engine.atShowdown) = some awards)
    (conserved : ∑ i, (((after (awardPots r.engine.contested scored pots r.engine.atShowdown)).settled r.engine.contested none
      forceTabled scored awards).2.players i).stack = r.startTotal) :
    value (finish forceTabled r) = some ((after (awardPots r.engine.contested scored pots r.engine.atShowdown)).settled
      r.engine.contested none forceTabled scored awards).1 := by
  have same : r.engine.returnUncalled = r.engine := by
    unfold Engine.returnUncalled
    rw [called]
  have board : completeBoard 1 forceTabled r.engine.returnUncalled = .ok ([r.engine.board], forceTabled) r.engine.atShowdown := by
    rw [same, completeBoard_full fun _ => full, if_pos many]
  have scores : scoreRuns r.engine.returnUncalled.contested [r.engine.board] r.engine.atShowdown = .ok scored r.engine.atShowdown := by
    rw [same, eq_ok_of_value score]
    exact congrArg _ (scoreRuns_keeps (fun e => e = r.engine.atShowdown) _ _ _ rfl)
  have awarded : awardPots r.engine.returnUncalled.contested scored (r.engine.atShowdown.layers r.engine.returnUncalled.contested)
      r.engine.atShowdown = .ok awards (after (awardPots r.engine.contested scored pots r.engine.atShowdown)) := by
    rw [same, layers]
    exact eq_ok_of_value award
  have settled := settle_of_steps board scores awarded
  rw [same, called] at settled
  unfold finish
  rw [if_neg (by simp [shut]), if_neg (by omega), if_neg (by simp [verified]), bind_of_ok (onEngine_of_ok settled)]
  exact congrArg value (if_neg (not_not.mpr conserved))

def revealed (first count : ℕ) : List (Option Card) := ((fullDeck.drop first).take count).map some

def checkedFlop : List Onward :=
  [.applyAction 0 ⟨0, .call, 0⟩, .applyAction 1 ⟨1, .call, 0⟩, .advanceStreet (revealed 0 3),
    .applyAction 2 ⟨1, .call, 0⟩, .applyAction 3 ⟨0, .raise, 10⟩, .applyAction 4 ⟨1, .call, 0⟩, .advanceStreet (revealed 3 1),
    .applyAction 5 ⟨1, .call, 0⟩, .applyAction 6 ⟨0, .call, 0⟩, .advanceStreet (revealed 4 1),
    .applyAction 7 ⟨1, .raise, 20⟩, .applyAction 8 ⟨0, .call, 0⟩]

def checkedRiver : List Onward :=
  [.applyAction 0 ⟨0, .call, 0⟩, .applyAction 1 ⟨1, .call, 0⟩, .advanceStreet (revealed 0 3),
    .applyAction 2 ⟨1, .raise, 10⟩, .applyAction 3 ⟨0, .call, 0⟩, .advanceStreet (revealed 3 1),
    .applyAction 4 ⟨1, .call, 0⟩, .applyAction 5 ⟨0, .call, 0⟩, .advanceStreet (revealed 4 1),
    .applyAction 6 ⟨1, .call, 0⟩, .applyAction 7 ⟨0, .raise, 20⟩, .applyAction 8 ⟨1, .call, 0⟩]

def audit : Onward := .setAllHoles [(0, revealed 5 2), (1, revealed 7 2)]

theorem reached_run {handNo : ℕ} {sb bb : ℤ} {bettingStructure : BettingStructure} {calls : List Onward}
    (reached : Reached handNo sb bb bettingStructure r) (open' : ∀ holes, .setAllHoles holes ∉ calls) :
    Reached handNo sb bb bettingStructure (runAll Onward.make r calls) := by
  induction calls generalizing r with
  | nil => exact reached
  | cons call calls ih =>
    refine ih ?_ fun holes member => open' holes (List.mem_cons_of_mem call member)
    change Reached handNo sb bb bettingStructure (after (call.make r))
    cases call with
    | applyAction seq entry =>
      have ends : after (Onward.make (.applyAction seq entry) r) = after (applyAction seq entry r) := after_map _ some r
      exact ends ▸ .action seq entry reached
    | advanceStreet cards =>
      have ends : after (Onward.make (.advanceStreet cards) r) = after (advanceStreet cards r) :=
        after_map _ (fun _ => none) r
      exact ends ▸ .street cards reached
    | setAllHoles holes => exact (open' holes (.head _)).elim

theorem audited_layers {e : Engine 2} {alive : List (Fin 2)} (both : alive = [0, 1])
    (live : ∀ i, (e.players i).totalLive = 32) (dead : ∀ i, (e.players i).totalDead = 0) :
    e.layers alive = [⟨64, [0, 1]⟩] := by
  have lives : (fun i => (e.players i).totalLive) = fun _ => 32 := funext live
  have deads : (fun i => (e.players i).totalDead) = fun _ => 0 := funext dead
  have steps : levels (fun _ : Fin 2 => 32) = [32] := levels_eq (by decide) (by decide) (by decide)
  rw [both, Engine.layers, lives, deads, potLayers, steps]
  decide +kernel

theorem limped_start : Reached 1 1 2 .noLimit (after (startHand 1 none none duel)) :=
  .start (eq_ok_of_value (by decide +kernel) : startHand 1 none none (init 1 1 (fun _ => 100) 1 2 .noLimit) = .ok true _)

def limpedTo (calls : List Onward) : Replica 2 := runAll Onward.make (after (startHand 1 none none duel)) calls

theorem limped_digests : (limpedTo checkedFlop).digestParts = (limpedTo checkedRiver).digestParts := by
  unfold digestParts
  rw [Digest.mk.injEq]
  decide +kernel

theorem digest_determines_tabled :
    (limpedTo checkedFlop).engine.riverAggr ≠ (limpedTo checkedRiver).engine.riverAggr ∧
      (limpedTo checkedFlop).course [audit] = (limpedTo checkedRiver).course [audit] ∧
      answer (finish true (runAll Onward.make (limpedTo checkedFlop) [audit])) =
        answer (finish true (runAll Onward.make (limpedTo checkedRiver) [audit])) := by
  have determined := digest_determines (by decide) (by decide) (reached_run limped_start (by simp [checkedFlop]))
    (reached_run limped_start (by simp [checkedRiver])) (by decide +kernel) (by decide +kernel) limped_digests true
    (fun plays => nomatch plays) [audit]
  exact ⟨by decide +kernel, determined.1, determined.2.1⟩

/-- The two hands have one digest. The seat that bet the river shows first, and that is not the same seat. -/
theorem river_aggressor_hidden :
    ∃ r s : Replica 2, Reached 1 1 2 .noLimit r ∧ Reached 1 1 2 .noLimit s ∧ r.pending = [] ∧ s.pending = [] ∧
      r.digestParts = s.digestParts ∧
      (value (finish false (runAll Onward.make r [audit]))).map SettleResult.order = some [1, 0] ∧
      (value (finish false (runAll Onward.make s [audit]))).map SettleResult.order = some [0, 1] := by
  refine ⟨limpedTo checkedFlop, limpedTo checkedRiver, reached_run limped_start (by simp [checkedFlop]),
    reached_run limped_start (by simp [checkedRiver]), by decide +kernel, by decide +kernel, limped_digests, ?_, ?_⟩
  all_goals
    rw [@finish_showdown _ _ false _ [⟨64, [0, 1]⟩] _ (by decide +kernel) (by decide +kernel) (by decide +kernel)
      (by decide +kernel) (by decide +kernel) (Option.some_get (by decide +kernel)).symm
      (audited_layers (by decide +kernel) (by decide +kernel) (by decide +kernel))
      (Option.some_get (by decide +kernel)).symm (by decide +kernel)]
    decide +kernel

end Replica

end Holdem
