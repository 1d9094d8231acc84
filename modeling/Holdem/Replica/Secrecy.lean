import Holdem.Engine.StartView
import Holdem.Replica.Side

/-!
Hidden cards do not show. `Replica.face` leaves out the cards in hand and dummy deck and which hands are
real: every public call keeps equal faces equal, and a finished hand is paid by the cards tabled.
-/

namespace Holdem.Replica

variable {n : ℕ} {r s : Replica n} {named : List ℤ} {call : Call}

open Method Engine

def face (r : Replica n) : Replica n := { r with engine := r.engine.view, realHoles := ∅ }

def Mirror (r s : Replica n) : Prop := r.face = s.face

theorem Mirror.reads {α : Type} (h : Mirror r s) (g : Replica n → α) : g r.face = g s.face := congrArg g h

theorem Mirror.alike (h : Mirror r s) : Alike r.engine s.engine := h.reads Replica.engine

theorem Mirror.withEngine {e f : Engine n} (h : Mirror r s) (alike : Alike e f) :
    Mirror (r.withEngine e) (s.withEngine f) := by
  have engines : e.view = f.view := alike
  show Replica.face _ = Replica.face _
  have rest := h.reads fun v => { v with engine := e.view }
  exact rest.trans (congrArg (fun v => { s.face with engine := v }) engines)

theorem mirror_side : Mirror (n := n) = Side Alike fun _ _ => True := by
  funext r s
  refine propext ⟨fun h => ?_, fun h => ?_⟩
  · exact ⟨h.alike, trivial, h.reads Replica.handNo, h.reads Replica.startTotal, h.reads Replica.nextSeq,
      h.reads Replica.phase, h.reads Replica.pending, h.reads Replica.result⟩
  obtain ⟨engine, -, handNo, startTotal, nextSeq, phase, pending, result⟩ := h
  have engine : r.engine.view = s.engine.view := engine
  show Replica.face r = Replica.face s
  unfold face
  rw [engine, handNo, startTotal, nextSeq, phase, pending, result]

theorem alike_carries : Carries (Alike (n := n)) where
  toActs := alike_acts
  street h := h.reads Engine.street
  phase h := h.reads phaseOf

theorem recomputePhase_mirror (h : Mirror r s) : Mirror r.recomputePhase s.recomputePhase := by
  rw [mirror_side] at h ⊢
  exact h.recomputePhase alike_carries

theorem applyAction_mirror (seq : ℤ) (entry : Entry) :
    Related Mirror Mirror (applyAction (n := n) seq entry) (applyAction seq entry) := by
  rw [mirror_side]
  exact applyAction_side alike_carries seq entry

theorem advanceStreet_mirror (cards : List (Option Card)) :
    Related Mirror Mirror (advanceStreet (n := n) cards) (advanceStreet cards) := by
  rw [mirror_side]
  intro r s h
  refine h.advanceStreet alike_carries cards fun _ next deals => ?_
  have loaded : Alike (r.preload cards.reduceOption).engine (s.preload cards.reduceOption).engine :=
    show Engine.view _ = Engine.view _ from h.engine
  obtain ⟨e', f', left, right, alike⟩ := nextStreet_alike loaded deals rfl rfl rfl
  rw [left, right]
  exact .ok alike

theorem hole_alike (e : Engine n) (i : Fin n) (cards : List Card) :
    Alike (e.update i fun p => { p with hole := cards }) e := by
  have players := update_keeps (e := e) (f := fun p => { p with hole := cards }) Player.veil i rfl
  show Engine.view _ = Engine.view _
  exact congrArg (fun players => { e.view with players }) players

theorem putHole_face (seat : ℤ) (cards : List Card) (r : Replica n) : (after (putHole seat cards r)).face = r.face := by
  unfold putHole
  split
  · rfl
  rename_i i _
  exact congrArg (fun engine => { r.face with engine }) (hole_alike r.engine i cards)

theorem setOwnHole_face (seat : ℤ) (cards : List (Option Card)) (r : Replica n) :
    (after (setOwnHole seat cards r)).face = r.face := by
  unfold setOwnHole
  cases twoCards cards with
  | none => rfl
  | some two => exact putHole_face seat two r

theorem setAllHoles_face (holes : List (ℤ × List (Option Card))) (r : Replica n) :
    (after (setAllHoles holes r)).face = r.face := by
  have puts : Keeps (fun t : Replica n => t.face = r.face)
      (holes.forM fun hole => putHole hole.1 hole.2.reduceOption) :=
    keeps_forM fun hole _ t same => (putHole_face hole.1 hole.2.reduceOption t).trans same
  unfold setAllHoles
  split
  · rfl
  exact puts r rfl

structure Filled (named : List ℤ) (r s : Replica n) : Prop where
  mirror : Mirror r s
  holes : ∀ i : Fin n, (i.val : ℤ) ∈ named → (r.engine.players i).hole = (s.engine.players i).hole
  real : ∀ i : Fin n, (i.val : ℤ) ∈ named → (i.val : ℤ) ∈ r.realHoles ∧ (i.val : ℤ) ∈ s.realHoles

theorem putHole_filled {seat : ℤ} {j : Fin n} (at' : seatAt n seat = some j) (cards : List Card) :
    Related (Filled named) (Filled (seat :: named)) (putHole (n := n) seat cards) (putHole seat cards) := by
  intro r s h
  have left := putHole_face seat cards r
  have right := putHole_face seat cards s
  unfold putHole at left right ⊢
  rw [at'] at left right ⊢
  refine .ok ⟨left.trans (h.mirror.trans right.symm), fun i member => ?_, fun i member => ?_⟩
  · by_cases same : i = j
    · subst same
      rw [update_same, update_same]
    have named' : (i.val : ℤ) ∈ named := by
      refine (List.mem_cons.mp member).resolve_left fun named' => same ?_
      rw [← named', seatAt_val] at at'
      exact Option.some.inj at'
    rw [update_other _ _ same, update_other _ _ same]
    exact h.holes i named'
  obtain same | member := List.mem_cons.mp member
  · rw [same]
    exact ⟨Finset.mem_insert_self _ _, Finset.mem_insert_self _ _⟩
  exact ⟨Finset.mem_insert_of_mem (h.real i member).1, Finset.mem_insert_of_mem (h.real i member).2⟩

theorem putHoles_filled (holes : List (ℤ × List (Option Card)))
    (seats : ∀ hole ∈ holes, 0 ≤ hole.1 ∧ hole.1 < n) (h : Filled named r s) :
    ∃ r' s', (holes.forM fun hole => putHole hole.1 hole.2.reduceOption) r = .ok () r' ∧
      (holes.forM fun hole => putHole hole.1 hole.2.reduceOption) s = .ok () s' ∧
      Filled (holes.map Prod.fst ++ named) r' s' := by
  induction holes generalizing named r s with
  | nil => exact ⟨r, s, rfl, rfl, h⟩
  | cons hole rest ih =>
    obtain ⟨seat, cards⟩ := hole
    have at' : ∃ j, seatAt n seat = some j := ⟨_, dif_pos (seats _ (.head _))⟩
    obtain ⟨j, at'⟩ := at'
    have put := putHole_filled at' cards.reduceOption r s h
    obtain ⟨r1, ran⟩ : ∃ r1, putHole seat cards.reduceOption r = .ok () r1 := ⟨_, by rw [putHole, at']⟩
    rw [ran] at put
    obtain ⟨s1, ran', filled⟩ := put.of_ok
    obtain ⟨r', s', rest1, rest2, final⟩ := ih (fun hole member => seats hole (.tail _ member)) filled
    refine ⟨r', s', (bind_of_ok ran).trans rest1, (bind_of_ok ran').trans rest2, ⟨final.mirror, ?_, ?_⟩⟩
    · exact fun i member => final.holes i (by simpa [or_left_comm] using member)
    exact fun i member => final.real i (by simpa [or_left_comm] using member)

theorem checkHoles_seats {seen : List Card} {holes : List (ℤ × List (Option Card))}
    (good : checkHoles n seen holes = .ok ()) : ∀ hole ∈ holes, 0 ≤ hole.1 ∧ hole.1 < n := by
  induction holes generalizing seen with
  | nil => simp
  | cons hole rest ih =>
    obtain ⟨seat, cards⟩ := hole
    unfold checkHoles at good
    split at good
    · cases good
    rename_i range
    split at good
    · cases good
    rename_i two _
    cases checked : checkCards seat seen two with
    | error x => rw [checked] at good; cases good
    | ok seen' =>
      rw [checked] at good
      intro hole member
      obtain rfl | member := List.mem_cons.mp member
      · exact not_not.mp range
      exact ih good hole member

theorem setAllHoles_filled (holes : List (ℤ × List (Option Card))) (h : Mirror r s) :
    (∃ x, setAllHoles holes r = .error x r ∧ setAllHoles holes s = .error x s) ∨
    ∃ r' s', setAllHoles holes r = .ok () r' ∧ setAllHoles holes s = .ok () s' ∧ Filled (holes.map Prod.fst) r' s' := by
  have board : r.engine.board = s.engine.board := h.alike.reads Engine.board
  unfold setAllHoles
  rw [board]
  cases checked : checkHoles n s.engine.board holes with
  | error x => exact .inl ⟨x, rfl, rfl⟩
  | ok u =>
    have start : Filled [] r s := ⟨h, fun _ member => by simp at member, fun _ member => by simp at member⟩
    obtain ⟨r', s', left, right, filled⟩ := putHoles_filled holes (checkHoles_seats checked) start
    rw [List.append_nil] at filled
    exact .inr ⟨r', s', left, right, filled⟩

theorem finish_mirror (forceTabled : Bool) (h : Filled named r s)
    (covers : ∀ i ∈ r.engine.contested, (i.val : ℤ) ∈ named) :
    Matches Mirror (finish forceTabled r) (finish forceTabled s) := by
  have contested : r.engine.contested = s.engine.contested := h.mirror.alike.level.contested
  have verified : r.unverified = [] := List.filter_eq_nil_iff.mpr fun i member => by
    simpa using (h.real i (covers i member)).1
  have verified' : s.unverified = [] := List.filter_eq_nil_iff.mpr fun i member => by
    simpa using (h.real i (covers i (contested ▸ member))).2
  have side := h.mirror
  rw [mirror_side] at side ⊢
  exact side.finish (alike_settles forceTabled) (fun h i => h.reads fun v => (v.players i).stack) (verified.trans verified'.symm)
    fun _ i member => h.holes i (covers i member)

inductive Call where
  | applyAction (seq : ℤ) (entry : Entry)
  | advanceStreet (cards : List (Option Card))
  | setOwnHole (seat : ℤ) (cards : List (Option Card))
  deriving DecidableEq

def Call.secret : Call → Bool
  | .setOwnHole _ _ => true
  | _ => false

def Call.make : Call → ReplicaM n (Option Verdict)
  | .applyAction seq entry => do return some (← Replica.applyAction seq entry)
  | .advanceStreet cards => do Replica.advanceStreet cards; return none
  | .setOwnHole seat cards => do Replica.setOwnHole seat cards; return none

def look {H : Type} (hash : Digest n → H) (r : Replica n) : Phase × Option (Fin n) × H :=
  (r.phase, r.engine.actor, r.stateDigest hash)

theorem look_mirror {H : Type} (hash : Digest n → H) (h : Mirror r s) : r.look hash = s.look hash :=
  h.reads fun v => v.look hash

theorem make_mirror (open' : call.secret = false) : Related Mirror Mirror (call.make (n := n)) call.make := by
  cases call with
  | applyAction seq entry =>
    exact related_bind (applyAction_mirror seq entry) (fun _ _ h => h) fun _ => related_pure _
  | advanceStreet cards =>
    exact related_bind (advanceStreet_mirror cards) (fun _ _ h => h) fun _ => related_pure _
  | setOwnHole seat cards => cases open'

theorem make_secret (secret : call.secret = true) (r : Replica n) : (after (call.make r)).face = r.face := by
  cases call with
  | setOwnHole seat cards =>
    exact keeps_bind (P := fun t => t.face = r.face)
      (fun t same => (setOwnHole_face seat cards t).trans same) (fun _ => keeps_pure _) r rfl
  | applyAction seq entry => cases secret
  | advanceStreet cards => cases secret

theorem startHandFrom_mirror {deck deck' : List Card} {button : Fin n} {bbSeat sbSeat : Option (Fin n)}
    {r0 r1 : Replica n} (cards : deck.length = deck'.length)
    (started : startHandFrom deck button bbSeat sbSeat r0 = .ok true r1) :
    ∃ s1, startHandFrom deck' button bbSeat sbSeat r0 = .ok true s1 ∧ Mirror r1 s1 := by
  obtain ⟨engine, ran, rfl⟩ := startHandFrom_ok started
  obtain ⟨engine', ran', alike⟩ := startHand_alike rfl cards ran
  exact ⟨_, startHandFrom_of_engine ran', recomputePhase_mirror (Mirror.withEngine rfl alike)⟩

/-- Two replicas of one hand, with different dummy decks and different calls of `set_own_hole`, but
otherwise the same calls, give the same verdicts and show the same phases, actors and digests all the
way; and with the same cards tabled for every contested seat they finish the hand the same way. -/
theorem hidden_cards_do_not_show {H : Type} (hash : Digest n → H) {handNo : ℕ} {last button : Fin n}
    {chips : Fin n → ℤ} {sb bb : ℤ} {structure' : BettingStructure} {bbSeat sbSeat : Option (Fin n)}
    {deck deck' : List Card} (cards : deck.length = deck'.length) {r : Replica n}
    (started : startHandFrom deck button bbSeat sbSeat (init handNo last chips sb bb structure') = .ok true r)
    {calls calls' : List Call}
    (same : calls.filter (fun call => !call.secret) = calls'.filter fun call => !call.secret) :
    ∃ s, startHandFrom deck' button bbSeat sbSeat (init handNo last chips sb bb structure') = .ok true s ∧
      r.look hash = s.look hash ∧
      trace Call.make Call.secret (look hash) r calls = trace Call.make Call.secret (look hash) s calls' ∧
      ∀ holes : List (ℤ × List (Option Card)),
        let tabled := setAllHoles holes (runAll Call.make r calls)
        let tabled' := setAllHoles holes (runAll Call.make s calls')
        raised tabled = raised tabled' ∧
        (value tabled = some () →
          (∀ i ∈ (runAll Call.make r calls).engine.contested, (i.val : ℤ) ∈ holes.map Prod.fst) →
          ∀ forceTabled,
            let shut := finish forceTabled (after tabled)
            let shut' := finish forceTabled (after tabled')
            value shut = value shut' ∧ raised shut = raised shut' ∧
              (after shut).stackOf = (after shut').stackOf ∧ (after shut).look hash = (after shut').look hash) := by
  obtain ⟨s, started', mirror⟩ := startHandFrom_mirror cards started
  obtain ⟨traces, ends⟩ := trace_noninterference face (fun _ _ h => look_mirror hash h)
    (fun _ open' => make_mirror open') (fun _ secret => make_secret secret) mirror same
  refine ⟨s, started', look_mirror hash mirror, traces, fun holes => ?_⟩
  obtain ⟨x, left, right⟩ | ⟨r', s', left, right, filled⟩ := setAllHoles_filled holes ends
  · dsimp only
    rw [left, right]
    exact ⟨rfl, fun returned => by cases returned⟩
  dsimp only
  rw [left, right]
  refine ⟨rfl, fun _ covers forceTabled => ?_⟩
  have kept : Mirror r' (runAll Call.make r calls) := by
    have shown := setAllHoles_face holes (runAll Call.make r calls)
    rwa [left] at shown
  have contested : r'.engine.contested = (runAll Call.make r calls).engine.contested := kept.alike.level.contested
  have shut := finish_mirror forceTabled filled (contested ▸ covers)
  exact ⟨shut.value, shut.raised, shut.after.reads Replica.stackOf, look_mirror hash shut.after⟩

theorem hidden_cards_do_not_show_duel :
    let cards (from' count : ℕ) := ((fullDeck.drop from').take count).map some
    let played : List Call := [.applyAction 0 ⟨0, .raise, 100⟩, .applyAction 1 ⟨1, .call, 0⟩, .advanceStreet (cards 0 3),
      .advanceStreet (cards 3 1), .advanceStreet (cards 4 1)]
    let calls := .setOwnHole 0 [none] :: played
    let calls' := played ++ [.setOwnHole 1 (cards 7 2)]
    let r := after (startHandFrom dummyDeck 1 none none duel)
    let finished (r : Replica 2) (calls : List Call) :=
      finish false (after (setAllHoles [(0, cards 5 2), (1, cards 7 2)] (runAll Call.make r calls)))
    (value (finished r calls)).isSome ∧ ∃ s, startHandFrom fullDeck 1 none none duel = .ok true s ∧
      trace Call.make Call.secret (look id) r calls = trace Call.make Call.secret (look id) s calls' ∧
      value (finished r calls) = value (finished s calls') := by
  intro cards played calls calls' r finished
  obtain ⟨s, started, -, traces, tabled⟩ := hidden_cards_do_not_show id
    (show dummyDeck.length = fullDeck.length by decide)
    (eq_ok_of_value (by decide +kernel) : startHandFrom dummyDeck 1 none none duel = .ok true r)
    (show calls.filter (fun call => !call.secret) = calls'.filter fun call => !call.secret by decide +kernel)
  exact ⟨by decide +kernel, s, started, traces, ((tabled _).2 (by decide +kernel) (by decide +kernel) false).1⟩

end Holdem.Replica
