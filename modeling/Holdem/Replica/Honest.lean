import Holdem.Replica.Interference
import Holdem.Replica.Secrecy

/-!
Honest play. Each peer acts on a replica of its own and tells the others, with a digest. In whatever order
that arrives, all go through one sequence of plays.
-/

namespace Holdem

open List Method

variable {n : ℕ}

structure BetAction (H : Type) where
  seq : ℤ
  entry : Entry
  digest : H

/-- The peers of a hand, what they have broadcast, and who has voided the hand over a digest. -/
structure Peers (n : ℕ) (H : Type) where
  replica : Fin n → Replica n
  sent : List (BetAction H) := []
  voided : Fin n → Bool := fun _ => false

/-- What a peer does next: the message at an index of what was sent may reach it at any time, and again. -/
inductive PeerStep (n : ℕ) where
  | act (i : Fin n) (action : Action) (amount : ℤ)
  | deliver (i : Fin n) (index : ℕ)
  | reveal (i : Fin n)
  | ownHole (i : Fin n) (seat : ℤ) (cards : List (Option Card))
  | allHoles (i : Fin n) (holes : List (ℤ × List (Option Card)))
  | finish (i : Fin n) (forceTabled : Bool)

namespace Peers

variable {H : Type} [DecidableEq H] (hash : Replica.Digest n → H) (revealed : Street → List (Option Card))

def put (p : Peers n H) (i : Fin n) (r : Replica n) : Peers n H := { p with replica := Function.update p.replica i r }

def sendBetAction (p : Peers n H) (i : Fin n) (action : Action) (amount : ℤ) : Peers n H :=
  let r := p.replica i
  if p.voided i then p
  else match r.applyAction r.nextSeq ⟨i.val, action, amount⟩ with
    | .ok .applied r' =>
      { p.put i r' with sent := p.sent ++ [⟨r.nextSeq, ⟨i.val, action, amount⟩, r'.stateDigest hash⟩] }
    | result => p.put i (after result)

/-- `_on_bet_action`, up to the call of `_pump_hand`. -/
def onBetAction (p : Peers n H) (i : Fin n) (m : BetAction H) : Peers n H :=
  if p.voided i ∨ m.seq < 0 ∨ m.entry.amount < 0 then p
  else match (p.replica i).applyAction m.seq m.entry with
    | .ok .applied r' =>
      { p.put i r' with
        voided := Function.update p.voided i (r'.nextSeq = m.seq + 1 ∧ m.digest ≠ r'.stateDigest hash) }
    | result => p.put i (after result)

def step (p : Peers n H) : PeerStep n → Peers n H
  | .act i action amount => p.sendBetAction hash i action amount
  | .deliver i index =>
    match p.sent[index]? with
    | none => p
    | some m => p.onBetAction hash i m
  | .reveal i => p.put i (after ((p.replica i).advanceStreet (revealed (p.replica i).engine.street)))
  | .ownHole i seat cards => p.put i (after ((p.replica i).setOwnHole seat cards))
  | .allHoles i holes => p.put i (after ((p.replica i).setAllHoles holes))
  | .finish i forceTabled => p.put i (after ((p.replica i).finish forceTabled))

def run (p : Peers n H) (steps : List (PeerStep n)) : Peers n H := steps.foldl (step hash revealed) p

end Peers

namespace Replica

variable {revealed : Street → List (Option Card)} {start r r' s : Replica n} {plays past rest : List Play}
  {entry : Entry} {engine : Engine n} {seq : ℤ}

theorem core_seq (same : r'.core = r.core) : r'.nextSeq = r.nextSeq := by
  have seq : r'.core.nextSeq = r.core.nextSeq := congrArg Replica.nextSeq same
  exact seq

theorem accepted_mirror (mirror : Mirror r.core s) (accepted : r.Accepted entry engine) :
    ∃ s', inOrder revealed s [.action entry] = some s' ∧ Mirror (r.moved engine).countOn.core s' := by
  have ran : applyAction r.core.nextSeq entry r.core = .ok .applied (r.moved engine).countOn.core :=
    applyAction_accepts (r := r.core) ⟨accepted.betting, accepted.ran⟩
  have both := applyAction_mirror r.core.nextSeq entry r.core s mirror
  rw [ran] at both
  obtain ⟨s', ran', mirror'⟩ := both.of_ok
  have seq : r.core.nextSeq = s.nextSeq := mirror.reads Replica.nextSeq
  exact ⟨s', by rw [inOrder, ← seq, ran']; rfl, mirror'⟩

theorem dealt_mirror (mirror : Mirror r.core s) (ran : advanceStreet (revealed r.engine.street) r = .ok () r') :
    ∃ s', inOrder revealed s [.street] = some s' ∧ Mirror r'.core s' := by
  obtain ⟨engine, ⟨shut, due, dealt⟩, all, rfl⟩ := advanceStreet_dealt ran
  have ran := Dealt.advances (r := r.core) ⟨shut, due, dealt⟩ all
  have both := advanceStreet_mirror (revealed r.engine.street) r.core s mirror
  rw [ran] at both
  obtain ⟨s', ran', mirror'⟩ := both.of_ok
  have street : r.engine.street = s.engine.street := mirror.reads fun v => v.engine.street
  exact ⟨s', by rw [inOrder, ← street, ran']; rfl, mirror'⟩

def Known (plays : List Play) (seq : ℤ) (entry : Entry) : Prop :=
  0 ≤ seq ∧ (actions plays)[seq.toNat]? = some entry

/-- The replica has been through what is past, and holds nothing that is not an action of the hand. -/
structure Follows (revealed : Street → List (Option Card)) (start : Replica n) (plays past rest : List Play)
    (r : Replica n) : Prop where
  split : past ++ rest = plays
  state : ∃ s, inOrder revealed start past = some s ∧ Mirror r.core s
  seq : r.nextSeq = (actions past).length
  queued : ∀ key entry, (key, entry) ∈ r.pending → Known plays key entry

def Closed (r : Replica n) : Prop := r.phase ≠ .betting ∧ r.phase ≠ .streetOver

theorem Known.extend (known : Known plays seq entry) (more : List Play) : Known (plays ++ more) seq entry := by
  refine ⟨known.1, ?_⟩
  rw [actions_append, getElem?_append_left (List.getElem?_eq_some_iff.mp known.2).1, known.2]

theorem Known.lt (known : Known plays seq entry) : seq < (actions plays).length := by
  have := (List.getElem?_eq_some_iff.mp known.2).1
  have := known.1
  omega

namespace Follows

theorem extend (h : Follows revealed start plays past rest r) (more : List Play) :
    Follows revealed start (plays ++ more) past (rest ++ more) r :=
  ⟨by rw [← h.split, append_assoc], h.state, h.seq, fun key entry member => (h.queued key entry member).extend more⟩

theorem accepts (h : Follows revealed start plays past (.action entry :: rest) r) (accepted : r.Accepted entry engine) :
    Follows revealed start plays (past ++ [.action entry]) rest (r.moved engine).countOn := by
  obtain ⟨s, reached, mirror⟩ := h.state
  obtain ⟨s', next, mirror'⟩ := accepted_mirror mirror accepted
  refine ⟨by rw [← h.split, append_assoc]; rfl, ⟨s', ?_, mirror'⟩, ?_, h.queued⟩
  · rw [inOrder_append, reached]
    exact next
  show r.nextSeq + 1 = _
  rw [h.seq, actions_append]
  simp [actions]

theorem advances (h : Follows revealed start plays past (.street :: rest) r)
    (ran : advanceStreet (revealed r.engine.street) r = .ok () r') :
    Follows revealed start plays (past ++ [.street]) rest r' := by
  obtain ⟨s, reached, mirror⟩ := h.state
  obtain ⟨s', next, mirror'⟩ := dealt_mirror mirror ran
  obtain ⟨engine, -, -, rfl⟩ := advanceStreet_dealt ran
  refine ⟨by rw [← h.split, append_assoc]; rfl, ⟨s', ?_, mirror'⟩, ?_, h.queued⟩
  · rw [inOrder_append, reached]
    exact next
  show r.nextSeq = _
  rw [h.seq, actions_append]
  simp [actions]

theorem looks (h : Follows revealed start plays past rest r) (same : r'.face = r.face) :
    Follows revealed start plays past rest r' := by
  obtain ⟨s, reached, mirror⟩ := h.state
  have core : r'.core.face = r.core.face := congrArg core same
  have faces : Mirror r' r := same
  have seq : r'.nextSeq = r.nextSeq := faces.reads Replica.nextSeq
  have pending : r'.pending = r.pending := faces.reads Replica.pending
  exact ⟨h.split, ⟨s, reached, core.trans mirror⟩, seq.trans h.seq, pending ▸ h.queued⟩

section

variable (valid : (inOrder revealed start plays).isSome)
include valid

theorem todo (h : Follows revealed start plays past rest r) :
    ∃ s final, Mirror r.core s ∧ inOrder revealed s.core rest = some final := by
  obtain ⟨s, reached, mirror⟩ := h.state
  have core : s.core = s := congrArg (fun pending => { s with pending }) (mirror.reads Replica.pending)
  rw [← h.split, inOrder_append, reached] at valid
  obtain ⟨final, valid⟩ := Option.isSome_iff_exists.mp valid
  exact ⟨s, final, mirror, core ▸ valid⟩

theorem before_street (h : Follows revealed start plays past (.street :: rest) r) : r.phase = .streetOver := by
  obtain ⟨s, final, mirror, valid⟩ := h.todo valid
  exact (mirror.reads Replica.phase).trans (inOrder_street valid).1

theorem before_action (h : Follows revealed start plays past (.action entry :: rest) r) :
    r.phase = .betting ∧ ∃ i : Fin n, r.engine.actor = some i ∧ entry.seat = i.val := by
  obtain ⟨s, final, mirror, valid⟩ := h.todo valid
  obtain ⟨engine, accepted, -⟩ := inOrder_action valid
  obtain ⟨i, seat, turn, -⟩ := Engine.act_moves accepted.ran
  exact ⟨(mirror.reads Replica.phase).trans accepted.betting, i, (mirror.reads fun v => v.engine.actor).trans turn, seat⟩

section

variable (h : Follows revealed start plays past rest r)
include h

theorem up (betting : r.phase = .betting) : rest = [] ∨ ∃ entry rest', rest = .action entry :: rest' := by
  cases rest with
  | nil => exact .inl rfl
  | cons play rest =>
    cases play with
    | action entry => exact .inr ⟨entry, rest, rfl⟩
    | street => cases betting.symm.trans (h.before_street valid)

theorem takes (known : Known plays r.nextSeq entry) (accepted : r.Accepted entry engine) :
    ∃ rest', rest = .action entry :: rest' ∧
      Follows revealed start plays (past ++ [.action entry]) rest' (r.moved engine).countOn := by
  have there := known.2
  rw [h.seq, Int.toNat_natCast, ← h.split] at there
  obtain rfl | ⟨entry', rest', rfl⟩ := h.up valid accepted.betting
  · simp at there
  cases action_up.symm.trans there
  exact ⟨rest', rfl, h.accepts accepted⟩

theorem drains (fuel : ℕ) : ∃ r' past' rest', drainFor fuel r = .ok () r' ∧
    Follows revealed start plays past' rest' r' ∧ (r.nextSeq < r'.nextSeq ∨ r'.core = r.core) := by
  induction fuel generalizing r past rest with
  | zero => exact ⟨r, past, rest, rfl, h, .inr rfl⟩
  | succ fuel ih =>
    unfold drainFor
    cases found : r.pending.lookup r.nextSeq with
    | none => exact ⟨r, past, rest, rfl, h, .inr rfl⟩
    | some entry =>
      dsimp only
      have popped : Follows revealed start plays past rest (r.unqueue r.nextSeq) :=
        { h with queued := fun key entry member => h.queued key entry (mem_of_mem_filter member) }
      obtain rejected | ⟨engine, accepted, applied⟩ := applyNow_cases entry (r.unqueue r.nextSeq)
      · rw [bind_of_ok rejected]
        exact ⟨_, past, rest, rfl, popped, .inr rfl⟩
      obtain ⟨rest', -, taken⟩ := popped.takes valid (h.queued _ _ (lookup_mem found)) accepted
      obtain ⟨r', past', rest'', ran, follows, moved⟩ := ih taken
      rw [bind_of_ok applied]
      refine ⟨r', past', rest'', ran, follows, .inl ?_⟩
      have grown : r.nextSeq < ((r.unqueue r.nextSeq).moved engine).countOn.nextSeq := lt_add_one r.nextSeq
      obtain later | same := moved
      · exact grown.trans later
      rwa [core_seq same]

theorem receives {seq : ℤ} (known : Known plays seq entry) :
    ∃ verdict r' past' rest', applyAction seq entry r = .ok verdict r' ∧ Follows revealed start plays past' rest' r' ∧
      r.nextSeq ≤ r'.nextSeq ∧ (verdict = .applied → r'.nextSeq = seq + 1 → ∃ past rest s,
        plays = past ++ .action entry :: rest ∧ seq = (actions past).length ∧
        inOrder revealed start (past ++ [.action entry]) = some s ∧ Mirror r'.core s) := by
  obtain stale | rfl | early := lt_trichotomy seq r.nextSeq
  · exact ⟨.stale, r, past, rest, if_pos stale, h, le_rfl, nofun⟩
  · obtain rejected | ⟨engine, accepted, -, applied⟩ := applyAction_next entry r
    · exact ⟨.rejected, r, past, rest, rejected, h, le_rfl, nofun⟩
    obtain ⟨rest1, rfl, taken⟩ := h.takes valid known accepted
    obtain ⟨r', past', rest', ran, follows, moved⟩ := taken.drains valid (r.moved engine).countOn.pending.length
    have grown : r.nextSeq < (r.moved engine).countOn.nextSeq := lt_add_one r.nextSeq
    refine ⟨.applied, r', past', rest', ?_, follows, ?_, fun _ direct => ?_⟩
    · rw [applied]
      exact bind_of_ok ran
    · obtain later | same := moved
      · omega
      rw [core_seq same]
      exact grown.le
    obtain later | same := moved
    · change r.nextSeq + 1 < r'.nextSeq at later
      omega
    obtain ⟨s, reached, mirror⟩ := taken.state
    exact ⟨past, rest1, s, h.split.symm, h.seq, reached, same ▸ mirror⟩
  unfold applyAction buffer
  rw [if_neg (by omega), if_pos early]
  cases r.pending.lookup seq with
  | some waiting => exact ⟨_, r, past, rest, rfl, h, le_rfl, fun applied => by split at applied <;> cases applied⟩
  | none =>
    dsimp only
    split
    · exact ⟨_, r, past, rest, rfl, h, le_rfl, nofun⟩
    refine ⟨_, _, past, rest, rfl, { h with queued := fun key waiting member => ?_ }, le_rfl, nofun⟩
    obtain old | new := List.mem_append.mp member
    · exact h.queued key waiting old
    cases List.mem_singleton.mp new
    exact known

end

end

end Follows

theorem Closed.receives (closed : r.Closed) (seq : ℤ) (entry : Entry) : ∃ verdict r', applyAction seq entry r = .ok verdict r' ∧
    verdict ≠ .applied ∧ r'.Closed ∧ r'.nextSeq = r.nextSeq := by
  obtain stale | rfl | early := lt_trichotomy seq r.nextSeq
  · exact ⟨.stale, r, if_pos stale, nofun, closed, rfl⟩
  · obtain rejected | ⟨engine, accepted, -, -⟩ := applyAction_next entry r
    · exact ⟨.rejected, r, rejected, nofun, closed, rfl⟩
    exact absurd accepted.betting closed.1
  unfold applyAction buffer
  rw [if_neg (by omega), if_pos early]
  cases r.pending.lookup seq with
  | some waiting => exact ⟨_, r, rfl, by split <;> nofun, closed, rfl⟩
  | none =>
    dsimp only
    split
    · exact ⟨_, r, rfl, nofun, closed, rfl⟩
    exact ⟨_, _, rfl, nofun, closed, rfl⟩

theorem finish_closes (forceTabled : Bool) (r : Replica n) : after (finish forceTabled r) = r ∨
    (after (finish forceTabled r)).Closed ∧ (after (finish forceTabled r)).nextSeq = r.nextSeq := by
  unfold finish
  split
  · exact .inl rfl
  rename_i open'
  have closed : r.Closed := by
    refine ⟨fun phase => open' ?_, fun phase => open' ?_⟩ <;> simp [phase]
  split
  · exact .inl rfl
  split
  · exact .inl rfl
  refine .inr ?_
  rw [bind_apply]
  unfold onEngine within
  cases Engine.settle 1 forceTabled r.engine with
  | error x engine => exact ⟨closed, rfl⟩
  | ok raw engine =>
    dsimp only [conclude]
    split
    · exact ⟨closed, rfl⟩
    exact ⟨⟨nofun, nofun⟩, rfl⟩

def Stands (revealed : Street → List (Option Card)) (start : Replica n) (plays : List Play) (r : Replica n) : Prop :=
  (∃ past rest, Follows revealed start plays past rest r) ∨ r.Closed

theorem Stands.extend (h : Stands revealed start plays r) (more : List Play) : Stands revealed start (plays ++ more) r := by
  obtain ⟨past, rest, follows⟩ | closed := h
  · exact .inl ⟨past, rest ++ more, follows.extend more⟩
  exact .inr closed

theorem Stands.looks (h : Stands revealed start plays r) (same : r'.face = r.face) : Stands revealed start plays r' := by
  obtain ⟨past, rest, follows⟩ | closed := h
  · exact .inl ⟨past, rest, follows.looks same⟩
  have phase : r'.phase = r.phase := (show Mirror r' r from same).reads Replica.phase
  exact .inr ⟨phase ▸ closed.1, phase ▸ closed.2⟩

end Replica

theorem split_unique {past past' rest rest' : List Play} {entry entry' : Entry}
    (same : past ++ .action entry :: rest = past' ++ .action entry' :: rest')
    (count : (actions past).length = (actions past').length) : past = past' := by
  obtain ⟨more, rfl, tail⟩ | ⟨more, rfl, tail⟩ := List.append_eq_append_iff.mp same
  · cases more with
    | nil => exact (append_nil _).symm
    | cons play more =>
      cases tail
      simp [actions] at count
  cases more with
  | nil => exact append_nil _
  | cons play more =>
    cases tail
    simp [actions] at count

namespace Peers

open Replica

variable {H : Type} {hash : Digest n → H} {revealed : Street → List (Option Card)} {start : Replica n}
  {plays : List Play} {p : Peers n H} {m : BetAction H}

def Sent (hash : Digest n → H) (revealed : Street → List (Option Card)) (start : Replica n) (plays : List Play)
    (m : BetAction H) : Prop :=
  ∃ past rest s, plays = past ++ .action m.entry :: rest ∧ m.seq = (actions past).length ∧
    inOrder revealed start (past ++ [.action m.entry]) = some s ∧ m.digest = s.stateDigest hash

/-- All peers go through one sequence of plays, and each action in it is of a peer that has taken it. -/
structure Honest (hash : Digest n → H) (revealed : Street → List (Option Card)) (start : Replica n) (plays : List Play)
    (p : Peers n H) : Prop where
  valid : (inOrder revealed start plays).isSome
  stands : ∀ i, Stands revealed start plays (p.replica i)
  author : ∀ (j : ℕ) entry, (actions plays)[j]? = some entry →
    ∃ i : Fin n, entry.seat = i.val ∧ (j : ℤ) < (p.replica i).nextSeq
  sent : ∀ m ∈ p.sent, Sent hash revealed start plays m
  unvoided : ∀ i, p.voided i = false

theorem Sent.known (sent : Sent hash revealed start plays m) : Known plays m.seq m.entry := by
  obtain ⟨past, rest, -, rfl, seq, -⟩ := sent
  rw [seq]
  exact ⟨by omega, by rw [Int.toNat_natCast]; exact action_up⟩

theorem Sent.extend (sent : Sent hash revealed start plays m) (more : List Play) :
    Sent hash revealed start (plays ++ more) m := by
  obtain ⟨past, rest, s, rfl, others⟩ := sent
  exact ⟨past, rest ++ more, s, by rw [append_assoc]; rfl, others⟩

namespace Honest

variable {i : Fin n} {r : Replica n}

section

variable (h : Honest hash revealed start plays p)
include h

theorem put (more : List Play) (valid : (inOrder revealed start (plays ++ more)).isSome)
    (stands : Stands revealed start (plays ++ more) r) (on : (p.replica i).nextSeq ≤ r.nextSeq)
    (author : ∀ entry ∈ actions more, entry.seat = i.val ∧ (actions (plays ++ more)).length ≤ r.nextSeq) :
    Honest hash revealed start (plays ++ more) (p.put i r) := by
  refine ⟨valid, fun j => ?_, fun j entry there => ?_, fun m member => (h.sent m member).extend more, h.unvoided⟩
  · by_cases same : j = i
    · subst same
      simpa [Peers.put] using stands
    simpa [Peers.put, same] using (h.stands j).extend more
  by_cases old : j < (actions plays).length
  · rw [actions_append, getElem?_append_left old] at there
    obtain ⟨k, seat, taken⟩ := h.author j entry there
    refine ⟨k, seat, ?_⟩
    by_cases same : k = i
    · subst same
      simpa [Peers.put] using lt_of_lt_of_le taken on
    simpa [Peers.put, same] using taken
  have inside := (List.getElem?_eq_some_iff.mp there).1
  rw [actions_append, getElem?_append_right (by omega)] at there
  obtain ⟨seat, through⟩ := author entry (mem_of_getElem? there)
  exact ⟨i, seat, by simp [Peers.put]; omega⟩

theorem stay (stands : Stands revealed start plays r) (on : (p.replica i).nextSeq ≤ r.nextSeq) :
    Honest hash revealed start plays (p.put i r) := by
  have moved := h.put (i := i) (r := r) [] (by simpa using h.valid) (by simpa using stands) on nofun
  rwa [append_nil] at moved

theorem look (same : r.face = (p.replica i).face) : Honest hash revealed start plays (p.put i r) :=
  h.stay ((h.stands i).looks same) (le_of_eq ((show Mirror r (p.replica i) from same).reads Replica.nextSeq).symm)

theorem turn {entry : Entry} {engine : Engine n} (own : entry.seat = i.val)
    (accepted : (p.replica i).Accepted entry engine) : Follows revealed start plays plays [] (p.replica i) := by
  obtain ⟨past, rest, follows⟩ | closed := h.stands i
  · obtain rfl | ⟨entry', rest', rfl⟩ := follows.up h.valid accepted.betting
    · obtain rfl : past = plays := by simpa using follows.split
      exact follows
    obtain ⟨-, j, actor, seat⟩ := follows.before_action h.valid
    obtain ⟨k, seat', actor', -⟩ := Engine.act_moves accepted.ran
    obtain rfl : j = k := Option.some.inj (actor.symm.trans actor')
    have there : (actions plays)[(actions past).length]? = some entry' := by
      rw [← follows.split]
      exact action_up
    obtain ⟨author, seat'', taken⟩ := h.author _ _ there
    obtain rfl : author = i := Fin.ext (by omega)
    rw [follows.seq] at taken
    exact absurd taken (lt_irrefl _)
  exact absurd accepted.betting closed.1

theorem sends (i : Fin n) (action : Action) (amount : ℤ) :
    ∃ plays', Honest hash revealed start plays' (p.sendBetAction hash i action amount) := by
  unfold sendBetAction
  rw [h.unvoided i, if_neg Bool.false_ne_true]
  rcases applyAction_next ⟨i.val, action, amount⟩ (p.replica i) with rejected | ⟨engine, accepted, -, applied⟩
  · rw [rejected]
    exact ⟨plays, h.look rfl⟩
  have follows := h.turn rfl accepted
  -- nothing is waiting behind the last action of all
  have idle : drainPending ((p.replica i).moved engine).countOn = .ok () ((p.replica i).moved engine).countOn := by
    refine drainFor_idle _ (List.lookup_eq_none_iff.mpr fun ⟨key, entry⟩ member => ?_)
    have behind := (follows.queued key entry member).lt
    rw [← follows.seq] at behind
    have later : ((p.replica i).moved engine).countOn.nextSeq ≠ key := by
      show (p.replica i).nextSeq + 1 ≠ key
      omega
    simpa using later
  rw [applied, bind_of_ok idle]
  have taken := (follows.extend [.action ⟨i.val, action, amount⟩]).accepts accepted
  obtain ⟨s, reached, mirror⟩ := taken.state
  have moved := h.put (i := i) [.action ⟨i.val, action, amount⟩] (by rw [reached]; rfl) (.inl ⟨_, _, taken⟩)
    (lt_add_one _).le (by simpa [actions] using taken.seq.ge)
  refine ⟨_, { moved with sent := fun m member => ?_ }⟩
  obtain old | new := List.mem_append.mp member
  · exact moved.sent m old
  rw [List.mem_singleton.mp new]
  exact ⟨plays, [], s, rfl, follows.seq, reached, look_mirror hash mirror |> congrArg fun seen => seen.2.2⟩

theorem digest_agrees {m : BetAction H} (sent : m ∈ p.sent)
    (applied : (p.replica i).applyAction m.seq m.entry = .ok .applied r) (direct : r.nextSeq = m.seq + 1) :
    m.digest = r.stateDigest hash := by
  obtain ⟨past, rest, follows⟩ | closed := h.stands i
  · obtain ⟨verdict, r', -, -, ran, -, -, behind⟩ := follows.receives h.valid (h.sent m sent).known
    cases applied.symm.trans ran
    obtain ⟨past, rest, s, split, seq, reached, mirror⟩ := behind rfl direct
    obtain ⟨past', rest', s', split', seq', reached', digest⟩ := h.sent m sent
    obtain rfl := split_unique (split.symm.trans split') (by omega)
    cases reached.symm.trans reached'
    rw [digest]
    exact (congrArg (fun seen => seen.2.2) (look_mirror hash mirror)).symm
  obtain ⟨verdict, r', ran, refused, -⟩ := closed.receives m.seq m.entry
  cases applied.symm.trans ran
  exact absurd rfl refused

theorem receives [DecidableEq H] {m : BetAction H} (sent : m ∈ p.sent) (i : Fin n) :
    Honest hash revealed start plays (p.onBetAction hash i m) := by
  have goes : ∃ verdict r, (p.replica i).applyAction m.seq m.entry = .ok verdict r ∧ Stands revealed start plays r ∧
      (p.replica i).nextSeq ≤ r.nextSeq := by
    obtain ⟨past, rest, follows⟩ | closed := h.stands i
    · obtain ⟨verdict, r, past', rest', ran, follows', on, -⟩ := follows.receives h.valid (h.sent m sent).known
      exact ⟨verdict, r, ran, .inl ⟨past', rest', follows'⟩, on⟩
    obtain ⟨verdict, r, ran, -, closed', same⟩ := closed.receives m.seq m.entry
    exact ⟨verdict, r, ran, .inr closed', same.ge⟩
  obtain ⟨verdict, r, ran, stands, on⟩ := goes
  have moved := h.stay stands on
  unfold onBetAction
  split
  · exact h
  rw [ran]
  cases verdict with
  | applied =>
    refine { moved with unvoided := fun j => ?_ }
    by_cases same : j = i
    · subst same
      simpa using digest_agrees h sent ran
    simpa [same] using h.unvoided j
  | _ => exact moved

theorem reveals (i : Fin n) : ∃ plays', Honest hash revealed start plays'
    (p.put i (after ((p.replica i).advanceStreet (revealed (p.replica i).engine.street)))) := by
  obtain ⟨x, raised⟩ | ⟨engine, dealt, ran⟩ := advanceStreet_cases (revealed (p.replica i).engine.street) (p.replica i)
  · rw [raised]
    exact ⟨plays, h.look rfl⟩
  rw [ran]
  obtain ⟨past, rest, follows⟩ | closed := h.stands i
  · cases rest with
    | nil =>
      obtain rfl : past = plays := by simpa using follows.split
      have taken := (follows.extend [.street]).advances ran
      obtain ⟨s, reached, -⟩ := taken.state
      exact ⟨_, h.put [.street] (by rw [reached]; rfl) (.inl ⟨_, _, taken⟩) le_rfl nofun⟩
    | cons play rest =>
      cases play with
      | street => exact ⟨plays, h.stay (.inl ⟨_, _, follows.advances ran⟩) le_rfl⟩
      | action entry => cases dealt.shut.symm.trans (follows.before_action h.valid).1
  exact absurd dealt.shut closed.2

theorem step [DecidableEq H] (s : PeerStep n) :
    ∃ plays', Honest hash revealed start plays' (p.step hash revealed s) := by
  cases s with
  | act i action amount => exact h.sends i action amount
  | deliver i index =>
    unfold Peers.step
    dsimp only
    split
    · exact ⟨plays, h⟩
    rename_i m there
    exact ⟨plays, h.receives (mem_of_getElem? there) i⟩
  | reveal i => exact h.reveals i
  | ownHole i seat cards => exact ⟨plays, h.look (setOwnHole_face seat cards _)⟩
  | allHoles i holes => exact ⟨plays, h.look (setAllHoles_face holes _)⟩
  | finish i forceTabled =>
    obtain same | ⟨closed, seq⟩ := finish_closes forceTabled (p.replica i)
    · exact ⟨plays, h.look (congrArg face same)⟩
    exact ⟨plays, h.stay (.inr closed) seq.ge⟩

theorem run [DecidableEq H] (steps : List (PeerStep n)) :
    ∃ plays', Honest hash revealed start plays' (p.run hash revealed steps) := by
  induction steps generalizing plays p with
  | nil => exact ⟨plays, h⟩
  | cons s steps ih =>
    obtain ⟨plays', next⟩ := h.step s
    exact ih next

end

end Honest

theorem honest_start (fresh : start.nextSeq = 0) (empty : start.pending = []) :
    Honest hash revealed start [] { replica := fun _ => start } := by
  have core : start.core = start := congrArg (fun pending => { start with pending }) empty.symm
  refine ⟨rfl, fun _ => .inl ⟨[], [], rfl, ⟨start, rfl, congrArg face core⟩, fresh, fun key entry member => ?_⟩, ?_, ?_, fun _ => rfl⟩
  · rw [empty] at member
    cases member
  · exact nofun
  exact nofun

/-- Whatever peers that start alike do, and whenever it reaches the others, nobody voids the hand over a digest: a peer
that applies an action, and nothing behind it, has the digest its sender attached. -/
theorem honest_never_desyncs [DecidableEq H] (hash : Digest n → H) (revealed : Street → List (Option Card))
    (fresh : start.nextSeq = 0) (empty : start.pending = []) (steps : List (PeerStep n)) :
    let p : Peers n H := run hash revealed { replica := fun _ => start } steps
    (∀ i, p.voided i = false) ∧ ∀ m ∈ p.sent, ∀ i r, (p.replica i).applyAction m.seq m.entry = .ok .applied r →
      r.nextSeq = m.seq + 1 → m.digest = r.stateDigest hash := by
  have begins : Honest hash revealed start [] { replica := fun _ => start } := honest_start fresh empty
  obtain ⟨plays, honest⟩ := begins.run steps
  exact ⟨honest.unvoided, fun m sent i r => honest.digest_agrees sent⟩

theorem honest_never_desyncs_dealt :
    let p : Peers 2 (Digest 2) := run id (fun _ => []) { replica := fun _ => dealt } [.act 0 .call 0, .deliver 1 0]
    (p.replica 1).nextSeq = 1 ∧ p.voided 1 = false :=
  ⟨by decide +kernel, (honest_never_desyncs id (fun _ => []) (show dealt.nextSeq = 0 by decide +kernel) (by decide +kernel)
    [.act 0 .call 0, .deliver 1 0]).1 1⟩

end Peers

end Holdem
