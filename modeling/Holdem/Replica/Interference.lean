import Holdem.Lib.FirstKept
import Holdem.Replica.Reorder

/-!
Junk among the actions of a round. The buffer of a replica keeps the first message for a number, whoever
sent it, so junk ahead of its turn can displace an honest action.
-/

namespace Holdem

open Function List Method FirstKept

structure Broadcast where
  seq : ℤ
  entry : Entry
  deriving DecidableEq

/-- The real message of a number, where `first` is the number of the first of the actions. -/
def isReal (first : ℤ) (entries : List Entry) (m : Broadcast) : Bool :=
  decide (entries[(m.seq - first).toNat]? = some m.entry)

def isJunk (first : ℤ) (entries : List Entry) (m : Broadcast) : Prop :=
  ∃ real, entries[(m.seq - first).toNat]? = some real ∧ m.entry.seat ≠ real.seat

/-- The messages of a round: the actions from number `first` on, each once, and junk for their numbers. -/
structure Traffic (first : ℤ) (entries : List Entry) (messages : List Broadcast) : Prop where
  numbered : ∀ m ∈ messages, first ≤ m.seq ∧ m.seq < first + entries.length
  known : ∀ m ∈ messages, isReal first entries m = true ∨ isJunk first entries m
  once : ∀ (j : ℕ) entry, entries[j]? = some entry → messages.count ⟨first + j, entry⟩ = 1

/-- Junk for a number arrives, then the action with that number, and after it an action with an earlier number. -/
def Displaces (first : ℤ) (entries : List Entry) (messages : List Broadcast) : Prop :=
  ∃ junk late early : Broadcast, isJunk first entries junk ∧ isReal first entries late = true ∧
    isReal first entries early = true ∧ junk.seq = late.seq ∧ early.seq < late.seq ∧
    [junk, late, early].Sublist messages

namespace Replica

variable {n : ℕ} {revealed : Street → List (Option Card)} {first : ℤ} {entries : List Entry} {done r r' : Replica n}
  {st : Receiver} {floor : ℕ} {entry : Entry} {m : Broadcast}

def deliver (r : Replica n) (messages : List Broadcast) : Replica n :=
  runAll (fun m : Broadcast => applyAction m.seq m.entry) r messages

theorem lookup_unqueue (r : Replica n) (seq key : ℤ) :
    (r.unqueue seq).pending.lookup key = if key = seq then none else r.pending.lookup key := by
  unfold unqueue
  induction r.pending with
  | nil => split <;> rfl
  | cons waiting rest ih => grind

theorem isReal_next (j : ℕ) (entry : Entry) :
    isReal first entries ⟨first + j, entry⟩ = true ↔ entries[j]? = some entry := by
  simp [isReal]

theorem isJunk_next (j : ℕ) (entry : Entry) :
    isJunk first entries ⟨first + j, entry⟩ ↔ ∃ real, entries[j]? = some real ∧ entry.seat ≠ real.seat := by
  simp [isJunk]

theorem applyNow_otherSeat {real : Entry} {engine : Engine n} (accepted : r.Accepted real engine)
    (other : entry.seat ≠ real.seat) : applyNow entry r = .ok .rejected r := by
  obtain rejected | ⟨engine', accepted', -⟩ := applyNow_cases entry r
  · exact rejected
  obtain ⟨i, seat, turn, -⟩ := Engine.act_moves accepted.ran
  obtain ⟨j, seat', turn', -⟩ := Engine.act_moves accepted'.ran
  cases turn.symm.trans turn'
  exact absurd (seat'.trans seat.symm) other

structure Mirrors (revealed : Street → List (Option Card)) (first : ℤ) (entries : List Entry) (done : Replica n)
    (floor : ℕ) (st : Receiver) (r : Replica n) : Prop where
  seq : r.nextSeq = first + st.next
  todo : inOrder revealed r.core ((entries.drop st.next).map .action) = some done
  kept : ∀ j : ℕ, st.kept j = (r.pending.lookup (first + j)).map fun entry => isReal first entries ⟨first + j, entry⟩
  queued : ∀ key entry, (key, entry) ∈ r.pending → first + floor ≤ key ∧ key < first + entries.length ∧
    (isReal first entries ⟨key, entry⟩ = true ∨ isJunk first entries ⟨key, entry⟩)
  distinct : (r.pending.map Prod.fst).Nodup

namespace Mirrors

theorem up (h : Mirrors revealed first entries done floor st r) (less : st.next < entries.length) :
    ∃ real engine, entries[st.next]? = some real ∧ r.Accepted real engine ∧
      inOrder revealed (r.moved engine).countOn.core ((entries.drop (st.next + 1)).map .action) = some done := by
  have todo := h.todo
  rw [drop_eq_getElem_cons less, map_cons] at todo
  obtain ⟨engine, accepted, later⟩ := inOrder_action todo
  exact ⟨_, engine, getElem?_eq_getElem less, accepted, later⟩

theorem take (h : Mirrors revealed first entries done (st.next + 1) st r) {engine : Engine n}
    (later : inOrder revealed (r.moved engine).countOn.core ((entries.drop (st.next + 1)).map .action) = some done) :
    Mirrors revealed first entries done st.passed.next st.passed (r.moved engine).countOn where
  seq := by
    show r.nextSeq + 1 = first + ((st.next + 1 : ℕ) : ℤ)
    rw [h.seq]
    omega
  todo := later
  kept := h.kept
  queued := h.queued
  distinct := h.distinct

theorem pop (h : Mirrors revealed first entries done st.next st r) :
    Mirrors revealed first entries done (st.next + 1) st.pop (r.unqueue r.nextSeq) where
  seq := h.seq
  todo := h.todo
  kept j := by
    rw [lookup_unqueue, h.seq]
    by_cases here : j = st.next
    · rw [here, if_pos rfl]
      exact update_self _ _ _
    rw [if_neg (by omega), ← h.kept j]
    exact update_of_ne here _ _
  queued key entry member := by
    obtain ⟨member, other⟩ := List.mem_filter.mp member
    obtain ⟨low, high, known⟩ := h.queued key entry member
    have other : key ≠ first + st.next := by simpa [h.seq] using other
    exact ⟨by omega, high, known⟩
  distinct := h.distinct.sublist (List.filter_sublist.map _)

theorem next (h : Mirrors revealed first entries done floor st r) :
    st.kept st.next = (r.pending.lookup r.nextSeq).map fun entry => isReal first entries ⟨r.nextSeq, entry⟩ := by
  rw [h.seq]
  exact h.kept st.next

theorem clear (h : Mirrors revealed first entries done st.next st r) (none : r.pending.lookup r.nextSeq = none) :
    Mirrors revealed first entries done (st.next + 1) st r := by
  refine { h with queued := fun key entry member => ?_ }
  obtain ⟨low, high, known⟩ := h.queued key entry member
  have other : key ≠ first + st.next := by
    rintro rfl
    have := List.lookup_eq_none_iff.mp none _ member
    simp [h.seq] at this
  exact ⟨by omega, high, known⟩

end Mirrors

theorem drain_mirrors (steps : ℕ) {st : Receiver} {r : Replica n} (fuel : ℕ)
    (h : Mirrors revealed first entries done st.next st r) (left : st.next + steps = entries.length)
    (enough : r.pending.length ≤ fuel) :
    ∃ r', drainFor fuel r = .ok () r' ∧
      Mirrors revealed first entries done ((Receiver.drain steps st).next + 1) (Receiver.drain steps st) r' := by
  have next := h.next
  cases found : r.pending.lookup r.nextSeq with
  | none =>
    rw [found] at next
    have same : Receiver.drain steps st = st := by
      cases steps with
      | zero => rfl
      | succ steps => rw [Receiver.drain, next]; rfl
    rw [same]
    exact ⟨r, drainFor_idle fuel found, h.clear found⟩
  | some entry =>
    rw [found] at next
    have member := lookup_mem found
    obtain ⟨-, high, known⟩ := h.queued _ _ member
    rw [h.seq] at high known
    obtain ⟨steps, rfl⟩ : ∃ steps', steps = steps' + 1 := ⟨steps - 1, by omega⟩
    have shorter : (r.unqueue r.nextSeq).pending.length < r.pending.length :=
      List.length_filter_lt_length_iff_exists.mpr ⟨_, member, by simp⟩
    obtain ⟨fuel, rfl⟩ : ∃ fuel', fuel = fuel' + 1 := ⟨fuel - 1, by omega⟩
    have popped := h.pop
    obtain ⟨real, engine, up, accepted, later⟩ := popped.up (by show st.next < _; omega)
    rw [h.seq] at next
    obtain honest | junk := known
    · obtain rfl : real = entry := Option.some.inj (up.symm.trans ((isReal_next _ _).mp honest))
      obtain ⟨r', ran, mirrors⟩ := drain_mirrors steps fuel (popped.take later)
        (by show st.next + 1 + steps = _; omega) (Nat.le_of_lt_succ (lt_of_lt_of_le shorter enough))
      have same : Receiver.drain (steps + 1) st = Receiver.drain steps st.pop.passed := by
        rw [Receiver.drain, next, Option.map_some, honest]
      rw [same]
      refine ⟨r', ?_, mirrors⟩
      unfold drainFor
      rw [found]
      dsimp only
      rw [bind_of_ok (applyNow_accepts accepted)]
      exact ran
    obtain ⟨real', up', other⟩ := (isJunk_next _ _).mp junk
    cases up.symm.trans up'
    have false_ : isReal first entries ⟨first + st.next, entry⟩ = false := by
      rw [Bool.eq_false_iff, ne_eq, isReal_next]
      intro same
      exact other (congrArg Entry.seat (Option.some.inj (same.symm.trans up)))
    have same : Receiver.drain (steps + 1) st = st.pop := by
      rw [Receiver.drain, next, Option.map_some, false_]
    rw [same]
    refine ⟨_, ?_, popped⟩
    unfold drainFor
    rw [found]
    dsimp only
    rw [bind_of_ok (applyNow_otherSeat accepted other)]
    rfl

def arrival (first : ℤ) (entries : List Entry) (m : Broadcast) : Arrival :=
  ⟨(m.seq - first).toNat, isReal first entries m⟩

section

variable (h : Mirrors revealed first entries done (st.next + 1) st r) (few : entries.length ≤ maxPending)
include h few

theorem Mirrors.room (inside : st.next < entries.length) : r.pending.length < maxPending := by
  have sub : r.pending.map Prod.fst ⊆ (range (entries.length - (st.next + 1))).map fun k : ℕ => first + st.next + 1 + k := by
    intro key member
    obtain ⟨⟨key, entry⟩, there, rfl⟩ := List.mem_map.mp member
    obtain ⟨low, high, -⟩ := h.queued key entry there
    exact List.mem_map.mpr ⟨(key - (first + st.next + 1)).toNat, List.mem_range.mpr (by omega), by omega⟩
  have count := (h.distinct.subperm sub).length_le
  rw [length_map, length_map, length_range] at count
  omega

theorem buffer_mirrors (ahead : r.nextSeq < m.seq) (inside : m.seq < first + entries.length)
    (known : isReal first entries m = true ∨ isJunk first entries m) :
    Mirrors revealed first entries done (st.next + 1) (st.keep (arrival first entries m)) (after (buffer m.seq m.entry r)) := by
  obtain ⟨seq, entry⟩ := m
  obtain ⟨j, rfl⟩ : ∃ j : ℕ, seq = first + j := ⟨(seq - first).toNat, by have := h.seq; dsimp only at ahead; omega⟩
  have number : (first + (j : ℤ) - first).toNat = j := by omega
  have next := h.seq
  dsimp only at ahead inside
  have kept := h.kept j
  unfold buffer Receiver.keep arrival
  dsimp only
  rw [number, kept]
  cases found : r.pending.lookup (first + j) with
  | some waiting =>
    refine { h with kept := fun i => ?_ }
    show Function.update st.kept j _ i = (r.pending.lookup (first + i)).map _
    by_cases here : i = j
    · rw [here, update_self, found]
      rfl
    rw [update_of_ne here]
    exact h.kept i
  | none =>
    have room := h.room few (by omega)
    dsimp only
    rw [if_neg (by unfold maxPending at few room ⊢; omega)]
    refine ⟨h.seq, h.todo, fun i => ?_, fun key waiting member => ?_, ?_⟩
    · show Function.update st.kept j _ i = (List.lookup (first + (i : ℤ)) (r.pending ++ [(first + (j : ℤ), entry)])).map _
      rw [lookup_append]
      by_cases here : i = j
      · rw [here, update_self, found, lookup_cons_self]
        rfl
      have other : (first + (i : ℤ) == first + (j : ℤ)) = false := by simpa using here
      rw [update_of_ne here, lookup_cons, other, lookup_nil, Option.or_none]
      exact h.kept i
    · obtain member | here := List.mem_append.mp member
      · exact h.queued key waiting member
      cases List.mem_singleton.mp here
      exact ⟨by show first + ((st.next + 1 : ℕ) : ℤ) ≤ _; omega, inside, known⟩
    show ((r.pending ++ [(first + (j : ℤ), entry)]).map Prod.fst).Nodup
    rw [map_append, nodup_append]
    refine ⟨h.distinct, by simp, fun key member key' here => ?_⟩
    obtain ⟨⟨key, waiting⟩, there, rfl⟩ := List.mem_map.mp member
    obtain rfl : key' = first + (j : ℤ) := by simpa using here
    rintro rfl
    simpa using List.lookup_eq_none_iff.mp found _ there

theorem receive_mirrors (low : first ≤ m.seq) (inside : m.seq < first + entries.length)
    (known : isReal first entries m = true ∨ isJunk first entries m) :
    Mirrors revealed first entries done ((st.receive entries.length (arrival first entries m)).next + 1)
      (st.receive entries.length (arrival first entries m)) (after (applyAction m.seq m.entry r)) := by
  have next := h.seq
  have number : (arrival first entries m).number = (m.seq - first).toNat := rfl
  unfold applyAction
  obtain stale | here | early := lt_trichotomy m.seq r.nextSeq
  · have same : st.receive entries.length (arrival first entries m) = st := if_pos (by omega)
    rw [same, if_pos stale]
    exact h
  · obtain ⟨real, engine, up, accepted, later⟩ := h.up (by omega)
    rw [if_neg (by omega), if_neg (by omega)]
    have turn : st.receive entries.length (arrival first entries m) =
        if isReal first entries m then Receiver.drain (entries.length - (st.next + 1)) st.passed else st := by
      unfold Receiver.receive
      rw [if_neg (by omega), if_neg (by omega)]
      rfl
    have index : (m.seq - first).toNat = st.next := by omega
    rw [turn]
    by_cases honest : isReal first entries m = true
    · have same : m.entry = real := by
        unfold isReal at honest
        rw [index] at honest
        exact Option.some.inj ((of_decide_eq_true honest).symm.trans up)
      obtain ⟨r', ran, mirrors⟩ := drain_mirrors (entries.length - (st.next + 1)) _ (h.take later)
        (by show st.next + 1 + _ = _; omega) le_rfl
      have drains : drainPending (r.moved engine).countOn = .ok () r' := ran
      rw [if_pos honest, same, bind_of_ok (applyNow_accepts accepted)]
      show Mirrors revealed first entries done _ _
        (after ((drainPending >>= fun _ => pure Verdict.applied) (r.moved engine).countOn))
      rw [bind_of_ok drains]
      exact mirrors
    obtain ⟨real', up', other⟩ := known.resolve_left honest
    rw [index, up] at up'
    cases up'
    rw [if_neg honest, bind_of_ok (applyNow_otherSeat accepted other)]
    exact h
  have same : st.receive entries.length (arrival first entries m) = st.keep (arrival first entries m) := by
    unfold Receiver.receive
    rw [if_neg (by omega), if_pos (by omega)]
  rw [same, if_neg (by omega), if_pos early]
  exact buffer_mirrors h few early inside known

theorem deliver_mirrors {messages : List Broadcast}
    (numbered : ∀ m ∈ messages, first ≤ m.seq ∧ m.seq < first + entries.length)
    (known : ∀ m ∈ messages, isReal first entries m = true ∨ isJunk first entries m) :
    let st' := (messages.map (arrival first entries)).foldl (Receiver.receive entries.length) st
    Mirrors revealed first entries done (st'.next + 1) st' (r.deliver messages) := by
  induction messages generalizing st r with
  | nil => exact h
  | cons m rest ih =>
    obtain ⟨low, high⟩ := numbered m (.head _)
    exact ih (receive_mirrors h few low high (known m (.head _)))
      (fun x member => numbered x (.tail _ member)) fun x member => known x (.tail _ member)

end

theorem start_mirrors (empty : r.pending = []) (valid : inOrder revealed r (entries.map .action) = some done) :
    Mirrors revealed r.nextSeq entries done (({} : Receiver).next + 1) {} r where
  seq := by simp
  todo := by
    have core : r.core = r := by unfold core; rw [← empty]
    rw [core]
    exact valid
  kept j := by rw [empty]; rfl
  queued key entry member := by rw [empty] at member; exact absurd member not_mem_nil
  distinct := by rw [empty]; exact nodup_nil

theorem inOrder_seq (valid : inOrder revealed r.core (entries.map .action) = some done) :
    done.nextSeq = r.nextSeq + entries.length := by
  induction entries generalizing r with
  | nil =>
    cases valid
    simp [core]
  | cons entry rest ih =>
    obtain ⟨engine, -, later⟩ := inOrder_action valid
    rw [ih later]
    show r.nextSeq + 1 + (rest.length : ℤ) = r.nextSeq + ((entry :: rest).length : ℤ)
    rw [length_cons]
    omega

theorem Mirrors.complete (h : Mirrors revealed first entries done (st.next + 1) st r) (all : st.next = entries.length) :
    r = done := by
  have todo := h.todo
  rw [all, drop_length] at todo
  have empty : r.pending = [] := by
    refine List.eq_nil_iff_forall_not_mem.mpr fun ⟨key, entry⟩ member => ?_
    obtain ⟨low, high, -⟩ := h.queued key entry member
    omega
  have core : r.core = r := by unfold core; rw [← empty]
  exact core.symm.trans (Option.some.inj todo)

theorem Mirrors.behind (h : Mirrors revealed first entries done (st.next + 1) st r) (bound : st.next ≤ entries.length)
    (same : r.nextSeq = done.nextSeq) : st.next = entries.length := by
  have seq := inOrder_seq h.todo
  rw [length_drop] at seq
  omega

end Replica

variable {first : ℤ} {entries : List Entry} {messages : List Broadcast}

section

variable (traffic : Traffic first entries messages)
include traffic

theorem Traffic.arrival_real {m : Broadcast} (member : m ∈ messages) {j : ℕ} {entry : Entry}
    (up : entries[j]? = some entry) : Replica.arrival first entries m = ⟨j, true⟩ ↔ m = ⟨first + j, entry⟩ := by
  obtain ⟨seq, said⟩ := m
  have low := (traffic.numbered _ member).1
  dsimp only at low
  constructor
  · intro same
    obtain ⟨number, real⟩ := Arrival.mk.inj same
    dsimp only at number
    obtain rfl : seq = first + j := by omega
    rw [Replica.isReal_next] at real
    rw [Option.some.inj (up.symm.trans real)]
  intro same
  obtain ⟨rfl, rfl⟩ := Broadcast.mk.inj same
  have real : isReal first entries ⟨first + j, said⟩ = true := (Replica.isReal_next j said).mpr up
  unfold Replica.arrival
  rw [real]
  simp

theorem Traffic.once_arrivals : Once entries.length (messages.map (Replica.arrival first entries)) := by
  refine ⟨fun a member => ?_, fun j less => ?_⟩
  · obtain ⟨m, there, rfl⟩ := List.mem_map.mp member
    have := traffic.numbered m there
    show (m.seq - first).toNat < entries.length
    omega
  have up := getElem?_eq_getElem less
  rw [← traffic.once j _ up, count_eq_countP, countP_map, count_eq_countP]
  refine countP_congr fun m member => ?_
  simpa using traffic.arrival_real member up

theorem Traffic.displaced_iff :
    Displaced (messages.map (Replica.arrival first entries)) ↔ Displaces first entries messages := by
  constructor
  · rintro ⟨i, j, order, triple⟩
    obtain ⟨triple', sub, eq⟩ := List.sublist_map_iff.mp triple
    obtain ⟨junk, tail, rfl, atJunk, eq⟩ := List.map_eq_cons_iff.mp eq.symm
    obtain ⟨late, tail, rfl, atLate, eq⟩ := List.map_eq_cons_iff.mp eq
    obtain ⟨early, tail, rfl, atEarly, eq⟩ := List.map_eq_cons_iff.mp eq
    cases List.map_eq_nil_iff.mp eq
    obtain ⟨junkAt, false_⟩ := Arrival.mk.inj atJunk
    obtain ⟨lateAt, real⟩ := Arrival.mk.inj atLate
    obtain ⟨earlyAt, real'⟩ := Arrival.mk.inj atEarly
    have low := (traffic.numbered junk (sub.subset (by simp))).1
    have low' := (traffic.numbered late (sub.subset (by simp))).1
    have low'' := (traffic.numbered early (sub.subset (by simp))).1
    refine ⟨junk, late, early, (traffic.known junk (sub.subset (by simp))).resolve_left (by simp [false_]), real, real',
      by omega, by omega, sub⟩
  rintro ⟨junk, late, early, ⟨real, up, other⟩, atLate, atEarly, same, order, sub⟩
  have low := (traffic.numbered early (sub.subset (by simp))).1
  have false_ : isReal first entries junk = false := by
    rw [Bool.eq_false_iff, isReal, ne_eq, decide_eq_true_eq]
    intro honest
    exact other (congrArg Entry.seat (Option.some.inj (honest.symm.trans up)))
  refine ⟨(early.seq - first).toNat, (late.seq - first).toNat, by omega, ?_⟩
  have mapped := sub.map (Replica.arrival first entries)
  simpa [Replica.arrival, false_, atLate, atEarly, same] using mapped

theorem Traffic.real : Traffic first entries (messages.filter (isReal first entries)) := by
  refine ⟨fun m member => traffic.numbered m (mem_of_mem_filter member),
    fun m member => Or.inl (List.mem_filter.mp member).2, fun j entry up => ?_⟩
  rw [count_filter ((Replica.isReal_next j entry).mpr up)]
  exact traffic.once j entry up

end

theorem real_not_displaces : ¬Displaces first entries (messages.filter (isReal first entries)) := by
  rintro ⟨junk, late, early, ⟨real, up, other⟩, -, -, -, -, sub⟩
  have honest := of_decide_eq_true (List.mem_filter.mp (sub.subset (show junk ∈ [junk, late, early] by simp))).2
  exact other (congrArg Entry.seat (Option.some.inj (honest.symm.trans up)))

namespace Replica

variable {n : ℕ} {revealed : Street → List (Option Card)} {r done : Replica n}

theorem deliver_iff (empty : r.pending = []) (valid : inOrder revealed r (entries.map .action) = some done)
    (few : entries.length ≤ maxPending) (traffic : Traffic r.nextSeq entries messages) :
    (¬Displaces r.nextSeq entries messages → r.deliver messages = done) ∧
      ((r.deliver messages).nextSeq = done.nextSeq → ¬Displaces r.nextSeq entries messages) := by
  have mirrors := deliver_mirrors (start_mirrors empty valid) few traffic.numbered traffic.known
  have complete := run_complete traffic.once_arrivals
  have bound := (run_sound traffic.once_arrivals.inside).bound
  rw [traffic.displaced_iff] at complete
  exact ⟨fun fair => mirrors.complete (complete.mpr fair), fun same => complete.mp (mirrors.behind bound same)⟩

/-- In an open round the replica ends with exactly the actions applied, and with the digest it would have
without the junk, if and only if no junk displaces an action: none comes before the action with its
number while an earlier action is still to come. -/
theorem junk_harmless_iff (empty : r.pending = []) (valid : inOrder revealed r (entries.map .action) = some done)
    (few : entries.length ≤ maxPending) (traffic : Traffic r.nextSeq entries messages) :
    (r.deliver messages = done ↔ ¬Displaces r.nextSeq entries messages) ∧
    ((r.deliver messages).digestParts = (r.deliver (messages.filter (isReal r.nextSeq entries))).digestParts ↔
      ¬Displaces r.nextSeq entries messages) := by
  have alone : r.deliver (messages.filter (isReal r.nextSeq entries)) = done :=
    (deliver_iff empty valid few traffic.real).1 real_not_displaces
  obtain ⟨through, behind⟩ := deliver_iff empty valid few traffic
  rw [alone]
  refine ⟨⟨fun same => behind (by rw [same]), through⟩, ⟨fun same => ?_, fun fair => ?_⟩⟩
  · exact behind (congrArg Digest.seq same)
  rw [through fair]

def dealt : Replica 2 := after (startHand 1 none none duel)

def limped : List Entry := [⟨0, .call, 0⟩, ⟨1, .call, 0⟩]

theorem limped_traffic
    (perm : messages.Perm [⟨1, ⟨0, .fold, 0⟩⟩, ⟨0, ⟨0, .call, 0⟩⟩, ⟨1, ⟨1, .call, 0⟩⟩]) : Traffic 0 limped messages := by
  refine ⟨fun m member => ?_, fun m member => ?_, fun j entry up => ?_⟩
  · have member := perm.mem_iff.mp member
    simp only [mem_cons, not_mem_nil, or_false] at member
    rcases member with rfl | rfl | rfl <;> decide
  · have member := perm.mem_iff.mp member
    simp only [mem_cons, not_mem_nil, or_false] at member
    obtain rfl | rfl | rfl := member
    · exact Or.inr ⟨⟨1, .call, 0⟩, rfl, by decide⟩
    · exact Or.inl (by decide)
    exact Or.inl (by decide)
  rw [perm.count_eq]
  match j, up with
  | 0, up => cases up; decide
  | 1, up => cases up; decide

/-- Junk that comes first is popped and refused in its turn; the action comes after that. -/
theorem junk_harmless_iff_limped :
    let messages : List Broadcast := [⟨1, ⟨0, .fold, 0⟩⟩, ⟨0, ⟨0, .call, 0⟩⟩, ⟨1, ⟨1, .call, 0⟩⟩]
    ∃ done, inOrder (fun _ => []) dealt (limped.map .action) = some done ∧ dealt.deliver messages = done := by
  intro messages
  obtain ⟨done, valid⟩ : ∃ done, inOrder (fun _ => []) dealt (limped.map .action) = some done :=
    Option.isSome_iff_exists.mp (by decide +kernel)
  have seq : dealt.nextSeq = 0 := by decide +kernel
  have fair : ¬Displaces dealt.nextSeq limped messages := by
    rintro ⟨junk, late, early, -, -, -, same, -, sub⟩
    have all := sub.eq_of_length rfl
    simp only [messages, List.cons.injEq, and_true] at all
    obtain ⟨rfl, rfl, rfl⟩ := all
    exact absurd same (by decide)
  exact ⟨done, valid, (junk_harmless_iff (by decide +kernel) valid (by decide)
    (seq ▸ limped_traffic (List.Perm.refl messages))).1.mpr fair⟩

/-- The same messages in another order: the junk is buffered, the call of seat 1 is refused for it, and then
the junk is refused too. The call is lost. -/
theorem junk_displaces_call :
    let messages : List Broadcast := [⟨1, ⟨0, .fold, 0⟩⟩, ⟨1, ⟨1, .call, 0⟩⟩, ⟨0, ⟨0, .call, 0⟩⟩]
    dealt.pending = [] ∧ dealt.phase = .betting ∧ (inOrder (fun _ => []) dealt (limped.map .action)).isSome = true ∧
      Traffic dealt.nextSeq limped messages ∧ (dealt.deliver messages).nextSeq = 1 ∧
      (dealt.deliver messages).digestParts ≠
        (dealt.deliver (messages.filter (isReal dealt.nextSeq limped))).digestParts := by
  intro messages
  have seq : dealt.nextSeq = 0 := by decide +kernel
  refine ⟨by decide +kernel, by decide +kernel, by decide +kernel, seq ▸ limped_traffic (by decide), by decide +kernel, ?_⟩
  intro same
  exact absurd (congrArg Digest.seq same) (by decide +kernel)

end Replica

end Holdem
