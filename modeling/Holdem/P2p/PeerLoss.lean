import Holdem.P2p.Transport

/-!
Whether a lost peer is reported. What the consumer has run and what is still queued stay in one order,
so a connection's course is what its events append to that order.
-/

namespace Holdem.P2p

open Function List
open Option (bind_eq_some_iff bind_some ite_none_right_eq_some toList_none)

variable {κ μ : Type} [DecidableEq κ] {conn : κ} {t t' : Transport κ μ} {event : Event κ μ}

namespace Transport

def signs (t : Transport κ μ) (conn : κ) : List Sign :=
  (t.ran ++ t.worker.queue).filterMap (Work.sign conn)

def withWork (t : Transport κ μ) (items : List (Work κ μ)) : Transport κ μ :=
  { t with worker := { t.worker with queue := t.worker.queue ++ items } }

omit [DecidableEq κ] in
theorem deliver_full (full : t.worker.Full) (item : Work κ μ) :
    t.deliver item = (false, { t with worker := { t.worker with refused := t.worker.refused + 1 } }) := by
  simp only [deliver, MessageWorker.enqueue, full, if_true]

omit [DecidableEq κ] in
theorem deliver_room (room : ¬t.worker.Full) (item : Work κ μ) : t.deliver item = (true, t.withWork [item]) := by
  simp only [deliver, MessageWorker.enqueue, room, if_false, withWork]

theorem deliver_signs (item : Work κ μ) : (t.deliver item).2.signs conn =
    if t.worker.Full then t.signs conn else t.signs conn ++ (item.sign conn).toList := by
  split
  · rename_i full
    rw [deliver_full full]
    rfl
  rename_i room
  rw [deliver_room room]
  cases meant : item.sign conn <;> simp [signs, withWork, meant]

theorem readFrame_full (full : t.worker.Full) (msg : μ) : t.readFrame conn (.message msg) =
    { t with worker := { t.worker with refused := t.worker.refused + 1 } }.leave conn "disconnect" := by
  rw [readFrame, deliver_full full]

theorem readFrame_room (room : ¬t.worker.Full) (msg : μ) :
    t.readFrame conn (.message msg) = t.withWork [.message conn msg] := by
  rw [readFrame, deliver_room room]

theorem popWriter_handler (c : κ) (reason : String) : (t.popWriter c reason).handler = t.handler := by
  unfold popWriter
  split <;> rfl

theorem popWriter_writers (c : κ) (reason : String) :
    (t.popWriter c reason).writers = update t.writers c false := by
  unfold popWriter
  split
  · rfl
  rename_i absent
  exact (update_eq_self_iff.mpr (Bool.not_eq_true _ ▸ absent).symm).symm

theorem popWriter_signs (c : κ) (reason : String) : (t.popWriter c reason).signs conn =
    if (c = conn ∧ t.writers c) ∧ ¬t.worker.Full then t.signs conn ++ [.lost] else t.signs conn := by
  unfold popWriter
  split
  · rename_i present
    rw [deliver_signs]
    by_cases same : c = conn
    · subst same
      simp only [Work.sign, if_true, Option.toList_some, present, and_self, true_and, ite_not]
      rfl
    simp only [same, Work.sign, if_false, toList_none, append_nil, ite_self, false_and]
    rfl
  rename_i absent
  rw [if_neg fun found => absent found.1.2]

theorem runItem_signs {item : Work κ μ} {rest : List (Work κ μ)} (queued : t.worker.queue = item :: rest) :
    ({ t with worker := { t.worker with queue := rest } }.runItem item).signs conn = t.signs conn := by
  unfold signs
  rw [queued]
  cases item <;> simp [runItem, filterMap_cons, Work.sign]

/-- All that an event can do to a connection: nothing that matters, begin it, queue a frame of it, or
remove its writer. -/
inductive Effect (conn : κ) (t : Transport κ μ) (event : Event κ μ) (t' : Transport κ μ) : Prop where
  | quiet (kept : ¬t.Removes conn event) (still : ¬t.Accepts conn event)
      (writers : t'.writers conn = t.writers conn) (signs : t'.signs conn = t.signs conn)
      (known : t'.handler conn = .absent ↔ t.handler conn = .absent)
      (running : t.writers conn → t'.handler conn = .finished → t.handler conn = .finished)
  | begins (kept : ¬t.Removes conn event) (still : ¬t.Accepts conn event)
      (fresh : t.handler conn = .absent) (reading : t'.handler conn = .reading)
      (writers : t'.writers conn) (signs : t'.signs conn = t.signs conn)
  | accepts (kept : ¬t.Removes conn event) (accepted : t.Accepts conn event)
      (writers : t'.writers conn = t.writers conn) (handler : t'.handler conn = t.handler conn)
      (reading : t.handler conn = .reading) (signs : t'.signs conn = t.signs conn ++ [.frame])
  | removes (removed : t.Removes conn event) (still : ¬t.Accepts conn event)
      (writer : t.writers conn) (gone : ¬t'.writers conn)
      (known : t'.handler conn = .absent → t.handler conn = .absent)
      (signs : t'.signs conn = if t.worker.Full then t.signs conn else t.signs conn ++ [.lost])

variable {c : κ} {reason : String} {events : List (Event κ μ)} {s : Transport κ μ} {frame : Frame μ}

theorem connect_effect {address : String} (fresh : t.handler c = .absent) :
    Effect conn t (.connects c address) (t.connect c address) := by
  have signs : (t.connect c address).signs conn = t.signs conn := by
    unfold connect
    rw [deliver_signs]
    simp only [Work.sign, toList_none, append_nil, ite_self]
    rfl
  by_cases same : c = conn
  · subst same
    exact .begins id id fresh (update_self ..) (update_self ..) signs
  have other : conn ≠ c := Ne.symm same
  have handler : (t.connect c address).handler conn = t.handler conn := update_of_ne other ..
  have writers : (t.connect c address).writers conn = t.writers conn := update_of_ne other ..
  exact .quiet id id writers signs (by rw [handler]) (fun _ => by rw [handler]; exact id)

-- Both ways to lose a writer end in `popWriter`, after a change that the connection's course ignores.

theorem popWriter_effect (removes : t.Removes conn event ↔ c = conn ∧ t.writers c) (still : ¬t.Accepts conn event)
    (writers : s.writers = t.writers) (worker : s.worker = t.worker) (ran : s.ran = t.ran)
    (known : s.handler conn = .absent ↔ t.handler conn = .absent)
    (others : c ≠ conn → s.handler conn = t.handler conn) :
    Effect conn t event (s.popWriter c reason) := by
  have same : s.signs conn = t.signs conn := by rw [signs, ran, worker, signs]
  have signs := popWriter_signs c reason |>.trans (by rw [writers, worker, same])
  have gone : (s.popWriter c reason).writers = update t.writers c false := writers ▸ popWriter_writers ..
  rw [← popWriter_handler c reason] at known others
  by_cases removed : c = conn ∧ t.writers c
  · obtain ⟨rfl, writer⟩ := removed
    refine .removes (removes.mpr ⟨rfl, writer⟩) still writer ?_ known.mp ?_
    · rw [gone, update_self]
      exact Bool.false_ne_true
    rw [signs]
    simp only [writer, and_self, true_and, ite_not]
  have kept : (s.popWriter c reason).writers conn = t.writers conn := by
    rw [gone]
    by_cases named : conn = c
    · rw [named, update_self]
      exact (Bool.eq_false_iff.mpr fun writer => removed ⟨named.symm, writer⟩).symm
    rw [update_of_ne named]
  refine .quiet (fun happened => removed (removes.mp happened)) still kept ?_ known ?_
  · rw [signs, if_neg fun found => removed found.1]
  intro writer finished
  rwa [← others fun named => removed ⟨named, named ▸ writer⟩]

theorem finish_effect (leaving : t.handler c = .leaving reason) : Effect conn t (.finishes c) (t.finish c reason) := by
  refine popWriter_effect ⟨fun h => ⟨h.1, h.1 ▸ h.2⟩, fun h => ⟨h.1, h.1 ▸ h.2⟩⟩ id rfl rfl rfl ?_
    fun other => update_of_ne (Ne.symm other) ..
  by_cases same : conn = c
  · simp [same, leaving]
  simp [same]

theorem dropWriter_effect : Effect conn t (.writeFails c) (t.dropWriter c) := by
  unfold dropWriter
  split
  · exact popWriter_effect ⟨fun h => ⟨h.1, h.1 ▸ h.2⟩, fun h => ⟨h.1, h.1 ▸ h.2⟩⟩ id rfl rfl rfl
      Iff.rfl fun _ => rfl
  rename_i absent
  exact .quiet (fun h => absent (h.1 ▸ h.2)) id rfl rfl Iff.rfl fun _ => id

theorem leave_effect (kept : ¬t.Removes conn event)
    (still : ¬t.Accepts conn event) (reading : t.handler c = .reading) (handler : s.handler = t.handler)
    (writers : s.writers = t.writers) (signs : s.signs conn = t.signs conn) :
    Effect conn t event (s.leave c reason) := by
  have stays : (s.leave c reason).handler = update t.handler c (.leaving reason) := by
    rw [leave, handler]
  refine .quiet kept still (congrFun writers conn) signs ?_ fun _ => ?_ <;> rw [stays]
  all_goals
    by_cases same : conn = c
    · simp [same, reading]
    simp [same]

theorem read_effect {rest : List (Frame μ)} (reading : t.handler c = .reading) (buffer : t.buffered c = frame :: rest) :
    Effect conn t (.reads c)
      ({ t with buffered := update t.buffered c rest }.readFrame c frame) := by
  cases frame with
  | heartbeat =>
    refine .quiet id ?_ rfl rfl Iff.rfl fun _ => id
    rintro ⟨rfl, ⟨msg, _, message⟩, -⟩
    rw [buffer] at message
    cases message
  | message msg =>
    set s : Transport κ μ := { t with buffered := update t.buffered c rest }
    by_cases full : s.worker.Full
    · rw [readFrame_full full]
      exact leave_effect id (fun accepted => accepted.2.2 full) reading rfl rfl rfl
    have signs : (s.deliver (.message c msg)).2.signs conn = _ := s.deliver_signs _
    rw [deliver_room full, if_neg full] at signs
    rw [readFrame_room full]
    by_cases same : c = conn
    · subst same
      simp only [Work.sign, if_true] at signs
      exact .accepts id ⟨rfl, ⟨msg, rest, buffer⟩, full⟩ rfl rfl reading signs
    simp only [Work.sign, same, if_false, toList_none, append_nil] at signs
    exact .quiet id (fun accepted => same accepted.1) rfl signs Iff.rfl fun _ => id

theorem step_effect (stepped : t.step event = some t') : Effect conn t event t' := by
  cases event with
  | connects c address =>
    simp only [step, ite_none_right_eq_some, Option.some.injEq] at stepped
    obtain ⟨fresh, rfl⟩ := stepped
    exact connect_effect fresh
  | arrives _ _ | closes _ =>
    simp only [step, ite_none_right_eq_some, Option.some.injEq] at stepped
    obtain ⟨-, rfl⟩ := stepped
    exact .quiet id id rfl rfl Iff.rfl fun _ => id
  | reads c =>
    simp only [step] at stepped
    split at stepped
    · rename_i reading buffer
      exact Option.some.inj stepped ▸ read_effect reading buffer
    cases stepped
  | exits c exit =>
    simp only [step, ite_none_right_eq_some, Option.some.injEq] at stepped
    obtain ⟨reading, rfl⟩ := stepped
    exact leave_effect id id reading rfl rfl rfl
  | finishes c =>
    simp only [step] at stepped
    split at stepped
    · rename_i leaving
      exact Option.some.inj stepped ▸ finish_effect leaving
    cases stepped
  | writeFails c => exact Option.some.inj stepped ▸ dropWriter_effect
  | disconnects c reason =>
    rw [← Option.some.inj stepped]
    unfold disconnect
    split <;> exact .quiet id id rfl rfl Iff.rfl fun _ => id
  | consumes =>
    simp only [step] at stepped
    split at stepped
    · rename_i item rest queued
      rw [← Option.some.inj stepped]
      have signs : _ = t.signs conn := runItem_signs queued
      cases item <;> exact .quiet id id rfl signs Iff.rfl fun _ => id
    cases stepped

/-! ### The course of a connection

Its loss is awaited, then told, and spoiled when the loss was refused or a frame came after it. -/

structure Awaited (t : Transport κ μ) (conn : κ) : Prop where
  unseen : Sign.lost ∉ t.signs conn
  writers : t.writers conn → t.handler conn ≠ .absent ∧ t.handler conn ≠ .finished
  handled : ¬t.writers conn → t.handler conn = .absent

structure Told (t : Transport κ μ) (conn : κ) : Prop where
  gone : ¬t.writers conn
  known : t.handler conn ≠ .absent
  once : (t.signs conn).count .lost = 1
  last : ¬[Sign.lost, Sign.frame].Sublist (t.signs conn)

structure Spoiled (t : Transport κ μ) (conn : κ) : Prop where
  gone : ¬t.writers conn
  known : t.handler conn ≠ .absent
  wrong : Sign.lost ∉ t.signs conn ∨ [Sign.lost, Sign.frame].Sublist (t.signs conn)

theorem not_lost_frame_append {signs : List Sign} (unseen : Sign.lost ∉ signs) :
    ¬[Sign.lost, Sign.frame].Sublist (signs ++ [.lost]) := by
  intro late
  obtain ⟨first, second, split, early, final⟩ := List.sublist_append_iff.mp late
  match first with
  | [] =>
    rw [← nil_append second, ← split] at final
    exact absurd final.length_le (by decide)
  | sign :: _ =>
    obtain ⟨rfl, -⟩ := List.cons.inj split
    exact unseen (early.subset (.head _))

theorem Awaited.step (awaited : t.Awaited conn) (effect : Effect conn t event t') :
    (t.Accepts conn event → t.writers conn) ∧ (¬t.Removes conn event ∧ t'.Awaited conn ∨
        t.Removes conn event ∧ ¬t.worker.Full ∧ t'.Told conn ∨
          t.Removes conn event ∧ t.worker.Full ∧ t'.Spoiled conn) := by
  cases effect with
  | quiet kept still writers signs known running =>
    refine ⟨fun accepted => absurd accepted still, .inl ⟨kept, signs ▸ awaited.unseen, ?_, ?_⟩⟩
    · intro writer
      rw [writers] at writer
      obtain ⟨present, unfinished⟩ := awaited.writers writer
      exact ⟨fun absent => present (known.mp absent), fun shut => unfinished (running writer shut)⟩
    intro removed
    rw [writers] at removed
    exact known.mpr (awaited.handled removed)
  | begins kept still fresh reading writers signs =>
    refine ⟨fun accepted => absurd accepted still, .inl ⟨kept, signs ▸ awaited.unseen, ?_, ?_⟩⟩
    · intro _
      rw [reading]
      exact ⟨nofun, nofun⟩
    exact fun removed => absurd writers removed
  | accepts kept accepted writers handler reading signs =>
    have writer : t.writers conn := by
      by_contra removed
      rw [awaited.handled removed] at reading
      cases reading
    refine ⟨fun _ => writer, .inl ⟨kept, ?_, ?_, ?_⟩⟩
    · rw [signs, mem_append, mem_singleton]
      exact fun seen => seen.elim awaited.unseen nofun
    · rw [writers, handler]
      exact awaited.writers
    rw [writers, handler]
    exact awaited.handled
  | removes removed still writer gone known signs =>
    have present : t'.handler conn ≠ .absent := fun absent => (awaited.writers writer).1 (known absent)
    refine ⟨fun accepted => absurd accepted still, .inr ?_⟩
    by_cases full : t.worker.Full
    · rw [if_pos full] at signs
      exact .inr ⟨removed, full, gone, present, .inl (signs ▸ awaited.unseen)⟩
    rw [if_neg full] at signs
    refine .inl ⟨removed, full, gone, present, ?_, ?_⟩
    · rw [signs, count_append, List.count_eq_zero.mpr awaited.unseen]
      rfl
    rw [signs]
    exact not_lost_frame_append awaited.unseen

theorem Told.step (told : t.Told conn) (effect : Effect conn t event t') : ¬t.Removes conn event ∧
      (¬t.Accepts conn event ∧ t'.Told conn ∨ t.Accepts conn event ∧ t'.Spoiled conn) := by
  cases effect with
  | quiet kept still writers signs known =>
    refine ⟨kept, .inl ⟨still, writers ▸ told.gone, fun absent => told.known (known.mp absent), ?_, ?_⟩⟩
    · exact signs ▸ told.once
    exact signs ▸ told.last
  | begins _ _ fresh => exact absurd fresh told.known
  | accepts kept accepted writers handler _ signs =>
    refine ⟨kept, .inr ⟨accepted, writers ▸ told.gone, handler ▸ told.known, .inr ?_⟩⟩
    have seen : Sign.lost ∈ t.signs conn := List.count_pos_iff.mp (told.once ▸ Nat.one_pos)
    rw [signs]
    exact (List.singleton_sublist.mpr seen).append (List.Sublist.refl [Sign.frame])
  | removes _ _ writer => exact absurd writer told.gone

theorem Spoiled.step (spoiled : t.Spoiled conn) (effect : Effect conn t event t') : t'.Spoiled conn := by
  cases effect with
  | quiet _ _ writers signs known =>
    exact ⟨writers ▸ spoiled.gone, fun absent => spoiled.known (known.mp absent), signs ▸ spoiled.wrong⟩
  | begins _ _ fresh => exact absurd fresh spoiled.known
  | accepts _ _ writers handler _ signs =>
    refine ⟨writers ▸ spoiled.gone, handler ▸ spoiled.known, ?_⟩
    rw [signs]
    refine spoiled.wrong.imp (fun unseen seen => ?_) fun late => late.trans (sublist_append_left ..)
    exact (List.mem_append.mp seen).elim unseen (by decide)
  | removes _ _ writer => exact absurd writer spoiled.gone

theorem Spoiled.run (spoiled : t.Spoiled conn) (ran : t.run events = some t') : t'.Spoiled conn := by
  induction events generalizing t with
  | nil => exact Option.some.inj ran ▸ spoiled
  | cons event events ih =>
    obtain ⟨next, stepped, ran⟩ := bind_eq_some_iff.mp ran
    exact ih (spoiled.step (step_effect stepped)) ran

theorem undisturbed_cons (stepped : t.step event = some t') :
    Undisturbed conn t (event :: events) ↔ (t.Removes conn event → ¬t.worker.Full) ∧
      (t.Accepts conn event → t.writers conn) ∧ Undisturbed conn t' events := by
  simp only [Undisturbed, stepped, Option.mem_some_iff, forall_eq']

theorem Told.run (told : t.Told conn) (ran : t.run events = some t') :
    Undisturbed conn t events ∧ t'.Told conn ∨ ¬Undisturbed conn t events ∧ t'.Spoiled conn := by
  induction events generalizing t with
  | nil => exact .inl ⟨trivial, Option.some.inj ran ▸ told⟩
  | cons event events ih =>
    obtain ⟨next, stepped, ran⟩ := bind_eq_some_iff.mp ran
    rw [undisturbed_cons stepped]
    obtain ⟨kept, ⟨still, told'⟩ | ⟨accepted, spoiled⟩⟩ := told.step (step_effect stepped)
    · simpa only [kept, still, false_implies, true_and] using ih told' ran
    exact .inr ⟨fun calm => told.gone (calm.2.1 accepted), spoiled.run ran⟩

theorem Awaited.run (awaited : t.Awaited conn) (ran : t.run events = some t') :
    Undisturbed conn t events ∧ (t'.Awaited conn ∨ t'.Told conn) ∨ ¬Undisturbed conn t events ∧ t'.Spoiled conn := by
  induction events generalizing t with
  | nil => exact .inl ⟨trivial, .inl (Option.some.inj ran ▸ awaited)⟩
  | cons event events ih =>
    obtain ⟨next, stepped, ran⟩ := bind_eq_some_iff.mp ran
    rw [undisturbed_cons stepped]
    obtain ⟨held, ⟨kept, awaited'⟩ | ⟨removed, room, told⟩ | ⟨removed, full, spoiled⟩⟩ :=
      awaited.step (step_effect stepped)
    · simpa only [kept, false_implies, true_and, eq_true held] using ih awaited' ran
    · refine (told.run ran).imp (fun ⟨calm, told⟩ => ?_) fun ⟨late, spoiled⟩ => ?_
      · exact ⟨⟨fun _ => room, held, calm⟩, .inr told⟩
      exact ⟨fun calm => late calm.2.2, spoiled⟩
    exact .inr ⟨fun calm => calm.1 removed full, spoiled.run ran⟩

theorem start_awaited (maxsize : ℕ) (conn : κ) : (start maxsize : Transport κ μ).Awaited conn where
  unseen := not_mem_nil
  writers writer := Bool.noConfusion writer
  handled _ := rfl

/-- At the end of a run the connection's loss was told exactly where nothing disturbed it. -/
theorem loss_reported_iff {maxsize : ℕ} {events : List (Event κ μ)} {t : Transport κ μ}
    (ran : (start maxsize).run events = some t) (conn : κ) (finished : t.handler conn = .finished)
    (drained : t.worker.queue = []) :
    ReportedOnce conn t.ran ↔ Undisturbed conn (start maxsize) events := by
  have all : t.signs conn = t.ran.filterMap (Work.sign conn) := by rw [signs, drained, append_nil]
  obtain ⟨calm, awaited | told⟩ | ⟨disturbed, spoiled⟩ := (start_awaited maxsize conn).run ran
  · by_cases writer : t.writers conn
    · exact absurd finished (awaited.writers writer).2
    rw [awaited.handled writer] at finished
    cases finished
  · exact ⟨fun _ => calm, fun _ => ⟨all ▸ told.once, all ▸ told.last⟩⟩
  refine ⟨fun reported => ?_, fun calm => absurd calm disturbed⟩
  obtain unseen | late := spoiled.wrong
  · rw [all, ← count_eq_zero, reported.once] at unseen
    exact absurd unseen Nat.one_ne_zero
  exact absurd (all ▸ late) reported.last

theorem loss_reported_iff_dropped :
    let events : List (Event Unit Unit) := [.connects () "peer", .arrives () (.message ()), .reads (), .writeFails (),
      .exits () .endOfStream, .finishes (), .consumes, .consumes, .consumes]
    ∃ t, (start defaultMaxsize).run events = some t ∧ ReportedOnce () t.ran ∧
      Undisturbed () (start defaultMaxsize) events := by
  refine ⟨_, rfl, ?reported, (loss_reported_iff rfl () rfl rfl).mp ?reported⟩
  exact ⟨rfl, by decide⟩

def flood (conn : κ) (msg : μ) : ℕ → List (Event κ μ)
  | 0 => []
  | k + 1 => .arrives conn (.message msg) :: .reads conn :: flood conn msg k

theorem step_arrives (reading : t.handler conn = .reading) (opened : ¬t.closed conn) (frame : Frame μ) :
    t.step (.arrives conn frame) =
      some { t with buffered := update t.buffered conn (t.buffered conn ++ [frame]) } :=
  if_pos ⟨reading, opened⟩

-- A frame that finds the buffer empty leaves it as it was.
theorem run_received (reading : t.handler conn = .reading) (opened : ¬t.closed conn) (read : t.buffered conn = []) :
    t.run (.arrives conn frame :: .reads conn :: events) = (t.readFrame conn frame).run events := by
  have restored : update t.buffered conn [] = t.buffered := update_eq_self_iff.mpr read.symm
  rw [run, step_arrives reading opened, read, nil_append, bind_some, run]
  simp only [step, reading, update_self, bind_some, update_idem, restored]

theorem run_flood {msg : μ} {k : ℕ} (reading : t.handler conn = .reading)
    (opened : ¬t.closed conn) (read : t.buffered conn = []) (room : t.worker.queue.length + k ≤ t.worker.maxsize) :
    t.run (flood conn msg k ++ events) = (t.withWork (replicate k (.message conn msg))).run events := by
  induction k generalizing t with
  | zero => simp only [flood, nil_append, replicate_zero, withWork, append_nil]
  | succ k ih =>
    have free : ¬t.worker.Full := fun full => by have := full.2; omega
    rw [flood, cons_append, cons_append, run_received reading opened read, readFrame_room free]
    refine (@ih (t.withWork [.message conn msg]) reading opened read ?_).trans ?_
    · simp only [withWork, length_append, length_singleton]
      omega
    simp only [withWork, append_assoc, singleton_append, replicate_succ]

-- A frame that finds the queue full ends the handler, and then the loss finds it full too.
theorem run_refused (msg : μ) (reading : t.handler conn = .reading) (opened : ¬t.closed conn)
    (read : t.buffered conn = []) (full : t.worker.Full) : ∃ t' : Transport κ μ,
      (∀ events, t.run (.arrives conn (.message msg) :: .reads conn :: .finishes conn :: events) =
        t'.run events) ∧ t'.handler conn = .finished ∧ t'.signs conn = t.signs conn := by
  refine ⟨({ t with worker := { t.worker with refused := t.worker.refused + 1 } }.leave conn
    "disconnect").finish conn "disconnect", fun events => ?_, ?_, ?_⟩
  · rw [run_received reading opened read, readFrame_full full, run]
    simp only [step, leave, update_self, bind_some]
  · rw [finish, popWriter_handler]
    exact update_self ..
  rw [finish, popWriter_signs, if_neg fun room => room.2 full]
  rfl

theorem run_consumes (t : Transport κ μ) (conn : κ) :
    ∃ events t', t.run events = some t' ∧ t'.worker.queue = [] ∧ t'.handler = t.handler ∧
      t'.signs conn = t.signs conn := by
  induction queued : t.worker.queue generalizing t with
  | nil => exact ⟨[], t, rfl, queued, rfl, rfl⟩
  | cons item rest ih =>
    set s : Transport κ μ := { t with worker := { t.worker with queue := rest } }.runItem item
    have left : s.worker.queue = rest := by cases item <;> rfl
    have handler : s.handler = t.handler := by cases item <;> rfl
    obtain ⟨events, t', ran, empty, kept, signs⟩ := ih s left
    refine ⟨.consumes :: events, t', ?_, empty, kept.trans handler, signs.trans (runItem_signs queued)⟩
    rw [run, step, queued]
    exact ran

theorem flooding_peer_untold (size : ℕ) (conn : κ) (msg : μ) :
    ∃ events t, (start (size + 1) : Transport κ μ).run events = some t ∧
      t.handler conn = .finished ∧ t.worker.queue = [] ∧ Sign.lost ∉ t.ran.filterMap (Work.sign conn) := by
  set joined : Transport κ μ := (start (size + 1)).connect conn "peer"
  have queue : joined.worker.queue = [.connected conn "peer"] := rfl
  set flooded := joined.withWork (replicate size (.message conn msg))
  have reading : flooded.handler conn = .reading := update_self ..
  have opened : ¬flooded.closed conn := nofun
  have full : flooded.worker.Full := by
    refine ⟨Nat.succ_pos size, ?_⟩
    simp only [flooded, withWork, queue, length_append, length_replicate, length_singleton]
    exact Nat.le_of_eq (Nat.add_comm size 1)
  have unseen : Sign.lost ∉ flooded.signs conn := by
    have ran : flooded.ran = [] := rfl
    have waiting : flooded.worker.queue = _ ++ replicate size (.message conn msg) := rfl
    rw [queue] at waiting
    simp [signs, ran, waiting, Work.sign]
  obtain ⟨shut, refused, finished, same⟩ := run_refused msg reading opened rfl full
  obtain ⟨events, t, drained, empty, handler, kept⟩ := shut.run_consumes conn
  refine ⟨.connects conn "peer" :: (flood conn msg size ++ .arrives conn (.message msg) :: .reads conn ::
    .finishes conn :: events), t, ?_, (congrFun handler conn).trans finished, empty, ?_⟩
  · have connected : (start (size + 1)).step (.connects conn "peer") = some joined := rfl
    have room : joined.worker.queue.length + size ≤ joined.worker.maxsize := by
      rw [queue, length_singleton]
      exact Nat.le_of_eq (Nat.add_comm 1 size)
    rw [run, connected, bind_some, @run_flood _ _ _ conn joined _ _ _ reading opened rfl room, refused, drained]
  rwa [← same, ← kept, signs, empty, append_nil] at unseen

theorem loss_not_told_once :
    (∃ events, ∃ t : Transport Unit Unit, (start defaultMaxsize).run events = some t ∧
      t.handler () = .finished ∧ t.worker.queue = [] ∧
        [Sign.lost, Sign.frame].Sublist (t.ran.filterMap (Work.sign ()))) ∧
    ∃ events, ∃ t : Transport Unit Unit, (start defaultMaxsize).run events = some t ∧
      t.handler () = .finished ∧ t.worker.queue = [] ∧
        Sign.lost ∉ t.ran.filterMap (Work.sign ()) := by
  refine ⟨?_, flooding_peer_untold 1023 () ()⟩
  -- The write fails while a frame waits in the buffer.
  refine ⟨[.connects () "peer", .arrives () (.message ()), .writeFails (), .reads (),
    .exits () .endOfStream, .finishes (), .consumes, .consumes, .consumes], _, rfl, rfl, rfl, ?_⟩
  decide

end Transport

end Holdem.P2p
