import Holdem.Room.Moves

/-!
A session that has ended. Whatever is called, what it ended on stands, but for the order of the seats:
`configure_seats` does not ask if it is over.
-/

namespace Holdem

namespace Room

variable {T : Type} {env : Env} {tbl : Table T} {r r' r'' : Room T} {c : Call}

structure Protocol (T : Type) where
  stage : Stage
  terminal : Option TerminalRecord
  seatOrder : List String
  seatKeys : List (ℕ × String)
  dealPolicy : Option DealPolicy
  continuationPolicy : Option ContinuationPolicy
  handNo : ℤ
  handRecord : Option HandRecord
  table : T

def protocol (r : Room T) : Protocol T :=
  { stage := r.stage, terminal := r.terminal, seatOrder := r.seatOrder, seatKeys := r.seatKeys, dealPolicy := r.dealPolicy
    continuationPolicy := r.continuationPolicy, handNo := r.handNo, handRecord := r.handRecord, table := r.table }

def Disputed (reason reason' : String) : Prop :=
  ∃ marks : List String, (∀ mark ∈ marks, ∃ words, mark = "; disputed: " ++ words) ∧ reason' = marks.foldl (· ++ ·) reason

theorem Disputed.refl (reason : String) : Disputed reason reason := ⟨[], nofun, rfl⟩

theorem Disputed.trans {a b c : String} (first : Disputed a b) (second : Disputed b c) : Disputed a c := by
  obtain ⟨marks, sound, rfl⟩ := first
  obtain ⟨more, sound', rfl⟩ := second
  refine ⟨marks ++ more, fun mark member => ?_, List.foldl_append.symm⟩
  obtain member | member := List.mem_append.mp member
  · exact sound mark member
  exact sound' mark member

structure Still (r r' : Room T) : Prop where
  protocol : r'.protocol = r.protocol
  reason : Disputed r.terminalReason r'.terminalReason
  admission : r'.admission = r.admission

theorem Still.refl (r : Room T) : Still r r := ⟨rfl, .refl _, rfl⟩

theorem Still.same (protocol : r'.protocol = r.protocol) (reason : r'.terminalReason = r.terminalReason)
    (admission : r'.admission = r.admission) : Still r r' := ⟨protocol, reason ▸ .refl _, admission⟩

theorem Still.trans (first : Still r r') (second : Still r' r'') : Still r r'' :=
  ⟨second.protocol.trans first.protocol, first.reason.trans second.reason, second.admission.trans first.admission⟩

theorem Still.ended (still : Still r r') (ended : r.terminal.isSome = true) : r'.terminal.isSome = true := by
  have same : r'.terminal = r.terminal := congrArg Protocol.terminal still.protocol
  rwa [same]

theorem chain_still {conn : String} {msg : Message} (linked : r.chain conn msg = some r') : Still r r' := by
  unfold chain at linked
  repeat' split at linked
  all_goals cases linked
  all_goals exact .same rfl rfl rfl

theorem endHand_ended (ended : r.terminal.isSome = true) (outcome : HandOutcome) (reason : String) (blamed : Option ℤ)
    (announce : Bool) : r.endHand tbl outcome reason blamed announce = r := if_pos ended

variable (tbl) in
theorem authorize_still (ended : r.terminal.isSome = true) (ctx : Inbound) : Still r (r.authorize tbl ctx).2 := by
  unfold authorize sequenceOk authorSeqOk
  repeat' split
  all_goals first
    | exact .refl r
    | (dsimp only; repeat' split)
  all_goals first
    | exact .refl r
    | exact .same rfl rfl rfl
    | (rw [endHand_ended ended]; exact .refl r)

theorem relayIfHost_still (ctx : Inbound) (r : Room T) : Still r (r.relayIfHost ctx) := by
  unfold relayIfHost
  split <;> exact .same rfl rfl rfl

theorem route_still (ended : r.terminal.isSome = true) (relay : Bool) (ctx : Inbound) :
    Still r (r.route env tbl relay ctx).2 := by
  have kept : r.putsOff tbl ctx = false := by
    unfold putsOff
    simp [Option.isNone_eq_false_iff.mpr ended]
  unfold route
  rw [if_neg (by simp [kept])]
  repeat' split
  · exact .refl r
  · exact .same rfl rfl rfl
  · exact .refl r
  exact relayIfHost_still ctx r

variable (env tbl) in
theorem admitHostless_still (ended : r.terminal.isSome = true) (relay : Bool) (ctx : Inbound) :
    Still r (r.admitHostless env tbl relay ctx).2 := by
  have authorized := authorize_still tbl ended ctx
  unfold admitHostless
  split
  · exact .refl r
  split
  · rename_i r' refused
    rwa [refused] at authorized
  rename_i r' passed
  rw [passed] at authorized
  exact authorized.trans (route_still (authorized.ended ended) relay ctx)

theorem dropDispute_marked (own : DropNotice) (live : Bool) (notice : Message) (sender : Option ℤ) :
    (own.dropDispute live notice sender).1 = "" ∨ ∃ words, (own.dropDispute live notice sender).1 = "; disputed: " ++ words := by
  have seat : "; disputed: seat " = "; disputed: " ++ "seat " := by decide
  unfold DropNotice.dropDispute
  split
  · dsimp only
    split
    · exact .inl rfl
    refine .inr ⟨?_, ?_⟩
    rotate_left
    · rw [seat]
      simp only [String.append_assoc]
      rfl
  refine .inr ⟨?_, ?_⟩
  rotate_left
  · rw [seat]
    simp only [String.append_assoc]
    rfl

theorem compareConfirmation_still (reporter : ℤ) (notice : Message) (r : Room T) :
    Still r (r.compareConfirmation reporter notice) := by
  unfold compareConfirmation
  split
  · exact .refl r
  rename_i stage _
  split
  · exact .refl r
  split
  · split
    · refine ⟨rfl, ?_, rfl⟩
      show Disputed r.terminalReason (r.terminalReason ++ _)
      obtain none | marked := dropDispute_marked stage.own stage.live notice (some reporter)
      · rw [none, String.append_empty]
        exact .refl _
      refine ⟨[(stage.own.dropDispute stage.live notice (some reporter)).1], fun mark member => ?_, rfl⟩
      rw [List.mem_singleton.mp member]
      exact marked
    exact .refl r
  exact .refl r

theorem onPeerLost_still (ended : r.terminal.isSome = true) (ctx : Inbound) : Still r (r.onPeerLost tbl ctx) := by
  unfold onPeerLost
  repeat' split
  · exact .refl r
  · exact compareConfirmation_still ..
  exact .refl r

def Afterwards (kind : HostlessKind) : Prop := kind = .peerLost ∨ kind = .handSettled ∨ kind = .sessionEnd

section

variable (ended : r.terminal.isSome = true)
include ended

theorem letThrough_ended {kind : Kind} (through : r.letThrough kind = true) :
    ∃ kind', kind = .hostless kind' ∧ Afterwards kind' := by
  obtain ⟨record, shut⟩ := Option.isSome_iff_exists.mp ended
  unfold letThrough at through
  rw [shut] at through
  simp only [Bool.or_eq_true, Bool.and_eq_true, decide_eq_true_eq] at through
  obtain ⟨-, lost⟩ | ⟨-, settled | shut⟩ := through
  · exact ⟨_, lost, .inl rfl⟩
  · exact ⟨_, settled, .inr (.inl rfl)⟩
  exact ⟨_, shut, .inr (.inr rfl)⟩

theorem deliver_still {ctx : Inbound} (late : Afterwards ctx.kind) : Still r (r.deliver tbl ctx) := by
  have noted : Still r { r with handed := r.handed ++ [ctx] } := .same rfl rfl rfl
  unfold deliver
  rcases late with kind | kind | kind <;> rw [kind] <;> dsimp only
  · exact noted.trans (onPeerLost_still (noted.ended ended) ctx)
  · rw [if_pos ended]
    exact noted
  rw [if_pos ended]
  exact noted

theorem handleHostless_still {kind : HostlessKind} (late : Afterwards kind) (conn : String) (msg : Message) :
    Still r (r.handleHostless env tbl conn kind msg) := by
  unfold handleHostless
  split
  · exact .refl r
  rename_i ctx read
  have admitted := admitHostless_still env tbl ended true ctx
  split
  · rename_i r' passed
    rw [passed] at admitted
    exact admitted.trans (deliver_still (admitted.ended ended) ((normalizeHostless_reads read).1 ▸ late))
  rename_i r' refused
  rwa [refused] at admitted

theorem handleMessage_still (a : Arrival) : Still r (r.handleMessage env tbl a) := by
  unfold handleMessage
  split
  · exact .refl r
  split
  · exact .refl r
  rename_i kind _ through
  obtain ⟨kind', rfl, late⟩ := letThrough_ended ended (not_not.mp through)
  split
  · exact .refl r
  cases linked : r.chain a.conn a.msg with
  | none => exact .refl r
  | some r' =>
    have still := chain_still linked
    exact still.trans (handleHostless_still (still.ended ended) late a.conn a.msg)

end

theorem setReady_still (conn : String) (ready : Bool) (r : Room T) : Still r (r.setReady conn ready) := by
  unfold setReady
  cases r.players.get conn <;> dsimp only <;> split <;> exact .same rfl rfl rfl

theorem addLocalPlayer_still (conn nickname avatar : String) (publicKey x25519 : Bytes) (r : Room T) :
    Still r (r.addLocalPlayer conn nickname avatar publicKey x25519) := by
  have enrolled : ∀ p : Player, Still r (r.setPlayer p) := by
    intro p
    obtain ⟨keys, players, set⟩ := setPlayer_frame p r
    rw [set]
    exact .same rfl rfl rfl
  unfold addLocalPlayer
  split
  · exact .refl r
  dsimp only
  split
  · exact (enrolled _).trans (.same rfl rfl rfl)
  exact enrolled _

theorem startHand_ended (ended : r.terminal.isSome = true) (s : StartCall) : r.startHand env tbl s = r := by
  have refused : r.dealPreconditions = false := by
    unfold dealPreconditions
    simp [Option.isNone_eq_false_iff.mpr ended]
  unfold startHand
  cases s with
  | startP2pHand => exact if_neg (by simp [refused])
  | beginHand => exact if_neg (by simp [refused])
  | nextP2pHand => exact if_pos ended

def closed (calls : List Call) : List String :=
  calls.filterMap fun
    | .disconnect conn _ => some conn
    | _ => none

/-- The session is where it ended, up to marks of a dispute and the admissions of closed connections. -/
structure Absorbed (calls : List Call) (r r' : Room T) : Prop where
  protocol : r'.protocol = r.protocol
  reason : Disputed r.terminalReason r'.terminalReason
  admission : r'.admission = (closed calls).foldl (fun admission conn => admission.map (HostAdmission.forget conn)) r.admission

theorem Absorbed.trans {calls more : List Call} (first : Absorbed calls r r') (second : Absorbed more r' r'') :
    Absorbed (calls ++ more) r r'' := by
  refine ⟨second.protocol.trans first.protocol, first.reason.trans second.reason, ?_⟩
  rw [second.admission, first.admission]
  unfold closed
  rw [List.filterMap_append, List.foldl_append]

theorem Still.absorbed (still : Still r r') (other : closed [c] = []) : Absorbed [c] r r' :=
  ⟨still.protocol, still.reason, by rw [other]; exact still.admission⟩

def KeepsSeats (tbl : Table T) (c : Call) (r : Room T) : Prop :=
  ∀ order, c = .configureSeats order → r.acceptsSeats tbl order = false ∨ order = r.seatOrder

theorem make_absorbed (ended : r.terminal.isSome = true) (c : Call) (keeps : KeepsSeats tbl c r) :
    Absorbed [c] r (r.make env tbl c) := by
  cases c with
  | message a => exact (handleMessage_still ended a).absorbed rfl
  | disconnect conn reason =>
    unfold make handleDisconnect
    dsimp only
    rw [if_pos ended]
    exact ⟨rfl, .refl _, rfl⟩
  | configureSeats order =>
    unfold make configureSeats
    dsimp only
    obtain refused | same := keeps order rfl
    · rw [refused]
      exact (Still.refl r).absorbed rfl
    split
    · rw [same]
      exact (Still.refl r).absorbed rfl
    exact (Still.refl r).absorbed rfl
  | seatLocalTable order nicknames =>
    unfold make seatLocalTable
    dsimp only
    rw [if_pos (.inr ended)]
    exact (Still.refl r).absorbed rfl
  | startGame settings =>
    unfold make startGame
    dsimp only
    rw [if_pos (.inl ended)]
    exact (Still.refl r).absorbed rfl
  | start s =>
    unfold make
    dsimp only
    rw [startHand_ended ended]
    exact (Still.refl r).absorbed rfl
  | sendBetAction _ _ | revealBoardStreet _ | openDealAudit =>
    unfold make whileOn
    dsimp only
    rw [if_pos ended]
    exact (Still.refl r).absorbed rfl
  | setReady conn ready => exact (setReady_still conn ready r).absorbed rfl
  | terminate state reason conn seat =>
    unfold make terminate
    dsimp only
    rw [if_pos ended]
    exact (Still.refl r).absorbed rfl
  | addLocalPlayer conn nickname avatar publicKey x25519 => exact (addLocalPlayer_still ..).absorbed rfl
  | markHostAuthenticated conn hostPubkey =>
    obtain ⟨pinned, host, known, same⟩ := markHostAuthenticated_frame conn hostPubkey r
    unfold make
    dsimp only
    rw [same]
    exact Still.absorbed (.same rfl rfl rfl) rfl

/-- What a session ended on stands after any calls exactly if none of them seats the table anew. -/
theorem ended_absorbing (env : Env) (tbl : Table T) (r : Room T) (ended : r.terminal.isSome = true) (calls : List Call) :
    (∀ before after, calls = before ++ after → Absorbed before r (run env tbl before r)) ↔
      Along env tbl (KeepsSeats tbl) calls r := by
  constructor
  · intro absorbed before c after split order call
    cases accepted : (run env tbl before r).acceptsSeats tbl order with
    | false => exact .inl rfl
    | true =>
      subst call
      have earlier := absorbed before _ split
      have later := absorbed (before ++ [.configureSeats order]) after (by simpa using split)
      have seated : (run env tbl (before ++ [.configureSeats order]) r).seatOrder = order := by
        rw [run_append]
        show ((run env tbl before r).configureSeats tbl order).seatOrder = order
        unfold configureSeats
        rw [if_pos accepted]
      have before' : (run env tbl before r).seatOrder = r.seatOrder := congrArg Protocol.seatOrder earlier.protocol
      have after' : (run env tbl (before ++ [.configureSeats order]) r).seatOrder = r.seatOrder :=
        congrArg Protocol.seatOrder later.protocol
      exact .inr ((seated.symm.trans after').trans before'.symm)
  intro keeps before
  induction before using List.reverseRecOn with
  | nil => exact fun _ _ => ⟨rfl, .refl _, rfl⟩
  | append_singleton before c ih =>
    intro after split
    have split' : calls = before ++ c :: after := by simpa using split
    have absorbed := ih _ split'
    have shut : (run env tbl before r).terminal.isSome = true := by
      have same : (run env tbl before r).terminal = r.terminal := congrArg Protocol.terminal absorbed.protocol
      rwa [same]
    rw [run_append]
    exact absorbed.trans (make_absorbed shut c (keeps before c after split'))

namespace Sample

def stopped : Room Unit :=
  { isHost := true, wire := true, admission := none, joinerAdmission := none, hostAuthenticated := false, table := () :
    Room Unit }.terminate table .abortedProtocol "stopped" none none

def late : List Call :=
  [.message (arrival "g" (envelope "player_hello" hostKey [])), .configureSeats ["a", "a"], .disconnect "g" "",
    .message (arrival "g" (envelope "game_start" hostKey [])), .terminate .hostLost "again" none none]

end Sample

theorem ended_absorbing_sample :
    Sample.stopped.acceptsSeats Sample.table ["a", "a"] = false ∧
      Absorbed Sample.late Sample.stopped (run Sample.env Sample.table Sample.late Sample.stopped) := by
  refine ⟨by decide, (ended_absorbing Sample.env Sample.table Sample.stopped rfl Sample.late).mpr ?_ _ [] (by simp)⟩
  refine .cons nofun (.cons ?_ (.cons nofun (.cons nofun (.cons nofun .nil))))
  rintro _ ⟨⟩
  exact .inl (by decide +kernel)

/-- `configure_seats` seats a table whose session is over. -/
theorem ended_seated :
    Sample.stopped.terminal.isSome = true ∧ Sample.stopped.seatOrder = [] ∧
      (run Sample.env Sample.table [.configureSeats ["a", "b"]] Sample.stopped).seatOrder = ["a", "b"] := by
  decide +kernel

end Room

end Holdem
