import Holdem.Room.Calls

/-!
What the table's calls, and the messages that go to it, leave alone: the roster, the seats and their
keys, the policies and the admissions.
-/

namespace Holdem

namespace Room

variable {T : Type} {env : Env} {tbl : Table T} {r r' r'' : Room T} {P Q : Inbound → Prop} {ctx : Inbound}
  {relay : Bool}

structure Charter where
  isHost : Bool
  wire : Bool
  admission : Option HostAdmission
  joinerAdmission : Option Bytes
  hostAuthenticated : Bool
  pinnedHostPubkey : Option String
  players : Dict String Player
  rosterSigningKeys : String → Option String
  joinOrder : List String
  localConnId : Option String
  hostConnId : Option String
  lastTableSettings : Message
  dealPolicy : Option DealPolicy
  continuationPolicy : Option ContinuationPolicy
  seatOrder : List String
  seatKeys : List (ℕ × String)

def charter (r : Room T) : Charter :=
  { isHost := r.isHost, wire := r.wire, admission := r.admission, joinerAdmission := r.joinerAdmission
    hostAuthenticated := r.hostAuthenticated, pinnedHostPubkey := r.pinnedHostPubkey, players := r.players
    rosterSigningKeys := r.rosterSigningKeys, joinOrder := r.joinOrder, localConnId := r.localConnId
    hostConnId := r.hostConnId, lastTableSettings := r.lastTableSettings, dealPolicy := r.dealPolicy
    continuationPolicy := r.continuationPolicy, seatOrder := r.seatOrder, seatKeys := r.seatKeys }

def Ends (r r' : Room T) : Prop :=
  r'.stage = r.stage ∧ r'.terminal = r.terminal ∨
    r.terminal = none ∧ r'.stage = .ended ∧ ∃ record, r'.terminal = some record ∧ record.terminal ≠ .policyRefused

theorem Ends.trans (first : Ends r r') (second : Ends r' r'') : Ends r r'' := by
  obtain ⟨stage, terminal⟩ | ⟨on, stage, record, terminal, other⟩ := first
  · obtain ⟨stage', terminal'⟩ | ⟨on, ended⟩ := second
    · exact .inl ⟨stage'.trans stage, terminal'.trans terminal⟩
    exact .inr ⟨terminal ▸ on, ended⟩
  obtain ⟨stage', terminal'⟩ | ⟨on', -⟩ := second
  · exact .inr ⟨on, stage'.trans stage, record, terminal'.trans terminal, other⟩
  rw [terminal] at on'
  cases on'

def Accepted (r : Room T) (ctx : Inbound) : Prop :=
  ctx.isLocal = true ∨ (ctx.seat = none ∧ r.wire = false) ∨
    ∃ seat, ctx.seat = some seat ∧ r.authorOwnsSeat ctx.connId ctx.author seat = true

theorem Accepted.of_charter {ctx : Inbound} (same : r'.charter = r.charter) (accepted : Accepted r' ctx) :
    Accepted r ctx := by
  simp only [charter, Charter.mk.injEq] at same
  obtain ⟨-, wire, -, -, -, -, -, -, -, conn, -, -, -, -, order, keys⟩ := same
  unfold Accepted authorOwnsSeat at accepted ⊢
  rwa [wire, conn, order, keys] at accepted

/-- A step that leaves the room to itself. What it hands over or puts off is one of the messages `P`. -/
structure Tabled (P : Inbound → Prop) (r r' : Room T) : Prop where
  charter : r'.charter = r.charter
  ends : Ends r r'
  handed : ∀ ctx ∈ r'.handed, ctx ∈ r.handed ∨ P ctx ∧ Accepted r ctx
  buffer : ∀ item ∈ r'.msgBuffer, item ∈ r.msgBuffer ∨ P item.incoming

theorem Tabled.same (charter : r'.charter = r.charter) (stage : r'.stage = r.stage) (terminal : r'.terminal = r.terminal)
    (handed : r'.handed = r.handed) (buffer : r'.msgBuffer = r.msgBuffer) : Tabled P r r' :=
  ⟨charter, .inl ⟨stage, terminal⟩, fun _ member => .inl (handed ▸ member), fun _ member => .inl (buffer ▸ member)⟩

theorem Tabled.refl : Tabled P r r := .same rfl rfl rfl rfl rfl

theorem Tabled.trans (first : Tabled P r r') (second : Tabled P r' r'') : Tabled P r r'' := by
  refine ⟨second.charter.trans first.charter, first.ends.trans second.ends, fun ctx member => ?_, fun item member => ?_⟩
  · obtain before | ⟨one, accepted⟩ := second.handed ctx member
    · exact first.handed ctx before
    exact .inr ⟨one, accepted.of_charter first.charter⟩
  obtain before | one := second.buffer item member
  · exact first.buffer item before
  exact .inr one

theorem Tabled.mono (tabled : Tabled P r r') (weaker : ∀ ctx, P ctx → Q ctx) : Tabled Q r r' :=
  ⟨tabled.charter, tabled.ends, fun ctx member => (tabled.handed ctx member).imp_right (.imp_left (weaker ctx)),
    fun item member => (tabled.buffer item member).imp_right (weaker _)⟩

theorem Tabled.foldl {α : Type} {f : Room T → α → Room T} (xs : List α) (each : ∀ r, ∀ a ∈ xs, Tabled P r (f r a))
    (r : Room T) : Tabled P r (xs.foldl f r) := by
  induction xs generalizing r with
  | nil => exact .refl
  | cons a xs ih =>
    exact (each r a (.head _)).trans (ih (fun r b member => each r b (.tail _ member)) (f r a))

theorem sendHostless_tabled (m : Message) (r : Room T) : Tabled P r (r.sendHostless m) := by
  unfold sendHostless
  split
  · exact .same rfl rfl rfl rfl rfl
  split <;> exact .same rfl rfl rfl rfl rfl

theorem carry_tabled (x : Reaction T) (r : Room T) : Tabled P r (r.carry x) := by
  have moved : Tabled P r { r with table := x.table } := .same rfl rfl rfl rfl rfl
  have said : Tabled P r ({ r with table := x.table }.sendAll x.broadcast) :=
    moved.trans (.foldl x.broadcast (fun r m _ => sendHostless_tabled m r) _)
  unfold carry noteDrop
  split
  · exact said
  exact ⟨said.charter, said.ends, said.handed, said.buffer⟩

theorem terminate_tabled {state : TerminalState} (other : state ≠ .policyRefused) (reason : String)
    (conn : Option String) (seat : Option ℤ) (r : Room T) : Tabled P r (r.terminate tbl state reason conn seat) := by
  unfold terminate
  split
  · exact .refl
  rename_i on
  exact ⟨rfl, .inr ⟨Option.not_isSome_iff_eq_none.mp on, rfl, _, rfl, other⟩, fun _ member => .inl member, nofun⟩

theorem endOn_tabled (ending : Option (TableEnding × String × Option ℤ)) (r : Room T) : Tabled P r (r.endOn tbl ending) := by
  unfold endOn
  split
  · exact .refl
  rename_i ending reason seat
  exact terminate_tabled (by cases ending <;> nofun) ..

theorem endHand_tabled (outcome : HandOutcome) (reason : String) (blamed : Option ℤ) (announce : Bool) (r : Room T) :
    Tabled P r (r.endHand tbl outcome reason blamed announce) := by
  have recorded : Tabled P r { r with handRecord := some ⟨r.handNo, outcome, reason, blamed⟩ } :=
    .same rfl rfl rfl rfl rfl
  unfold endHand
  split
  · exact .refl
  split
  · exact .refl
  split
  · exact recorded
  refine .trans ?_ ((carry_tabled _ _).trans (endOn_tabled _ _))
  split
  · exact recorded.trans (sendHostless_tabled _ _)
  exact recorded

theorem apply_tabled (x : Reaction T) (r : Room T) : Tabled P r (r.apply tbl x) := by
  have stopped : Tabled P (r.carry x) ((r.carry x).stopOn tbl x.stop) := by
    unfold stopOn
    split
    · exact .refl
    exact endHand_tabled ..
  exact ((carry_tabled x r).trans stopped).trans (endOn_tabled _ _)

theorem call_tabled (c : TableCall) (r : Room T) : Tabled P r (r.call tbl c) := apply_tabled _ r

theorem authorSeqOk_tabled (seat hand : ℤ) (ctx : Inbound) (r : Room T) : Tabled P r (r.authorSeqOk tbl seat hand ctx).2 := by
  unfold authorSeqOk
  split
  · exact .refl
  dsimp only
  split
  · exact .refl
  split
  · exact .same rfl rfl rfl rfl rfl
  split
  · exact .refl
  exact endHand_tabled ..

variable (tbl) in
theorem authorize_tabled (ctx : Inbound) (r : Room T) : Tabled P r (r.authorize tbl ctx).2 := by
  unfold authorize
  split
  · exact .refl
  split
  · exact .refl
  split
  · unfold sequenceOk
    split
    · exact .refl
    split
    · exact authorSeqOk_tabled ..
    exact .refl
  exact .refl

theorem authorize_accepted (passed : (r.authorize tbl ctx).1 = true) : Accepted r ctx := by
  unfold authorize at passed
  split at passed
  · rename_i self
    exact .inl self
  split at passed
  · rename_i seatless
    exact .inr (.inl ⟨seatless, by simpa using passed⟩)
  rename_i seat claimed
  split at passed
  · rename_i owns
    exact .inr (.inr ⟨seat, claimed, owns⟩)
  cases passed

theorem relayIfHost_tabled (ctx : Inbound) (r : Room T) : Tabled P r (r.relayIfHost ctx) := by
  unfold relayIfHost
  split
  · exact .same rfl rfl rfl rfl rfl
  exact .refl

variable (env tbl) in
theorem queueFutureHostless_tabled (one : P ctx) (r : Room T) : Tabled P r (r.queueFutureHostless env tbl ctx).2 := by
  unfold queueFutureHostless
  split
  · exact .refl
  split
  · exact .refl
  split
  · refine ⟨rfl, .inl ⟨rfl, rfl⟩, fun _ member => .inl member, fun item member => ?_⟩
    obtain before | now := List.mem_append.mp member
    · exact .inl before
    rw [List.mem_singleton.mp now]
    exact .inr one
  exact .refl

theorem route_tabled (one : P ctx) (relay : Bool) (r : Room T) : Tabled P r (r.route env tbl relay ctx).2 := by
  have queued := queueFutureHostless_tabled env tbl one r
  unfold route
  split
  · split
    · rename_i r' kept
      rw [kept] at queued
      split
      · exact queued.trans (relayIfHost_tabled _ _)
      exact queued
    rename_i r' refused
    rwa [refused] at queued
  split
  · exact .refl
  split
  · exact ⟨rfl, .inl ⟨rfl, rfl⟩, fun _ member => .inl member, fun _ member => .inl (List.mem_of_mem_eraseP member)⟩
  split
  · exact .refl
  exact relayIfHost_tabled ..

variable (env tbl) in
theorem admitHostless_tabled (one : P ctx) (relay : Bool) (r : Room T) :
    Tabled P r (r.admitHostless env tbl relay ctx).2 := by
  have authorized := authorize_tabled (P := P) tbl ctx r
  unfold admitHostless
  split
  · exact .refl
  split
  · rename_i r' refused
    rwa [refused] at authorized
  rename_i r' passed
  rw [passed] at authorized
  exact authorized.trans (route_tabled one ..)

theorem admitHostless_accepted (passed : (r.admitHostless env tbl relay ctx).1 = true) : Accepted r ctx := by
  unfold admitHostless at passed
  split at passed
  · cases passed
  split at passed
  · cases passed
  rename_i r' authorized
  exact authorize_accepted (congrArg Prod.fst authorized)

theorem compareConfirmation_tabled (reporter : ℤ) (notice : Message) (r : Room T) :
    Tabled P r (r.compareConfirmation reporter notice) := by
  unfold compareConfirmation
  split
  · exact .refl
  split
  · exact .refl
  split
  · split
    · exact .same rfl rfl rfl rfl rfl
    exact .refl
  exact .refl

theorem onPeerLost_tabled (ctx : Inbound) (r : Room T) : Tabled P r (r.onPeerLost tbl ctx) := by
  unfold onPeerLost
  split
  · split
    · exact .refl
    split
    · exact compareConfirmation_tabled ..
    exact call_tabled ..
  exact .refl

theorem deliver_tabled (one : P ctx) (accepted : Accepted r ctx) : Tabled P r (r.deliver tbl ctx) := by
  have noted : Tabled P r { r with handed := r.handed ++ [ctx] } := by
    refine ⟨rfl, .inl ⟨rfl, rfl⟩, fun ctx' member => ?_, fun _ member => .inl member⟩
    obtain before | now := List.mem_append.mp member
    · exact .inl before
    rw [List.mem_singleton.mp now]
    exact .inr ⟨one, accepted⟩
  unfold deliver
  dsimp only
  split
  · split
    · exact noted
    exact noted.trans (call_tabled ..)
  · split
    · exact noted
    exact noted.trans (call_tabled ..)
  · exact noted.trans (onPeerLost_tabled ..)
  · exact noted
  all_goals first
    | exact noted.trans (call_tabled ..)
    | split
      · exact noted.trans (call_tabled ..)
      exact noted

theorem admitted_tabled (one : P ctx) (admitted : r.admitHostless env tbl relay ctx = (true, r')) :
    Tabled P r (r'.deliver tbl ctx) := by
  have tabled := admitHostless_tabled env tbl one relay r
  have accepted : Accepted r ctx := admitHostless_accepted (by rw [admitted])
  rw [admitted] at tabled
  exact tabled.trans (deliver_tabled one (accepted.of_charter tabled.charter.symm))

variable (env tbl) in
theorem replayItem_tabled {item : Deferred} (one : P item.incoming) (r : Room T) : Tabled P r (replayItem env tbl r item) := by
  unfold replayItem
  dsimp only
  split
  · exact .refl
  split
  · split
    · split
      · rename_i r' passed
        exact admitted_tabled one passed
      rename_i r' refused
      have tabled := admitHostless_tabled env tbl one false r
      rwa [refused] at tabled
    exact .refl
  split
  · refine ⟨rfl, .inl ⟨rfl, rfl⟩, fun _ member => .inl member, fun item' member => ?_⟩
    obtain before | now := List.mem_append.mp member
    · exact .inl before
    rw [List.mem_singleton.mp now]
    exact .inr one
  exact .refl

def Kept (r : Room T) (ctx : Inbound) : Prop := ∃ item ∈ r.msgBuffer, item.incoming = ctx

theorem replayBuffer_tabled (r : Room T) : Tabled r.Kept r (r.replayBuffer env tbl) := by
  unfold replayBuffer
  split
  · exact .refl
  have opened : Tabled r.Kept r { r with msgBuffer := [], activeReplays := r.msgBuffer :: r.activeReplays } :=
    ⟨rfl, .inl ⟨rfl, rfl⟩, fun _ member => .inl member, nofun⟩
  have replayed := opened.trans (.foldl r.msgBuffer
    (fun r' item member => replayItem_tabled env tbl ⟨item, member, rfl⟩ r') _)
  exact ⟨replayed.charter, replayed.ends, replayed.handed, replayed.buffer⟩

variable (env tbl) in
theorem admitHostless_refused (relay : Bool) (refused : ¬Accepted r ctx) :
    (r.admitHostless env tbl relay ctx).1 = false ∧ Tabled P r (r.admitHostless env tbl relay ctx).2 := by
  have authorized := authorize_tabled (P := P) tbl ctx r
  unfold admitHostless
  split
  · exact ⟨rfl, .refl⟩
  split
  · rename_i r' stopped
    rw [stopped] at authorized
    exact ⟨rfl, authorized⟩
  rename_i r' passed
  exact (refused (authorize_accepted (r := r) (congrArg Prod.fst passed))).elim

theorem handleHostless_tabled (conn : String) (kind : HostlessKind) (msg : Message) (r : Room T) :
    Tabled (fun ctx => r.normalizeHostless env conn kind msg = .ok ctx ∧ Accepted r ctx) r
      (r.handleHostless env tbl conn kind msg) := by
  unfold handleHostless
  split
  · exact .refl
  rename_i ctx read
  by_cases accepted : Accepted r ctx
  · have tabled := admitHostless_tabled env tbl
      (P := fun ctx => r.normalizeHostless env conn kind msg = .ok ctx ∧ Accepted r ctx) ⟨read, accepted⟩ true r
    split
    · rename_i r' passed
      exact admitted_tabled ⟨read, accepted⟩ passed
    rename_i r' refused
    rwa [refused] at tabled
  obtain ⟨stopped, tabled⟩ := admitHostless_refused env tbl
    (P := fun ctx => r.normalizeHostless env conn kind msg = .ok ctx ∧ Accepted r ctx) true accepted
  split
  · rename_i r' passed
    rw [passed] at stopped
    cases stopped
  rename_i r' refused
  rwa [refused] at tabled

theorem chain_tabled {conn : String} {msg : Message} (linked : r.chain conn msg = some r') : Tabled P r r' := by
  unfold chain at linked
  split at linked
  · split at linked
    · cases linked
    cases linked
    exact .same rfl rfl rfl rfl rfl
  cases linked
  exact .refl

theorem beginWith_tabled (c : StartCall) (r : Room T) : Tabled r.Kept r (beginWith env tbl c r) := by
  have applied : Tabled (fun _ => False) r (r.apply tbl (tbl.start c r).1) := apply_tabled _ r
  unfold beginWith
  dsimp only
  split
  · exact applied.mono fun _ => False.elim
  rename_i hand _
  refine (applied.mono fun _ => False.elim).trans ?_
  have kept : ∀ r1 : Room T, r1.charter = (r.apply tbl (tbl.start c r).1).charter →
      r1.stage = (r.apply tbl (tbl.start c r).1).stage → r1.terminal = (r.apply tbl (tbl.start c r).1).terminal →
      r1.handed = (r.apply tbl (tbl.start c r).1).handed → r1.msgBuffer = (r.apply tbl (tbl.start c r).1).msgBuffer →
      Tabled r.Kept (r.apply tbl (tbl.start c r).1) ((r1.publishHand hand).replayBuffer env tbl) := by
    intro r1 charter stage terminal handed buffer
    have published : Tabled r.Kept (r.apply tbl (tbl.start c r).1) (r1.publishHand hand) :=
      .same charter stage terminal handed buffer
    refine published.trans ((replayBuffer_tabled _).mono ?_)
    rintro _ ⟨item, member, rfl⟩
    have member' : item ∈ (r.apply tbl (tbl.start c r).1).msgBuffer := buffer ▸ member
    exact ⟨item, (applied.buffer item member').resolve_right id, rfl⟩
  split <;> exact kept _ rfl rfl rfl rfl rfl

end Room

end Holdem
