import Holdem.Room.Seats

/-!
Early messages of other seats. What is put off is bounded author by author, but also in number and in
size for all of them together.
-/

namespace Holdem

namespace Room

variable {T : Type} {env : Env} {tbl : Table T} {r r' s : Room T} {a : Arrival} {ctx : Inbound} {key : String}

/-- What the room goes by when a message for a later hand comes in, apart from what it keeps already. -/
def footing (tbl : Table T) (r : Room T) : Charter × ℤ × Option TerminalRecord × Bool × List ℤ × Option ℤ × Option ℤ :=
  (r.charter, r.handNo, r.terminal, tbl.eliminated r.table, tbl.departed r.table, tbl.resumeHand r.table, tbl.totalChips r.table)

/-- A hand message off the wire, of a later hand, for a game that is in a hand. -/
structure Early (tbl : Table T) (r : Room T) (ctx : Inbound) : Prop where
  wire : r.wire = true
  begun : r.handNo ≠ 0
  on : r.terminal = none
  playing : tbl.eliminated r.table = false
  away : ctx.isLocal = false ∧ r.localConnId ≠ some ctx.connId
  deferred : ctx.kind.deferred = true
  later : ∃ hand, ctx.hand = some hand ∧ r.handNo < hand

def passes (tbl : Table T) (ctx : Inbound) (r : Room T) : Bool :=
  ctx.seat.any fun seat => decide (seat ∉ tbl.departed r.table) && r.authorOwnsSeat ctx.connId ctx.author seat &&
    r.sequenceShapeOk tbl ctx.body

def queued (env : Env) (tbl : Table T) (ctx : Inbound) (r : Room T) : List Deferred :=
  if r.passes tbl ctx ∧ (r.queueFutureHostless env tbl ctx).1 then [⟨ctx, (env.byteSize ctx.envelope).getD 0⟩] else []

def relayed (env : Env) (tbl : Table T) (ctx : Inbound) (r : Room T) : List Output :=
  if r.isHost ∧ r.queued env tbl ctx ≠ [] then [.broadcastExcept ctx.connId ctx.envelope] else []

theorem queueFutureHostless_eq (r : Room T) : r.queueFutureHostless env tbl ctx = if (r.queueFutureHostless env tbl ctx).1 then
    (true, { r with msgBuffer := r.msgBuffer ++ [⟨ctx, (env.byteSize ctx.envelope).getD 0⟩] }) else (false, r) := by
  grind [queueFutureHostless]

theorem Early.received (env : Env) (early : Early tbl r ctx) : (r.admitHostless env tbl true ctx).1 = false ∧
    (r.admitHostless env tbl true ctx).2.footing tbl = r.footing tbl ∧
    (r.admitHostless env tbl true ctx).2.msgBuffer = r.msgBuffer ++ r.queued env tbl ctx ∧
    (r.admitHostless env tbl true ctx).2.sent = r.sent ++ r.relayed env tbl ctx := by
  obtain ⟨hand, later, after⟩ := early.later
  have puts : r.putsOff tbl ctx = true := by simp [putsOff, early.on, early.playing, early.deferred, later, after]
  have other : ctx.hand ≠ some r.handNo := by grind
  unfold admitHostless authorize sequenceOk relayed queued passes
  cases claimed : ctx.seat with
  | none => simp [early.wire, early.away]
  | some seat =>
    by_cases gone : seat ∈ tbl.departed r.table
    · simp [gone]
    cases owns : r.authorOwnsSeat ctx.connId ctx.author seat <;> cases r.sequenceShapeOk tbl ctx.body <;>
      simp [early.away, gone, other, owns]
    unfold route relayIfHost
    rw [puts, queueFutureHostless_eq]
    cases (r.queueFutureHostless env tbl ctx).1 <;> cases host : r.isHost <;>
      simp [footing, charter, early.away, claimed, host]

theorem Early.signed (early : Early tbl r ctx) (passes : r.passes tbl ctx = true) : Signed r.seatKeys ctx := by
  obtain ⟨seat, claimed, checked⟩ := (Option.any_eq_true _ _).mp passes
  have owns : r.authorOwnsSeat ctx.connId ctx.author seat = true := by grind
  exact (Accepted.signed (.inr (.inr ⟨seat, claimed, owns⟩)) early.wire early.away.1 early.away.2).2

/-- Room for a message within the bounds that all authors share. -/
def Spare (env : Env) (ctx : Inbound) (r : Room T) : Prop :=
  r.msgBuffer.length < futureBufferMessages ∧
    ∀ size, env.byteSize ctx.envelope = some size → (r.msgBuffer.map Deferred.byteSize).sum + size ≤ futureBufferBytes

def others (key : String) (items : List Deferred) : List Deferred :=
  items.filter fun item => item.incoming.author ≠ some key

/-- An early message as it arrives, and what it is read as. -/
structure Arrives (env : Env) (tbl : Table T) (r : Room T) (a : Arrival) (ctx : Inbound) : Prop where
  typed : wellFormed a.msg = some (.hostless ctx.kind)
  read : r.normalizeHostless env a.conn ctx.kind a.msg = .ok ctx
  early : Early tbl r ctx

/-- Rooms of one footing, in which every message that is put off is signed by the seat it claims, and those
of other authors than `key` are the same. -/
structure Alike (tbl : Table T) (key : String) (r s : Room T) : Prop where
  footing : s.footing tbl = r.footing tbl
  signed : ∀ item ∈ r.msgBuffer, Signed r.seatKeys item.incoming
  signed' : ∀ item ∈ s.msgBuffer, Signed s.seatKeys item.incoming
  kept : others key s.msgBuffer = others key r.msgBuffer

/-- An early message of another author that comes to both rooms. Each has room for it, and the hash chain of
its connection, shared by all whose messages come over it, takes it in both or in neither. -/
structure Common (env : Env) (tbl : Table T) (key : String) (r s : Room T) (a : Arrival) (ctx : Inbound) : Prop where
  arrives : Arrives env tbl r a ctx
  author : ctx.author ≠ some key
  chained : (r.chain a.conn a.msg).isSome = (s.chain a.conn a.msg).isSome
  spare : r.Spare env ctx
  spare' : s.Spare env ctx

/-- States of two runs of the session that hear the same early messages, in order, but for those of one
author. Besides, each may make any call that leaves alone the footing and what is put off of the others. -/
inductive Twins (env : Env) (tbl : Table T) (key : String) : Room T → Room T → Prop where
  | start {r s : Room T} (alike : Alike tbl key r s) : Twins env tbl key r s
  | swap {r s : Room T} (twins : Twins env tbl key r s) : Twins env tbl key s r
  | aside {r s : Room T} (twins : Twins env tbl key r s) (c : Call) (same : (r.make env tbl c).footing tbl = r.footing tbl)
      (fewer : (r.make env tbl c).msgBuffer ⊆ r.msgBuffer)
      (kept : others key (r.make env tbl c).msgBuffer = others key r.msgBuffer) : Twins env tbl key (r.make env tbl c) s
  | own {r s : Room T} (twins : Twins env tbl key r s) {a : Arrival} {ctx : Inbound} (arrives : Arrives env tbl r a ctx)
      (author : ctx.author = some key) : Twins env tbl key (r.handleMessage env tbl a) s
  | both {r s : Room T} (twins : Twins env tbl key r s) {a : Arrival} {ctx : Inbound} (common : Common env tbl key r s a ctx) :
      Twins env tbl key (r.handleMessage env tbl a) (s.handleMessage env tbl a)

section

variable (same : s.footing tbl = r.footing tbl)
include same

theorem Early.footing (early : Early tbl r ctx) : Early tbl s ctx ∧ s.passes tbl ctx = r.passes tbl ctx ∧
    ∀ hand, s.futureHandAllowed tbl hand = r.futureHandAllowed tbl hand := by
  simp only [Room.footing, charter, Prod.mk.injEq, Charter.mk.injEq] at same
  obtain ⟨_, begun, _, _, _, _, _⟩ := early
  refine ⟨by constructor <;> simp_all, ?_, fun hand => ?_⟩
  · simp [passes, authorOwnsSeat, sequenceShapeOk, same]
  simp [futureHandAllowed, same, begun]

theorem Arrives.footing (arrives : Arrives env tbl r a ctx) : Arrives env tbl s a ctx := by
  refine ⟨arrives.typed, ?_, (arrives.early.footing same).1⟩
  simp only [Room.footing, charter, Prod.mk.injEq, Charter.mk.injEq] at same
  rw [← arrives.read]
  simp [normalizeHostless, same]

theorem admissionOk_footing (conn : String) (kind : Kind) (author : Option String) :
    s.admissionOk conn kind author = r.admissionOk conn kind author := by
  simp only [Room.footing, charter, Prod.mk.injEq, Charter.mk.injEq] at same
  simp [admissionOk, same]

end

/-- Whether the gate and the hash chain let a message through. -/
def takes (a : Arrival) (kind : Kind) (r : Room T) : Bool :=
  r.admissionOk a.conn kind (authorOf a.msg) && (r.chain a.conn a.msg).isSome

theorem queued_congr (passes : s.passes tbl ctx = r.passes tbl ctx)
    (asked : r.passes tbl ctx = true → ∀ size, env.byteSize ctx.envelope = some size → ∀ bytes ≤ size,
      s.canQueueHostless tbl ctx bytes = r.canQueueHostless tbl ctx bytes) : s.queued env tbl ctx = r.queued env tbl ctx := by
  unfold queued queueFutureHostless
  rw [passes]
  by_cases own : r.passes tbl ctx = true
  · cases length : env.byteSize ctx.envelope with
    | none => simp
    | some size =>
      have first := asked own size length 0 (Nat.zero_le size)
      have second := asked own size length size le_rfl
      grind
  simp [own]

theorem chain_same (tbl : Table T) (linked : r.chain a.conn a.msg = some r') : r'.footing tbl = r.footing tbl ∧
    r'.msgBuffer = r.msgBuffer ∧ r'.sent = r.sent := by
  unfold chain at linked
  split at linked
  · split at linked
    · cases linked
    cases linked
    exact ⟨rfl, rfl, rfl⟩
  cases linked
  exact ⟨rfl, rfl, rfl⟩

theorem Arrives.handled (arrives : Arrives env tbl r a ctx) : (r.handleMessage env tbl a).footing tbl = r.footing tbl ∧
    (r.handleMessage env tbl a).msgBuffer = r.msgBuffer ++ (if r.takes a (.hostless ctx.kind) then r.queued env tbl ctx else []) ∧
    (r.handleMessage env tbl a).sent = r.sent ++ (if r.takes a (.hostless ctx.kind) then r.relayed env tbl ctx else []) := by
  have through : r.letThrough (.hostless ctx.kind) = true := by rw [letThrough, arrives.early.on]
  unfold handleMessage takes
  rw [arrives.typed]
  cases admitted : r.admissionOk a.conn (.hostless ctx.kind) (authorOf a.msg) with
  | false => simp [through, admitted]
  | true =>
    cases linked : r.chain a.conn a.msg with
    | none => simp [through, admitted]
    | some r' =>
      obtain ⟨footing, buffer, sent⟩ := chain_same tbl linked
      have here := arrives.footing footing
      have host : r'.isHost = r.isHost := congrArg (·.1.isHost) footing
      obtain ⟨-, passes, allowed⟩ := arrives.early.footing footing
      have queued : r'.queued env tbl ctx = r.queued env tbl ctx :=
        queued_congr passes fun _ _ _ _ _ => by simp [canQueueHostless, buffer, allowed]
      have received := here.early.received env
      unfold relayed at received ⊢
      rw [footing, buffer, sent, queued, host] at received
      rcases out : r'.admitHostless env tbl true ctx with ⟨passed, next⟩
      rw [out] at received
      obtain ⟨rfl, received⟩ := received
      simpa [through, admitted, handleHostless, here.read, out] using received

theorem canQueue_eq (signed : ∀ item ∈ r.msgBuffer, Signed r.seatKeys item.incoming) (claims : Signed r.seatKeys ctx)
    (author : ctx.author ≠ some key) {size : ℕ} (room : r.msgBuffer.length < futureBufferMessages)
    (bytes : (r.msgBuffer.map Deferred.byteSize).sum + size ≤ futureBufferBytes) :
    r.canQueueHostless tbl ctx size = (ctx.kind.deferred && ctx.hand.any (r.futureHandAllowed tbl ·) &&
      !(others key r.msgBuffer).any (fun kept => kept.incoming.identity = ctx.identity) &&
      decide ((others key r.msgBuffer).countP (fun kept => kept.incoming.owner = ctx.owner) < futurePerAuthor)) := by
  have seen : (others key r.msgBuffer).any (fun kept => kept.incoming.identity = ctx.identity) =
      r.msgBuffer.any fun kept => kept.incoming.identity = ctx.identity := by
    grind [others, Signed, Inbound.identity]
  have count : (others key r.msgBuffer).countP (fun kept => kept.incoming.owner = ctx.owner) =
      r.msgBuffer.countP fun kept => kept.incoming.owner = ctx.owner := by
    rw [others, List.countP_filter]
    refine List.countP_congr fun item member => ?_
    have := signed item member
    grind [Inbound.owner, Signed]
  simp [canQueueHostless, seen, count, room, bytes]

theorem Arrives.signed (arrives : Arrives env tbl r a ctx) (signed : ∀ item ∈ r.msgBuffer, Signed r.seatKeys item.incoming) :
    ∀ item ∈ (r.handleMessage env tbl a).msgBuffer, Signed (r.handleMessage env tbl a).seatKeys item.incoming := by
  obtain ⟨footing, buffer, -⟩ := arrives.handled
  have keys : (r.handleMessage env tbl a).seatKeys = r.seatKeys := congrArg (·.1.seatKeys) footing
  intro item member
  rw [keys]
  obtain old | new := List.mem_append.mp (buffer ▸ member)
  · exact signed item old
  unfold queued at new
  grind [arrives.early.signed]

namespace Alike

variable (alike : Alike tbl key r s)
include alike

theorem seatKeys_eq : s.seatKeys = r.seatKeys := congrArg (·.1.seatKeys) alike.footing

theorem same (common : Common env tbl key r s a ctx) : s.takes a (.hostless ctx.kind) = r.takes a (.hostless ctx.kind) ∧
    s.queued env tbl ctx = r.queued env tbl ctx ∧ s.relayed env tbl ctx = r.relayed env tbl ctx := by
  obtain ⟨⟨-, -, early⟩, author, chained, spare, spare'⟩ := common
  obtain ⟨-, passes, allowed⟩ := early.footing alike.footing
  have kept : s.queued env tbl ctx = r.queued env tbl ctx := by
    refine queued_congr passes fun own size length bytes most => ?_
    have fits := spare.2 size length
    have fits' := spare'.2 size length
    have claims := early.signed own
    rw [canQueue_eq alike.signed claims author spare.1 (by omega),
      canQueue_eq alike.signed' (alike.seatKeys_eq ▸ claims) author spare'.1 (by omega), alike.kept]
    simp [allowed]
  have host : s.isHost = r.isHost := congrArg (·.1.isHost) alike.footing
  refine ⟨?_, kept, ?_⟩
  · rw [takes, takes, admissionOk_footing alike.footing, chained]
  rw [relayed, relayed, kept, host]

end Alike

theorem Twins.alike (twins : Twins env tbl key r s) : Alike tbl key r s := by
  induction twins with
  | start alike => exact alike
  | swap _ ih => exact ⟨ih.footing.symm, ih.signed', ih.signed, ih.kept.symm⟩
  | aside _ c same fewer kept ih =>
    have keys : (make env tbl c _).seatKeys = _ := congrArg (·.1.seatKeys) same
    exact ⟨ih.footing.trans same.symm, fun item member => keys ▸ ih.signed item (fewer member), ih.signed',
      ih.kept.trans kept.symm⟩
  | own _ arrives author ih =>
    obtain ⟨footing, buffer, -⟩ := arrives.handled
    refine ⟨ih.footing.trans footing.symm, arrives.signed ih.signed, ih.signed', ?_⟩
    rw [buffer, ih.kept, others, others, List.filter_append, queued]
    split
    · split <;> simp [author]
    simp
  | both _ common ih =>
    have there := common.arrives.footing ih.footing
    obtain ⟨footing, buffer, -⟩ := common.arrives.handled
    obtain ⟨footing', buffer', -⟩ := there.handled
    obtain ⟨taken, kept, -⟩ := ih.same common
    refine ⟨footing'.trans (ih.footing.trans footing.symm), common.arrives.signed ih.signed, there.signed ih.signed', ?_⟩
    rw [buffer, buffer', taken, kept]
    simpa [others] using ih.kept

namespace Sample

/-- Every message is as long as it says. -/
def sized : Env := { Sample.env with byteSize := fun msg => match msg.get "size" with | .int size => some size.toNat | _ => none }

/-- A host in the first hand, with two guests. -/
def hosting : Room Unit :=
  { isHost := true, wire := true, admission := none, joinerAdmission := none, hostAuthenticated := false, localConnId := some "h"
    seatOrder := ["h", "a", "b"], seatKeys := [(0, "H"), (1, "A"), (2, "B")], handNo := 1, table := () }

def early (conn author type : String) (seat size number : ℤ) : Arrival :=
  arrival conn [("type", .str type), ("pubkey", .str author), ("hash", .str (toString number)), ("prev", .str genesis),
    ("size", .int size), ("payload", .obj [("seat", .int seat), ("hand", .int 2), ("author_seq", .int number)])]

def share (size number : ℤ) : Arrival := early "a" "A" "deal_share" 1 size number

def announced : Arrival := early "b" "B" "key_announce" 2 300 0

def hear (arrivals : List Arrival) : Room Unit := received sized Sample.table arrivals hosting

end Sample

end Room

end Holdem
