import Mathlib.Logic.Relation
import Holdem.Room.Frame

/-!
What a room can do. Every call is a chain of the moves listed here, and a move says which calls make it
and on what condition.
-/

namespace Holdem

namespace Room

variable {T : Type} {env : Env} {tbl : Table T} {r r' r'' : Room T} {c : Call} {S : Stage} {A : Call → Room T → Prop}
  {conn : String} {msg : Message} {I : Room T → Prop} {calls : List Call} {a : Arrival}

/-- The call may shape the table: the host's own, or a `game_start` past the gate, before play, not known
to come from elsewhere than the host. -/
def Shapes (c : Call) (r : Room T) : Prop :=
  (∃ a, c = .message a ∧ wellFormed a.msg = some .gameStart ∧ r.admissionOk a.conn .gameStart (authorOf a.msg) = true ∧
      r.hostConnId.any (a.conn ≠ ·) = false ∧ r.stage ≠ .playing ∧ r.terminal = none) ∨
    ∃ settings, c = .startGame settings ∧ r.isHost = true ∧ r.terminal = none

def Comes (env : Env) (c : Call) (r : Room T) (ctx : Inbound) : Prop :=
  r.Kept ctx ∨ ∃ a kind, c = .message a ∧ wellFormed a.msg = some (.hostless kind) ∧
    r.normalizeHostless env a.conn kind a.msg = .ok ctx ∧ Accepted r ctx

/-- A move of a call that came in the stage `S`. -/
inductive Move (env : Env) (tbl : Table T) (c : Call) (S : Stage) : Room T → Room T → Prop where
  | tabled {r r' : Room T} (tabled : Tabled (Comes env c r) r r') : Move env tbl c S r r'
  | answered {r : Room T} {a : Arrival} {kind : AdmissionKind} {admission : Option HostAdmission} {sent : List Output}
      (call : c = .message a) (typed : wellFormed a.msg = some (.admission kind)) (on : r.terminal = none)
      (answer : r.answerAdmission env a kind = { r with admission, sent }) :
      Move env tbl c S r { r with admission, sent }
  | forgotten {r : Room T} {conn reason : String} (call : c = .disconnect conn reason) :
      Move env tbl c S r { r with admission := r.admission.map (HostAdmission.forget conn) }
  | enrolled {r : Room T} {rosterSigningKeys : String → Option String} {players : Dict String Player} (p : Player)
      (set : r.setPlayer p = { r with rosterSigningKeys, players }) :
      Move env tbl c S r { r with rosterSigningKeys, players }
  | kept {r : Room T} (keep : String → Bool) : Move env tbl c S r { r with players := r.players.keep keep }
  | readied {r : Room T} {cid : String} {p : Player} (found : r.players.get cid = some p) (ready : Bool) :
      Move env tbl c S r { r with players := r.players.set cid { p with ready } }
  | reordered {r : Room T} (order : List String) : Move env tbl c S r { r with joinOrder := order }
  | acknowledged {r : Room T} {a : Arrival} (call : c = .message a) (typed : wellFormed a.msg = some .playerAck)
      (joiner : r.isHost = false) (lobby : r.stage = .lobby) (assigned : String) :
      Move env tbl c S r { r with localConnId := some assigned }
  | authenticated {r : Room T} {conn : String} {hostPubkey : Option Bytes} {pinned host : Option String} {known : Bool}
      (call : c = .markHostAuthenticated conn hostPubkey) : Move env tbl c S r
        { r with pinnedHostPubkey := pinned, hostConnId := host, hostAuthenticated := known }
  | dealt {r : Room T} (shapes : Shapes c r) (policy : DealPolicy) (first : ∀ p, r.dealPolicy = some p → p = policy) :
      Move env tbl c S r { r with dealPolicy := some policy }
  | continued {r : Room T} (shapes : Shapes c r) (policy : ContinuationPolicy)
      (first : ∀ p, r.continuationPolicy = some p → p = policy) :
      Move env tbl c S r { r with continuationPolicy := some policy }
  | opened {r : Room T} (shapes : Shapes c r) (stage : r.stage = S) (order : List String) (settings : Message) :
      Move env tbl c S r { r with stage := .playing, seatOrder := order, lastTableSettings := settings }
  | refused {r r' : Room T} (cause : Shapes c r ∨ ∃ reason conn seat, c = .terminate .policyRefused reason conn seat)
      (charter : r'.charter = r.charter) (on : r.terminal = none) (stage : r'.stage = .ended)
      (terminal : r'.terminal.isSome = true) (handed : r'.handed = r.handed) (buffer : r'.msgBuffer = []) :
      Move env tbl c S r r'
  | seated {r : Room T} {order : List String} (call : c = .configureSeats order)
      (accepted : r.acceptsSeats tbl order = true) (stage : r.stage = S) : Move env tbl c S r { r with seatOrder := order }
  | localTable {r : Room T} (players : Dict String Player) (joinOrder seatOrder : List String) (compat : r.wire = false) :
      Move env tbl c S r { r with players, joinOrder, seatOrder }
  | bound {r : Room T} {start : StartCall} {seatKeys : List (ℕ × String)} (call : c = .start start)
      (bound : r.bindSeatKeys = some { r with seatKeys })
      (stage : r.stage = S) : Move env tbl c S r { r with seatKeys }
  | promoted {r : Room T} (compat : r.wire = false) :
      Move env tbl c S r { r with isHost := true, hostConnId := r.localConnId }

abbrev Moves (env : Env) (tbl : Table T) (c : Call) (S : Stage) : Room T → Room T → Prop := Relation.ReflTransGen (Move env tbl c S)

open Relation

theorem Moves.single (move : Move env tbl c S r r') : Moves env tbl c S r r' :=
  ReflTransGen.single move

theorem Tabled.moves (tabled : Tabled (fun _ => False) r r') : Moves env tbl c S r r' :=
  .single (.tabled (tabled.mono fun _ => False.elim))

theorem Moves.keeps (each : ∀ r r', I r → Move env tbl c S r r' → I r') (moves : Moves env tbl c S r r')
    (now : I r) : I r' := by
  induction moves with
  | refl => exact now
  | tail _ move ih => exact each _ _ ih move

theorem setPlayer_frame (p : Player) (r : Room T) :
    ∃ rosterSigningKeys players, r.setPlayer p = { r with rosterSigningKeys, players } := by
  unfold setPlayer adoptSigningKey
  split <;> exact ⟨_, _, rfl⟩

theorem enrolled_moves (p : Player) (r : Room T) : Moves env tbl c S r (r.setPlayer p) := by
  obtain ⟨keys, players, set⟩ := setPlayer_frame p r
  rw [set]
  exact .single (.enrolled p set)

theorem answerAdmission_isSome (env : Env) (a : Arrival) (kind : AdmissionKind) (r : Room T) :
    (r.answerAdmission env a kind).admission.isSome = r.admission.isSome := by
  unfold answerAdmission
  split
  · rfl
  split
  · rename_i known
    rw [known]
    repeat' split
    all_goals simp [known, send]
  · rename_i known
    rw [known]
    repeat' split
    all_goals simp [known, send]
  rfl

theorem answerAdmission_frame (env : Env) (a : Arrival) (kind : AdmissionKind) (r : Room T) :
    ∃ admission sent, r.answerAdmission env a kind = { r with admission, sent } := by
  unfold answerAdmission
  repeat' split
  all_goals exact ⟨_, _, rfl⟩

theorem markHostAuthenticated_frame (conn : String) (hostPubkey : Option Bytes) (r : Room T) :
    ∃ pinned host known, (r.markHostAuthenticated conn hostPubkey).2 =
      { r with pinnedHostPubkey := pinned, hostConnId := host, hostAuthenticated := known } := by
  unfold markHostAuthenticated
  repeat' split
  all_goals exact ⟨_, _, _, rfl⟩

theorem bindSeatKeys_frame (bound : r.bindSeatKeys = some r') : ∃ seatKeys, r' = { r with seatKeys } := by
  unfold bindSeatKeys at bound
  repeat' split at bound
  all_goals cases bound
  all_goals exact ⟨_, rfl⟩

theorem refused_moves (shapes : Shapes c r) (reason : String) (conn : Option String) :
    Moves env tbl c S r (r.terminate tbl .policyRefused reason conn none) := by
  have on : r.terminal = none := by
    rcases shapes with ⟨_, _, _, _, _, _, on⟩ | ⟨_, _, _, on⟩ <;> exact on
  unfold terminate
  rw [if_neg (by simp [on])]
  exact .single (.refused (.inl shapes) rfl on rfl rfl rfl rfl)

theorem send_moves (conn : String) (msg : Message) (r : Room T) : Moves env tbl c S r (r.send conn msg) :=
  Tabled.moves (.same rfl rfl rfl rfl rfl)

theorem broadcastPlayerList_moves (r : Room T) : Moves env tbl c S r r.broadcastPlayerList :=
  Tabled.moves (.same rfl rfl rfl rfl rfl)

theorem onPlayerInfo_moves (conn : String) (msg : Message) (r : Room T) : Moves env tbl c S r (r.onPlayerInfo conn msg) := by
  unfold onPlayerInfo
  split
  · exact .refl
  split
  · exact .refl
  dsimp only
  split
  · exact .refl
  exact (((enrolled_moves _ r).trans (.single (.reordered _))).trans (send_moves ..)).trans
    (broadcastPlayerList_moves _)

theorem foldl_mergeRow_moves (refused : List String) (rows : List RosterRow) (r : Room T) :
    Moves env tbl c S r (rows.foldl (mergeRow refused) r) := by
  induction rows generalizing r with
  | nil => exact .refl
  | cons p rows ih =>
    refine ReflTransGen.trans ?_ (ih (mergeRow refused r p))
    unfold mergeRow
    split
    · exact .refl
    exact enrolled_moves _ r

theorem onPlayerList_moves (conn : String) (msg : Message) (r : Room T) : Moves env tbl c S r (r.onPlayerList conn msg) := by
  unfold onPlayerList
  split
  · exact .refl
  split
  · exact .refl
  split
  · exact .refl
  rename_i rows _
  refine (foldl_mergeRow_moves (r.refusedRows rows) rows r).trans ?_
  dsimp only
  split
  · exact ReflTransGen.trans (.single (.kept _)) (.single (.reordered _))
  exact .single (.reordered _)

theorem onPlayerAck_moves (call : c = .message a) (typed : wellFormed a.msg = some .playerAck) (r : Room T) :
    Moves env tbl c S r (r.onPlayerAck a.conn a.msg) := by
  unfold onPlayerAck
  split
  · exact .refl
  rename_i joiner
  split
  · exact .refl
  rename_i lobby
  split
  · exact .refl
  split
  · exact .refl
  · exact .refl
  exact .single (.acknowledged call typed (by simpa using joiner) (not_not.mp (not_or.mp lobby).2) _)

theorem setReady_moves (conn : String) (ready : Bool) (r : Room T) : Moves env tbl c S r (r.setReady conn ready) := by
  have told : ∀ r' : Room T, Moves env tbl c S r' (if r'.isHost then r'.broadcastPlayerList else r') := by
    intro r'
    split
    · exact broadcastPlayerList_moves r'
    exact .refl
  unfold setReady
  cases found : r.players.get conn with
  | none => exact told r
  | some p => exact (Moves.single (.readied found ready)).trans (told _)

theorem onReady_moves (conn : String) (msg : Message) (r : Room T) : Moves env tbl c S r (r.onReady conn msg) := by
  unfold onReady
  split
  · exact .refl
  exact setReady_moves ..

theorem onChat_moves (conn : String) (msg : Message) (r : Room T) : Moves env tbl c S r (r.onChat conn msg) := by
  unfold onChat
  dsimp only
  split
  · exact Tabled.moves (.same rfl rfl rfl rfl rfl)
  exact .refl

theorem addLocalPlayer_moves (conn nickname avatar : String) (publicKey x25519 : Bytes) (r : Room T) :
    Moves env tbl c S r (r.addLocalPlayer conn nickname avatar publicKey x25519) := by
  unfold addLocalPlayer
  split
  · exact .refl
  dsimp only
  split
  · exact (enrolled_moves _ r).trans (broadcastPlayerList_moves _)
  exact enrolled_moves _ r

theorem adopt_same {P : Type} [DecidableEq P] {known : Option P} {policy : P} {written : Room T}
    (same : known = some policy → written = r) (adopted : adopt known policy written r = some r') :
    r' = written ∧ ∀ p, known = some p → p = policy := by
  unfold adopt at adopted
  split at adopted
  · cases adopted
    exact ⟨rfl, nofun⟩
  split at adopted
  · rename_i equal
    subst equal
    cases adopted
    exact ⟨(same rfl).symm, fun p other => (Option.some.inj other).symm⟩
  cases adopted

variable (env tbl) in
theorem adoptPolicies_moves (shapes : Shapes c r) (policy : DealPolicy) (continuation : ContinuationPolicy) :
    Moves env tbl c S r (r.adoptPolicies policy continuation).2 ∧ Shapes c (r.adoptPolicies policy continuation).2 ∧
      (r.adoptPolicies policy continuation).2.stage = r.stage := by
  unfold adoptPolicies
  split
  · exact ⟨.refl, shapes, rfl⟩
  rename_i r1 adopted
  obtain ⟨rfl, first⟩ := adopt_same (fun known => by rw [← known]) adopted
  have moved : Moves env tbl c S r { r with dealPolicy := some policy } := .single (.dealt shapes policy first)
  have shapes1 : Shapes c { r with dealPolicy := some policy } := shapes
  split
  · exact ⟨moved, shapes, rfl⟩
  rename_i r2 adopted2
  obtain ⟨rfl, first2⟩ := adopt_same (fun known => by rw [← known]) adopted2
  exact ⟨moved.trans (.single (.continued shapes1 continuation first2)), shapes, rfl⟩

theorem onGameStart_moves (call : c = .message a) (typed : wellFormed a.msg = some .gameStart)
    (gate : r.admissionOk a.conn .gameStart (authorOf a.msg) = true) (stage : r.stage = S) :
    Moves env tbl c S r (r.onGameStart env tbl a.conn a.msg) := by
  unfold onGameStart
  split
  · exact .refl
  split
  · exact .refl
  split
  · exact .refl
  rename_i fromHost
  split
  · exact .refl
  rename_i open'
  split
  · exact .refl
  have shapes : Shapes c r := by
    obtain ⟨waits, on⟩ := not_or.mp open'
    exact .inl ⟨a, call, typed, gate, by simpa using fromHost, waits, Option.not_isSome_iff_eq_none.mp on⟩
  split
  · exact refused_moves shapes _ _
  rename_i policy _
  split
  · exact refused_moves shapes _ _
  rename_i continuation _
  obtain ⟨moved, shapes', same⟩ := adoptPolicies_moves (S := S) env tbl shapes policy continuation
  split
  · rename_i r1 adopted
    rw [adopted] at moved shapes' same
    exact moved.trans (refused_moves shapes' _ _)
  rename_i r1 adopted
  rw [adopted] at moved shapes' same
  exact moved.trans (.single (.opened shapes' (same.trans stage) _ _))

theorem startGame_moves {settings : Message} (call : c = .startGame settings) (stage : r.stage = S) :
    Moves env tbl c S r (r.startGame settings) := by
  unfold startGame
  split
  · exact .refl
  rename_i allowed
  have shapes : Shapes c r := by
    obtain ⟨on, host⟩ := not_or.mp allowed
    exact .inr ⟨settings, call, by simpa using host, Option.not_isSome_iff_eq_none.mp on⟩
  split
  · rename_i policy continuation _ _
    obtain ⟨moved, shapes', same⟩ := adoptPolicies_moves (S := S) env tbl shapes policy continuation
    split
    · rename_i r1 adopted
      rwa [adopted] at moved
    rename_i r1 adopted
    rw [adopted] at moved shapes' same
    exact (moved.trans (.single (.opened shapes' (same.trans stage) _ _))).trans (Tabled.moves (.same rfl rfl rfl rfl rfl))
  exact .refl

theorem seatLocalTable_moves (order : List String) (nicknames : String → Option String) (r : Room T) :
    Moves env tbl c S r (r.seatLocalTable tbl order nicknames) := by
  unfold seatLocalTable
  split
  · exact .refl
  rename_i allowed
  split
  · exact .single (.localTable _ _ _ (by simpa using (not_or.mp allowed).1))
  exact .refl

theorem chain_stage (linked : r.chain conn msg = some r') : r'.stage = r.stage := by
  unfold chain at linked
  repeat' split at linked
  all_goals cases linked
  all_goals rfl

theorem chained_moves {handler : Room T → Room T}
    (each : ∀ r', r'.stage = r.stage → r'.charter = r.charter → Moves env tbl c S r' (handler r')) :
    Moves env tbl c S r (((r.chain conn msg).map handler).getD r) := by
  cases linked : r.chain conn msg with
  | none => exact .refl
  | some r' =>
    have tabled := chain_tabled (P := fun _ => False) linked
    exact tabled.moves.trans (each r' (chain_stage linked) tabled.charter)

theorem admissionOk_of_charter (same : r'.charter = r.charter) (conn : String) (kind : Kind) (author : Option String) :
    r'.admissionOk conn kind author = r.admissionOk conn kind author := by
  simp only [charter, Charter.mk.injEq] at same
  obtain ⟨role, wire, admission, joiner, known, -, -, -, -, conn', -⟩ := same
  unfold admissionOk
  rw [role, wire, admission, joiner, known, conn']

theorem handleMessage_moves (a : Arrival) (r : Room T) : Moves env tbl (.message a) r.stage r (r.handleMessage env tbl a) := by
  unfold handleMessage
  split
  · exact .refl
  rename_i kind typed
  split
  · exact .refl
  rename_i through
  split
  · exact .refl
  rename_i refused
  have gate : r.admissionOk a.conn kind (authorOf a.msg) = true := not_not.mp refused
  cases kind with
  | admission kind =>
    -- a session that has ended lets no admission through
    have on : r.terminal = none := by
      cases ended : r.terminal with
      | none => rfl
      | some record => simp [letThrough, ended] at through
    obtain ⟨admission, sent, answer⟩ := answerAdmission_frame env a kind r
    dsimp only
    rw [answer]
    exact .single (.answered rfl typed on answer)
  | hostless kind =>
    refine chained_moves fun r' _ same => .single (.tabled ?_)
    exact (handleHostless_tabled a.conn kind a.msg r').mono fun ctx read => .inr ⟨a, kind, rfl, typed, read⟩
  | playerInfo => exact chained_moves fun r' _ _ => onPlayerInfo_moves a.conn a.msg r'
  | playerList => exact chained_moves fun r' _ _ => onPlayerList_moves a.conn a.msg r'
  | playerAck => exact chained_moves fun r' _ _ => onPlayerAck_moves rfl typed r'
  | gameStart =>
    refine chained_moves fun r' stage same => onGameStart_moves rfl typed ?_ stage
    rwa [admissionOk_of_charter same]
  | ready => exact chained_moves fun r' _ _ => onReady_moves a.conn a.msg r'
  | chat => exact chained_moves fun r' _ _ => onChat_moves a.conn a.msg r'
  | lobbyClock => exact chained_moves fun r' _ _ => Tabled.moves (call_tabled ..)
  | aside =>
    dsimp only
    cases linked : r.chain a.conn a.msg with
    | none => exact .refl
    | some r' => exact (chain_tabled linked).moves

theorem leave_moves (conn : String) (r : Room T) : Moves env tbl c S r (r.leave conn) :=
  (Moves.single (.kept fun cid => cid ≠ conn)).trans (.single (.reordered (r.joinOrder.erase conn)))

theorem electNewHost_moves (r : Room T) : Moves env tbl c S r (r.electNewHost tbl) := by
  unfold electNewHost
  split
  · exact .refl
  split
  · exact Tabled.moves (terminate_tabled (by decide) ..)
  rename_i compat
  split
  · exact .refl
  split
  · exact (Moves.single (.promoted (by simpa using compat))).trans (broadcastPlayerList_moves _)
  exact .refl

theorem forgotten_moves (conn reason : String) (r : Room T) :
    Moves env tbl (.disconnect conn reason) S { r with admission := r.admission.map (HostAdmission.forget conn) }
      (r.handleDisconnect tbl conn reason) := by
  unfold handleDisconnect
  generalize { r with admission := r.admission.map (HostAdmission.forget conn) } = r
  dsimp only
  split
  · exact .refl
  split
  · split
    · exact ((Tabled.moves (call_tabled ..)).trans (leave_moves conn _)).trans (broadcastPlayerList_moves _)
    exact leave_moves conn r
  split
  · split
    · exact (leave_moves conn r).trans (Tabled.moves (terminate_tabled (by decide) ..))
    exact (leave_moves conn r).trans (electNewHost_moves _)
  split
  · exact (leave_moves conn r).trans (Tabled.moves (call_tabled ..))
  have told : ∀ seat, Moves env tbl (.disconnect conn reason) S r
      (if r.isHost && tbl.eliminated r.table then (r.leave conn).call tbl (.reportLost seat) else r.leave conn) := by
    intro seat
    split
    · exact (leave_moves conn r).trans (Tabled.moves (call_tabled ..))
    exact leave_moves conn r
  split
  · split
    · exact (told _).trans (broadcastPlayerList_moves _)
    exact (leave_moves conn r).trans (broadcastPlayerList_moves _)
  split
  · exact told _
  exact leave_moves conn r

theorem handleDisconnect_moves (conn reason : String) (r : Room T) :
    Moves env tbl (.disconnect conn reason) S r (r.handleDisconnect tbl conn reason) :=
  (Moves.single (.forgotten rfl)).trans (forgotten_moves conn reason r)

theorem startHand_moves (s : StartCall) (r : Room T) : Moves env tbl (.start s) r.stage r (r.startHand env tbl s) := by
  have begins : ∀ r' : Room T, Moves env tbl (.start s) r.stage r' (beginWith env tbl s r') := fun r' =>
    .single (.tabled ((beginWith_tabled s r').mono fun _ => .inl))
  unfold startHand
  split
  · split
    · cases bound : r.bindSeatKeys with
      | none => exact .refl
      | some r' =>
        obtain ⟨keys, rfl⟩ := bindSeatKeys_frame bound
        exact ReflTransGen.trans (.single (.bound rfl bound rfl)) (begins _)
    exact .refl
  · split
    · exact begins r
    exact .refl
  split
  · exact .refl
  exact begins r

theorem whileOn_moves (t : TableCall) (r : Room T) : Moves env tbl c S r (r.whileOn tbl t) := by
  unfold whileOn
  split
  · exact .refl
  exact Tabled.moves (call_tabled ..)

theorem terminate_moves {state : TerminalState} {reason : String} {conn : Option String} {seat : Option ℤ}
    (call : c = .terminate state reason conn seat) (r : Room T) :
    Moves env tbl c S r (r.terminate tbl state reason conn seat) := by
  by_cases other : state = .policyRefused
  · subst other
    unfold terminate
    split
    · exact .refl
    rename_i on
    exact .single (.refused (.inr ⟨reason, conn, seat, call⟩) rfl (Option.not_isSome_iff_eq_none.mp on) rfl rfl rfl rfl)
  exact Tabled.moves (terminate_tabled other ..)

theorem make_moves (c : Call) (r : Room T) : Moves env tbl c r.stage r (r.make env tbl c) := by
  cases c with
  | message a => exact handleMessage_moves a r
  | disconnect conn reason => exact handleDisconnect_moves conn reason r
  | configureSeats order =>
    unfold make configureSeats
    dsimp only
    split
    · rename_i accepted
      exact .single (.seated rfl accepted rfl)
    exact .refl
  | seatLocalTable order nicknames => exact seatLocalTable_moves order nicknames r
  | startGame settings => exact startGame_moves rfl rfl
  | start s => exact startHand_moves s r
  | sendBetAction action amount => exact whileOn_moves _ r
  | revealBoardStreet street => exact whileOn_moves _ r
  | openDealAudit => exact whileOn_moves _ r
  | setReady conn ready => exact setReady_moves conn ready r
  | terminate state reason conn seat => exact terminate_moves rfl r
  | addLocalPlayer conn nickname avatar publicKey x25519 => exact addLocalPlayer_moves ..
  | markHostAuthenticated conn hostPubkey =>
    obtain ⟨pinned, host, known, same⟩ := markHostAuthenticated_frame conn hostPubkey r
    unfold make
    dsimp only
    rw [same]
    exact .single (.authenticated rfl)

/-- Every call of a run is made as `A` allows. -/
def Along (env : Env) (tbl : Table T) (A : Call → Room T → Prop) (calls : List Call) (r : Room T) : Prop :=
  ∀ before c after, calls = before ++ c :: after → A c (run env tbl before r)

theorem Along.nil : Along env tbl A [] r := by
  intro before c after split
  simp at split

theorem normalizeHostless_reads {kind : HostlessKind} {ctx : Inbound}
    (read : r.normalizeHostless env conn kind msg = .ok ctx) :
    ctx.kind = kind ∧ ctx.connId = conn ∧ ctx.isLocal = decide (r.localConnId = some conn) := by
  unfold normalizeHostless at read
  dsimp only at read
  cases counted : claimedHand env r.handNo (hostlessBody msg) with
  | error x =>
    rw [counted] at read
    cases read
  | ok hand =>
    rw [counted] at read
    cases read
    exact ⟨rfl, rfl, rfl⟩

theorem Along.cons (first : A c r)
    (rest : Along env tbl A calls (r.make env tbl c)) : Along env tbl A (c :: calls) r := by
  intro before d after split
  cases before with
  | nil =>
    cases split
    exact first
  | cons b before =>
    cases split
    exact rest before d after rfl

theorem run_append (before after : List Call) (r : Room T) :
    run env tbl (before ++ after) r = run env tbl after (run env tbl before r) := List.foldl_append

theorem run_keeps (each : ∀ c r, A c r → I r → I (r.make env tbl c)) (along : Along env tbl A calls r) (now : I r) :
    ∀ before after, calls = before ++ after → I (run env tbl before r) := by
  intro before
  induction before using List.reverseRecOn with
  | nil => exact fun _ _ => now
  | append_singleton before c ih =>
    intro after split
    rw [List.append_assoc] at split
    rw [run_append]
    exact each c _ (along before c after split) (ih _ split)

end Room

end Holdem
