import Holdem.Room.Moves
import Holdem.Room.Roster

/-!
Who shapes the table: a host's own calls, and on a joiner the one `game_start` of its host.
-/

namespace Holdem

namespace Room

variable {T : Type} {env : Env} {tbl : Table T} {r r' r'' : Room T} {c : Call} {S : Stage} {a : Arrival}
  {P : Inbound → Prop}

def PolicyRefused (r : Room T) : Prop := ∃ record, r.terminal = some record ∧ record.terminal = .policyRefused

structure Unshaped (r r' : Room T) : Prop where
  seatOrder : r'.seatOrder = r.seatOrder
  dealPolicy : r'.dealPolicy = r.dealPolicy
  continuationPolicy : r'.continuationPolicy = r.continuationPolicy
  settings : r'.lastTableSettings = r.lastTableSettings
  playing : r'.stage = .playing → r.stage = .playing
  refused : PolicyRefused r' → PolicyRefused r

theorem Unshaped.refl (r : Room T) : Unshaped r r := ⟨rfl, rfl, rfl, rfl, id, id⟩

theorem Unshaped.trans (first : Unshaped r r') (second : Unshaped r' r'') : Unshaped r r'' :=
  ⟨second.seatOrder.trans first.seatOrder, second.dealPolicy.trans first.dealPolicy,
    second.continuationPolicy.trans first.continuationPolicy, second.settings.trans first.settings,
    first.playing ∘ second.playing, first.refused ∘ second.refused⟩

theorem Tabled.unshaped (tabled : Tabled P r r') : Unshaped r r' := by
  have same := tabled.charter
  simp only [Room.charter, Charter.mk.injEq] at same
  obtain ⟨-, -, -, -, -, -, -, -, -, -, -, settings, deal, continuation, order, -⟩ := same
  refine ⟨order, deal, continuation, settings, fun playing => ?_, fun refusal => ?_⟩
  · obtain ⟨stage, -⟩ | ⟨-, stage, -⟩ := tabled.ends
    · rwa [stage] at playing
    rw [stage] at playing
    cases playing
  obtain ⟨record, ended, refused⟩ := refusal
  obtain ⟨-, terminal⟩ | ⟨-, -, other, terminal, sound⟩ := tabled.ends
  · exact ⟨record, terminal ▸ ended, refused⟩
  cases terminal.symm.trans ended
  exact (sound refused).elim

/-- No `game_start` is taken any more. -/
def Begun (r : Room T) : Prop := r.stage = .playing ∨ r.terminal.isSome = true

theorem Begun.not_shapes (begun : Begun r) : ¬Shapes (.message a) r := by
  rintro (⟨_, _, _, _, _, stage, on⟩ | ⟨_, call, _⟩)
  · obtain playing | ended := begun
    · exact stage playing
    simp [on] at ended
  cases call

theorem Tabled.begun (tabled : Tabled P r r') (begun : Begun r) : Begun r' := by
  obtain ⟨stage, terminal⟩ | ⟨-, -, record, terminal, -⟩ := tabled.ends
  · unfold Begun at begun ⊢
    rwa [stage, terminal]
  exact .inr (by rw [terminal]; rfl)

theorem Move.wire (move : Move env tbl c S r r') : r'.wire = r.wire := by
  cases move with
  | tabled tabled => exact congrArg Charter.wire tabled.charter
  | refused _ same => exact congrArg Charter.wire same
  | _ => rfl

theorem Move.unshaped (move : Move env tbl (.message a) S r r') (wire : r.wire = true)
    (closed : ¬Shapes (.message a) r) : Unshaped r r' ∧ (Begun r → Begun r') := by
  cases move with
  | tabled tabled => exact ⟨tabled.unshaped, tabled.begun⟩
  | dealt shapes => exact (closed shapes).elim
  | continued shapes => exact (closed shapes).elim
  | opened shapes => exact (closed shapes).elim
  | refused cause =>
    obtain shapes | ⟨_, _, _, call⟩ := cause
    · exact (closed shapes).elim
    cases call
  | seated call => cases call
  | localTable _ _ _ compat => exact nomatch wire.symm.trans compat
  | _ => exact ⟨⟨rfl, rfl, rfl, rfl, id, id⟩, id⟩

theorem Moves.unshaped (moves : Moves env tbl (.message a) S r r') (wire : r.wire = true)
    (other : wellFormed a.msg ≠ some .gameStart) : Unshaped r r' ∧ (Begun r → Begun r') := by
  have closed : ∀ r : Room T, ¬Shapes (.message a) r := by
    rintro r (⟨_, call, start, _⟩ | ⟨_, call, _⟩)
    · cases call
      exact other start
    cases call
  have all : r'.wire = true ∧ Unshaped r r' ∧ (Begun r → Begun r') := by
    induction moves with
    | refl => exact ⟨wire, .refl r, id⟩
    | tail _ move ih =>
      obtain ⟨wire, unshaped, begun⟩ := ih
      obtain ⟨unshaped', begun'⟩ := move.unshaped wire (closed _)
      exact ⟨move.wire.trans wire, unshaped.trans unshaped', begun' ∘ begun⟩
  exact all.2

theorem terminate_begun (state : TerminalState) (reason : String) (conn : Option String) (seat : Option ℤ) (r : Room T) :
    Begun (r.terminate tbl state reason conn seat) := by
  unfold terminate
  split
  · rename_i ended
    exact .inr ended
  exact .inr rfl

variable (env tbl) in
theorem onGameStart_begun (conn : String) (msg : Message) (r : Room T) : r.onGameStart env tbl conn msg = r ∨
      Begun (r.onGameStart env tbl conn msg) ∧ r.hostConnId.any (conn ≠ ·) = false ∧ r.stage ≠ .playing ∧ r.terminal = none := by
  unfold onGameStart
  split
  · exact .inl rfl
  split
  · exact .inl rfl
  split
  · exact .inl rfl
  rename_i fromHost
  split
  · exact .inl rfl
  rename_i fresh
  split
  · exact .inl rfl
  obtain ⟨stage, on⟩ := not_or.mp fresh
  refine .inr ⟨?_, by simpa using fromHost, stage, Option.not_isSome_iff_eq_none.mp on⟩
  split
  · exact terminate_begun ..
  split
  · exact terminate_begun ..
  split
  · exact terminate_begun ..
  exact .inl rfl

variable (env tbl) in
theorem handleMessage_shaping (a : Arrival) (wire : r.wire = true) :
    Unshaped r (r.handleMessage env tbl a) ∧ (Begun r → Begun (r.handleMessage env tbl a)) ∨
      Shapes (.message a) r ∧ Begun (r.handleMessage env tbl a) := by
  by_cases typed : wellFormed a.msg = some .gameStart
  · unfold handleMessage
    rw [typed]
    dsimp only
    split
    · exact .inl ⟨.refl r, id⟩
    split
    · exact .inl ⟨.refl r, id⟩
    rename_i gate
    cases linked : r.chain a.conn a.msg with
    | none => exact .inl ⟨.refl r, id⟩
    | some r' =>
      have tabled := chain_tabled (P := fun _ => False) linked
      have host : r'.hostConnId = r.hostConnId := congrArg Charter.hostConnId tabled.charter
      simp only [Option.map_some, Option.getD_some]
      obtain same | ⟨begun, fromHost, stage, on⟩ := onGameStart_begun env tbl a.conn a.msg r'
      · rw [same]
        exact .inl ⟨tabled.unshaped, tabled.begun⟩
      refine .inr ⟨.inl ⟨a, rfl, typed, not_not.mp gate, host ▸ fromHost, fun playing => ?_, ?_⟩, begun⟩
      · obtain playing | ended := tabled.begun (.inl playing)
        · exact stage playing
        simp [on] at ended
      by_contra ended
      obtain playing | ended := tabled.begun (.inr (Option.isSome_iff_ne_none.mpr ended))
      · exact stage playing
      simp [on] at ended
  exact .inl ((handleMessage_moves a r).unshaped wire typed)

theorem received_append (before after : List Arrival) (r : Room T) :
    received env tbl (before ++ after) r = received env tbl after (received env tbl before r) := List.foldl_append

structure Rooted (r r' : Room T) : Prop where
  wire : r'.wire = r.wire
  admission : r'.admission.isSome = r.admission.isSome
  isHost : r.wire = true → r'.isHost = r.isHost
  hostConnId : r.wire = true → r'.hostConnId = r.hostConnId
  localConnId : r.wire = true → r.isHost = true → r'.localConnId = r.localConnId

theorem Rooted.trans (first : Rooted r r') (second : Rooted r' r'') : Rooted r r'' := by
  refine ⟨second.wire.trans first.wire, second.admission.trans first.admission, fun wire => ?_, fun wire => ?_,
    fun wire host => ?_⟩
  · exact (second.isHost (first.wire.trans wire)).trans (first.isHost wire)
  · exact (second.hostConnId (first.wire.trans wire)).trans (first.hostConnId wire)
  have host' := (first.isHost wire).trans host
  exact (second.localConnId (first.wire.trans wire) host').trans (first.localConnId wire host)

theorem Rooted.of_charter (same : r'.charter = r.charter) : Rooted r r' := by
  simp only [charter, Charter.mk.injEq] at same
  obtain ⟨role, wire, admission, -, -, -, -, -, -, own, host, -⟩ := same
  exact ⟨wire, congrArg Option.isSome admission, fun _ => role, fun _ => host, fun _ _ => own⟩

theorem Move.rooted (move : Move env tbl (.message a) S r r') : Rooted r r' := by
  cases move with
  | tabled tabled => exact .of_charter tabled.charter
  | refused _ same => exact .of_charter same
  | @answered b kind _ _ _ _ _ answer =>
    have kept := answerAdmission_isSome env b kind r
    rw [answer] at kept
    exact ⟨rfl, kept, fun _ => rfl, fun _ => rfl, fun _ _ => rfl⟩
  | acknowledged _ _ joiner => exact ⟨rfl, rfl, fun _ => rfl, fun _ => rfl, fun _ host => nomatch host.symm.trans joiner⟩
  | promoted compat =>
    refine ⟨rfl, rfl, fun wire => ?_, fun wire => ?_, fun _ _ => rfl⟩
    · cases wire.symm.trans compat
    cases wire.symm.trans compat
  | forgotten call => cases call
  | authenticated call => cases call
  | _ => exact ⟨rfl, rfl, fun _ => rfl, fun _ => rfl, fun _ _ => rfl⟩

variable (env tbl) in
theorem received_rooted (arrivals : List Arrival) (r : Room T) : Rooted r (received env tbl arrivals r) := by
  induction arrivals using List.reverseRecOn with
  | nil => exact .of_charter rfl
  | append_singleton before a ih =>
    rw [received_append]
    exact Moves.keeps (fun _ _ rooted move => rooted.trans move.rooted) (handleMessage_moves a _) ih

theorem received_begun (wire : r.wire = true) (begun : Begun r) (arrivals : List Arrival) :
    Begun (received env tbl arrivals r) ∧ Unshaped r (received env tbl arrivals r) := by
  induction arrivals using List.reverseRecOn with
  | nil => exact ⟨begun, .refl r⟩
  | append_singleton before a ih =>
    rw [received_append]
    have wire' := (received_rooted env tbl before r).wire.trans wire
    obtain ⟨unshaped, still⟩ | ⟨shapes, -⟩ := handleMessage_shaping env tbl a wire'
    · exact ⟨still ih.1, ih.2.trans unshaped⟩
    exact (ih.1.not_shapes shapes).elim

/-- The message is a `game_start` on a connection the host has admitted under the key that signed it. -/
def AdmittedStart (a : Arrival) (r : Room T) : Prop :=
  wellFormed a.msg = some .gameStart ∧
    ∃ admission key, r.admission = some admission ∧ admission.admitted a.conn = some key ∧ authorOf a.msg = some (Hex.encode key)

theorem Shapes.admitted (host : r.isHost = true) (wire : r.wire = true) (guarded : r.admission.isSome = true)
    (remote : r.localConnId ≠ some a.conn) (shapes : Shapes (.message a) r) : AdmittedStart a r := by
  obtain ⟨_, call, typed, gate, -⟩ | ⟨_, call, _⟩ := shapes
  · cases call
    obtain ⟨admission, configured⟩ := Option.isSome_iff_exists.mp guarded
    refine ⟨typed, admission, ?_⟩
    unfold admissionOk at gate
    rw [if_neg remote] at gate
    split at gate
    · cases gate
    rw [configured] at gate
    dsimp only at gate
    cases admitted : admission.admitted a.conn with
    | none =>
      rw [admitted] at gate
      cases gate
    | some key =>
      rw [admitted] at gate
      dsimp only at gate
      split at gate
      · simp [wire] at gate
      · simp [wire] at gate
      rename_i author _ signed
      exact ⟨key, configured, rfl, by rw [signed, of_decide_eq_true gate]⟩
  cases call

def Coherent (r : Room T) : Prop := r.stage = .ended → r.terminal.isSome = true

theorem Move.coherent (move : Move env tbl c S r r') (coherent : Coherent r) : Coherent r' := by
  cases move with
  | tabled tabled =>
    obtain ⟨stage, terminal⟩ | ⟨-, -, record, terminal, -⟩ := tabled.ends
    · unfold Coherent at coherent ⊢
      rwa [stage, terminal]
    exact fun _ => by rw [terminal]; rfl
  | opened => exact nofun
  | refused _ _ _ _ terminal => exact fun _ => terminal
  | _ => exact coherent

variable (env tbl) in
theorem received_coherent (coherent : Coherent r) (arrivals : List Arrival) : Coherent (received env tbl arrivals r) := by
  induction arrivals using List.reverseRecOn with
  | nil => exact coherent
  | append_singleton before a ih =>
    rw [received_append]
    exact Moves.keeps (fun _ _ coherent move => move.coherent coherent) (handleMessage_moves a _) ih

theorem host_unshaped (wire : r.wire = true) (host : r.isHost = true) (guarded : r.admission.isSome = true)
    (remote : r.localConnId ≠ some a.conn) (before : List Arrival)
    (other : ¬AdmittedStart a (received env tbl before r)) :
    Unshaped (received env tbl before r) (received env tbl (before ++ [a]) r) := by
  have rooted := received_rooted env tbl before r
  rw [received_append]
  obtain ⟨unshaped, -⟩ | ⟨shapes, -⟩ := handleMessage_shaping env tbl a (rooted.wire.trans wire)
  · exact unshaped
  refine (other (shapes.admitted ((rooted.isHost wire).trans host) (rooted.wire.trans wire)
    (rooted.admission.trans guarded) ?_)).elim
  rwa [rooted.localConnId wire host]

/-- In every run in which no `game_start` comes over a connection the host has admitted under its author's
key, a host's table is shaped by no message. A joiner's is, at most once, by a `game_start` of its host. -/
theorem shaped_by_host (env : Env) (tbl : Table T) (r : Room T) (arrivals : List Arrival) (wire : r.wire = true) :
    (r.isHost = true → r.admission.isSome = true → r.stage = .lobby → (∀ a ∈ arrivals, r.localConnId ≠ some a.conn) →
      (∀ before a after, arrivals = before ++ a :: after → ¬AdmittedStart a (received env tbl before r)) →
      ∀ before after, arrivals = before ++ after → Unshaped r (received env tbl before r)) ∧
    ∀ host, r.isHost = false → r.hostAuthenticated = true → r.hostConnId = some host → Coherent r →
      ∀ before a after, arrivals = before ++ a :: after →
        ¬Unshaped (received env tbl before r) (received env tbl (before ++ [a]) r) →
        wellFormed a.msg = some .gameStart ∧ a.conn = host ∧ (received env tbl before r).stage = .lobby ∧
          ∀ later rest, after = later ++ rest →
            Unshaped (received env tbl (before ++ [a]) r) (received env tbl (before ++ [a] ++ later) r) := by
  refine ⟨fun host guarded _ remote none before => ?_, fun host joiner _ known coherent before a after _ shaped => ?_⟩
  · induction before using List.reverseRecOn with
    | nil => exact fun _ _ => .refl r
    | append_singleton before a ih =>
      intro after split
      rw [List.append_assoc] at split
      have member : a ∈ arrivals := split ▸ List.mem_append_right _ (.head _)
      exact (ih _ split).trans (host_unshaped wire host guarded (remote a member) before (none before a after split))
  have rooted := received_rooted env tbl before r
  have wire' := rooted.wire.trans wire
  rw [received_append] at shaped ⊢
  obtain ⟨unshaped, -⟩ | ⟨shapes, begun⟩ := handleMessage_shaping env tbl a wire'
  · exact (shaped unshaped).elim
  have after := (received_rooted env tbl [a] (received env tbl before r)).wire.trans wire'
  obtain ⟨_, call, typed, -, fromHost, stage, on⟩ | ⟨_, call, _⟩ := shapes
  · cases call
    rw [rooted.hostConnId wire, known] at fromHost
    refine ⟨typed, by simpa using fromHost, ?_, fun later _ _ => ?_⟩
    · have coherent' := received_coherent env tbl coherent before
      cases now : (received env tbl before r).stage with
      | lobby => rfl
      | playing => exact (stage now).elim
      | ended =>
        have ended := coherent' now
        simp [on] at ended
    rw [received_append, received_append]
    exact (received_begun after begun later).2
  cases call

namespace Sample

def host : Room Unit :=
  { isHost := true, wire := true, joinerAdmission := none, hostAuthenticated := false, table := ()
    admission := some { lobby with admitted := fun conn => if conn = "g" then some (key 2) else none } }

def gameStart : Message := envelope "game_start" (key 2) [("table_settings",
  .obj [("deal_policy", .str "bayer-groth-v1"), ("continuation_policy", .str "end-table-v1")])]

end Sample

open Room.Sample in
theorem shaped_by_host_sample :
    Unshaped host (received Sample.env Sample.table [arrival "x" gameStart] host) ∧
      (received Sample.env Sample.table [arrival "h" gameStart] joiner).stage = .playing ∧
      Unshaped (received Sample.env Sample.table ([] ++ [arrival "h" gameStart]) joiner)
        (received Sample.env Sample.table ([] ++ [arrival "h" gameStart] ++ [arrival "h" gameStart])
          joiner) := by
  have begins : (received Sample.env Sample.table [arrival "h" gameStart] joiner).stage = .playing := by
    decide +kernel
  refine ⟨?_, begins, ?_⟩
  · have half := (shaped_by_host Sample.env Sample.table host [arrival "x" gameStart] rfl).1
    refine half rfl rfl rfl (fun _ _ => nofun) ?_ [arrival "x" gameStart] [] rfl
    intro before a after split
    obtain ⟨rfl, rfl⟩ : before = [] ∧ a = arrival "x" gameStart := by
      cases before with
      | nil => exact ⟨rfl, (List.cons.inj split).1.symm⟩
      | cons b before => simp at split
    rintro ⟨-, admission, key, known, admitted, -⟩
    cases known
    cases admitted
  have half := (shaped_by_host Sample.env Sample.table joiner
    [arrival "h" gameStart, arrival "h" gameStart] rfl).2
  refine (half "h" rfl rfl rfl nofun [] (arrival "h" gameStart) [arrival "h" gameStart] rfl
    ?_).2.2.2 [arrival "h" gameStart] [] rfl
  intro unshaped
  cases unshaped.playing begins

open Room.Sample in
/-- On a host no connection is the host's, so that a guest that is admitted begins the table. -/
theorem shaped_by_guest :
    host.stage = .lobby ∧
      (received Sample.env Sample.table [arrival "g" gameStart] host).stage = .playing := by
  decide +kernel

end Room

end Holdem
