import Holdem.Room.Moves

/-!
Who is admitted: a connection is admitted under a key by the answer to the challenge that it was last
given, which the key's owner asked for, and by nothing else.
-/

namespace Holdem

open List Admission HostAdmission
open Function (update_of_ne update_self)

namespace HostAdmission

variable {a : HostAdmission} {now : ℚ} {conn x : String}

structure Same (a a' : HostAdmission) : Prop where
  secret : a'.secret = a.secret
  hostPubkey : a'.hostPubkey = a.hostPubkey
  token : a'.token = a.token
  ttl : a'.ttl = a.ttl

theorem Same.refl (a : HostAdmission) : Same a a := ⟨rfl, rfl, rfl, rfl⟩

theorem Same.trans {a b c : HostAdmission} (first : Same a b) (second : Same b c) : Same a c :=
  ⟨second.secret.trans first.secret, second.hostPubkey.trans first.hostPubkey, second.token.trans first.token,
    second.ttl.trans first.ttl⟩

theorem expire_pending (now : ℚ) (x : String) (a : HostAdmission) :
    (a.expire now).pending x = a.pending x ∨ (a.expire now).pending x = none := by
  unfold expire
  dsimp only
  cases a.pending x with
  | none => exact .inr rfl
  | some p =>
    rw [Option.filter_some]
    split
    · exact .inl rfl
    exact .inr rfl

theorem expire_some {p : Pending} (kept : (a.expire now).pending x = some p) :
    a.pending x = some p ∧ now - p.issuedAt < a.ttl := by
  obtain ⟨found, fresh⟩ := Option.filter_eq_some_iff.mp kept
  exact ⟨found, of_decide_eq_true fresh⟩

theorem forget_forget (conn : String) (a : HostAdmission) : (a.forget conn).forget conn = a.forget conn := by
  unfold forget
  simp

end HostAdmission

namespace Room

variable {T : Type} {env : Env} {tbl : Table T} {r r' : Room T} {c : Call} {conn x : String}
  {host : HostAdmission} {on : Prop} {calls : List Call}

/-- How a call leaves the admission of the connection `x`; `on` says that the session is on. -/
inductive Turn (mac : Bytes → Bytes → Bytes) (on : Prop) (x : String) (c : Call) (a a' : HostAdmission) : Prop where
  | idle (admitted : a'.admitted x = a.admitted x) (pending : a'.pending x = a.pending x ∨ a'.pending x = none)
  | challenged {arrival : Arrival} {p : Pending} (live : on) (call : c = .message arrival) (conn : arrival.conn = x)
      (typed : wellFormed arrival.msg = some (.admission .hello))
      (read : readHello arrival.msg = some (p.joinerPubkey.val, p.clientNonce.val)) (drawn : p.serverNonce = arrival.drawn)
      (issued : p.issuedAt = arrival.now) (new : a.admitted x = none) (admitted : a'.admitted x = none) (pending : a'.pending x = some p)
  | accepted {arrival : Arrival} {p : Pending} {given tr : Bytes} (live : on) (call : c = .message arrival)
      (conn : arrival.conn = x)
      (typed : wellFormed arrival.msg = some (.admission .response))
      (read : readResponse arrival.msg = some (p.joinerPubkey.val, p.clientNonce.val, p.serverNonce.val, given))
      (waits : a.pending x = some p) (fresh : arrival.now - p.issuedAt < a.ttl)
      (signed : transcript a.token.val a.hostPubkey.val p.joinerPubkey.val p.clientNonce.val p.serverNonce.val = .ok tr)
      (verified : verifyMac mac a.secret.val tr given = true) (admitted : a'.admitted x = some p.joinerPubkey.val)
      (pending : a'.pending x = none)
  | forgotten {reason : String} (call : c = .disconnect x reason) (admitted : a'.admitted x = none)
      (pending : a'.pending x = none)

variable (env) in
theorem answerHello_turn (live : on) {arrival : Arrival} (typed : wellFormed arrival.msg = some (.admission .hello))
    {key nonce : Bytes} (read : readHello arrival.msg = some (key, nonce)) (a : HostAdmission) :
    HostAdmission.Same a (a.onHello arrival.now arrival.drawn arrival.conn key nonce).2 ∧
      ∀ x, Turn env.mac on x (.message arrival) a (a.onHello arrival.now arrival.drawn arrival.conn key nonce).2 := by
  unfold onHello
  split
  · exact ⟨.refl a, fun x => .idle rfl (.inl rfl)⟩
  rename_i new
  have new : a.admitted arrival.conn = none := by simpa [isAdmitted] using new
  dsimp only
  split
  · rename_i sized
    split
    · rename_i keyed
      refine ⟨⟨rfl, rfl, rfl, rfl⟩, fun x => ?_⟩
      by_cases same : x = arrival.conn
      · subst same
        exact .challenged (p := ⟨⟨nonce, sized⟩, arrival.drawn, ⟨key, keyed⟩, arrival.now⟩) live rfl rfl typed read rfl rfl new
          new (update_self ..)
      refine .idle rfl ?_
      dsimp only
      rw [update_of_ne same]
      exact HostAdmission.expire_pending arrival.now x a
    exact ⟨⟨rfl, rfl, rfl, rfl⟩, fun x => .idle rfl (HostAdmission.expire_pending arrival.now x a)⟩
  exact ⟨⟨rfl, rfl, rfl, rfl⟩, fun x => .idle rfl (HostAdmission.expire_pending arrival.now x a)⟩

variable (env) in
theorem answerResponse_turn (live : on) {arrival : Arrival} (typed : wellFormed arrival.msg = some (.admission .response))
    {key clientNonce serverNonce given : Bytes}
    (read : readResponse arrival.msg = some (key, clientNonce, serverNonce, given)) (a : HostAdmission) :
    HostAdmission.Same a (a.onResponse env.mac arrival.now arrival.conn key clientNonce serverNonce given).2 ∧
      (a.onResponse env.mac arrival.now arrival.conn key clientNonce serverNonce given).2.pending arrival.conn = none ∧
      ∀ x, Turn env.mac on x (.message arrival) a
        (a.onResponse env.mac arrival.now arrival.conn key clientNonce serverNonce given).2 := by
  have used : ∀ x, Function.update (a.expire arrival.now).pending arrival.conn none x = a.pending x ∨
      Function.update (a.expire arrival.now).pending arrival.conn none x = none := by
    intro x
    by_cases same : x = arrival.conn
    · subst same
      exact .inr (update_self ..)
    rw [update_of_ne same]
    exact HostAdmission.expire_pending arrival.now x a
  unfold onResponse
  dsimp only
  split
  · rename_i gone
    exact ⟨⟨rfl, rfl, rfl, rfl⟩, gone, fun x => .idle rfl (HostAdmission.expire_pending arrival.now x a)⟩
  rename_i p kept
  split
  · exact ⟨⟨rfl, rfl, rfl, rfl⟩, update_self .., fun x => .idle rfl (used x)⟩
  rename_i author
  split
  · exact ⟨⟨rfl, rfl, rfl, rfl⟩, update_self .., fun x => .idle rfl (used x)⟩
  rename_i echo
  split
  · exact ⟨⟨rfl, rfl, rfl, rfl⟩, update_self .., fun x => .idle rfl (used x)⟩
  rename_i tr signed
  split
  · rename_i verified
    refine ⟨⟨rfl, rfl, rfl, rfl⟩, update_self .., fun x => ?_⟩
    by_cases same : x = arrival.conn
    · subst same
      obtain ⟨found, fresh⟩ := HostAdmission.expire_some kept
      obtain ⟨client, server⟩ := not_or.mp echo
      rw [not_not.mp author, not_not.mp client, not_not.mp server] at read
      exact .accepted live rfl rfl typed read found fresh signed verified (update_self ..) (update_self ..)
    refine .idle ?_ (used x)
    exact update_of_ne same ..
  exact ⟨⟨rfl, rfl, rfl, rfl⟩, update_self .., fun x => .idle rfl (used x)⟩

theorem Moves.admission {S : Stage} (moves : Moves env tbl c S r r') (message : ∀ a kind, c = .message a →
    wellFormed a.msg ≠ some (.admission kind)) (stays : ∀ conn reason, c ≠ .disconnect conn reason) :
    r'.admission = r.admission := by
  refine Moves.keeps (I := fun r' => r'.admission = r.admission) (fun r1 r2 same move => ?_) moves rfl
  rw [← same]
  cases move with
  | tabled tabled => exact congrArg Charter.admission tabled.charter
  | refused _ same => exact congrArg Charter.admission same
  | answered call typed => exact (message _ _ call typed).elim
  | forgotten call => exact (stays _ _ call).elim
  | _ => rfl

theorem handleDisconnect_admission (tbl : Table T) (env : Env) (conn reason : String) (r : Room T) :
    (r.handleDisconnect tbl conn reason).admission = r.admission.map (HostAdmission.forget conn) := by
  refine Moves.keeps (I := fun r' => r'.admission = r.admission.map (HostAdmission.forget conn)) (fun r1 r2 same move => ?_)
    (forgotten_moves conn reason r : Moves env tbl _ r.stage _ _) rfl
  cases move with
  | tabled tabled => exact (congrArg Charter.admission tabled.charter).trans same
  | refused _ charter => exact (congrArg Charter.admission charter).trans same
  | answered call => cases call
  | forgotten call =>
    cases call
    rw [same, Option.map_map]
    exact congrArg (r.admission.map ·) (funext (HostAdmission.forget_forget conn))
  | _ => exact same

theorem answerAdmission_turn (live : on) (host : r.isHost = true) {a : HostAdmission} (configured : r.admission = some a)
    {arrival : Arrival} {kind : AdmissionKind} (typed : wellFormed arrival.msg = some (.admission kind)) :
    ∃ a', (r.answerAdmission env arrival kind).admission = some a' ∧ HostAdmission.Same a a' ∧
      ∀ x, Turn env.mac on x (.message arrival) a a' := by
  have idle : ∃ a', some a = some a' ∧ HostAdmission.Same a a' ∧ ∀ x, Turn env.mac on x (.message arrival) a a' :=
    ⟨a, rfl, .refl a, fun x => .idle rfl (.inl rfl)⟩
  unfold answerAdmission
  rw [if_neg (by simp [host]), configured]
  cases kind with
  | hello =>
    dsimp only
    split
    · rw [configured]
      exact idle
    rename_i key nonce read
    obtain ⟨same, turn⟩ := answerHello_turn env live typed read a
    split <;> rename_i answered <;> rw [answered] at same turn <;> exact ⟨_, rfl, same, turn⟩
  | response =>
    dsimp only
    split
    · rw [configured]
      exact idle
    rename_i key clientNonce serverNonce given read
    obtain ⟨same, -, turn⟩ := answerResponse_turn env live typed read a
    split
    · rename_i answered
      rw [answered] at same turn
      exact ⟨_, rfl, same, turn⟩
    rename_i answered
    rw [answered] at same turn
    split <;> exact ⟨_, rfl, same, turn⟩
  | _ =>
    dsimp only
    rw [configured]
    exact idle

theorem handleMessage_admission (a : Arrival) {kind : AdmissionKind} (typed : wellFormed a.msg = some (.admission kind)) (r : Room T) :
    r.handleMessage env tbl a = if r.terminal = none ∧ r.admissionOk a.conn (.admission kind) (authorOf a.msg) = true then
      r.answerAdmission env a kind else r := by
  have through : r.letThrough (.admission kind) = decide (r.terminal = none) := by
    unfold letThrough
    cases r.terminal with
    | none => rfl
    | some record => simp
  unfold handleMessage
  rw [typed]
  dsimp only
  rw [through]
  by_cases on : r.terminal = none <;> by_cases gate : r.admissionOk a.conn (.admission kind) (authorOf a.msg) = true <;>
    simp [on, gate]

variable (env tbl) in
theorem make_turn (host : r.isHost = true) {a : HostAdmission} (configured : r.admission = some a) (c : Call) :
    ∃ a', (r.make env tbl c).admission = some a' ∧ HostAdmission.Same a a' ∧ ∀ x, Turn env.mac (r.terminal = none) x c a a' := by
  have idle : ∃ a', some a = some a' ∧ HostAdmission.Same a a' ∧ ∀ x, Turn env.mac (r.terminal = none) x c a a' :=
    ⟨a, rfl, .refl a, fun x => .idle rfl (.inl rfl)⟩
  by_cases closes : ∃ conn reason, c = .disconnect conn reason
  · obtain ⟨conn, reason, rfl⟩ := closes
    refine ⟨a.forget conn, ?_, ⟨rfl, rfl, rfl, rfl⟩, fun x => ?_⟩
    · show (r.handleDisconnect tbl conn reason).admission = _
      rw [handleDisconnect_admission tbl env, configured]
      rfl
    by_cases same : x = conn
    · subst same
      exact .forgotten rfl (update_self ..) (update_self ..)
    exact .idle (update_of_ne same ..) (.inl (update_of_ne same ..))
  by_cases admission : ∃ arrival kind, c = .message arrival ∧ wellFormed arrival.msg = some (.admission kind)
  · obtain ⟨arrival, kind, rfl, typed⟩ := admission
    show ∃ a', (r.handleMessage env tbl arrival).admission = some a' ∧ _
    rw [handleMessage_admission arrival typed]
    split
    · rename_i taken
      exact answerAdmission_turn taken.1 host configured typed
    rw [configured]
    exact idle
  rw [(make_moves c r).admission (fun arrival kind call typed => admission ⟨arrival, kind, call, typed⟩)
    fun conn reason call => closes ⟨conn, reason, call⟩, configured]
  exact idle

theorem admission_taken (host : r.isHost = true) {a : HostAdmission} (configured : r.admission = some a)
    {arrival : Arrival} {kind : AdmissionKind} (typed : wellFormed arrival.msg = some (.admission kind))
    (on : r.terminal = none) (new : a.admitted arrival.conn = none) :
    r.make env tbl (.message arrival) = r.answerAdmission env arrival kind := by
  show r.handleMessage env tbl arrival = _
  have gate : r.admissionOk arrival.conn (.admission kind) (authorOf arrival.msg) = true := by
    unfold admissionOk
    rw [configured]
    simp [host, new, Kind.isAdmission]
  rw [handleMessage_admission arrival typed, if_pos ⟨on, gate⟩]

theorem readHello_keyed {msg : Message} {key nonce : Bytes} (read : readHello msg = some (key, nonce)) :
    key.length = keyLen := by
  unfold readHello at read
  obtain ⟨author, authored, rest⟩ := Option.bind_eq_some_iff.mp read
  obtain ⟨given, -, same⟩ := Option.bind_eq_some_iff.mp rest
  cases same
  exact of_decide_eq_true (Option.filter_eq_some_iff.mp authored).2

def Challenges (x : String) (c : Call) : Prop :=
  ∃ a key nonce, c = .message a ∧ a.conn = x ∧ wellFormed a.msg = some (.admission .hello) ∧
    readHello a.msg = some (key, nonce) ∧ nonce.length = nonceLen

def Answers (x : String) (c : Call) : Prop :=
  ∃ a said, c = .message a ∧ a.conn = x ∧ wellFormed a.msg = some (.admission .response) ∧ readResponse a.msg = some said

def Quiet (x : String) (c : Call) : Prop := ¬Challenges x c ∧ ¬Answers x c ∧ ∀ reason, c ≠ .disconnect x reason

/-- The challenge was asked for over the connection by the owner of its key, and since then the connection
was quiet. -/
def Asked (calls : List Call) (x : String) (p : Pending) : Prop :=
  ∃ earlier hello later, calls = earlier ++ .message hello :: later ∧ hello.conn = x ∧
    wellFormed hello.msg = some (.admission .hello) ∧ readHello hello.msg = some (p.joinerPubkey.val, p.clientNonce.val) ∧
    p.serverNonce = hello.drawn ∧ p.issuedAt = hello.now ∧ ∀ d ∈ later, Quiet x d

theorem Asked.later {p : Pending} (asked : Asked calls x p) (quiet : Quiet x c) :
    Asked (calls ++ [c]) x p := by
  obtain ⟨earlier, hello, later, rfl, conn, typed, read, drawn, issued, silent⟩ := asked
  refine ⟨earlier, hello, later ++ [c], by simp, conn, typed, read, drawn, issued, fun d member => ?_⟩
  obtain before | now := mem_append.mp member
  · exact silent d before
  rw [mem_singleton.mp now]
  exact quiet

theorem challenge_pending (host : r.isHost = true) {a a' : HostAdmission} (configured : r.admission = some a)
    (after : (r.make env tbl c).admission = some a') (on : r.terminal = none) (new : a.admitted x = none)
    (challenges : Challenges x c) : ∃ arrival p, c = .message arrival ∧ arrival.conn = x ∧
      wellFormed arrival.msg = some (.admission .hello) ∧
      readHello arrival.msg = some (p.joinerPubkey.val, p.clientNonce.val) ∧ p.serverNonce = arrival.drawn ∧
      p.issuedAt = arrival.now ∧ a'.pending x = some p := by
  obtain ⟨arrival, key, nonce, rfl, rfl, typed, read, sized⟩ := challenges
  have keyed := readHello_keyed read
  rw [admission_taken host configured typed on new] at after
  refine ⟨arrival, ⟨⟨nonce, sized⟩, arrival.drawn, ⟨key, keyed⟩, arrival.now⟩, rfl, rfl, typed, read, rfl, rfl, ?_⟩
  unfold answerAdmission at after
  rw [if_neg (by simp [host]), configured] at after
  simp only [read, onHello, isAdmitted, new, sized, keyed] at after
  cases after
  exact update_self ..

theorem answer_pending (host : r.isHost = true) {a a' : HostAdmission} (configured : r.admission = some a)
    (after : (r.make env tbl c).admission = some a') (on : r.terminal = none) (new : a.admitted x = none)
    (answers : Answers x c) : a'.pending x = none := by
  obtain ⟨arrival, said, rfl, rfl, typed, read⟩ := answers
  rw [admission_taken host configured typed on new] at after
  have used := (answerResponse_turn env trivial typed read a).2.1
  unfold answerAdmission at after
  rw [if_neg (by simp [host]), configured] at after
  dsimp only at after
  rw [read] at after
  dsimp only at after
  split at after
  · rename_i answered
    cases after
    rwa [answered] at used
  rename_i answered
  rw [answered] at used
  split at after <;> cases after <;> exact used

/-- What holds at a host after the calls `calls`. -/
structure Guarded (host : HostAdmission) (calls : List Call) (r : Room T) : Prop where
  isHost : r.isHost = true
  wire : r.wire = true
  admission : ∃ a, r.admission = some a ∧ HostAdmission.Same host a ∧
    (∀ x, a.admitted x ≠ none → a.pending x = none) ∧
    (r.terminal = none → ∀ x p, a.pending x = some p → Asked calls x p)

theorem Move.role {S : Stage} (move : Move env tbl c S r r') (wire : r.wire = true) :
    r'.wire = true ∧ r'.isHost = r.isHost ∧ (r'.terminal = none → r.terminal = none) := by
  cases move with
  | tabled tabled =>
    refine ⟨(congrArg Charter.wire tabled.charter).trans wire, congrArg Charter.isHost tabled.charter, fun on => ?_⟩
    obtain ⟨-, same⟩ | ⟨before, -⟩ := tabled.ends
    · exact same ▸ on
    exact before
  | refused _ same on => exact ⟨(congrArg Charter.wire same).trans wire, congrArg Charter.isHost same, fun _ => on⟩
  | promoted compat => exact nomatch wire.symm.trans compat
  | _ => exact ⟨wire, rfl, id⟩

variable (env tbl) in
theorem make_role (c : Call) (wire : r.wire = true) :
    (r.make env tbl c).wire = true ∧ (r.make env tbl c).isHost = r.isHost ∧
      ((r.make env tbl c).terminal = none → r.terminal = none) := by
  refine Moves.keeps (I := fun r' => r'.wire = true ∧ r'.isHost = r.isHost ∧ (r'.terminal = none → r.terminal = none))
    (fun r1 r2 kept move => ?_) (make_moves c r) ⟨wire, rfl, id⟩
  obtain ⟨wire, host, on⟩ := kept
  obtain ⟨wire', host', on'⟩ := move.role wire
  exact ⟨wire', host'.trans host, on ∘ on'⟩

theorem Guarded.make (guarded : Guarded host calls r) (c : Call) :
    Guarded host (calls ++ [c]) (r.make env tbl c) := by
  obtain ⟨isHost, wire, a, configured, same, apart, asked⟩ := guarded
  obtain ⟨wire', isHost', before⟩ := make_role env tbl c wire
  obtain ⟨a', after, same', turn⟩ := make_turn env tbl isHost configured c
  refine ⟨isHost'.trans isHost, wire', a', after, same.trans same', fun x admitted => ?_, fun on x p waits => ?_⟩
  · cases turn x with
    | idle kept pending =>
      rw [kept] at admitted
      obtain pending | pending := pending
      · exact pending.trans (apart x admitted)
      exact pending
    | challenged _ _ _ _ _ _ _ _ none => exact (admitted none).elim
    | accepted _ _ _ _ _ _ _ _ _ _ pending => exact pending
    | forgotten _ _ pending => exact pending
  -- a challenge that waits was just asked for, or waited before and the call is quiet
  have on := before on
  have fresh : ∀ p, a.pending x = some p → a.admitted x = none := by
    intro p waits
    by_contra admitted
    cases (apart x admitted).symm.trans waits
  cases turn x with
  | challenged _ call conn typed read drawn issued _ _ pending =>
    cases pending.symm.trans waits
    subst call
    exact ⟨calls, _, [], rfl, conn, typed, read, drawn, issued, nofun⟩
  | accepted _ _ _ _ _ _ _ _ _ _ pending => cases pending.symm.trans waits
  | forgotten _ _ pending => cases pending.symm.trans waits
  | idle _ pending =>
    obtain pending | pending := pending
    · have waited := pending.symm.trans waits
      have new := fresh p waited
      by_cases challenges : Challenges x c
      · obtain ⟨arrival, q, rfl, conn, typed, read, drawn, issued, given⟩ :=
          challenge_pending isHost configured after on new challenges
        cases given.symm.trans waits
        exact ⟨calls, arrival, [], rfl, conn, typed, read, drawn, issued, nofun⟩
      refine (asked on x p waited).later ⟨challenges, fun answers => ?_, fun reason call => ?_⟩
      · cases (answer_pending isHost configured after on new answers).symm.trans waits
      subst call
      have closed : a' = a.forget x := by
        have forgot := handleDisconnect_admission tbl env x reason r
        rw [configured] at forgot
        exact Option.some.inj (after.symm.trans forgot)
      rw [closed] at waits
      simp [HostAdmission.forget] at waits
    cases pending.symm.trans waits

structure Opened (host : HostAdmission) (r : Room T) : Prop where
  isHost : r.isHost = true
  wire : r.wire = true
  admission : r.admission = some host
  pending : ∀ x, host.pending x = none
  admitted : ∀ x, host.admitted x = none

theorem Opened.guarded (opened : Opened host r) : Guarded host [] r := by
  refine ⟨opened.isHost, opened.wire, host, opened.admission, .refl host, fun x _ => opened.pending x, fun _ x p waits => ?_⟩
  cases (opened.pending x).symm.trans waits

variable (env tbl) in
theorem Opened.run (opened : Opened host r) (calls : List Call) :
    Guarded host calls (run env tbl calls r) := by
  induction calls using reverseRecOn with
  | nil => exact opened.guarded
  | append_singleton before c ih =>
    rw [run_append]
    exact ih.make c

def admittedKey (x : String) (r : Room T) : Option Bytes := r.admission.bind fun a => a.admitted x

def waiting (x : String) (r : Room T) : Option Pending := r.admission.bind fun a => a.pending x

/-- The call answers the challenge with the server's nonce `s`, rightly or wrongly. -/
def Consumes (s : Nonce) (c : Call) (r : Room T) : Prop :=
  r.terminal = none ∧ ∃ x p, Answers x c ∧ r.waiting x = some p ∧ p.serverNonce = s

def drawnBy : Call → Option Nonce
  | .message a => if wellFormed a.msg = some (.admission .hello) then some a.drawn else none
  | _ => none

theorem split_unique {α β : Type} {f : α → Option β} {b : β} {xs ys xs' ys' : List α} {x x' : α}
    (nodup : ((xs ++ x :: ys).filterMap f).Nodup) (same : xs ++ x :: ys = xs' ++ x' :: ys') (first : f x = some b)
    (second : f x' = some b) : xs = xs' ∧ x = x' ∧ ys = ys' := by
  have absent : ∀ (us vs : List α) (u v : α), f u = some b → f v = some b → v ∈ vs →
      ¬((us ++ u :: vs).filterMap f).Nodup := by
    intro us vs u v hu hv member nodup
    rw [filterMap_append, filterMap_cons_some hu] at nodup
    exact (nodup_cons.mp (nodup_append.mp nodup).2.1).1 (mem_filterMap.mpr ⟨v, member, hv⟩)
  obtain ⟨as, rfl, rest⟩ | ⟨as, rfl, rest⟩ := append_eq_append_iff.mp same
  · cases as with
    | nil => exact ⟨by simp, (cons.inj rest).1, (cons.inj rest).2⟩
    | cons z as =>
      obtain ⟨rfl, rfl⟩ := cons.inj rest
      exact (absent xs _ x x' first second (by simp) nodup).elim
  cases as with
  | nil => exact ⟨by simp, (cons.inj rest).1.symm, (cons.inj rest).2.symm⟩
  | cons z as =>
    obtain ⟨rfl, rfl⟩ := cons.inj rest
    rw [same] at nodup
    exact (absent xs' _ x' x second first (by simp) nodup).elim

theorem consumed_once (opened : Opened host r) {calls before between after : List Call} {c d : Call}
    (distinct : (calls.filterMap drawnBy).Nodup) (split : calls = before ++ c :: (between ++ d :: after)) {s : Nonce}
    (first : Consumes s c (run env tbl before r)) : ¬Consumes s d (run env tbl (before ++ c :: between) r) := by
  rintro ⟨on', x', p', -, waits', server'⟩
  obtain ⟨on, x, p, answers, waits, server⟩ := first
  obtain ⟨-, -, a, configured, -, -, asked⟩ := opened.run env tbl before
  obtain ⟨-, -, a', configured', -, -, asked'⟩ := opened.run env tbl (before ++ c :: between)
  unfold waiting at waits waits'
  rw [configured] at waits
  rw [configured'] at waits'
  obtain ⟨earlier, hello, later, hb, conn, typed, -, drawn, -, -⟩ := asked on x p waits
  obtain ⟨earlier', hello', later', hb', conn', typed', -, drawn', -, quiet⟩ := asked' on' x' p' waits'
  have here : calls = earlier ++ .message hello :: (later ++ c :: (between ++ d :: after)) := by
    rw [split, hb]
    simp
  have there : calls = earlier' ++ .message hello' :: (later' ++ d :: after) := by
    have : calls = (before ++ c :: between) ++ d :: after := by rw [split]; simp
    rw [this, hb']
    simp
  have draws : drawnBy (.message hello) = some s := by
    unfold drawnBy
    dsimp only
    rw [if_pos typed, ← drawn, server]
  have draws' : drawnBy (.message hello') = some s := by
    unfold drawnBy
    dsimp only
    rw [if_pos typed', ← drawn', server']
  obtain ⟨-, same, rest⟩ := split_unique (here ▸ distinct) (here.symm.trans there) draws draws'
  cases same
  have cut : later' = later ++ c :: between := by
    have : (later ++ c :: between) ++ d :: after = later' ++ d :: after := by rw [← rest]; simp
    exact (append_cancel_right this).symm
  have member : c ∈ later' := by
    rw [cut]
    exact mem_append_right _ (.head _)
  rw [← conn', conn] at quiet
  exact (quiet c member).2.1 answers

theorem message_stopped (guarded : Guarded host calls r) {a : Arrival} {kind : Kind}
    (typed : wellFormed a.msg = some kind) (other : kind.isAdmission = false) (remote : r.localConnId ≠ some a.conn) :
    r.handleMessage env tbl a = r ∨ ∃ key, r.admittedKey a.conn = some key ∧ authorOf a.msg = some (Hex.encode key) := by
  obtain ⟨isHost, wire, adm, configured, -⟩ := guarded
  cases gate : r.admissionOk a.conn kind (authorOf a.msg) with
  | false =>
    refine .inl ?_
    unfold handleMessage
    rw [typed]
    dsimp only
    split
    · rfl
    rw [gate]
    rfl
  | true =>
    refine .inr ?_
    unfold admissionOk at gate
    rw [if_neg remote] at gate
    split at gate
    · cases other.symm.trans gate
    rw [configured] at gate
    dsimp only at gate
    unfold admittedKey
    rw [configured]
    cases admitted : adm.admitted a.conn with
    | none =>
      rw [admitted] at gate
      cases other.symm.trans gate
    | some key =>
      rw [admitted] at gate
      dsimp only at gate
      refine ⟨key, admitted, ?_⟩
      split at gate
      · simp [wire] at gate
      · simp [wire] at gate
      rename_i author _ signed
      rw [signed, of_decide_eq_true gate]

/-- Admission binds a connection to one key that proved the invite. `Computed tr m` says that `m` was
computed for the transcript `tr`. -/
theorem admission_binds (env : Env) (tbl : Table T) {r : Room T} {host : HostAdmission} (opened : Opened host r)
    (calls : List Call) (distinct : (calls.filterMap drawnBy).Nodup) (Computed : Bytes → Bytes → Prop)
    (sound : ∀ tr given, verifyMac env.mac host.secret.val tr given = true → Computed tr given) :
    (∀ before c after x key, calls = before ++ c :: after → (run env tbl before r).admittedKey x = none →
      (run env tbl (before ++ [c]) r).admittedKey x = some key →
      ∃ a given tr p, c = .message a ∧ a.conn = x ∧ wellFormed a.msg = some (.admission .response) ∧
        readResponse a.msg = some (key, p.clientNonce.val, p.serverNonce.val, given) ∧
        p.joinerPubkey.val = key ∧ (run env tbl before r).waiting x = some p ∧ Asked before x p ∧
        a.now - p.issuedAt < host.ttl ∧
        transcript host.token.val host.hostPubkey.val key p.clientNonce.val p.serverNonce.val = .ok tr ∧ Computed tr given ∧
        ∀ t h j m n, transcript t h j m n = .ok tr →
          t = host.token.val ∧ h = host.hostPubkey.val ∧ j = key ∧ m = p.clientNonce.val ∧ n = p.serverNonce.val) ∧
    (∀ before c between d after s, calls = before ++ c :: (between ++ d :: after) →
      Consumes s c (run env tbl before r) → ¬Consumes s d (run env tbl (before ++ c :: between) r)) ∧
    (∀ before c after x key, calls = before ++ c :: after → (run env tbl before r).admittedKey x = some key →
      (run env tbl (before ++ [c]) r).admittedKey x = some key ∨ ∃ reason, c = .disconnect x reason) ∧
    ∀ before a after kind, calls = before ++ .message a :: after → wellFormed a.msg = some kind → kind.isAdmission = false →
      (run env tbl before r).localConnId ≠ some a.conn →
      run env tbl (before ++ [.message a]) r = run env tbl before r ∨
        ∃ key, (run env tbl before r).admittedKey a.conn = some key ∧ authorOf a.msg = some (Hex.encode key) := by
  refine ⟨fun before c after x key _ new now => ?_, fun before c between d after s split => ?_,
    fun before c after x key _ held => ?_, fun before a after kind _ typed other remote => ?_⟩
  · obtain ⟨isHost, -, a, configured, same, -, asked⟩ := opened.run env tbl before
    obtain ⟨a', after', -, turn⟩ := make_turn env tbl isHost configured c
    unfold admittedKey at new now
    rw [configured] at new
    rw [run_append] at now
    change Option.bind (Room.make env tbl c (run env tbl before r)).admission _ = _ at now
    rw [after'] at now
    change a.admitted x = none at new
    change a'.admitted x = some key at now
    cases turn x with
    | idle kept => cases new.symm.trans (kept.symm.trans now)
    | challenged _ _ _ _ _ _ _ _ none => cases none.symm.trans now
    | forgotten _ none => cases none.symm.trans now
    | @accepted arrival p given tr live call conn typed read waits fresh signed verified admitted _ =>
      cases admitted.symm.trans now
      rw [same.token, same.hostPubkey] at signed
      rw [same.secret] at verified
      rw [same.ttl] at fresh
      refine ⟨arrival, given, tr, p, call, conn, typed, read, rfl, ?_, asked live x p waits, fresh, signed,
        sound tr given verified, fun t h j m n other => transcript_injective other signed⟩
      unfold waiting
      rw [configured]
      exact waits
  · exact consumed_once opened distinct split
  · obtain ⟨isHost, -, a, configured, -, apart, -⟩ := opened.run env tbl before
    obtain ⟨a', after', -, turn⟩ := make_turn env tbl isHost configured c
    unfold admittedKey at held ⊢
    rw [configured] at held
    rw [run_append]
    change a.admitted x = some key at held
    change Option.bind (Room.make env tbl c (run env tbl before r)).admission _ = _ ∨ _
    rw [after']
    change a'.admitted x = some key ∨ _
    have idle : a.pending x = none := apart x (by rw [held]; exact nofun)
    cases turn x with
    | idle kept => exact .inl (kept.trans held)
    | challenged _ _ _ _ _ _ _ new => cases new.symm.trans held
    | accepted _ _ _ _ _ waits => cases idle.symm.trans waits
    | forgotten call => exact .inr ⟨_, call⟩
  rw [run_append]
  exact message_stopped (opened.run env tbl before) typed other remote

namespace Sample

def waitingHost : Room Unit :=
  { isHost := true, wire := true, admission := some lobby, joinerAdmission := none, hostAuthenticated := false, table := () }

theorem waitingHost_opened : Opened lobby waitingHost := ⟨rfl, rfl, rfl, fun _ => rfl, fun _ => rfl⟩

def hello : Call :=
  .message (arrival "g" (envelope "admission_hello" (key 2) [("client_nonce", .str (Hex.encode (nonce 5).val))]))

def response : Call :=
  .message (arrival "g" (envelope "admission_response" (key 2) [("client_nonce", .str (Hex.encode (nonce 5).val)),
    ("server_nonce", .str (Hex.encode (nonce 0).val)), ("mac", .str (Hex.encode (key 0)))]))

end Sample

open Room.Sample in
theorem admission_binds_sample :
    (run Sample.env Sample.table [hello, response] waitingHost).admittedKey "g" = some (key 2) ∧
      ∃ p, (run Sample.env Sample.table [hello] waitingHost).waiting "g" = some p ∧ Asked [hello] "g" p := by
  have admitted : (run Sample.env Sample.table [hello, response] waitingHost).admittedKey "g" =
      some (key 2) := by decide +kernel
  refine ⟨admitted, ?_⟩
  obtain ⟨_, _, _, p, _, _, _, _, _, waits, asked, _⟩ := (admission_binds Sample.env Sample.table
    waitingHost_opened [hello, response] (by decide +kernel)
    (fun tr given => verifyMac Sample.env.mac lobby.secret.val tr given = true) (fun _ _ => id)).1
    [hello] response [] "g" (key 2) rfl (by decide +kernel) admitted
  exact ⟨p, waits, asked⟩

end Room

end Holdem
