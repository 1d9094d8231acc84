import Holdem.Room.Frame

/-!
The roster and its signing keys. A key on record for a connection stays, and every entry carries the key
on record; on a joiner, the entry flagged as the host carries the pinned one.
-/

namespace Holdem

open List

open Option (getD_none getD_some)

namespace Room

variable {T : Type} {env : Env} {tbl : Table T} {r r' : Room T} {pinned host : String} {rows : List RosterRow}
  {p : RosterRow}

structure KeysOnRecord (r : Room T) : Prop where
  nonempty : ∀ cid, r.rosterSigningKeys cid ≠ some ""
  entry : ∀ cid p, r.players.get cid = some p → p.signingKey = (r.rosterSigningKeys cid).getD ""

section

variable (keys : KeysOnRecord r)
include keys

theorem KeysOnRecord.currentKey (cid : String) : r.currentKey cid = (r.rosterSigningKeys cid).getD "" := by
  have nonempty := keys.nonempty cid
  have entry := keys.entry cid
  unfold Room.currentKey
  cases recorded : r.rosterSigningKeys cid with
  | none =>
    cases existing : r.players.get cid with
    | none => rfl
    | some p => simpa [recorded] using entry p existing
  | some key =>
    split <;> simp_all

theorem KeysOnRecord.adoptedKey (cid claimed : String) :
    r.adoptedKey cid claimed = (r.rosterSigningKeys cid).getD claimed := by
  have nonempty := keys.nonempty cid
  unfold Room.adoptedKey
  rw [keys.currentKey]
  cases recorded : r.rosterSigningKeys cid with
  | none => simp
  | some key =>
    have : key ≠ "" := fun empty => nonempty (recorded.trans (by rw [empty]))
    simp [this]

theorem KeysOnRecord.setPlayer_keys (p : Player) (cid : String) : (r.setPlayer p).rosterSigningKeys cid =
      if cid = p.connId ∧ (r.rosterSigningKeys p.connId).getD p.signingKey ≠ "" then
        some ((r.rosterSigningKeys p.connId).getD p.signingKey)
      else r.rosterSigningKeys cid := by
  unfold setPlayer adoptSigningKey
  rw [keys.adoptedKey]
  dsimp only
  split
  · simp_all
  by_cases same : cid = p.connId <;> simp_all

theorem KeysOnRecord.setPlayer_players (p : Player) (cid : String) : (r.setPlayer p).players.get cid =
      if cid = p.connId then some { p with signingKey := (r.rosterSigningKeys p.connId).getD p.signingKey }
      else r.players.get cid := by
  rw [← keys.adoptedKey]
  exact Dict.get_set ..

theorem KeysOnRecord.setPlayer (p : Player) : KeysOnRecord (r.setPlayer p) := by
  refine ⟨fun cid => ?_, fun cid q found => ?_⟩
  · rw [keys.setPlayer_keys]
    split
    · rename_i given
      intro empty
      exact given.2 (Option.some.inj empty)
    exact keys.nonempty cid
  rw [keys.setPlayer_players] at found
  rw [keys.setPlayer_keys]
  split at found
  · rename_i same
    cases found
    subst same
    by_cases given : (r.rosterSigningKeys p.connId).getD p.signingKey = ""
    · have absent : r.rosterSigningKeys p.connId = none := by
        cases recorded : r.rosterSigningKeys p.connId with
        | none => rfl
        | some key =>
          rw [recorded, getD_some] at given
          exact absurd (recorded.trans (by rw [given])) (keys.nonempty _)
      simp_all
    simp [given]
  rename_i other
  simpa [other] using keys.entry cid q found

theorem KeysOnRecord.setPlayer_recorded (p : Player) {cid key : String}
    (recorded : r.rosterSigningKeys cid = some key) : (r.setPlayer p).rosterSigningKeys cid = some key := by
  rw [keys.setPlayer_keys]
  split
  · rename_i given
    obtain ⟨rfl, -⟩ := given
    rw [recorded, getD_some]
  exact recorded

end

def Fits (pinned key : String) : Prop := key = "" ∨ key = pinned

def HostKeysPinned (pinned : String) (r : Room T) : Prop :=
  ∀ cid p, r.players.get cid = some p → p.isHost = true → Fits pinned p.signingKey

/-- The first key that the rows give `cid`, empty if they give none. -/
def firstKey (cid : String) (rows : List RosterRow) : String :=
  (((rows.filter (·.id = cid)).map (·.signingKey.getD "")).find? (· ≠ "")).getD ""

/-- The last `is_host` that the rows give `cid`. -/
def lastFlag (cid : String) (rows : List RosterRow) : Option Bool :=
  (rows.filter (·.id = cid)).reverse.findSome? RosterRow.isHost

/-- A connection that the rows make a host has the pinned key or none: the one on record or, without one,
the first that they give it. Nothing is asked where the host's row is seen to claim another key. -/
def FlagsPinned (pinned : String) (rows : List RosterRow) (r : Room T) : Prop :=
  ∀ cid ∈ rows.map RosterRow.id, cid ≠ "" → lastFlag cid rows = some true →
    (∀ p ∈ rows, p.id = cid → p.flagged (r.players.get cid) = true → Fits pinned (p.claimed (r.players.get cid))) →
    Fits pinned ((r.rosterSigningKeys cid).getD (firstKey cid rows))

instance decidableFits (pinned key : String) : Decidable (Fits pinned key) := inferInstanceAs (Decidable (_ ∨ _))

instance decidableFlagsPinned (pinned : String) (rows : List RosterRow) (r : Room T) : Decidable (FlagsPinned pinned rows r) :=
  inferInstanceAs (Decidable (∀ cid ∈ _, _ → _ → (∀ p ∈ _, _ → _ → _) → _))

theorem RosterRow.entry_connId (p : RosterRow) (existing : Option Player) : (p.entry existing).connId = p.id := by
  cases existing <;> rfl

theorem RosterRow.entry_isHost (p : RosterRow) (existing : Option Player) :
    (p.entry existing).isHost = p.flagged existing := by
  cases existing <;> rfl

theorem RosterRow.entry_signingKey (p : RosterRow) (existing : Option Player) :
    (p.entry existing).signingKey = p.claimed existing := by
  cases existing <;> rfl

theorem firstKey_cons (cid : String) (p : RosterRow) (rows : List RosterRow) : firstKey cid (p :: rows) =
    if p.id = cid ∧ p.signingKey.getD "" ≠ "" then p.signingKey.getD "" else firstKey cid rows := by
  unfold firstKey
  by_cases same : p.id = cid <;> by_cases given : p.signingKey.getD "" = "" <;> simp [same, given]

theorem lastFlag_cons (cid : String) (p : RosterRow) (rows : List RosterRow) :
    lastFlag cid (p :: rows) = (lastFlag cid rows).or (if p.id = cid then p.isHost else none) := by
  unfold lastFlag
  by_cases same : p.id = cid
  · simp [same, findSome?_append]
  simp [same]

theorem firstKey_given (cid : String) (rows : List RosterRow) :
    firstKey cid rows = "" ∨ ∃ p ∈ rows, p.id = cid ∧ p.signingKey = some (firstKey cid rows) := by
  induction rows with
  | nil => exact .inl rfl
  | cons p rows ih =>
    rw [firstKey_cons]
    split
    · rename_i given
      refine .inr ⟨p, .head _, given.1, ?_⟩
      cases key : p.signingKey with
      | none => simp [key] at given
      | some key => rfl
    obtain none | ⟨q, member, named⟩ := ih
    · exact .inl none
    exact .inr ⟨q, .tail _ member, named⟩

theorem lastFlag_member {cid : String} {flag : Bool} (given : lastFlag cid rows = some flag) :
    cid ∈ rows.map RosterRow.id := by
  obtain ⟨p, member, -⟩ := exists_of_findSome?_eq_some given
  simp only [mem_reverse, mem_filter, decide_eq_true_eq] at member
  exact mem_map.mpr ⟨p, member⟩

theorem lastFlag_silent {cid : String} (silent : lastFlag cid rows = none) (member : p ∈ rows) (same : p.id = cid) :
    p.isHost = none := by
  unfold lastFlag at silent
  rw [findSome?_eq_none_iff] at silent
  exact silent p (by simp [member, same])

section

variable {refused : List String} {cid : String} (keys : KeysOnRecord r) (named : cid ≠ "") (kept : cid ∉ refused)
include keys named kept

theorem mergeRow_key (p : RosterRow) (later : String) : ((mergeRow refused r p).rosterSigningKeys cid).getD later =
    (r.rosterSigningKeys cid).getD (if p.id = cid ∧ p.signingKey.getD "" ≠ "" then p.signingKey.getD "" else later) := by
  unfold mergeRow
  by_cases same : p.id = cid
  · subst same
    rw [if_neg (not_or.mpr ⟨named, kept⟩), keys.setPlayer_keys, RosterRow.entry_connId, RosterRow.entry_signingKey]
    have nonempty := keys.nonempty p.id
    cases recorded : r.rosterSigningKeys p.id with
    | some key =>
      rw [recorded] at nonempty
      simp_all
    | none =>
      have claimed : p.claimed (r.players.get p.id) = p.signingKey.getD "" := by
        unfold RosterRow.claimed
        cases existing : r.players.get p.id with
        | none => rfl
        | some q =>
          rw [Option.map_some, getD_some, keys.entry p.id q existing, recorded, getD_none]
      by_cases given : p.signingKey.getD "" = "" <;> simp [claimed, given]
  simp only [same, false_and, if_false]
  split
  · rfl
  rw [keys.setPlayer_keys, RosterRow.entry_connId, if_neg fun both => same both.1.symm]

theorem mergeRow_flag (p : RosterRow) : (((mergeRow refused r p).players.get cid).map Player.isHost).getD false =
    (if p.id = cid then p.isHost else none).getD (((r.players.get cid).map Player.isHost).getD false) := by
  unfold mergeRow
  by_cases same : p.id = cid
  · subst same
    rw [if_neg (not_or.mpr ⟨named, kept⟩), if_pos rfl, keys.setPlayer_players, RosterRow.entry_connId, if_pos rfl]
    exact RosterRow.entry_isHost ..
  rw [if_neg same]
  split
  · rfl
  rw [keys.setPlayer_players, RosterRow.entry_connId, if_neg (Ne.symm same)]
  rfl

end

/-- What a message makes of the roster: the entries it may not touch stay, and the others have the key on
record, else the first given, and the last flag given, else the one before. -/
theorem foldl_mergeRow (refused : List String) (rows : List RosterRow) (keys : KeysOnRecord r) :
    KeysOnRecord (rows.foldl (mergeRow refused) r) ∧
      ∀ cid, (cid = "" ∨ cid ∈ refused → (rows.foldl (mergeRow refused) r).players.get cid = r.players.get cid) ∧
        (cid ≠ "" → cid ∉ refused →
          ((rows.foldl (mergeRow refused) r).rosterSigningKeys cid).getD "" =
            (r.rosterSigningKeys cid).getD (firstKey cid rows) ∧
          (((rows.foldl (mergeRow refused) r).players.get cid).map Player.isHost).getD false =
            (lastFlag cid rows).getD (((r.players.get cid).map Player.isHost).getD false)) := by
  induction rows generalizing r with
  | nil => exact ⟨keys, fun _ => ⟨fun _ => rfl, fun _ _ => ⟨rfl, rfl⟩⟩⟩
  | cons p rows ih =>
    have next : KeysOnRecord (mergeRow refused r p) := by
      unfold mergeRow
      split
      · exact keys
      exact keys.setPlayer _
    obtain ⟨last, each⟩ := ih next
    refine ⟨last, fun cid => ⟨fun untouched => ?_, fun named kept => ?_⟩⟩
    · rw [foldl_cons, (each cid).1 untouched]
      unfold mergeRow
      split
      · rfl
      rename_i taken
      rw [keys.setPlayer_players, RosterRow.entry_connId, if_neg]
      rintro rfl
      exact taken untouched
    obtain ⟨key, flag⟩ := (each cid).2 named kept
    rw [foldl_cons, key, flag, mergeRow_key keys named kept, mergeRow_flag keys named kept, firstKey_cons, lastFlag_cons]
    refine ⟨rfl, ?_⟩
    cases lastFlag cid rows <;> rfl

structure Joined (pinned host : String) (r : Room T) : Prop where
  joiner : r.isHost = false
  here : r.pinnedHostPubkey = some pinned
  connected : r.hostConnId = some host
  keys : KeysOnRecord r
  hosts : HostKeysPinned pinned r

theorem setPlayer_same (p : Player) (r : Room T) : (r.setPlayer p).isHost = r.isHost ∧
    (r.setPlayer p).pinnedHostPubkey = r.pinnedHostPubkey ∧ (r.setPlayer p).hostConnId = r.hostConnId := by
  unfold setPlayer adoptSigningKey
  split <;> exact ⟨rfl, rfl, rfl⟩

theorem foldl_mergeRow_same (refused : List String) (rows : List RosterRow) (r : Room T) :
    (rows.foldl (mergeRow refused) r).isHost = r.isHost ∧
      (rows.foldl (mergeRow refused) r).pinnedHostPubkey = r.pinnedHostPubkey ∧
      (rows.foldl (mergeRow refused) r).hostConnId = r.hostConnId := by
  induction rows generalizing r with
  | nil => exact ⟨rfl, rfl, rfl⟩
  | cons p rows ih =>
    obtain ⟨role, pin, conn⟩ := ih (mergeRow refused r p)
    rw [foldl_cons, role, pin, conn]
    unfold mergeRow
    split
    · exact ⟨rfl, rfl, rfl⟩
    exact setPlayer_same ..

theorem Joined.merged (joined : Joined pinned host r) (consistent : FlagsPinned pinned rows r) :
    Joined pinned host (rows.foldl (mergeRow (r.refusedRows rows)) r) := by
  obtain ⟨role, pin, conn⟩ := foldl_mergeRow_same (r.refusedRows rows) rows r
  obtain ⟨keys, each⟩ := foldl_mergeRow (r.refusedRows rows) rows joined.keys
  refine ⟨role.trans joined.joiner, pin.trans joined.here, conn.trans joined.connected, keys, fun cid p found flag => ?_⟩
  by_cases untouched : cid = "" ∨ cid ∈ r.refusedRows rows
  · exact joined.hosts cid p ((each cid).1 untouched ▸ found) flag
  obtain ⟨named, kept⟩ := not_or.mp untouched
  obtain ⟨key, last⟩ := (each cid).2 named kept
  rw [found, Option.map_some, getD_some, flag] at last
  rw [keys.entry cid p found, key]
  have checked : ∀ q ∈ rows, q.id = cid → q.flagged (r.players.get cid) = true → Fits pinned (q.claimed (r.players.get cid)) := by
    rintro q member rfl flagged
    by_contra other
    refine kept ?_
    unfold refusedRows
    rw [joined.here]
    exact mem_map.mpr ⟨q, mem_filter.mpr ⟨member, by simpa [RosterRow.misnames, named, flagged, Fits] using other⟩, rfl⟩
  cases given : lastFlag cid rows with
  | some last' =>
    rw [given, getD_some] at last
    exact consistent cid (lastFlag_member given) named (given.trans (by rw [← last])) checked
  | none =>
    -- the rows do not speak of the host, so the entry was the host before
    rw [given, getD_none] at last
    cases existing : r.players.get cid with
    | none => simp [existing] at last
    | some q =>
      rw [existing, Option.map_some, getD_some] at last
      have fits := joined.hosts cid q existing last.symm
      rw [joined.keys.entry cid q existing] at fits
      cases recorded : r.rosterSigningKeys cid with
      | some key => rwa [recorded] at fits
      | none =>
        obtain empty | ⟨p, member, same, key⟩ := firstKey_given cid rows
        · exact .inl empty
        have := checked p member same (by simp [RosterRow.flagged, lastFlag_silent given member same, existing, ← last])
        simpa [RosterRow.claimed, key] using this

theorem Joined.onPlayerList (joined : Joined pinned host r) (conn : String) (msg : Message)
    (consistent : ∀ rows, readRoster msg = some rows → FlagsPinned pinned rows r) :
    Joined pinned host (r.onPlayerList conn msg) := by
  unfold Room.onPlayerList
  split
  · exact joined
  split
  · exact joined
  split
  · exact joined
  rename_i rows read
  have merged := joined.merged (consistent rows read)
  -- leaving out the entries that the message does not name keeps both facts
  have left : ∀ cid p, (if (rows.foldl (mergeRow (r.refusedRows rows)) r).stage = .lobby then
      (rows.foldl (mergeRow (r.refusedRows rows)) r).players.keep fun cid => cid ∈ rows.map RosterRow.id
      else (rows.foldl (mergeRow (r.refusedRows rows)) r).players).get cid = some p →
      (rows.foldl (mergeRow (r.refusedRows rows)) r).players.get cid = some p := by
    intro cid p found
    split at found
    · rw [Dict.get_keep] at found
      split at found
      · exact found
      cases found
    exact found
  exact ⟨merged.joiner, merged.here, merged.connected,
    ⟨merged.keys.nonempty, fun cid p found => merged.keys.entry cid p (left cid p found)⟩,
    fun cid p found => merged.hosts cid p (left cid p found)⟩

def received (env : Env) (tbl : Table T) (arrivals : List Arrival) (r : Room T) : Room T :=
  arrivals.foldl (fun r a => r.handleMessage env tbl a) r

theorem Joined.handleMessage (joined : Joined pinned host r) {a : Arrival} (list : wellFormed a.msg = some .playerList)
    (consistent : ∀ rows, readRoster a.msg = some rows → FlagsPinned pinned rows r) :
    Joined pinned host (r.handleMessage env tbl a) := by
  unfold Room.handleMessage
  rw [list]
  dsimp only
  split
  · exact joined
  split
  · exact joined
  cases linked : r.chain a.conn a.msg with
  | none => exact joined
  | some r' =>
    have same := (chain_tabled (P := fun _ => False) linked).charter
    simp only [charter, Charter.mk.injEq] at same
    obtain ⟨role, -, -, -, -, pin, players, keys, -, -, conn, -⟩ := same
    refine Joined.onPlayerList ⟨role.trans joined.joiner, pin.trans joined.here, conn.trans joined.connected,
      ⟨keys ▸ joined.keys.nonempty, players ▸ keys ▸ joined.keys.entry⟩, fun cid p found => ?_⟩ _ _ ?_
    · exact joined.hosts cid p (players ▸ found)
    intro rows read cid
    rw [keys, players]
    exact consistent rows read cid

variable (env tbl)

/-- As long as no connection is made the host with another key on record, or another key that comes
first, every entry flagged as the host has no key or the pinned one, after every message. Rows that
claim another key for the host may come: they are refused. -/
theorem hostKeys_pinned (joined : Joined pinned host r) (arrivals : List Arrival)
    (lists : ∀ a ∈ arrivals, wellFormed a.msg = some .playerList)
    (consistent : ∀ before a after rows, arrivals = before ++ a :: after → readRoster a.msg = some rows →
      FlagsPinned pinned rows (received env tbl before r)) :
    ∀ before after, arrivals = before ++ after → HostKeysPinned pinned (received env tbl before r) := by
  have kept : ∀ before after, arrivals = before ++ after → Joined pinned host (received env tbl before r) := by
    intro before
    induction before using reverseRecOn with
    | nil => exact fun _ _ => joined
    | append_singleton before a ih =>
      intro after split
      rw [append_assoc] at split
      have member : a ∈ arrivals := split ▸ mem_append_right _ (.head _)
      unfold received
      rw [foldl_append]
      exact Joined.handleMessage (ih _ split) (lists a member) fun rows read => consistent before a after rows split read
  exact fun before after split => (kept before after split).hosts

namespace Sample

def row (cid : String) (fields : Message) : Json := .obj (("conn_id", .str cid) :: fields)

def flag : String × Json := ("is_host", .bool true)

def signs (key : String) : String × Json := ("ed25519_pubkey_hex", .str key)

def roster (rows : List Json) : Arrival := arrival "h" (envelope "player_list" hostKey [("players", .arr rows)])

/-- The host and a guest, whom two further messages try to make the host or to give the host's place. -/
def rosters : List Arrival :=
  [roster [row "x" [signs "another"], row "h" [flag], row "h" [signs (Hex.encode hostKey)]],
    roster [row "x" [flag, signs "another"], row "h" [signs "another"]],
    roster [row "x" [], row "h" [signs "another", ("is_host", .bool false)]]]

/-- A guest with a key of its own, that the next message flags as the host under the pinned key. -/
def moving : List Arrival :=
  [roster [row "x" [signs "another"]], roster [row "x" [flag, signs (Hex.encode hostKey)]]]

theorem joiner_joined : Joined (Hex.encode hostKey) "h" joiner :=
  ⟨rfl, rfl, rfl, ⟨nofun, nofun⟩, nofun⟩

end Sample

open Room.Sample in
theorem hostKeys_pinned_host :
    (["x", "h"].map fun cid => ((received Sample.env Sample.table (rosters.take 2) joiner).players.get cid).map
        fun p => (p.isHost, p.signingKey)) = [some (false, "another"), some (true, Hex.encode hostKey)] ∧
      HostKeysPinned (Hex.encode hostKey) (received Sample.env Sample.table rosters joiner) := by
  have pinned : ∀ k : Fin 3, ∀ a ∈ rosters[k.val]?, ∀ rows ∈ readRoster a.msg, FlagsPinned (Hex.encode hostKey)
      rows (received Sample.env Sample.table (rosters.take k) joiner) := by decide +kernel
  refine ⟨by decide +kernel, hostKeys_pinned Sample.env Sample.table joiner_joined rosters (by decide +kernel) ?_
    rosters [] rfl⟩
  intro before a after rows split read
  have length : before.length < 3 := by
    have := congrArg length split
    simp [rosters] at this
    omega
  have here := pinned ⟨before.length, length⟩ a (by simp [split]) rows read
  rwa [split, take_left] at here

open Room.Sample in
/-- The check goes by what a row claims and the merge by what is on record: an entry that came in as a
guest becomes the host and keeps its key. -/
theorem hostKeys_moved :
    ((received Sample.env Sample.table moving joiner).players.get "x").map
      (fun p => (p.isHost, p.signingKey)) = some (true, "another") ∧ "another" ≠ Hex.encode hostKey := by
  decide +kernel

end Room

end Holdem
