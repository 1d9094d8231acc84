import Holdem.Room.Authority

/-!
The seats and their keys. What is on record is written once, and the keys that a hand binds to the seats
are those on record for them.
-/

namespace Holdem

open List

namespace Room

variable {T : Type} {env : Env} {tbl : Table T} {r r' r'' : Room T} {c : Call} {S : Stage} {ctx : Inbound}

theorem duplicateSeatIds_nil {seen dupes order : List String} (none : duplicateSeatIds seen dupes order = []) :
    dupes = [] ∧ order.Nodup ∧ ∀ cid ∈ order, cid ∉ seen := by
  induction order generalizing seen dupes with
  | nil => exact ⟨none, nodup_nil, nofun⟩
  | cons cid rest ih =>
    unfold duplicateSeatIds at none
    split at none
    · -- an id that comes again is never forgotten
      have empty := (ih none).1
      split at empty
      · rename_i member
        rw [empty] at member
        cases member
      simp at empty
    rename_i new
    obtain ⟨empty, nodup, disjoint⟩ := ih none
    refine ⟨empty, List.nodup_cons.mpr ⟨fun member => ?_, nodup⟩, fun x member => ?_⟩
    · exact disjoint cid member (by simp)
    obtain rfl | later := List.mem_cons.mp member
    · exact new
    exact fun before => disjoint x later (mem_append_left _ before)

theorem lookup_zipIdx {α β : Type} (g : α → β) (xs : List α) (k i : ℕ) :
    ((xs.zipIdx k).map fun x => (x.2, g x.1)).lookup (k + i) = xs[i]?.map g := by
  induction xs generalizing k i with
  | nil => rfl
  | cons x xs ih =>
    rw [zipIdx_cons, map_cons, lookup_cons]
    cases i with
    | zero => simp
    | succ i =>
      have later : (k + (i + 1) == k) = false := by simp
      rw [later, getElem?_cons_succ, ← ih (k + 1) i, Nat.add_assoc, Nat.add_comm 1 i]

/-- The keys of the seats are complete: one for each seat, and that one is on record for the connection
in the seat. -/
structure Frozen (order : List String) (record : String → Option String) (seatKeys : List (ℕ × String)) : Prop where
  nodup : order.Nodup
  seats : seatKeys.map Prod.fst = List.range order.length
  key : ∀ seat cid, order[seat]? = some cid → ∃ key, key ≠ "" ∧ record cid = some key ∧ seatKeys.lookup seat = some key

theorem rosterKeys_complete (keys : KeysOnRecord r) (full : r.rosterKeys.length = r.seatOrder.length) :
    (∀ cid ∈ r.seatOrder, r.rosterSigningKeys cid ≠ none) ∧
      r.rosterKeys = r.seatOrder.zipIdx.map fun x => (x.2, (r.rosterSigningKeys x.1).getD "") := by
  have read : ∀ cid p, r.players.get cid = some p → p.signingKey ≠ "" →
      r.rosterSigningKeys cid ≠ none ∧ p.signingKey = (r.rosterSigningKeys cid).getD "" := by
    intro cid p entry given
    have recorded := keys.entry cid p entry
    refine ⟨fun absent => ?_, recorded⟩
    rw [absent] at recorded
    exact given recorded
  have all := List.filterMap_length_eq_length.mp (full.trans List.length_zipIdx.symm)
  refine ⟨fun cid member => ?_, ?_⟩
  · obtain ⟨seat, bound, at'⟩ := List.mem_iff_getElem.mp member
    have present := all (cid, seat) (List.mem_zipIdx_iff_getElem?.mpr (List.getElem?_eq_some_iff.mpr ⟨bound, at'⟩))
    obtain ⟨pair, found⟩ := Option.isSome_iff_exists.mp present
    obtain ⟨p, entry, given, -⟩ := rosterKeys_found found
    exact (read cid p entry given).1
  unfold rosterKeys
  rw [← filterMap_eq_map]
  refine filterMap_congr fun x member => ?_
  obtain ⟨pair, found⟩ := Option.isSome_iff_exists.mp (all x member)
  obtain ⟨p, entry, given, rfl⟩ := rosterKeys_found found
  exact found.trans (congrArg (fun key => some (x.2, key)) (read x.1 p entry given).2)

theorem bindSeatKeys_frozen {seatKeys : List (ℕ × String)} (keys : KeysOnRecord r)
    (bound : r.bindSeatKeys = some { r with seatKeys }) :
    seatKeys = r.seatKeys ∨ r.seatKeys = [] ∧ (seatKeys ≠ [] → Frozen r.seatOrder r.rosterSigningKeys seatKeys) := by
  unfold bindSeatKeys at bound
  split at bound
  · exact .inl (congrArg Room.seatKeys (Option.some.inj bound)).symm
  rename_i empty
  split at bound
  · cases bound
  rename_i unique
  split at bound
  · split at bound
    · cases bound
    exact .inl (congrArg Room.seatKeys (Option.some.inj bound)).symm
  split at bound
  · cases bound
  rename_i full
  have given : seatKeys = r.rosterKeys := (congrArg Room.seatKeys (Option.some.inj bound)).symm
  obtain ⟨named, same⟩ := rosterKeys_complete keys (not_not.mp full)
  refine .inr ⟨not_not.mp empty, fun _ => ⟨(duplicateSeatIds_nil (not_not.mp unique)).2.1, ?_, fun seat cid at' => ?_⟩⟩
  · rw [given, same, map_map]
    show r.seatOrder.zipIdx.map Prod.snd = _
    rw [zipIdx_map_snd, range_eq_range']
  obtain ⟨key, recorded⟩ := Option.ne_none_iff_exists'.mp (named cid (mem_of_getElem? at'))
  refine ⟨key, fun none => keys.nonempty cid (recorded.trans (by rw [none])), recorded, ?_⟩
  have found := lookup_zipIdx (fun cid => (r.rosterSigningKeys cid).getD "") r.seatOrder 0 seat
  rw [Nat.zero_add, at'] at found
  rw [given, same, found]
  simp [recorded]

def Timed (c : Call) (S : Stage) : Prop :=
  match c with
  | .startGame _ | .configureSeats _ => S = .lobby
  | .start _ => S ≠ .lobby
  | _ => True

structure Seats (r : Room T) : Prop where
  wire : r.wire = true
  keys : KeysOnRecord r
  coherent : Coherent r
  lobby : r.stage = .lobby → r.seatKeys = []
  frozen : r.seatKeys ≠ [] → Frozen r.seatOrder r.rosterSigningKeys r.seatKeys

structure Written (r r' : Room T) : Prop where
  keys : ∀ cid key, r.rosterSigningKeys cid = some key → r'.rosterSigningKeys cid = some key
  dealPolicy : ∀ policy, r.dealPolicy = some policy → r'.dealPolicy = some policy
  continuationPolicy : ∀ policy, r.continuationPolicy = some policy → r'.continuationPolicy = some policy
  stage : r.stage ≠ .lobby → r'.stage ≠ .lobby
  seatOrder : r.stage ≠ .lobby → r'.seatOrder = r.seatOrder
  seatKeys : r.seatKeys ≠ [] → r'.seatKeys = r.seatKeys

theorem Written.refl (r : Room T) : Written r r :=
  ⟨fun _ _ => id, fun _ => id, fun _ => id, id, fun _ => rfl, fun _ => rfl⟩

theorem Written.trans (first : Written r r') (second : Written r' r'') : Written r r'' := by
  refine ⟨fun cid key => second.keys cid key ∘ first.keys cid key, fun p => second.dealPolicy p ∘ first.dealPolicy p,
    fun p => second.continuationPolicy p ∘ first.continuationPolicy p, second.stage ∘ first.stage, fun begun => ?_, fun given => ?_⟩
  · exact (second.seatOrder (first.stage begun)).trans (first.seatOrder begun)
  have same := first.seatKeys given
  exact (second.seatKeys (same ▸ given)).trans same

theorem Seats.of_charter (same : r'.charter = r.charter) (stays : r'.stage = r.stage ∨ r'.stage = .ended)
    (coherent : Coherent r') (seats : Seats r) : Seats r' ∧ Written r r' := by
  simp only [charter, Charter.mk.injEq] at same
  obtain ⟨-, wire, -, -, -, -, players, keys, -, -, -, -, deal, continuation, order, seatKeys⟩ := same
  have begun : r'.stage = .lobby → r.stage = .lobby := by
    obtain same | ended := stays
    · exact fun lobby => same ▸ lobby
    exact fun lobby => by cases ended.symm.trans lobby
  refine ⟨⟨wire.trans seats.wire, ⟨fun cid => ?_, fun cid p found => ?_⟩, coherent, fun lobby => ?_, fun given => ?_⟩, ?_⟩
  · rw [keys]
    exact seats.keys.nonempty cid
  · rw [players] at found
    rw [keys]
    exact seats.keys.entry cid p found
  · exact seatKeys.trans (seats.lobby (begun lobby))
  · rw [seatKeys] at given
    rw [order, keys, seatKeys]
    exact seats.frozen given
  refine ⟨fun _ _ => ?_, fun _ => ?_, fun _ => ?_, mt begun, fun _ => order, fun _ => seatKeys⟩
  · rw [keys]
    exact id
  · rw [deal]
    exact id
  rw [continuation]
  exact id

theorem Shapes.lobby (shapes : Shapes c r) (coherent : Coherent r) (timed : Timed c S) (stage : r.stage = S) :
    r.stage = .lobby := by
  obtain ⟨_, _, _, _, _, waits, on⟩ | ⟨_, rfl, _⟩ := shapes
  · cases now : r.stage with
    | lobby => rfl
    | playing => exact (waits now).elim
    | ended =>
      have ended := coherent now
      simp [on] at ended
  exact stage.trans timed

theorem Move.seats (move : Move env tbl c S r r') (timed : Timed c S) (seats : Seats r) : Seats r' ∧ Written r r' := by
  have coherent := move.coherent seats.coherent
  have whole := seats
  obtain ⟨wire, ⟨nonempty, entry⟩, -, lobby, frozen⟩ := seats
  cases move with
  | tabled tabled =>
    exact Seats.of_charter tabled.charter (tabled.ends.imp And.left fun ended => ended.2.1) coherent whole
  | refused _ same _ stage => exact Seats.of_charter same (.inr stage) coherent whole
  | @enrolled keys players p set =>
    have recorded : ∀ cid key, r.rosterSigningKeys cid = some key → keys cid = some key := by
      intro cid key recorded
      have kept := whole.keys.setPlayer_recorded p recorded
      rwa [set] at kept
    have kept := whole.keys.setPlayer p
    rw [set] at kept
    refine ⟨⟨wire, kept, coherent, lobby, fun given => ?_⟩, recorded, fun _ => id, fun _ => id, id, fun _ => rfl, fun _ => rfl⟩
    obtain ⟨nodup, full, key⟩ := frozen given
    refine ⟨nodup, full, fun seat cid at' => ?_⟩
    obtain ⟨k, named, on, found⟩ := key seat cid at'
    exact ⟨k, named, recorded cid k on, found⟩
  | kept keep =>
    refine ⟨⟨wire, ⟨nonempty, fun cid p found => ?_⟩, coherent, lobby, frozen⟩,
      fun _ _ => id, fun _ => id, fun _ => id, id, fun _ => rfl, fun _ => rfl⟩
    rw [Dict.get_keep] at found
    split at found
    · exact entry cid p found
    cases found
  | @readied cid p found ready =>
    refine ⟨⟨wire, ⟨nonempty, fun other q held => ?_⟩, coherent, lobby, frozen⟩,
      fun _ _ => id, fun _ => id, fun _ => id, id, fun _ => rfl, fun _ => rfl⟩
    rw [Dict.get_set] at held
    split at held
    · rename_i same
      cases held
      subst same
      exact entry _ p found
    exact entry other q held
  | dealt _ policy first =>
    refine ⟨⟨wire, ⟨nonempty, entry⟩, coherent, lobby, frozen⟩,
      fun _ _ => id, fun p known => ?_, fun _ => id, id, fun _ => rfl, fun _ => rfl⟩
    exact congrArg some (first p known).symm
  | continued _ policy first =>
    refine ⟨⟨wire, ⟨nonempty, entry⟩, coherent, lobby, frozen⟩,
      fun _ _ => id, fun _ => id, fun p known => ?_, id, fun _ => rfl, fun _ => rfl⟩
    exact congrArg some (first p known).symm
  | opened shapes stage =>
    -- no keys are bound in the lobby
    have now := shapes.lobby whole.coherent timed stage
    refine ⟨⟨wire, ⟨nonempty, entry⟩, coherent, nofun, fun given => ?_⟩,
      fun _ _ => id, fun _ => id, fun _ => id, fun begun => ?_, fun begun => ?_, fun _ => rfl⟩
    · exact (given (lobby now)).elim
    · exact (begun now).elim
    exact (begun now).elim
  | seated call _ stage =>
    subst call
    have now := stage.trans timed
    refine ⟨⟨wire, ⟨nonempty, entry⟩, coherent, lobby, fun given => ?_⟩,
      fun _ _ => id, fun _ => id, fun _ => id, id, fun begun => ?_, fun _ => rfl⟩
    · exact (given (lobby now)).elim
    exact (begun now).elim
  | bound call bound stage =>
    subst call
    have later : r.stage ≠ .lobby := stage ▸ timed
    refine ⟨⟨wire, ⟨nonempty, entry⟩, coherent, fun now => (later now).elim, fun given => ?_⟩,
      fun _ _ => id, fun _ => id, fun _ => id, id, fun _ => rfl, fun given => ?_⟩
    · obtain same | ⟨-, complete⟩ := bindSeatKeys_frozen whole.keys bound
      · subst same
        exact frozen given
      exact complete given
    obtain same | ⟨empty, -⟩ := bindSeatKeys_frozen whole.keys bound
    · exact same
    exact (given empty).elim
  | localTable _ _ _ compat => exact nomatch wire.symm.trans compat
  | promoted compat => exact nomatch wire.symm.trans compat
  | _ =>
    exact ⟨⟨wire, ⟨nonempty, entry⟩, coherent, lobby, frozen⟩, fun _ _ => id, fun _ => id, fun _ => id, id, fun _ => rfl,
      fun _ => rfl⟩

def Signed (seatKeys : List (ℕ × String)) (ctx : Inbound) : Prop :=
  ∃ seat key, ctx.seat = some seat ∧ 0 ≤ seat ∧ seatKeys.lookup seat.toNat = some key ∧ ctx.author = some key

structure Heard (r : Room T) : Prop where
  buffer : ∀ item ∈ r.msgBuffer, item.incoming.isLocal = false ∧ r.localConnId ≠ some item.incoming.connId ∧ r.seatKeys ≠ []
  handed : ∀ ctx ∈ r.handed, Signed r.seatKeys ctx

def Remote (c : Call) (r : Room T) : Prop :=
  ∀ a kind, c = .message a → wellFormed a.msg = some (.hostless kind) → r.localConnId ≠ some a.conn

theorem Accepted.signed (accepted : Accepted r ctx) (wire : r.wire = true) (away : ctx.isLocal = false)
    (remote : r.localConnId ≠ some ctx.connId) : r.seatKeys ≠ [] ∧ Signed r.seatKeys ctx := by
  obtain self | ⟨-, compat⟩ | ⟨seat, claimed, owns⟩ := accepted
  · cases away.symm.trans self
  · cases wire.symm.trans compat
  unfold authorOwnsSeat at owns
  split at owns
  · cases owns
  rename_i range
  split at owns
  · rename_i given
    refine ⟨given, seat, ?_⟩
    split at owns
    · cases owns
    · cases owns
    rename_i expected _ found
    exact ⟨expected, claimed, (not_not.mp range).1, found, of_decide_eq_true owns⟩
  cases owns

theorem Comes.away (comes : Comes env c r ctx) (remote : Remote c r) (heard : Heard r) :
    ctx.isLocal = false ∧ r.localConnId ≠ some ctx.connId := by
  obtain ⟨item, kept, rfl⟩ | ⟨a, kind, call, typed, read, -⟩ := comes
  · obtain ⟨away, conn, -⟩ := heard.buffer item kept
    exact ⟨away, conn⟩
  obtain ⟨-, conn, own⟩ := normalizeHostless_reads read
  have elsewhere := remote a kind call typed
  rw [conn, own]
  exact ⟨decide_eq_false elsewhere, elsewhere⟩

theorem Move.heard (move : Move env tbl c S r r') (timed : Timed c S) (seats : Seats r) (remote : Remote c r)
    (heard : Heard r) : Heard r' ∧ Remote c r' := by
  have none : r.stage = .lobby → r.seatKeys = [] := seats.lobby
  obtain ⟨buffer, handed⟩ := heard
  cases move with
  | tabled tabled =>
    have conn : r'.localConnId = r.localConnId := congrArg Charter.localConnId tabled.charter
    have keys : r'.seatKeys = r.seatKeys := congrArg Charter.seatKeys tabled.charter
    refine ⟨⟨fun item member => ?_, fun ctx member => ?_⟩, fun a kind call typed => conn ▸ remote a kind call typed⟩
    · rw [conn, keys]
      obtain before | comes := tabled.buffer item member
      · exact buffer item before
      obtain ⟨away, elsewhere⟩ := comes.away remote ⟨buffer, handed⟩
      refine ⟨away, elsewhere, ?_⟩
      obtain ⟨item', kept, same⟩ | ⟨_, _, _, _, _, accepted⟩ := comes
      · exact (buffer item' kept).2.2
      exact (accepted.signed seats.wire away elsewhere).1
    rw [keys]
    obtain before | ⟨comes, accepted⟩ := tabled.handed ctx member
    · exact handed ctx before
    obtain ⟨away, elsewhere⟩ := comes.away remote ⟨buffer, handed⟩
    exact (accepted.signed seats.wire away elsewhere).2
  | refused _ same _ _ _ handed' buffer' =>
    have conn : r'.localConnId = r.localConnId := congrArg Charter.localConnId same
    have keys : r'.seatKeys = r.seatKeys := congrArg Charter.seatKeys same
    refine ⟨⟨fun item member => ?_, fun ctx member => ?_⟩, fun a kind call typed => conn ▸ remote a kind call typed⟩
    · rw [buffer'] at member
      cases member
    rw [keys]
    exact handed ctx (handed' ▸ member)
  | acknowledged call typed _ lobby =>
    refine ⟨⟨fun item member => ?_, handed⟩, fun a kind call' typed' => ?_⟩
    · exact ((buffer item member).2.2 (none lobby)).elim
    subst call
    cases call'
    cases typed.symm.trans typed'
  | bound _ bound =>
    have same : r.seatKeys = [] ∨ _ = r.seatKeys := (bindSeatKeys_frozen seats.keys bound).symm.imp_left And.left
    obtain empty | same := same
    · refine ⟨⟨fun item member => ((buffer item member).2.2 empty).elim, fun ctx member => ?_⟩, remote⟩
      obtain ⟨seat, key, -, -, found, -⟩ := handed ctx member
      rw [empty] at found
      cases found
    subst same
    exact ⟨⟨buffer, handed⟩, remote⟩
  | promoted compat => exact nomatch seats.wire.symm.trans compat
  | localTable _ _ _ compat => exact nomatch seats.wire.symm.trans compat
  | _ => exact ⟨⟨buffer, handed⟩, remote⟩

theorem make_seats (timed : Timed c r.stage) (seats : Seats r) :
    Seats (r.make env tbl c) ∧ Written r (r.make env tbl c) := by
  refine Moves.keeps (I := fun r' => Seats r' ∧ Written r r') ?_ (make_moves c r) ⟨seats, .refl r⟩
  intro r1 r2 now move
  obtain ⟨seats', written⟩ := move.seats timed now.1
  exact ⟨seats', now.2.trans written⟩

theorem make_heard (timed : Timed c r.stage) (remote : Remote c r) (seats : Seats r) (heard : Heard r) :
    Heard (r.make env tbl c) := by
  refine (Moves.keeps (I := fun r' => Seats r' ∧ Heard r' ∧ Remote c r') ?_ (make_moves c r : Moves env tbl c r.stage r _)
    ⟨seats, heard, remote⟩).2.1
  intro r1 r2 now move
  exact ⟨(move.seats timed now.1).1, move.heard timed now.1 now.2.2 now.2.1⟩

structure Fresh (r : Room T) : Prop where
  wire : r.wire = true
  stage : r.stage = .lobby
  terminal : r.terminal = none
  players : r.players = ∅
  rosterSigningKeys : r.rosterSigningKeys = fun _ => none
  seatKeys : r.seatKeys = []
  msgBuffer : r.msgBuffer = []
  handed : r.handed = []

theorem Fresh.seats (fresh : Fresh r) : Seats r := by
  refine ⟨fresh.wire, ⟨fun cid => ?_, fun cid p found => ?_⟩, fun ended => ?_, fun _ => fresh.seatKeys, fun given => ?_⟩
  · rw [fresh.rosterSigningKeys]
    exact nofun
  · rw [fresh.players] at found
    cases found
  · cases ended.symm.trans fresh.stage
  exact (given fresh.seatKeys).elim

theorem Fresh.heard (fresh : Fresh r) : Heard r := by
  constructor
  · rw [fresh.msgBuffer]
    exact nofun
  rw [fresh.handed]
  exact nofun

/-- In every run in which the table is started in the lobby and hands after it, the keys on record, the
policies, the order of the seats once the lobby is over and the keys of the seats are written once, and the
keys of the seats are complete. If moreover no hand message comes over a connection that goes by the local
name, every message that is handed over is signed by the key of its seat. -/
theorem seats_written_once (env : Env) (tbl : Table T) (r : Room T) (fresh : Fresh r) (calls : List Call)
    (timed : Along env tbl (fun c r => Timed c r.stage) calls r) :
    ∀ before between after, calls = before ++ between ++ after →
      Written (run env tbl before r) (run env tbl (before ++ between) r) ∧
      KeysOnRecord (run env tbl before r) ∧
      ((run env tbl before r).seatKeys ≠ [] → Frozen (run env tbl before r).seatOrder
        (run env tbl before r).rosterSigningKeys (run env tbl before r).seatKeys) ∧
      (Along env tbl Remote calls r →
        ∀ ctx ∈ (run env tbl before r).handed, Signed (run env tbl before r).seatKeys ctx) := by
  intro before between after split
  have seats : ∀ before after, calls = before ++ after → Seats (run env tbl before r) :=
    run_keeps (I := Seats) (fun _ _ timed seats => (make_seats timed seats).1) timed fresh.seats
  have now := seats before (between ++ after) (split.trans (append_assoc ..))
  refine ⟨?_, now.keys, now.frozen, fun remote => ?_⟩
  · induction between using reverseRecOn generalizing after with
    | nil =>
      rw [append_nil]
      exact .refl _
    | append_singleton between c ih =>
      have split' : calls = before ++ between ++ c :: after := by simpa using split
      have earlier := ih (c :: after) split'
      rw [← append_assoc, run_append]
      exact earlier.trans (make_seats (timed _ c after split') (seats _ _ split')).2
  have heard : ∀ before after, calls = before ++ after → Seats (run env tbl before r) ∧ Heard (run env tbl before r) := by
    refine run_keeps (A := fun c r => Timed c r.stage ∧ Remote c r) (I := fun r => Seats r ∧ Heard r) ?_ ?_
      ⟨fresh.seats, fresh.heard⟩
    · intro c r allowed both
      exact ⟨(make_seats allowed.1 both.1).1, make_heard allowed.1 allowed.2 both.1 both.2⟩
    intro before c after split
    exact ⟨timed before c after split, remote before c after split⟩
  exact (heard before (between ++ after) (split.trans (append_assoc ..))).2.handed

namespace Sample

theorem joiner_fresh : Fresh joiner := ⟨rfl, rfl, rfl, rfl, rfl, rfl, rfl, rfl⟩

/-- The host tells the joiner its id, and names the two seats `a` and `h`, each with its key. -/
def seating (own : String) : List Call :=
  [.message (arrival "h" (envelope "player_ack" hostKey [("your_conn_id", .str own)])),
    .message (arrival "h" (envelope "player_list" hostKey [("players", .arr
      [.obj [("conn_id", .str "a"), ("ed25519_pubkey_hex", .str (Hex.encode (key 3)))],
        .obj [("conn_id", .str "h"), ("ed25519_pubkey_hex", .str (Hex.encode hostKey))]])])),
    .message (arrival "h" (envelope "game_start" hostKey [("seat_order", .arr [.str "a", .str "h"]), ("table_settings",
      .obj [("deal_policy", .str "bayer-groth-v1"), ("continuation_policy", .str "end-table-v1")])]))]

def firstHand : Call := .start (.startP2pHand 1 [] [] 1 2 "no-limit" 0)

def bet (seat : ℤ) (author : Bytes) : Call :=
  .message (arrival "h" (envelope "bet_action" author [("seat", .int seat), ("hand", .int 1), ("author_seq", .int 0)]))

def betting : List Call := seating "a" ++ [firstHand, bet 1 hostKey]

def forging : List Call := seating "h" ++ [firstHand, bet 0 (key 9)]

end Sample

open Room.Sample in
theorem seats_written_once_sample :
    (run Sample.env Sample.table betting joiner).handed.map (fun ctx => (ctx.seat, ctx.author)) =
        [(some 1, some (Hex.encode hostKey))] ∧
      ∀ ctx ∈ (run Sample.env Sample.table betting joiner).handed,
        Signed (run Sample.env Sample.table betting joiner).seatKeys ctx := by
  refine ⟨by decide +kernel, (seats_written_once Sample.env Sample.table joiner joiner_fresh betting ?_
    _ [] [] (by simp)).2.2.2 ?_⟩
  · refine .cons trivial (.cons trivial (.cons trivial (.cons ?_ (.cons trivial .nil))))
    show (run Sample.env Sample.table (seating "a") joiner).stage ≠ .lobby
    decide +kernel
  have remote : ∀ calls ∈ betting.inits, (run Sample.env Sample.table calls joiner).localConnId ≠ some "h" := by
    decide +kernel
  have host : ∀ c ∈ betting, ∀ a, c = .message a → a.conn = "h" := by
    simp [betting, seating, firstHand, bet, arrival]
  intro before c after split a _ call _
  rw [host c (by simp [split]) a call]
  exact remote before (by rw [split]; exact (mem_inits ..).mpr (prefix_append ..))

open Room.Sample in
/-- A host that names the joiner after its own connection speaks for every seat. -/
theorem seats_forged :
    (run Sample.env Sample.table (seating "h") joiner).stage = .playing ∧
    (run Sample.env Sample.table forging joiner).seatKeys =
      [(0, Hex.encode (key 3)), (1, Hex.encode hostKey)] ∧
    (run Sample.env Sample.table forging joiner).handed.map (fun ctx => (ctx.seat, ctx.author)) =
      [(some 0, some (Hex.encode (key 9)))] := by
  decide +kernel

end Room

end Holdem
