import Holdem.Deal.Discipline

/-!
Which messages an instance can be handed without raising.
-/

set_option linter.unusedSectionVars false

namespace Holdem

open List DealMap Method

/-- `int` does not overflow on it. -/
def Json.Bounded (value : Json) : Prop := ∀ negative, value ≠ .float (.infinite negative)

def Raises {α : Type} (allowed : PyError → Prop) (read : Except PyError α) : Prop := ∀ x, read = .error x → allowed x

/-- What a call raises is caught by `except (KeyError, ValueError, TypeError)`. -/
abbrev Malformed {α : Type} (read : Except PyError α) : Prop := Raises (fun x => x.isMalformed = true) read

variable {α : Type} {allowed : PyError → Prop}

theorem raises_ok (a : α) : Raises allowed (.ok a) := nofun

theorem Raises.mono {more : PyError → Prop} {read : Except PyError α} (raises : Raises allowed read)
    (wider : ∀ x, allowed x → more x) : Raises more read := fun x failed => wider x (raises x failed)

theorem raises_bind {β : Type} {read : Except PyError α} {f : α → Except PyError β}
    (first : Raises allowed read) (second : ∀ a, read = .ok a → Raises allowed (f a)) : Raises allowed (read >>= f) := by
  intro x failed
  cases ran : read with
  | error y =>
    rw [ran] at failed
    cases failed
    exact first _ ran
  | ok a =>
    rw [ran] at failed
    exact second a ran x failed

theorem raises_mapM {β : Type} {f : α → Except PyError β} (xs : List α)
    (each : ∀ a ∈ xs, Raises allowed (f a)) : Raises allowed (xs.mapM f) := by
  induction xs with
  | nil => exact raises_ok []
  | cons x xs ih =>
    rw [mapM_cons]
    refine raises_bind (each x (.head _)) fun b _ => ?_
    refine raises_bind (ih fun a member => each a (.tail _ member)) fun bs _ => raises_ok _

theorem malformed_field (msg : Message) (name : String) : Malformed (msg.field name) := by
  intro x failed
  unfold Message.field at failed
  split at failed <;> cases failed
  rfl

theorem malformed_toInt {parse : String → Option ℤ} {value : Json} (bounded : value.Bounded) : Malformed (value.toInt parse) := by
  intro x failed
  unfold Json.toInt at failed
  split at failed
  case h_4 negative => exact absurd rfl (bounded negative)
  case h_6 => split at failed <;> cases failed; rfl
  all_goals cases failed
  all_goals rfl

theorem malformed_text (value : Json) : Malformed value.text := by
  intro x failed
  unfold Json.text at failed
  split at failed <;> cases failed
  rfl

theorem malformed_items (value : Json) : Malformed value.items := by
  intro x failed
  unfold Json.items at failed
  split at failed <;> cases failed
  rfl

theorem malformed_len (value : Json) : Malformed value.len := by
  intro x failed
  unfold Json.len at failed
  split at failed <;> cases failed
  rfl

theorem Message.lookup_of_field {msg : Message} {name : String} {value : Json} (read : msg.field name = .ok value) :
    msg.lookup name = some value := by
  unfold Message.field at read
  split at read <;> cases read
  assumption

namespace MentalDeal

variable {F G P S : Type} [Field F] [DecidableEq F] [AddCommGroup G] [Module F G] [DecidableEq G] (C : Suite F G P S)
  (c : Config) (K : Secrets F G P S) {msg : Message} {m m' : State F G P} {pos : ℕ} {out : List Message} {call : Call}

def claimedSeat (msg : Message) : Json := (msg.lookup "seat").getD (msg.get "seat_from")

def Attributed (msg : Message) : Prop := ∃ seat, claimedSeat msg = .int seat

/-- A message no handler raises on: a key comes with its seat and in strings, and no number that is
read as an integer is infinite. -/
structure Tame (msg : Message) : Prop where
  seat : kind msg = .keyAnnounce → (msg.lookup "seat").isSome
  hex : kind msg = .keyAnnounce → ∀ name ∈ ["X_hex", "pop_hex"], ∀ value, msg.lookup name = some value → ∃ text, value = .str text
  bounded : ∀ name ∈ ["round", "position", "seat_from"], ∀ value, msg.lookup name = some value → value.Bounded
  perm : ∀ fields perm sources, msg.get "witness" = .obj fields → fields.lookup "perm" = some perm → perm.items = .ok sources →
    ∀ source ∈ sources, source.Bounded

variable {C}

section

variable {β : Type} (parse : String → Option β) (why : String)

theorem malformed_readHex (value : Json) : Malformed (readHex parse why value) := by
  refine raises_bind (malformed_text value) fun text _ => ?_
  intro x failed
  split at failed <;> cases failed
  rfl

theorem raises_readHex_str (text : String) : Raises (fun x => x.isValueError = true) (readHex parse why (.str text)) := by
  refine raises_bind (raises_ok text) fun text _ => ?_
  intro x failed
  split at failed <;> cases failed
  rfl

end

theorem Tame.toInt (tame : Tame msg) {name : String} (member : name ∈ ["round", "position", "seat_from"]) {value : Json}
    (read : msg.field name = .ok value) : Malformed (value.toInt C.parseInt) :=
  malformed_toInt (tame.bounded name member value (Message.lookup_of_field read))

theorem Attributed.toInt (attributed : Attributed msg) {value : Json} (read : msg.field "seat" = .ok value) :
    Malformed (value.toInt C.parseInt) := by
  obtain ⟨seat, claimed⟩ := attributed
  rw [claimedSeat, Message.lookup_of_field read, Option.getD_some] at claimed
  rw [claimed]
  exact raises_ok seat

theorem malformed_readRound (tame : Tame msg) : Malformed (readRound C msg) :=
  raises_bind (malformed_field msg "round") fun _ read => tame.toInt (by simp) read

theorem malformed_readDeckRound (tame : Tame msg) (attributed : Attributed msg) : Malformed (readDeckRound C msg) := by
  refine raises_bind (malformed_readRound tame) fun round _ => ?_
  refine raises_bind (malformed_field msg "seat") fun seat read => ?_
  refine raises_bind (attributed.toInt read) fun seat _ => ?_
  exact raises_bind (malformed_field msg "deck") fun raw _ => raises_ok _

theorem malformed_readDealShare (tame : Tame msg) : Malformed (readDealShare C msg) := by
  refine raises_bind (malformed_field msg "position") fun pos read => ?_
  refine raises_bind (tame.toInt (by simp) read) fun pos _ => ?_
  refine raises_bind (malformed_field msg "seat_from") fun seat read => ?_
  refine raises_bind (tame.toInt (by simp) read) fun seat _ => ?_
  refine raises_bind (malformed_field msg "D_hex") fun D _ => ?_
  refine raises_bind (malformed_readHex _ _ D) fun D _ => ?_
  refine raises_bind (malformed_field msg "dleq_hex") fun proof _ => ?_
  exact raises_bind (malformed_readHex _ _ proof) fun _ _ => raises_ok _

theorem malformed_parseWitness (tame : Tame msg) : Malformed (parseWitness C (msg.get "witness")) := by
  unfold parseWitness
  split
  · exact raises_ok _
  · rename_i fields opened
    refine raises_bind (malformed_field fields "perm") fun perm read => ?_
    refine raises_bind (malformed_len perm) fun size _ => ?_
    split
    · intro x failed
      cases failed
      rfl
    refine raises_bind (malformed_field fields "scalars") fun scalars _ => ?_
    refine raises_bind (malformed_len scalars) fun size _ => ?_
    split
    · intro x failed
      cases failed
      rfl
    refine raises_bind (malformed_items perm) fun sources inside => ?_
    refine raises_bind (raises_mapM sources fun source member => ?_) fun perm _ => ?_
    · exact malformed_toInt (tame.perm fields perm sources opened (Message.lookup_of_field read) inside source member)
    refine raises_bind (malformed_items scalars) fun scalars _ => ?_
    exact raises_bind (raises_mapM scalars fun scalar _ => malformed_readHex _ _ scalar) fun _ _ => raises_ok _
  intro x failed
  cases failed
  rfl

theorem raises_item (value : Json) (k : ℕ) : Raises (fun x => x.isMalformed ∨ x = .indexError) (value.item k) := by
  intro x failed
  unfold Json.item at failed
  split at failed
  · split at failed <;> cases failed
    exact .inr rfl
  · split at failed <;> cases failed
    exact .inr rfl
  · cases failed
    exact .inl rfl
  cases failed
  exact .inl rfl

theorem raises_readAuditOpen (attributed : Attributed msg) :
    Raises (fun x => x.isMalformed ∨ x = .indexError) (readAuditOpen C msg) := by
  have wider : ∀ {α : Type} {read : Except PyError α}, Malformed read → Raises (fun x => x.isMalformed ∨ x = .indexError) read :=
    fun malformed => malformed.mono fun _ => .inl
  refine raises_bind (wider (malformed_field msg "seat")) fun seat read => ?_
  refine raises_bind (wider (attributed.toInt read)) fun seat _ => ?_
  refine raises_bind (wider (malformed_field msg "shares")) fun raw _ => ?_
  refine raises_bind (wider (malformed_items raw)) fun pairs _ => ?_
  refine raises_bind (raises_mapM pairs fun pair _ => ?_) fun _ _ => raises_ok _
  refine raises_bind (raises_item pair 0) fun first _ => ?_
  refine raises_bind (wider (malformed_readHex _ _ first)) fun D _ => ?_
  refine raises_bind (raises_item pair 1) fun second _ => ?_
  exact raises_bind (wider (malformed_readHex _ _ second)) fun _ _ => raises_ok _

theorem raises_readKey (tame : Tame msg) (key : kind msg = .keyAnnounce) :
    Raises (fun x => x.isValueError ∨ x = .keyError) (readKey C msg) := by
  have field : ∀ name, Raises (fun x => x.isValueError ∨ x = .keyError) (msg.field name) := by
    intro name x failed
    unfold Message.field at failed
    split at failed <;> cases failed
    exact .inr rfl
  refine raises_bind (field "X_hex") fun X read => ?_
  obtain ⟨text, rfl⟩ := tame.hex key "X_hex" (by simp) X (Message.lookup_of_field read)
  refine raises_bind ((raises_readHex_str _ _ text).mono fun _ => .inl) fun X _ => ?_
  refine raises_bind (field "pop_hex") fun pop read => ?_
  obtain ⟨text, rfl⟩ := tame.hex key "pop_hex" (by simp) pop (Message.lookup_of_field read)
  exact raises_bind ((raises_readHex_str _ _ text).mono fun _ => .inl) fun pop _ => raises_ok _

theorem raises_readDeck (raw : Json) : Raises (fun x => x.isValueError ∨ x = .typeError) (readDeck C raw) := by
  have point : ∀ text, Raises (fun x => x.isValueError ∨ x = .typeError) (readPoint C (.str text)) :=
    fun text => (raises_readHex_str _ _ text).mono fun _ => .inl
  refine raises_bind ?_ fun items _ => raises_mapM items fun item _ => ?_
  · intro x failed
    unfold Json.items at failed
    split at failed <;> cases failed
    exact .inr rfl
  unfold readCipher
  split
  · exact raises_bind (point _) fun _ _ => raises_bind (point _) fun _ _ => raises_ok _
  intro x failed
  cases failed
  exact .inl rfl

variable {c K}

theorem exists_of_mem_validPositions (board : m.boardPos = boardPositions c.button c.seatsIn)
    (holes : m.holePos = holePositions c.button c.seatsIn) (dealt : pos ∈ m.validPositions) :
    ∃ target ∈ dealMap c.button c.seatsIn, pos = DealMap.position c.button c.seatsIn target := by
  rw [State.validPositions, board, holes, mem_append] at dealt
  obtain board | hole := dealt
  · obtain ⟨slot, below, rfl⟩ := List.mem_map.mp board
    exact ⟨.board slot, mem_dealMap_board (List.mem_range.mp below), rfl⟩
  obtain ⟨entry, member, inside⟩ := List.mem_flatMap.mp hole
  obtain ⟨s, seated, rfl⟩ := List.mem_map.mp member
  have seated := mem_seatDealOrder.mp seated
  obtain rfl | rfl := List.mem_pair.mp inside
  · exact ⟨.hole s 0, mem_dealMap_hole.mpr ⟨seated, by decide⟩, rfl⟩
  exact ⟨.hole s 1, mem_dealMap_hole.mpr ⟨seated, by decide⟩, rfl⟩

variable (c K)

structure Ready (m : State F G P) : Prop where
  secret : m.xShare = some K.share
  active : m.phase = .shuffle ∨ m.Dealing →
    (∀ s ∈ c.seatsIn, (m.pubkeys s).isSome) ∧ m.deck.length = 52 ∧ m.joint ≠ 0
  dealing : m.Dealing → (∀ ct ∈ m.deck, ct.c0 ≠ 0) ∧ m.boardPos = DealMap.boardPositions c.button c.seatsIn ∧
    m.holePos = DealMap.holePositions c.button c.seatsIn

variable {c K}

theorem Ready.of_idle (secret : m.xShare = some K.share) (still : m.phase ≠ .shuffle) (idle : ¬m.Dealing) :
    Ready c K m :=
  ⟨secret, fun on => (on.elim still idle).elim, fun on => (idle on).elim⟩

theorem Ready.abort (ready : Ready c K m) (reason : AbortReason) (bad : Option Json) :
    Ready c K (m.abort reason bad) := by
  refine .of_idle ready.secret nofun ?_
  rintro (phase | phase) <;> cases phase

theorem Emitted.eq (emitted : Emitted C c K m out m') : ∃ myShuffles, m' = { m with myShuffles } := by
  cases emitted
  · exact ⟨m.myShuffles, rfl⟩
  exact ⟨_, rfl⟩

theorem Ready.move (ready : Ready c K m) (move : Move C c K call m out m') : Ready c K m' := by
  obtain ⟨secret, active, dealing⟩ := ready
  cases move with
  | held | share _ _ _ _ _ _ | board _ _ _ _ | hole _ _ _ _ | opened _ _ _ _ | reveal _ _ _ _ _ _ => exact ⟨secret, active, dealing⟩
  | abort | corrupt _ _ _ _ => exact Ready.abort ⟨secret, active, dealing⟩ _ _
  | start _ fresh _ =>
    refine .of_idle rfl (by simp [fresh]) ?_
    simp [State.Dealing, fresh]
  | key fresh _ _ _ =>
    refine .of_idle secret (by simp [fresh]) ?_
    simp [State.Dealing, fresh]
  | finish _ keys sound emitted =>
    obtain ⟨_, rfl⟩ := emitted.eq
    exact ⟨secret, fun _ => ⟨keys, (ElGamal.length_makeTrivialDeck _), sound⟩, by rintro (phase | phase) <;> cases phase⟩
  | round good _ emitted =>
    obtain ⟨_, rfl⟩ := emitted.eq
    obtain ⟨keys, -, sound⟩ := active (.inl good.phase)
    exact ⟨secret, fun _ => ⟨keys, good.size, sound⟩, by rintro (phase | phase) <;> cases good.phase.symm.trans phase⟩
  | deal good _ _ _ =>
    obtain ⟨keys, -, sound⟩ := active (.inl good.phase)
    exact ⟨secret, fun _ => ⟨keys, good.size, sound⟩, fun _ => ⟨good.nontrivial, rfl, rfl⟩⟩
  | openRaises _ on _ => exact ⟨secret, fun _ => active (.inr on), fun _ => dealing on⟩
  | openOwn _ on _ _ _ => exact ⟨secret, fun _ => active (.inr on), fun _ => dealing on⟩
  | passed on _ _ _ | failed on _ _ _ =>
    refine .of_idle secret nofun ?_
    rintro (phase | phase) <;> cases phase

theorem Ready.traced {α : Type} {sent : α → List Message} {f : DealM F G P α} (ready : Ready c K m)
    (traced : TracedAt C c K call sent f m) : Ready c K (after (f m)) := by
  obtain ⟨out, moves, -⟩ := traced
  exact moves.keeps (I := fun m _ => Ready c K m) (fun _ _ _ _ ready move => ready.move move) [] ready

theorem maybeEmitShuffle_returns (size : m.deck.length = 52) (sound : m.joint ≠ 0) :
    Returns (maybeEmitShuffle C c K) m := by
  let coins := K.coins m.myShuffles.length
  have fits : coins.witness.Fits m.deck.length := size ▸ ⟨coins.perm, coins.scalars⟩
  have shuffles := C.shuffleDeck_eq sound fits coins.nonzero
  unfold Returns maybeEmitShuffle
  dsimp only
  rw [shuffles]
  split
  · exact ⟨_, _, rfl⟩
  exact ⟨_, _, rfl⟩

theorem abort_returns (reason : AbortReason) (bad : Option Json) (m : State F G P) : Returns (abort reason bad) m := ⟨_, _, rfl⟩

theorem onKeyAnnounce_returns (tame : Tame msg) (key : kind msg = .keyAnnounce) (m : State F G P) :
    Returns (onKeyAnnounce C c K msg) m := by
  unfold Returns onKeyAnnounce
  split
  · exact ⟨_, _, rfl⟩
  obtain ⟨seat, given⟩ := Option.isSome_iff_exists.mp (tame.seat key)
  have read : msg.field "seat" = .ok seat := by rw [Message.field, given]
  rw [read]
  dsimp only
  split
  · exact abort_returns _ _ m
  split
  · rename_i x failed
    rw [if_pos (raises_readKey tame key x failed)]
    exact abort_returns _ _ m
  split
  · exact abort_returns _ _ m
  split
  · exact abort_returns _ _ m
  split
  · unfold finishKeygen
    dsimp only
    split
    · exact abort_returns _ _ _
    rename_i sound
    exact maybeEmitShuffle_returns (ElGamal.length_makeTrivialDeck _) sound
  exact ⟨_, _, rfl⟩

def State.Openable (m : State F G P) (pos : ℕ) : Prop := ∃ ct, m.deck[pos]? = some ct ∧ ct.c0 ≠ 0

theorem makeShareMsg_returns (secret : m.xShare = some K.share) (openable : m.Openable pos) :
    Returns (makeShareMsg C c K pos) m := by
  obtain ⟨ct, at', nontrivial⟩ := openable
  have nonzero : K.share • ct.c0 ≠ 0 := smul_ne_zero K.share_ne nontrivial
  refine ⟨dealShare C pos c.seat (K.share • ct.c0) (K.dealProof pos ct.c0), m.record pos c.seat (K.share • ct.c0), ?_⟩
  simp [makeShareMsg, cardAt, State.decryptShare, at', secret, Backend.mul, Suite.backend, nonzero, bind, Except.bind, pure, Except.pure]

theorem makeShareMsgs_returns (secret : m.xShare = some K.share) {positions : List ℕ}
    (openable : ∀ pos ∈ positions, m.Openable pos) : Returns (makeShareMsgs C c K positions) m := by
  induction positions generalizing m with
  | nil => exact returns_pure _ m
  | cons pos rest ih =>
    refine returns_bind (makeShareMsg_returns secret (openable pos (.head _))) fun msg m' made => ?_
    obtain ⟨x, ct, -, -, -, ran⟩ | ⟨e, failed⟩ := makeShareMsg_cases (C := C) (c := c) (K := K) pos m
    · cases made.symm.trans ran
      refine returns_bind (ih secret fun p member => openable p (.tail _ member)) fun _ _ _ => returns_pure _ _
    cases made.symm.trans failed

theorem recordOwn_returns (secret : m.xShare = some K.share) {positions : List ℕ}
    (openable : ∀ pos ∈ positions, m.Openable pos) : Returns (recordOwn c positions) m := by
  induction positions generalizing m with
  | nil => exact returns_pure _ m
  | cons pos rest ih =>
    obtain ⟨ct, at', -⟩ := openable pos (.head _)
    have made : (do m.decryptShare (← cardAt m pos) : Except PyError (F × G)) = .ok (K.share, K.share • ct.c0) := by
      simp [cardAt, State.decryptShare, at', secret, bind, Except.bind]
    unfold recordOwn
    rw [Returns, bind_of_ok (m := get) (a := m) (t := m) rfl, made]
    exact ih (m := m.record pos c.seat (K.share • ct.c0)) secret fun p member => openable p (.tail _ member)

theorem position_lt_52 (small : c.seatsIn.length ≤ 23) {target : Destination} (member : target ∈ dealMap c.button c.seatsIn) :
    DealMap.position c.button c.seatsIn target < 52 := by
  have := position_lt (c.sorted.imp Nat.ne_of_lt) member
  omega

theorem Ready.openable (ready : Ready c K m) (dealing : m.Dealing) (small : c.seatsIn.length ≤ 23) {target : Destination}
    (member : target ∈ dealMap c.button c.seatsIn) : m.Openable (DealMap.position c.button c.seatsIn target) := by
  obtain ⟨-, size, -⟩ := ready.active (.inr dealing)
  have inside : DealMap.position c.button c.seatsIn target < m.deck.length := size ▸ position_lt_52 small member
  exact ⟨_, getElem?_eq_getElem inside, (ready.dealing dealing).1 _ (getElem_mem inside)⟩

theorem enterDeal_returns (ready : Ready c K (m.entered c m.shares)) (small : c.seatsIn.length ≤ 23) :
    Returns (enterDeal C c K) m := by
  have openable : ∀ {target}, target ∈ dealMap c.button c.seatsIn →
      (m.entered c m.shares).Openable (DealMap.position c.button c.seatsIn target) := ready.openable (.inl rfl) small
  rw [Returns, enterDeal_eq]
  refine returns_bind (recordOwn_returns ready.secret ?_) fun _ m' recorded => ?_
  · intro pos member
    rw [holesOf_of_mem rfl c.seated, mem_pair] at member
    obtain rfl | rfl := member
    · exact openable (mem_dealMap_hole.mpr ⟨c.seated, by decide⟩)
    exact openable (mem_dealMap_hole.mpr ⟨c.seated, by decide⟩)
  obtain ⟨shares, state, -⟩ := recordOwn_made (c := c) ((m.entered c m.shares).holesOf c.seat) (m.entered c m.shares)
  rw [recorded, after_ok] at state
  subst state
  refine returns_bind ⟨_, _, rfl⟩ fun now m'' got => ?_
  cases got
  refine makeShareMsgs_returns (m := { m.entered c m.shares with shares }) ready.secret fun pos member => ?_
  obtain ⟨s, seated, -, ordinal, below, rfl⟩ := Config.mem_otherHoles.mp member
  exact openable (mem_dealMap_hole.mpr ⟨seated, below⟩)

theorem maybeRunAudit_returns (m : State F G P) : Returns (maybeRunAudit C c) m := by
  unfold Returns maybeRunAudit
  dsimp only
  split
  · exact ⟨_, _, rfl⟩
  split
  · exact ⟨_, _, rfl⟩
  exact ⟨_, _, rfl⟩

theorem onAuditOpen_returns (tame : Tame msg) (attributed : Attributed msg) (m : State F G P) :
    Returns (onAuditOpen C c msg) m := by
  unfold Returns onAuditOpen
  split
  · exact ⟨_, _, rfl⟩
  split
  · rename_i x failed
    rw [if_pos (raises_readAuditOpen attributed x failed)]
    exact abort_returns _ _ m
  split
  · exact abort_returns _ _ m
  split
  · rename_i x failed
    rw [if_pos (malformed_parseWitness tame x failed)]
    exact abort_returns _ _ m
  refine returns_bind ⟨⟨⟩, _, rfl⟩ fun _ m' _ => ?_
  exact returns_bind (maybeRunAudit_returns m') fun _ m'' _ => returns_pure _ m''

theorem fill_returns (inside : pos < m.deck.length) (slot : ℕ) (shares : List G)
    (read : State F G P → List (Option (Fin 52))) (write : State F G P → List (Option (Fin 52)) → State F G P) :
    Returns (fill C pos slot shares read write) m := by
  rcases fill_cases (C := C) pos slot shares read write m with ⟨_, ran⟩ | ⟨_, none, -⟩ | ⟨_, -, ⟨_, -, ran⟩ | ⟨-, ran⟩⟩
  · exact ⟨_, _, ran⟩
  · rw [List.getElem?_eq_none_iff] at none
    omega
  · exact ⟨_, _, ran⟩
  exact ⟨_, _, ran⟩

theorem tryComplete_returns (inside : pos < m.deck.length) : Returns (tryComplete C c pos) m := by
  unfold Returns tryComplete
  split
  · exact ⟨_, _, rfl⟩
  split
  · exact fill_returns inside _ _ _ _
  split
  · exact fill_returns inside _ _ _ _
  exact ⟨_, _, rfl⟩

section

variable (ready : Ready c K m) (small : c.seatsIn.length ≤ 23)
include ready small

theorem onDealShare_returns (tame : Tame msg) : Returns (onDealShare C c msg) m := by
  unfold Returns onDealShare
  split
  · exact ⟨_, _, rfl⟩
  rename_i dealing
  have dealing : m.Dealing := or_iff_not_and_not.mpr dealing
  obtain ⟨keys, size, -⟩ := ready.active (.inr dealing)
  obtain ⟨-, board, holes⟩ := ready.dealing dealing
  split
  · rename_i x failed
    rw [if_pos (malformed_readDealShare tame x failed)]
    exact abort_returns _ _ m
  rename_i pos seat D proof read
  split
  · exact abort_returns _ _ m
  rename_i from' found
  split
  · exact abort_returns _ _ m
  rename_i dealt
  rw [not_or, not_not] at dealt
  obtain ⟨target, member, same⟩ := exists_of_mem_validPositions board holes dealt.2
  have inside : pos.toNat < m.deck.length := by
    rw [size, same]
    exact position_lt_52 small member
  obtain ⟨X, key⟩ := Option.isSome_iff_exists.mp (keys from' (seatOf_mem found))
  have there : (do return (← cardAt m pos.toNat, m.pubkeys from') : Except PyError _) =
      .ok (m.deck[pos.toNat], some X) := by
    rw [cardAt, getElem?_eq_getElem inside, key]
    rfl
  rw [there]
  dsimp only
  split
  · exact abort_returns _ _ m
  refine returns_bind ⟨⟨⟩, _, rfl⟩ fun _ m' ran => ?_
  cases ran
  exact returns_bind (tryComplete_returns inside) fun _ m'' _ => returns_pure _ m''

theorem judgeDeck_returns (shuffling : m.phase = .shuffle) {raw : Json} {round seat : ℕ} :
    Returns (judgeDeck C c K msg raw round seat) m := by
  obtain ⟨keys, -, sound⟩ := ready.active (.inl shuffling)
  unfold Returns judgeDeck
  split
  · rename_i x failed
    rw [if_pos (raises_readDeck raw x failed)]
    exact abort_returns _ _ m
  rename_i deck read
  split
  · exact abort_returns _ _ m
  rename_i size
  rw [not_not] at size
  split
  · exact abort_returns _ _ m
  rename_i nontrivial
  have nontrivial : ∀ ct ∈ deck, ct.c0 ≠ 0 := by simpa using nontrivial
  have follow : ∀ m' : State F G P, m'.xShare = m.xShare → m'.pubkeys = m.pubkeys → m'.joint = m.joint → m'.deck = deck →
      Returns (followRound C c K round) m' := by
    intro m' secret pubkeys joint deck'
    unfold followRound
    split
    · refine enterDeal_returns ⟨secret.trans ready.secret, fun _ => ⟨?_, ?_, ?_⟩, fun _ => ⟨?_, rfl, rfl⟩⟩ small
      · exact fun s seated => (congrFun pubkeys s).symm ▸ keys s seated
      · exact deck' ▸ size
      · exact fun zero => sound (joint.symm.trans zero)
      exact fun ct member => nontrivial ct (deck' ▸ member)
    exact maybeEmitShuffle_returns (deck' ▸ size) (joint ▸ sound)
  split
  · split
    · exact abort_returns _ _ m
    exact follow _ rfl rfl rfl rfl
  exact follow _ rfl rfl rfl rfl

theorem onDeckRound_returns (tame : Tame msg) (attributed : Attributed msg) : Returns (onDeckRound C c K msg) m := by
  unfold Returns onDeckRound
  split
  · exact ⟨_, _, rfl⟩
  rename_i shuffling
  rw [not_not] at shuffling
  split
  · rename_i x failed
    rw [if_pos (malformed_readDeckRound tame attributed x failed)]
    exact abort_returns _ _ m
  split
  · exact ⟨_, _, rfl⟩
  split
  · rename_i expected turn
    split
    · exact abort_returns _ _ m
    exact judgeDeck_returns ready small shuffling
  exact abort_returns _ _ m

theorem dispatch_returns (tame : Tame msg) (attributed : Attributed msg) : Returns (dispatch C c K msg) m := by
  unfold dispatch
  split
  · rename_i key
    exact onKeyAnnounce_returns tame key m
  · exact onDeckRound_returns ready small tame attributed
  · exact onDealShare_returns ready small tame
  · exact onAuditOpen_returns tame attributed m
  exact returns_pure [] m

end

theorem premature_ok (tame : Tame msg) (m : State F G P) : ∃ early, premature C msg m = .ok early := by
  unfold premature
  split
  · split
    · exact ⟨_, rfl⟩
    split
    · exact ⟨_, rfl⟩
    split
    · rename_i x failed
      rw [if_pos (malformed_readRound tame x failed)]
      exact ⟨_, rfl⟩
    exact ⟨_, rfl⟩
  all_goals exact ⟨_, rfl⟩

theorem held_of_move (other : ∀ msg, call ≠ .handle msg) (move : Move C c K call m out m') : m'.held = m.held := by
  cases move with
  | held called => exact absurd called (other _)
  | finish _ _ _ emitted | round _ _ emitted =>
    obtain ⟨_, rfl⟩ := emitted.eq
    rfl
  | _ => rfl

theorem dispatch_held (msg : Message) (m : State F G P) : (after (dispatch C c K msg m)).held = m.held := by
  obtain ⟨out, moves, -⟩ := dispatch_traced (C := C) (c := c) (K := K) .start msg m
  exact moves.keeps (I := fun m' _ => m'.held = m.held) (fun _ _ _ _ same move => (held_of_move (by simp) move).trans same) [] rfl

theorem drainPass_returns {msgs : List Message} (fine : ∀ msg ∈ msgs, Tame msg ∧ Attributed msg) (small : c.seatsIn.length ≤ 23)
    (ready : Ready c K m) :
    ∃ out consumed m', drainPass C c K msgs m = .ok (out, consumed) m' ∧ Ready c K m' ∧
      ∃ left, m'.held = m.held ++ left ∧ left.Sublist msgs ∧ (consumed = true → left.length < msgs.length) := by
  induction msgs generalizing m with
  | nil => exact ⟨[], false, m, rfl, ready, [], (append_nil _).symm, .slnil, nofun⟩
  | cons msg rest ih =>
    have later := fun {m : State F G P} => ih (fun msg member => fine msg (.tail _ member)) (m := m)
    obtain ⟨tame, attributed⟩ := fine msg (.head _)
    unfold drainPass
    split
    · exact ⟨[], false, m, rfl, ready, [], (append_nil _).symm, nil_sublist _, nofun⟩
    obtain ⟨early, due⟩ := premature_ok (C := C) tame m
    rw [due]
    cases early with
    | true =>
      obtain ⟨out, consumed, m', ran, ready', left, held, part, less⟩ := later (m := { m with held := m.held ++ [msg] })
        ⟨ready.secret, ready.active, ready.dealing⟩
      refine ⟨out, consumed, m', ran, ready', msg :: left, ?_, part.cons_cons msg, fun yes => Nat.succ_lt_succ (less yes)⟩
      rw [held, append_assoc]
      rfl
    | false =>
      obtain ⟨out, m1, ran⟩ := dispatch_returns (C := C) ready small tame attributed
      have ready1 := ready.traced (dispatch_traced (C := C) (c := c) (K := K) .start msg m)
      have held1 := dispatch_held (C := C) (c := c) (K := K) msg m
      rw [ran, after_ok] at ready1 held1
      obtain ⟨more, consumed, m', ran', ready', left, held, part, -⟩ := later ready1
      refine ⟨out ++ more, true, m', ?_, ready', left, held1 ▸ held, part.cons msg, fun _ => Nat.lt_succ_of_le part.length_le⟩
      rw [bind_of_ok ran, bind_of_ok ran']
      rfl

section

variable (small : c.seatsIn.length ≤ 23) (ready : Ready c K m) (fine : ∀ msg ∈ m.held, Tame msg ∧ Attributed msg)
include small ready fine

theorem drainFor_returns {passes : ℕ} (enough : m.held.length < passes) :
    ∃ out m', drainFor C c K passes m = .ok out m' ∧ ∀ msg ∈ m'.held, Tame msg ∧ Attributed msg := by
  induction passes generalizing m with
  | zero => omega
  | succ passes ih =>
    unfold drainFor
    split
    · exact ⟨_, _, rfl, fun msg member => absurd member not_mem_nil⟩
    split
    · exact ⟨_, _, rfl, fine⟩
    obtain ⟨out, consumed, m', ran, ready', left, held, part, less⟩ := drainPass_returns (C := C) fine small
      (m := { m with held := [] }) ⟨ready.secret, ready.active, ready.dealing⟩
    have fine' : ∀ msg ∈ m'.held, Tame msg ∧ Attributed msg := by
      rw [held]
      exact fun msg member => fine msg (part.subset member)
    change ∃ out' m'', ((drainPass C c K m.held) >>= _) { m with held := [] } = .ok out' m'' ∧ _
    rw [bind_of_ok ran]
    cases consumed with
    | false => exact ⟨out, m', rfl, fine'⟩
    | true =>
      have fewer : m'.held.length < passes := by
        have := less rfl
        rw [held]
        simp only [nil_append]
        omega
      obtain ⟨more, m'', ran', fine''⟩ := ih ready' fine' fewer
      refine ⟨out ++ more, m'', ?_, fine''⟩
      dsimp only
      rw [if_pos rfl, bind_of_ok ran']
      rfl

theorem handle_returns (tame : Tame msg) (attributed : Attributed msg) :
    ∃ out m', handle C c K msg m = .ok out m' ∧ ∀ msg ∈ m'.held, Tame msg ∧ Attributed msg := by
  unfold handle
  split
  · exact ⟨_, _, rfl, fine⟩
  obtain ⟨early, due⟩ := premature_ok (C := C) tame m
  rw [due]
  cases early with
  | true =>
    unfold hold
    dsimp only
    split
    · exact ⟨_, _, rfl, fine⟩
    refine ⟨_, _, rfl, fun next member => ?_⟩
    obtain before | now := List.mem_append.mp member
    · exact fine next before
    rw [List.mem_singleton.mp now]
    exact ⟨tame, attributed⟩
  | false =>
    obtain ⟨out, m1, ran⟩ := dispatch_returns (C := C) ready small tame attributed
    have ready1 := ready.traced (dispatch_traced (C := C) (c := c) (K := K) .start msg m)
    have held1 := dispatch_held (C := C) (c := c) (K := K) msg m
    rw [ran, after_ok] at ready1 held1
    obtain ⟨more, m', ran', fine'⟩ := drainFor_returns (C := C) small ready1 (held1 ▸ fine) (Nat.lt_succ_self m1.held.length)
    refine ⟨out ++ more, m', ?_, fine'⟩
    dsimp only
    rw [bind_of_ok ran, bind_of_ok (m := get) (a := m1) (t := m1) rfl, bind_of_ok ran']
    rfl

end

theorem start_eq (fresh : m.phase = .keygen) (quiet : m.announced = false) :
    start C c K m = .ok [keyAnnounce C c.seat (K.share • C.base) K.pop]
      { m with xShare := some K.share, announced := true, pubkeys := Function.update m.pubkeys c.seat (some (K.share • C.base)) } := by
  have nonzero : K.share • C.base ≠ 0 := smul_ne_zero K.share_ne C.base_ne
  simp [start, fresh, quiet, Backend.mulBase, Suite.backend, nonzero]

theorem play_append (calls : List Call) (call : Call) :
    play C c K (calls ++ [call]) = Played.call C c K (play C c K calls) call := by
  rw [play, foldl_append]
  rfl

theorem play_started : play C c K [.start] =
    ⟨{ xShare := some K.share, announced := true, pubkeys := Function.update (fun _ => none) c.seat (some (K.share • C.base)) },
      [keyAnnounce C c.seat (K.share • C.base) K.pop]⟩ := by
  change Played.call C c K {} .start = _
  rw [Played.call, make, start_eq rfl rfl]
  rfl

theorem play_fine (small : c.seatsIn.length ≤ 23) {calls : List Call}
    (tame : ∀ msg, .handle msg ∈ calls → Tame msg ∧ Attributed msg) :
    Ready c K (play C c K (.start :: calls)).state ∧
      ∀ msg ∈ (play C c K (.start :: calls)).state.held, Tame msg ∧ Attributed msg := by
  induction calls using List.reverseRecOn with
  | nil =>
    rw [play_started]
    refine ⟨.of_idle rfl nofun ?_, nofun⟩
    rintro (phase | phase) <;> cases phase
  | append_singleton calls call ih =>
    obtain ⟨ready, fine⟩ := ih fun msg member => tame msg (mem_append_left _ member)
    rw [← cons_append, play_append]
    refine ⟨ready.traced (make_traced call _), ?_⟩
    by_cases handled : ∃ msg, call = .handle msg
    · obtain ⟨msg, rfl⟩ := handled
      obtain ⟨next, attributed⟩ := tame msg (mem_append_right _ (List.mem_singleton.mpr rfl))
      obtain ⟨out, m', ran, fine'⟩ := handle_returns (C := C) small ready fine next attributed
      change ∀ msg' ∈ (after (handle C c K msg _)).held, _
      rwa [ran, after_ok]
    have kept : (after (make C c K call (play C c K (.start :: calls)).state)).held = (play C c K (.start :: calls)).state.held := by
      obtain ⟨out, moves, -⟩ := make_traced (C := C) (c := c) (K := K) call (play C c K (.start :: calls)).state
      refine moves.keeps (I := fun m _ => m.held = (play C c K (.start :: calls)).state.held) ?_ [] rfl
      intro _ _ _ _ same move
      exact (held_of_move (fun msg same => handled ⟨msg, same⟩) move).trans same
    change ∀ msg' ∈ (after (make C c K call _)).held, _
    rwa [kept]

variable (C c K)

/-- From its start on, an instance of at most 23 seats raises on no tame message, whatever tame messages
and calls came before. -/
theorem play_returns (small : c.seatsIn.length ≤ 23) (calls : List Call)
    (tame : ∀ msg, .handle msg ∈ calls → Tame msg ∧ Attributed msg) {msg : Message} (next : Tame msg) (attributed : Attributed msg) :
    ∃ out m, handle C c K msg (play C c K (.start :: calls)).state = .ok out m := by
  obtain ⟨ready, fine⟩ := play_fine (C := C) (K := K) small tame
  obtain ⟨out, m, ran, -⟩ := handle_returns (C := C) small ready fine next attributed
  exact ⟨out, m, ran⟩

def announcement (X : Json) : Message :=
  [("type", .str "key_announce"), ("seat", .int 2), ("X_hex", X), ("pop_hex", .str (Sample.hex (2 : ℕ)))]

theorem play_returns_announcement :
    let msg := announcement (.str (Sample.hex 2))
    Tame msg ∧ Attributed msg ∧
      ∃ out m, handle Sample.suite (Sample.pair 1 (by decide)) (Sample.secrets 1 (by decide)) msg
        (play Sample.suite (Sample.pair 1 (by decide)) (Sample.secrets 1 (by decide))
          [.start, .handle msg, .reveal "flop", .handle msg, .openAudit]).state = .ok out m := by
  intro msg
  have tame : Tame msg := by
    refine ⟨fun _ => rfl, fun _ name member value found => ?_, fun name member value found => ?_, nofun⟩
    · simp only [mem_cons, not_mem_nil, or_false] at member
      rcases member with rfl | rfl <;> cases found <;> exact ⟨_, rfl⟩
    simp only [mem_cons, not_mem_nil, or_false] at member
    rcases member with rfl | rfl | rfl <;> cases found
  refine ⟨tame, ⟨2, rfl⟩, play_returns _ _ _ (by decide) _ (fun heard member => ?_) tame ⟨2, rfl⟩⟩
  obtain rfl : heard = msg := by simpa using member
  exact ⟨tame, 2, rfl⟩

/-- `bytes.fromhex` raises a `TypeError` on a number, and `_on_key_announce` catches none. -/
theorem handle_raises : Attributed (announcement (.int 5)) ∧
    raised (handle Sample.suite (Sample.pair 1 (by decide)) (Sample.secrets 1 (by decide)) (announcement (.int 5))
      (play Sample.suite (Sample.pair 1 (by decide)) (Sample.secrets 1 (by decide)) [.start]).state) = some .typeError := by
  refine ⟨⟨2, rfl⟩, ?_⟩
  rw [play_started]
  decide +kernel

end MentalDeal

end Holdem
