import Holdem.Room.Seats

/-!
How a peer-authored message gets to its handler, at most once. A handler may begin a hand, whose start
replays what was put off; so the replays in progress are a stack.
-/

namespace Holdem

namespace Room

variable {T : Type} {env : Env} {tbl : Table T} {r r' r'' : Room T} {ctx : Inbound}

/-- A call of the table: the streams and the number of the hand stay, and a hand that has ended stays ended. -/
structure Handles (r r' : Room T) : Prop where
  seen : r'.authorSeqSeen = r.authorSeqSeen
  handNo : r'.handNo = r.handNo
  record : ∀ record, r.handRecord = some record → r'.handRecord = some record

theorem Handles.refl (r : Room T) : Handles r r := ⟨rfl, rfl, fun _ => id⟩

theorem Handles.same (seen : r'.authorSeqSeen = r.authorSeqSeen) (handNo : r'.handNo = r.handNo)
    (record : r'.handRecord = r.handRecord) : Handles r r' := ⟨seen, handNo, fun _ => record ▸ id⟩

theorem Handles.trans (first : Handles r r') (second : Handles r' r'') : Handles r r'' :=
  ⟨second.seen.trans first.seen, second.handNo.trans first.handNo, fun x => second.record x ∘ first.record x⟩

theorem sendHostless_handles (m : Message) (r : Room T) : Handles r (r.sendHostless m) ∧
    (r.sendHostless m).handRecord = r.handRecord := by
  unfold sendHostless
  split
  · exact ⟨.same rfl rfl rfl, rfl⟩
  split <;> exact ⟨.same rfl rfl rfl, rfl⟩

theorem sendAll_handles (ms : List Message) (r : Room T) : Handles r (r.sendAll ms) := by
  unfold sendAll
  induction ms generalizing r with
  | nil => exact .refl r
  | cons m ms ih => exact (sendHostless_handles m r).1.trans (ih _)

theorem carry_handles (x : Reaction T) (r : Room T) : Handles r (r.carry x) := by
  have moved : Handles r { r with table := x.table } := .same rfl rfl rfl
  have said := moved.trans (sendAll_handles x.broadcast _)
  unfold carry noteDrop
  split
  · exact said
  exact said.trans (.same rfl rfl rfl)

theorem terminate_handles (state : TerminalState) (reason : String) (conn : Option String) (seat : Option ℤ) (r : Room T) :
    Handles r (r.terminate tbl state reason conn seat) := by
  unfold terminate
  split
  · exact .refl r
  exact .same rfl rfl rfl

variable (tbl) in
theorem endOn_handles (ending : Option (TableEnding × String × Option ℤ)) (r : Room T) : Handles r (r.endOn tbl ending) := by
  unfold endOn
  split
  · exact .refl r
  exact terminate_handles ..

def live (tbl : Table T) (r : Room T) : Bool := r.terminal.isNone && r.handRecord.isNone && !tbl.settled r.table

theorem endHand_handles (outcome : HandOutcome) (reason : String) (blamed : Option ℤ) (announce : Bool) (r : Room T) :
    Handles r (r.endHand tbl outcome reason blamed announce) ∧
      (r.live tbl = true → (r.endHand tbl outcome reason blamed announce).handRecord =
        some ⟨r.handNo, outcome, reason, blamed⟩) := by
  unfold endHand live
  split
  · rename_i ended
    refine ⟨.refl r, fun live => ?_⟩
    simp [Option.isNone_eq_false_iff.mpr ended] at live
  split
  · rename_i shut
    refine ⟨.refl r, fun live => ?_⟩
    simp only [Bool.and_eq_true, Bool.not_eq_true', Option.isNone_iff_eq_none] at live
    obtain recorded | settled := shut
    · simp [live.1.2] at recorded
    simp [live.2] at settled
  rename_i fresh
  have none : r.handRecord = none := Option.not_isSome_iff_eq_none.mp (not_or.mp fresh).1
  have recorded : Handles r { r with handRecord := some ⟨r.handNo, outcome, reason, blamed⟩ } :=
    ⟨rfl, rfl, fun x known => nomatch none.symm.trans known⟩
  split
  · exact ⟨recorded, fun _ => rfl⟩
  have ends : ∀ told : Room T, Handles { r with handRecord := some ⟨r.handNo, outcome, reason, blamed⟩ } told →
      Handles r ((told.carry (tbl.react .handEnded told)).endOn tbl (tbl.react .handEnded told).ending) ∧
        ((told.carry (tbl.react .handEnded told)).endOn tbl (tbl.react .handEnded told).ending).handRecord =
          some ⟨r.handNo, outcome, reason, blamed⟩ := by
    intro told noted
    have after := (noted.trans (carry_handles (tbl.react .handEnded told) told)).trans
      (endOn_handles tbl (tbl.react .handEnded told).ending _)
    exact ⟨recorded.trans after, after.record _ rfl⟩
  split
  · obtain ⟨handles, kept⟩ := ends _ (sendHostless_handles _ _).1
    exact ⟨handles, fun _ => kept⟩
  obtain ⟨handles, kept⟩ := ends _ (.refl _)
  exact ⟨handles, fun _ => kept⟩

theorem apply_handles (x : Reaction T) (r : Room T) : Handles r (r.apply tbl x) := by
  have stopped : Handles (r.carry x) ((r.carry x).stopOn tbl x.stop) := by
    unfold stopOn
    split
    · exact .refl _
    exact (endHand_handles ..).1
  exact ((carry_handles x r).trans stopped).trans (endOn_handles ..)

theorem compareConfirmation_handles (reporter : ℤ) (notice : Message) (r : Room T) :
    Handles r (r.compareConfirmation reporter notice) := by
  unfold compareConfirmation
  repeat' split
  all_goals exact .same rfl rfl rfl

/-- The message gets as far as the check of its number in the current hand, and the number is one that
is looked for. -/
def reachesCheck (tbl : Table T) (ctx : Inbound) (r : Room T) : Bool :=
  match ctx.seat, authorSeq ctx.body with
  | some seat, some got =>
    decide (seat ∉ tbl.departed r.table) && !ctx.isLocal && r.authorOwnsSeat ctx.connId ctx.author seat &&
      r.sequenceShapeOk tbl ctx.body && decide (ctx.hand = some r.handNo) &&
      decide (got ≤ highest (r.authorSeqSeen (r.handNo, seat)) + authorSeqLookahead)
  | _, _ => false

def shown (seat got : ℤ) (r : Room T) : Option String := (r.authorSeqSeen (r.handNo, seat)).lookup got

def noteShown (seat got : ℤ) (fingerprint : String) (r : Room T) : Room T :=
  let seen := r.authorSeqSeen (r.handNo, seat)
  { r with authorSeqSeen := Function.update r.authorSeqSeen (r.handNo, seat) (seen ++ [(got, fingerprint)]) }

inductive Verdict (tbl : Table T) (ctx : Inbound) (r : Room T) : Bool × Room T → Prop where
  | refused (again : r.reachesCheck tbl ctx = true → ∀ seat got, ctx.seat = some seat → authorSeq ctx.body = some got →
      r.shown seat got = some ctx.fingerprint) : Verdict tbl ctx r (false, r)
  | elsewhere (hand : ctx.hand ≠ some r.handNo) : Verdict tbl ctx r (true, r)
  | first {seat got : ℤ} (claimed : ctx.seat = some seat) (numbered : authorSeq ctx.body = some got)
      (hand : ctx.hand = some r.handNo) (new : r.shown seat got = none) :
      Verdict tbl ctx r (true, r.noteShown seat got ctx.fingerprint)
  | equivocated {seat got : ℤ} {prior : String} (claimed : ctx.seat = some seat)
      (numbered : authorSeq ctx.body = some got) (known : r.shown seat got = some prior)
      (other : prior ≠ ctx.fingerprint) :
      Verdict tbl ctx r (false, r.endHand tbl .voidEquivocation (equivocation seat got prior ctx.fingerprint) (some seat) true)

theorem authorize_verdict (wire : r.wire = true) (away : ctx.isLocal = false) :
    Verdict tbl ctx r (r.authorize tbl ctx) := by
  unfold authorize
  rw [if_neg (by simp [away])]
  split
  · rename_i seatless
    rw [wire]
    refine .refused fun reaches => ?_
    simp [reachesCheck, seatless] at reaches
  rename_i seat claimed
  split
  · rename_i owns
    unfold sequenceOk
    split
    · rename_i shape
      refine .refused fun reaches => ?_
      unfold reachesCheck at reaches
      rw [claimed] at reaches
      split at reaches
      · simp [shape] at reaches
      cases reaches
    rename_i shape
    split
    · rename_i hand
      unfold authorSeqOk
      split
      · rename_i unnumbered
        simp [sequenceShapeOk, unnumbered, P2p.authorSequenceShapeOk, wire] at shape
      rename_i got numbered
      dsimp only
      split
      · rename_i ahead
        refine .refused fun reaches => ?_
        unfold reachesCheck at reaches
        rw [claimed, numbered] at reaches
        simp only [Bool.and_eq_true, decide_eq_true_eq] at reaches
        omega
      split
      · rename_i new
        exact .first claimed numbered hand new
      rename_i prior known
      split
      · rename_i same
        refine .refused fun _ seat' got' claimed' numbered' => ?_
        cases claimed.symm.trans claimed'
        cases numbered.symm.trans numbered'
        exact same ▸ known
      rename_i other
      exact .equivocated claimed numbered known other
    rename_i hand
    exact .elsewhere hand
  rename_i foreign
  refine .refused fun reaches => ?_
  unfold reachesCheck at reaches
  rw [claimed] at reaches
  split at reaches
  · rename_i seat' got same numbered
    cases same
    simp [foreign] at reaches
  cases reaches

structure Keeps (r r' : Room T) : Prop where
  charter : r'.charter = r.charter
  handNo : r'.handNo = r.handNo
  shown : ∀ seat got fingerprint, r.shown seat got = some fingerprint → r'.shown seat got = some fingerprint
  record : ∀ record, r.handRecord = some record → r'.handRecord = some record

theorem Keeps.refl (r : Room T) : Keeps r r := ⟨rfl, rfl, fun _ _ _ => id, fun _ => id⟩

theorem Keeps.trans (first : Keeps r r') (second : Keeps r' r'') : Keeps r r'' :=
  ⟨second.charter.trans first.charter, second.handNo.trans first.handNo,
    fun seat got x => second.shown seat got x ∘ first.shown seat got x, fun x => second.record x ∘ first.record x⟩

theorem Handles.keeps (handles : Handles r r') (charter : r'.charter = r.charter) : Keeps r r' := by
  refine ⟨charter, handles.handNo, fun seat got x known => ?_, handles.record⟩
  unfold shown at known ⊢
  rwa [handles.seen, handles.handNo]

theorem noteShown_shown (seat got : ℤ) (fingerprint : String) (r : Room T) (seat' got' : ℤ) :
    (r.noteShown seat got fingerprint).shown seat' got' =
      if seat' = seat then (r.shown seat' got').or (if got' = got then some fingerprint else none)
      else r.shown seat' got' := by
  unfold noteShown shown
  dsimp only
  by_cases same : seat' = seat
  · subst same
    rw [Function.update_self, if_pos rfl, List.lookup_append]
    congr 1
    rw [List.lookup_cons]
    by_cases number : got' = got
    · simp [number]
    rw [beq_eq_false_iff_ne.mpr number, if_neg number]
    rfl
  rw [Function.update_of_ne (by simpa using same), if_neg same]

theorem noteShown_keeps {seat got : ℤ} (fingerprint : String) : Keeps r (r.noteShown seat got fingerprint) := by
  refine ⟨rfl, rfl, fun seat' got' x known => ?_, fun _ => id⟩
  rw [noteShown_shown, known]
  split <;> rfl

theorem Verdict.keeps {out : Bool × Room T} (verdict : Verdict tbl ctx r out) : Keeps r out.2 := by
  cases verdict with
  | refused => exact .refl r
  | elsewhere => exact .refl r
  | first => exact noteShown_keeps _
  | equivocated =>
    exact (endHand_handles ..).1.keeps (endHand_tabled (P := fun _ => False) ..).charter

theorem route_handles (relay : Bool) (ctx : Inbound) (r : Room T) : Handles r (r.route env tbl relay ctx).2 := by
  have queued : Handles r (r.queueFutureHostless env tbl ctx).2 := by
    unfold queueFutureHostless
    repeat' split
    all_goals exact .same rfl rfl rfl
  have relayed : ∀ r : Room T, Handles r (r.relayIfHost ctx) := by
    intro r
    unfold relayIfHost
    split <;> exact .same rfl rfl rfl
  unfold route
  split
  · split
    · rename_i r' kept
      rw [kept] at queued
      split
      · exact queued.trans (relayed r')
      exact queued
    rename_i r' dropped
    rwa [dropped] at queued
  repeat' split
  · exact .refl r
  · exact .same rfl rfl rfl
  · exact .refl r
  exact relayed r

variable (env tbl) in
theorem admitHostless_cases (wire : r.wire = true) (away : ctx.isLocal = false) (relay : Bool) :
    r.admitHostless env tbl relay ctx = (false, r) ∧ r.reachesCheck tbl ctx = false ∨
      ∃ out, Verdict tbl ctx r out ∧ Keeps out.2 (r.admitHostless env tbl relay ctx).2 ∧
        ((r.admitHostless env tbl relay ctx).1 = true → out.1 = true) := by
  unfold admitHostless
  split
  · rename_i gone
    refine .inl ⟨rfl, ?_⟩
    unfold reachesCheck
    split
    · rename_i seat got claimed _
      have departed : seat ∈ tbl.departed r.table := by simpa [claimed] using gone
      simp [departed]
    rfl
  refine .inr ⟨r.authorize tbl ctx, authorize_verdict wire away, ?_⟩
  split
  · rename_i r' refused
    rw [refused]
    exact ⟨.refl r', nofun⟩
  rename_i r' passed
  rw [passed]
  refine ⟨(route_handles relay ctx r').keeps (route_tabled (P := fun _ => True) trivial relay r').charter, fun _ => rfl⟩

/-- A room with the replays in progress, innermost first, and two notes that only the proofs read: what was
handed over for the hand of the current number since that number was set, and what was checked since the
hand began while it was live. -/
structure Ingress (T : Type) where
  room : Room T
  frames : List (List Deferred) := []
  handedNow : List Inbound := []
  checked : List Inbound := []

namespace Ingress

open List Relation

variable {s s' s'' : Ingress T} {frames : List (List Deferred)}

def takeIn (env : Env) (tbl : Table T) (relay : Bool) (ctx : Inbound) (s : Ingress T) : Ingress T :=
  let checked := if s.room.live tbl && s.room.reachesCheck tbl ctx then ctx :: s.checked else s.checked
  match s.room.admitHostless env tbl relay ctx with
  | (true, r) =>
    { s with
      room := { r with handed := r.handed ++ [ctx] }
      handedNow := if ctx.hand = some s.room.handNo then ctx :: s.handedNow else s.handedNow
      checked }
  | (false, r) => { s with room := r, checked }

/-- A hand begins; `afresh` is false for `begin_hand`, which keeps the record of the last one. -/
def begin (hand : ℤ) (afresh : Bool) (s : Ingress T) : Ingress T :=
  { s with
    room := (if afresh then { s.room with handRecord := none } else s.room).publishHand hand
    handedNow := if hand = s.room.handNo then s.handedNow else []
    checked := [] }

def Away (r : Room T) (ctx : Inbound) : Prop := ctx.isLocal = false ∧ r.localConnId ≠ some ctx.connId

inductive Step (env : Env) (tbl : Table T) : Ingress T → Ingress T → Prop where
  | hear {s : Ingress T} (ctx : Inbound) (away : Away s.room ctx) : Step env tbl s (s.takeIn env tbl true ctx)
  | handled {s : Ingress T} (x : Reaction T) : Step env tbl s { s with room := s.room.apply tbl x }
  | compared {s : Ingress T} (reporter : ℤ) (notice : Message) :
      Step env tbl s { s with room := s.room.compareConfirmation reporter notice }
  | begins {s : Ingress T} (hand : ℤ) (afresh : Bool) : Step env tbl s (s.begin hand afresh)
  | opens {s : Ingress T} : Step env tbl s
      { s with
        room := { s.room with msgBuffer := [], activeReplays := s.room.msgBuffer :: s.room.activeReplays }
        frames := s.room.msgBuffer :: s.frames }
  | replayed {s : Ingress T} {item rest frames} (top : s.frames = (item :: rest) :: frames)
      (on : s.room.terminal = none) (due : item.incoming.hand = some s.room.handNo) :
      Step env tbl s { s.takeIn env tbl false item.incoming with frames := rest :: frames }
  | dropped {s : Ingress T} {item rest frames} (top : s.frames = (item :: rest) :: frames) :
      Step env tbl s { s with frames := rest :: frames }
  | requeued {s : Ingress T} {item rest frames} (top : s.frames = (item :: rest) :: frames) : Step env tbl s
        { s with room := { s.room with msgBuffer := s.room.msgBuffer ++ [item] }, frames := rest :: frames }
  | closes {s : Ingress T} {remaining frames} (top : s.frames = remaining :: frames)
      (done : remaining = [] ∨ s.room.terminal.isSome = true) :
      Step env tbl s { s with room := { s.room with activeReplays := s.room.activeReplays.tail }, frames }

abbrev Steps (env : Env) (tbl : Table T) : Ingress T → Ingress T → Prop := ReflTransGen (Step env tbl)

def streamKey (ctx : Inbound) : Option ℤ × Option ℤ := (ctx.seat, authorSeq ctx.body)

def Shown (r : Room T) (fingerprint : Option String) (ctx : Inbound) : Prop :=
  ∃ seat got, ctx.seat = some seat ∧ authorSeq ctx.body = some got ∧ r.shown seat got = fingerprint

structure Sound (s : Ingress T) : Prop where
  wire : s.room.wire = true
  held : ∀ item ∈ s.room.msgBuffer, Away s.room item.incoming
  frames : ∀ frame ∈ s.frames, ∀ item ∈ frame, Away s.room item.incoming
  handed : ∀ ctx ∈ s.room.handed, Signed s.room.seatKeys ctx
  once : (s.handedNow.map streamKey).Nodup
  current : ∀ ctx ∈ s.handedNow, ctx.hand = some s.room.handNo ∧ ∃ fingerprint, Shown s.room (some fingerprint) ctx
  checked : s.room.handRecord = none → ∀ e ∈ s.checked, Shown s.room (some e.fingerprint) e

theorem Away.of_charter (same : r'.charter = r.charter) (away : Away r ctx) : Away r' ctx := by
  have conn : r'.localConnId = r.localConnId := congrArg Charter.localConnId same
  exact ⟨away.1, conn ▸ away.2⟩

theorem Shown.kept {fingerprint : String} (keeps : Keeps r r') (shown : Shown r (some fingerprint) ctx) :
    Shown r' (some fingerprint) ctx := by
  obtain ⟨seat, got, claimed, numbered, known⟩ := shown
  exact ⟨seat, got, claimed, numbered, keeps.shown seat got _ known⟩

theorem Sound.keeps (sound : Sound s) (keeps : Keeps s.room r') {frames' : List (List Deferred)}
    (held : ∀ item ∈ r'.msgBuffer, Away s.room item.incoming) (frames : ∀ frame ∈ frames', ∀ item ∈ frame, Away s.room item.incoming)
    (handed : ∀ ctx ∈ r'.handed, ctx ∈ s.room.handed) : Sound { s with room := r', frames := frames' } := by
  have keys : r'.seatKeys = s.room.seatKeys := congrArg Charter.seatKeys keeps.charter
  refine ⟨(congrArg Charter.wire keeps.charter).trans sound.wire, fun item member => (held item member).of_charter keeps.charter,
    fun frame member item inside => (frames frame member item inside).of_charter keeps.charter, fun ctx member => ?_, sound.once,
    fun ctx member => ?_, fun fresh e member => ?_⟩
  · dsimp only
    rw [keys]
    exact sound.handed ctx (handed ctx member)
  · obtain ⟨hand, fingerprint, shown⟩ := sound.current ctx member
    exact ⟨hand.trans (congrArg some keeps.handNo.symm), fingerprint, shown.kept keeps⟩
  have before : s.room.handRecord = none := by
    by_contra known
    obtain ⟨record, known⟩ := Option.ne_none_iff_exists'.mp known
    cases fresh.symm.trans (keeps.record record known)
  exact (sound.checked before e member).kept keeps

theorem Sound.top (sound : Sound s) {frame : List Deferred} (top : s.frames = frame :: frames) :
    ∀ item ∈ frame, Away s.room item.incoming := sound.frames frame (top ▸ mem_cons_self)

theorem Sound.below (sound : Sound s) {item : Deferred} {rest : List Deferred}
    (top : s.frames = (item :: rest) :: frames) : Sound { s with frames := rest :: frames } := by
  refine sound.keeps (.refl _) sound.held (fun frame member other inside => ?_) fun _ => id
  obtain rfl | later := mem_cons.mp member
  · exact sound.top top other (.tail _ inside)
  exact sound.frames frame (top ▸ mem_cons_of_mem _ later) other inside

variable (env tbl) in
theorem takeIn_room (relay : Bool) (ctx : Inbound) (s : Ingress T) : (s.takeIn env tbl relay ctx).room =
        { (s.room.admitHostless env tbl relay ctx).2 with handed := if (s.room.admitHostless env tbl relay ctx).1 then
            (s.room.admitHostless env tbl relay ctx).2.handed ++ [ctx] else (s.room.admitHostless env tbl relay ctx).2.handed } ∧
      (s.takeIn env tbl relay ctx).frames = s.frames ∧
      (s.takeIn env tbl relay ctx).handedNow =
        (if (s.room.admitHostless env tbl relay ctx).1 ∧ ctx.hand = some s.room.handNo then ctx :: s.handedNow else s.handedNow) ∧
      (s.takeIn env tbl relay ctx).checked =
        if s.room.live tbl && s.room.reachesCheck tbl ctx then ctx :: s.checked else s.checked := by
  unfold takeIn
  cases (s.room.admitHostless env tbl relay ctx) with
  | mk ok r => cases ok <;> simp

theorem reachesCheck_claims (reaches : r.reachesCheck tbl ctx = true) :
    ∃ seat got, ctx.seat = some seat ∧ authorSeq ctx.body = some got ∧ ctx.hand = some r.handNo := by
  unfold reachesCheck at reaches
  split at reaches
  · rename_i seat got claimed numbered
    simp only [Bool.and_eq_true, decide_eq_true_eq] at reaches
    exact ⟨seat, got, claimed, numbered, reaches.1.2⟩
  cases reaches

variable (env tbl) in
theorem admitHostless_shown (wire : r.wire = true) (away : ctx.isLocal = false) (relay : Bool) :
    Keeps r (r.admitHostless env tbl relay ctx).2 ∧
      ((r.admitHostless env tbl relay ctx).1 = true → ctx.hand = some r.handNo →
        Shown r none ctx ∧ Shown (r.admitHostless env tbl relay ctx).2 (some ctx.fingerprint) ctx) ∧
      (r.live tbl = true → r.reachesCheck tbl ctx = true → (r.admitHostless env tbl relay ctx).2.handRecord = none →
        Shown (r.admitHostless env tbl relay ctx).2 (some ctx.fingerprint) ctx) := by
  obtain ⟨same, unreached⟩ | ⟨out, verdict, after, passes⟩ := admitHostless_cases env tbl wire away relay
  · rw [same]
    exact ⟨.refl r, nofun, fun _ reaches => nomatch unreached.symm.trans reaches⟩
  refine ⟨verdict.keeps.trans after, fun passed current => ?_, fun live reaches none => ?_⟩
  · cases verdict with
    | refused => cases passes passed
    | elsewhere hand => exact (hand current).elim
    | equivocated => cases passes passed
    | @first seat got claimed numbered _ new =>
      refine ⟨⟨seat, got, claimed, numbered, new⟩, Shown.kept after ⟨seat, got, claimed, numbered, ?_⟩⟩
      rw [noteShown_shown, if_pos rfl, if_pos rfl, new]
      rfl
  obtain ⟨seat, got, claimed, numbered, hand⟩ := reachesCheck_claims reaches
  cases verdict with
  | refused again => exact Shown.kept after ⟨seat, got, claimed, numbered, again reaches seat got claimed numbered⟩
  | elsewhere elsewhere => exact (elsewhere hand).elim
  | @first seat' got' claimed' numbered' _ new =>
    refine Shown.kept after ⟨seat', got', claimed', numbered', ?_⟩
    rw [noteShown_shown, if_pos rfl, if_pos rfl, new]
    rfl
  | @equivocated seat' got' prior =>
    have recorded := (endHand_handles .voidEquivocation (equivocation seat' got' prior ctx.fingerprint) (some seat') true r).2
      live
    cases none.symm.trans (after.record _ recorded)

theorem Sound.takeIn (sound : Sound s) (away : Away s.room ctx) (relay : Bool) : Sound (s.takeIn env tbl relay ctx) := by
  obtain ⟨room, frames, handedNow, checked⟩ := takeIn_room env tbl relay ctx s
  have tabled := admitHostless_tabled (P := (· = ctx)) env tbl rfl relay s.room
  obtain ⟨keeps, current, again⟩ := admitHostless_shown env tbl sound.wire away.1 relay
  have signed : Accepted s.room ctx → Signed s.room.seatKeys ctx := fun accepted =>
    (accepted.signed sound.wire away.1 away.2).2
  have passed : (s.room.admitHostless env tbl relay ctx).1 = true → Accepted s.room ctx := admitHostless_accepted
  have keys : (s.room.admitHostless env tbl relay ctx).2.seatKeys = s.room.seatKeys := congrArg Charter.seatKeys tabled.charter
  refine ⟨?_, ?_, ?_, ?_, ?_, ?_, ?_⟩
  · rw [room]
    exact (congrArg Charter.wire tabled.charter).trans sound.wire
  · rw [room]
    intro item member
    refine Away.of_charter (r := s.room) tabled.charter ?_
    obtain before | now := tabled.buffer item member
    · exact sound.held item before
    rw [now]
    exact away
  · rw [room, frames]
    exact fun frame member item inside => (sound.frames frame member item inside).of_charter tabled.charter
  · rw [room]
    rw [keys]
    have before : ∀ ctx' ∈ (s.room.admitHostless env tbl relay ctx).2.handed, Signed s.room.seatKeys ctx' := by
      intro ctx' member
      obtain before | ⟨rfl, accepted⟩ := tabled.handed ctx' member
      · exact sound.handed ctx' before
      exact signed accepted
    intro ctx' member
    split at member
    · rename_i ok
      obtain earlier | now := mem_append.mp member
      · exact before ctx' earlier
      rw [mem_singleton.mp now]
      exact signed (passed ok)
    exact before ctx' member
  · rw [handedNow]
    split
    · rename_i ok
      -- a number that was shown is not handed over again
      refine nodup_cons.mpr ⟨fun member => ?_, sound.once⟩
      obtain ⟨other, earlier, same⟩ := mem_map.mp member
      obtain ⟨-, fingerprint, seat, got, claimed, numbered, shown⟩ := sound.current other earlier
      obtain ⟨seat', got', claimed', numbered', new⟩ := (current ok.1 ok.2).1
      have both : (some seat, some got) = (some seat', some got') := by
        rw [← claimed, ← numbered, ← claimed', ← numbered']
        exact same
      cases both
      cases new.symm.trans shown
    exact sound.once
  · rw [handedNow, room]
    have before : ∀ ctx' ∈ s.handedNow, ctx'.hand = some (s.room.admitHostless env tbl relay ctx).2.handNo ∧
        ∃ fingerprint, Shown (s.room.admitHostless env tbl relay ctx).2 (some fingerprint) ctx' := by
      intro ctx' member
      obtain ⟨hand, fingerprint, shown⟩ := sound.current ctx' member
      exact ⟨hand.trans (congrArg some keeps.handNo.symm), fingerprint, shown.kept keeps⟩
    intro ctx' member
    split at member
    · rename_i ok
      obtain rfl | earlier := mem_cons.mp member
      · exact ⟨ok.2.trans (congrArg some keeps.handNo.symm), _, (current ok.1 ok.2).2⟩
      exact before ctx' earlier
    exact before ctx' member
  rw [checked, room]
  intro fresh e member
  have before : s.room.handRecord = none := by
    by_contra known
    obtain ⟨record, known⟩ := Option.ne_none_iff_exists'.mp known
    cases fresh.symm.trans (keeps.record record known)
  have earlier : e ∈ s.checked → Shown (s.room.admitHostless env tbl relay ctx).2 (some e.fingerprint) e := fun member =>
    (sound.checked before e member).kept keeps
  split at member
  · rename_i both
    rw [Bool.and_eq_true] at both
    obtain rfl | member := mem_cons.mp member
    · exact again both.1 both.2 fresh
    exact earlier member
  exact earlier member

theorem publishHand_shown (hand seat got : ℤ) (r : Room T) (same : hand = r.handNo) :
    (r.publishHand hand).shown seat got = r.shown seat got := by
  subst same
  unfold publishHand shown
  simp

theorem Step.sound (step : Step env tbl s s') (sound : Sound s) : Sound s' := by
  cases step with
  | hear ctx away => exact sound.takeIn away true
  | handled x =>
    have tabled := (apply_tabled x s.room : Tabled (fun _ => False) s.room (s.room.apply tbl x))
    refine sound.keeps ((apply_handles x s.room).keeps tabled.charter) (fun item member => ?_) sound.frames fun ctx member => ?_
    · exact sound.held item ((tabled.buffer item member).resolve_right id)
    exact (tabled.handed ctx member).resolve_right fun none => none.1
  | compared reporter notice =>
    have tabled := compareConfirmation_tabled (P := fun _ => False) reporter notice s.room
    refine sound.keeps ((compareConfirmation_handles reporter notice s.room).keeps tabled.charter) (fun item member => ?_)
      sound.frames fun ctx member => ?_
    · exact sound.held item ((tabled.buffer item member).resolve_right id)
    exact (tabled.handed ctx member).resolve_right fun none => none.1
  | begins hand afresh =>
    have fields : ∀ r : Room T, r.charter = s.room.charter → r.msgBuffer = s.room.msgBuffer → r.handed = s.room.handed →
        r.handNo = s.room.handNo → r.authorSeqSeen = s.room.authorSeqSeen →
        Sound { s with room := r.publishHand hand, handedNow := if hand = s.room.handNo then s.handedNow else [], checked := [] } := by
      intro r charter buffer handed number seen
      have keys : r.seatKeys = s.room.seatKeys := congrArg Charter.seatKeys charter
      refine ⟨(congrArg Charter.wire charter).trans sound.wire, fun item member => ?_, fun frame member item inside => ?_,
        fun ctx member => ?_, ?_, fun ctx member => ?_, fun _ => nofun⟩
      · exact (sound.held item (buffer ▸ member)).of_charter charter
      · exact (sound.frames frame member item inside).of_charter charter
      · show Signed r.seatKeys ctx
        rw [keys]
        exact sound.handed ctx (handed ▸ member)
      · dsimp only
        split
        · exact sound.once
        exact nodup_nil
      dsimp only at member
      split at member
      · rename_i same
        obtain ⟨current, fingerprint, seat, got, claimed, numbered, shown⟩ := sound.current ctx member
        refine ⟨current.trans (congrArg some same.symm), fingerprint, seat, got, claimed, numbered, ?_⟩
        rw [publishHand_shown hand seat got r (same.trans number.symm), ← shown]
        unfold Room.shown
        rw [seen, number]
      cases member
    unfold begin
    cases afresh
    · exact fields s.room rfl rfl rfl rfl rfl
    exact fields { s.room with handRecord := none } rfl rfl rfl rfl rfl
  | opens =>
    have keeps : Keeps s.room { s.room with msgBuffer := [], activeReplays := s.room.msgBuffer :: s.room.activeReplays } :=
      ⟨rfl, rfl, fun _ _ _ => id, fun _ => id⟩
    refine sound.keeps keeps (fun _ member => nomatch member) (fun frame member => ?_) fun _ => id
    obtain rfl | later := mem_cons.mp member
    · exact sound.held
    exact sound.frames frame later
  | @replayed item rest frames top on due =>
    have inside := sound.top top
    exact (sound.takeIn (inside item (.head _)) false).below ((takeIn_room env tbl false item.incoming s).2.1.trans top)
  | dropped top => exact sound.below top
  | @requeued item rest frames top =>
    have inside := sound.top top
    have keeps : Keeps s.room { s.room with msgBuffer := s.room.msgBuffer ++ [item] } :=
      ⟨rfl, rfl, fun _ _ _ => id, fun _ => id⟩
    refine (sound.below top).keeps keeps (fun other member => ?_) (sound.below top).frames fun _ => id
    obtain before | now := mem_append.mp member
    · exact sound.held other before
    rw [mem_singleton.mp now]
    exact inside item (.head _)
  | @closes remaining frames top =>
    have keeps : Keeps s.room { s.room with activeReplays := s.room.activeReplays.tail } :=
      ⟨rfl, rfl, fun _ _ _ => id, fun _ => id⟩
    refine sound.keeps keeps sound.held (fun frame member => ?_) fun _ => id
    exact sound.frames frame (top ▸ mem_cons_of_mem _ member)

structure Start (s : Ingress T) : Prop where
  wire : s.room.wire = true
  msgBuffer : s.room.msgBuffer = []
  frames : s.frames = []
  handed : s.room.handed = []
  handedNow : s.handedNow = []
  checked : s.checked = []

theorem Start.sound (start : Start s) : Sound s := by
  refine ⟨start.wire, ?_, ?_, ?_, ?_, ?_, ?_⟩
  · rw [start.msgBuffer]
    exact nofun
  · rw [start.frames]
    exact nofun
  · rw [start.handed]
    exact nofun
  · rw [start.handedNow]
    exact nodup_nil
  · rw [start.handedNow]
    exact nofun
  rw [start.checked]
  exact fun _ => nofun

theorem Step.charter (step : Step env tbl s s') : s'.room.charter = s.room.charter := by
  have admitted : ∀ relay ctx, (s.takeIn env tbl relay ctx).room.charter = s.room.charter := by
    intro relay ctx
    rw [(takeIn_room env tbl relay ctx s).1]
    exact (admitHostless_tabled (P := fun _ => True) env tbl trivial relay s.room).charter
  cases step with
  | hear ctx => exact admitted true ctx
  | handled x => exact (apply_tabled (P := fun _ => True) x s.room).charter
  | compared reporter notice => exact (compareConfirmation_tabled (P := fun _ => True) reporter notice s.room).charter
  | begins hand afresh =>
    unfold begin
    cases afresh <;> rfl
  | replayed => exact admitted false _
  | _ => rfl

def envelopeKey (ctx : Inbound) : Option ℤ × Option ℤ × Option ℤ × String :=
  (ctx.hand, ctx.seat, authorSeq ctx.body, ctx.fingerprint)

theorem Steps.sound (steps : Steps env tbl s s') (sound : Sound s) : Sound s' ∧ s'.room.charter = s.room.charter := by
  induction steps with
  | refl => exact ⟨sound, rfl⟩
  | tail _ step ih => exact ⟨step.sound ih.1, step.charter.trans ih.2⟩

theorem Sound.equivocation (sound : Sound s) (away : ctx.isLocal = false) (live : s.room.live tbl = true)
    (reaches : s.room.reachesCheck tbl ctx = true) {e : Inbound} (member : e ∈ s.checked) (seats : e.seat = ctx.seat)
    (numbers : authorSeq e.body = authorSeq ctx.body) (other : e.fingerprint ≠ ctx.fingerprint) (relay : Bool) :
    ∃ seat reason, ctx.seat = some seat ∧ (s.room.admitHostless env tbl relay ctx).2.handRecord =
      some ⟨s.room.handNo, .voidEquivocation, reason, some seat⟩ := by
  have fresh : s.room.handRecord = none := by
    simp only [Room.live, Bool.and_eq_true, Option.isNone_iff_eq_none] at live
    exact live.1.2
  obtain ⟨seat, got, claimed, numbered, shown⟩ := sound.checked fresh e member
  rw [seats] at claimed
  rw [numbers] at numbered
  obtain ⟨-, unreached⟩ | ⟨out, verdict, after, -⟩ := admitHostless_cases env tbl sound.wire away relay
  · cases unreached.symm.trans reaches
  cases verdict with
  | refused again =>
    have same := shown.symm.trans (again reaches seat got claimed numbered)
    exact (other (Option.some.inj same)).elim
  | elsewhere elsewhere =>
    obtain ⟨_, _, _, _, hand⟩ := reachesCheck_claims reaches
    exact (elsewhere hand).elim
  | first claimed' numbered' _ new =>
    cases claimed.symm.trans claimed'
    cases numbered.symm.trans numbered'
    cases new.symm.trans shown
  | @equivocated seat' got' prior claimed' =>
    have recorded := (endHand_handles .voidEquivocation (Room.equivocation seat' got' prior ctx.fingerprint) (some seat') true
      s.room).2 live
    exact ⟨seat', _, claimed', after.record _ recorded⟩

/-- However messages are repeated, reordered, put off and replayed, each is handed over at most once while
its hand is the current one, only if its seat's key signs it, and a second message under a number that
was checked voids a live hand and blames the seat. -/
theorem delivered_once (env : Env) (tbl : Table T) {s₀ s : Ingress T} (start : Start s₀) (steps : Steps env tbl s₀ s) :
    (s.handedNow.map envelopeKey).Nodup ∧
    (∀ ctx ∈ s.room.handed, Signed s₀.room.seatKeys ctx) ∧
    ∀ relay ctx e, ctx.isLocal = false → s.room.live tbl = true → s.room.reachesCheck tbl ctx = true → e ∈ s.checked →
      e.seat = ctx.seat → authorSeq e.body = authorSeq ctx.body → e.fingerprint ≠ ctx.fingerprint →
      ∃ seat reason, ctx.seat = some seat ∧ (s.room.admitHostless env tbl relay ctx).2.handRecord =
        some ⟨s.room.handNo, .voidEquivocation, reason, some seat⟩ := by
  obtain ⟨sound, charter⟩ := steps.sound start.sound
  have keys : s.room.seatKeys = s₀.room.seatKeys := congrArg Charter.seatKeys charter
  refine ⟨?_, fun ctx member => keys ▸ sound.handed ctx member, fun relay ctx e away live reaches member seats numbers other => ?_⟩
  · -- a copy has the number of the original
    have finer : (s.handedNow.map envelopeKey).map (fun key => (key.2.1, key.2.2.1)) = s.handedNow.map streamKey := by
      rw [List.map_map]
      rfl
    exact Nodup.of_map _ (finer ▸ sound.once)
  exact sound.equivocation away live reaches member seats numbers other relay

namespace Sample

def firstBet : Inbound :=
  { kind := .betAction, body := [("author_seq", .int 0)], connId := "h", author := some (Hex.encode Sample.hostKey)
    seat := some 1, hand := some 1, fingerprint := "", isLocal := false, envelope := [] }

def playing : Ingress Unit :=
  { room := run Sample.env Sample.table (Sample.seating "a" ++ [Sample.firstHand]) Sample.joiner }

def twice : Ingress Unit :=
  (playing.takeIn Sample.env Sample.table true firstBet).takeIn Sample.env Sample.table true firstBet

end Sample

theorem delivered_once_sample :
    Sample.twice.handedNow.map envelopeKey = [(some 1, some 1, some 0, "")] ∧ (Sample.twice.handedNow.map envelopeKey).Nodup := by
  have start : Start Sample.playing := ⟨by decide +kernel, rfl, rfl, rfl, rfl, rfl⟩
  refine ⟨by decide +kernel, (delivered_once Sample.env Sample.table start ?_).1⟩
  exact .tail (.single (.hear Sample.firstBet ⟨rfl, by decide +kernel⟩)) (.hear Sample.firstBet ⟨rfl, by decide +kernel⟩)

/-- What comes over a connection that has the session's own name is neither numbered nor held to its seat's key. -/
theorem delivered_forged :
    let r := run Sample.env Sample.table (Sample.forging ++ [Sample.bet 0 (Sample.key 9)])
      Sample.joiner
    r.wire = true ∧ r.seatKeys = [(0, Hex.encode (Sample.key 3)), (1, Hex.encode Sample.hostKey)] ∧
      r.handed.map (fun ctx => (envelopeKey ctx, ctx.author)) =
        replicate 2 ((some 1, some 0, some 0, ""), some (Hex.encode (Sample.key 9))) := by
  decide +kernel

def Reaches (env : Env) (tbl : Table T) (s : Ingress T) (r : Room T) : Prop :=
  ∃ handedNow checked, Steps env tbl s { room := r, frames := s.frames, handedNow, checked }

theorem deliver_steps (ctx : Inbound) (r : Room T) (room : s.room = { r with handed := r.handed ++ [ctx] }) :
    Steps env tbl s { s with room := r.deliver tbl ctx } := by
  have idle : Steps env tbl s { s with room := { r with handed := r.handed ++ [ctx] } } := by
    rw [← room]
  have called : ∀ t : TableCall, Steps env tbl s { s with room := Room.call tbl t { r with handed := r.handed ++ [ctx] } } := by
    intro t
    rw [← room]
    exact .single (.handled _)
  unfold deliver
  dsimp only
  split
  · split
    · exact idle
    exact called _
  · split
    · exact idle
    exact called _
  · unfold onPeerLost
    split
    · split
      · exact idle
      split
      · rw [← room]
        exact .single (.compared _ _)
      exact called _
    exact idle
  · exact idle
  all_goals first
    | exact called _
    | split
      · exact called _
      exact idle

theorem handleHostless_reached (s : Ingress T) {conn : String} (remote : s.room.localConnId ≠ some conn)
    (kind : HostlessKind) (msg : Message) : Reaches env tbl s (s.room.handleHostless env tbl conn kind msg) := by
  unfold handleHostless
  split
  · exact ⟨s.handedNow, s.checked, .refl⟩
  rename_i ctx read
  obtain ⟨-, named, own⟩ := normalizeHostless_reads read
  have heard : Step env tbl s _ := .hear ctx ⟨own.trans (decide_eq_false remote), named ▸ remote⟩
  unfold takeIn at heard
  split
  · rename_i r passed
    rw [passed] at heard
    exact ⟨_, _, ReflTransGen.head heard (deliver_steps ctx r rfl)⟩
  rename_i r refused
  rw [refused] at heard
  exact ⟨_, _, .single heard⟩

theorem foldl_replayItem_ended (items : List Deferred) (ended : r.terminal.isSome = true) :
    items.foldl (replayItem env tbl) r = r := by
  induction items with
  | nil => rfl
  | cons item items ih =>
    rw [foldl_cons]
    have : replayItem env tbl r item = r := if_pos ended
    rw [this, ih]

variable (env tbl) in
theorem replay_steps (items : List Deferred) (frames : List (List Deferred)) (s : Ingress T) (top : s.frames = items :: frames) :
    ∃ handedNow checked remaining, Steps env tbl s
      { room := items.foldl (replayItem env tbl) s.room, frames := remaining :: frames, handedNow, checked } ∧
      (remaining = [] ∨ (items.foldl (replayItem env tbl) s.room).terminal.isSome = true) := by
  induction items generalizing s with
  | nil =>
    refine ⟨s.handedNow, s.checked, [], ?_, .inl rfl⟩
    rw [← top]
    exact .refl
  | cons item items ih =>
    by_cases ended : s.room.terminal.isSome = true
    · rw [foldl_replayItem_ended _ ended]
      refine ⟨s.handedNow, s.checked, item :: items, ?_, .inr ended⟩
      rw [← top]
    have on : s.room.terminal = none := Option.not_isSome_iff_eq_none.mp ended
    have one : ∃ handedNow checked, Steps env tbl s
        { room := replayItem env tbl s.room item, frames := items :: frames, handedNow, checked } := by
      have skipped : Steps env tbl s { s with frames := items :: frames } := .single (.dropped top)
      unfold replayItem
      rw [if_neg ended]
      split
      · rename_i due
        split
        · have heard : Step env tbl s _ := .replayed top on due
          unfold takeIn at heard
          split
          · rename_i r passed
            rw [passed] at heard
            exact ⟨_, _, ReflTransGen.head heard (deliver_steps item.incoming r rfl)⟩
          rename_i r refused
          rw [refused] at heard
          exact ⟨_, _, .single heard⟩
        exact ⟨_, _, skipped⟩
      split
      · exact ⟨_, _, .single (.requeued top)⟩
      exact ⟨_, _, skipped⟩
    obtain ⟨handedNow, checked, first⟩ := one
    obtain ⟨handedNow', checked', remaining, rest, done⟩ :=
      ih { room := replayItem env tbl s.room item, frames := items :: frames, handedNow, checked } rfl
    exact ⟨handedNow', checked', remaining, first.trans rest, done⟩

variable (env tbl) in
theorem replayBuffer_reached (s : Ingress T) : Reaches env tbl s (s.room.replayBuffer env tbl) := by
  unfold replayBuffer
  split
  · exact ⟨s.handedNow, s.checked, .refl⟩
  obtain ⟨handedNow, checked, remaining, drained, done⟩ := replay_steps env tbl s.room.msgBuffer s.frames
    { s with
      room := { s.room with msgBuffer := [], activeReplays := s.room.msgBuffer :: s.room.activeReplays }
      frames := s.room.msgBuffer :: s.frames } rfl
  exact ⟨handedNow, checked, (ReflTransGen.head .opens drained).tail (.closes rfl done)⟩

theorem beginWith_reached (c : StartCall) (s : Ingress T) : Reaches env tbl s (beginWith env tbl c s.room) := by
  have applied : Steps env tbl s { s with room := s.room.apply tbl (tbl.start c s.room).1 } := .single (.handled _)
  unfold beginWith
  dsimp only
  split
  · exact ⟨_, _, applied⟩
  rename_i hand _
  have begun : ∀ afresh : Bool, Reaches env tbl s (((if afresh then
      { s.room.apply tbl (tbl.start c s.room).1 with handRecord := none } else s.room.apply tbl (tbl.start c s.room).1).publishHand
        hand).replayBuffer env tbl) := by
    intro afresh
    obtain ⟨handedNow, checked, replayed⟩ := replayBuffer_reached env tbl
      (Ingress.begin hand afresh { s with room := s.room.apply tbl (tbl.start c s.room).1 })
    exact ⟨handedNow, checked, (applied.tail (.begins hand afresh)).trans replayed⟩
  split
  · exact begun false
  exact begun true

/-- What comes to a room whose seats are bound. -/
inductive Entry where
  | hear (conn : String) (kind : HostlessKind) (msg : Message)
  | start (c : StartCall)
  | call (c : TableCall)

def enter (env : Env) (tbl : Table T) (r : Room T) : Entry → Room T
  | .hear conn kind msg => r.handleHostless env tbl conn kind msg
  | .start c => beginWith env tbl c r
  | .call c => r.call tbl c

variable (env tbl) in
theorem entries_reached (entries : List Entry) (s : Ingress T) (sound : Sound s)
    (remote : ∀ conn kind msg, .hear conn kind msg ∈ entries → s.room.localConnId ≠ some conn) :
    Reaches env tbl s (entries.foldl (enter env tbl) s.room) := by
  induction entries generalizing s with
  | nil => exact ⟨s.handedNow, s.checked, .refl⟩
  | cons entry entries ih =>
    have first : Reaches env tbl s (enter env tbl s.room entry) := by
      cases entry with
      | hear conn kind msg => exact handleHostless_reached s (remote conn kind msg (.head _)) kind msg
      | start c => exact beginWith_reached c s
      | call c => exact ⟨s.handedNow, s.checked, .single (.handled _)⟩
    obtain ⟨handedNow, checked, steps⟩ := first
    obtain ⟨sound', charter⟩ := Steps.sound steps sound
    have same : (enter env tbl s.room entry).localConnId = s.room.localConnId := congrArg Charter.localConnId charter
    obtain ⟨handedNow', checked', rest⟩ := ih ⟨_, s.frames, handedNow, checked⟩ sound'
      fun conn kind msg member => same ▸ remote conn kind msg (.tail _ member)
    exact ⟨handedNow', checked', steps.trans rest⟩

/-- The code takes only steps of `Step`, so what it hears, defers and replays is handed over at most once. -/
theorem entered_once (env : Env) (tbl : Table T) (entries : List Entry) {s : Ingress T} (start : Start s)
    (remote : ∀ conn kind msg, .hear conn kind msg ∈ entries → s.room.localConnId ≠ some conn) :
    ∃ s', Steps env tbl s s' ∧ s'.room = entries.foldl (enter env tbl) s.room ∧ (s'.handedNow.map streamKey).Nodup ∧
      ∀ ctx ∈ s'.room.handed, Signed s.room.seatKeys ctx := by
  obtain ⟨handedNow, checked, steps⟩ := entries_reached env tbl entries s start.sound remote
  obtain ⟨sound, charter⟩ := Steps.sound steps start.sound
  have keys : (entries.foldl (enter env tbl) s.room).seatKeys = s.room.seatKeys := congrArg Charter.seatKeys charter
  exact ⟨_, steps, rfl, sound.once, fun ctx member => keys ▸ sound.handed ctx member⟩

namespace Sample

/-- A bet that comes before its hand begins, and once more after. -/
def early : List Entry :=
  let bet := Sample.envelope "bet_action" Sample.hostKey [("seat", .int 1), ("hand", .int 2), ("author_seq", .int 0)]
  [.hear "h" .betAction bet, .start (.beginHand 2 0 none), .hear "h" .betAction bet]

end Sample

theorem entered_once_sample : ∃ s', Steps Sample.env Sample.table Sample.playing s' ∧
    s'.room.handed.map streamKey = [(some 1, some 0)] ∧ (s'.handedNow.map streamKey).Nodup := by
  have start : Start Sample.playing := ⟨by decide +kernel, rfl, rfl, rfl, rfl, rfl⟩
  have remote : Sample.playing.room.localConnId ≠ some "h" := by decide +kernel
  obtain ⟨s', steps, room, once, -⟩ := entered_once Sample.env Sample.table Sample.early start fun conn kind msg member => by
    simp only [Sample.early, mem_cons, not_mem_nil, reduceCtorEq, Entry.hear.injEq, or_false, false_or] at member
    obtain ⟨rfl, -⟩ | ⟨rfl, -⟩ := member <;> exact remote
  exact ⟨s', steps, by rw [room]; decide +kernel, once⟩

end Ingress

end Room

end Holdem
