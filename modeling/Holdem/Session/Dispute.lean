import Holdem.Room.Ended
import Holdem.Session.History

/-!
Games that settle one drop from different places of a history. A game that settles on another's notice
ends with the same stacks or says that they are disputed.
-/

namespace Holdem

open HandStage

variable {n : ℕ} {H : Type} {text : String}

open Method Replica

def Marked (text : String) : Prop := ∃ before words, text = before ++ ("; disputed: " ++ words)

theorem Marked.prepend (h : Marked text) (before : String) : Marked (before ++ text) := by
  obtain ⟨front, words, rfl⟩ := h
  exact ⟨before ++ front, words, String.append_assoc.symm⟩

theorem Marked.infix (h : Marked text) : "; disputed: ".toList <:+: text.toList := by
  obtain ⟨before, words, rfl⟩ := h
  exact ⟨before.toList, words.toList, by simp [String.toList_append]⟩

namespace DropNotice

structure Told (other : DropNotice) (msg : Message) : Prop where
  hand : msg.get "hand" = .int other.hand
  lost : msg.get "lost_seat" = .int other.lostSeat
  ended : msg.get "ended" = .bool true
  dealt : msg.get "dealt" = .bool other.dealt
  settled : msg.get "settled" = .bool other.settled
  actions : msg.get "actions" = .int other.actions

theorem message_told (other : DropNotice) : other.Told other.message := ⟨rfl, rfl, rfl, rfl, rfl, rfl⟩

def agreesWith (own : DropNotice) (live : Bool) (other : DropNotice) : Bool :=
  own.agrees live other.hand other.dealt other.settled other.actions

variable {own other : DropNotice} {live : Bool} {msg : Message} {sender : Option ℤ}

theorem Told.undealt (h : other.Told msg) :
    (own.dropDispute live msg sender).2 = (decide (other.hand = own.hand) && !other.dealt) := by
  unfold dropDispute
  rw [h.hand, h.actions, h.dealt, h.settled]

theorem Told.agreed (h : other.Told msg) (agreed : own.agreesWith live other = true) :
    (own.dropDispute live msg sender).1 = "" := by
  unfold dropDispute
  rw [h.hand, h.actions, h.dealt, h.settled]
  exact if_pos agreed

theorem Told.disputed (h : other.Told msg) (differ : own.agreesWith live other = false) :
    ∃ words, (own.dropDispute live msg sender).1 = "; disputed: " ++ words := by
  refine (Room.dropDispute_marked own live msg sender).resolve_left fun none => ?_
  unfold dropDispute at none
  rw [h.hand, h.actions, h.dealt, h.settled] at none
  dsimp only at none
  rw [if_neg (by simpa [agreesWith] using differ)] at none
  have length := congrArg String.length none
  simp [String.length_append] at length

end DropNotice

namespace Game

variable {g g' : Game n H} {r : Replica n} {lost : Fin n} {msg : Message} {sender : Option ℤ} {out disputed : String}
  {carry : Carry n}

theorem earlyMark_marked {words : String} (h : disputed = "; disputed: " ++ words) : Marked (g.earlyMark disputed) := by
  have some : disputed ≠ "" := fun none => by
    have length := congrArg String.length (h.symm.trans none)
    simp [String.length_append] at length
  unfold earlyMark
  split
  · rw [if_neg some]
    exact ⟨"", words, h.trans (String.empty_append).symm⟩
  exact ⟨"", words, h.trans (String.empty_append).symm⟩

theorem holdEarly_none [DecidableEq H] (seats : List (Fin n)) (s : Session n H) : Session.holdEarly (fun _ => []) seats s = s := by
  induction seats with
  | nil => rfl
  | cons seat rest ih => rwa [Session.holdEarly, if_pos rfl]

theorem endHand_stops [DecidableEq H] {s : Session n H} {outcome : HandOutcome} (on : s.terminal = none) (record : s.handRecord = none)
    (result : s.handResult = none) (early : s.earlySettled = fun _ => []) (stops : outcome ≠ .completed) :
    s.endHand outcome false = { s with handRecord := some outcome }.recordEnd none := by
  unfold Session.endHand
  rw [if_neg (by simp [on]), if_neg (by simp [record, result])]
  rw [if_neg stops, if_neg (by simp)]
  unfold Session.handEnded
  rw [show ({ s with handRecord := some outcome } : Session n H).earlySettled = fun _ => [] from early, holdEarly_none]

structure Live (carry : Carry n) (g : Game n H) : Prop where
  terminal : g.terminal = none
  record : g.handRecord = none
  result : g.handResult = none
  final : g.finalStacks = none
  drop : g.dropStacks = none
  carry : g.handCarry = some carry

structure Stops (carry : Carry n) (lost : Fin n) (r : Replica n) (cancel : Bool) (g g' : Game n H) (chips : Fin n → ℤ) :
    Prop where
  last : g'.lastSettledStacks = some chips
  stage : g'.dropStage = g.dropStage
  compared : g'.dropCompared = g.dropCompared
  cancelled : cancel = true → chips = carry.chips
  unproved : g.prevention = false → chips = carry.chips
  stopped : cancel = false → g.prevention = true → g.proofsVerified = g.rounds → r.stopped lost carry.chips = .ok chips

theorem last_of_live (h : Live carry g) : g.lastSettledStacks = some carry.chips := by
  unfold lastSettledStacks Session.settledAt
  rw [h.drop, h.final, h.result, h.carry]
  cases g.replica <;> rfl

theorem unsettledText_caught (hand hand' : ℕ) (x : PyError) :
    (unsettledText hand x).isSome = (unsettledText hand' x).isSome := by
  cases x <;> rfl

theorem settleDrop_out [DecidableEq H] (out : g.eliminated = true) : g.settleDrop lost msg sender = .ok ("", g) := by
  unfold settleDrop
  split
  · rfl
  exact if_pos out

theorem forfeitHand_stops [DecidableEq H] (h : Live carry g)
    (prevention : g.prevention = true) (ran : g.forfeitHand lost r disputed = .ok (out, g')) :
    (∃ text, out = text ++ disputed) ∧ ∃ chips, Stops carry lost r false g g' chips := by
  unfold forfeitHand at ran
  dsimp only at ran
  split at ran
  · rename_i alone
    split at ran
    · rename_i result r' finished
      cases ran
      refine ⟨⟨_, rfl⟩, r'.stackOf, ?_, rfl, rfl, nofun, fun none => ?_, fun _ _ _ => ?_⟩
      · simp only [lastSettledStacks, Session.settledAt, h.drop, h.final]
        rfl
      · simp [prevention] at none
      unfold Replica.stopped
      rw [if_pos (show r.engine.stakes.contested = [lost] from alone), finished]
    rename_i x r' raised
    split at ran
    · rename_i text caught
      cases ran
      refine ⟨⟨_, rfl⟩, carry.chips, ?_, rfl, rfl, fun _ => rfl, fun _ => rfl, fun _ _ _ => ?_⟩
      · exact last_of_live ⟨h.terminal, h.record, h.result, h.final, h.drop, h.carry⟩
      unfold Replica.stopped
      rw [if_pos (show r.engine.stakes.contested = [lost] from alone), raised]
      exact if_pos (by rw [unsettledText_caught 0 g.handNo, caught]; rfl)
    cases ran
  rename_i many
  split at ran
  · rename_i forfeit settled
    cases ran
    refine ⟨⟨_, rfl⟩, forfeit.chips, rfl, rfl, rfl, nofun, fun none => ?_, fun _ _ _ => ?_⟩
    · simp [prevention] at none
    unfold Replica.stopped
    rw [if_neg (show r.engine.stakes.contested ≠ [lost] from many)]
    exact congrArg (Except.map Forfeit.chips) settled
  cases ran

theorem stopHand_stops [DecidableEq H] {cancel : Bool} (h : Live carry g)
    (ran : g.stopHand lost r disputed cancel = .ok (out, g')) :
    (∃ text, out = text ++ g.earlyMark disputed) ∧ ∃ chips, Stops carry lost r cancel g g' chips := by
  have quiet : Live carry { g with earlySettled := fun _ => [] } :=
    ⟨h.terminal, h.record, h.result, h.final, h.drop, h.carry⟩
  have last := last_of_live quiet
  unfold stopHand at ran
  dsimp only at ran
  split at ran
  · rename_i cancelled
    cases ran
    refine ⟨⟨_, rfl⟩, carry.chips, ?_, rfl, rfl, fun _ => rfl, fun _ => rfl, fun kept => by simp [kept] at cancelled⟩
    unfold onSession
    rw [endHand_stops quiet.terminal quiet.record quiet.result rfl (by decide)]
    exact last
  rename_i dealt
  have kept : cancel = false := by simpa using dealt
  subst kept
  split at ran
  · rename_i unproved
    cases ran
    exact ⟨⟨_, rfl⟩, carry.chips, last, rfl, rfl, fun _ => rfl, fun _ => rfl, fun _ proved => absurd proved unproved⟩
  rename_i proved
  split at ran
  · rename_i short
    cases ran
    exact ⟨⟨_, rfl⟩, carry.chips, last, rfl, rfl, fun _ => rfl, fun _ => rfl, fun _ _ all => absurd all short⟩
  obtain ⟨text, chips, stops⟩ := forfeitHand_stops quiet (not_not.mp proved) ran
  exact ⟨text, chips, stops.last, stops.stage, stops.compared, stops.cancelled, stops.unproved, stops.stopped⟩

theorem settleDrop_cases [DecidableEq H] (replica : g.replica = some r) (on : g.eliminated = false)
    (ran : g.settleDrop lost msg sender = .ok (out, g')) :
    (g.live = false ∧ out = ((g.dropNotice lost).dropDispute g.live msg sender).1 ∧ g' = g.noteStage lost r sender) ∨
      g.live = true ∧ (g.noteStage lost r sender).stopHand lost r ((g.dropNotice lost).dropDispute g.live msg sender).1
        (!(g.dropNotice lost).dealt || ((g.dropNotice lost).dropDispute g.live msg sender).2) = .ok (out, g') := by
  unfold settleDrop at ran
  rw [replica] at ran
  dsimp only at ran
  rw [if_neg (by simp [on])] at ran
  split at ran
  · rename_i shut
    cases ran
    exact .inl ⟨by simpa using shut, rfl, rfl⟩
  rename_i live
  exact .inr ⟨by simpa using live, ran⟩

end Game

namespace History

variable {history : History n} {h : ℕ} {stage stage' : HandStage} {g g' : Game n H} {lost : Fin n} {msg : Message}
  {sender : Option ℤ} {out : String} {chips : Fin n → ℤ} {played : List Play}

theorem At.replica (at' : history.At h stage g) : ∃ r, g.replica = some r := by
  have stands := at'.stands
  cases stage with
  | shuffling => obtain ⟨-, -, -, r, -, replica, -⟩ := stands; exact ⟨r, replica⟩
  | dealt played => obtain ⟨-, -, -, -, r, replica, -⟩ := stands; exact ⟨r, replica⟩
  | settled => obtain ⟨-, r, -, -, replica, -⟩ := stands; exact ⟨r, replica⟩
  | voided => obtain ⟨-, -, -, r, -, replica, -⟩ := stands; exact ⟨r, replica⟩

structure Tells (stage : HandStage) (g : Game n H) (lost : Fin n) (h : ℕ) : Prop where
  hand : (g.dropNotice lost).hand = h
  dealt : (g.dropNotice lost).dealt = stage.isDealt
  settled : (g.dropNotice lost).settled = stage.isSettled
  live : g.live = stage.isLive

theorem At.tells (at' : history.At h stage g) (lost : Fin n) : Tells stage g lost h := by
  have stands := at'.stands
  cases stage with
  | shuffling =>
    obtain ⟨result, record, shuffled, r, -, replica, -⟩ := stands
    constructor <;> simp [Game.dropNotice, Game.live, Session.handVoided, result, record, shuffled, replica, isDealt,
      isSettled, isLive, at'.hand]
  | dealt played =>
    obtain ⟨result, record, shuffled, -, r, replica, -⟩ := stands
    constructor <;> simp [Game.dropNotice, Game.live, Session.handVoided, result, record, shuffled, replica, isDealt,
      isSettled, isLive, at'.hand]
  | settled =>
    obtain ⟨valid, r, result, next, replica, settled, -⟩ := stands
    constructor <;> simp [Game.dropNotice, Game.live, settled, replica, valid, isDealt, isSettled, isLive, at'.hand]
  | voided =>
    obtain ⟨result, voided, -, r, -, replica, -⟩ := stands
    constructor <;> simp [Game.dropNotice, Game.live, result, replica, voided, isDealt, isSettled, isLive, at'.hand]

structure Owed (history : History n) (h : ℕ) (stage : HandStage) (lost : Fin n) (cancelled : Bool) (chips : Fin n → ℤ) :
    Prop where
  settled : stage = .settled → ∃ next, (history.hand h).ending = .settled next ∧ chips = next.chips
  returned : stage.isSettled = false → cancelled = true ∨ stage.isDealt = false → chips = (history.hand h).carry.chips
  stopped : ∀ played, stage = .dealt played → cancelled = false → ∃ t, history.table h played = some t ∧
    (history.prevention = true → t.stopped lost (history.hand h).carry.chips = .ok chips) ∧
    (history.prevention = false → chips = (history.hand h).carry.chips)

structure Settles (history : History n) (h : ℕ) (stage : HandStage) (lost : Fin n) (msg : Message) (sender : Option ℤ)
    (g : Game n H) (out : String) (g' : Game n H) (chips : Fin n → ℤ) : Prop where
  last : g'.lastSettledStacks = some chips
  owed : history.Owed h stage lost ((g.dropNotice lost).dropDispute g.live msg sender).2 chips
  marked : ∀ words, ((g.dropNotice lost).dropDispute g.live msg sender).1 = "; disputed: " ++ words → Marked out
  noted : ∃ r, g.replica = some r ∧ g'.dropStage = (g.noteStage lost r sender).dropStage
  compared : g'.dropCompared = sender.toList ++ g.dropCompared

theorem At.live (at' : history.At h stage g) (live : stage.isLive = true) : Game.Live (history.hand h).carry g := by
  have stands := at'.stands
  cases stage with
  | shuffling => exact ⟨at'.terminal, stands.2.1, stands.1, at'.final, at'.drop, at'.carry⟩
  | dealt played => exact ⟨at'.terminal, stands.2.1, stands.1, at'.final, at'.drop, at'.carry⟩
  | settled => cases live
  | voided => cases live

theorem At.shut (at' : history.At h stage g) (shut : stage.isLive = false) (lost : Fin n) :
    ∃ chips, g.lastSettledStacks = some chips ∧ ∀ cancelled, history.Owed h stage lost cancelled chips := by
  have stands := at'.stands
  unfold Game.lastSettledStacks Session.settledAt
  rw [at'.drop, at'.final, at'.carry]
  cases stage with
  | shuffling => cases shut
  | dealt played => cases shut
  | settled =>
    obtain ⟨-, r, result, next, replica, settled, ending, chips⟩ := stands
    rw [replica, settled]
    exact ⟨r.stackOf, rfl, fun _ => ⟨fun _ => ⟨next, ending, chips⟩, nofun, nofun⟩⟩
  | voided =>
    obtain ⟨result, -, -, r, -, replica, -⟩ := stands
    rw [replica, result]
    exact ⟨_, rfl, fun _ => ⟨nofun, fun _ _ => rfl, nofun⟩⟩

theorem settles [DecidableEq H] (at' : history.At h stage g) (on : g.eliminated = false)
    (ran : g.settleDrop lost msg sender = .ok (out, g')) : ∃ chips, history.Settles h stage lost msg sender g out g' chips := by
  obtain ⟨r, replica⟩ := at'.replica
  have tells := at'.tells lost
  obtain ⟨shut, rfl, rfl⟩ | ⟨live, ran⟩ := Game.settleDrop_cases replica on ran
  · obtain ⟨chips, last, owed⟩ := at'.shut (tells.live.symm.trans shut) lost
    refine ⟨chips, last, owed _, fun words mark => ⟨"", words, ?_⟩, ⟨r, replica, rfl⟩, rfl⟩
    rw [mark, String.empty_append]
  have alive := at'.live (tells.live.symm.trans live)
  have noted : Game.Live (history.hand h).carry (g.noteStage lost r sender) :=
    ⟨alive.terminal, alive.record, alive.result, alive.final, alive.drop, alive.carry⟩
  obtain ⟨⟨text, rfl⟩, chips, stops⟩ := Game.stopHand_stops noted ran
  refine ⟨chips, stops.last, ⟨fun done => ?_, fun _ back => stops.cancelled ?_, fun played dealt kept => ?_⟩,
    fun words mark => (Game.earlyMark_marked mark).prepend text, ⟨r, replica, stops.stage⟩, stops.compared⟩
  · rw [tells.live, done] at live
    cases live
  · rw [tells.dealt]
    obtain cancelled | undealt := back
    · rw [cancelled, Bool.or_true]
    rw [undealt]
    rfl
  subst dealt
  obtain ⟨-, -, -, verified, r', replica', -, t, table, abreast⟩ := at'.stands
  cases replica.symm.trans replica'
  have dealt : (g.dropNotice lost).dealt = true := tells.dealt
  refine ⟨t, table, fun proved => ?_, fun unproved => stops.unproved (at'.prevention.trans unproved)⟩
  have proved' := at'.prevention.trans proved
  rw [← stopped_abreast abreast]
  exact stops.stopped (by rw [kept, dealt]; rfl) proved' (verified proved')

theorem start_begin {r : Replica n} (started : history.start h = some r) :
    history.cfg.begin (history.hand h).carry h = .ok true r := by
  unfold start at started
  split at started
  · rename_i begun
    rwa [← Option.some.inj started]
  cases started

theorem seats_active {i : Fin n} (seated : i ∈ history.seats h) :
    history.seats h = activeSeats (history.hand h).carry.chips ∧ 2 ≤ (activeSeats (history.hand h).carry.chips).length := by
  unfold seats at seated ⊢
  cases started : history.start h with
  | none => rw [started] at seated; cases seated
  | some r => exact begin_seats (start_begin started)

theorem start_tidy {r : Replica n} (started : history.start h = some r) : Tidy r ∧ r.nextSeq = 0 := by
  obtain ⟨engine, -, rfl⟩ := startHandFrom_ok (start_begin started)
  exact ⟨⟨rfl, moved_phase (show Phase.betting ≠ .settled by decide) engine⟩, rfl⟩

theorem At.dealt_next (at' : history.At h stage g) (on : g.eliminated = false) {other : Fin n}
    (ahead : history.Ahead (h + 1) stage' h stage g.localSeat) (begun : other ∈ history.seats (h + 1)) :
    g.localSeat ∈ history.seats (h + 1) := by
  obtain ⟨active, two⟩ := seats_active begun
  rw [active]
  cases ending : (history.hand h).ending with
  | playing => exact absurd ending ahead.ended
  | settled next =>
    obtain rfl := ahead.reports next ending
    obtain ⟨-, r, result, next', replica, settled, ending', chips⟩ := at'.stands
    obtain rfl := HandEnd.settled.inj (ending.symm.trans ending')
    have carry := history.paid h next ending
    rw [carry] at two ⊢
    have all : g.active next.chips = activeSeats next.chips := by simp [Session.active, remaining, at'.departed]
    simp only [Session.eliminated, replica, settled, all, Bool.or_eq_false_iff, Bool.and_eq_false_iff,
      decide_eq_false_iff_not, chips] at on
    have some : next.chips g.localSeat ≠ 0 := on.2.resolve_right (not_not.mpr two)
    have count := history.counts (h + 1) g.localSeat
    rw [carry] at count
    exact List.mem_filter.mpr ⟨List.mem_finRange _, by simpa using lt_of_le_of_ne count some.symm⟩
  | voided =>
    rw [history.redealt h ending, ← (seats_active at'.seated).1]
    exact at'.seated

theorem At.actions (at' : history.At h (.dealt played) g) (lost : Fin n) :
    (g.dropNotice lost).actions = (actions played).length := by
  obtain ⟨-, -, -, -, r, replica, -, t, table, abreast⟩ := at'.stands
  obtain ⟨start, started, ran⟩ := Option.bind_eq_some_iff.mp table
  obtain ⟨tidy, zero⟩ := start_tidy started
  have seq := (inOrder_playedOn tidy ran).seq
  simp only [Game.dropNotice, replica, Option.elim_some]
  rw [abreast.seq, seq, zero, zero_add]

theorem owed_same {p q : List Play} {chips' : Fin n → ℤ} (first : p <+: (history.hand h).script)
    (second : q <+: (history.hand h).script) (same : (Holdem.actions p).length = (Holdem.actions q).length)
    (owed : history.Owed h (.dealt p) lost false chips) (owed' : history.Owed h (.dealt q) lost false chips') :
    chips = chips' := by
  obtain ⟨t, table, proved, unproved⟩ := owed.stopped p rfl rfl
  obtain ⟨u, table', proved', unproved'⟩ := owed'.stopped q rfl rfl
  cases prevention : history.prevention with
  | false => rw [unproved prevention, unproved' prevention]
  | true =>
    obtain ⟨start, started, ran⟩ := Option.bind_eq_some_iff.mp table
    obtain ⟨start', started', ran'⟩ := Option.bind_eq_some_iff.mp table'
    cases started.symm.trans started'
    have stopped := stopped_same (start_tidy started).1 first second same ran ran' lost (history.hand h).carry.chips
    rw [proved prevention, proved' prevention] at stopped
    exact Except.ok.inj stopped

theorem Owed.forfeits {t : Replica n}
    (owed : history.Owed h (.dealt played) lost false chips) (proved : history.prevention = true)
    (table : history.table h played = some t) (others : t.engine.contested ≠ [lost]) : chips lost = t.stackOf lost := by
  obtain ⟨t', table', stopped, -⟩ := owed.stopped played rfl rfl
  cases table.symm.trans table'
  have stops := stopped proved
  unfold Replica.stopped at stops
  dsimp only at stops
  rw [if_neg (show t.engine.stakes.contested ≠ [lost] from others)] at stops
  cases settled : settleForfeit t.engine.stakes.chips t.engine.stakes.live t.engine.stakes.dead
      t.engine.stakes.contested lost t.engine.stakes.button with
  | error x => rw [settled] at stops; cases stops
  | ok out =>
    rw [settled] at stops
    rw [← Except.ok.inj stops]
    exact Forfeit.settleForfeit_dropped settled

theorem Owed.settled_eq {chips' : Fin n → ℤ} {cancelled cancelled' : Bool}
    (owed : history.Owed h stage lost cancelled chips) (owed' : history.Owed h stage' lost cancelled' chips')
    (done : stage = .settled) (done' : stage' = .settled) : chips = chips' := by
  obtain ⟨next, ending, rfl⟩ := owed.settled done
  obtain ⟨next', ending', rfl⟩ := owed'.settled done'
  rw [HandEnd.settled.inj (ending.symm.trans ending')]

theorem Owed.carried {cancelled : Bool} {seat : Fin n}
    (ahead : history.Ahead (h + 1) stage' h stage seat) (stopped : stage.isDealt = false ∨ stage = .settled)
    (owed : history.Owed h stage lost cancelled chips) : chips = (history.hand (h + 1)).carry.chips := by
  cases ending : (history.hand h).ending with
  | playing => exact absurd ending ahead.ended
  | settled next =>
    obtain ⟨next', ending', rfl⟩ := owed.settled (ahead.reports next ending)
    rw [history.paid h next' ending']
  | voided =>
    rw [history.redealt h ending]
    obtain undealt | rfl := stopped
    · refine owed.returned ?_ (.inr undealt)
      cases stage <;> first | rfl | cases undealt
    obtain ⟨next, ending', -⟩ := owed.settled rfl
    rw [ending] at ending'
    cases ending'

def Agrees (hB : ℕ) (stageB : HandStage) (B : Game n H) (lost : Fin n) (hA : ℕ) (stageA : HandStage) (A : Game n H) : Prop :=
  if hA = hB then
    if stageA.isDealt = false then stageB.isSettled = false
    else if stageA.isSettled = true then stageB.isSettled = true
    else stageB.isDealt = true ∧ stageB.isSettled = false ∧ (B.dropNotice lost).actions = (A.dropNotice lost).actions
  else if hA < hB then stageA.isSettled = true ∨ stageA.isDealt = false
  else stageA.isDealt = false ∧ stageB.isLive = false

section Pair

variable {hA hB : ℕ} {stageA stageB : HandStage} {A B : Game n H} {chips chips' : Fin n → ℤ} {host : ℤ}

theorem agrees_iff (atA : history.At hA stageA A) (atB : history.At hB stageB B) (lost : Fin n) :
    (B.dropNotice lost).agreesWith B.live (A.dropNotice lost) = true ↔ Agrees hB stageB B lost hA stageA A := by
  have a := atA.tells lost
  have b := atB.tells lost
  unfold DropNotice.agreesWith DropNotice.agrees Agrees
  rw [a.hand, b.hand, a.dealt, a.settled, b.dealt, b.settled, b.live]
  simp only [Nat.cast_inj, Nat.cast_lt]
  split
  · cases stageA.isDealt <;> cases stageA.isSettled <;> simp [and_assoc]
  split <;> simp

theorem agreed_alike (atA : history.At hA stageA A) (atB : history.At hB stageB B)
    (together : history.Together hA stageA A.localSeat hB stageB B.localSeat)
    (onA : A.eliminated = false)
    (owedA : history.Owed hA stageA lost (!stageA.isDealt) chips)
    (owedB : history.Owed hB stageB lost (decide (hA = hB) && !stageA.isDealt) chips')
    (agrees : Agrees hB stageB B lost hA stageA A) : chips = chips' := by
  unfold Agrees at agrees
  obtain rfl | ahead | ahead := together
  · rw [if_pos rfl] at agrees
    cases stageA with
    | shuffling | voided =>
      rw [owedA.returned rfl (.inr rfl), owedB.returned agrees (.inl (by simp [isDealt]))]
    | settled =>
      refine owedA.settled_eq owedB rfl ?_
      cases stageB <;> first | rfl | cases agrees
    | dealt p =>
      obtain ⟨dealt, unsettled, same⟩ := agrees
      cases stageB with
      | shuffling | voided => cases dealt
      | settled => cases unsettled
      | dealt q =>
        obtain ⟨-, -, -, -, -, -, first, -⟩ := atA.stands
        obtain ⟨-, -, -, -, -, -, second, -⟩ := atB.stands
        rw [atA.actions, atB.actions] at same
        refine owed_same first second ?_ owedA ?_
        · exact_mod_cast same.symm
        simpa [isDealt] using owedB
  · -- the game that sent the notice has begun the next hand
    obtain rfl := ahead.next
    rw [if_neg (by omega), if_neg (by omega)] at agrees
    obtain ⟨undealt, shut⟩ := agrees
    have ended : stageB.isDealt = false ∨ stageB = .settled := by
      cases stageB <;> first | exact .inl rfl | exact .inr rfl | cases shut
    have unsettled : stageA.isSettled = false := by
      cases stageA <;> first | rfl | cases undealt
    rw [owedA.returned unsettled (.inr undealt), owedB.carried ahead ended]
  -- the game that got it has
  obtain rfl := ahead.next
  rw [if_neg (by omega), if_pos (by omega)] at agrees
  have undealt : stageB.isDealt = false := ahead.keys (atA.dealt_next onA ahead atB.seated)
  have unsettled : stageB.isSettled = false := by
    cases stageB <;> first | rfl | cases undealt
  have ended : stageA.isDealt = false ∨ stageA = .settled := by
    cases stageA <;> first | exact .inl rfl | exact .inr rfl | simp [isSettled, isDealt] at agrees
  rw [owedB.returned unsettled (.inr undealt), owedA.carried ahead ended]

theorem settles_own [DecidableEq H] (at' : history.At h stage g) (on : g.eliminated = false)
    (ran : g.settleDrop lost (g.dropNotice lost).message sender = .ok (out, g')) :
    ∃ chips, g'.lastSettledStacks = some chips ∧ history.Owed h stage lost (!stage.isDealt) chips := by
  obtain ⟨chips, a⟩ := settles at' on ran
  refine ⟨chips, a.last, ?_⟩
  have owed := a.owed
  rw [(g.dropNotice lost).message_told.undealt, (at'.tells lost).dealt] at owed
  simpa using owed

/-- A game that settles a drop on another's notice, and does not say that it is disputed, owes what the
other owes. -/
theorem drop_settled_alike [DecidableEq H] {A' B' : Game n H} {outA outB : String}
    (atA : history.At hA stageA A) (atB : history.At hB stageB B)
    (together : history.Together hA stageA A.localSeat hB stageB B.localSeat)
    (onA : A.eliminated = false) (onB : B.eliminated = false)
    (settledA : A.settleDrop lost (A.dropNotice lost).message none = .ok (outA, A'))
    (settledB : B.settleDrop lost (A.dropNotice lost).message (some A.localSeat.val) = .ok (outB, B'))
    (undisputed : ¬Marked outB) : A'.lastSettledStacks = B'.lastSettledStacks := by
  obtain ⟨chips, lastA, owedA⟩ := settles_own atA onA settledA
  obtain ⟨chips', b⟩ := settles atB onB settledB
  have told := (A.dropNotice lost).message_told
  have tellsA := atA.tells lost
  have owedB := b.owed
  rw [told.undealt, tellsA.hand, tellsA.dealt, (atB.tells lost).hand] at owedB
  rw [lastA, b.last]
  refine congrArg some (agreed_alike atA atB together onA owedA (by simpa using owedB) ?_)
  rw [← agrees_iff atA atB lost]
  by_contra differ
  obtain ⟨words, mark⟩ : ∃ words, ((B.dropNotice lost).dropDispute B.live (A.dropNotice lost).message
      (some A.localSeat.val)).1 = "; disputed: " ++ words := told.disputed (Bool.eq_false_of_not_eq_true differ)
  exact undisputed (b.marked words mark)

structure EndedOn {T : Type} (reason : String) (g : Game n H) (r : Room T) : Prop where
  stage : r.dropStage = g.dropStage
  compared : r.dropCompared = g.dropCompared
  reason : r.terminalReason = reason

def confirmation (seq : ℤ) (g : Game n H) (lost : Fin n) : Message :=
  ("author_seq", .int seq) :: ("seat", .int g.localSeat.val) :: (g.dropNotice lost).message

theorem confirmation_told (seq : ℤ) (g : Game n H) (lost : Fin n) : (g.dropNotice lost).Told (confirmation seq g lost) :=
  ⟨rfl, rfl, rfl, rfl, rfl, rfl⟩

def Disputes {T : Type} (r : Room T) (seq : ℤ) (other : Game n H) (lost : Fin n) : Prop :=
  ∃ words, (r.compareConfirmation other.localSeat.val (confirmation seq other lost)).terminalReason =
    r.terminalReason ++ ("; disputed: " ++ words)

/-- What a game does not see: that the other had not dealt the hand which it plays, or anything of a
seat that it saw go broke. -/
def Overlooks (lost : Fin n) (g other : Game n H) : Prop :=
  (g.handNo = other.handNo ∧ g.live = true ∧ (g.dropNotice lost).dealt = true ∧ (other.dropNotice lost).dealt = false) ∨
    g.handResult.isSome = true ∧ ∀ r ∈ g.replica, r.stackOf other.localSeat ≤ 0

theorem At.seatsDealt (at' : history.At h stage g) (unsettled : stage.isSettled = false) {r : Replica n}
    (replica : g.replica = some r) : r.seatsDealt = history.seats h ∧ g.handResult = none := by
  have found : g.handResult = none ∧ ∃ r played, g.replica = some r ∧ history.Plays h played r := by
    have stands := at'.stands
    cases stage with
    | shuffling => exact ⟨stands.1, stands.2.2.2⟩
    | dealt played => exact ⟨stands.1, _, played, stands.2.2.2.2.choose_spec⟩
    | settled => cases unsettled
    | voided => exact ⟨stands.1, stands.2.2.2⟩
  obtain ⟨result, r', played, replica', -, t, table, abreast⟩ := found
  cases replica.symm.trans replica'
  obtain ⟨start, started, ran⟩ := Option.bind_eq_some_iff.mp table
  have kept := (inOrder_playedOn (start_tidy started).1 ran).table
  have same : t.engine.seated = start.engine.seated :=
    List.filter_congr fun i _ => congrArg (fun k : Table n => (k.seats i).inSeat) kept
  refine ⟨?_, result⟩
  unfold seats
  rw [started]
  exact (abreast.engine.reads Engine.seated).trans same

theorem unmarked (text words : String) : text ≠ text ++ ("; disputed: " ++ words) := by
  intro same
  have length := congrArg String.length same
  simp [String.length_append] at length

section

variable (atA : history.At hA stageA A) (atB : history.At hB stageB B)
  (together : history.Together hA stageA A.localSeat hB stageB B.localSeat) (onB : B.eliminated = false)
include atA atB together onB

theorem seated_there (unsettled : stageA.isSettled = false) : B.localSeat ∈ history.seats hA := by
  obtain rfl | ahead | ahead := together
  · exact atB.seated
  · obtain rfl := ahead.next
    exact atB.dealt_next onB ahead atA.seated
  obtain rfl := ahead.next
  cases ending : (history.hand hA).ending with
  | playing => exact absurd ending ahead.ended
  | settled next =>
    rw [ahead.reports next ending] at unsettled
    cases unsettled
  | voided =>
    have member := atB.seated
    rw [(seats_active member).1, history.redealt hA ending] at member
    rwa [(seats_active atA.seated).1]

theorem mem_playing (stays : lost ≠ B.localSeat) {t : Replica n} (replica : A.replica = some t) :
    (B.localSeat.val : ℤ) ∈ (A.playing lost t).map (fun seat => (seat.val : ℤ)) ↔
      ¬(A.handResult.isSome = true ∧ ∀ r ∈ A.replica, r.stackOf B.localSeat ≤ 0) := by
  have cast : Function.Injective fun seat : Fin n => (seat.val : ℤ) := fun i j same =>
    Fin.ext (Int.ofNat.inj same)
  rw [List.mem_map_of_injective cast, Game.playing, List.mem_filter]
  cases settled : stageA.isSettled with
  | false =>
    obtain ⟨dealt, result⟩ := atA.seatsDealt settled replica
    have member := seated_there atA atB together onB settled
    simp [result, dealt, member, stays.symm]
  | true =>
    obtain rfl : stageA = .settled := by cases stageA <;> first | rfl | cases settled
    obtain ⟨-, r, result, next, -, result', -⟩ := atA.stands
    simp [result', replica, activeSeats, stays.symm]

theorem agrees_overlooked (owedA : history.Owed hA stageA lost (!stageA.isDealt) chips)
    (owedB : history.Owed hB stageB lost (!stageB.isDealt) chips') (differ : chips ≠ chips') :
    Agrees hA stageA A lost hB stageB B ↔ A.handNo = B.handNo ∧ A.live = true ∧ (A.dropNotice lost).dealt = true ∧
      (B.dropNotice lost).dealt = false := by
  rw [atA.hand, atB.hand, (atA.tells lost).live, (atA.tells lost).dealt, (atB.tells lost).dealt]
  constructor
  · intro agrees
    by_contra seen
    refine differ (agreed_alike atB atA together.symm onB owedB ?_ agrees).symm
    refine ⟨owedA.settled, fun unsettled back => owedA.returned unsettled ?_, fun played dealt _ => ?_⟩
    · refine .inr (back.elim (fun cancelled => ?_) id)
      obtain ⟨same, undealt⟩ := Bool.and_eq_true_iff.mp cancelled
      by_contra dealt
      refine seen ⟨(of_decide_eq_true same).symm, ?_, Bool.eq_true_of_not_eq_false dealt, by simpa using undealt⟩
      cases stageA <;> first | rfl | exact absurd rfl dealt | cases unsettled
    refine owedA.stopped played dealt ?_
    rw [dealt]
    rfl
  rintro ⟨rfl, live, dealt, undealt⟩
  unfold Agrees
  rw [if_pos rfl, if_pos undealt]
  cases stageA <;> first | rfl | cases live

theorem disputes_iff [DecidableEq H] {T : Type} {A' : Game n H} {r : Room T} {reason : String}
    (onA : A.eliminated = false) (busted : host ≠ B.localSeat.val) (stays : lost ≠ B.localSeat)
    (settledA : A.settleDrop lost (A.dropNotice lost).message (some host) = .ok (out, A'))
    (ended : EndedOn reason A' r) (owedA : history.Owed hA stageA lost (!stageA.isDealt) chips)
    (owedB : history.Owed hB stageB lost (!stageB.isDealt) chips') (differ : chips ≠ chips') (seq : ℤ) :
    Disputes r seq B lost ↔ ¬Overlooks lost A B := by
  obtain ⟨_, a⟩ := settles atA onA settledA
  obtain ⟨t, replica, noted⟩ := a.noted
  have told := confirmation_told seq B lost
  have first : (B.localSeat.val : ℤ) ∉ r.dropCompared := by
    rw [ended.compared, a.compared, atA.compared]
    simpa using busted.symm
  have playing := mem_playing atA atB together onB stays replica
  have agrees := agrees_overlooked atA atB together onB owedA owedB differ
  unfold Disputes Room.compareConfirmation Overlooks
  rw [ended.stage.trans noted, ← agrees, not_or, ← playing]
  dsimp only [Game.noteStage]
  rw [if_neg first, told.ended, told.lost, ← agrees_iff atB atA lost]
  dsimp only
  by_cases member : (B.localSeat.val : ℤ) ∈ (A.playing lost t).map fun seat => (seat.val : ℤ)
  · rw [if_pos ⟨rfl, member⟩]
    refine ⟨fun ⟨words, mark⟩ => ⟨fun agreed => ?_, member⟩, fun ⟨disagrees, _⟩ => ?_⟩
    · rw [told.agreed agreed, String.append_empty] at mark
      exact unmarked _ _ mark
    obtain ⟨words, mark⟩ := told.disputed (Bool.eq_false_of_not_eq_true disagrees)
    exact ⟨words, congrArg (r.terminalReason ++ ·) mark⟩
  rw [if_neg fun both => member both.2]
  exact ⟨fun ⟨words, mark⟩ => absurd mark (unmarked _ _), fun ⟨_, there⟩ => absurd there member⟩

end

theorem onReport_settles [DecidableEq H] {notice : DropNotice} {reason label : String}
    (reported : g.onReport lost host label = .ok (some (notice, reason, g'))) :
    g.eliminated = false ∧ ∃ out, g.settleDrop lost (g.dropNotice lost).message (some host) = .ok (out, g') := by
  unfold Game.onReport at reported
  split at reported
  · cases reported
  rename_i needed
  dsimp only at reported
  split at reported
  · rename_i out after settled
    cases reported
    have stays : g.eliminated = false ∧ g.seatInPlay lost = true := by simpa using needed
    exact ⟨stays.1, out, settled⟩
  cases reported

/-- Two games that end on the report of a busted host, and whose stacks differ, both say that they are
disputed just if neither overlooks the other. -/
theorem disputed_by_both [DecidableEq H] {T : Type} {A' B' : Game n H} {noticeA noticeB : DropNotice} {a b : Room T}
    {reasonA reasonB labelA labelB : String} {host : ℤ}
    (atA : history.At hA stageA A) (atB : history.At hB stageB B)
    (together : history.Together hA stageA A.localSeat hB stageB B.localSeat)
    (bustedA : host ≠ A.localSeat.val) (bustedB : host ≠ B.localSeat.val)
    (staysA : lost ≠ A.localSeat) (staysB : lost ≠ B.localSeat)
    (reportedA : A.onReport lost host labelA = .ok (some (noticeA, reasonA, A')))
    (reportedB : B.onReport lost host labelB = .ok (some (noticeB, reasonB, B')))
    (endedA : EndedOn reasonA A' a) (endedB : EndedOn reasonB B' b)
    (differ : A'.lastSettledStacks ≠ B'.lastSettledStacks) (seqA seqB : ℤ) :
    Disputes a seqB B lost ∧ Disputes b seqA A lost ↔ ¬Overlooks lost A B ∧ ¬Overlooks lost B A := by
  obtain ⟨onA, outA, settledA⟩ := onReport_settles reportedA
  obtain ⟨onB, outB, settledB⟩ := onReport_settles reportedB
  obtain ⟨chips, owesA, owedA⟩ := settles_own atA onA settledA
  obtain ⟨chips', owesB, owedB⟩ := settles_own atB onB settledB
  rw [owesA, owesB] at differ
  have other : chips ≠ chips' := fun same => differ (congrArg some same)
  rw [disputes_iff atA atB together onB onA bustedB staysB settledA endedA owedA owedB other seqB,
    disputes_iff atB atA together.symm onA onB bustedA staysA settledB endedB owedB owedA other.symm seqA]

end Pair

namespace Sample

def cfg : TableCfg 4 := ⟨![100, 100, 100, 0], 2, 1, 2, .noLimit, 3⟩

def paidTo : Carry 4 := ⟨![150, 150, 0, 0], some (some 1, some 0, 2)⟩

def carry (h : ℕ) : Carry 4 := if h ≤ 1 then ⟨cfg.chips, none⟩ else paidTo

/-- The play of the hands is left out, as what is owed depends on where they stop and how hand 1 is paid. -/
def story : History 4 where
  cfg := cfg
  prevention := true
  hand h := ⟨carry h, fun _ => [], [], if h = 1 then .settled paidTo else .playing⟩
  paid h next ending := by
    by_cases one : h = 1
    · subst one
      rw [← HandEnd.settled.inj ending]
      rfl
    simp [one] at ending
  redealt h ending := by
    by_cases one : h = 1 <;> simp [one] at ending
  counts h i := by
    by_cases first : h ≤ 1
    · simp only [carry, if_pos first]
      revert i
      decide
    simp only [carry, if_neg first]
    revert i
    decide

def game (seat : Fin 4) (hand : ℕ) (shuffled : Bool) : Game 4 Unit :=
  { localSeat := seat, cfg := some cfg, handNo := hand, handCarry := some (carry hand)
    replica := story.start hand, prevention := true, shuffled, rounds := 3, proofsVerified := 3 }

def payer (seat : Fin 4) : Game 4 Unit :=
  { game seat 1 true with
    replica := some (Replica.init 1 3 paidTo.chips 1 2 .noLimit)
    handResult := some ⟨[], none, ∅, [], [], ∅, ∅, false⟩
    endedSeats := {0, 1, 2}
    endedAgreed := {seat} }

variable {hand : ℕ}

theorem plays {r : Replica 4} (started : story.start hand = some r) : story.Plays hand [] r :=
  ⟨List.nil_prefix, r, by rw [table, started]; rfl, ⟨rfl, rfl, rfl, rfl⟩⟩

theorem game_at (seat : Fin 4) (hand : ℕ) (seated : seat ∈ story.seats hand) :
    story.At hand (.dealt []) (game seat hand true) ∧ story.At hand .shuffling (game seat hand false) := by
  cases started : story.start hand with
  | none => rw [seats, started] at seated; cases seated
  | some r =>
    exact ⟨⟨rfl, rfl, rfl, rfl, rfl, rfl, rfl, rfl, seated, rfl, rfl, rfl, fun _ => rfl, r, started, plays started⟩,
      ⟨rfl, rfl, rfl, rfl, rfl, rfl, rfl, rfl, seated, rfl, rfl, rfl, r, [], started, plays started⟩⟩

theorem payer_at (seat : Fin 4) (seated : seat ∈ story.seats 1) : story.At 1 .settled (payer seat) :=
  ⟨rfl, rfl, rfl, rfl, rfl, rfl, rfl, rfl, seated, rfl, _, _, paidTo, rfl, rfl, rfl, rfl⟩

def room (reason : String) (g : Game 4 Unit) : Room Unit :=
  { Room.Sample.joiner with dropStage := g.dropStage, dropCompared := g.dropCompared, terminalReason := reason }

theorem room_ended (reason : String) (g : Game 4 Unit) : EndedOn reason g (room reason g) := ⟨rfl, rfl, rfl⟩

def reported (g : Game 4 Unit) : Except PyError (Option (DropNotice × String × Game 4 Unit)) :=
  g.onReport 2 3 "seat 2 (Cara)"

theorem reported_for (g : Game 4 Unit) (reason : String)
    (h : (reported g).map (Option.map fun x => x.2.1) = .ok (some reason)) :
    ∃ notice g', reported g = .ok (some (notice, reason, g')) := by
  cases ran : reported g with
  | error x => rw [ran] at h; cases h
  | ok out =>
    rw [ran] at h
    cases out with
    | none => cases h
    | some out => exact ⟨out.1, out.2.2, by rw [← Option.some.inj (Except.ok.inj h)]⟩

theorem reported_owes {g g' : Game 4 Unit} {notice : DropNotice} {reason : String}
    (at' : story.At hand stage g) (ran : reported g = .ok (some (notice, reason, g'))) :
    ∃ chips, g'.lastSettledStacks = some chips ∧ story.Owed hand stage 2 (!stage.isDealt) chips := by
  obtain ⟨on, _, settled⟩ := onReport_settles ran
  exact settles_own at' on settled

theorem settled_for {g : Game 4 Unit} {lost : Fin 4} {text : String}
    (h : (g.settleDrop lost msg sender).map Prod.fst = .ok text) : ∃ g', g.settleDrop lost msg sender = .ok (text, g') := by
  cases ran : g.settleDrop lost msg sender with
  | error x => rw [ran] at h; cases h
  | ok out =>
    rw [ran] at h
    exact ⟨out.2, by rw [← Except.ok.inj h]⟩

theorem forfeits {lost : Fin 4} {chips : Fin 4 → ℤ} {behind : ℤ} (owed : story.Owed hand (.dealt []) lost false chips)
    (dealt : (story.start hand).map (fun r => (decide (r.engine.contested = [lost]), r.stackOf lost)) = some (false, behind)) :
    chips lost = behind := by
  obtain ⟨r, started, both⟩ := Option.map_eq_some_iff.mp dealt
  obtain ⟨others, rfl⟩ := Prod.mk.inj both
  exact owed.forfeits rfl (by rw [table, started]; rfl) (of_decide_eq_false others)

end Sample

open History.Sample in
theorem drop_settled_alike_sample : ∃ A B : Game 4 Unit,
    (game 0 1 true).settleDrop 2 ((game 0 1 true).dropNotice 2).message none = .ok ("; it forfeits hand 1", A) ∧
    (game 1 1 true).settleDrop 2 ((game 0 1 true).dropNotice 2).message (some 0) = .ok ("; it forfeits hand 1", B) ∧
    A.lastSettledStacks = B.lastSettledStacks := by
  obtain ⟨A, ranA⟩ : ∃ A, (game 0 1 true).settleDrop 2 ((game 0 1 true).dropNotice 2).message none =
      .ok ("; it forfeits hand 1", A) := settled_for (by decide +kernel)
  obtain ⟨B, ranB⟩ : ∃ B, (game 1 1 true).settleDrop 2 ((game 0 1 true).dropNotice 2).message (some 0) =
      .ok ("; it forfeits hand 1", B) := settled_for (by decide +kernel)
  exact ⟨A, B, ranA, ranB, drop_settled_alike (game_at 0 1 (by decide +kernel)).1 (game_at 1 1 (by decide +kernel)).1
    (.inl rfl) (by decide +kernel) (by decide +kernel) ranA ranB fun marked => absurd marked.infix (by decide)⟩

open History.Sample in
/-- A seat that has busted settles nothing, while the others play on. -/
theorem drop_settled_apart : ∃ (A A' B B' : Game 4 Unit) (outA outB : String),
    story.At 2 (.dealt []) A ∧ story.At 1 .settled B ∧
    story.Together 2 (.dealt []) A.localSeat 1 .settled B.localSeat ∧
    A.eliminated = false ∧ B.earlySettled = (fun _ => []) ∧
    A.settleDrop 1 (A.dropNotice 1).message none = .ok (outA, A') ∧
    B.settleDrop 1 (A.dropNotice 1).message (some A.localSeat.val) = .ok (outB, B') ∧
    ¬Marked outB ∧ A'.lastSettledStacks ≠ B'.lastSettledStacks := by
  have at' := (game_at 0 2 (by decide +kernel)).1
  have on : (game 0 2 true).eliminated = false := by decide +kernel
  obtain ⟨A', ran⟩ : ∃ A', (game 0 2 true).settleDrop 1 ((game 0 2 true).dropNotice 1).message none =
      .ok ("; it forfeits hand 2", A') := settled_for (by decide +kernel)
  obtain ⟨chips, last, owed⟩ := settles_own at' on ran
  have behind : chips 1 = 149 := forfeits owed (by decide +kernel)
  refine ⟨game 0 2 true, A', payer 2, payer 2, _, "", at', payer_at 2 (by decide +kernel),
    .inr (.inl ⟨rfl, nofun, by decide +kernel, fun _ _ => rfl⟩), on, rfl, ran, Game.settleDrop_out (by decide +kernel),
    fun marked => absurd marked.infix (by decide), fun same => ?_⟩
  have equal : chips = paidTo.chips := Option.some.inj (last.symm.trans same)
  rw [equal] at behind
  cases behind

open History.Sample in
theorem disputed_by_both_sample : ∃ (A B : Game 4 Unit) (noticeA noticeB : DropNotice) (reasonA reasonB : String),
    reported (payer 0) = .ok (some (noticeA, reasonA, A)) ∧ reported (game 1 1 true) = .ok (some (noticeB, reasonB, B)) ∧
    A.lastSettledStacks ≠ B.lastSettledStacks ∧
    Disputes (room reasonA A) 0 (game 1 1 true) 2 ∧ Disputes (room reasonB B) 0 (payer 0) 2 := by
  have atA := payer_at 0 (by decide +kernel)
  have atB := (game_at 1 1 (by decide +kernel)).1
  obtain ⟨noticeA, A, ranA⟩ := reported_for (payer 0) "seat 2 (Cara) disconnected (reported by seat 3)" (by decide +kernel)
  obtain ⟨noticeB, B, ranB⟩ := reported_for (game 1 1 true)
    "seat 2 (Cara) disconnected (reported by seat 3); it forfeits hand 1" (by decide +kernel)
  have differ : A.lastSettledStacks ≠ B.lastSettledStacks := by
    obtain ⟨_, lastA, owedA⟩ := reported_owes atA ranA
    obtain ⟨chips, lastB, owedB⟩ := reported_owes atB ranB
    obtain ⟨next, ending, rfl⟩ := owedA.settled rfl
    obtain rfl := HandEnd.settled.inj (show HandEnd.settled paidTo = .settled next from ending)
    have behind : chips 2 = 98 := forfeits owedB (by decide +kernel)
    rw [lastA, lastB]
    intro same
    rw [← Option.some.inj same] at behind
    cases behind
  refine ⟨A, B, noticeA, noticeB, _, _, ranA, ranB, differ,
    (disputed_by_both atA atB (.inl rfl) (by decide) (by decide) (by decide) (by decide) ranA ranB (room_ended _ A)
      (room_ended _ B) differ 0 0).mpr ⟨?_, ?_⟩⟩
  · rintro (⟨-, live, -⟩ | ⟨-, broke⟩)
    · cases live
    exact absurd (broke _ rfl) (by decide)
  rintro (⟨-, -, -, undealt⟩ | ⟨settled, -⟩)
  · cases undealt
  cases settled

open History.Sample in
/-- Seat 0 plays the hand that seat 1 was still shuffling, and only seat 1 sees that they differ. -/
theorem disputed_by_one : ∃ (A A' B B' : Game 4 Unit) (noticeA noticeB : DropNotice) (reasonA reasonB : String),
    story.At 1 (.dealt []) A ∧ story.At 1 .shuffling B ∧
    story.Together 1 (.dealt []) A.localSeat 1 .shuffling B.localSeat ∧
    reported A = .ok (some (noticeA, reasonA, A')) ∧ reported B = .ok (some (noticeB, reasonB, B')) ∧
    A'.lastSettledStacks ≠ B'.lastSettledStacks ∧
    ¬Disputes (room reasonA A') 0 B 2 ∧ Disputes (room reasonB B') 0 A 2 := by
  have atA := (game_at 0 1 (by decide +kernel)).1
  have atB := (game_at 1 1 (by decide +kernel)).2
  obtain ⟨noticeA, A, ranA⟩ := reported_for (game 0 1 true)
    "seat 2 (Cara) disconnected (reported by seat 3); it forfeits hand 1" (by decide +kernel)
  obtain ⟨noticeB, B, ranB⟩ := reported_for (game 1 1 false)
    "seat 2 (Cara) disconnected (reported by seat 3); hand 1 was cancelled before the deal and its blinds go back"
    (by decide +kernel)
  obtain ⟨chips, lastA, owedA⟩ := reported_owes atA ranA
  obtain ⟨chips', lastB, owedB⟩ := reported_owes atB ranB
  have behind : chips 2 = 98 := forfeits owedA (by decide +kernel)
  have back : chips' = (story.hand 1).carry.chips := owedB.returned rfl (.inr rfl)
  have differ : chips ≠ chips' := by
    rintro rfl
    rw [back] at behind
    cases behind
  obtain ⟨onA, _, settledA⟩ := onReport_settles ranA
  obtain ⟨onB, _, settledB⟩ := onReport_settles ranB
  refine ⟨_, A, _, B, noticeA, noticeB, _, _, atA, atB, .inl rfl, ranA, ranB, ?_, ?_, ?_⟩
  · rw [lastA, lastB]
    exact fun same => differ (Option.some.inj same)
  · rw [disputes_iff atA atB (.inl rfl) onB onA (by decide) (by decide) settledA (room_ended _ A) owedA owedB differ 0]
    exact not_not.mpr (.inl ⟨rfl, rfl, by decide +kernel, by decide +kernel⟩)
  rw [disputes_iff atB atA (.inl rfl) onA onB (by decide) (by decide) settledB (room_ended _ B) owedB owedA differ.symm 0]
  rintro (⟨-, -, undealt, -⟩ | ⟨settled, -⟩)
  · revert undealt
    decide +kernel
  cases settled

end History

end Holdem
