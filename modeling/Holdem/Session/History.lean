import Holdem.Replica.Reorder
import Holdem.Session.Drop

/-!
The one history that the games of a table play, hand after hand. A game stands somewhere in it, and two
games may stand at different places.
-/

namespace Holdem

open List

variable {n : ℕ} {H : Type}

open Method Engine Replica

theorem begin_seats {cfg : TableCfg n} {carry : Carry n} {hand : ℕ} {r : Replica n} (begun : cfg.begin carry hand = .ok true r) :
    r.seatsDealt = activeSeats carry.chips ∧ 2 ≤ (activeSeats carry.chips).length := by
  obtain ⟨engine, started, rfl⟩ := startHandFrom_ok begun
  obtain ⟨placed, sbSeat, bbSeat, dealt, first, positions, small, big, two, deal, turn, rfl⟩ := startHand_opening started
  have moved := rearranges_of_ok positions
  have active : placed.resetSeats.seated = activeSeats carry.chips := by
    obtain ⟨_, _, _, eq⟩ := moved.rest
    have sitting : placed.dealSittingOut = false := by rw [eq]; rfl
    refine filter_congr fun i _ => ?_
    obtain ⟨_, _, wait, same⟩ := moved.players i
    show placed.dealt (placed.players i) = _
    rw [same]
    simp [Engine.dealt, blindEligible, sitting, seedPositions, TableCfg.replica, Replica.init, Engine.init]
  have seats : (dealt.openRound first).seated = placed.resetSeats.seated := by
    have ground := posted_ground placed sbSeat bbSeat none dummyDeck
    have deals := dealHoles_deals (placed.posted sbSeat bbSeat none dummyDeck) _ (deals_refl _)
    rw [deal] at deals
    obtain ⟨_, holes, same⟩ : (placed.posted sbSeat bbSeat none dummyDeck).Deals dealt := deals
    unfold seated seatsWhere
    rw [openRound_players, same]
    exact filter_congr fun i _ => congrArg (fun g : Ground n => (g.footing i).1) ground
  exact ⟨seats.trans active, active ▸ two⟩

structure Stakes (n : ℕ) where
  chips : Fin n → ℤ
  live : Fin n → ℤ
  dead : Fin n → ℤ
  contested : List (Fin n)
  button : Fin n

def Engine.stakes (e : Engine n) : Stakes n :=
  ⟨fun i => (e.players i).stack, fun i => (e.players i).totalLive, fun i => (e.players i).totalDead, e.contested, e.button⟩

theorem stakes_of_players {e e' : Engine n} (players : e'.players = e.players) (button : e'.button = e.button) :
    e'.stakes = e.stakes := by
  unfold Engine.stakes contested seatsWhere
  rw [players, button]

theorem clearBets_stakes (e : Engine n) : e.clearBets.stakes = e.stakes := by
  have each : ∀ {α : Type} (f : Player → α), (∀ p last, f { p with bet := 0, lastAction := last } = f p) → ∀ i,
      f (e.clearBets.players i) = f (e.players i) := by
    intro α f same i
    simp only [clearBets]
    split
    · exact same _ _
    exact same _ (e.players i).lastAction
  unfold Engine.stakes
  congr 1
  · exact funext (each Player.stack fun _ _ => rfl)
  · exact funext (each Player.totalLive fun _ _ => rfl)
  · exact funext (each Player.totalDead fun _ _ => rfl)
  exact filter_congr fun i _ => each (fun p => p.inSeat && !p.folded) (fun _ _ => rfl) i

theorem nextStreet_stakes (s : Stakes n) : Keeps (fun e : Engine n => e.stakes = s) nextStreet :=
  nextStreet_keeps (fun e h => (clearBets_stakes e).trans h) (fun _ _ _ _ h => h)
    fun e h => (stakes_of_players (openStreet_players e) (congrArg Table.button (table_openStreet e))).trans h

theorem Engine.Alike.stakes {e f : Engine n} (h : Alike e f) : e.stakes = f.stakes := h.reads Engine.stakes

namespace Replica

variable {r s : Replica n} {revealed : Street → List (Option Card)}

/-- What stopping a dealt hand leaves to each seat, where the hand was dealt from `before`. -/
def stopped (lost : Fin n) (before : Fin n → ℤ) (r : Replica n) : Except PyError (Fin n → ℤ) :=
  let k := r.engine.stakes
  if k.contested = [lost] then
    match r.finish false with
    | .ok _ r' => .ok r'.stackOf
    | .error x _ => if (unsettledText 0 x).isSome then .ok before else .error x
  else (settleForfeit k.chips k.live k.dead k.contested lost k.button).map Forfeit.chips

structure Abreast (r s : Replica n) : Prop where
  engine : Alike r.engine s.engine
  seq : r.nextSeq = s.nextSeq
  phase : r.phase = s.phase
  total : r.startTotal = s.startTotal

theorem finish_alone {forceTabled : Bool} (h : Abreast r s) (alone : r.engine.contested.length ≤ 1) :
    Matches (fun r s : Replica n => r.stackOf = s.stackOf) (finish forceTabled r) (finish forceTabled s) := by
  have contested : r.engine.contested = s.engine.contested := h.engine.level.contested
  have same : ∀ {e f : Engine n}, Alike e f → (r.withEngine e).stackOf = (s.withEngine f).stackOf := fun alike =>
    congrArg Stakes.chips alike.stakes
  unfold finish
  rw [h.phase, ← contested]
  split
  · exact .error (same h.engine)
  rw [if_neg (by omega), if_neg (by omega), if_neg (by omega), if_neg (by omega)]
  have settles := settle_alike 1 forceTabled ⟨h.engine, fun many => by omega⟩ fun many => by omega
  simp only [bind_apply, onEngine, within]
  generalize settle 1 forceTabled r.engine = left at settles
  generalize settle 1 forceTabled s.engine = right at settles
  cases settles with
  | @ok raw e f alike =>
    have chips := same alike
    have start : (r.withEngine e).startTotal = (s.withEngine f).startTotal := h.total
    simp only [conclude]
    rw [chips, start]
    split
    · exact .error chips
    exact .ok chips
  | error alike => exact .error (same alike)

structure Tidy (r : Replica n) : Prop where
  empty : r.pending = []
  phase : r.phase = phaseOf r.engine

theorem Tidy.on (h : Tidy r) : r.phase ≠ .settled := h.phase ▸ phaseOf_open _

structure PlayedOn (count : ℕ) (r s : Replica n) : Prop where
  tidy : Tidy s
  seq : s.nextSeq = r.nextSeq + count
  table : s.engine.table = r.engine.table

theorem inOrder_playedOn {played : List Play} (h : Tidy r) (ran : inOrder revealed r played = some s) :
    PlayedOn (actions played).length r s := by
  induction played generalizing r with
  | nil =>
    cases ran
    exact ⟨h, by simp [actions], rfl⟩
  | cons play rest ih =>
    have core : r.core = r := by rw [core, ← h.empty]
    rw [← core] at ran
    cases play with
    | action entry =>
      obtain ⟨engine, accepted, ran⟩ := inOrder_action ran
      have next := ih (r := (r.moved engine).countOn.core) ⟨rfl, moved_phase h.on engine⟩ ran
      refine ⟨next.tidy, next.seq.trans ?_, next.table.trans (act_table accepted.ran)⟩
      change r.nextSeq + 1 + _ = _
      simp only [actions, filterMap_cons, length_cons]
      push_cast
      ring
    | street =>
      obtain ⟨shut, r', advanced, seq, pending, ran⟩ := inOrder_street ran
      obtain ⟨engine, dealt, -, rfl⟩ := advanceStreet_dealt advanced
      have phase := moved_phase (r := r.preload (revealed r.engine.street).reduceOption) (show r.phase ≠ _ by simp [shut]) engine
      have next := ih (r := ((r.preload (revealed r.engine.street).reduceOption).moved engine).core) ⟨rfl, phase⟩ ran
      refine ⟨next.tidy, next.seq.trans ?_, next.table.trans ?_⟩
      · rfl
      have kept := nextStreet_table (r.preload (revealed r.engine.street).reduceOption).engine.table _ rfl
      rw [dealt.ran] at kept
      exact kept

theorem inOrder_streets {k : ℕ} (h : Tidy r) (ran : inOrder revealed r (replicate k .street) = some s) :
    s.engine.stakes = r.engine.stakes ∧ (k ≠ 0 → 1 < r.engine.contested.length) := by
  induction k generalizing r with
  | zero =>
    cases ran
    exact ⟨rfl, fun none => absurd rfl none⟩
  | succ k ih =>
    have core : r.core = r := by rw [core, ← h.empty]
    rw [replicate_succ, ← core] at ran
    obtain ⟨shut, r', advanced, -, -, ran⟩ := inOrder_street ran
    obtain ⟨engine, dealt, -, rfl⟩ := advanceStreet_dealt advanced
    have phase := moved_phase (r := r.preload (revealed r.engine.street).reduceOption) (show r.phase ≠ _ by simp [shut]) engine
    obtain ⟨stakes, -⟩ := ih (r := ((r.preload (revealed r.engine.street).reduceOption).moved engine).core) ⟨rfl, phase⟩ ran
    have kept := nextStreet_stakes r.engine.stakes (r.preload (revealed r.engine.street).reduceOption).engine rfl
    rw [dealt.ran] at kept
    refine ⟨stakes.trans kept, fun _ => ?_⟩
    by_contra few
    rw [h.phase, phaseOf, if_pos (by omega)] at shut
    cases shut

end Replica

theorem streets_apart {p q script : List Play} (first : p <+: script) (second : q <+: script)
    (same : (actions p).length = (actions q).length) (shorter : p.length ≤ q.length) :
    ∃ k, q = p ++ replicate k .street := by
  obtain ⟨more, rfl⟩ := prefix_of_prefix_length_le first second shorter
  refine ⟨more.length, congrArg (p ++ ·) (List.eq_replicate_iff.mpr ⟨rfl, fun play member => ?_⟩)⟩
  have none : actions more = [] := by
    have split : actions (p ++ more) = actions p ++ actions more := filterMap_append
    rw [split, length_append] at same
    exact List.length_eq_zero_iff.mp (by omega)
  cases play with
  | street => rfl
  | action entry => simpa using List.filterMap_eq_nil_iff.mp none _ member

namespace Replica

variable {r s t u : Replica n} {revealed : Street → List (Option Card)}

theorem stopped_abreast (h : Abreast r s) (lost : Fin n) (before : Fin n → ℤ) :
    r.stopped lost before = s.stopped lost before := by
  have stakes := h.engine.stakes
  unfold stopped
  dsimp only
  rw [stakes]
  split
  · rename_i alone
    have few : r.engine.contested.length ≤ 1 := by
      rw [show r.engine.contested = [lost] from (congrArg Stakes.contested stakes).trans alone]
      exact le_refl 1
    have finishes : Matches _ (finish false r) (finish false s) := finish_alone h few
    generalize finish false r = left at finishes
    generalize finish false s = right at finishes
    cases finishes with
    | ok chips => exact congrArg Except.ok chips
    | error chips => rfl
  rfl

theorem stopped_same {start : Replica n} {p q script : List Play} (tidy : Tidy start)
    (first : p <+: script) (second : q <+: script) (same : (actions p).length = (actions q).length)
    (ranP : inOrder revealed start p = some t) (ranQ : inOrder revealed start q = some u)
    (lost : Fin n) (before : Fin n → ℤ) : t.stopped lost before = u.stopped lost before := by
  wlog shorter : p.length ≤ q.length generalizing p q t u
  · exact (this second first same.symm ranQ ranP (by omega)).symm
  obtain ⟨k, rfl⟩ := streets_apart first second same shorter
  rw [inOrder_append, ranP] at ranQ
  cases k with
  | zero => exact congrArg (stopped lost before) (Option.some.inj ranQ)
  | succ k =>
    obtain ⟨stakes, many⟩ := inOrder_streets (inOrder_playedOn tidy ranP).tidy ranQ
    have contested : t.engine.stakes.contested ≠ [lost] := fun alone => by
      have := many (Nat.succ_ne_zero k)
      rw [show t.engine.contested = [lost] from alone] at this
      simp at this
    unfold stopped
    dsimp only
    rw [stakes, if_neg contested, if_neg contested]

end Replica

inductive HandEnd (n : ℕ) where
  | playing
  | settled (next : Carry n)
  | voided

structure HandHistory (n : ℕ) where
  carry : Carry n
  revealed : Street → List (Option Card)
  script : List Play
  ending : HandEnd n

structure History (n : ℕ) where
  cfg : TableCfg n
  /-- Does the table run Bayer-Groth? -/
  prevention : Bool
  hand : ℕ → HandHistory n
  paid : ∀ h next, (hand h).ending = .settled next → (hand (h + 1)).carry = next
  redealt : ∀ h, (hand h).ending = .voided → (hand (h + 1)).carry = (hand h).carry
  counts : ∀ h i, 0 ≤ (hand h).carry.chips i

inductive HandStage where
  | shuffling
  | dealt (played : List Play)
  | settled
  | voided
  deriving DecidableEq

namespace HandStage

def isDealt : HandStage → Bool
  | .dealt _ | .settled => true
  | .shuffling | .voided => false

def isSettled : HandStage → Bool
  | .settled => true
  | _ => false

def isLive : HandStage → Bool
  | .shuffling | .dealt _ => true
  | .settled | .voided => false

end HandStage

namespace History

variable (history : History n) (h : ℕ)

def start : Option (Replica n) :=
  match history.cfg.begin (history.hand h).carry h with
  | .ok true r => some r
  | _ => none

def table (played : List Play) : Option (Replica n) :=
  (history.start h).bind fun r => r.inOrder (history.hand h).revealed played

def seats : List (Fin n) := (history.start h).elim [] Replica.seatsDealt

def Plays (played : List Play) (r : Replica n) : Prop :=
  played <+: (history.hand h).script ∧ ∃ t, history.table h played = some t ∧ Abreast r t

def Stands (g : Game n H) : HandStage → Prop
  | .shuffling =>
    g.handResult = none ∧ g.handRecord = none ∧ g.shuffled = false ∧ ∃ r played, g.replica = some r ∧ history.Plays h played r
  | .dealt played =>
    g.handResult = none ∧ g.handRecord = none ∧ g.shuffled = true ∧ (g.prevention = true → g.proofsVerified = g.rounds) ∧
      ∃ r, g.replica = some r ∧ history.Plays h played r
  | .settled =>
    g.handVoided = false ∧ ∃ r result next, g.replica = some r ∧ g.handResult = some result ∧
      (history.hand h).ending = .settled next ∧ r.stackOf = next.chips
  | .voided =>
    g.handResult = none ∧ g.handVoided = true ∧ (history.hand h).ending = .voided ∧
      ∃ r played, g.replica = some r ∧ history.Plays h played r

structure At (stage : HandStage) (g : Game n H) : Prop where
  hand : g.handNo = h
  carry : g.handCarry = some (history.hand h).carry
  terminal : g.terminal = none
  departed : g.departed = ∅
  final : g.finalStacks = none
  drop : g.dropStacks = none
  compared : g.dropCompared = []
  prevention : g.prevention = history.prevention
  seated : g.localSeat ∈ history.seats h
  stands : history.Stands h g stage

structure Ahead (stage : HandStage) (before : ℕ) (stage' : HandStage) (other : Fin n) : Prop where
  next : h = before + 1
  ended : (history.hand before).ending ≠ .playing
  keys : other ∈ history.seats h → stage.isDealt = false
  reports : ∀ next, (history.hand before).ending = .settled next → stage' = .settled

def Together (stage : HandStage) (seat : Fin n) (h' : ℕ) (stage' : HandStage) (seat' : Fin n) : Prop :=
  h = h' ∨ history.Ahead h stage h' stage' seat' ∨ history.Ahead h' stage' h stage seat

theorem Together.symm {history : History n} {h h' : ℕ} {stage stage' : HandStage} {seat seat' : Fin n}
    (together : history.Together h stage seat h' stage' seat') : history.Together h' stage' seat' h stage seat :=
  together.imp Eq.symm Or.symm

end History

end Holdem
