import Holdem.Replica.Secrecy

/-!
A session of fresh replicas is one table. Each hand is played in a new replica with the stacks and
played positions of the last one; beside it stands a table that plays all hands on one engine.
-/

namespace Holdem

open Method

/-- `_table_cfg`, and the last seat, where a new engine puts the button. -/
structure TableCfg (n : ℕ) where
  chips : Fin n → ℤ
  button : Fin n
  sb : ℤ
  bb : ℤ
  bettingStructure : BettingStructure
  last : Fin n

/-- What a hand begins from: the stacks, and the previous hand's played positions, if there was one. -/
structure Carry (n : ℕ) where
  chips : Fin n → ℤ
  positions : Option (Option (Fin n) × Option (Fin n) × Fin n)

variable {n : ℕ} {cfg : TableCfg n} {e e' : Engine n} {r r' : Replica n}

def TableCfg.replica (cfg : TableCfg n) (carry : Carry n) (handNo : ℕ) : Replica n :=
  Replica.init handNo cfg.last carry.chips cfg.sb cfg.bb cfg.bettingStructure

def TableCfg.positions (cfg : TableCfg n) (carry : Carry n) : Option (Fin n) × Option (Fin n) × Fin n :=
  carry.positions.getD (none, none, cfg.button)

/-- The part of `_begin_p2p_hand` that builds and starts the replica. -/
def TableCfg.begin (cfg : TableCfg n) (carry : Carry n) (handNo : ℕ) : EStateM.Result PyError (Replica n) Bool :=
  let (bbSeat, sbSeat, button) := cfg.positions carry
  Replica.startHand button bbSeat sbSeat (cfg.replica carry handNo)

def TableCfg.engine (cfg : TableCfg n) : Engine n :=
  Engine.init cfg.chips cfg.button cfg.sb cfg.bb cfg.bettingStructure false false

/-- What a settled hand leaves to the next one, as `next_p2p_hand` takes it. -/
def Replica.carry (r : Replica n) : Carry n := ⟨r.stackOf, some r.positions⟩

inductive Step where
  | act (seat : ℤ) (action : Action) (amount : ℤ)
  | street
  deriving DecidableEq

def Engine.take : Step → EngineM n Unit
  | .act seat action amount => Engine.act seat action (.whole amount)
  | .street => Engine.nextStreet

def Engine.revealed (e : Engine n) : List (Option Card) :=
  match Replica.cardsDue e.street with
  | some need => (e.deck.drop (e.deck.length - need)).map some
  | none => []

def Replica.Accepts (table : Engine n) (r : Replica n) (step : Step) (r' : Replica n) : Prop :=
  match step with
  | .act seat action amount => Replica.applyAction r.nextSeq ⟨seat, action, amount⟩ r = .ok .applied r'
  | .street => Replica.advanceStreet table.revealed r = .ok () r'

inductive Plays : Engine n → Replica n → List Step → Engine n → Replica n → Prop
  | nil (e : Engine n) (r : Replica n) : Plays e r [] e r
  | cons {e e' : Engine n} {r r' r'' : Replica n} {step : Step} {steps : List Step}
      (accepts : r.Accepts e step r') (rest : Plays (after (Engine.take step e)) r' steps e' r'') :
      Plays e r (step :: steps) e' r''

def Engine.tabled (e : Engine n) (seats : List (Fin n)) : List (ℤ × List (Option Card)) :=
  seats.map fun i => ((i.val : ℤ), (e.players i).hole.map some)

inductive Continues (cfg : TableCfg n) : Engine n → Carry n → Prop
  | first : Continues cfg cfg.engine ⟨cfg.chips, none⟩
  | hand {e e2 : Engine n} {carry : Carry n} {handNo : ℕ} {deck : List Card} {r1 r2 r3 r4 : Replica n}
      {steps : List Step} {seats : List (Fin n)} {forceTabled : Bool} {result : SettleResult n}
      (before : Continues cfg e carry) (cards : deck.length = 52)
      (begun : cfg.begin carry handNo = .ok true r1)
      (played : Plays (after (Engine.startHand none deck e)) r1 steps e2 r2)
      (audited : Replica.setAllHoles (e2.tabled seats) r2 = .ok () r3)
      (finished : Replica.finish forceTabled r3 = .ok result r4) :
      Continues cfg (after (Engine.settle 1 forceTabled e2)) r4.carry

open Engine Replica

structure Beside (cfg : TableCfg n) (e : Engine n) (r : Replica n) : Prop where
  alike : Alike e r.engine
  pending : r.pending = []
  dummy : r.realHoles = ∅
  square : e.Square
  limits : e.limits = cfg.engine.limits

theorem reduceOption_map_some (cards : List Card) : (cards.map some).reduceOption = cards := by
  induction cards with
  | nil => rfl
  | cons c cards ih => rw [List.map_cons, List.reduceOption_cons_of_some, ih]

theorem revealed_suffix {need : ℕ} (due : cardsDue e.street = some need) :
    ∃ rest, e.deck = rest ++ e.revealed.reduceOption := by
  unfold Engine.revealed
  rw [due]
  dsimp only
  rw [reduceOption_map_some]
  exact ⟨_, (List.take_append_drop _ _).symm⟩

theorem beside_step {step : Step} (h : Beside cfg e r) (accepts : r.Accepts e step r') :
    ∃ e', take step e = .ok () e' ∧ Beside cfg e' r' := by
  cases step with
  | act seat action amount =>
    obtain ⟨engine, accepted, rfl⟩ := applyAction_applied h.pending accepts
    have acted := act_alike seat action (.whole amount) r.engine e h.alike.symm
    rw [accepted.ran] at acted
    obtain ⟨e', ran, alike⟩ := acted.of_ok
    have table := act_table ran
    exact ⟨e', ran, ⟨alike.symm, h.pending, h.dummy, square_of_table table h.square,
      (limits_of_table table).trans h.limits⟩⟩
  | street =>
    obtain ⟨engine, dealt, all, rfl⟩ := advanceStreet_dealt accepts
    have street : e.street = r.engine.street := h.alike.reads Engine.street
    obtain ⟨next, deals⟩ := cardsDue_deals dealt.due
    obtain ⟨rest, deck⟩ := revealed_suffix (street ▸ dealt.due)
    have loaded : Alike e (r.preload e.revealed.reduceOption).engine := h.alike
    obtain ⟨e', f', ran, ran', alike⟩ := nextStreet_alike loaded (street ▸ deals) rfl deck rfl
    rw [dealt.ran] at ran'
    cases ran'
    have table : e'.table = e.table := keeps_ok (P := fun s => s.table = e.table) (nextStreet_table e.table) rfl ran
    exact ⟨e', ran, ⟨alike, h.pending, h.dummy, square_of_table table h.square, (limits_of_table table).trans h.limits⟩⟩

theorem plays_beside {steps : List Step} (played : Plays e r steps e' r') (h : Beside cfg e r) :
    steps.forM take e = .ok () e' ∧ Beside cfg e' r' := by
  induction played with
  | nil e r => exact ⟨rfl, h⟩
  | cons accepts rest ih =>
    obtain ⟨middle, ran, beside⟩ := beside_step h accepts
    rw [ran, after_ok] at ih
    obtain ⟨rest, final⟩ := ih beside
    exact ⟨(bind_of_ok ran).trans rest, final⟩

def TableCfg.seeded (cfg : TableCfg n) (carry : Carry n) : Engine n :=
  let (bbSeat, sbSeat, button) := cfg.positions carry
  { Engine.init carry.chips button cfg.sb cfg.bb cfg.bettingStructure false false with bbSeat, sbSeat }

theorem seeded_square (cfg : TableCfg n) (carry : Carry n) : (cfg.seeded carry).Square :=
  fun _ => ⟨rfl, rfl, rfl, rfl, rfl⟩

theorem square_of_rested {f : Engine n} (h : Rested e f) (square : f.Square) : e.Square := by
  intro i
  have same : (e.players i).rest = (f.players i).rest := h.reads fun v => v.players i
  have flags := square i
  simp only [Player.rest, Player.mk.injEq, true_and] at same
  obtain ⟨-, out, bb, sb, wait, entry⟩ := same
  unfold Player.Square
  rwa [out, bb, sb, wait, entry]

theorem seeded_rested (square : e.Square) (limits : e.limits = cfg.engine.limits)
    (chips : r.stackOf = fun i => (e.players i).stack) (positions : r.positions = (e.bbSeat, e.sbSeat, e.button)) :
    Rested e (cfg.seeded r.carry) := by
  have players : (fun i => (e.players i).rest) = fun i => ({ stack := r.stackOf i } : Player) := by
    funext i
    obtain ⟨out, bb, sb, wait, entry⟩ := square i
    rw [chips, Player.rest, out, bb, sb, wait, entry]
  simp only [Engine.limits, TableCfg.engine, Engine.init, Prod.mk.injEq] at limits
  obtain ⟨sb, bb, betting, ante, out⟩ := limits
  have seeds : cfg.positions r.carry = (e.bbSeat, e.sbSeat, e.button) := positions
  show Engine.rest _ = Engine.rest _
  unfold TableCfg.seeded Engine.rest
  rw [seeds, players, sb, bb, betting, ante, out]
  rfl

variable {carry : Carry n} {seats : List (Fin n)} {handNo : ℕ}

theorem begin_beside {deck : List Card} (h : Rested e (cfg.seeded carry))
    (cards : deck.length = 52) (begun : cfg.begin carry handNo = .ok true r) :
    ∃ e1, Engine.startHand none deck e = .ok true e1 ∧ Beside cfg e1 r := by
  obtain ⟨engine, ran, rfl⟩ := startHandFrom_ok begun
  have seeds : Rested (cfg.seeded carry)
      ((cfg.replica carry handNo).seedPositions (cfg.positions carry).2.2 (cfg.positions carry).1
        (cfg.positions carry).2.1).engine := by
    show Engine.rest _ = Engine.rest _
    simp [TableCfg.seeded, TableCfg.replica, seedPositions, Replica.init, Engine.init, rest]
  have rested : Rested e _ := h.trans seeds
  have length : dummyDeck.length = deck.length := by rw [cards]; decide
  obtain ⟨e1, started, alike⟩ := startHand_alike rested.symm length ran
  have square := startHand_square (square_of_rested h (seeded_square cfg carry)) started
  have limits : e1.limits = cfg.engine.limits := (startHand_limits started).trans (h.reads Engine.limits)
  exact ⟨e1, started, ⟨alike.symm, rfl, rfl, square, limits⟩⟩

theorem tabled_holes (dummy : r.realHoles = ∅) (audited : setAllHoles (e.tabled seats) r = .ok () r') :
    ∀ i : Fin n, (i.val : ℤ) ∈ r'.realHoles → (r'.engine.players i).hole = (e.players i).hole := by
  let Real : Replica n → Prop := fun s =>
    ∀ i : Fin n, (i.val : ℤ) ∈ s.realHoles → (s.engine.players i).hole = (e.players i).hole
  have put : ∀ j : Fin n, Keeps Real (putHole j.val (e.players j).hole) := by
    intro j s real
    unfold putHole
    rw [seatAt_val]
    intro i member
    by_cases same : i = j
    · subst same
      rw [after_ok, update_same]
    rw [after_ok, update_other _ _ same]
    have other : (i.val : ℤ) ≠ j.val := fun eq => same (Fin.ext (by exact_mod_cast eq))
    exact real i ((Finset.mem_insert.mp member).resolve_left other)
  have puts : Keeps Real ((e.tabled seats).forM fun hole => putHole hole.1 hole.2.reduceOption) := by
    refine keeps_forM fun hole member => ?_
    obtain ⟨j, -, rfl⟩ := List.mem_map.mp member
    dsimp only
    rw [reduceOption_map_some]
    exact put j
  have start : Real r := fun i member => by simp [dummy] at member
  unfold setAllHoles at audited
  split at audited
  · cases audited
  exact keeps_ok puts start audited

theorem finish_beside {forceTabled : Bool} {r3 r4 : Replica n} {result : SettleResult n}
    (h : Beside cfg e r) (audited : setAllHoles (e.tabled seats) r = .ok () r3)
    (finished : finish forceTabled r3 = .ok result r4) :
    ∃ e3, settle 1 forceTabled e = .ok result e3 ∧ Alike e3 r4.engine ∧ Rested e3 (cfg.seeded r4.carry) := by
  obtain ⟨engine, shut, rfl⟩ := finish_ok finished
  have shown : Mirror r3 r := by
    have kept := setAllHoles_face (e.tabled seats) r
    rwa [audited] at kept
  have alike : Alike r3.engine e := shown.alike.trans h.alike.symm
  have real := tabled_holes h.dummy audited
  have tabled : Tabled r3.engine e := ⟨alike, fun many i member => real i (shut.verified many i member)⟩
  have settles := settle_alike 1 forceTabled tabled shut.board
  rw [shut.ran] at settles
  obtain ⟨e3, ran, final⟩ := settles.of_ok
  have table : e3.table = e.table :=
    keeps_ok (P := fun s => s.table = e.table) (settle_table e.table 1 forceTabled) rfl ran
  refine ⟨e3, ran, final.symm, seeded_rested ?_ ?_ ?_ ?_⟩
  · exact square_of_table table h.square
  · exact (limits_of_table table).trans h.limits
  · exact final.reads fun v => fun i => (v.players i).stack
  exact final.reads fun v => (v.bbSeat, v.sbSeat, v.button)

theorem continues_rested (h : Continues cfg e carry) : Rested e (cfg.seeded carry) := by
  induction h with
  | first => exact rfl
  | hand before cards begun played audited finished ih =>
    obtain ⟨e1, started, beside⟩ := begin_beside ih cards begun
    rw [started, after_ok] at played
    obtain ⟨e3, ran, -, rested⟩ := finish_beside (plays_beside played beside).2 audited finished
    rw [ran, after_ok]
    exact rested

structure InStep (e : Engine n) (r : Replica n) : Prop where
  seats : r.seatsDealt = e.seated
  positions : r.positions = (e.bbSeat, e.sbSeat, e.button)
  actor : r.engine.actor = e.actor
  legal : r.engine.legal = e.legal
  chips : r.stackOf = fun i => (e.players i).stack

theorem inStep_of_alike (h : Alike e r.engine) : InStep e r :=
  have flipped : Alike r.engine e := h.symm
  ⟨flipped.level.seated, flipped.reads fun v => (v.bbSeat, v.sbSeat, v.button), flipped.reads Engine.actor,
    funext fun i => flipped.legal i, flipped.reads fun v => fun i => (v.players i).stack⟩

theorem make_seats (t : Table n) (call : Call) : Keeps (Seats t) (call.make (n := n)) := by
  cases call with
  | applyAction seq entry => exact keeps_bind (applyAction_seats t seq entry) fun _ => keeps_pure _
  | advanceStreet cards => exact keeps_bind (advanceStreet_seats t cards) fun _ => keeps_pure _
  | setOwnHole seat cards =>
    refine keeps_bind ?_ fun _ => keeps_pure _
    unfold Replica.setOwnHole
    cases twoCards cards with
    | none => exact keeps_throw _
    | some two => exact putHole_seats t seat two

theorem positions_of_seats {t : Table n} (h : Seats t r) : r.positions = (t.bbSeat, t.sbSeat, t.button) :=
  congrArg (fun t : Table n => (t.bbSeat, t.sbSeat, t.button)) h

theorem redeal_same (begun : cfg.begin carry handNo = .ok true r)
    (handNo' : ℕ) (calls : List Call) (forceTabled : Bool) :
    ∃ r', cfg.begin carry handNo' = .ok true r' ∧ r'.engine = r.engine ∧
      r'.positions = (runAll Call.make r calls).positions ∧
      r'.positions = (after (finish forceTabled (runAll Call.make r calls))).positions := by
  obtain ⟨engine, ran, same⟩ := startHandFrom_ok begun
  have seats : Seats r.engine.table (runAll Call.make r calls) := keeps_runAll (make_seats _) calls rfl
  have ended := finish_seats _ forceTabled _ seats
  have again := startHandFrom_of_engine (r := cfg.replica carry handNo') ran
  refine ⟨_, again, ?_, ?_, ?_⟩
  · rw [same]
    rfl
  · rw [positions_of_seats seats, same]
    rfl
  rw [positions_of_seats ended, same]
  rfl

/-- Playing each hand in a fresh replica, from the stacks and positions the last one left, is playing
all hands at one table: dealt seats, positions, legal actions and stacks are the same at every step of
every hand, and a voided hand is redealt as it was. -/
theorem session_is_one_table {carry : Carry n} (h : Continues cfg e carry) :
    (fun i => (e.players i).stack) = carry.chips ∧
    cfg.positions carry = (e.bbSeat, e.sbSeat, e.button) ∧
    ∀ handNo r₁, cfg.begin carry handNo = .ok true r₁ →
      (∀ deck : List Card, deck.length = 52 → ∃ e₁, Engine.startHand none deck e = .ok true e₁ ∧ InStep e₁ r₁ ∧
        ∀ steps e₂ r₂, Plays e₁ r₁ steps e₂ r₂ → steps.forM take e₁ = .ok () e₂ ∧ InStep e₂ r₂ ∧
          ∀ seats forceTabled r₃ r₄ result, setAllHoles (e₂.tabled seats) r₂ = .ok () r₃ →
            finish forceTabled r₃ = .ok result r₄ →
            ∃ e₃, settle 1 forceTabled e₂ = .ok result e₃ ∧ InStep e₃ r₄) ∧
      ∀ handNo' calls forceTabled, ∃ r', cfg.begin carry handNo' = .ok true r' ∧ r'.engine = r₁.engine ∧
        r'.positions = (runAll Call.make r₁ calls).positions ∧
        r'.positions = (after (finish forceTabled (runAll Call.make r₁ calls))).positions := by
  have rested := continues_rested h
  refine ⟨rested.reads fun v => fun i => (v.players i).stack, ?_, ?_⟩
  · exact (rested.reads fun v => (v.bbSeat, v.sbSeat, v.button)).symm
  intro handNo r₁ begun
  refine ⟨fun deck cards => ?_, redeal_same begun⟩
  obtain ⟨e₁, started, beside⟩ := begin_beside rested cards begun
  refine ⟨e₁, started, inStep_of_alike beside.alike, fun steps e₂ r₂ played => ?_⟩
  obtain ⟨ran, beside'⟩ := plays_beside played beside
  refine ⟨ran, inStep_of_alike beside'.alike, fun seats forceTabled r₃ r₄ result audited finished => ?_⟩
  obtain ⟨e₃, settled, alike, -⟩ := finish_beside beside' audited finished
  exact ⟨e₃, settled, inStep_of_alike alike⟩

def TableCfg.duel : TableCfg 2 := ⟨fun _ => 100, 1, 1, 2, .noLimit, 1⟩

theorem Continues.folds {e : Engine 2} {carry : Carry 2} (before : Continues .duel e carry) (handNo : ℕ) (seat : ℤ) :
    let begun := TableCfg.duel.begin carry handNo
    let e₁ := after (Engine.startHand none fullDeck e)
    let folded := Replica.applyAction (after begun).nextSeq ⟨seat, .fold, 0⟩ (after begun)
    value begun = some true → value folded = some .applied → (value (finish false (after folded))).isSome = true →
      Continues .duel (after (settle 1 false (after (take (.act seat .fold 0) e₁)))) (after (finish false (after folded))).carry := by
  intro begun e₁ folded begins folds ends
  obtain ⟨result, finished⟩ := exists_ok ends
  have accepts : (after begun).Accepts e₁ (.act seat .fold 0) (after folded) := eq_ok_of_value folds
  exact .hand before (show fullDeck.length = 52 by decide) (eq_ok_of_value begins) (.cons accepts (.nil _ _))
    (show setAllHoles (Engine.tabled _ []) _ = _ from rfl) finished

theorem session_is_one_table_duel :
    ∃ (e : Engine 2) (carry : Carry 2), Continues .duel e carry ∧ e.handNo = 2 ∧ carry.chips 1 = 100 ∧
      (fun i => (e.players i).stack) = carry.chips := by
  have one := Continues.first.folds 1 0 (by decide +kernel) (by decide +kernel) (by decide +kernel)
  have two := one.folds 2 1 (by decide +kernel) (by decide +kernel) (by decide +kernel)
  exact ⟨_, _, two, by decide +kernel, by decide +kernel, (session_is_one_table two).1⟩

end Holdem
