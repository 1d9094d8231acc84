import Holdem.Engine.Start
import Holdem.Engine.Settle
import Holdem.Engine.Moves

/-!
What the methods leave alone. Every method of a running hand keeps `Engine.table`: the limits, the
positions and who sits where. Betting keeps `Engine.layout`, the street and the cards.
-/

namespace Holdem

structure Sitting where
  inSeat : Bool
  sittingOut : Bool
  owesBb : Bool
  owesSb : Bool
  waitForBb : Bool
  postEntry : Bool
  deriving DecidableEq

def Player.sitting (p : Player) : Sitting :=
  ⟨p.inSeat, p.sittingOut, p.owesBb, p.owesSb, p.waitForBb, p.postEntry⟩

def Player.footing (p : Player) : Bool × Bool × Bool × List Card := (p.inSeat, p.sittingOut, p.folded, p.hole)

structure Table (n : ℕ) where
  sb : ℤ
  bb : ℤ
  bettingStructure : BettingStructure
  bbAnte : Bool
  dealSittingOut : Bool
  button : Fin n
  bbSeat : Option (Fin n)
  sbSeat : Option (Fin n)
  handNo : ℕ
  seats : Fin n → Sitting

structure Layout (n : ℕ) where
  street : Street
  deck : List Card
  board : List Card
  holes : Fin n → List Card

namespace Engine

variable {n : ℕ} {e e' : Engine n} {i : Fin n} {f : Player → Player} {action : Action} {seat : ℤ} {amount : Amount}
  {u : Unit} {P : Engine n → Prop} {runs : ℕ}

def table (e : Engine n) : Table n :=
  ⟨e.sb, e.bb, e.bettingStructure, e.bbAnte, e.dealSittingOut, e.button, e.bbSeat, e.sbSeat, e.handNo,
    fun i => (e.players i).sitting⟩

def layout (e : Engine n) : Layout n := ⟨e.street, e.deck, e.board, fun i => (e.players i).hole⟩

@[simp] theorem emit_players (e : Engine n) (body : EventBody n) : (e.emit body).players = e.players := rfl

@[simp] theorem update_same (e : Engine n) (i : Fin n) (f : Player → Player) :
    (e.update i f).players i = f (e.players i) := by
  simp [update]

theorem update_other (e : Engine n) {j : Fin n} (f : Player → Player) (other : j ≠ i) :
    (e.update i f).players j = e.players j := by
  simp [update, other]

theorem update_keeps {α : Type} (g : Player → α) (i : Fin n) (same : g (f (e.players i)) = g (e.players i)) :
    (fun j => g ((e.update i f).players j)) = fun j => g (e.players j) := by
  funext j
  by_cases other : j = i
  · subst other; rw [update_same, same]
  rw [update_other _ _ other]

def still (e : Engine n) : Table n × Layout n := (e.table, e.layout)

@[simp] theorem still_emit (e : Engine n) (body : EventBody n) : (e.emit body).still = e.still := rfl

theorem still_update (sitting : ∀ p, (f p).sitting = p.sitting)
    (hole : ∀ p, (f p).hole = p.hole) : (e.update i f).still = e.still := by
  have seats := update_keeps (e := e) Player.sitting i (sitting _)
  have holes := update_keeps (e := e) Player.hole i (hole _)
  simp only [still, table, layout, update] at seats holes ⊢
  rw [seats, holes]

@[simp] theorem still_raiseBet (e : Engine n) (i : Fin n) : (e.raiseBet i).still = e.still := rfl

@[simp] theorem still_reopen (e : Engine n) (raiseSize : ℤ) : (e.reopen raiseSize).still = e.still := rfl

@[simp] theorem still_shortRaise (e : Engine n) (i : Fin n) : (e.shortRaise i).still = e.still := rfl

@[simp] theorem still_actDone (e : Engine n) (i : Fin n) : (e.actDone i).still = e.still := rfl

@[simp] theorem still_openRound (e : Engine n) (first : Fin n) : (e.openRound first).still = e.still := by
  unfold openRound
  dsimp only
  split <;> rfl

@[simp] theorem still_post (e : Engine n) (i : Fin n) (amount : ℤ) (label : Blind) :
    (e.post i amount label).still = e.still := by
  rw [post, still_emit]
  exact still_update (fun _ => rfl) (fun _ => rfl)

@[simp] theorem still_postDead (e : Engine n) (i : Fin n) (amount : ℤ) (label : Blind) :
    (e.postDead i amount label).still = e.still := by
  rw [postDead, still_emit]
  exact still_update (fun _ => rfl) (fun _ => rfl)

@[simp] theorem still_fold (e : Engine n) (i : Fin n) : (e.fold i).still = e.still := by
  rw [fold, still_emit]
  exact still_update (fun _ => rfl) (fun _ => rfl)

@[simp] theorem still_call (e : Engine n) (i : Fin n) : (e.call i).still = e.still := by
  unfold call
  dsimp only
  split <;> rw [still_emit] <;> exact still_update (fun _ => rfl) (fun _ => rfl)

@[simp] theorem still_raiseTo (e : Engine n) (i : Fin n) (add : ℤ) : (e.raiseTo i add).still = e.still := by
  have chips : (e.update i (raiseChips (decide (e.currentBet = 0)) add)).still = e.still :=
    still_update (fun _ => rfl) (fun _ => rfl)
  rw [raiseTo, still_emit]
  split
  · split <;> simpa using chips
  exact chips

theorem move_still (move : Move e i action e') : e'.still = e.still := by
  cases move <;> simp

section

variable (h : act seat action amount e = .ok u e')
include h

theorem act_still : e'.still = e.still := by
  obtain ⟨i, -, -, -, moved, move, rfl⟩ := act_moves h
  rw [still_actDone, move_still move]

theorem act_table : e'.table = e.table :=
  congrArg Prod.fst (act_still h)

theorem act_layout : e'.layout = e.layout :=
  congrArg Prod.snd (act_still h)

end

@[simp] theorem still_giveBack (e : Engine n) (i : Fin n) (back : ℤ) : (e.giveBack i back).still = e.still := by
  rw [giveBack, still_emit]
  exact still_update (fun _ => rfl) (fun _ => rfl)

@[simp] theorem still_returnUncalled (e : Engine n) : e.returnUncalled.still = e.still := by
  unfold returnUncalled
  split <;> simp

/-- What the posts before the deal do not touch: all but the chips, the bet to call and the debts. -/
structure Ground (n : ℕ) where
  sb : ℤ
  bb : ℤ
  bettingStructure : BettingStructure
  bbAnte : Bool
  dealSittingOut : Bool
  button : Fin n
  bbSeat : Option (Fin n)
  sbSeat : Option (Fin n)
  handNo : ℕ
  street : Street
  deck : List Card
  board : List Card
  raisesThisStreet : ℕ
  riverAggr : Option (Fin n)
  footing : Fin n → Bool × Bool × Bool × List Card

def ground (e : Engine n) : Ground n :=
  ⟨e.sb, e.bb, e.bettingStructure, e.bbAnte, e.dealSittingOut, e.button, e.bbSeat, e.sbSeat, e.handNo,
    e.street, e.deck, e.board, e.raisesThisStreet, e.riverAggr, fun i => (e.players i).footing⟩

theorem ground_update (same : ∀ p, (f p).footing = p.footing) : (e.update i f).ground = e.ground := by
  have footing := update_keeps (e := e) Player.footing i (same _)
  simp only [ground, update] at footing ⊢
  rw [footing]

theorem ground_emit (e : Engine n) (body : EventBody n) : (e.emit body).ground = e.ground := rfl

theorem ground_post (e : Engine n) (i : Fin n) (amount : ℤ) (label : Blind) :
    (e.post i amount label).ground = e.ground := by
  rw [post, ground_emit]
  exact ground_update fun _ => rfl

theorem ground_postDead (e : Engine n) (i : Fin n) (amount : ℤ) (label : Blind) :
    (e.postDead i amount label).ground = e.ground := by
  rw [postDead, ground_emit]
  exact ground_update fun _ => rfl

theorem ground_postSmallBlind (e : Engine n) (sbSeat : Fin n) : (e.postSmallBlind sbSeat).ground = e.ground := by
  unfold postSmallBlind
  split
  · exact ground_post e sbSeat e.sb .sb
  rfl

theorem ground_postBigBlind (e : Engine n) (bbSeat : Fin n) : (e.postBigBlind bbSeat).ground = e.ground := by
  have live := ground_post { e with bbI := some bbSeat } bbSeat e.bb .bb
  unfold postBigBlind
  dsimp only
  split
  · exact (ground_postDead _ _ _ _).trans live
  exact live

theorem ground_enter (sbSeat bbSeat : Fin n) (e : Engine n) (i : Fin n) :
    (enter sbSeat bbSeat e i).ground = e.ground := by
  refine Eq.trans (ground_update fun _ => rfl) ?_
  unfold entryPost
  dsimp only
  split
  · split
    · exact (ground_postDead _ _ _ _).trans (ground_post _ _ _ _)
    exact ground_post _ _ _ _
  rfl

theorem ground_enterAll (sbSeat bbSeat : Fin n) (seats : List (Fin n)) (e : Engine n) :
    (seats.foldl (enter sbSeat bbSeat) e).ground = e.ground := by
  induction seats generalizing e with
  | nil => rfl
  | cons i rest ih => rw [List.foldl_cons, ih, ground_enter]

theorem ground_straddle (e : Engine n) (bbSeat : Fin n) (straddleFn : Option (Fin n → Bool)) :
    (e.straddle bbSeat straddleFn).ground = e.ground := by
  unfold straddle
  split
  · exact ground_post e _ (2 * e.bb) .str
  rfl

theorem ground_postForced (e : Engine n) (sbSeat bbSeat : Fin n) : (e.postForced sbSeat bbSeat).ground = e.ground := by
  rw [postForced, ground_enterAll, ground_postBigBlind, ground_postSmallBlind]

theorem ground_postAll (e : Engine n) (sbSeat bbSeat : Fin n) (straddleFn : Option (Fin n → Bool)) :
    (e.postAll sbSeat bbSeat straddleFn).ground = e.ground := by
  rw [postAll, ground_straddle]
  exact ground_postForced e sbSeat bbSeat

open Method

theorem table_of_still (h : e'.still = e.still) : e'.table = e.table := congrArg Prod.fst h

@[simp] theorem table_openStreet (e : Engine n) : e.openStreet.table = e.table :=
  table_of_still (still_openRound (e.emit _) _)

theorem table_clearBets (e : Engine n) : e.clearBets.table = e.table := by
  have seats : ∀ i, (e.clearBets.players i).sitting = (e.players i).sitting := by
    intro i
    simp only [clearBets]
    split <;> rfl
  simp only [table, funext seats]
  rfl

theorem deal_keeps (drop : ∀ e rest, P e → P { e with deck := rest }) (k : ℕ) :
    Keeps P (deal k : EngineM n (List Card)) := by
  intro e h
  unfold deal
  split
  · exact drop e _ h
  exact h

theorem nextStreet_keeps (clears : ∀ e, P e → P e.clearBets)
    (cards : ∀ e deck board street, P e → P { e with deck, board, street })
    (opens : ∀ e, P e → P e.openStreet) : Keeps P nextStreet := by
  have deals : ∀ k street, Keeps P (dealStreet k street) := fun k street =>
    keeps_bind (deal_keeps (fun e rest h => cards e rest e.board e.street h) k) fun out =>
      keeps_modify fun e h => opens _ (cards e e.deck (e.board ++ out) street h)
  intro e h
  have cleared := clears e h
  unfold nextStreet
  dsimp only
  split
  · exact deals 3 .flop _ cleared
  · exact deals 1 .turn _ cleared
  · exact deals 1 .river _ cleared
  · exact cards _ e.deck e.board .showdown cleared
  · exact opens _ cleared
  exact opens _ cleared

theorem nextStreet_table (t : Table n) : Keeps (fun e : Engine n => e.table = t) nextStreet :=
  nextStreet_keeps (fun e h => (table_clearBets e).trans h) (fun _ _ _ _ h => h)
    (fun e h => (table_openStreet e).trans h)

theorem runOut_keeps (street : Keeps P (nextStreet : EngineM n Unit)) (fuel : ℕ) :
    Keeps P (runOut fuel : EngineM n Unit) := by
  induction fuel with
  | zero =>
    intro e h
    unfold runOut
    split <;> exact h
  | succ fuel ih =>
    intro e h
    unfold runOut
    split
    · exact keeps_bind street (fun _ => ih) e h
    exact h

theorem completeBoard_keeps (street : Keeps P (nextStreet : EngineM n Unit))
    (cards : ∀ e deck board board2 street events, P e →
      P { e with deck, board, board2, street, publicEvents := events })
    (runs : ℕ) (tabled : Bool) : Keeps P (completeBoard runs tabled) := by
  have deals := fun k => deal_keeps (P := P) (fun e rest h => cards e rest _ _ _ _ h) k
  refine keeps_bind (m := get) (fun _ h => h) fun e => ?_
  split
  · split
    · refine keeps_bind (deals _) fun first => keeps_bind (deals _) fun second => ?_
      exact keeps_bind (keeps_modify fun e h => cards e _ _ _ _ _ h) fun _ => keeps_pure _
    refine keeps_bind (runOut_keeps street 3) fun _ => ?_
    refine keeps_bind (keeps_modify fun e h => cards e _ _ _ .showdown _ h) fun _ => ?_
    exact keeps_bind (m := get) (fun _ h => h) fun _ => keeps_pure _
  exact keeps_pure _

theorem completeBoard_table (t : Table n) (runs : ℕ) (tabled : Bool) :
    Keeps (fun e : Engine n => e.table = t) (completeBoard runs tabled) :=
  completeBoard_keeps (nextStreet_table t) (fun _ _ _ _ _ _ h => h) runs tabled

theorem scoreRuns_keeps (P : Engine n → Prop) (alive : List (Fin n)) (boards : List (List Card)) :
    Keeps P (scoreRuns alive boards) := by
  intro e h
  unfold scoreRuns
  split
  · split <;> exact h
  exact h

section Awards

variable {P : Engine n → Prop} (paying : ∀ e paid, P e → P (e.pay paid))
  (alive : List (Fin n)) (scored : List (RunScores n))
include paying

theorem awardRun_keeps (eligible : List (Fin n)) (r : ℕ) (share : ℤ) :
    Keeps P (awardRun alive scored eligible r share) := by
  intro e h
  unfold awardRun
  split
  · exact h
  exact paying e _ h

theorem awardRuns_keeps (eligible : List (Fin n)) (r : ℕ) (shares : List ℤ) :
    Keeps P (awardRuns alive scored eligible r shares) := by
  induction shares generalizing r with
  | nil => exact keeps_pure _
  | cons share rest ih =>
    exact keeps_bind (awardRun_keeps paying alive scored eligible r share) fun _ =>
      keeps_bind (ih (r + 1)) fun _ => keeps_pure _

theorem awardPots_keeps (pots : List (Pot n)) : Keeps P (awardPots alive scored pots) := by
  induction pots with
  | nil => exact keeps_pure _
  | cons pot rest ih =>
    refine keeps_bind ?_ fun _ => keeps_bind ih fun _ => keeps_pure _
    exact keeps_bind (awardRuns_keeps paying alive scored _ 0 _) fun _ => keeps_pure _

end Awards

def Logged (e e' : Engine n) : Prop := ∃ events, e' = { e with publicEvents := events }

theorem logged_foldl {α β : Type} {f : Engine n × β → α → Engine n × β}
    (each : ∀ s a, Logged s.1 (f s a).1) (xs : List α) (s : Engine n × β) :
    Logged s.1 (xs.foldl f s).1 := by
  induction xs generalizing s with
  | nil => exact ⟨_, rfl⟩
  | cons x xs ih =>
    obtain ⟨first, h⟩ := each s x
    obtain ⟨rest, h'⟩ := ih (f s x)
    exact ⟨rest, by rw [List.foldl_cons, h', h]⟩

theorem showTurn_logged (run : RunScores n) (tabled : Bool) (winners : Finset (Fin n))
    (s : Engine n × Showdown n) (j : Fin n) : Logged s.1 (showTurn run tabled winners s j).1 := by
  unfold showTurn
  dsimp only
  split <;> split <;> exact ⟨_, rfl⟩

theorem logged_trans {e1 e2 e3 : Engine n} (h : Logged e1 e2) (h' : Logged e2 e3) : Logged e1 e3 := by
  obtain ⟨_, rfl⟩ := h
  obtain ⟨events, rfl⟩ := h'
  exact ⟨events, rfl⟩

theorem narrate_logged (uncontested : Bool) (scored : List (RunScores n)) (pots : List (PotResult n))
    (e : Engine n) : Logged e (narrate uncontested scored pots e) := by
  have runs : ∀ (k : ℕ) (awards : List (RunAward n × ℕ)) (e : Engine n),
      Logged e (awards.foldl (narrateRun uncontested scored k) e) := by
    intro k awards
    induction awards with
    | nil => exact fun e => ⟨_, rfl⟩
    | cons award rest ih => exact fun e => logged_trans ⟨_, rfl⟩ (ih _)
  unfold narrate
  induction pots.zipIdx generalizing e with
  | nil => exact ⟨_, rfl⟩
  | cons pot rest ih => exact logged_trans (runs _ _ _) (ih _)

theorem settled_logged (e : Engine n) (alive : List (Fin n)) (refund : Option (Fin n × ℤ))
    (tabled : Bool) (scored : List (RunScores n)) (pots : List (PotResult n)) :
    ∃ shown, Logged e shown ∧ (e.settled alive refund tabled scored pots).2 = shown.clearTotals :=
  ⟨_, logged_trans (logged_foldl (showTurn_logged _ _ _) _ (e, {})) (narrate_logged _ _ _ _), rfl⟩

theorem settle_keeps {P : Engine n → Prop} {forceTabled : Bool} (returned : ∀ e, P e → P e.returnUncalled)
    (board : Keeps P (completeBoard runs forceTabled)) (paying : ∀ e paid, P e → P (e.pay paid))
    (closed : ∀ (e : Engine n) events, P e → P { e with publicEvents := events }.clearTotals) :
    Keeps P (settle runs forceTabled) := by
  refine keeps_bind (fun _ h => h) fun start => ?_
  refine keeps_bind (keeps_modify returned) fun _ => ?_
  refine keeps_bind (fun _ h => h) fun e => ?_
  refine keeps_bind board fun done => ?_
  refine keeps_bind (scoreRuns_keeps _ _ _) fun scored => ?_
  refine keeps_bind (fun _ h => h) fun e' => ?_
  refine keeps_bind (awardPots_keeps paying _ _ _) fun pots s h => ?_
  obtain ⟨shown, ⟨events, rfl⟩, ended⟩ := settled_logged s e.contested start.uncalled done.2 scored pots
  have settled : P (s.settled e.contested start.uncalled done.2 scored pots).2 := ended ▸ closed s events h
  exact settled

theorem settle_table (t : Table n) (runs : ℕ) (forceTabled : Bool) :
    Keeps (fun e : Engine n => e.table = t) (settle runs forceTabled) :=
  settle_keeps (fun e h => (table_of_still (still_returnUncalled e)).trans h) (completeBoard_table t runs forceTabled)
    (fun _ _ h => h) fun _ _ h => h

theorem settle_of_steps {forceTabled tabled : Bool} {boards : List (List Card)}
    {scored : List (RunScores n)} {pots : List (PotResult n)} {e1 e2 : Engine n}
    (board : completeBoard runs forceTabled e.returnUncalled = .ok (boards, tabled) e1)
    (score : scoreRuns e.returnUncalled.contested boards e1 = .ok scored e1)
    (award : awardPots e.returnUncalled.contested scored (e1.layers e.returnUncalled.contested) e1 = .ok pots e2) :
    settle runs forceTabled e = .ok (e2.settled e.returnUncalled.contested e.uncalled tabled scored pots).1
        (e2.settled e.returnUncalled.contested e.uncalled tabled scored pots).2 := by
  change (completeBoard runs forceTabled >>= _) e.returnUncalled = _
  rw [bind_of_ok board]
  change (scoreRuns e.returnUncalled.contested boards >>= _) e1 = _
  rw [bind_of_ok score]
  change (awardPots e.returnUncalled.contested scored _ >>= _) e1 = _
  rw [bind_of_ok award]
  rfl

end Engine

end Holdem
