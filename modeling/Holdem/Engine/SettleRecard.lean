import Holdem.Engine.Recard
import Holdem.Engine.Fairness

/-!
A settlement with other cards in the hands that are not shown. If it comes out the same, it leaves the
same table and the same log.
-/

namespace Holdem.Engine

open List

variable {n k : ℕ} {e e' : Engine n} {holes : Fin n → List Card} {deck : List Card} {tabled : Bool}
  {out : List (List Card) × Bool} {alive : List (Fin n)} {scored scored' : List (RunScores n)} {i : Fin n}
  {refund : Option (Fin n × ℤ)} {pots : List (PotResult n)} {forceTabled : Bool} {r : ℕ}

open Method

theorem recard_returnUncalled : (e.recard holes deck).returnUncalled = e.returnUncalled.recard holes deck := by
  have uncalled : (e.recard holes deck).uncalled = e.uncalled := rfl
  unfold returnUncalled
  rw [uncalled]
  split
  · rw [giveBack, recard_update fun _ _ => rfl]
    rfl
  rfl

theorem runOut_sameTop (holes : Fin n → List Card) (fuel : ℕ) (ran : runOut fuel e = .ok () e')
    (top : SameTop k e.deck deck) (within : e'.board.length ≤ e.board.length + k) :
    ∃ deck', runOut fuel (e.recard holes deck) = .ok () (e'.recard holes deck') := by
  induction fuel generalizing k e deck with
  | zero =>
    unfold runOut at ran
    split at ran
    · cases ran
    rename_i full
    cases ran
    exact ⟨deck, if_neg full⟩
  | succ fuel ih =>
    unfold runOut at ran
    split at ran
    · rename_i short
      obtain ⟨_, e1, next, rest⟩ := bind_ok ran
      have grown : e1.board <+: e'.board :=
        keeps_ok (P := fun s => e1.board <+: s.board) (runOut_keeps (nextStreet_extends e1.board) fuel) (prefix_refl _) rest
      have longer := grown.length_le
      obtain ⟨deck1, next', top1⟩ := nextStreet_sameTop holes next top (by omega)
      obtain ⟨deck', rest'⟩ := ih rest top1 (by omega)
      refine ⟨deck', ?_⟩
      have short' : (e.recard holes deck).board.length < 5 := short
      unfold runOut
      rw [if_pos short', bind_of_ok next', rest']
    rename_i full
    cases ran
    exact ⟨deck, if_neg full⟩

theorem completeBoard_sameTop (holes : Fin n → List Card)
    (ran : completeBoard 1 tabled e = .ok out e') (top : SameTop k e.deck deck)
    (within : e'.board.length ≤ e.board.length + k) :
    ∃ deck', completeBoard 1 tabled (e.recard holes deck) = .ok out (e'.recard holes deck') := by
  obtain ⟨_, _, got, ran⟩ := bind_ok (m := get) ran
  cases got
  unfold completeBoard
  rw [bind_of_ok (m := get) (a := e.recard holes deck) (t := e.recard holes deck) rfl]
  split at ran
  · rename_i many
    rw [if_neg (by simp)] at ran
    obtain ⟨_, e1, played, ran⟩ := bind_ok ran
    obtain ⟨_, e2, moved, ran⟩ := bind_ok ran
    obtain ⟨_, e3, got, ran⟩ := bind_ok (m := get) ran
    cases moved
    cases got
    cases ran
    obtain ⟨deck', played'⟩ := runOut_sameTop holes 3 played top within
    refine ⟨deck', ?_⟩
    rw [if_pos (show 1 < (e.recard holes deck).contested.length from many), if_neg (by simp), bind_of_ok played']
    rfl
  rename_i few
  cases ran
  exact ⟨deck, by rw [if_neg (show ¬1 < (e.recard holes deck).contested.length from few)]; rfl⟩

theorem runOut_drawn (fuel : ℕ) (ran : runOut fuel e = .ok () e') : Drawn e e' := by
  induction fuel generalizing e with
  | zero =>
    unfold runOut at ran
    split at ran <;> cases ran
    exact .refl _
  | succ fuel ih =>
    unfold runOut at ran
    split at ran
    · obtain ⟨_, e1, next, rest⟩ := bind_ok ran
      exact (nextStreet_drawn next).trans (ih rest)
    cases ran
    exact .refl _

theorem completeBoard_drawn (ran : completeBoard 1 tabled e = .ok out e') : Drawn e e' := by
  obtain ⟨_, _, got, ran⟩ := bind_ok (m := get) ran
  cases got
  split at ran
  · rw [if_neg (by simp)] at ran
    obtain ⟨_, e1, played, ran⟩ := bind_ok ran
    cases ran
    have drawn := runOut_drawn 3 played
    exact ⟨drawn.holes, drawn.board, drawn.cards⟩
  cases ran
  exact .refl _

def ScoredAlike (known : Fin n → Prop) (run run' : RunScores n) : Prop :=
  ∀ i, known i → run.score i = run'.score i ∧ (run.best.lookup i).getD [] = (run'.best.lookup i).getD []

theorem scoreRun_alike {board : List Card} {run run' : RunScores n}
    (scored : e.scoreRun alive board = .ok run) (scored' : (e.recard holes deck).scoreRun alive board = .ok run') :
    ScoredAlike (fun i => i ∈ alive ∧ holes i = (e.players i).hole) run run' := by
  rintro i ⟨member, same⟩
  obtain ⟨-, scores, best⟩ := scoreRun_scores scored
  obtain ⟨-, scores', best'⟩ := scoreRun_scores scored'
  have here := scores' i member
  have there := best' i member
  rw [recard_hole, same] at here there
  exact ⟨Except.ok.inj ((scores i member).symm.trans here), Except.ok.inj ((best i member).symm.trans there)⟩

theorem mapM_at {α β : Type} {f : α → Except PyError β} (xs : List α) {ys : List β} (ok : xs.mapM f = .ok ys) (r : ℕ) :
    (∃ x y, xs[r]? = some x ∧ ys[r]? = some y ∧ f x = .ok y) ∨ xs[r]? = none ∧ ys[r]? = none := by
  induction xs generalizing ys r with
  | nil =>
    cases ok
    exact .inr ⟨rfl, rfl⟩
  | cons x xs ih =>
    rw [mapM_cons] at ok
    obtain ⟨y, first, ok⟩ := check_ok ok
    obtain ⟨others, ran, ok⟩ := check_ok ok
    cases ok
    cases r with
    | zero => exact .inl ⟨x, y, rfl, rfl, first⟩
    | succ r => exact ih ran r

theorem scoreRuns_alike {boards : List (List Card)} {f g : Engine n} (ran : scoreRuns alive boards e = .ok scored f)
    (ran' : scoreRuns alive boards (e.recard holes deck) = .ok scored' g) (r : ℕ) :
    (∃ run run', scored[r]? = some run ∧ scored'[r]? = some run' ∧
      ScoredAlike (fun i => i ∈ alive ∧ holes i = (e.players i).hole) run run') ∨
      scored[r]? = none ∧ scored'[r]? = none := by
  unfold scoreRuns at ran ran'
  split at ran
  · rename_i many
    rw [if_pos many] at ran'
    split at ran
    · rename_i runs ok
      split at ran'
      · rename_i runs' ok'
        cases ran
        cases ran'
        obtain ⟨board, run, at', found, scores⟩ | ⟨at', found⟩ := mapM_at boards ok r
        · obtain ⟨board', run', at'', found', scores'⟩ | ⟨at'', -⟩ := mapM_at boards ok' r
          · rw [at'] at at''
            cases at''
            exact .inl ⟨run, run', found, found', scoreRun_alike scores scores'⟩
          rw [at'] at at''
          cases at''
        obtain ⟨board', run', at'', -, -⟩ | ⟨-, found'⟩ := mapM_at boards ok' r
        · rw [at'] at at''
          cases at''
        exact .inr ⟨found, found'⟩
      cases ran'
    cases ran
  rename_i few
  rw [if_neg few] at ran'
  cases ran
  cases ran'
  exact .inr ⟨rfl, rfl⟩

def showEvent (run : RunScores n) (shown : Finset (Fin n)) (j : Fin n) : EventBody n :=
  if j ∈ shown then .shows j (run.score j) ((run.best.lookup j).getD []) else .mucks j

section Showdown

variable (run : RunScores n) (tabled : Bool) (winners : Finset (Fin n))

theorem showTurn_cases (e : Engine n) (s : Showdown n) (j : Fin n) : (∃ s', showTurn run tabled winners (e, s) j =
        (e.emit (.shows j (run.score j) ((run.best.lookup j).getD [])), s') ∧ s'.shown = insert j s.shown) ∨
      (∃ s', showTurn run tabled winners (e, s) j = (e.emit (.mucks j), s') ∧ s'.shown = s.shown) ∧ j ∉ winners := by
  unfold showTurn
  dsimp only
  split_ifs with must
  · exact .inl ⟨_, rfl, rfl⟩
  refine .inr ⟨⟨_, rfl, rfl⟩, fun wins => must ?_⟩
  simp [wins]

theorem showTurns_shown (order : List (Fin n)) (e : Engine n) (s : Showdown n) :
    s.shown ⊆ (order.foldl (showTurn run tabled winners) (e, s)).2.shown ∧
      (∀ j ∈ (order.foldl (showTurn run tabled winners) (e, s)).2.shown, j ∈ s.shown ∨ j ∈ order) ∧
      ∀ j ∈ order, j ∈ winners → j ∈ (order.foldl (showTurn run tabled winners) (e, s)).2.shown := by
  induction order generalizing e s with
  | nil => exact ⟨fun _ h => h, fun _ h => .inl h, by simp⟩
  | cons i rest ih =>
    rw [foldl_cons]
    obtain ⟨s', turn, shown⟩ | ⟨⟨s', turn, shown⟩, loses⟩ := showTurn_cases run tabled winners e s i
    · obtain ⟨more, only, win⟩ := ih (e.emit (.shows i (run.score i) ((run.best.lookup i).getD []))) s'
      rw [turn]
      refine ⟨fun j h => more (shown ▸ Finset.mem_insert_of_mem h), fun j h => ?_, fun j h wins => ?_⟩
      · obtain old | later := only j h
        · rw [shown, Finset.mem_insert] at old
          obtain rfl | old := old
          · exact .inr (.head _)
          exact .inl old
        exact .inr (.tail _ later)
      obtain rfl | later := List.mem_cons.mp h
      · exact more (shown ▸ Finset.mem_insert_self _ _)
      exact win j later wins
    obtain ⟨more, only, win⟩ := ih (e.emit (.mucks i)) s'
    rw [turn]
    rw [shown] at more only
    refine ⟨more, fun j h => (only j h).imp id (mem_cons_of_mem _), fun j h wins => ?_⟩
    obtain rfl | later := List.mem_cons.mp h
    · exact absurd wins loses
    exact win j later wins

theorem showTurns_log (order : List (Fin n)) (distinct : order.Nodup) (e : Engine n) (s : Showdown n)
    (fresh : ∀ j ∈ order, j ∉ s.shown) (shown : Finset (Fin n))
    (final : (order.foldl (showTurn run tabled winners) (e, s)).2.shown = shown) :
    (order.foldl (showTurn run tabled winners) (e, s)).1 = order.foldl (fun f j => f.emit (showEvent run shown j)) e := by
  induction order generalizing e s with
  | nil => rfl
  | cons i rest ih =>
    obtain ⟨once, distinct⟩ := List.nodup_cons.mp distinct
    rw [foldl_cons] at final
    rw [foldl_cons, foldl_cons]
    rcases showTurn_cases run tabled winners e s i with
      ⟨s', turn, shows⟩ | ⟨⟨s', turn, hides⟩, -⟩
    · rw [turn] at final ⊢
      have here : i ∈ shown := final ▸ (showTurns_shown run tabled winners rest _ s').1 (shows ▸ Finset.mem_insert_self _ _)
      rw [ih distinct _ s' (fun j later => ?_) final, showEvent, if_pos here]
      rw [shows, Finset.mem_insert, not_or]
      exact ⟨fun same => once (same ▸ later), fresh j (.tail _ later)⟩
    rw [turn] at final ⊢
    have absent : i ∉ shown := by
      intro here
      obtain old | later := (showTurns_shown run tabled winners rest _ s').2.1 i (final ▸ here)
      · exact fresh i (.head _) (hides ▸ old)
      exact once later
    rw [ih distinct _ s' (fun j later => ?_) final, showEvent, if_neg absent]
    rw [hides]
    exact fresh j (.tail _ later)

theorem recard_showLog {run run' : RunScores n} {shown : Finset (Fin n)} (order : List (Fin n)) (e : Engine n)
    (alike : ScoredAlike (· ∈ shown) run run') :
    order.foldl (fun f j => f.emit (showEvent run' shown j)) (e.recard holes deck) =
      (order.foldl (fun f j => f.emit (showEvent run shown j)) e).recard holes deck := by
  have same : ∀ j, showEvent run' shown j = showEvent run shown j := by
    intro j
    unfold showEvent
    split
    · rename_i here
      rw [(alike j here).1, (alike j here).2]
    rfl
  exact recard_foldl order (fun j _ f => by rw [same]; rfl) e

end Showdown

theorem recard_narrate {uncontested : Bool} (pots : List (PotResult n)) (e : Engine n)
    (alike : ∀ pot ∈ pots, ∀ (r : ℕ) (award : RunAward n), pot.runs[r]? = some award → uncontested = false →
      (do let run ← scored'[r]? let winner ← award.winners.head? return run.score winner : Option Score) =
        (do let run ← scored[r]? let winner ← award.winners.head? return run.score winner)) :
    narrate uncontested scored' pots (e.recard holes deck) = (narrate uncontested scored pots e).recard holes deck := by
  unfold narrate
  refine recard_foldl _ (fun ⟨pot, k⟩ member f => ?_) e
  refine recard_foldl _ (fun ⟨award, r⟩ listed g => ?_) f
  have found := List.mem_zipIdx_iff_getElem?.mp member
  have paid := List.mem_zipIdx_iff_getElem?.mp listed
  simp only [narrateRun]
  cases kind : uncontested with
  | true => rfl
  | false =>
    have same := alike pot (mem_of_getElem? found) r award paid kind
    simp only [Bool.false_eq_true, if_false]
    rw [same]
    rfl

theorem showOrder_nodup (e : Engine n) (tabled : Bool) : (e.showOrder tabled).Nodup := by
  unfold showOrder
  dsimp only
  split
  · exact (Circle.lap_nodup _).filter _
  exact nodup_nil

theorem mem_showOrder (tabled : Bool) (contends : i ∈ e.contested) : i ∈ e.showOrder tabled := by
  have here : ((e.players i).inSeat && !(e.players i).folded) = true := mem_seatsWhere.mp contends
  have start : ∀ start, i ∈ (Circle.lap start).filter fun j => (e.players j).inSeat && !(e.players j).folded :=
    fun start => List.mem_filter.mpr ⟨Circle.mem_lap _ i, here⟩
  unfold showOrder
  dsimp only
  split
  · exact start _
  rename_i none
  split at none
  · cases none
  rw [next, Circle.first_eq_none] at none
  rw [none i] at here
  cases here

theorem settled_recard (some : alive ≠ []) (contested : e.contested = alive)
    (shown : (e.settled alive refund tabled scored pots).1.shown =
      ((e.recard holes deck).settled alive refund tabled scored' pots).1.shown)
    (alike : ∀ r : ℕ, (∃ run run', scored[r]? = Option.some run ∧ scored'[r]? = Option.some run' ∧
        ScoredAlike (· ∈ (e.settled alive refund tabled scored pots).1.shown) run run') ∨
      scored[r]? = none ∧ scored'[r]? = none)
    (winners : ∀ pot ∈ pots, ∀ award ∈ pot.runs, ∀ i ∈ award.winners, i ∈ alive ∧ i ∈ pot.winners) :
    ((e.recard holes deck).settled alive refund tabled scored' pots).2 =
      (e.settled alive refund tabled scored pots).2.recard holes deck := by
  obtain ⟨order, ordered⟩ : ∃ order, (if 1 < alive.length then e.showOrder tabled else []) = order := ⟨_, rfl⟩
  obtain ⟨showing, final⟩ : ∃ showing, (e.settled alive refund tabled scored pots).1.shown = showing := ⟨_, rfl⟩
  rw [final] at shown alike
  have distinct : order.Nodup := by
    rw [← ordered]
    split
    · exact showOrder_nodup e tabled
    exact nodup_nil
  have first : ScoredAlike (· ∈ showing) (scored.headD ⟨[], [], []⟩) (scored'.headD ⟨[], [], []⟩) := by
    rw [headD_eq_head?_getD, headD_eq_head?_getD, List.head?_eq_getElem?, List.head?_eq_getElem?]
    obtain ⟨run, run', found, found', same⟩ | ⟨found, found'⟩ := alike 0
    · rw [found, found']
      exact same
    rw [found, found']
    exact fun _ _ => ⟨rfl, rfl⟩
  have log := showTurns_log (scored.headD ⟨[], [], []⟩) tabled (pots.flatMap PotResult.winners).toFinset order distinct
    e {} (by simp) showing (by rw [← ordered]; exact final)
  have log' := showTurns_log (scored'.headD ⟨[], [], []⟩) tabled (pots.flatMap PotResult.winners).toFinset order distinct
    (e.recard holes deck) {} (by simp) showing (by rw [← ordered]; exact shown.symm)
  have table : (e.settled alive refund tabled scored pots).2 = (narrate (alive.length == 1) scored pots
      (order.foldl (fun f j => f.emit (showEvent (scored.headD ⟨[], [], []⟩) showing j)) e)).clearTotals := by
    rw [← log, ← ordered]
    rfl
  have table' : ((e.recard holes deck).settled alive refund tabled scored' pots).2 =
      (narrate (alive.length == 1) scored' pots (order.foldl
        (fun f j => f.emit (showEvent (scored'.headD ⟨[], [], []⟩) showing j)) (e.recard holes deck))).clearTotals := by
    rw [← log', ← ordered]
    rfl
  rw [table, table', recard_showLog order e first, recard_narrate pots _ fun pot member r award found many => ?_]
  · rfl
  obtain ⟨run, run', at', at'', same⟩ | ⟨at', at''⟩ := alike r
  · rw [at', at'']
    cases head : award.winners.head? with
    | none => rfl
    | some winner =>
      obtain ⟨contends, wins⟩ := winners pot member award (mem_of_getElem? found) winner (mem_of_mem_head? head)
      have more : 1 < alive.length := by
        have := length_pos_of_ne_nil some
        simp at many
        omega
      have here : winner ∈ order := by
        rw [← ordered, if_pos more]
        exact mem_showOrder tabled (contested ▸ contends)
      have won : winner ∈ (pots.flatMap PotResult.winners).toFinset :=
        List.mem_toFinset.mpr (List.mem_flatMap.mpr ⟨pot, member, wins⟩)
      have shows : winner ∈ showing := by
        rw [← final]
        have := (showTurns_shown (scored.headD ⟨[], [], []⟩) tabled (pots.flatMap PotResult.winners).toFinset
          order e {}).2.2 winner here won
        rw [← ordered] at this
        exact this
      show Option.some (run'.score winner) = Option.some (run.score winner)
      rw [(same winner shows).1]
  rw [at', at'']

theorem contested_of_showOrder (listed : i ∈ e.showOrder tabled) : i ∈ e.contested := by
  unfold showOrder at listed
  dsimp only at listed
  split at listed
  · exact mem_seatsWhere.mpr (List.mem_filter.mp listed).2
  cases listed

theorem contested_of_shown (shown : i ∈ (e.settled alive refund tabled scored pots).1.shown) : i ∈ e.contested := by
  rcases (showTurns_shown (scored.headD ⟨[], [], []⟩) tabled (pots.flatMap PotResult.winners).toFinset
    (if 1 < alive.length then e.showOrder tabled else []) e {}).2.1 i shown with none | listed
  · cases none
  split at listed
  · exact contested_of_showOrder listed
  cases listed

theorem runWinners_among {eligible winners : List (Fin n)}
    (among : ∀ i ∈ eligible, i ∈ alive) (won : runWinners alive scored eligible r = .ok winners) :
    ∀ i ∈ winners, i ∈ alive := by
  unfold runWinners at won
  split at won
  · cases won
    exact fun _ only => only
  split at won
  · unfold bestSeats at won
    split at won
    · cases won
      exact fun i best => among i (List.mem_filter.mp best).1
    cases won
  cases won

theorem awardRuns_among {eligible : List (Fin n)} (among : ∀ i ∈ eligible, i ∈ alive)
    (shares : List ℤ) {awards : List (RunAward n)}
    (ran : awardRuns alive scored eligible r shares e = .ok awards e') :
    ∀ award ∈ awards, ∀ i ∈ award.winners, i ∈ alive := by
  induction shares generalizing r awards e with
  | nil =>
    cases ran
    simp
  | cons share rest ih =>
    obtain ⟨first, e1, ranFirst, ran⟩ := bind_ok ran
    obtain ⟨others, e2, ranOthers, ran⟩ := bind_ok ran
    cases ran
    intro award member
    obtain rfl | later := List.mem_cons.mp member
    · unfold awardRun at ranFirst
      split at ranFirst
      · cases ranFirst
      rename_i winners won
      cases ranFirst
      exact runWinners_among among won
    exact ih ranOthers award later

theorem awardPots_winners (pots : List (Pot n)) (among : ∀ pot ∈ pots, ∀ i ∈ pot.eligible, i ∈ alive)
    {results : List (PotResult n)} (ran : awardPots alive scored pots e = .ok results e') :
    ∀ result ∈ results, ∀ award ∈ result.runs, ∀ i ∈ award.winners, i ∈ alive ∧ i ∈ result.winners := by
  induction pots generalizing results e with
  | nil =>
    cases ran
    simp
  | cons pot rest ih =>
    obtain ⟨first, e1, ranFirst, ran⟩ := bind_ok ran
    obtain ⟨others, e2, ranOthers, ran⟩ := bind_ok ran
    cases ran
    intro result member award listed i wins
    obtain rfl | later := List.mem_cons.mp member
    · obtain ⟨awards, e3, ranRuns, ranFirst⟩ := bind_ok ranFirst
      cases ranFirst
      refine ⟨awardRuns_among (among pot (.head _)) _ ranRuns award listed i wins, ?_⟩
      rw [Finset.mem_sort, mem_toFinset, mem_flatMap]
      exact ⟨award, listed, wins⟩
    exact ih (fun pot listed => among pot (.tail _ listed)) ranOthers result later award listed i wins

theorem settle_recard {raw raw' : SettleResult n} {e2 f2 : Engine n}
    (solvent : e.Solvent) (alive : e.contested ≠ []) (ran : settle 1 forceTabled e = .ok raw e2)
    (ran' : settle 1 forceTabled (e.recard holes deck) = .ok raw' f2) (top : SameTop k e.deck deck)
    (within : e2.board.length ≤ e.board.length + k) (pots : raw.pots = raw'.pots) (shown : raw.shown = raw'.shown)
    (same : ∀ i ∈ raw.shown, holes i = (e.players i).hole) : ∃ deck', f2 = e2.recard holes deck' := by
  obtain ⟨boards, tabled, e1, scored, results, e3, completed, scores, awarded, ended⟩ := settle_steps ran
  obtain ⟨boards', tabled', f1, scored', results', f3, completed', scores', awarded', ended'⟩ := settle_steps ran'
  have boarded := completeBoard_boarded completed
  have contested := contested_of_hands (hands_returnUncalled e)
  have layout : e.returnUncalled.layout = e.layout := congrArg Prod.snd (still_returnUncalled e)
  have board : e.returnUncalled.board = e.board := congrArg Layout.board layout
  have cards : e.returnUncalled.deck = e.deck := congrArg Layout.deck layout
  have refund : (e.recard holes deck).uncalled = e.uncalled := rfl
  rw [recard_returnUncalled] at completed' scores' awarded' ended'
  rw [refund] at ended'
  change scoreRuns e.returnUncalled.contested boards' f1 = _ at scores'
  change awardPots e.returnUncalled.contested scored' (f1.layers e.returnUncalled.contested) f1 = _ at awarded'
  change _ = f3.settled e.returnUncalled.contested e.uncalled tabled' scored' results' at ended'
  rw [contested] at scores awarded ended scores' awarded' ended'
  -- both settlements award the same pots from the same boards
  obtain rfl : raw.pots = results := congrArg (fun out => out.1.pots) ended
  obtain rfl : raw'.pots = results' := congrArg (fun out => out.1.pots) ended'
  have paid := awardPots_paid _ awarded
  have paid' := awardPots_paid _ awarded'
  have settledBoard : e2.board = e1.board := by
    obtain ⟨shownTable, ⟨events, logged⟩, closed⟩ := settled_logged e3 e.contested e.uncalled tabled scored raw.pots
    have table : e2 = shownTable.clearTotals := (congrArg Prod.snd ended).trans closed
    rw [table, logged, paid]
    rfl
  obtain ⟨deck1, alsoCompleted⟩ := completeBoard_sameTop holes completed (cards ▸ top)
    (by rw [← settledBoard, board]; exact within)
  rw [completed'] at alsoCompleted
  cases alsoCompleted
  have paidAlike : f3 = e3.recard holes deck1 := by
    rw [paid', paid, ← pots]
    rfl
  subst paidAlike
  have solvent1 := pays_solvent (keeps_ok (completeBoard_pays e 1 forceTabled) (pays_returnUncalled e) completed) solvent
  have winnable : ∀ pot ∈ e1.layers e.contested, pot.Winnable e.contested :=
    potLayers_winnable alive (fun i => (solvent1 i).totalLive) fun i => (solvent1 i).totalDead
  have contested3 : e3.contested = e.contested := by
    rw [paid]
    exact contested_of_hands boarded.hands
  have shownBy : raw.shown = (e3.settled e.contested e.uncalled tabled scored raw.pots).1.shown :=
    congrArg (fun out => out.1.shown) ended
  have shownBy' : raw'.shown = ((e3.recard holes deck1).settled e.contested e.uncalled tabled scored' raw.pots).1.shown := by
    rw [pots]
    exact congrArg (fun out => out.1.shown) ended'
  have known : ∀ i ∈ raw.shown, i ∈ e.contested ∧ holes i = (e1.players i).hole := fun i here =>
    ⟨contested3 ▸ contested_of_shown (shownBy ▸ here), by rw [holes_of_hands boarded.hands]; exact same i here⟩
  have left : e2 = (e3.settled e.contested e.uncalled tabled scored raw.pots).2 := congrArg Prod.snd ended
  refine ⟨deck1, (congrArg Prod.snd ended').trans ?_⟩
  rw [← pots, left]
  refine settled_recard alive contested3 (by rw [← shownBy, ← shownBy', shown]) (fun r => ?_)
    (awardPots_winners _ (fun pot member => (winnable pot member).eligible.subset) awarded)
  obtain ⟨run, run', found, found', alike⟩ | none := scoreRuns_alike scores scores' r
  · exact .inl ⟨run, run', found, found', fun i here => alike i (known i (shownBy ▸ here))⟩
  exact .inr none

theorem settle_drawn {raw : SettleResult n} (ran : settle 1 forceTabled e = .ok raw e') : Drawn e e' := by
  obtain ⟨boards, tabled, e1, scored, results, e3, completed, -, awarded, ended⟩ := settle_steps ran
  obtain ⟨shown, ⟨events, rfl⟩, closed⟩ := settled_logged e3 e.returnUncalled.contested e.uncalled tabled scored results
  obtain rfl := awardPots_paid _ awarded
  obtain rfl : e' = _ := (congrArg Prod.snd ended).trans closed
  have back : Drawn e e.returnUncalled := drawn_of_layout (congrArg Prod.snd (still_returnUncalled e))
  have drawn := back.trans (completeBoard_drawn completed)
  exact ⟨drawn.holes, drawn.board, drawn.cards⟩

end Holdem.Engine
