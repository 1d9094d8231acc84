import Holdem.Engine.View

/-!
What a settlement depends on: the view, and the hole cards of the seats still in. With a full board,
or one seat left, `settle` never touches the deck.
-/

namespace Holdem.Engine

variable {n : ℕ} {e f : Engine n} {tabled : Bool} {s t : Engine n × Showdown n} {R : Engine n → Engine n → Prop}
  {winners : Finset (Fin n)} {alive : List (Fin n)} {forceTabled : Bool} {run : RunScores n} {runs : ℕ}

open Method

structure Tabled (e f : Engine n) : Prop where
  alike : Alike e f
  holes : 1 < e.contested.length → ∀ i ∈ e.contested, (e.players i).hole = (f.players i).hole

def atShowdown (e : Engine n) : Engine n := { e with street := .showdown }

theorem completeBoard_full (full : 1 < e.contested.length → 5 ≤ e.board.length) :
    completeBoard runs tabled e = .ok ([e.board], tabled) (if 1 < e.contested.length then e.atShowdown else e) := by
  change (if 1 < e.contested.length then _ else _ : EngineM n (List (List Card) × Bool)) e = _
  split
  · rename_i many
    have enough := full many
    rw [if_neg (by omega)]
    have ran : runOut 3 e = .ok () e := if_neg (by omega)
    rw [bind_of_ok ran]
    change EStateM.Result.ok ([e.board], tabled || decide (e.board.length < 5)) _ = _
    rw [decide_eq_false (by omega), Bool.or_false]
    rfl
  rfl

theorem mapM_congr {α β : Type} {g h : α → Except PyError β} {xs : List α} (each : ∀ x ∈ xs, g x = h x) :
    xs.mapM g = xs.mapM h := by
  induction xs with
  | nil => rfl
  | cons x xs ih =>
    rw [List.mapM_cons, List.mapM_cons, each x List.mem_cons_self, ih fun y member => each y (.tail _ member)]

theorem scoreRun_tabled (board : List Card) (holes : ∀ i ∈ alive, (e.players i).hole = (f.players i).hole) :
    e.scoreRun alive board = f.scoreRun alive board := by
  unfold scoreRun
  rw [mapM_congr fun i member => by rw [holes i member]]
  congr 1
  funext scores
  rw [mapM_congr fun i member => by rw [holes i member]]

structure Settles (tabled : Bool) (R : Engine n → Engine n → Prop) : Prop where
  uncalled : ∀ {e f}, R e f → e.uncalled = f.uncalled
  contested : ∀ {e f}, R e f → e.contested = f.contested
  board : ∀ {e f}, R e f → e.board = f.board
  button : ∀ {e f}, R e f → e.button = f.button
  layers : ∀ {e f}, R e f → ∀ alive, e.layers alive = f.layers alive
  order : ∀ {e f}, R e f → e.showOrder tabled = f.showOrder tabled
  giveBack : ∀ {e f}, R e f → ∀ i back, R (e.giveBack i back) (f.giveBack i back)
  showdown : ∀ {e f}, R e f → R e.atShowdown f.atShowdown
  pay : ∀ {e f}, R e f → ∀ paid, R (e.pay paid) (f.pay paid)
  clear : ∀ {e f}, R e f → ∀ events events',
    R { e with publicEvents := events }.clearTotals { f with publicEvents := events' }.clearTotals

section Settles

variable {tabled : Bool} {R : Engine n → Engine n → Prop} (settles : Settles tabled R)
include settles

theorem Settles.returnUncalled (h : R e f) : R e.returnUncalled f.returnUncalled := by
  unfold Engine.returnUncalled
  rw [settles.uncalled h]
  split
  · exact settles.giveBack h _ _
  exact h

theorem Settles.awardRun (alive : List (Fin n)) (scored : List (RunScores n)) (eligible : List (Fin n)) (r : ℕ)
    (share : ℤ) : Related R R (awardRun alive scored eligible r share) (awardRun alive scored eligible r share) := by
  intro e f h
  unfold Engine.awardRun
  split
  · exact .error h
  rename_i winners _
  have paid : e.payouts winners share = f.payouts winners share := by
    unfold payouts
    rw [settles.button h]
  rw [paid]
  exact .ok (settles.pay h _)

theorem Settles.awardRuns (alive : List (Fin n)) (scored : List (RunScores n)) (eligible : List (Fin n))
    (shares : List ℤ) (r : ℕ) :
    Related R R (awardRuns alive scored eligible r shares) (awardRuns alive scored eligible r shares) := by
  induction shares generalizing r with
  | nil => exact related_pure _
  | cons share rest ih =>
    refine related_bind (settles.awardRun alive scored eligible r share) (fun _ _ h => h) fun award => ?_
    exact related_bind (ih (r + 1)) (fun _ _ h => h) fun awards => related_pure _

theorem Settles.awardPots (alive : List (Fin n)) (scored : List (RunScores n)) (pots : List (Pot n)) :
    Related R R (awardPots alive scored pots) (awardPots alive scored pots) := by
  induction pots with
  | nil => exact related_pure _
  | cons pot rest ih =>
    refine related_bind ?_ (fun _ _ h => h) fun awarded => ?_
    · exact related_bind (settles.awardRuns alive scored _ _ 0) (fun _ _ h => h) fun runs => related_pure _
    exact related_bind ih (fun _ _ h => h) fun others => related_pure _

end Settles

theorem showTurn_same
    (same : s.2 = t.2) (j : Fin n) : (showTurn run tabled winners s j).2 = (showTurn run tabled winners t j).2 := by
  obtain ⟨e, s⟩ := s
  obtain ⟨f, t⟩ := t
  obtain rfl : s = t := same
  unfold showTurn
  dsimp only
  split <;> split <;> rfl

theorem showTurns_same (order : List (Fin n)) (same : s.2 = t.2) :
    (order.foldl (showTurn run tabled winners) s).2 = (order.foldl (showTurn run tabled winners) t).2 := by
  induction order generalizing s t with
  | nil => exact same
  | cons j rest ih => exact ih (showTurn_same same j)

theorem Settles.settled (settles : Settles tabled R) (alive : List (Fin n))
    (refund : Option (Fin n × ℤ)) (scored : List (RunScores n)) (pots : List (PotResult n)) (h : R e f) :
    (e.settled alive refund tabled scored pots).1 = (f.settled alive refund tabled scored pots).1 ∧
      R (e.settled alive refund tabled scored pots).2 (f.settled alive refund tabled scored pots).2 := by
  constructor
  · unfold Engine.settled
    dsimp only
    rw [settles.order h, showTurns_same (s := (e, {})) (t := (f, {})) _ rfl]
  obtain ⟨_, ⟨events, rfl⟩, left⟩ := settled_logged e alive refund tabled scored pots
  obtain ⟨_, ⟨events', rfl⟩, right⟩ := settled_logged f alive refund tabled scored pots
  rw [left, right]
  exact settles.clear h events events'

/-- The rest of `settle` once the board is complete. -/
def award (alive : List (Fin n)) (refund : Option (Fin n × ℤ)) (boards : List (List Card)) (tabled : Bool) :
    EngineM n (SettleResult n) := do
  let scored ← scoreRuns alive boards
  let pots ← awardPots alive scored ((← get).layers alive)
  let (result, e) := (← get).settled alive refund tabled scored pots
  set e
  return result

theorem settle_award {boards : List (List Card)} {e1 : Engine n}
    (board : completeBoard runs forceTabled e.returnUncalled = .ok (boards, tabled) e1) :
    settle runs forceTabled e = award e.returnUncalled.contested e.uncalled boards tabled e1 := by
  change (completeBoard runs forceTabled >>= _) e.returnUncalled = _
  rw [bind_of_ok board]
  rfl

theorem Settles.award (settles : Settles tabled R) {refund : Option (Fin n × ℤ)} {board : List Card} (h : R e f)
    (holes : 1 < alive.length → ∀ i ∈ alive, (e.players i).hole = (f.players i).hole) :
    Matches R (award alive refund [board] tabled e) (award alive refund [board] tabled f) := by
  have scores : Matches R (scoreRuns alive [board] e) (scoreRuns alive [board] f) := by
    unfold scoreRuns
    split
    · rename_i many
      have same : [board].mapM (e.scoreRun alive) = [board].mapM (f.scoreRun alive) :=
        mapM_congr fun b _ => scoreRun_tabled b (holes many)
      rw [same]
      split
      · exact .ok h
      exact .error h
    exact .ok h
  refine scores.bind (fun _ _ h => h) fun scored s t _ _ related => ?_
  change Matches R ((Engine.awardPots alive scored (s.layers alive) >>= _) s)
    ((Engine.awardPots alive scored (t.layers alive) >>= _) t)
  rw [settles.layers related]
  refine (settles.awardPots alive scored _ s t related).bind (fun _ _ h => h) fun pots s t _ _ related => ?_
  obtain ⟨result, final⟩ := settles.settled alive refund scored pots related
  change Matches R
    (.ok (s.settled alive refund tabled scored pots).1 (s.settled alive refund tabled scored pots).2)
    (.ok (t.settled alive refund tabled scored pots).1 (t.settled alive refund tabled scored pots).2)
  rw [result]
  exact .ok final

theorem Settles.settle (settles : Settles forceTabled R) (runs : ℕ)
    (h : R e f) (holes : 1 < e.contested.length → ∀ i ∈ e.contested, (e.players i).hole = (f.players i).hole)
    (full : 1 < e.contested.length → 5 ≤ e.board.length) :
    Matches R (settle runs forceTabled e) (settle runs forceTabled f) := by
  have returned := settles.returnUncalled h
  have alive := settles.contested returned
  have board := settles.board returned
  have left := hands_returnUncalled e
  have holes0 : 1 < e.returnUncalled.contested.length →
      ∀ i ∈ e.returnUncalled.contested, (e.returnUncalled.players i).hole = (f.returnUncalled.players i).hole := by
    rw [contested_of_hands left]
    intro many i member
    rw [holes_of_hands left, holes_of_hands (hands_returnUncalled f)]
    exact holes many i member
  have full0 : 1 < e.returnUncalled.contested.length → 5 ≤ e.returnUncalled.board.length := by
    have same : e.returnUncalled.board = e.board := congrArg (Layout.board ∘ Prod.snd) (still_returnUncalled e)
    rwa [contested_of_hands left, same]
  rw [settle_award (completeBoard_full full0), settle_award (completeBoard_full (alive ▸ board ▸ full0)),
    ← alive, ← board, ← settles.uncalled h]
  by_cases many : 1 < e.returnUncalled.contested.length
  · rw [if_pos many, if_pos many]
    exact settles.award (settles.showdown returned) holes0
  rw [if_neg many, if_neg many]
  exact settles.award returned holes0

theorem alike_settles (tabled : Bool) : Settles tabled (Alike (n := n)) where
  uncalled h := h.reads Engine.uncalled
  contested h := h.level.contested
  board h := h.reads Engine.board
  button h := h.reads Engine.button
  layers h alive := h.reads fun v => v.layers alive
  order h := h.reads fun v => v.showOrder tabled
  giveBack h _ _ := alike_emit _ _ (alike_update (fun _ => rfl) h)
  showdown h := h.reads atShowdown
  pay h paid := h.reads fun v => v.pay paid
  clear h _ _ := h.reads clearTotals

theorem settle_alike (runs : ℕ) (forceTabled : Bool) (h : Tabled e f)
    (full : 1 < e.contested.length → 5 ≤ e.board.length) :
    Matches Alike (settle runs forceTabled e) (settle runs forceTabled f) :=
  (alike_settles forceTabled).settle runs h.alike h.holes full

end Holdem.Engine
