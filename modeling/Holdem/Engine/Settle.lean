import Mathlib.Data.Finset.Sort
import Holdem.Engine.Act

/-!
Settlement: the side-pot layers of `_pot_layers` and `Engine.settle`.
-/

namespace Holdem

structure Pot (n : ℕ) where
  amount : ℤ
  eligible : List (Fin n)
  deriving DecidableEq

section Layers

variable {n : ℕ}

/-- `sorted({amount for amount in live if amount > 0})`. -/
def levels (live : Fin n → ℤ) : List ℤ :=
  ((Finset.univ.image live).filter fun amount => 0 < amount).sort (· ≤ ·)

def slice (live : Fin n → ℤ) (previous level : ℤ) : ℤ :=
  ∑ i, (min (live i) level - min (live i) previous)

def addToLast (pots : List (Pot n)) (amount : ℤ) : List (Pot n) :=
  match pots.getLast? with
  | some pot => pots.dropLast ++ [{ pot with amount := pot.amount + amount }]
  | none => pots

def addLayer (live : Fin n → ℤ) (contenders : List (Fin n)) (pots : List (Pot n))
    (previous level : ℤ) : List (Pot n) :=
  let amount := slice live previous level
  let eligible := contenders.filter fun seat => level ≤ live seat
  if eligible = [] then pots
  else match pots.getLast? with
    | some pot =>
      if pot.eligible = eligible then addToLast pots amount else pots ++ [⟨amount, eligible⟩]
    | none => [⟨amount, eligible⟩]

def addLayers (live : Fin n → ℤ) (contenders : List (Fin n)) :
    List (Pot n) → ℤ → List ℤ → List (Pot n)
  | pots, _, [] => pots
  | pots, previous, level :: rest =>
    addLayers live contenders (addLayer live contenders pots previous level) level rest

def mainPot (deadTotal : ℤ) (contenders : List (Fin n)) : List (Pot n) :=
  if deadTotal ≠ 0 then [⟨deadTotal, contenders⟩] else []

/-- A folded player's unmatched live excess has no eligible layer: it goes to the last pot. -/
def balancePots (total : ℤ) (contenders : List (Fin n)) (pots : List (Pot n)) : List (Pot n) :=
  let remaining := total - (pots.map Pot.amount).sum
  if remaining ≠ 0 then
    if pots ≠ [] then addToLast pots remaining else [⟨remaining, contenders⟩]
  else pots

/-- `_pot_layers`: a shared dead-money main pot and live-bet side pots. -/
def potLayers (live dead : Fin n → ℤ) (contenders : List (Fin n)) : List (Pot n) :=
  let deadTotal := ∑ i, dead i
  balancePots (∑ i, live i + deadTotal) contenders
    (addLayers live contenders (mainPot deadTotal contenders) 0 (levels live))

end Layers

structure RunScores (n : ℕ) where
  board : List Card
  scores : List (Fin n × Score)
  best : List (Fin n × List Card)
  deriving DecidableEq

def RunScores.score {n : ℕ} (run : RunScores n) (i : Fin n) : Score :=
  (run.scores.lookup i).getD ⟨0, []⟩

structure RunAward (n : ℕ) where
  winners : List (Fin n)
  amount : ℤ
  payouts : List (Fin n × ℤ)
  deriving DecidableEq

structure PotResult (n : ℕ) where
  amount : ℤ
  eligible : List (Fin n)
  runs : List (RunAward n)
  winners : List (Fin n)
  deriving DecidableEq

structure SettleResult (n : ℕ) where
  pots : List (PotResult n)
  refund : Option (Fin n × ℤ)
  winners : Finset (Fin n)
  runs : List (RunScores n)
  order : List (Fin n)
  shown : Finset (Fin n)
  mucked : Finset (Fin n)
  tabled : Bool
  deriving DecidableEq

namespace Engine

variable {n : ℕ}

/-- `sorted((p.total_live for p in players if p.total_live > 0), reverse=True)`. -/
def lives (e : Engine n) : List ℤ :=
  (((List.finRange n).map fun i => (e.players i).totalLive).filter fun x => 0 < x).insertionSort (· ≥ ·)

def uncalled (e : Engine n) : Option (Fin n × ℤ) :=
  match e.lives with
  | top :: second :: _ =>
    if second < top then
      match e.seatsWhere fun p => p.totalLive = top with
      | [i] => some (i, top - second)
      | _ => none
    else none
  | _ => none

def giveBack (e : Engine n) (i : Fin n) (back : ℤ) : Engine n :=
  let e := e.update i fun p => { p with
    totalLive := p.totalLive - back
    stack := p.stack + back
    allIn := decide (p.stack + back = 0) }
  e.emit (.refund i back e.pot)

def returnUncalled (e : Engine n) : Engine n :=
  match e.uncalled with
  | some (i, back) => e.giveBack i back
  | none => e

/-- `while len(self.board) < 5: self.next_street()`. Three streets complete any board that the
streets dealt; from a street that deals nothing the source's loop does not end. -/
def runOut : ℕ → EngineM n Unit
  | 0 => fun e => if e.board.length < 5 then .error .diverges e else .ok () e
  | fuel + 1 => fun e =>
    if e.board.length < 5 then (do nextStreet; runOut fuel) e else .ok () e

/-- Step 2: complete the board, once or twice, and say whether the hands are tabled. -/
def completeBoard (runs : ℕ) (tabled : Bool) : EngineM n (List (List Card) × Bool) := do
  let e ← get
  if 1 < e.contested.length then
    if runs = 2 ∧ e.board.length < 5 then
      let base := e.board
      let first ← deal (5 - base.length)
      let second ← deal (5 - base.length)
      let b1 := base ++ first
      let b2 := base ++ second
      modify fun e => ({ e with board := b1, board2 := some b2 : Engine n }.emit
        (.dealBoard (some 1) b1)).emit (.dealBoard (some 2) b2)
      return ([b1, b2], true)
    else
      runOut 3
      modify fun s => { s with street := .showdown }
      return ([(← get).board], tabled || decide (e.board.length < 5))
  else
    return ([e.board], tabled)

def scoreRun (e : Engine n) (alive : List (Fin n)) (board : List Card) : Except PyError (RunScores n) := do
  let scores ← alive.mapM fun i => do return (i, ← evaluate ((e.players i).hole ++ board))
  let best ← alive.mapM fun i => do return (i, ← bestFive ((e.players i).hole ++ board))
  return ⟨board, scores, best⟩

def scoreRuns (alive : List (Fin n)) (boards : List (List Card)) : EngineM n (List (RunScores n)) := fun e =>
  if 1 < alive.length then
    match boards.mapM (e.scoreRun alive) with
    | .ok scored => .ok scored e
    | .error x => .error x e
  else .ok [] e

/-- The share of a pot each run plays for: the odd chip goes to the first run. -/
def runShares (amount : ℤ) (nruns : ℕ) : List ℤ :=
  let share := amount / nruns
  match nruns with
  | 0 => []
  | k + 1 => (share + (amount - (k + 1 : ℕ) * share)) :: List.replicate k share

/-- `max(sc[i] for i in elig)` and the seats that have it. -/
def bestSeats (run : RunScores n) (eligible : List (Fin n)) : Except PyError (List (Fin n)) :=
  match (eligible.map fun i => (run.score i).key).max? with
  | some best => .ok (eligible.filter fun i => (run.score i).key = best)
  | none => .error (.valueError "max() iterable argument is empty")

def runWinners (alive : List (Fin n)) (scored : List (RunScores n)) (eligible : List (Fin n)) (r : ℕ) :
    Except PyError (List (Fin n)) :=
  match alive with
  | [only] => .ok [only]
  | _ =>
    match scored[r]? with
    | some run => bestSeats run eligible
    | none => .error .indexError

/-- The odd-chip walk: one chip to each winner met. There are fewer chips than winners, so one lap is
enough. -/
def oddChips (winners : List (Fin n)) : List (Fin n) → ℤ → (Fin n → ℤ) → (Fin n → ℤ)
  | [], _, paid => paid
  | j :: rest, rem, paid =>
    if rem ≤ 0 then paid
    else if j ∈ winners then oddChips winners rest (rem - 1) (Function.update paid j (paid j + 1))
    else oddChips winners rest rem paid

def payouts (e : Engine n) (winners : List (Fin n)) (amount : ℤ) : Fin n → ℤ :=
  oddChips winners (Circle.lap (Circle.step e.button 1)) (amount % winners.length)
    fun i => if i ∈ winners then amount / winners.length else 0

def pay (e : Engine n) (paid : Fin n → ℤ) : Engine n :=
  { e with players := fun i =>
      { e.players i with won := (e.players i).won + paid i, stack := (e.players i).stack + paid i } }

def awardRun (alive : List (Fin n)) (scored : List (RunScores n)) (eligible : List (Fin n))
    (r : ℕ) (share : ℤ) : EngineM n (RunAward n) := fun e =>
  match runWinners alive scored eligible r with
  | .error x => .error x e
  | .ok winners =>
    let paid := e.payouts winners share
    .ok ⟨winners, share, winners.map fun i => (i, paid i)⟩ (e.pay paid)

def awardRuns (alive : List (Fin n)) (scored : List (RunScores n)) (eligible : List (Fin n)) :
    ℕ → List ℤ → EngineM n (List (RunAward n))
  | _, [] => pure []
  | r, share :: rest => do
    let award ← awardRun alive scored eligible r share
    let awards ← awardRuns alive scored eligible (r + 1) rest
    return award :: awards

def awardPot (alive : List (Fin n)) (scored : List (RunScores n)) (pot : Pot n) : EngineM n (PotResult n) := do
  let nruns := if 1 < alive.length then max 1 scored.length else 1
  let runs ← awardRuns alive scored pot.eligible 0 (runShares pot.amount nruns)
  let union := (runs.flatMap RunAward.winners).toFinset
  return ⟨pot.amount, pot.eligible, runs, union.sort (· ≤ ·)⟩

def awardPots (alive : List (Fin n)) (scored : List (RunScores n)) : List (Pot n) → EngineM n (List (PotResult n))
  | [] => pure []
  | pot :: rest => do
    let awarded ← awardPot alive scored pot
    let others ← awardPots alive scored rest
    return awarded :: others

structure Showdown (n : ℕ) where
  best : Option Score := none
  shown : Finset (Fin n) := ∅
  mucked : Finset (Fin n) := ∅

/-- One seat's turn to show: it must show if the hands are tabled, if it won, or if it is not beaten
by a hand already shown. -/
def showTurn (run : RunScores n) (tabled : Bool) (winners : Finset (Fin n))
    (state : Engine n × Showdown n) (j : Fin n) : Engine n × Showdown n :=
  let (e, s) := state
  let score := run.score j
  let mustShow := tabled || decide (j ∈ winners) || match s.best with
    | none => true
    | some best => decide (best.key ≤ score.key)
  if mustShow then
    let best := match s.best with
      | none => some score
      | some best => if best.key < score.key then some score else some best
    (e.emit (.shows j score ((run.best.lookup j).getD [])), { s with best, shown := insert j s.shown })
  else (e.emit (.mucks j), { s with mucked := insert j s.mucked })

/-- Step 6: the showdown order. The last aggressor on the river starts, else the first contested
seat after the button. -/
def showOrder (e : Engine n) (tabled : Bool) : List (Fin n) :=
  let start := match e.riverAggr, tabled with
    | some aggr, false => some aggr
    | _, _ => e.next e.button fun q => q.inSeat && !q.folded
  match start with
  | some start => (Circle.lap start).filter fun j => (e.players j).inSeat && !(e.players j).folded
  | none => []

def narrateRun (uncontested : Bool) (scored : List (RunScores n)) (k : ℕ) (e : Engine n)
    (entry : RunAward n × ℕ) : Engine n :=
  let (award, r) := entry
  let hand := if uncontested then none else do
    let run ← scored[r]?
    let winner ← award.winners.head?
    return run.score winner
  e.emit (.award k (r + 1) award.amount award.winners award.payouts hand)

def narrate (uncontested : Bool) (scored : List (RunScores n)) (pots : List (PotResult n))
    (e : Engine n) : Engine n :=
  pots.zipIdx.foldl (fun e (pot, k) => pot.runs.zipIdx.foldl (narrateRun uncontested scored k) e) e

def clearTotals (e : Engine n) : Engine n :=
  { e with
    players := fun i => { e.players i with totalLive := 0, totalDead := 0, bet := 0 }
    street := .idle }

def layers (e : Engine n) (alive : List (Fin n)) : List (Pot n) :=
  potLayers (fun i => (e.players i).totalLive) (fun i => (e.players i).totalDead) alive

/-- Steps 6 and 7 and the end of `settle`: what it returns once the pots are awarded, and the state
it leaves. -/
def settled (e : Engine n) (alive : List (Fin n)) (refund : Option (Fin n × ℤ)) (tabled : Bool)
    (scored : List (RunScores n)) (pots : List (PotResult n)) : SettleResult n × Engine n :=
  let winners := (pots.flatMap PotResult.winners).toFinset
  let order := if 1 < alive.length then e.showOrder tabled else []
  let (e, showdown) := order.foldl
    (showTurn (scored.headD ⟨[], [], []⟩) tabled winners) (e, ({} : Showdown n))
  (⟨pots, refund, winners, scored, order, showdown.shown, showdown.mucked, tabled⟩,
    (narrate (alive.length == 1) scored pots e).clearTotals)

def settle (runs : ℕ) (forceTabled : Bool) : EngineM n (SettleResult n) := do
  let refund := (← get).uncalled
  modify returnUncalled
  let alive := (← get).contested
  let (boards, tabled) ← completeBoard runs forceTabled
  let scored ← scoreRuns alive boards
  let pots ← awardPots alive scored ((← get).layers alive)
  let (result, e) := (← get).settled alive refund tabled scored pots
  set e
  return result

end Engine

end Holdem
