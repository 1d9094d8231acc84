import Holdem.Engine.Settlement
import Holdem.Engine.Layers

/-!
Who is paid what by `settle`. The odd chips of a share go to the first winners after the button, and
an uncalled bet goes back to the one seat that made it.
-/

namespace Holdem

open List Method

variable {n : ℕ}

namespace Engine

/-- Seats in the order the odd chips reach them: clockwise, the first seat after the button first. -/
def clockwise (button : Fin n) (seats : List (Fin n)) : List (Fin n) :=
  (Circle.lap (Circle.step button 1)).filter (· ∈ seats)

variable {i : Fin n} {e : Engine n} {winners : List (Fin n)} {amount : ℤ}

theorem oddChips_unmet {winners walk : List (Fin n)} (unmet : i ∉ walk) (rem : ℤ) (paid : Fin n → ℤ) :
    oddChips winners walk rem paid i = paid i := by
  induction walk generalizing rem paid with
  | nil => rfl
  | cons j rest ih =>
    obtain ⟨other, later⟩ := not_or.mp fun h => unmet (List.mem_cons.mpr h)
    unfold oddChips
    split
    · rfl
    split
    · rw [ih later, Function.update_of_ne other]
    exact ih later rem paid

theorem oddChips_met {winners walk before later : List (Fin n)} (distinct : walk.Nodup)
    (met : walk.filter (· ∈ winners) = before ++ i :: later) (rem : ℤ) (paid : Fin n → ℤ) :
    oddChips winners walk rem paid i = paid i + if before.length < rem then 1 else 0 := by
  induction walk generalizing rem paid before with
  | nil => simp at met
  | cons j rest ih =>
    obtain ⟨fresh, distinct⟩ := List.nodup_cons.mp distinct
    unfold oddChips
    split
    · rw [if_neg (by omega), add_zero]
    rename_i left
    split
    · rename_i wins
      rw [filter_cons_of_pos (by simpa using wins)] at met
      cases before with
      | nil =>
        obtain ⟨rfl, -⟩ := List.cons.inj met
        rw [oddChips_unmet fresh, Function.update_self, if_pos (by simpa using left)]
      | cons first before =>
        obtain ⟨rfl, rest'⟩ := List.cons.inj met
        have other : i ≠ j := by
          rintro rfl
          have : i ∈ rest.filter (· ∈ winners) := rest' ▸ by simp
          exact fresh (List.mem_filter.mp this).1
        rw [ih distinct rest', Function.update_of_ne other, length_cons]
        congr 2
        exact propext ⟨fun h => by omega, fun h => by omega⟩
    rename_i loses
    rw [filter_cons_of_neg (by simpa using loses)] at met
    exact ih distinct met rem paid

theorem payouts_clockwise {before later : List (Fin n)} (place : clockwise e.button winners = before ++ i :: later) :
    e.payouts winners amount i =
      amount / winners.length + if before.length < amount % winners.length then 1 else 0 := by
  have wins : i ∈ winners := by
    have : i ∈ clockwise e.button winners := place ▸ by simp
    exact of_decide_eq_true (List.mem_filter.mp this).2
  rw [payouts, oddChips_met (Circle.lap_nodup _) place, if_pos wins]

theorem clockwise_place (button : Fin n) (wins : i ∈ winners) :
    ∃ before later, clockwise button winners = before ++ i :: later :=
  append_of_mem (List.mem_filter.mpr ⟨Circle.mem_lap _ i, decide_eq_true wins⟩)

theorem payouts_even {j : Fin n} (first : i ∈ winners) (second : j ∈ winners) :
    e.payouts winners amount i ≤ e.payouts winners amount j + 1 := by
  obtain ⟨_, _, placeI⟩ := clockwise_place e.button first
  obtain ⟨_, _, placeJ⟩ := clockwise_place e.button second
  rw [payouts_clockwise placeI, payouts_clockwise placeJ]
  split <;> split <;> omega

theorem payouts_alone (i : Fin n) : e.payouts [i] amount i = amount := by
  obtain ⟨before, later, place⟩ := clockwise_place e.button (mem_singleton_self i)
  rw [payouts_clockwise place]
  simp [Int.emod_one]

end Engine

def RunAward.paidTo (award : RunAward n) (i : Fin n) : ℤ := (award.payouts.lookup i).getD 0

def PotResult.paidTo (pot : PotResult n) (i : Fin n) : ℤ := (pot.runs.map (RunAward.paidTo · i)).sum

def SettleResult.wonBy (result : SettleResult n) (i : Fin n) : ℤ := (result.pots.map (PotResult.paidTo · i)).sum

/-- The seats that should win a run of a pot: the one seat left, or the best hands of those that can
win it. -/
def Best (alive : List (Fin n)) (scored : List (RunScores n)) (eligible : List (Fin n)) (r : ℕ) (i : Fin n) : Prop :=
  alive = [i] ∨ 1 < alive.length ∧ i ∈ eligible ∧
    ∃ run, scored[r]? = some run ∧ ∀ j ∈ eligible, (run.score j).key ≤ (run.score i).key

structure RunAward.Fair (button : Fin n) (deserves : Fin n → Prop) (award : RunAward n) : Prop where
  winners : ∀ i, i ∈ award.winners ↔ deserves i
  losers : ∀ i, i ∉ award.winners → award.paidTo i = 0
  even : ∀ i ∈ award.winners, ∀ j ∈ award.winners, award.paidTo i ≤ award.paidTo j + 1
  odd : ∀ before i later, Engine.clockwise button award.winners = before ++ i :: later →
    award.paidTo i = award.amount / award.winners.length +
      if before.length < award.amount % award.winners.length then 1 else 0
  exact : ∑ i, award.paidTo i = award.amount

structure PotResult.Fair (button : Fin n) (alive : List (Fin n)) (scored : List (RunScores n))
    (pot : PotResult n) : Prop where
  eligible : ∀ i ∈ pot.eligible, i ∈ alive
  split : pot.runs.map RunAward.amount =
    if scored.length = 2 then [pot.amount - pot.amount / 2, pot.amount / 2] else [pot.amount]
  runs : ∀ (r : ℕ) (award : RunAward n), pot.runs[r]? = some award → award.Fair button (Best alive scored pot.eligible r)

namespace Engine

variable {alive eligible : List (Fin n)} {scored : List (RunScores n)} {r : ℕ} {i : Fin n} {e e' : Engine n}
  {boards : List (List Card)} {run : RunScores n}
  {winners : List (Fin n)} {share : ℤ} {award : RunAward n} {awards : List (RunAward n)} {pot : Pot n}
  {result : PotResult n} {results : List (PotResult n)}

theorem bestSeats_best (ok : bestSeats run eligible = .ok winners)
    (i : Fin n) : i ∈ winners ↔ i ∈ eligible ∧ ∀ j ∈ eligible, (run.score j).key ≤ (run.score i).key := by
  unfold bestSeats at ok
  split at ok
  · rename_i best top
    cases ok
    obtain ⟨attained, most⟩ := List.max?_eq_some_iff.mp top
    simp only [mem_filter, decide_eq_true_eq]
    refine and_congr_right fun member => ⟨fun same j hj => ?_, fun all => ?_⟩
    · rw [same]
      exact most _ (mem_map_of_mem hj)
    obtain ⟨j, hj, rfl⟩ := List.mem_map.mp attained
    exact le_antisymm (most _ (mem_map_of_mem member)) (all j hj)
  cases ok

theorem runWinners_best (some : alive ≠ []) (ok : runWinners alive scored eligible r = .ok winners) (i : Fin n) :
    i ∈ winners ↔ Best alive scored eligible r i := by
  unfold runWinners at ok
  split at ok
  · cases ok
    simp [Best, eq_comm]
  rename_i notOne
  have many : 1 < alive.length := by
    match alive, some, notOne with
    | [], some, _ => exact absurd rfl some
    | [i], _, notOne => exact absurd rfl (notOne i)
    | _ :: _ :: _, _, _ => simp
  have notAlone : alive ≠ [i] := notOne i
  split at ok
  · rename_i run found
    simp [Best, notAlone, many, bestSeats_best ok i, found]
  cases ok

theorem paidTo_map (winners : List (Fin n)) (amount : ℤ) {paid : Fin n → ℤ}
    (loses : i ∉ winners → paid i = 0) : RunAward.paidTo ⟨winners, amount, winners.map fun j => (j, paid j)⟩ i = paid i := by
  unfold RunAward.paidTo
  dsimp only
  induction winners with
  | nil => exact (loses not_mem_nil).symm
  | cons j rest ih =>
    rw [map_cons, lookup_cons]
    by_cases same : i = j
    · rw [same, beq_self_eq_true]
      rfl
    rw [beq_false_of_ne same]
    exact ih fun absent => loses (by simp [same, absent])

theorem awardRun_paid (ran : awardRun alive scored eligible r share e = .ok award e') : e' = e.pay award.paidTo := by
  unfold awardRun at ran
  split at ran
  · cases ran
  cases ran
  exact congrArg e.pay (funext fun i => (paidTo_map _ share (payouts_loser e)).symm)

theorem awardRuns_paid (shares : List ℤ) (ran : awardRuns alive scored eligible r shares e = .ok awards e') :
    e' = e.pay fun i => (awards.map (RunAward.paidTo · i)).sum := by
  induction shares generalizing r awards e with
  | nil =>
    cases ran
    exact (pay_zero _).symm
  | cons share rest ih =>
    obtain ⟨first, e1, ranFirst, ran⟩ := bind_ok ran
    obtain ⟨others, e2, ranOthers, ran⟩ := bind_ok ran
    cases ran
    rw [ih ranOthers, awardRun_paid ranFirst, pay_pay]
    simp only [map_cons, sum_cons]

theorem awardPot_paid (ran : awardPot alive scored pot e = .ok result e') : e' = e.pay result.paidTo := by
  obtain ⟨awards, e1, ranRuns, ran⟩ := bind_ok ran
  cases ran
  exact awardRuns_paid _ ranRuns

theorem awardPots_paid (pots : List (Pot n)) (ran : awardPots alive scored pots e = .ok results e') :
    e' = e.pay fun i => (results.map (PotResult.paidTo · i)).sum := by
  induction pots generalizing results e with
  | nil =>
    cases ran
    exact (pay_zero _).symm
  | cons pot rest ih =>
    obtain ⟨first, e1, ranFirst, ran⟩ := bind_ok ran
    obtain ⟨others, e2, ranOthers, ran⟩ := bind_ok ran
    cases ran
    rw [ih ranOthers, awardPot_paid ranFirst, pay_pay]
    simp only [map_cons, sum_cons]

section

variable (distinct : alive.Nodup) (some : eligible ≠ []) (among : eligible.Sublist alive)
include distinct some among

theorem awardRun_fair
    (run : 1 < alive.length → r < scored.length) (ran : awardRun alive scored eligible r share e = .ok award e') :
    award.amount = share ∧ award.Fair e.button (Best alive scored eligible r) := by
  obtain ⟨winners, won, nonempty, sub⟩ := runWinners_returns distinct some among run
  rw [awardRun, won] at ran
  obtain rfl : (⟨winners, share, winners.map fun i => (i, e.payouts winners share i)⟩ : RunAward n) = award := by
    cases ran
    rfl
  have paid : ∀ i, RunAward.paidTo ⟨winners, share, winners.map fun i => (i, e.payouts winners share i)⟩ i =
      e.payouts winners share i := fun i => paidTo_map winners share (payouts_loser e)
  have alive' : alive ≠ [] := fun none => some (List.sublist_nil.mp (none ▸ among))
  refine ⟨rfl, runWinners_best alive' won, ?_, ?_, ?_, ?_⟩
  · intro i loses
    rw [paid, payouts_loser e loses]
  · intro i first j second
    rw [paid, paid]
    exact payouts_even first second
  · intro before i later place
    rw [paid]
    exact payouts_clockwise place
  rw [funext paid]
  exact payouts_total e nonempty (distinct.sublist sub)

theorem awardRuns_fair (shares : List ℤ) (run : 1 < alive.length → r + shares.length ≤ scored.length)
    (ran : awardRuns alive scored eligible r shares e = .ok awards e') :
    awards.map RunAward.amount = shares ∧
      ∀ (k : ℕ) (award : RunAward n), awards[k]? = Option.some award → award.Fair e.button (Best alive scored eligible (r + k)) := by
  induction shares generalizing r awards e with
  | nil =>
    cases ran
    exact ⟨rfl, by simp⟩
  | cons share rest ih =>
    obtain ⟨first, e1, ranFirst, ran⟩ := bind_ok ran
    obtain ⟨others, e2, ranOthers, ran⟩ := bind_ok ran
    cases ran
    obtain ⟨amount, fair⟩ := awardRun_fair distinct some among
      (fun many => by have := run many; simp only [length_cons] at this; omega) ranFirst
    obtain rfl := awardRun_paid ranFirst
    obtain ⟨amounts, fairs⟩ := ih (r := r + 1)
      (fun many => by have := run many; simp only [length_cons] at this; omega) ranOthers
    refine ⟨by rw [map_cons, amount, amounts], fun k award found => ?_⟩
    cases k with
    | zero =>
      cases found
      exact fair
    | succ k =>
      have := fairs k award found
      rwa [Nat.add_right_comm, Nat.add_assoc] at this

end

section

variable (runs : 1 < alive.length → scored.length = 1 ∨ scored.length = 2)
  (unscored : ¬1 < alive.length → scored.length ≠ 2)
include runs unscored

theorem runShares_split (amount : ℤ) : runShares amount (if 1 < alive.length then max 1 scored.length else 1) =
    if scored.length = 2 then [amount - amount / 2, amount / 2] else [amount] := by
  by_cases many : 1 < alive.length
  · rw [if_pos many]
    obtain one | two := runs many
    · rw [one, if_neg (by decide)]
      simp [runShares]
    rw [two, if_pos rfl]
    show [amount / 2 + (amount - 2 * (amount / 2)), amount / 2] = _
    congr 1
    omega
  rw [if_neg many, if_neg (unscored many)]
  simp [runShares]

variable (distinct : alive.Nodup)
include distinct

theorem awardPot_fair (winnable : pot.Winnable alive) (ran : awardPot alive scored pot e = .ok result e') :
    result.amount = pot.amount ∧ result.eligible = pot.eligible ∧ result.Fair e.button alive scored := by
  obtain ⟨awards, e1, ranRuns, ran⟩ := bind_ok ran
  cases ran
  obtain ⟨amounts, fairs⟩ := awardRuns_fair distinct winnable.contested winnable.eligible _
    (fun many => by
      have := runs many
      rw [runShares_length, if_pos many]
      omega) ranRuns
  refine ⟨rfl, rfl, winnable.eligible.subset, ?_, fun r award found => ?_⟩
  · exact amounts.trans (runShares_split runs unscored _)
  have := fairs r award found
  rwa [Nat.zero_add] at this

theorem awardPots_fair (pots : List (Pot n)) (winnable : ∀ pot ∈ pots, pot.Winnable alive)
    (ran : awardPots alive scored pots e = .ok results e') :
    results.map (fun result => (⟨result.amount, result.eligible⟩ : Pot n)) = pots ∧
      ∀ result ∈ results, result.Fair e.button alive scored := by
  induction pots generalizing results e with
  | nil =>
    cases ran
    exact ⟨rfl, by simp⟩
  | cons pot rest ih =>
    obtain ⟨first, e1, ranFirst, ran⟩ := bind_ok ran
    obtain ⟨others, e2, ranOthers, ran⟩ := bind_ok ran
    cases ran
    obtain ⟨amount, eligible, fair⟩ := awardPot_fair runs unscored distinct (winnable pot (.head _)) ranFirst
    obtain rfl := awardPot_paid ranFirst
    obtain ⟨same, fairs⟩ := ih (fun p member => winnable p (.tail _ member)) ranOthers
    refine ⟨by rw [map_cons, amount, eligible, same], fun result member => ?_⟩
    obtain rfl | later := List.mem_cons.mp member
    · exact fair
    exact fairs result later

end

theorem paidTo_of_best {button : Fin n} {pot : PotResult n} (fair : pot.Fair button alive scored)
    (contested : pot.eligible ≠ []) (contends : i ∈ alive)
    (best : ∀ run ∈ scored, ∀ j ∈ alive, j ≠ i → (run.score j).key < (run.score i).key) :
    pot.paidTo i = if i ∈ pot.eligible then pot.amount else 0 := by
  have each : ∀ award ∈ pot.runs, award.paidTo i = if i ∈ pot.eligible then award.amount else 0 := by
    intro award member
    obtain ⟨r, found⟩ := mem_iff_getElem?.mp member
    have run := fair.runs r award found
    split
    · rename_i can
      have alone : ∀ j, j ∈ award.winners → j = i := by
        intro j wins
        by_contra other
        obtain only | ⟨-, eligible, scores, scoredAt, top⟩ := (run.winners j).mp wins
        · exact other (List.mem_singleton.mp (only ▸ contends)).symm
        exact absurd (top i can) (not_le.mpr (best scores (mem_of_getElem? scoredAt) j (fair.eligible j eligible) other))
      rw [← run.exact, Finset.sum_eq_single i (fun j _ other => run.losers j fun wins => other (alone j wins)) (by simp)]
    rename_i cannot
    refine run.losers i fun wins => ?_
    obtain only | ⟨-, eligible, -⟩ := (run.winners i).mp wins
    · obtain ⟨j, member⟩ := exists_mem_of_ne_nil _ contested
      have := fair.eligible j member
      rw [only, mem_singleton] at this
      exact cannot (this ▸ member)
    exact cannot eligible
  have total : (pot.runs.map RunAward.amount).sum = pot.amount := by
    rw [fair.split]
    split
    · simp
    simp
  rw [PotResult.paidTo, map_congr_left each]
  split
  · exact total
  simp

theorem mapM_lookup {β : Type} {f : Fin n → Except PyError β} (seats : List (Fin n)) {found : List (Fin n × β)}
    (default : β) (ok : (seats.mapM fun i => do return (i, ← f i)) = .ok found) :
    ∀ i ∈ seats, f i = .ok ((found.lookup i).getD default) := by
  induction seats generalizing found with
  | nil => simp
  | cons j rest ih =>
    rw [mapM_cons] at ok
    obtain ⟨pair, first, ok⟩ := check_ok ok
    obtain ⟨score, evaluated, same⟩ := check_ok first
    obtain ⟨others, ran, ok⟩ := check_ok ok
    cases same
    cases ok
    intro i member
    rw [lookup_cons]
    by_cases same : i = j
    · rw [same, beq_self_eq_true]
      exact evaluated
    rw [beq_false_of_ne same]
    exact ih ran i ((List.mem_cons.mp member).resolve_left same)

theorem scoreRun_scores {board : List Card} (ok : e.scoreRun alive board = .ok run) :
    run.board = board ∧ (∀ i ∈ alive, evaluate ((e.players i).hole ++ board) = .ok (run.score i)) ∧
      ∀ i ∈ alive, bestFive ((e.players i).hole ++ board) = .ok ((run.best.lookup i).getD []) := by
  obtain ⟨scores, scored, ok⟩ := check_ok ok
  obtain ⟨best, found, ok⟩ := check_ok ok
  cases ok
  exact ⟨rfl, mapM_lookup alive (⟨0, []⟩ : Score) scored, mapM_lookup alive [] found⟩

theorem mapM_each {α β : Type} {f : α → Except PyError β} (xs : List α) {ys : List β} (ok : xs.mapM f = .ok ys) :
    ys.length = xs.length ∧ ∀ y ∈ ys, ∃ x ∈ xs, f x = .ok y := by
  induction xs generalizing ys with
  | nil =>
    cases ok
    simp
  | cons x xs ih =>
    rw [mapM_cons] at ok
    obtain ⟨y, first, ok⟩ := check_ok ok
    obtain ⟨others, ran, ok⟩ := check_ok ok
    cases ok
    obtain ⟨length, each⟩ := ih ran
    refine ⟨by simp [length], fun z member => ?_⟩
    obtain rfl | later := List.mem_cons.mp member
    · exact ⟨x, mem_cons_self, first⟩
    obtain ⟨w, member, found⟩ := each z later
    exact ⟨w, mem_cons_of_mem _ member, found⟩

theorem scoreRuns_scores (ran : scoreRuns alive boards e = .ok scored e') :
    scored.length = (if 1 < alive.length then boards.length else 0) ∧ ∀ run ∈ scored, run.board ∈ boards ∧
      ∀ i ∈ alive, evaluate ((e.players i).hole ++ run.board) = .ok (run.score i) := by
  unfold scoreRuns at ran
  split at ran
  · rename_i many
    split at ran
    · rename_i runs ok
      cases ran
      obtain ⟨length, each⟩ := mapM_each boards ok
      refine ⟨by rw [length, if_pos many], fun run member => ?_⟩
      obtain ⟨board, listed, found⟩ := each run member
      obtain ⟨rfl, evaluated, -⟩ := scoreRun_scores found
      exact ⟨listed, evaluated⟩
    cases ran
  rename_i one
  cases ran
  rw [if_neg one]
  exact ⟨rfl, by simp⟩

theorem nextStreet_extends (base : List Card) : Method.Keeps (fun e : Engine n => base <+: e.board) nextStreet := by
  have opens : ∀ e : Engine n, e.openStreet.board = e.board := fun e => congrArg Layout.board (openStreet_layout e)
  have deals : ∀ k street, Method.Keeps (fun e : Engine n => base <+: e.board) (dealStreet k street) := fun k street =>
    keeps_bind (deal_keeps (fun _ _ h => h) k) fun out => keeps_modify fun e h => by
      rw [opens]
      exact h.trans (prefix_append _ _)
  intro e h
  unfold nextStreet
  dsimp only
  split
  · exact deals 3 .flop _ h
  · exact deals 1 .turn _ h
  · exact deals 1 .river _ h
  · exact h
  · exact (opens e.clearBets).symm ▸ h
  exact (opens e.clearBets).symm ▸ h

theorem completeBoard_boards {runs : ℕ} {tabled tabled' : Bool} {e1 : Engine n}
    (many : 1 < e.contested.length) (ran : completeBoard runs tabled e = .ok (boards, tabled') e1) :
    boards.length = (if runs = 2 ∧ e.board.length < 5 then 2 else 1) ∧ ∀ board ∈ boards, e.board <+: board := by
  obtain ⟨_, _, got, ran⟩ := bind_ok (m := get) ran
  cases got
  rw [if_pos many] at ran
  split at ran
  · rename_i twice
    obtain ⟨first, e2, -, ran⟩ := bind_ok ran
    obtain ⟨second, e3, -, ran⟩ := bind_ok ran
    obtain ⟨_, e4, -, ran⟩ := bind_ok ran
    cases ran
    rw [if_pos twice]
    simp
  rename_i once
  obtain ⟨_, e2, out, ran⟩ := bind_ok ran
  obtain ⟨_, e3, moved, ran⟩ := bind_ok ran
  obtain ⟨_, e4, got, ran⟩ := bind_ok (m := get) ran
  cases moved
  cases got
  cases ran
  have extended := keeps_ok (runOut_keeps (nextStreet_extends e.board) 3) (prefix_refl _) out
  rw [if_neg once]
  simpa using extended

structure Refund (live : Fin n → ℤ) (i : Fin n) (back : ℤ) : Prop where
  highest : ∀ j, j ≠ i → live j < live i
  gap : ∃ j, j ≠ i ∧ 0 < live j ∧ (∀ k, k ≠ i → live k ≤ live j) ∧ back = live i - live j

theorem uncalled_refund {back : ℤ} (found : e.uncalled = some (i, back)) :
    Refund (fun j => (e.players j).totalLive) i back := by
  unfold uncalled at found
  split at found
  · rename_i top second rest listed
    have member : ∀ x, x ∈ top :: second :: rest ↔ (∃ j, (e.players j).totalLive = x) ∧ 0 < x := by
      intro x
      rw [← listed, lives, mem_insertionSort, mem_filter]
      simp
    have sorted : (top :: second :: rest).Pairwise (· ≥ ·) := listed ▸ pairwise_insertionSort _ _
    split at found
    · rename_i above
      split at found
      · rename_i seat only
        cases found
        have unique : ∀ j, (e.players j).totalLive = top ↔ j = i := fun j => by
          have : j ∈ e.seatsWhere (fun p => p.totalLive = top) ↔ j ∈ [i] := by rw [only]
          simpa [mem_seatsWhere] using this
        have atTop := (unique i).mpr rfl
        obtain ⟨⟨other, atSecond⟩, positive⟩ := (member second).mp (by simp)
        have others : ∀ k, k ≠ i → (e.players k).totalLive ≤ second := by
          intro k different
          by_contra more
          have listedK := (member (e.players k).totalLive).mpr ⟨⟨k, rfl⟩, by omega⟩
          obtain first | later := List.mem_cons.mp listedK
          · exact different ((unique k).mp first)
          obtain same | later := List.mem_cons.mp later
          · omega
          have := (List.pairwise_cons.mp (List.pairwise_cons.mp sorted).2).1 _ later
          omega
        refine ⟨fun j different => ?_, other, fun same => ?_, ?_, fun k different => ?_, ?_⟩
        · have := others j different
          omega
        · rw [same] at atSecond
          omega
        · omega
        · rw [atSecond]
          exact others k different
        omega
      cases found
    cases found
  cases found

def ledger (e : Engine n) : Fin n × (Fin n → ℤ × ℤ × ℤ × ℤ) :=
  (e.button, fun i => ((e.players i).stack, (e.players i).totalLive, (e.players i).totalDead, (e.players i).won))

theorem ledger_clearBets (e : Engine n) : e.clearBets.ledger = e.ledger := by
  refine congrArg (Prod.mk e.button) (funext fun i => ?_)
  simp only [clearBets]
  split <;> rfl

theorem ledger_openStreet (e : Engine n) : e.openStreet.ledger = e.ledger := by
  have button : e.openStreet.button = e.button := congrArg Table.button (table_openStreet e)
  rw [ledger, openStreet_players, button, ledger]

theorem completeBoard_ledger (book : Fin n × (Fin n → ℤ × ℤ × ℤ × ℤ)) (runs : ℕ) (tabled : Bool) :
    Method.Keeps (fun e : Engine n => e.ledger = book) (completeBoard runs tabled) :=
  completeBoard_keeps
    (nextStreet_keeps (fun e h => (ledger_clearBets e).trans h) (fun _ _ _ _ h => h) fun e h => (ledger_openStreet e).trans h)
    (fun _ _ _ _ _ _ h => h) runs tabled

theorem settle_steps {runs : ℕ} {forceTabled : Bool} {result : SettleResult n}
    (ran : settle runs forceTabled e = .ok result e') :
    ∃ boards tabled e1 scored pots e2, completeBoard runs forceTabled e.returnUncalled = .ok (boards, tabled) e1 ∧
      scoreRuns e.returnUncalled.contested boards e1 = .ok scored e1 ∧
      awardPots e.returnUncalled.contested scored (e1.layers e.returnUncalled.contested) e1 = .ok pots e2 ∧
      (result, e') = e2.settled e.returnUncalled.contested e.uncalled tabled scored pots := by
  obtain ⟨⟨boards, tabled⟩, e1, completed, afterBoard⟩ :=
    bind_ok (m := completeBoard runs forceTabled) (s := e.returnUncalled) ran
  obtain ⟨scored, e2, scores, afterScores⟩ := bind_ok afterBoard
  obtain rfl : e2 = e1 := keeps_ok (P := fun s => s = e1) (scoreRuns_keeps _ _ _) rfl scores
  obtain ⟨pots, e3, awarded, afterAwards⟩ :=
    bind_ok (m := awardPots e.returnUncalled.contested scored (e2.layers e.returnUncalled.contested)) (s := e2)
      afterScores
  refine ⟨boards, tabled, e2, scored, pots, e3, completed, scores, awarded, ?_⟩
  cases afterAwards
  rfl

end Engine

def refundTo (refund : Option (Fin n × ℤ)) (i : Fin n) : ℤ :=
  match refund with
  | some (j, back) => if j = i then back else 0
  | none => 0

namespace Engine

theorem returnUncalled_player (e : Engine n) (i : Fin n) :
    (e.returnUncalled.players i).stack = (e.players i).stack + refundTo e.uncalled i ∧
      (e.returnUncalled.players i).won = (e.players i).won ∧
      (e.returnUncalled.players i).totalDead = (e.players i).totalDead := by
  unfold returnUncalled
  split
  · rename_i j back found
    rw [found, giveBack, emit_players]
    by_cases same : i = j
    · subst same
      simp [refundTo]
    simp [update_other _ _ same, refundTo, Ne.symm same]
  rename_i none
  simp [none, refundTo]

structure FairlySettled (runs : ℕ) (e e' : Engine n) (result : SettleResult n) : Prop where
  refund : ∀ i back, result.refund = some (i, back) → Refund (fun j => (e.players j).totalLive) i back
  runs : result.runs.length =
    if 1 < e.contested.length then (if runs = 2 ∧ e.board.length < 5 then 2 else 1) else 0
  scores : ∀ run ∈ result.runs, e.board <+: run.board ∧ run.board.length = 5 ∧
    ∀ i ∈ e.contested, evaluate ((e.players i).hole ++ run.board) = .ok (run.score i)
  pots : ∀ pot ∈ result.pots, pot.Fair e.button e.contested result.runs
  stack : ∀ i, (e'.players i).stack = (e.players i).stack + refundTo result.refund i + result.wonBy i
  won : ∀ i, (e'.players i).won = (e.players i).won + result.wonBy i
  others : ∀ i, i ∉ e.contested → result.wonBy i = 0
  best : ∀ i ∈ e.contested,
    (∀ run ∈ result.runs, ∀ j ∈ e.contested, j ≠ i → (run.score j).key < (run.score i).key) →
    result.wonBy i = ∑ j, (e.players j).totalDead +
      ∑ j, min (e.returnUncalled.players j).totalLive (e.returnUncalled.players i).totalLive +
      if ∀ j ∈ e.contested, (e.returnUncalled.players j).totalLive ≤ (e.returnUncalled.players i).totalLive
      then ∑ j, max 0 ((e.returnUncalled.players j).totalLive - (e.returnUncalled.players i).totalLive) else 0

theorem completeBoard_five {e e1 : Engine n} {runs : ℕ} {tabled tabled' : Bool} {boards : List (List Card)}
    (runsOk : runs = 1 ∨ runs = 2) (distinct : e.Distinct) (complete : e.CanComplete runs)
    (many : 1 < e.contested.length) (ran : completeBoard runs tabled e = .ok (boards, tabled') e1) :
    ∀ board ∈ boards, board.length = 5 := by
  obtain ⟨boards', _, _, ran', -, scorable⟩ := completeBoard_returns runsOk distinct (fun _ => complete) tabled
  rw [ran] at ran'
  cases ran'
  exact fun board member => ((scorable many).2.2 board member).1

/-- The table with the uncalled bet back and the board complete: hands, seats and, but for the refund, chips
as they were. -/
structure Boarded (e e1 : Engine n) : Prop where
  hands : e1.hands = e.hands
  button : e1.button = e.button
  live : ∀ i, (e1.players i).totalLive = (e.returnUncalled.players i).totalLive
  dead : ∀ i, (e1.players i).totalDead = (e.players i).totalDead
  stack : ∀ i, (e1.players i).stack = (e.players i).stack + refundTo e.uncalled i
  won : ∀ i, (e1.players i).won = (e.players i).won

theorem completeBoard_boarded {e e1 : Engine n} {runs : ℕ} {tabled : Bool} {out : List (List Card) × Bool}
    (ran : completeBoard runs tabled e.returnUncalled = .ok out e1) : Boarded e e1 := by
  have hands : e1.hands = e.returnUncalled.hands :=
    keeps_ok (P := fun s => s.hands = e.returnUncalled.hands) (completeBoard_hands _ runs tabled) rfl ran
  have book : e1.ledger = e.returnUncalled.ledger :=
    keeps_ok (P := fun s => s.ledger = e.returnUncalled.ledger) (completeBoard_ledger _ runs tabled) rfl ran
  have button : e.returnUncalled.button = e.button := congrArg (fun s => s.1.button) (still_returnUncalled e)
  refine ⟨hands.trans (hands_returnUncalled e), (congrArg Prod.fst book).trans button, fun i => ?_, fun i => ?_,
    fun i => ?_, fun i => ?_⟩
  · exact congrArg (fun l => (l.2 i).2.1) book
  · exact (congrArg (fun l => (l.2 i).2.2.1) book).trans (returnUncalled_player e i).2.2
  · exact (congrArg (fun l => (l.2 i).1) book).trans (returnUncalled_player e i).1
  exact (congrArg (fun l => (l.2 i).2.2.2) book).trans (returnUncalled_player e i).2.1

variable {pots : List (PotResult n)}

theorem wonBy_of_best {button i : Fin n} (fair : ∀ pot ∈ pots, pot.Fair button alive scored)
    (winnable : ∀ pot ∈ pots, pot.eligible ≠ []) (contends : i ∈ alive)
    (best : ∀ run ∈ scored, ∀ j ∈ alive, j ≠ i → (run.score j).key < (run.score i).key) :
    (pots.map (PotResult.paidTo · i)).sum =
      claimOn (pots.map fun result => (⟨result.amount, result.eligible⟩ : Pot n)) i := by
  rw [claimOn, map_map]
  exact congrArg List.sum (map_congr_left fun pot member =>
    paidTo_of_best (fair pot member) (winnable pot member) contends best)

theorem wonBy_others {button i : Fin n} (fair : ∀ pot ∈ pots, pot.Fair button alive scored)
    (out : i ∉ alive) : (pots.map (PotResult.paidTo · i)).sum = 0 := by
  refine sum_eq_zero fun x member => ?_
  obtain ⟨pot, listed, rfl⟩ := List.mem_map.mp member
  refine sum_eq_zero fun y member => ?_
  obtain ⟨award, found, rfl⟩ := List.mem_map.mp member
  obtain ⟨r, found⟩ := mem_iff_getElem?.mp found
  have run := (fair pot listed).runs r award found
  refine run.losers i fun wins => ?_
  obtain only | ⟨-, eligible, -⟩ := (run.winners i).mp wins
  · exact out (only ▸ mem_singleton_self i)
  exact out ((fair pot listed).eligible i eligible)

theorem settle_fair {e : Engine n} {runs : ℕ} (runsOk : runs = 1 ∨ runs = 2) (solvent : e.Solvent) (distinct : e.Distinct)
    (alive : e.contested ≠ []) (complete : 1 < e.contested.length → e.CanComplete runs) (forceTabled : Bool) :
    ∃ result e', settle runs forceTabled e = .ok result e' ∧ FairlySettled runs e e' result := by
  obtain ⟨result, e', ran, -⟩ := settle_returns runsOk solvent distinct alive complete forceTabled
  refine ⟨result, e', ran, ?_⟩
  obtain ⟨boards, tabled, e₁, scored, pots, e₂, completed, scores, awarded, ended⟩ := settle_steps ran
  have boarded := completeBoard_boarded completed
  have hands := hands_returnUncalled e
  have contested := contested_of_hands hands
  have layout : e.returnUncalled.layout = e.layout := congrArg Prod.snd (still_returnUncalled e)
  have board : e.returnUncalled.board = e.board := congrArg Layout.board layout
  have deck : e.returnUncalled.deck = e.deck := congrArg Layout.deck layout
  have street : e.returnUncalled.street = e.street := congrArg Layout.street layout
  rw [contested] at scores awarded ended
  -- the scores
  obtain ⟨count, evaluated⟩ := scoreRuns_scores scores
  have length : scored.length =
      if 1 < e.contested.length then (if runs = 2 ∧ e.board.length < 5 then 2 else 1) else 0 := by
    rw [count]
    split
    · rename_i many
      rw [(completeBoard_boards (contested ▸ many) completed).1, board]
    rfl
  -- the awards
  have solvent₁ := pays_solvent (Method.keeps_ok (completeBoard_pays e runs forceTabled) (pays_returnUncalled e) completed) solvent
  have winnable : ∀ pot ∈ e₁.layers e.contested, pot.Winnable e.contested :=
    potLayers_winnable alive (fun i => (solvent₁ i).totalLive) fun i => (solvent₁ i).totalDead
  have nodup : e.contested.Nodup := seatsWhere_nodup e _
  obtain rfl := awardPots_paid _ awarded
  obtain ⟨layers, fair⟩ := awardPots_fair
    (fun many => by rw [length, if_pos many]; split <;> simp) (fun one => by rw [length, if_neg one]; decide)
    nodup (e₁.layers e.contested) winnable awarded
  obtain ⟨shown, ⟨events, logged⟩, closed⟩ := settled_logged
    (e₁.pay fun i => (pots.map (PotResult.paidTo · i)).sum) e.contested e.uncalled tabled scored pots
  have awards : result.pots = pots := congrArg (fun out => out.1.pots) ended
  have refund : result.refund = e.uncalled := congrArg (fun out => out.1.refund) ended
  have table : e' = shown.clearTotals := (congrArg Prod.snd ended).trans closed
  obtain rfl : result.runs = scored := congrArg (fun out => out.1.runs) ended
  have won : ∀ i, result.wonBy i = (pots.map (PotResult.paidTo · i)).sum := fun i => by rw [SettleResult.wonBy, awards]
  refine ⟨fun i back found => uncalled_refund (refund ▸ found), length, fun run member => ?_,
    awards ▸ boarded.button ▸ fair, fun i => ?_, fun i => ?_, fun i out => (won i).trans (wonBy_others fair out),
    fun i contends best => ?_⟩
  · obtain ⟨listed, score⟩ := evaluated run member
    have many : 1 < e.contested.length := by
      by_contra one
      rw [if_neg one, length_eq_zero_iff] at count
      rw [count] at member
      exact not_mem_nil member
    refine ⟨board ▸ (completeBoard_boards (contested ▸ many) completed).2 _ listed, ?_, fun i contends => ?_⟩
    · refine completeBoard_five runsOk (fun i => ?_) ?_ (contested ▸ many) completed _ listed
      · rw [holes_of_hands hands, board, deck]
        exact distinct i
      have := complete many
      rwa [CanComplete, BoardFits, Enough, board, deck, street]
    rw [← holes_of_hands boarded.hands]
    exact score i contends
  · rw [table, logged, won, refund, ← boarded.stack i]
    rfl
  · rw [table, logged, won, ← boarded.won i]
    rfl
  rw [won, wonBy_of_best fair (fun pot member => ?_) contends best, layers, Engine.layers,
    (potLayers_layering (fun j => (solvent₁ j).totalLive) (fun j => (solvent₁ j).totalDead)
      (ne_nil_of_mem contends)).claims _ contends]
  · simp only [boarded.live, boarded.dead]
  exact (winnable _ (layers ▸ mem_map_of_mem member)).contested

def allInThreeWays : Engine 3 :=
  { init (fun _ => 0) 0 1 2 .noLimit false false with
    players := fun i =>
      { stack := 10 * i, hole := (fullDeck.drop (2 * i)).take 2, inSeat := true, folded := decide (i = 2),
        totalLive := 25 * (i + 1), totalDead := 1 }
    deck := fullDeck.drop 6
    street := .preflop }

theorem settle_fair_allInThreeWays :
    ∃ result e', settle 2 false allInThreeWays = .ok result e' ∧ FairlySettled 2 allInThreeWays e' result := by
  refine settle_fair (.inr rfl) (fun i => ?_) ?_ ?_ (fun _ => .inr ⟨?_, ?_, ?_⟩) false
  · refine ⟨?_, ?_, ?_, ?_⟩
    all_goals revert i; decide
  · unfold Distinct
    decide +kernel
  · decide
  · decide
  · rfl
  unfold Enough
  decide

end Engine

end Holdem
