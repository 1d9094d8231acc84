import Holdem.Evaluate
import Holdem.Engine.Chips
import Holdem.Engine.Pots
import Holdem.Engine.Streets

/-!
`settle` returns and pays out exactly the pot. Its steps are taken in the source's order: the board,
the scores, the awards.
-/

namespace Holdem.Engine

open List

variable {n : ℕ} {e : Engine n}

open Method

theorem mapM_returns {α β : Type} {f : α → Except PyError β} (xs : List α)
    (each : ∀ x ∈ xs, ∃ y, f x = .ok y) : ∃ ys, xs.mapM f = .ok ys ∧ ys.length = xs.length := by
  induction xs with
  | nil => exact ⟨[], rfl, rfl⟩
  | cons x xs ih =>
    obtain ⟨y, first⟩ := each x (.head _)
    obtain ⟨ys, rest, length⟩ := ih fun z hz => each z (.tail _ hz)
    exact ⟨y :: ys, by rw [mapM_cons, first, rest]; rfl, by simp [length]⟩

theorem scoreRun_returns (alive : List (Fin n)) {board : List Card} (full : board.length = 5)
    (distinct : ∀ i, ((e.players i).hole ++ board).Nodup) : ∃ run, e.scoreRun alive board = .ok run := by
  have five : ∀ i, 5 ≤ ((e.players i).hole ++ board).length := fun i => by rw [length_append]; omega
  obtain ⟨scores, scored, -⟩ := mapM_returns
    (f := fun i : Fin n => do return (i, ← evaluate ((e.players i).hole ++ board))) alive fun i _ => by
      obtain ⟨score, h⟩ := evaluate_returns (distinct i) (five i)
      exact ⟨(i, score), by rw [h]; rfl⟩
  obtain ⟨best, found, -⟩ := mapM_returns
    (f := fun i : Fin n => do return (i, ← bestFive ((e.players i).hole ++ board))) alive fun i _ => by
      obtain ⟨combo, h⟩ := bestFive_returns (distinct i) (five i)
      exact ⟨(i, combo), by rw [h]; rfl⟩
  exact ⟨⟨board, scores, best⟩, by rw [scoreRun, scored, found]; rfl⟩

theorem scoreRuns_returns (alive : List (Fin n)) (boards : List (List Card))
    (scorable : 1 < alive.length → e.Scorable boards) :
    ∃ scored, scoreRuns alive boards e = .ok scored e ∧ (1 < alive.length → scored ≠ []) := by
  by_cases contested : 1 < alive.length
  · obtain ⟨some, good⟩ := scorable contested
    obtain ⟨scored, ran, length⟩ := mapM_returns (f := e.scoreRun alive) boards fun board member =>
      scoreRun_returns alive (good board member).1 (good board member).2
    refine ⟨scored, by rw [scoreRuns, if_pos contested, ran], fun _ => ?_⟩
    have := length_pos_of_ne_nil some
    exact ne_nil_of_length_pos (by omega)
  exact ⟨[], by rw [scoreRuns, if_neg contested], fun h => absurd h contested⟩

theorem pay_pay (e : Engine n) (f g : Fin n → ℤ) : (e.pay f).pay g = e.pay fun i => f i + g i := by
  simp only [pay, add_assoc]

theorem pay_zero (e : Engine n) : (e.pay fun _ => 0) = e := by
  simp [pay]

structure Pays.Out (alive : List (Fin n)) (amount : ℤ) (paid : Fin n → ℤ) : Prop where
  total : ∑ i, paid i = amount
  nonneg : ∀ i, 0 ≤ paid i
  alive : ∀ i, i ∉ alive → paid i = 0

theorem Pays.Out.add {alive : List (Fin n)} {a b : ℤ} {paid more : Fin n → ℤ} (first : Pays.Out alive a paid)
    (others : Pays.Out alive b more) : Pays.Out alive (a + b) fun i => paid i + more i where
  total := by rw [Finset.sum_add_distrib, first.total, others.total]
  nonneg i := add_nonneg (first.nonneg i) (others.nonneg i)
  alive i out := by simp only [first.alive i out, others.alive i out, add_zero]

theorem bestSeats_returns (run : RunScores n) {eligible : List (Fin n)} (some : eligible ≠ []) :
    ∃ winners, bestSeats run eligible = .ok winners ∧ winners ≠ [] ∧ winners.Sublist eligible := by
  unfold bestSeats
  split
  · rename_i best top
    refine ⟨_, rfl, ?_, filter_sublist⟩
    obtain ⟨i, member, key⟩ := List.mem_map.mp (max?_mem top)
    exact ne_nil_of_mem (List.mem_filter.mpr ⟨member, by simpa using key⟩)
  rename_i none
  rw [max?_eq_none_iff, map_eq_nil_iff] at none
  exact absurd none some

section

variable {alive eligible : List (Fin n)} {scored : List (RunScores n)} {r : ℕ}

theorem runWinners_returns (distinct : alive.Nodup) (some : eligible ≠ [])
    (among : eligible.Sublist alive) (run : 1 < alive.length → r < scored.length) :
    ∃ winners, runWinners alive scored eligible r = .ok winners ∧ winners ≠ [] ∧ winners.Sublist alive := by
  unfold runWinners
  split
  · exact ⟨_, rfl, by simp, List.Sublist.refl _⟩
  rename_i notOne
  have many : 1 < alive.length := by
    match alive, notOne with
    | [], _ => exact absurd (List.sublist_nil.mp among) some
    | [i], notOne => exact absurd rfl (notOne i)
    | _ :: _ :: _, _ => simp
  rw [getElem?_eq_getElem (run many)]
  obtain ⟨winners, best, nonempty, sub⟩ := bestSeats_returns scored[r] some
  exact ⟨winners, best, nonempty, sub.trans among⟩

variable (distinct : alive.Nodup) (some : eligible ≠ []) (among : eligible.Sublist alive)
include distinct some among

theorem awardRun_pays {share : ℤ} (run : 1 < alive.length → r < scored.length) (positive : 0 ≤ share) (e : Engine n) :
    ∃ award paid, awardRun alive scored eligible r share e = .ok award (e.pay paid) ∧ Pays.Out alive share paid := by
  obtain ⟨winners, won, nonempty, sub⟩ := runWinners_returns distinct some among run
  refine ⟨_, e.payouts winners share, by rw [awardRun, won], ?_, fun i => ?_, fun i out => ?_⟩
  · exact payouts_total e nonempty (distinct.sublist sub)
  · exact payouts_nonneg e positive i
  exact payouts_loser e fun wins => out (sub.subset wins)

theorem awardRuns_pays (shares : List ℤ) (run : 1 < alive.length → r + shares.length ≤ scored.length)
    (positive : ∀ share ∈ shares, 0 ≤ share) (e : Engine n) :
    ∃ awards paid, awardRuns alive scored eligible r shares e = .ok awards (e.pay paid) ∧
      Pays.Out alive shares.sum paid := by
  induction shares generalizing r e with
  | nil => exact ⟨[], fun _ => 0, by rw [pay_zero]; rfl, by simp, by simp, by simp⟩
  | cons share rest ih =>
    obtain ⟨award, paid, ran, first⟩ := awardRun_pays distinct some among
      (fun many => (by have := run many; simp only [length_cons] at this; omega : r < scored.length))
      (positive share (.head _)) e
    obtain ⟨awards, more, ran', others⟩ := ih (r := r + 1)
      (fun many => by have := run many; simp only [length_cons] at this; omega)
      (fun s hs => positive s (.tail _ hs)) (e.pay paid)
    refine ⟨award :: awards, fun i => paid i + more i, ?_, first.add others⟩
    rw [awardRuns, bind_of_ok ran, bind_of_ok ran', pay_pay]
    rfl

end

section

variable {alive : List (Fin n)} {scored : List (RunScores n)} (distinct : alive.Nodup)
  (runs : 1 < alive.length → scored ≠ [])
include distinct runs

theorem awardPot_pays {pot : Pot n} (winnable : pot.Winnable alive) (e : Engine n) :
    ∃ result paid, awardPot alive scored pot e = .ok result (e.pay paid) ∧ Pays.Out alive pot.amount paid := by
  have some : 0 < if 1 < alive.length then max 1 scored.length else 1 := by split <;> omega
  obtain ⟨awards, paid, ran, out⟩ := awardRuns_pays distinct winnable.contested winnable.eligible
    (runShares pot.amount (if 1 < alive.length then max 1 scored.length else 1))
    (fun many => by
      have := length_pos_of_ne_nil (runs many)
      rw [runShares_length, if_pos many]
      show 0 + max 1 scored.length ≤ scored.length
      omega)
    (runShares_nonneg winnable.amount) e
  refine ⟨_, paid, by rw [awardPot, bind_of_ok ran]; rfl, ?_⟩
  rwa [runShares_total _ some] at out

theorem awardPots_pays (pots : List (Pot n)) (winnable : ∀ pot ∈ pots, pot.Winnable alive) (e : Engine n) :
    ∃ results paid, awardPots alive scored pots e = .ok results (e.pay paid) ∧
      Pays.Out alive (potsTotal pots) paid := by
  induction pots generalizing e with
  | nil => exact ⟨[], fun _ => 0, by rw [pay_zero]; rfl, by simp [potsTotal], by simp, by simp⟩
  | cons pot rest ih =>
    obtain ⟨result, paid, ran, first⟩ := awardPot_pays distinct runs (winnable pot (.head _)) e
    obtain ⟨results, more, ran', others⟩ := ih (fun p hp => winnable p (.tail _ hp)) (e.pay paid)
    refine ⟨result :: results, fun i => paid i + more i, ?_, first.add others⟩
    rw [awardPots, bind_of_ok ran, bind_of_ok ran', pay_pay]
    rfl

end

/-- A settled table: cards and players as they were, nothing in the pot, its chips back in the
stacks. -/
structure Settled (e e' : Engine n) : Prop where
  hands : e'.hands = e.hands
  street : e'.street = .idle
  cleared : e'.Cleared
  bank : e'.bank = e.bank
  solvent : e'.Solvent
  distinct : e'.Distinct
  board : 1 < e.contested.length → e'.board.length = 5

theorem paid_bank {e' : Engine n} {alive : List (Fin n)} {paid : Fin n → ℤ}
    (out : Pays.Out alive (potsTotal (e.layers alive)) paid)
    (chips : ∀ i, (e'.players i).stack = (e.players i).stack + paid i) (cleared : e'.Cleared) :
    e'.bank = e.bank := by
  have total := out.total
  rw [layers, potLayers_total] at total
  have each : ∀ i, (e'.players i).worth = (e.players i).stack + paid i := fun i => by
    rw [Player.worth, chips, (cleared i).1, (cleared i).2]
    ring
  rw [bank, Finset.sum_congr rfl fun i _ => each i, Finset.sum_add_distrib, total]
  simp only [bank, Player.worth, Finset.sum_add_distrib]
  ring

theorem completeBoard_hands (h : Fin n → Bool × Bool × List Card) (runs : ℕ) (tabled : Bool) :
    Keeps (fun e : Engine n => e.hands = h) (completeBoard runs tabled) :=
  completeBoard_keeps (nextStreet_hands h) (fun _ _ _ _ _ _ h => h) runs tabled

theorem settle_returns {runs : ℕ} (runsOk : runs = 1 ∨ runs = 2) (solvent : e.Solvent) (distinct : e.Distinct)
    (alive : e.contested ≠ []) (complete : 1 < e.contested.length → e.CanComplete runs) (forceTabled : Bool) :
    ∃ result e', settle runs forceTabled e = .ok result e' ∧ e.Settled e' := by
  obtain ⟨e0, returned⟩ : ∃ e0, e.returnUncalled = e0 := ⟨_, rfl⟩
  have hands : e0.hands = e.hands := returned ▸ hands_returnUncalled e
  have contested := contested_of_hands hands
  have layout : e0.layout = e.layout := returned ▸ congrArg Prod.snd (still_returnUncalled e)
  have board : e0.board = e.board := congrArg Layout.board layout
  have deck : e0.deck = e.deck := congrArg Layout.deck layout
  have street : e0.street = e.street := congrArg Layout.street layout
  have distinct0 : e0.Distinct := fun i => by rw [holes_of_hands hands, board, deck]; exact distinct i
  obtain ⟨boards, tabled, e1, completed, distinct1, scorable⟩ := completeBoard_returns runsOk distinct0
    (fun many => by
      have := complete (contested ▸ many)
      rwa [CanComplete, BoardFits, Enough, board, deck, street]) forceTabled
  have hands1 : e1.hands = e0.hands :=
    keeps_ok (P := fun s => s.hands = e0.hands) (completeBoard_hands e0.hands runs forceTabled) rfl completed
  have pays : e.Pays e1 := keeps_ok (completeBoard_pays e runs forceTabled) (returned ▸ pays_returnUncalled e) completed
  have solvent1 := pays_solvent pays solvent
  obtain ⟨scored, scores, some⟩ := scoreRuns_returns (e := e1) e0.contested boards fun many => by
    obtain ⟨nonempty, good⟩ := (scorable many).2
    exact ⟨nonempty, fun b hb => ⟨(good b hb).1, fun i => by rw [holes_of_hands hands1]; exact (good b hb).2 i⟩⟩
  obtain ⟨pots, paid, awarded, out⟩ := awardPots_pays (seatsWhere_nodup e0 _) some (e1.layers e0.contested)
    (potLayers_winnable (contested ▸ alive) (fun i => (solvent1 i).totalLive) (fun i => (solvent1 i).totalDead)) e1
  obtain ⟨shown, ⟨events, logged⟩, ended⟩ := settled_logged (e1.pay paid) e0.contested e.uncalled tabled scored pots
  refine ⟨_, _, settle_of_steps (returned ▸ completed) (returned ▸ scores) (returned ▸ awarded), ?_⟩
  rw [returned, ended, logged]
  refine ⟨?_, rfl, fun i => ⟨rfl, rfl⟩, ?_, fun i => ?_, distinct1, fun many => ?_⟩
  · exact hands1.trans hands
  · rw [← pays_bank pays]
    exact paid_bank out (fun i => rfl) (fun i => ⟨rfl, rfl⟩)
  · exact ⟨add_nonneg (solvent1 i).stack (out.nonneg i), le_refl 0, le_refl 0, le_refl 0⟩
  exact (scorable (contested ▸ many)).1

end Holdem.Engine
