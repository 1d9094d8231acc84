import Holdem.Engine.Bounds

/-!
Author sequence numbers of a peer's messages. `Session._send_hostless` numbers them per hand and seat,
and a receiver admits a number below a limit that grows with the chips.
-/

namespace Holdem.P2p

open Finset Method TableOp

def authorSeqStart : ℤ := 0

def authorSeqLimit : ℤ := 4096

/-- `Session._author_seq_out`: the next number of each stream that has sent. -/
abbrev AuthorSeqOut := ℤ × ℤ → Option ℤ

/-- The stamp of `_send_hostless`: the number the message carries, and the counters after it. -/
def sendHostless (out : AuthorSeqOut) (hand seat : ℤ) : ℤ × AuthorSeqOut :=
  let nxt := (out (hand, seat)).getD authorSeqStart
  (nxt, Function.update out (hand, seat) (some (nxt + 1)))

/-- `_author_sequence_shape_ok`. A number is absent where the body has no integer, the bank where the
table's configuration has none. -/
def authorSequenceShapeOk (compat : Bool) (totalChips : Option ℤ) (got : Option ℤ) : Bool :=
  match got with
  | none => compat
  | some got =>
    let extra := match totalChips with
      | some chips => if 0 < chips then chips else 0
      | none => 0
    decide (authorSeqStart ≤ got ∧ got < authorSeqLimit + extra)

variable {n : ℕ}

/-- The numbers on the bet actions of seat `i`'s peer: `send_bet_action` sends one message for each action
that the engine accepted. -/
def betActionSeqs (hand : ℤ) (i : Fin n) : AuthorSeqOut → List (TableOp n) → List ℤ
  | _, [] => []
  | out, op :: rest =>
    if op.actsFor i then
      let (nxt, out) := sendHostless out hand i.val
      nxt :: betActionSeqs hand i out rest
    else betActionSeqs hand i out rest

theorem betActionSeqs_range (hand : ℤ) (i : Fin n) (ops : List (TableOp n)) (out : AuthorSeqOut) :
    ∀ got ∈ betActionSeqs hand i out ops, (out (hand, i.val)).getD authorSeqStart ≤ got ∧
      got < (out (hand, i.val)).getD authorSeqStart + ops.countP (actsFor i) := by
  induction ops generalizing out with
  | nil => intro got member; cases member
  | cons op rest ih =>
    intro got member
    unfold betActionSeqs at member
    split at member
    · rename_i acts
      rw [List.countP_cons_of_pos acts]
      obtain rfl | later := List.mem_cons.mp member
      · omega
      have := ih _ got later
      simp only [Function.update_self, Option.getD_some] at this
      omega
    rename_i acts
    rw [List.countP_cons_of_neg acts]
    exact ih out got member

/-- Every hand is finite. A seat acts at most as often as it has chips behind after the posts, and
five times more; all seats together at most as often as there are chips, and five times more for each
seat. So the numbers of a peer's bet actions stay below what a receiver admits. -/
theorem hand_bounded {e e' : Engine n} {straddleFn : Option (Fin n → Bool)} {deck : List Card}
    (chips : ∀ i, 0 ≤ (e.players i).stack) (small : 0 < e.sb) (big : e.sb ≤ e.bb)
    (started : Engine.startHand straddleFn deck e = .ok true e') (ops : List (TableOp n))
    (along : Along (fun e op => op.Betting e ∧ op.BeforeShowdown e) e' ops) :
    (∀ i, (ops.countP (actsFor i) : ℤ) ≤ (e'.players i).stack + 5) ∧
    (ops.countP isAct : ℤ) ≤ ∑ i, (e.players i).stack + 5 * n ∧
    ∀ hand i compat, ∀ got ∈ betActionSeqs hand i (fun _ => none) ops,
      authorSequenceShapeOk compat (some (∑ i, (e.players i).stack)) (some got) = true := by
  have each := Engine.acts_bounded chips (le_of_lt small) (by omega) started ops along
  have behind : ∀ i, (e'.players i).stack ≤ (e.players i).stack := fun i => by
    obtain ⟨worth, solvent⟩ := Engine.startHand_chips (le_of_lt small) (by omega) started i
    obtain ⟨-, -, live, dead⟩ := solvent (chips i)
    unfold Player.worth at worth
    omega
  refine ⟨each, ?_, fun hand i compat got member => ?_⟩
  · have total : (ops.countP isAct : ℤ) = ∑ i : Fin n, (ops.countP (actsFor i) : ℤ) := by
      rw [Engine.acts_total ops along]
      push_cast
      rfl
    calc (ops.countP isAct : ℤ) = ∑ i : Fin n, (ops.countP (actsFor i) : ℤ) := total
      _ ≤ ∑ i : Fin n, ((e.players i).stack + 5) :=
        sum_le_sum fun i _ => le_trans (each i) (by have := behind i; omega)
      _ = ∑ i, (e.players i).stack + 5 * n := by
        rw [sum_add_distrib, sum_const, card_univ, Fintype.card_fin, nsmul_eq_mul]
        ring
  obtain ⟨low, high⟩ := betActionSeqs_range hand i ops (fun _ => none) got member
  have one : (e.players i).stack ≤ ∑ i, (e.players i).stack :=
    single_le_sum (fun j _ => chips j) (mem_univ i)
  have mine := each i
  have stack := behind i
  have positive := chips i
  simp only [Option.getD_none, authorSeqStart] at low high
  simp only [authorSequenceShapeOk, authorSeqStart, authorSeqLimit]
  split <;> rw [decide_eq_true_eq] <;> omega

theorem hand_bounded_duel :
    value (Engine.startHand none fullDeck duel) = some true ∧
      ((([.act 0 .call (.whole 0), .act 1 .call (.whole 0)] : List (TableOp 2)).countP (actsFor 0) : ℕ) : ℤ) ≤
        ((after (Engine.startHand none fullDeck duel)).players 0).stack + 5 :=
  ⟨by decide +kernel, (hand_bounded (e := duel) (by decide) (by decide) (by decide)
    (eq_ok_of_value (by decide +kernel)) _ (by decide +kernel)).1 0⟩

/-- Seat 1 has one chip behind once it has posted the big blind. -/
def shortDuel : Engine 2 :=
  Engine.init (fun i => if i = 0 then 100 else 3) 1 1 2 .noLimit false false

def checkedStreet : List (TableOp 2) :=
  [.nextStreet, .act 1 .call (.whole 0), .act 0 .call (.whole 0)]

/-- Every street is checked, and so is three times the round that `next_street` opens at the showdown. -/
def reopened : List (TableOp 2) :=
  [.act 0 .call (.whole 0), .act 1 .call (.whole 0)] ++ (List.replicate 3 checkedStreet).flatten ++
    .nextStreet :: (List.replicate 3 checkedStreet).flatten

theorem showdown_reopened :
    let start := after (Engine.startHand none fullDeck shortDuel)
    value (Engine.startHand none fullDeck shortDuel) = some true ∧
      Along (fun e op => op.Betting e) start reopened ∧
      (start.players 1).stack + 5 < (reopened.countP (actsFor 1) : ℕ) := by
  decide +kernel

end Holdem.P2p
