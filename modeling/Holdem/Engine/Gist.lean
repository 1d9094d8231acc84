import Holdem.Engine.Reopening
import Holdem.Engine.SettleView

/-!
What a hand can still come to. `Engine.gist` leaves out what the rest of a hand never reads, and two
things it does: the level each seat acted at, which a round's marks make up for, and the last aggressor
on the river.
-/

namespace Holdem

open Player

def Player.gist (p : Player) : Player :=
  { p with
    hole := [], lastAction := .none, won := 0, sittingOut := false, owesBb := false, owesSb := false
    waitForBb := false, postEntry := false }

namespace Engine

variable {n : ℕ} {e f : Engine n} {i q : Fin n} {aggr : Prop} {real : Finset ℤ} {x y : Engine n} {target : ℤ}

open Method

def gist (e : Engine n) : Engine n :=
  { e with
    players := fun i => (e.players i).gist
    sbI := none, bbI := none, deck := [], board2 := none, handNo := 0, publicEvents := [], straddler := none
    actedAt := fun _ => none, riverAggr := none }

def Kin (e f : Engine n) : Prop := e.gist = f.gist

theorem Kin.reads {α : Type} (h : Kin e f) (g : Engine n → α) : g e.gist = g f.gist := congrArg g h

theorem Kin.player (h : Kin e f) (i : Fin n) : (e.players i).gist = (f.players i).gist :=
  h.reads fun v => v.players i

theorem Kin.seatsWhere (h : Kin e f) {p : Player → Bool} (blurs : ∀ q, p q.gist = p q) :
    e.seatsWhere p = f.seatsWhere p := by
  unfold Engine.seatsWhere
  congr 1
  funext i
  rw [← blurs, h.player i, blurs]

theorem kin_update {g : Player → Player} (blurs : ∀ p, (g p).gist = (g p.gist).gist) (h : Kin e f) (i : Fin n) :
    Kin (e.update i g) (f.update i g) := by
  have players : (fun j => ((e.update i g).players j).gist) = fun j => ((f.update i g).players j).gist := by
    funext j
    by_cases here : j = i
    · rw [here, update_same, update_same, blurs, h.player, ← blurs]
    rw [update_other _ _ here, update_other _ _ here, h.player]
  have left : (e.update i g).gist = { e.gist with players := fun j => ((f.update i g).players j).gist } :=
    congrArg (fun players => { e.gist with players }) players
  exact left.trans (h.reads fun v => { v with players := fun j => ((f.update i g).players j).gist })

theorem kin_emit (body body' : EventBody n) (h : Kin e f) : Kin (e.emit body) (f.emit body') := h

theorem paced_gist : e.Paced ↔ { e.gist with actedAt := e.actedAt }.Paced := by
  refine ⟨fun ⟨round, marked⟩ => ⟨?_, marked.imp id fun h => ⟨h.level, h.asked, h.barred, h.rule⟩⟩,
    fun ⟨round, marked⟩ => ⟨?_, marked.imp id fun h => ⟨h.level, h.asked, h.barred, h.rule⟩⟩⟩
  · exact ⟨⟨round.blind, round.ready, round.low, round.high, round.minRaise⟩, round.need, round.matched, round.turn, round.closed⟩
  exact ⟨⟨round.blind, round.ready, round.low, round.high, round.minRaise⟩, round.need, round.matched, round.turn, round.closed⟩

theorem Paced.kin (h : e.Paced) (kin : Kin e f) (acted : e.actedAt = f.actedAt) : f.Paced := by
  have gist : e.gist = f.gist := kin
  rw [paced_gist, gist, acted] at h
  exact paced_gist.mpr h

theorem kin_actDone (h : Kin e f) (i : Fin n) : Kin (e.actDone i) (f.actDone i) :=
  h.reads fun v => (v.actDone i).gist

theorem kin_fold (h : Kin e f) (i : Fin n) : Kin (e.fold i) (f.fold i) :=
  kin_update (g := fun p => { p with folded := true, lastAction := .fold }) (fun _ => rfl) h i

theorem kin_call (h : Kin e f) (i : Fin n) : Kin (e.call i) (f.call i) := by
  have amount : e.toCall (e.players i) = f.toCall (f.players i) := h.reads fun v => v.toCall (v.players i)
  unfold call
  dsimp only
  rw [amount]
  split
  · exact kin_update (g := fun p => p.did .check) (fun _ => rfl) h i
  exact kin_update (g := callChips (f.toCall (f.players i))) (fun _ => rfl) h i

theorem acted_or_free (h : Kin e f) (left : e.Marked) (right : f.Marked) (able : (e.players q).canAct = true) :
    e.actedAt q = f.actedAt q ∨ q ∉ e.noRaise ∧ (∀ bet, e.actedAt q = some bet → e.minRaise ≤ e.currentBet - bet) ∧
      ∀ bet, f.actedAt q = some bet → e.minRaise ≤ e.currentBet - bet := by
  have bet : (e.players q).bet = (f.players q).bet := h.reads fun v => (v.players q).bet
  have able' : (f.players q).canAct = true := (h.reads fun v => (v.players q).canAct).symm.trans able
  have need : e.needToAct = f.needToAct := h.reads needToAct
  have marked : e.noRaise = f.noRaise := h.reads noRaise
  have current : e.currentBet = f.currentBet := h.reads currentBet
  have least : e.minRaise = f.minRaise := h.reads minRaise
  have both : e.actedAt q ≠ none → f.actedAt q ≠ none → e.actedAt q = f.actedAt q := by
    intro some some'
    obtain ⟨level, at_⟩ := Option.ne_none_iff_exists'.mp some
    obtain ⟨level', at'⟩ := Option.ne_none_iff_exists'.mp some'
    rw [at_, at', ← left.level q level at_, ← right.level q level' at', bet]
  by_cases asked : q ∈ e.needToAct
  · by_cases barred : q ∈ e.noRaise
    · exact Or.inl (both (left.barred q barred) (right.barred q (marked ▸ barred)))
    refine Or.inr ⟨barred, fun level at_ => ?_, fun level at_ => ?_⟩
    · by_contra less
      exact barred ((left.rule q asked).mpr ⟨level, at_, by omega⟩)
    by_contra less
    exact barred (marked ▸ (right.rule q (need ▸ asked)).mpr ⟨level, at_, by omega⟩)
  exact Or.inl (both (left.asked q able asked) (right.asked q able' (need ▸ asked)))

theorem shortRaise_barred (h : Kin e f) (left : e.Marked) (right : f.Marked) (kin : Kin x y)
    (grows : e.currentBet ≤ x.currentBet) (least : x.minRaise = e.minRaise) (least' : y.minRaise = f.minRaise)
    (acted : x.actedAt = e.actedAt) (acted' : y.actedAt = f.actedAt) (barred : x.noRaise = e.noRaise)
    (barred' : y.noRaise = f.noRaise) (others : ∀ q, q ≠ i → x.players q = e.players q) :
    (x.shortRaise i).noRaise = (y.shortRaise i).noRaise := by
  have same : e.minRaise = f.minRaise := h.reads minRaise
  have marked : e.noRaise = f.noRaise := h.reads noRaise
  have behind : x.behind i = y.behind i := kin.reads fun v => v.behind i
  have current : x.currentBet = y.currentBet := kin.reads currentBet
  ext q
  rw [mem_shortRaise, mem_shortRaise, ← behind, ← current, acted, acted', barred, barred', least, least', ← same, ← marked]
  by_cases back : q ∈ x.behind i
  · obtain ⟨able, other, -⟩ := (Finset.mem_filter.mp back).2
    rw [others q other] at able
    rw [decide_eq_true back]
    obtain equal | ⟨free, grown, grown'⟩ := acted_or_free h left right able
    · rw [equal]
    refine ⟨fun member => absurd member (not_barred free _ fun bet at' => ?_),
      fun member => absurd member (not_barred free _ fun bet at' => ?_)⟩
    · exact (grown bet at').trans (by omega)
    exact (grown' bet at').trans (by omega)
  rw [decide_eq_false back]

theorem kin_shortRaise (kin : Kin x y) (barred : (x.shortRaise i).noRaise = (y.shortRaise i).noRaise) :
    Kin (x.shortRaise i) (y.shortRaise i) := by
  have right : (y.shortRaise i).gist = { (y.gist.shortRaise i).gist with noRaise := (y.shortRaise i).noRaise } := rfl
  show (x.shortRaise i).gist = _
  rw [right, ← barred]
  exact kin.reads fun v => { (v.shortRaise i).gist with noRaise := (x.shortRaise i).noRaise }

theorem kin_raiseTo (h : Kin e f) (left : e.Marked) (right : f.Marked) (round : e.Round)
    (tops : e.currentBet < target) (room : target ≤ (e.players i).bet + (e.players i).stack) :
    Kin (e.raiseTo i (target - (e.players i).bet)) (f.raiseTo i (target - (e.players i).bet)) := by
  have level : e.currentBet = f.currentBet := h.reads currentBet
  have least : e.minRaise = f.minRaise := h.reads minRaise
  have high := round.high i
  obtain ⟨g, chips⟩ : ∃ g, raiseChips (decide (f.currentBet = 0)) (target - (e.players i).bet) = g := ⟨_, rfl⟩
  have raised : Kin (e.update i g) (f.update i g) := by
    subst chips
    exact kin_update (fun _ => rfl) h i
  have bet : ((e.update i g).players i).bet = target := by
    rw [update_same, ← chips]
    simp only [raiseChips, did, Player.commit]
    omega
  have bet' : ((f.update i g).players i).bet = target := by
    rw [← bet]
    exact (raised.reads fun v => (v.players i).bet).symm
  unfold raiseTo
  rw [level] at tops
  simp only [level, least, chips, bet, bet', if_pos tops]
  have stands : Kin ((e.update i g).raiseBet i) ((f.update i g).raiseBet i) := raised.reads fun v => (v.raiseBet i).gist
  refine kin_emit _ _ ?_
  split
  · exact stands.reads fun v => (v.reopen (target - f.currentBet)).gist
  refine kin_shortRaise stands (shortRaise_barred h left right stands ?_ rfl rfl rfl rfl rfl rfl fun q other => update_other e g other)
  show e.currentBet ≤ ((e.update i g).players i).bet
  omega

theorem raiseTo_river (high : (e.players i).bet ≤ e.currentBet) (tops : e.currentBet < target)
    (room : target ≤ (e.players i).bet + (e.players i).stack) :
    (e.raiseTo i (target - (e.players i).bet)).riverAggr = if e.street = .river then some i else e.riverAggr := by
  have bet : ((e.update i (raiseChips (decide (e.currentBet = 0)) (target - (e.players i).bet))).players i).bet = target := by
    rw [update_same]
    simp only [raiseChips, did, Player.commit]
    omega
  unfold raiseTo
  dsimp only
  rw [bet, if_pos tops]
  split <;> rfl

theorem call_river (e : Engine n) (i : Fin n) : (e.call i).riverAggr = e.riverAggr := by
  unfold call
  dsimp only
  split <;> rfl

structure Same (aggr : Prop) (e f : Engine n) : Prop where
  kin : Kin e f
  river : aggr → e.riverAggr = f.riverAggr

structure Agree (aggr : Prop) (real : Finset ℤ) (e f : Engine n) : Prop extends Same aggr e f where
  left : e.Paced
  right : f.Paced
  holes : ∀ i : Fin n, (i.val : ℤ) ∈ real → (e.players i).hole = (f.players i).hole

theorem Agree.moved {e' f' : Engine n} {action action' : Action} (h : Agree aggr real e f) (turn : e.actor = some i)
    (move : Move e i action e') (move' : Move f i action' f') (kin : Kin e' f')
    (river : aggr → e'.riverAggr = f'.riverAggr) : Agree aggr real (e'.actDone i) (f'.actDone i) where
  kin := kin_actDone kin i
  river := river
  left := move_paced h.left turn move
  right := move_paced h.right ((h.kin.reads Engine.actor).symm.trans turn) move'
  holes j known := by
    have kept : (e'.players j).hole = (e.players j).hole := congrArg (fun t => t.2.holes j) (move_still move)
    have kept' : (f'.players j).hole = (f.players j).hole := congrArg (fun t => t.2.holes j) (move_still move')
    show (e'.players j).hole = (f'.players j).hole
    rw [kept, kept', h.holes j known]

theorem Agree.raise (h : Agree aggr real e f) (turn : e.actor = some i) (may : (e.legal i).canRaise = true) (amount : ℤ) :
    Agree aggr real ((e.raise i amount).actDone i) ((f.raise i amount).actDone i) := by
  have legal : e.legal i = f.legal i := h.kin.reads fun v => v.legal i
  have bet : (e.players i).bet = (f.players i).bet := h.kin.reads fun v => (v.players i).bet
  have round := h.left.round
  have tops := legal_minTo_gt round.blind round.minRaise (round.low i) may
  have range := legal_minTo_le e i
  have room := legal_maxTo_le e i
  have high := round.high i
  obtain ⟨target, at_⟩ : ∃ target, max (min amount (e.legal i).maxTo) (e.legal i).minTo = target := ⟨_, rfl⟩
  have raised : e.raise i amount = e.raiseTo i (target - (e.players i).bet) := by
    unfold Engine.raise
    dsimp only
    rw [at_, if_neg (by omega)]
  have raised' : f.raise i amount = f.raiseTo i (target - (e.players i).bet) := by
    unfold Engine.raise
    dsimp only
    rw [← legal, ← bet, at_, if_neg (by omega)]
  have street : e.street = f.street := h.kin.reads Engine.street
  have current : e.currentBet = f.currentBet := h.kin.reads Engine.currentBet
  have stack : (e.players i).stack = (f.players i).stack := h.kin.reads fun v => (v.players i).stack
  have kin := kin_raiseTo h.kin (h.left.open turn) (h.right.open ((h.kin.reads Engine.actor).symm.trans turn)) round
    (show e.currentBet < target by omega) (show target ≤ (e.players i).bet + (e.players i).stack by omega)
  refine h.moved turn (move_raise amount may) (move_raise amount (legal ▸ may)) (by rw [raised, raised']; exact kin) fun same => ?_
  rw [raised, raised', raiseTo_river high (by omega) (by omega), bet, raiseTo_river (by omega) (by omega) (by omega),
    h.river same, street]

theorem agree_acts : Acts (Agree (n := n) aggr real) where
  actor h := h.kin.reads Engine.actor
  able h i := h.kin.reads fun v => (v.players i).canAct
  limit h := h.kin.reads Engine.bettingStructure
  legal h i := h.kin.reads fun v => v.legal i
  fold h turn _ := h.moved turn .fold .fold (kin_fold h.kin _) h.river
  call h turn _ := h.moved turn .call .call (kin_call h.kin _) fun same => by rw [call_river, call_river, h.river same]
  raise amount h turn _ may := h.raise turn may amount

theorem clearBets_gist (e : Engine n) : e.clearBets.gist = e.gist.clearBets :=
  congrArg (fun players => { e.gist.clearBets with players }) (funext fun _ => apply_ite Player.gist ..)

theorem kin_clearBets (h : Kin e f) : Kin e.clearBets f.clearBets := by
  show e.clearBets.gist = f.clearBets.gist
  rw [clearBets_gist, clearBets_gist, h]

theorem openRound_gist (e : Engine n) (first : Fin n) : (e.openRound first).gist = e.gist.openRound first :=
  apply_ite gist ..

theorem kin_openRound (h : Kin e f) (first : Fin n) : Kin (e.openRound first) (f.openRound first) := by
  show (e.openRound first).gist = (f.openRound first).gist
  rw [openRound_gist, openRound_gist, h]

theorem openRound_river (e : Engine n) (first : Fin n) : (e.openRound first).riverAggr = e.riverAggr := by
  unfold openRound
  dsimp only
  split <;> rfl

theorem Agree.street {k : ℕ} {street : Street} {left right cards : List Card} (h : Agree aggr real e f) (closed : e.actor = none)
    (deals : e.street.deals = some (k, street)) (length : cards.length = k)
    (deck : e.deck = left ++ cards) (deck' : f.deck = right ++ cards) :
    ∃ e' f', nextStreet e = .ok () e' ∧ nextStreet f = .ok () f' ∧ Agree aggr real e' f' := by
  have same : e.street = f.street := h.kin.reads Engine.street
  have board : e.board = f.board := h.kin.reads Engine.board
  have button : e.button = f.button := h.kin.reads Engine.button
  have closed' : f.actor = none := (h.kin.reads Engine.actor).symm.trans closed
  have ran := nextStreet_of_deck deals deck length
  have ran' := nextStreet_of_deck (same ▸ deals) deck' length
  refine ⟨_, _, ran, ran', ⟨?_, ?_⟩, nextStreet_paced h.left closed ran, nextStreet_paced h.right closed' ran', fun i known => ?_⟩
  · have laid : Kin { e.clearBets with deck := left, board := e.board ++ cards, street }
        { f.clearBets with deck := right, board := f.board ++ cards, street } := by
      rw [board]
      exact (kin_clearBets h.kin).reads fun v => { v with board := f.board ++ cards, street }
    unfold openStreet
    change Kin (openRound _ (Circle.step e.button 1)) (openRound _ (Circle.step f.button 1))
    rw [button]
    exact kin_openRound (kin_emit _ _ laid) _
  · intro plays
    unfold openStreet
    rw [openRound_river, openRound_river]
    exact h.river plays
  have kept := holes_of_hands (keeps_ok (P := fun v => v.hands = e.hands) (nextStreet_hands e.hands) rfl ran) i
  have kept' := holes_of_hands (keeps_ok (P := fun v => v.hands = f.hands) (nextStreet_hands f.hands) rfl ran') i
  rw [kept, kept', h.holes i known]

theorem same_settles {tabled : Bool} (plays : tabled = false → aggr) : Settles tabled (Same (n := n) aggr) where
  uncalled h := h.kin.reads Engine.uncalled
  contested h := h.kin.seatsWhere fun _ => rfl
  board h := h.kin.reads Engine.board
  button h := h.kin.reads Engine.button
  layers h alive := h.kin.reads fun v => v.layers alive
  order {e f} h := by
    cases tabled with
    | true =>
      have blur : ∀ e : Engine n, e.showOrder true = e.gist.showOrder true := fun e => by
        unfold showOrder
        cases e.riverAggr <;> rfl
      rw [blur e, blur f]
      exact h.kin.reads fun v => v.showOrder true
    | false =>
      have river := h.river (plays rfl)
      have blur : ∀ e : Engine n, e.showOrder false = { e.gist with riverAggr := e.riverAggr }.showOrder false := fun e => rfl
      rw [blur e, blur f, river]
      exact h.kin.reads fun v => { v with riverAggr := f.riverAggr }.showOrder false
  giveBack h i back := ⟨kin_emit _ _ (kin_update (fun _ => rfl) h.kin i), h.river⟩
  showdown h := ⟨h.kin.reads fun v => v.atShowdown.gist, h.river⟩
  pay h paid := ⟨h.kin.reads fun v => (v.pay paid).gist, h.river⟩
  clear h _ _ := ⟨h.kin.reads fun v => v.clearTotals.gist, h.river⟩

end Engine

end Holdem
