import Mathlib.Data.Rat.Floor
import Holdem.Engine.Offer
import Holdem.Engine.Bounds

/-!
`Brain`: the bot of one seat. What it draws, what it estimates and how its floats compare may be
anything; what it returns, `legal` offers and `act` takes.
-/

namespace Holdem

variable {n : ℕ}

inductive Style where
  | nit | solid | loose | maniac | hero
  deriving DecidableEq

/-- A row of `STYLES`. -/
structure Temper where
  opens : ℚ
  calls : ℚ
  three : ℚ
  agg : ℚ
  bluff : ℚ
  cbet : ℚ

def Style.temper : Style → Temper
  | .nit => ⟨11, 9, 15, 0.30, 0.04, 0.45⟩
  | .solid | .hero => ⟨9, 7, 12, 0.55, 0.12, 0.62⟩
  | .loose => ⟨6, 5, 10, 0.50, 0.20, 0.58⟩
  | .maniac => ⟨4, 3, 8, 0.85, 0.42, 0.85⟩

/-- What a decision rests on besides the table: the estimate of `equity`, the draws by their place in the
source, and how floats of these values compare and truncate. -/
structure Outcomes where
  equity : Option ℚ
  uniform : ℚ → ℚ
  random : ℕ → ℚ
  lt : ℚ → ℚ → Bool
  le : ℚ → ℚ → Bool
  int : ℚ → ℤ

namespace Brain

def hv : ℕ → ℚ
  | 14 => 10
  | 13 => 8
  | 12 => 7
  | 11 => 6
  | v => v / 2

/-- The Chen formula; the unpacking takes two cards. -/
def chen : List Card → Except PyError ℤ
  | [x, y] =>
    let a := max x.v y.v
    let b := min x.v y.v
    let s := if a = b then max (hv a * 2) 5 else hv a
    let s := if x.s = y.s then s + 2 else s
    let gap := a - b - 1
    let less : ℚ := if gap = 1 then 1 else if gap = 2 then 2 else if gap = 3 then 4 else if 4 ≤ gap then 5 else 0
    let more : ℚ := if gap ≤ 1 ∧ a < 12 then 1 else 0
    .ok ⌈if a = b then s else s - less + more⌉
  | _ => .error (.valueError "expected two values to unpack")

def divide (a b : ℤ) : Except PyError ℚ := if b = 0 then .error .zeroDivisionError else .ok (a / b)

theorem divide_ok {a b : ℤ} (nonzero : b ≠ 0) : divide a b = .ok (a / b) := if_neg nonzero

variable (o : Outcomes) (e : Engine n) (i : Fin n) (style : Style) (level : ℤ)

/-- `_size`: inside the range, and no stub smaller than a big blind is left behind. -/
def size (lg : Legal) (target : ℤ) : ℤ :=
  let target := max lg.minTo (min target lg.maxTo)
  if lg.maxTo - target < e.bb then lg.maxTo else target

/-- The seats still to act behind; the big blind counts only in a raised pot. -/
def after : ℕ := ((List.range (n - 1)).map fun k => Circle.step i (k + 1)).countP fun q =>
  ¬(some q = e.bbI ∧ e.currentBet ≤ e.bb) ∧ (e.players q).canAct = true ∧ q ∈ e.needToAct

def limpers : ℕ := (List.finRange n).countP fun q =>
  (e.players q).inSeat = true ∧ (e.players q).folded = false ∧ 0 < (e.players q).bet ∧ some q ≠ e.sbI ∧ some q ≠ e.bbI

def posAdj (late : Bool) : ℚ :=
  let adj : ℚ := if late then -1.5 else 0
  let adj := if level = 1 then 0 else adj
  if level = 3 then adj * 1.4 else adj

/-- Nothing to call before the flop: limped to, or the big blind's option. -/
def opening (lg : Legal) (sc : ℤ) (openT : ℚ) : Except PyError (Action × ℤ) :=
  if lg.canRaise && (o.le (openT + 1) sc && o.lt (o.random 0) 0.85) then
    .ok (.raise, size e lg (max (o.int (e.bb * (2.5 + limpers e))) lg.minTo))
  else if lg.canRaise && o.lt (o.random 1) (style.temper.bluff * 0.5) then .ok (.raise, size e lg (o.int (e.bb * 2.5)))
  else .ok (.call, 0)

def answer (lg : Legal) (sc : ℤ) (callT threeT : ℚ) : Except PyError (Action × ℤ) :=
  let st := style.temper
  let raised := e.bb < e.currentBet
  if lg.canRaise && (o.le threeT sc && o.lt (o.random 2) (st.agg + 0.15)) then
    .ok (.raise, size e lg (o.int (e.currentBet * if raised then 2.6 else 3)))
  else do
    let odds ← divide lg.toCall (lg.pot + lg.toCall)
    if o.le (callT + (if raised then 2.5 else 0) + odds * 6) sc then .ok (.call, 0)
    else if lg.toCall ≤ e.bb ∧ o.le (callT - 2) sc ∧ o.lt (o.random 3) 0.6 then .ok (.call, 0)
    else if lg.canRaise && o.lt (o.random 4) (st.bluff * 0.25) then .ok (.raise, size e lg (o.int (e.currentBet * 3)))
    else .ok (.fold, 0)

def preflop (lg : Legal) : Except PyError (Action × ℤ) := do
  let sc ← chen (e.players i).hole
  let late := Decidable.decide (after e i ≤ 1)
  let adj := posAdj level late
  let callT := style.temper.calls + adj
  if lg.canRaise && (o.le ((e.players i).stack / max 1 e.bb) 12 && (o.le (callT + 1) sc || o.le (callT - 1) sc && late)) then
    .ok (.raise, lg.maxTo)
  else if lg.toCall = 0 then opening o e style lg sc (style.temper.opens + adj)
  else answer o e style lg sc callT (style.temper.three + adj)

def unopposed (lg : Legal) (eq : ℚ) : Except PyError (Action × ℤ) :=
  let st := style.temper
  let chance := if o.lt 0.78 eq then 0.9 * st.agg + 0.1 else if o.lt 0.58 eq then st.cbet
    else if o.lt 0.42 eq then st.cbet * 0.4 else st.bluff
  let frac := if o.lt 0.7 eq then 0.75 else if o.lt 0.45 eq then 0.6 else 0.55
  if lg.canRaise && o.lt (o.random 5) chance then
    .ok (.raise, size e lg (o.int (lg.pot * if style = .maniac then frac * 1.3 else frac)))
  else .ok (.call, 0)

def facing (lg : Legal) (eq : ℚ) : Except PyError (Action × ℤ) := do
  let st := style.temper
  let potOdds ← divide lg.toCall (lg.pot + lg.toCall)
  if lg.canRaise && (o.lt 0.66 eq && o.lt 0.12 (eq - potOdds) && o.lt (o.random 6) st.agg) then
    .ok (.raise, size e lg (o.int (e.currentBet + lg.pot * if o.lt 0.8 eq then 0.85 else 0.65)))
  else if lg.canRaise && (o.lt eq 0.45 && o.lt (o.random 7) (st.bluff * 0.35)) then
    .ok (.raise, size e lg (o.int (e.currentBet + lg.pot * 0.7)))
  else if o.le (potOdds + 0.02) eq then .ok (.call, 0)
  else if o.le lg.toCall (lg.pot * 0.12) && o.lt 0.25 eq && o.lt (o.random 8) 0.55 then .ok (.call, 0)
  else .ok (.fold, 0)

/-- The estimate as the seat reads it: weak seats misread their hand. -/
def read : ℚ :=
  let eq := o.equity.getD 0.3
  if level = 1 then min 1 (max 0 (eq + o.uniform 0.18))
  else if level = 2 then min 1 (max 0 (eq + o.uniform 0.07)) else eq

def decide : Except PyError (Action × ℤ) :=
  let lg := e.legal i
  if e.street = .preflop then preflop o e i style level lg
  else if lg.toCall = 0 then unopposed o e style lg (read o level)
  else facing o e style lg (read o level)

/-- It returns a choice that respects what `legal` says: no fold for nothing, no raise out of range. -/
inductive Offers : Except PyError (Action × ℤ) → Prop
  | fold (owes : (e.legal i).toCall ≠ 0) : Offers (.ok (.fold, 0))
  | call : Offers (.ok (.call, 0))
  | raise (may : (e.legal i).canRaise = true) {x : ℤ} (low : (e.legal i).minTo ≤ x) (high : x ≤ (e.legal i).maxTo) :
    Offers (.ok (.raise, x))

variable {e i}

theorem offers_ite {c : Prop} [Decidable c] {a b : Except PyError (Action × ℤ)} (yes : c → Offers e i a)
    (no : ¬c → Offers e i b) : Offers e i (if c then a else b) := by
  split
  · exact yes ‹_›
  · exact no ‹_›

theorem offers_size {b : Bool} (target : ℤ) (test : ((e.legal i).canRaise && b) = true) :
    Offers e i (.ok (.raise, size e (e.legal i) target)) := by
  have range := Engine.legal_minTo_le e i
  apply Offers.raise (Bool.and_eq_true_iff.mp test).1 <;> unfold size <;> dsimp only <;> split <;> omega

theorem unopposed_offers (eq : ℚ) : Offers e i (unopposed o e style (e.legal i) eq) := by
  exact offers_ite (offers_size _) (fun _ => .call)

section Paid

variable (owes : (e.legal i).toCall ≠ 0) (paid : (e.legal i).pot + (e.legal i).toCall ≠ 0)

include owes paid

theorem facing_offers (eq : ℚ) : Offers e i (facing o e style (e.legal i) eq) := by
  unfold facing
  rw [divide_ok paid]
  apply offers_ite (offers_size _)
  intro
  apply offers_ite (offers_size _)
  intro
  apply offers_ite (fun _ => .call)
  intro
  exact offers_ite (fun _ => .call) (fun _ => .fold owes)

theorem answer_offers (sc : ℤ) (callT threeT : ℚ) : Offers e i (answer o e style (e.legal i) sc callT threeT) := by
  unfold answer
  apply offers_ite (offers_size _)
  intro
  rw [divide_ok paid]
  apply offers_ite (fun _ => .call)
  intro
  apply offers_ite (fun _ => .call)
  intro
  exact offers_ite (offers_size _) (fun _ => .fold owes)

end Paid

theorem opening_offers (sc : ℤ) (openT : ℚ) : Offers e i (opening o e style (e.legal i) sc openT) := by
  apply offers_ite (offers_size _)
  intro
  exact offers_ite (offers_size _) (fun _ => .call)

theorem decide_offers (held : (e.players i).hole.length = 2)
    (paid : (e.legal i).toCall ≠ 0 → (e.legal i).pot + (e.legal i).toCall ≠ 0) : Offers e i (decide o e i style level) := by
  apply offers_ite
  · intro
    obtain ⟨x, y, cards⟩ := List.length_eq_two.mp held
    unfold preflop
    rw [cards]
    apply offers_ite
    · intro test
      exact .raise (Bool.and_eq_true_iff.mp test).1 (Engine.legal_minTo_le e i) (le_refl _)
    intro
    apply offers_ite
    · intro
      exact opening_offers o style _ _
    · intro owes
      exact answer_offers o style owes (paid owes) _ _ _
  intro
  apply offers_ite
  · intro
    exact unopposed_offers o style _
  · intro owes
    exact facing_offers o style owes (paid owes) _

end Brain

namespace Engine

variable {e e' : Engine n} {i : Fin n} {straddleFn : Option (Fin n → Bool)} {deck : List Card} {u : Unit}

open Method TableOp

theorem act_offered (turn : e.actor = some i) (able : (e.players i).canAct = true) {action : Action} {x : ℤ}
    (offers : Brain.Offers e i (.ok (action, x))) : ∃ e', act i action (.whole x) e = .ok () e' := by
  cases offers with
  | fold owes => exact ⟨_, act_performs turn able .fold _⟩
  | call => exact ⟨_, act_performs turn able .call _⟩
  | raise may low high =>
    refine ⟨_, (act_raise turn able x).mpr ⟨may, ?_, rfl⟩⟩
    by_cases limit : e.bettingStructure = .fixedLimit
    · exact checkAmount_fixed limit _ _
    · exact (checkAmount_whole limit _ x).mpr ⟨low, high⟩

theorem dealTo_holes (ran : dealTo i e = .ok u e') (j : Fin n) :
    (e'.players j).hole.length = (e.players j).hole.length + if i = j then 1 else 0 := by
  by_cases enough : 1 ≤ e.deck.length
  · obtain ⟨rest, out, -, length, dealt⟩ := deal_returns enough
    rw [dealTo, bind_of_ok dealt] at ran
    cases ran
    by_cases same : i = j
    · subst same
      rw [if_pos rfl, update_same, ← length]
      exact List.length_append
    · rw [if_neg same, update_other _ _ (Ne.symm same)]
      rfl
  · obtain ⟨x, failed⟩ := deal_fails (Nat.lt_of_not_le enough)
    rw [dealTo, bind_of_error failed] at ran
    cases ran

theorem dealAll_holes (seats : List (Fin n)) (ran : seats.forM dealTo e = .ok u e') (j : Fin n) :
    (e'.players j).hole.length = (e.players j).hole.length + seats.count j := by
  induction seats generalizing e with
  | nil =>
    cases ran
    rfl
  | cons i rest ih =>
    obtain ⟨_, s, first, others⟩ := bind_ok ran
    have one := dealTo_holes first j
    have more := ih others
    rw [List.count_cons]
    simp only [beq_iff_eq]
    omega

theorem dealHoles_holes (empty : ∀ i, (e.players i).hole = []) (deal : dealHoles e = .ok u e')
    (sits : (e'.players i).inSeat = true) : (e'.players i).hole.length = 2 := by
  obtain ⟨_, s, round, again⟩ :=
    bind_ok (show (e.dealOrder.forM dealTo >>= fun _ => e.dealOrder.forM dealTo) e = .ok u e' from deal)
  have once := dealAll_holes _ round i
  have twice := dealAll_holes _ again i
  obtain ⟨_, _, same⟩ := keeps_ok (dealHoles_deals _) (deals_refl _) deal
  rw [same] at sits
  have listed : e.dealOrder.count i = 1 :=
    List.count_eq_one_of_mem ((Circle.lap_nodup _).filter _) (List.mem_filter.mpr ⟨Circle.mem_lap _ i, sits⟩)
  rw [empty, List.length_nil] at once
  omega

theorem startHand_holes (started : startHand straddleFn deck e = .ok true e') (sits : (e'.players i).inSeat = true) :
    (e'.players i).hole.length = 2 := by
  obtain ⟨⟨placed, sbSeat, bbSeat, dealt, first, -, -, -, -, deal, -, rfl⟩⟩ := startHand_opening started
  have empty := congrArg Layout.holes (posted_layout placed sbSeat bbSeat straddleFn deck)
  rw [openRound_players] at sits ⊢
  exact dealHoles_holes (congrFun empty) deal sits

structure InPlay (e : Engine n) : Prop where
  round : e.Round
  solvent : e.Solvent
  playing : e.street ≠ .idle
  held : ∀ i, (e.players i).inSeat = true → (e.players i).hole.length = 2

theorem startHand_inPlay (chips : ∀ i, 0 ≤ (e.players i).stack) (small : 0 ≤ e.sb) (blind : 0 < e.bb)
    (started : startHand straddleFn deck e = .ok true e') : e'.InPlay where
  round := startHand_round small blind started
  solvent i := (startHand_chips small (le_of_lt blind) started i).2 (chips i)
  playing := by
    rw [startHand_street started]
    exact Street.noConfusion
  held _ := startHand_holes started

theorem InPlay.update (h : e.InPlay) {f : Player → Player} (i : Fin n) (same : ∀ p, ∃ sittingOut waitForBb postEntry,
    f p = { p with sittingOut, waitForBb, postEntry }) : (e.update i f).InPlay := by
  have seat (j : Fin n) : ∃ sittingOut waitForBb postEntry,
      (e.update i f).players j = { e.players j with sittingOut, waitForBb, postEntry } := by
    by_cases other : j = i
    · subst other
      rw [update_same]
      exact same _
    · rw [update_other _ _ other]
      exact ⟨_, _, _, rfl⟩
  choose out wait entry seats using seat
  have players : (e.update i f).players = fun j => _ := funext seats
  have made : e.update i f = { e with players := (e.update i f).players } := rfl
  rw [made, players]
  exact ⟨⟨⟨h.round.blind, h.round.ready, h.round.low, h.round.high, h.round.minRaise⟩, h.round.need, h.round.matched,
    h.round.turn, h.round.closed⟩, fun j => ⟨(h.solvent j).stack, (h.solvent j).bet, (h.solvent j).totalLive,
    (h.solvent j).totalDead⟩, h.playing, h.held⟩

end Engine

namespace TableOp

open Engine Method

variable {e e' : Engine n} {straddleFn : Option (Fin n → Bool)} {deck : List Card}

def Playing (e : Engine n) : TableOp n → Prop
  | act seat action amount => e.accepts seat action amount = true
  | nextStreet => e.actor = none
  | sitOut _ | sitIn _ _ | addChips _ _ => True
  | startHand _ _ | settle _ _ => False

theorem inPlay_next {op : TableOp n} (h : e.InPlay) (playing : op.Playing e) : (next e op).InPlay := by
  cases op with
  | act seat action amount =>
    obtain ⟨_, s, ran, step⟩ := accepts_ran playing
    have still := act_still ran
    rw [step]
    constructor
    · exact act_round h.round ran
    · exact pays_solvent (act_pays ran) h.solvent
    · rw [show s.street = e.street from congrArg (fun t => t.2.street) still]
      exact h.playing
    · intro i sits
      rw [show (s.players i).hole = (e.players i).hole from congrArg (fun t => t.2.holes i) still]
      exact h.held i ((congrArg (fun t => (t.1.seats i).inSeat) still).symm.trans sits)
  | nextStreet =>
    have hands : (after (Engine.nextStreet e)).hands = e.hands := nextStreet_hands e.hands e rfl
    constructor
    · exact nextStreet_round h.round playing
    · exact pays_solvent (nextStreet_pays e e (pays_refl e)) h.solvent
    · intro idle
      exact h.playing (nextStreet_idle idle)
    · intro i sits
      rw [show (next e .nextStreet).players i = (after (Engine.nextStreet e)).players i from rfl] at sits ⊢
      rw [holes_of_hands hands]
      exact h.held i ((congrArg Prod.fst (congrFun hands i)).symm.trans sits)
  | sitOut i => exact h.update i fun p => ⟨_, _, _, rfl⟩
  | sitIn i postNow => exact h.update i fun p => ⟨_, _, _, rfl⟩
  | addChips i amount =>
    have kept : next e (.addChips i amount) = e := by
      rw [next, Engine.addChips, if_pos (Or.inl h.playing)]
      rfl
    rw [kept]
    exact h
  | startHand straddleFn deck => exact playing.elim
  | settle runs forceTabled => exact playing.elim

/-- In every state of a hand the bot of the seat to act returns, whatever its floats and draws do, and
`act` takes what it returns. -/
theorem decide_legal (chips : ∀ i, 0 ≤ (e.players i).stack) (small : 0 ≤ e.sb) (blind : 0 < e.bb)
    (started : Engine.startHand straddleFn deck e = .ok true e') (ops : List (TableOp n))
    (along : Along (fun e op => op.Playing e) e' ops) {i : Fin n} (turn : (run e' ops).actor = some i)
    (o : Outcomes) (style : Style) (level : ℤ) :
    let s := run e' ops
    ∃ action amount, Brain.decide o s i style level = .ok (action, amount) ∧
      (∃ s', Engine.act i action (.whole amount) s = .ok () s') ∧ (action = .fold → (s.legal i).toCall ≠ 0) ∧
      (action = .raise → (s.legal i).canRaise = true ∧ (s.legal i).minTo ≤ amount ∧ amount ≤ (s.legal i).maxTo) := by
  intro s
  have inPlay : s.InPlay := along_keeps (fun _ _ h playing => inPlay_next h playing) ops
    (startHand_inPlay chips small blind started) along
  have able := inPlay.round.need i (inPlay.round.turn i turn)
  obtain ⟨sits, -, -, stack⟩ := canAct_iff.mp able
  have paid : (s.legal i).toCall ≠ 0 → (s.legal i).pot + (s.legal i).toCall ≠ 0 := by
    intro owes
    have pot : 0 ≤ s.pot := Finset.sum_nonneg fun j _ =>
      add_nonneg (inPlay.solvent j).totalLive (inPlay.solvent j).totalDead
    have call : 0 ≤ (s.legal i).toCall := le_min (le_max_left _ _) (le_of_lt stack)
    change s.pot + (s.legal i).toCall ≠ 0
    omega
  have offers := Brain.decide_offers o style level (inPlay.held i sits) paid
  cases decides : Brain.decide o s i style level with
  | error x => rw [decides] at offers; cases offers
  | ok choice =>
    rw [decides] at offers
    refine ⟨choice.1, choice.2, rfl, act_offered turn able offers, ?_, ?_⟩
    · intro fold
      cases offers with
      | fold owes => exact owes
      | call => cases fold
      | raise may low high => cases fold
    · intro raise
      cases offers with
      | fold owes => cases raise
      | call => cases raise
      | raise may low high => exact ⟨may, low, high⟩

theorem decide_legal_duel : ∃ action amount s',
    Brain.decide ⟨none, id, fun _ => 0, fun _ _ => true, fun _ _ => true, Int.floor⟩
      (next duel (.startHand none fullDeck)) 0 .nit 2 = .ok (action, amount) ∧
    Engine.act (0 : Fin 2) action (.whole amount) (next duel (.startHand none fullDeck)) = .ok () s' := by
  obtain ⟨action, amount, decides, ⟨s', accepts⟩, -⟩ := decide_legal (e := duel) (fun i => by decide +revert) (by decide)
    (by decide) (eq_ok_of_value (by decide +kernel : value (Engine.startHand none fullDeck duel) = some true)) []
    trivial (i := 0) (by decide +kernel) ⟨none, id, fun _ => 0, fun _ _ => true, fun _ _ => true, Int.floor⟩ .nit 2
  exact ⟨action, amount, s', decides, accepts⟩

end TableOp

end Holdem
