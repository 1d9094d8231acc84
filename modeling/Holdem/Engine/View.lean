import Holdem.Lib.Relational
import Holdem.Engine.Streets

/-!
What the betting depends on. `Engine.view` is the engine without cards in hand and deck, log and hand
count; engines with equal views accept the same actions and stay equal in view.
-/

namespace Holdem

def Player.veil (p : Player) : Player := { p with hole := [] }

namespace Engine

variable {n : ℕ} {e f : Engine n} {i : Fin n} {g : Player → Player} {street : Street} {k : ℕ}

open Method

/-- The engine as far as betting reads it. Nothing reads the posting seats `sb_i` and `bb_i`. -/
def view (e : Engine n) : Engine n :=
  { e with
    players := fun i => (e.players i).veil
    sbI := none, bbI := none, deck := [], handNo := 0, publicEvents := [] }

def felt (e : Engine n) : Engine n :=
  { e.view with needToAct := ∅, actor := none, noRaise := ∅, actedAt := fun _ => none }

def Alike (e f : Engine n) : Prop := e.view = f.view

def Level (e f : Engine n) : Prop := e.felt = f.felt

theorem Alike.reads {α : Type} (h : Alike e f) (g : Engine n → α) : g e.view = g f.view := congrArg g h

theorem Level.reads {α : Type} (h : Level e f) (g : Engine n → α) : g e.felt = g f.felt := congrArg g h

theorem Alike.level (h : Alike e f) : Level e f := by
  unfold Level felt
  rw [show e.view = f.view from h]

theorem Level.veil (h : Level e f) (i : Fin n) : (e.players i).veil = (f.players i).veil :=
  h.reads fun v => v.players i

theorem Level.seatsWhere (h : Level e f) {p : Player → Bool} (veiled : ∀ q, p q.veil = p q) :
    e.seatsWhere p = f.seatsWhere p := by
  unfold Engine.seatsWhere
  congr 1
  funext i
  rw [← veiled, h.veil i, veiled]

theorem Level.ite {p q : Prop} [Decidable p] [Decidable q] {e' f' : Engine n} (same : p = q)
    (yes : Level e f) (no : Level e' f') : Level (if p then e else e') (if q then f else f') := by
  by_cases holds : p
  · rwa [if_pos holds, if_pos (same ▸ holds)]
  rwa [if_neg holds, if_neg (same ▸ holds)]

theorem Level.seated (h : Level e f) : e.seated = f.seated := h.seatsWhere fun _ => rfl

theorem Level.contested (h : Level e f) : e.contested = f.contested := h.seatsWhere fun _ => rfl

theorem shown_update {look : Engine n → Engine n} {veil : Player → Player}
    (shown : ∀ (e : Engine n) players, look { e with players } = { look e with players := fun i => veil (players i) })
    (veiled : ∀ p, veil (g p) = g (veil p)) (h : look e = look f) : look (e.update i g) = look (f.update i g) := by
  have seats : ∀ e, (look e).players = fun j => veil (e.players j) := fun e => congrArg players (shown e e.players)
  have step : ∀ e, look (e.update i g) = (look e).update i g := by
    intro e
    refine (shown e _).trans (congrArg (fun players => { look e with players }) (funext fun j => ?_))
    rw [seats]
    by_cases same : j = i
    · rw [same, Function.update_self, Function.update_self, veiled]
    · rw [Function.update_of_ne same, Function.update_of_ne same]
  rw [step, step, h]

theorem alike_update (veiled : ∀ p, (g p).veil = g p.veil) (h : Alike e f) : Alike (e.update i g) (f.update i g) :=
  shown_update (fun _ _ => rfl) veiled h

theorem level_update (veiled : ∀ p, (g p).veil = g p.veil) (h : Level e f) : Level (e.update i g) (f.update i g) :=
  shown_update (fun _ _ => rfl) veiled h

theorem alike_emit (body body' : EventBody n) (h : Alike e f) : Alike (e.emit body) (f.emit body') := h

theorem level_emit (body body' : EventBody n) (h : Level e f) : Level (e.emit body) (f.emit body') := h

section

variable (h : Alike e f)
include h

theorem Alike.legal (i : Fin n) : e.legal i = f.legal i :=
  h.reads fun v => v.legal i

theorem alike_fold : Alike (e.fold i) (f.fold i) :=
  alike_emit _ _ (alike_update (fun _ => rfl) h)

theorem alike_call : Alike (e.call i) (f.call i) := by
  have amount : e.toCall (e.players i) = f.toCall (f.players i) := h.reads fun v => v.toCall (v.players i)
  unfold call
  dsimp only
  rw [amount]
  split
  · exact alike_emit _ _ (alike_update (fun _ => rfl) h)
  exact alike_emit _ _ (alike_update (fun _ => rfl) h)

theorem alike_raiseBet : Alike (e.raiseBet i) (f.raiseBet i) :=
  h.reads fun v => v.raiseBet i

theorem alike_reopen {raiseSize : ℤ} : Alike (e.reopen raiseSize) (f.reopen raiseSize) :=
  h.reads fun v => v.reopen raiseSize

theorem alike_shortRaise : Alike (e.shortRaise i) (f.shortRaise i) :=
  h.reads fun v => v.shortRaise i

theorem alike_actDone : Alike (e.actDone i) (f.actDone i) :=
  h.reads fun v => v.actDone i

theorem alike_raiseTo {add : ℤ} : Alike (e.raiseTo i add) (f.raiseTo i add) := by
  have level : e.currentBet = f.currentBet := h.reads currentBet
  have least : e.minRaise = f.minRaise := h.reads minRaise
  have chips : Alike (e.update i (raiseChips (decide (f.currentBet = 0)) add))
      (f.update i (raiseChips (decide (f.currentBet = 0)) add)) := alike_update (fun _ => rfl) h
  have bet : ((e.update i (raiseChips (decide (f.currentBet = 0)) add)).players i).bet =
      ((f.update i (raiseChips (decide (f.currentBet = 0)) add)).players i).bet :=
    chips.reads fun v => (v.players i).bet
  unfold raiseTo
  dsimp only
  rw [level, least, bet]
  refine alike_emit _ _ ?_
  split
  · split
    · exact alike_reopen (alike_raiseBet chips)
    exact alike_shortRaise (alike_raiseBet chips)
  exact chips

theorem alike_raise {amount : ℤ} : Alike (e.raise i amount) (f.raise i amount) := by
  have bet : (e.players i).bet = (f.players i).bet := h.reads fun v => (v.players i).bet
  unfold raise
  dsimp only
  rw [h.legal i, bet]
  split
  · exact alike_call h
  exact alike_raiseTo h

end

structure Acts (R : Engine n → Engine n → Prop) : Prop where
  actor : ∀ {e f}, R e f → e.actor = f.actor
  able : ∀ {e f}, R e f → ∀ i, (e.players i).canAct = (f.players i).canAct
  limit : ∀ {e f}, R e f → e.bettingStructure = f.bettingStructure
  legal : ∀ {e f}, R e f → ∀ i, e.legal i = f.legal i
  fold : ∀ {e f i}, R e f → e.actor = some i → (e.players i).canAct = true →
    R ((e.fold i).actDone i) ((f.fold i).actDone i)
  call : ∀ {e f i}, R e f → e.actor = some i → (e.players i).canAct = true →
    R ((e.call i).actDone i) ((f.call i).actDone i)
  raise : ∀ {e f i} (amount : ℤ), R e f → e.actor = some i → (e.players i).canAct = true →
    (e.legal i).canRaise = true → R ((e.raise i amount).actDone i) ((f.raise i amount).actDone i)

section Acts

variable {R : Engine n → Engine n → Prop} (acts : Acts R)
include acts

theorem Acts.perform {action : Action} {amount : Amount} (h : R e f) (turn : e.actor = some i)
    (able : (e.players i).canAct = true) :
    (∃ x, e.perform i action amount = .error x ∧ f.perform i action amount = .error x) ∨
    ∃ e' f', e.perform i action amount = .ok e' ∧ f.perform i action amount = .ok f' ∧ R e' f' := by
  cases action with
  | fold => exact .inr ⟨_, _, rfl, rfl, acts.fold h turn able⟩
  | call => exact .inr ⟨_, _, rfl, rfl, acts.call h turn able⟩
  | other word => exact .inl ⟨_, rfl, rfl⟩
  | raise =>
    have checks : e.checkAmount (f.legal i) amount = f.checkAmount (f.legal i) amount := by
      unfold checkAmount
      rw [acts.limit h]
    have raised := fun value may => acts.raise (i := i) value h turn able may
    simp only [Engine.perform]
    rw [acts.legal h i] at raised ⊢
    by_cases may : (f.legal i).canRaise = true
    · rw [if_neg (by simp [may]), if_neg (by simp [may])]
      cases checked : f.checkAmount (f.legal i) amount with
      | error x => exact .inl ⟨x, by rw [checks, checked]; rfl, rfl⟩
      | ok u =>
        cases whole : amount.int with
        | error x => exact .inl ⟨x, by rw [checks, checked]; rfl, rfl⟩
        | ok value => exact .inr ⟨_, _, by rw [checks, checked]; rfl, rfl, raised value may⟩
    rw [if_pos (by simp [may]), if_pos (by simp [may])]
    exact .inl ⟨_, rfl, rfl⟩

theorem Acts.act (seat : ℤ) (action : Action) (amount : Amount) :
    Related R R (act (n := n) seat action amount) (act seat action amount) := by
  intro e f h
  unfold Engine.act
  dsimp only
  split
  · exact .error h
  split
  · rename_i range
    rw [← acts.actor h, ← acts.able h]
    split
    · exact .error h
    rename_i turn
    split
    · exact .error h
    rename_i able
    obtain ⟨x, left, right⟩ | ⟨e', f', left, right, related⟩ := acts.perform h (not_not.mp turn) (not_not.mp able)
    · rw [left, right]
      exact .error h
    rw [left, right]
    exact .ok related
  exact .error h

end Acts

theorem alike_acts : Acts (Alike (n := n)) where
  actor h := h.reads Engine.actor
  able h i := h.reads fun v => (v.players i).canAct
  limit h := h.reads Engine.bettingStructure
  legal h i := h.legal i
  fold h _ _ := alike_actDone (alike_fold h)
  call h _ _ := alike_actDone (alike_call h)
  raise _ h _ _ _ := alike_actDone (alike_raise h)

theorem act_alike (seat : ℤ) (action : Action) (amount : Amount) :
    Related Alike Alike (act (n := n) seat action amount) (act seat action amount) :=
  alike_acts.act seat action amount

theorem openRound_view (e : Engine n) (first : Fin n) : (e.openRound first).view = e.felt.openRound first :=
  apply_ite Engine.view ..

theorem openRound_alike (first : Fin n) (h : Level e f) : Alike (e.openRound first) (f.openRound first) := by
  show (e.openRound first).view = (f.openRound first).view
  rw [openRound_view, openRound_view, h]

theorem clearBets_view (e : Engine n) : e.clearBets.view = e.view.clearBets :=
  congrArg (fun players => { e.view.clearBets with players }) (funext fun _ => apply_ite Player.veil ..)

theorem clearBets_alike (h : Alike e f) : Alike e.clearBets f.clearBets := by
  show e.clearBets.view = f.clearBets.view
  rw [clearBets_view, clearBets_view, h]

theorem nextStreet_of_deck {rest cards : List Card}
    (deals : e.street.deals = some (k, street)) (deck : e.deck = rest ++ cards) (length : cards.length = k) :
    nextStreet e = .ok () (openStreet { e.clearBets with deck := rest, board := e.board ++ cards, street }) := by
  have enough : k ≤ e.deck.length := by rw [deck, List.length_append]; omega
  obtain ⟨rest', out, deck', length', ran⟩ := nextStreet_deals deals enough
  obtain ⟨rfl, rfl⟩ := List.append_inj' (deck.symm.trans deck') (by omega)
  exact ran

theorem nextStreet_alike {left right cards : List Card} (h : Alike e f)
    (deals : e.street.deals = some (k, street)) (length : cards.length = k)
    (deck : e.deck = left ++ cards) (deck' : f.deck = right ++ cards) :
    ∃ e' f', nextStreet e = .ok () e' ∧ nextStreet f = .ok () f' ∧ Alike e' f' := by
  have same : e.street = f.street := h.reads Engine.street
  have board : e.board = f.board := h.reads Engine.board
  have button : e.button = f.button := h.reads Engine.button
  refine ⟨_, _, nextStreet_of_deck deals deck length, nextStreet_of_deck (same ▸ deals) deck' length, ?_⟩
  have cleared := clearBets_alike h
  have laid : Alike { e.clearBets with deck := left, board := e.board ++ cards, street }
      { f.clearBets with deck := right, board := f.board ++ cards, street } := by
    rw [board]
    exact cleared.reads fun v => { v with board := f.board ++ cards, street }
  unfold openStreet
  change Alike (openRound _ (Circle.step e.button 1)) (openRound _ (Circle.step f.button 1))
  rw [button]
  exact openRound_alike _ (alike_emit _ _ laid).level

end Engine

end Holdem
