import Holdem.Engine.View
import Holdem.Engine.Setup

/-!
The same table with other cards in hand and deck. Posts, actions, rounds and payments do not look at
them, and the deal does nothing but exchange them.
-/

namespace Holdem.Engine

open List

variable {n k : ℕ} {e e' : Engine n} {holes : Fin n → List Card} {deck deck' : List Card} {i : Fin n}

open Method

def recard (e : Engine n) (holes : Fin n → List Card) (deck : List Card) : Engine n :=
  { e with players := fun i => { e.players i with hole := holes i }, deck }

def Recarded (holes : Fin n → List Card) (deck : List Card) (e f : Engine n) : Prop := f = e.recard holes deck

@[simp] theorem recard_recard (holes' : Fin n → List Card) (deck' : List Card) :
    (e.recard holes deck).recard holes' deck' = e.recard holes' deck' := rfl

@[simp] theorem recard_hole : ((e.recard holes deck).players i).hole = holes i := rfl

theorem recard_update {g : Player → Player} (blind : ∀ p hole, g { p with hole } = { g p with hole }) :
    (e.recard holes deck).update i g = (e.update i g).recard holes deck := by
  have players : Function.update (e.recard holes deck).players i (g ((e.recard holes deck).players i)) =
      fun j => { (e.update i g).players j with hole := holes j } := by
    funext j
    by_cases same : j = i
    · subst same
      rw [Function.update_self, update_same]
      exact blind _ _
    rw [Function.update_of_ne same, update_other _ _ same]
    rfl
  exact congrArg (fun players => { e with players, deck }) players

theorem recard_foldl {β : Type} {step step' : Engine n → β → Engine n} (xs : List β)
    (each : ∀ x ∈ xs, ∀ f : Engine n, step' (f.recard holes deck) x = (step f x).recard holes deck) (e : Engine n) :
    xs.foldl step' (e.recard holes deck) = (xs.foldl step e).recard holes deck := by
  induction xs generalizing e with
  | nil => rfl
  | cons x rest ih =>
    rw [foldl_cons, foldl_cons, each x mem_cons_self, ih fun y later => each y (.tail _ later)]

theorem recard_fold : (e.recard holes deck).fold i = (e.fold i).recard holes deck := by
  rw [fold, recard_update fun _ _ => rfl]
  rfl

theorem recard_call : (e.recard holes deck).call i = (e.call i).recard holes deck := by
  have amount : (e.recard holes deck).toCall ((e.recard holes deck).players i) = e.toCall (e.players i) := rfl
  unfold call
  dsimp only
  rw [amount]
  split
  · rw [recard_update fun _ _ => rfl]
    rfl
  rw [recard_update fun _ _ => rfl]
  rfl

theorem recard_raiseTo (add : ℤ) : (e.recard holes deck).raiseTo i add = (e.raiseTo i add).recard holes deck := by
  unfold raiseTo
  dsimp only
  rw [recard_update fun _ _ => rfl]
  have level : (e.recard holes deck).currentBet = e.currentBet := rfl
  have bet : (((e.update i (raiseChips (decide (e.currentBet = 0)) add)).recard holes deck).players i).bet =
      ((e.update i (raiseChips (decide (e.currentBet = 0)) add)).players i).bet := rfl
  have least : (e.recard holes deck).minRaise = e.minRaise := rfl
  rw [level, bet, least]
  split
  · split
    · rfl
    rfl
  rfl

theorem recard_raise (amount : ℤ) : (e.recard holes deck).raise i amount = (e.raise i amount).recard holes deck := by
  have legal : (e.recard holes deck).legal i = e.legal i := rfl
  have bet : ((e.recard holes deck).players i).bet = (e.players i).bet := rfl
  unfold raise
  dsimp only
  rw [legal, bet]
  split
  · exact recard_call
  exact recard_raiseTo _

theorem recarded_acts : Acts (Recarded (n := n) holes deck) where
  actor := by rintro e _ rfl; rfl
  able := by rintro e _ rfl i; rfl
  limit := by rintro e _ rfl; rfl
  legal := by rintro e _ rfl i; rfl
  fold := by rintro e _ i rfl - -; exact congrArg (actDone · i) recard_fold
  call := by rintro e _ i rfl - -; exact congrArg (actDone · i) recard_call
  raise := by rintro e _ i amount rfl - - -; exact congrArg (actDone · i) (recard_raise amount)

theorem act_recarded (seat : ℤ) (action : Action) (amount : Amount) :
    Related (Recarded holes deck) (Recarded holes deck) (act (n := n) seat action amount) (act seat action amount) :=
  recarded_acts.act seat action amount

def SameTop (k : ℕ) (deck deck' : List Card) : Prop :=
  ∃ left right top, deck = left ++ top ∧ deck' = right ++ top ∧ left.length = right.length ∧ top.length = k

theorem SameTop.split {j : ℕ} (h : SameTop k deck deck') (fits : j ≤ k) :
    ∃ left right cards, deck = left ++ cards ∧ deck' = right ++ cards ∧ cards.length = j ∧ SameTop (k - j) left right := by
  obtain ⟨left, right, top, rfl, rfl, size, length⟩ := h
  refine ⟨left ++ top.take (k - j), right ++ top.take (k - j), top.drop (k - j), ?_, ?_, ?_, left, right, _, rfl, rfl, size, ?_⟩
  · rw [append_assoc, take_append_drop]
  · rw [append_assoc, take_append_drop]
  · rw [length_drop, length]
    omega
  rw [length_take, length]
  omega

def upcoming (k : ℕ) (deck : List Card) : List Card := deck.drop (deck.length - k)

theorem sameTop_of_upcoming (size : deck'.length = deck.length) (enough : k ≤ deck.length)
    (same : upcoming k deck = upcoming k deck') : SameTop k deck deck' := by
  refine ⟨deck.take (deck.length - k), deck'.take (deck.length - k), upcoming k deck, ?_, ?_, ?_, ?_⟩
  · exact (take_append_drop _ _).symm
  · rw [same, upcoming, size, take_append_drop]
  · rw [length_take, length_take]
    omega
  rw [upcoming, length_drop]
  omega

def Unopposed (e : Engine n) : Prop := (e.seatsWhere Player.canAct).length < 2 ∧
  ∀ i ∈ e.seatsWhere Player.canAct, (e.players i).bet = e.currentBet

theorem openRound_unopposed (alone : e.Unopposed) (first : Fin n) : e.openRound first =
    { e with noRaise := ∅, actedAt := fun _ => none, needToAct := ∅, actor := none } := if_pos alone

theorem openRound_opposed (opposed : ¬e.Unopposed) (first : Fin n) : e.openRound first =
    { e with noRaise := ∅, actedAt := fun _ => none, needToAct := (e.seatsWhere Player.canAct).toFinset
             actor := { e with needToAct := (e.seatsWhere Player.canAct).toFinset }.seek first } := if_neg opposed

theorem recard_openRound (first : Fin n) :
    (e.recard holes deck).openRound first = (e.openRound first).recard holes deck := by
  by_cases alone : e.Unopposed
  · rw [openRound_unopposed alone, openRound_unopposed (e := e.recard holes deck) alone]
    rfl
  rw [openRound_opposed alone, openRound_opposed (e := e.recard holes deck) alone]
  rfl

theorem recard_clearBets : (e.recard holes deck).clearBets = e.clearBets.recard holes deck := by
  have cleared : ∀ (p : Player) hole, (if !p.folded && !p.allIn
      then { p with bet := 0, lastAction := .none, hole } else { p with bet := 0, hole } : Player) =
      { (if !p.folded && !p.allIn then { p with bet := 0, lastAction := .none } else { p with bet := 0 } : Player) with
        hole } := by
    intro p hole
    split <;> rfl
  exact congrArg (fun players => { (e.recard holes deck).clearBets with players })
    (funext fun i => cleared (e.players i) (holes i))

theorem recard_openStreet : (e.recard holes deck).openStreet = e.openStreet.recard holes deck :=
  recard_openRound (e := e.emit (.dealBoard none e.board)) (Circle.step e.button 1)

theorem nextStreet_recard (holes : Fin n → List Card) {street : Street} {left cards : List Card} (right : List Card)
    (deals : e.street.deals = some (k, street)) (length : cards.length = k) (top : e.deck = left ++ cards) :
    ∃ e', nextStreet e = .ok () e' ∧ e'.deck = left ∧ e'.board = e.board ++ cards ∧
      (∀ i, (e'.players i).hole = (e.players i).hole) ∧
      nextStreet (e.recard holes (right ++ cards)) = .ok () (e'.recard holes right) := by
  have layout := openStreet_layout { e.clearBets with deck := left, board := e.board ++ cards, street }
  refine ⟨_, nextStreet_of_deck deals top length, congrArg Layout.deck layout, congrArg Layout.board layout, fun i => ?_, ?_⟩
  · exact (congrFun (congrArg Layout.holes layout) i).trans (holes_of_hands (hands_clearBets e) i)
  rw [nextStreet_of_deck (e := e.recard holes (right ++ cards)) deals rfl length, recard_clearBets, ← recard_openStreet]
  rfl

theorem nextStreet_river (river : e.street = .river) :
    nextStreet e = .ok () { e.clearBets with street := .showdown } := by
  have at' : e.clearBets.street = .river := river
  simp only [nextStreet, at']

theorem nextStreet_still (still : e.street = .idle ∨ e.street = .showdown) :
    nextStreet e = .ok () e.clearBets.openStreet := by
  obtain idle | showdown := still
  · have at' : e.clearBets.street = .idle := idle
    simp only [nextStreet, at']
  have at' : e.clearBets.street = .showdown := showdown
  simp only [nextStreet, at']

theorem nextStreet_sameTop (holes : Fin n → List Card) (ran : nextStreet e = .ok () e') (top : SameTop k e.deck deck)
    (within : e'.board.length ≤ e.board.length + k) :
    ∃ deck', nextStreet (e.recard holes deck) = .ok () (e'.recard holes deck') ∧
      SameTop (k + e.board.length - e'.board.length) e'.deck deck' := by
  rcases nextStreet_cases e with ⟨j, street, rest, out, deals, cards, length, ran'⟩ | ⟨j, street, x, -, -, ran'⟩ |
    ⟨river, ran'⟩ | ⟨still, ran'⟩ <;> rw [ran] at ran' <;> cases ran'
  · have layout := openStreet_layout { e.clearBets with deck := rest, board := e.board ++ out, street }
    have grown : (openStreet { e.clearBets with deck := rest, board := e.board ++ out, street }).board = e.board ++ out :=
      congrArg Layout.board layout
    rw [grown, length_append, length] at within
    obtain ⟨left, right, cards', split, split', length', rests⟩ := top.split (j := j) (by omega)
    obtain ⟨rfl, rfl⟩ := append_inj' (cards.symm.trans split) (by omega)
    obtain ⟨e2, ran2, deck2, board2, -, other⟩ := nextStreet_recard holes right deals length cards
    rw [ran] at ran2
    cases ran2
    refine ⟨right, split' ▸ other, ?_⟩
    rw [deck2, board2, length_append, length]
    rwa [show k + e.board.length - (e.board.length + j) = k - j by omega]
  · refine ⟨deck, ?_, ?_⟩
    · refine (nextStreet_river (e := e.recard holes deck) river).trans ?_
      exact congrArg (fun f : Engine n => EStateM.Result.ok () { f with street := .showdown }) recard_clearBets
    show SameTop (k + e.board.length - e.board.length) e.deck deck
    rwa [Nat.add_sub_cancel]
  have layout := openStreet_layout e.clearBets
  have board : e.clearBets.openStreet.board = e.board := congrArg Layout.board layout
  have cards : e.clearBets.openStreet.deck = e.deck := congrArg Layout.deck layout
  refine ⟨deck, ?_, ?_⟩
  · rw [nextStreet_still (e := e.recard holes deck) still, recard_clearBets, recard_openStreet]
  rwa [board, cards, Nat.add_sub_cancel]

structure Drawn (e e' : Engine n) : Prop where
  holes : ∀ i, (e'.players i).hole = (e.players i).hole
  board : e.board <+: e'.board
  cards : e'.board.length + e'.deck.length = e.board.length + e.deck.length

theorem Drawn.refl (e : Engine n) : Drawn e e := ⟨fun _ => rfl, prefix_refl _, rfl⟩

theorem Drawn.trans {e'' : Engine n} (first : Drawn e e') (second : Drawn e' e'') : Drawn e e'' :=
  ⟨fun i => (second.holes i).trans (first.holes i), first.board.trans second.board, second.cards.trans first.cards⟩

theorem drawn_of_layout (same : e'.layout = e.layout) : Drawn e e' := by
  have board : e'.board = e.board := congrArg Layout.board same
  have cards : e'.deck = e.deck := congrArg Layout.deck same
  exact ⟨fun i => congrFun (congrArg Layout.holes same) i, by rw [board], by rw [board, cards]⟩

theorem drawn_clearBets (e : Engine n) : Drawn e e.clearBets :=
  ⟨fun i => holes_of_hands (hands_clearBets e) i, prefix_refl _, rfl⟩

theorem nextStreet_drawn (ran : nextStreet e = .ok () e') : Drawn e e' := by
  rcases nextStreet_cases e with ⟨j, street, rest, out, -, cards, -, ran'⟩ | ⟨j, street, x, -, -, ran'⟩ |
    ⟨-, ran'⟩ | ⟨-, ran'⟩ <;> rw [ran] at ran' <;> cases ran'
  · have laid : Drawn e { e.clearBets with deck := rest, board := e.board ++ out, street } := by
      refine ⟨(drawn_clearBets e).holes, prefix_append _ _, ?_⟩
      show (e.board ++ out).length + rest.length = e.board.length + e.deck.length
      rw [cards, length_append, length_append]
      omega
    exact laid.trans (drawn_of_layout (openStreet_layout _))
  · have cleared := drawn_clearBets e
    exact ⟨cleared.holes, cleared.board, cleared.cards⟩
  exact (drawn_clearBets e).trans (drawn_of_layout (openStreet_layout _))

theorem recard_posts (amount : ℤ) (label : Blind) :
    (e.recard holes deck).post i amount label = (e.post i amount label).recard holes deck ∧
      (e.recard holes deck).postDead i amount label = (e.postDead i amount label).recard holes deck := by
  have stack : ((e.recard holes deck).players i).stack = (e.players i).stack := rfl
  rw [post, postDead, stack, recard_update fun _ _ => rfl, recard_update fun _ _ => rfl]
  exact ⟨rfl, rfl⟩

theorem recard_postSmallBlind : (e.recard holes deck).postSmallBlind i = (e.postSmallBlind i).recard holes deck := by
  have seated : ((e.recard holes deck).players i).inSeat = (e.players i).inSeat := rfl
  have chips : (e.recard holes deck).post i (e.recard holes deck).sb .sb = (e.post i e.sb .sb).recard holes deck :=
    (recard_posts e.sb .sb).1
  unfold postSmallBlind
  rw [seated, chips]
  split <;> rfl

theorem recard_postBigBlind : (e.recard holes deck).postBigBlind i = (e.postBigBlind i).recard holes deck := by
  have chips : ({ e.recard holes deck with bbI := some i } : Engine n).post i (e.recard holes deck).bb .bb =
      (({ e with bbI := some i } : Engine n).post i e.bb .bb).recard holes deck :=
    (recard_posts (e := { e with bbI := some i }) e.bb .bb).1
  have ante : ∀ f : Engine n, (f.recard holes deck).bbAnte = f.bbAnte := fun _ => rfl
  unfold postBigBlind
  dsimp only
  rw [chips, ante]
  split
  · exact (recard_posts _ _).2
  rfl

theorem recard_enter (sbSeat bbSeat : Fin n) :
    enter sbSeat bbSeat (e.recard holes deck) i = (enter sbSeat bbSeat e i).recard holes deck := by
  have entered : (e.recard holes deck).entryPost sbSeat bbSeat i = (e.entryPost sbSeat bbSeat i).recard holes deck := by
    have posts : ((e.recard holes deck).players i).postEntry = (e.players i).postEntry := rfl
    have owes : ((e.recard holes deck).players i).owesSb = (e.players i).owesSb := rfl
    have chips : (e.recard holes deck).post i (e.recard holes deck).bb .post =
        (e.post i e.bb .post).recard holes deck := (recard_posts e.bb .post).1
    unfold entryPost
    dsimp only
    rw [posts, owes, chips]
    split
    · split
      · exact (recard_posts _ _).2
      rfl
    rfl
  rw [enter, entered, recard_update fun _ _ => rfl]
  rfl

theorem recard_postAll (sbSeat bbSeat : Fin n) :
    (e.recard holes deck).postAll sbSeat bbSeat none = (e.postAll sbSeat bbSeat none).recard holes deck := by
  have seated : (e.recard holes deck).seated = e.seated := rfl
  rw [postAll, postForced, recard_postSmallBlind, recard_postBigBlind, seated, recard_foldl _ fun i _ f => recard_enter _ _]
  rfl

theorem dealTo_recard {rest : List Card} {card : Card} (top : e.deck = rest ++ [card]) :
    ∃ holes, dealTo i e = .ok () (e.recard holes rest) := by
  obtain ⟨rest', out, split, length, dealt⟩ := deal_returns (e := e) (k := 1) (by rw [top]; simp)
  obtain ⟨rfl, rfl⟩ := append_inj' (top.symm.trans split) (by simp [length])
  refine ⟨Function.update (fun j => (e.players j).hole) i ((e.players i).hole ++ [card]), ?_⟩
  rw [dealTo, bind_of_ok dealt]
  refine congrArg (fun players => EStateM.Result.ok () { e with players, deck := rest }) (funext fun j => ?_)
  by_cases same : j = i
  · subst same
    simp
  simp [same]

theorem dealEach_recard (seats : List (Fin n)) (enough : seats.length ≤ e.deck.length) :
    ∃ holes rest, seats.forM dealTo e = .ok () (e.recard holes rest) ∧ rest.length + seats.length = e.deck.length := by
  induction seats generalizing e with
  | nil => exact ⟨_, e.deck, rfl, rfl⟩
  | cons i seats ih =>
    simp only [length_cons] at enough
    obtain ⟨rest, card, top⟩ := (eq_nil_or_concat' e.deck).resolve_left
      (fun none => by rw [none] at enough; simp at enough)
    obtain ⟨holes, dealt⟩ := dealTo_recard (i := i) top
    have length : e.deck.length = rest.length + 1 := by rw [top]; simp
    obtain ⟨holes', rest', others, left⟩ := ih (e := e.recard holes rest)
      (by show seats.length ≤ rest.length; omega)
    refine ⟨holes', rest', ?_, ?_⟩
    · change (dealTo i >>= fun _ => seats.forM dealTo) e = _
      rw [bind_of_ok dealt, others]
      rfl
    change rest'.length + seats.length = rest.length at left
    simp only [length_cons]
    omega

theorem dealHoles_recard (enough : 2 * e.dealOrder.length ≤ e.deck.length) :
    ∃ holes rest, dealHoles e = .ok () (e.recard holes rest) ∧ rest.length + 2 * e.dealOrder.length = e.deck.length := by
  obtain ⟨holes, rest, first, left⟩ := dealEach_recard (e := e) e.dealOrder (by omega)
  obtain ⟨holes', rest', second, left'⟩ := dealEach_recard (e := e.recard holes rest) e.dealOrder
    (by show e.dealOrder.length ≤ rest.length; omega)
  refine ⟨holes', rest', ?_, ?_⟩
  · rw [dealHoles, bind_of_ok (m := get) (a := e) (t := e) rfl, bind_of_ok first, second]
    rfl
  change rest'.length + e.dealOrder.length = rest.length at left'
  omega

theorem startHand_recard (started : startHand none deck e = .ok true e')
    (size : deck'.length = deck.length) (enough : 2 * n ≤ deck.length) :
    ∃ holes rest, startHand none deck' e = .ok true (e'.recard holes rest) ∧ rest.length = e'.deck.length := by
  obtain ⟨⟨placed, sbSeat, bbSeat, dealt, first, positions, small, big, seated, deal, turn, rfl⟩⟩ :=
    startHand_opening started
  -- the posts do not look at the deck
  have posts : placed.posted sbSeat bbSeat none deck' =
      (placed.posted sbSeat bbSeat none deck).recard (fun i => ((placed.resetSeats.newHand deck).players i).hole) deck' :=
    recard_postAll (e := placed.resetSeats.newHand deck) sbSeat bbSeat
  have stock : (placed.posted sbSeat bbSeat none deck).deck = deck :=
    congrArg Ground.deck (ground_postAll (placed.resetSeats.newHand deck) sbSeat bbSeat none)
  have few : ∀ e : Engine n, e.dealOrder.length ≤ n := fun e => by
    refine (length_filter_le _ _).trans ?_
    rw [Circle.lap, length_map, length_range]
  obtain ⟨holes, rest, ran, left⟩ := dealHoles_recard (e := placed.posted sbSeat bbSeat none deck)
    (by have := few (placed.posted sbSeat bbSeat none deck); rw [stock]; omega)
  obtain rfl : dealt = (placed.posted sbSeat bbSeat none deck).recard holes rest := by
    rw [deal] at ran
    cases ran
    rfl
  obtain ⟨holes', rest', ran', left'⟩ := dealHoles_recard (e := placed.posted sbSeat bbSeat none deck') (by
    rw [posts]
    show 2 * (placed.posted sbSeat bbSeat none deck).dealOrder.length ≤ deck'.length
    have := few (placed.posted sbSeat bbSeat none deck)
    omega)
  refine ⟨holes', rest', ?_, ?_⟩
  · rw [startHand_of_placed positions small big seated, bind_of_ok ran', posts, recard_recard]
    have turn' : ((placed.posted sbSeat bbSeat none deck).recard holes' rest').firstToAct bbSeat = some first := turn
    simp only [openPreflop, bind_apply, turn', recard_openRound, recard_recard]
    rfl
  have same : (placed.posted sbSeat bbSeat none deck').dealOrder = (placed.posted sbSeat bbSeat none deck).dealOrder := by
    rw [posts]
    rfl
  have stock' : (placed.posted sbSeat bbSeat none deck').deck = deck' := by rw [posts]; rfl
  rw [recard_openRound]
  show rest'.length = rest.length
  rw [same, stock'] at left'
  rw [stock] at left
  omega

end Holdem.Engine
