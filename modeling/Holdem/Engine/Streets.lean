import Holdem.Engine.Frame

/-!
Cards on the table. No card is in two places a hand is scored from, the board grows with the street,
and with cards enough in the deck `settle` completes the board.
-/

namespace Holdem

open List

def Player.hand (p : Player) : Bool × Bool × List Card := (p.inSeat, p.folded, p.hole)

def Street.boardSize : Street → ℕ
  | .idle | .preflop => 0
  | .flop => 3
  | .turn => 4
  | .river | .showdown => 5

def Street.deals : Street → Option (ℕ × Street)
  | .preflop => some (3, .flop)
  | .flop => some (1, .turn)
  | .turn => some (1, .river)
  | .river | .showdown | .idle => none

def Street.ahead : Street → ℕ
  | .preflop => 3
  | .flop => 2
  | .turn => 1
  | .river | .showdown | .idle => 0

namespace Engine

variable {n k : ℕ} {e e' : Engine n} {i : Fin n} {street : Street} {runs : ℕ}

open Method

def hands (e : Engine n) : Fin n → Bool × Bool × List Card := fun i => (e.players i).hand

def Distinct (e : Engine n) : Prop := ∀ i, ((e.players i).hole ++ (e.board ++ e.deck)).Nodup

def BoardFits (e : Engine n) : Prop := e.board.length = e.street.boardSize

theorem contested_of_hands (same : e'.hands = e.hands) : e'.contested = e.contested := by
  have each : ∀ i, ((e'.players i).inSeat && !(e'.players i).folded) =
      ((e.players i).inSeat && !(e.players i).folded) := by
    intro i
    have := congrFun same i
    simp only [hands, Player.hand, Prod.mk.injEq] at this
    rw [this.1, this.2.1]
  simp only [contested, seatsWhere, each]

theorem holes_of_hands (same : e'.hands = e.hands) (i : Fin n) : (e'.players i).hole = (e.players i).hole := by
  have := congrFun same i
  simp only [hands, Player.hand, Prod.mk.injEq] at this
  exact this.2.2

theorem distinct_of_layout (same : e'.layout = e.layout) (h : e.Distinct) : e'.Distinct := by
  intro i
  change (e'.layout.holes i ++ (e'.layout.board ++ e'.layout.deck)).Nodup
  rw [same]
  exact h i

theorem boardFits_of_layout (same : e'.layout = e.layout) (h : e.BoardFits) : e'.BoardFits := by
  change e'.layout.board.length = e'.layout.street.boardSize
  rw [same]
  exact h

theorem distinct_deal {out rest : List Card} (same : e'.hands = e.hands) (cards : e.deck = rest ++ out)
    (board : e'.board = e.board ++ out) (deck : e'.deck = rest) (h : e.Distinct) : e'.Distinct := by
  have perm : (e'.board ++ e'.deck).Perm (e.board ++ e.deck) := by
    rw [board, deck, cards, append_assoc]
    exact (perm_append_comm).append_left _
  intro i
  rw [holes_of_hands same]
  exact (perm.append_left _).nodup_iff.mpr (h i)

theorem hands_returnUncalled (e : Engine n) : e.returnUncalled.hands = e.hands := by
  unfold returnUncalled
  split
  · rename_i i back _
    exact update_keeps (f := fun p => { p with
      totalLive := p.totalLive - back, stack := p.stack + back, allIn := decide (p.stack + back = 0) }) Player.hand i rfl
  rfl

theorem hands_clearBets (e : Engine n) : e.clearBets.hands = e.hands := by
  funext i
  simp only [hands, clearBets]
  split <;> rfl

theorem openRound_layout (e : Engine n) (first : Fin n) : (e.openRound first).layout = e.layout :=
  congrArg Prod.snd (still_openRound e first)

theorem openRound_hands (e : Engine n) (first : Fin n) : (e.openRound first).hands = e.hands := by
  unfold openRound
  dsimp only
  split <;> rfl

theorem deal_returns (enough : k ≤ e.deck.length) :
    ∃ rest out, e.deck = rest ++ out ∧ out.length = k ∧ deal k e = .ok out { e with deck := rest } := by
  have dealt := Deck.deal_of_le enough
  obtain ⟨cards, length⟩ := Deck.deal_ok dealt
  exact ⟨_, _, cards, length, by rw [deal, dealt]⟩

theorem deal_fails (short : e.deck.length < k) : ∃ x, deal k e = .error x e :=
  ⟨_, by rw [deal, Deck.deal, if_pos short]⟩

theorem nextStreet_deals (deals : e.street.deals = some (k, street)) (enough : k ≤ e.deck.length) :
    ∃ rest out, e.deck = rest ++ out ∧ out.length = k ∧ nextStreet e =
      .ok () (openStreet { e.clearBets with deck := rest, board := e.board ++ out, street }) := by
  obtain ⟨rest, out, cards, length, dealt⟩ := deal_returns (e := e.clearBets) (k := k) enough
  refine ⟨rest, out, cards, length, ?_⟩
  have dealtStreet : dealStreet k street e.clearBets =
      .ok () (openStreet { e.clearBets with deck := rest, board := e.board ++ out, street }) := by
    rw [dealStreet, bind_of_ok dealt]
    rfl
  rw [← dealtStreet]
  unfold nextStreet
  have same : e.clearBets.street = e.street := rfl
  dsimp only
  rw [same]
  cases at' : e.street <;> rw [at'] at deals <;> cases deals <;> rfl

theorem nextStreet_cases (e : Engine n) :
    (∃ k street rest out, e.street.deals = some (k, street) ∧ e.deck = rest ++ out ∧ out.length = k ∧
      nextStreet e = .ok () (openStreet { e.clearBets with deck := rest, board := e.board ++ out, street })) ∨
    (∃ k street x, e.street.deals = some (k, street) ∧ e.deck.length < k ∧ nextStreet e = .error x e.clearBets) ∨
    (e.street = .river ∧ nextStreet e = .ok () { e.clearBets with street := .showdown }) ∨
    ((e.street = .idle ∨ e.street = .showdown) ∧ nextStreet e = .ok () e.clearBets.openStreet) := by
  have same : e.clearBets.street = e.street := rfl
  cases deals : e.street.deals with
  | some next =>
    obtain ⟨k, street⟩ := next
    by_cases enough : k ≤ e.deck.length
    · obtain ⟨rest, out, cards, length, ran⟩ := nextStreet_deals deals enough
      exact Or.inl ⟨k, street, rest, out, rfl, cards, length, ran⟩
    obtain ⟨x, failed⟩ := deal_fails (e := e.clearBets) (Nat.lt_of_not_le enough)
    refine Or.inr (Or.inl ⟨k, street, x, rfl, by omega, ?_⟩)
    rw [← show dealStreet k street e.clearBets = .error x e.clearBets by rw [dealStreet, bind_of_error failed]]
    unfold nextStreet
    dsimp only
    rw [same]
    cases at' : e.street <;> rw [at'] at deals <;> cases deals <;> rfl
  | none =>
    unfold nextStreet
    dsimp only
    rw [same]
    cases at' : e.street <;> rw [at'] at deals <;> cases deals <;> simp

theorem hands_openStreet (e : Engine n) : e.openStreet.hands = e.hands := openRound_hands (e.emit _) _

theorem nextStreet_hands (h : Fin n → Bool × Bool × List Card) : Keeps (fun e : Engine n => e.hands = h) nextStreet :=
  nextStreet_keeps (fun e h => (hands_clearBets e).trans h) (fun _ _ _ _ h => h)
    (fun e h => (hands_openStreet e).trans h)

theorem openStreet_layout (e : Engine n) : e.openStreet.layout = e.layout := openRound_layout (e.emit _) _

theorem nextStreet_idle (idle : (after (nextStreet e)).street = .idle) : e.street = .idle := by
  have opened : ∀ s : Engine n, s.openStreet.street = s.street := fun s => congrArg Layout.street (openStreet_layout s)
  rcases nextStreet_cases e with ⟨k, street, rest, out, deals, -, -, ran⟩ | ⟨k, street, x, -, -, ran⟩ |
    ⟨-, ran⟩ | ⟨-, ran⟩ <;> rw [ran] at idle
  · rw [after_ok, opened] at idle
    change street = .idle at idle
    cases at' : e.street <;> rw [at', idle] at deals <;> cases deals
  · exact idle
  · cases idle
  rwa [after_ok, opened] at idle

theorem nextStreet_total (e : Engine n) :
    (after (nextStreet e)).board.length + (after (nextStreet e)).deck.length = e.board.length + e.deck.length := by
  have opened : ∀ s : Engine n, s.openStreet.board.length + s.openStreet.deck.length = s.board.length + s.deck.length :=
    fun s => congrArg (fun l : Layout n => l.board.length + l.deck.length) (openStreet_layout s)
  rcases nextStreet_cases e with ⟨k, street, rest, out, -, taken, -, ran⟩ | ⟨k, street, x, -, -, ran⟩ |
    ⟨-, ran⟩ | ⟨-, ran⟩ <;> rw [ran]
  · rw [after_ok, opened, taken]
    simp only [length_append]
    omega
  · rfl
  · rfl
  exact opened _

theorem nextStreet_lays (deals : e.street.deals = some (k, street)) (enough : k ≤ e.deck.length) :
    ∃ rest out e', e.deck = rest ++ out ∧ out.length = k ∧ nextStreet e = .ok () e' ∧ e'.street = street ∧
      e'.board = e.board ++ out ∧ e'.deck = rest ∧ e'.hands = e.hands := by
  obtain ⟨rest, out, cards, length, next⟩ := nextStreet_deals deals enough
  have layout := openStreet_layout { e.clearBets with deck := rest, board := e.board ++ out, street }
  exact ⟨rest, out, _, cards, length, next, congrArg Layout.street layout, congrArg Layout.board layout,
    congrArg Layout.deck layout, (hands_openStreet _).trans (hands_clearBets e)⟩

def Enough (e : Engine n) (runs : ℕ) : Prop := runs * (5 - e.board.length) ≤ e.deck.length

theorem boardSize_le (street : Street) : street.boardSize ≤ 5 := by
  cases street <;> simp [Street.boardSize]

theorem deals_of_short (playing : street ≠ .idle) (short : street.boardSize < 5) :
    ∃ k next, street.deals = some (k, next) ∧ next.ahead + 1 = street.ahead ∧ next ≠ .idle ∧
      street.boardSize + k = next.boardSize := by
  cases street with
  | preflop => exact ⟨3, .flop, rfl, rfl, by simp, rfl⟩
  | flop => exact ⟨1, .turn, rfl, rfl, by simp, rfl⟩
  | turn => exact ⟨1, .river, rfl, rfl, by simp, rfl⟩
  | river | showdown => simp [Street.boardSize] at short
  | idle => exact absurd rfl playing

theorem runOut_returns (fuel : ℕ) (ahead : e.street.ahead ≤ fuel) (playing : e.street ≠ .idle)
    (fits : e.BoardFits) (enough : e.Enough 1) (distinct : e.Distinct) :
    ∃ e', runOut fuel e = .ok () e' ∧ e'.board.length = 5 ∧ e'.Distinct := by
  unfold BoardFits Enough at *
  have most := boardSize_le e.street
  by_cases full : e.board.length = 5
  · exact ⟨e, by cases fuel <;> simp [runOut, full], full, distinct⟩
  obtain ⟨k, street, deals, less, playing, size⟩ := deals_of_short playing (by omega)
  induction fuel generalizing e k street with
  | zero => omega
  | succ fuel ih =>
    have most := boardSize_le street
    obtain ⟨rest, out, next, cards, length, ran, at', board, deck, hands⟩ := nextStreet_lays deals (by omega)
    have total : e.deck.length = rest.length + k := by rw [cards, length_append, length]
    have grown : next.board.length = e.board.length + k := by rw [board, length_append, length]
    have distinct' := distinct_deal hands cards board deck distinct
    unfold runOut
    rw [if_pos (by omega), bind_of_ok ran]
    by_cases full : next.board.length = 5
    · exact ⟨next, by cases fuel <;> simp [runOut, full], full, distinct'⟩
    obtain ⟨k', street', deals', less', playing', size'⟩ := deals_of_short
      (show next.street ≠ .idle from at' ▸ playing) (by rw [at']; omega)
    exact ih (by rw [at']; omega) (at' ▸ playing) (by rw [at']; omega) (by rw [deck]; omega) distinct'
      (boardSize_le _) full k' street' deals' less' playing' size'

def Scorable (e : Engine n) (boards : List (List Card)) : Prop :=
  boards ≠ [] ∧ ∀ board ∈ boards, board.length = 5 ∧ ∀ i, ((e.players i).hole ++ board).Nodup

def CanComplete (e : Engine n) (runs : ℕ) : Prop :=
  e.board.length = 5 ∨ e.street ≠ .idle ∧ e.BoardFits ∧ e.Enough runs

theorem completeBoard_twice (distinct : e.Distinct) (contested : 1 < e.contested.length)
    (short : e.board.length < 5) (enough : e.Enough 2) (tabled : Bool) :
    ∃ boards e1, completeBoard 2 tabled e = .ok (boards, true) e1 ∧ e1.Distinct ∧ e1.board.length = 5 ∧
      e.Scorable boards := by
  unfold Enough at enough
  obtain ⟨rest, first, cards, length, dealt⟩ := deal_returns (e := e) (k := 5 - e.board.length) (by omega)
  have left : e.deck.length = rest.length + (5 - e.board.length) := by rw [cards, length_append, length]
  obtain ⟨rest', second, cards', length', dealt'⟩ :=
    deal_returns (e := { e with deck := rest }) (k := 5 - e.board.length) (by dsimp only; omega)
  dsimp only at cards'
  subst cards'
  refine ⟨[e.board ++ first, e.board ++ second],
    ({ e with deck := rest', board := e.board ++ first, board2 := some (e.board ++ second) } : Engine n).emit
      (.dealBoard (some 1) (e.board ++ first)) |>.emit (.dealBoard (some 2) (e.board ++ second)), ?_, ?_, ?_, ?_⟩
  · unfold completeBoard
    rw [bind_of_ok (m := get) (a := e) (t := e) rfl, if_pos contested, if_pos ⟨rfl, short⟩,
      bind_of_ok dealt, bind_of_ok dealt']
    rfl
  · intro i
    have held := distinct i
    rw [cards] at held
    change ((e.players i).hole ++ ((e.board ++ first) ++ rest')).Nodup
    grind [nodup_append]
  · change (e.board ++ first).length = 5
    rw [length_append]
    omega
  refine ⟨by simp, fun board member => ?_⟩
  simp only [mem_cons, not_mem_nil, or_false] at member
  have held := fun i => cards ▸ distinct i
  obtain rfl | rfl := member
  · exact ⟨by rw [length_append]; omega, fun i => by have := held i; grind [nodup_append]⟩
  exact ⟨by rw [length_append]; omega, fun i => by have := held i; grind [nodup_append]⟩

theorem distinct_scorable (distinct : e.Distinct) (full : e.board.length = 5) : e.Scorable [e.board] := by
  refine ⟨by simp, fun board member => ?_⟩
  rw [List.mem_singleton.mp member]
  exact ⟨full, fun i => (distinct i).sublist ((sublist_append_left _ _).append_left _)⟩

theorem completeBoard_once (distinct : e.Distinct) (contested : 1 < e.contested.length)
    (one : ¬(runs = 2 ∧ e.board.length < 5)) (complete : e.CanComplete 1) (tabled : Bool) :
    ∃ boards tabled' e1, completeBoard runs tabled e = .ok (boards, tabled') e1 ∧ e1.Distinct ∧
      e1.board.length = 5 ∧ e.Scorable boards := by
  have ran : ∃ e', runOut 3 e = .ok () e' ∧ e'.board.length = 5 ∧ e'.Distinct := by
    obtain full | ⟨playing, fits, enough⟩ := complete
    · exact ⟨e, by simp [runOut, full], full, distinct⟩
    exact runOut_returns 3 (by cases e.street <;> simp [Street.ahead]) playing fits enough distinct
  obtain ⟨e', ran, full, distinct'⟩ := ran
  have hands : e'.hands = e.hands :=
    keeps_ok (P := fun s => s.hands = e.hands) (runOut_keeps (nextStreet_hands e.hands) 3) rfl ran
  refine ⟨[e'.board], tabled || decide (e.board.length < 5), { e' with street := .showdown }, ?_, distinct', full, ?_⟩
  · unfold completeBoard
    rw [bind_of_ok (m := get) (a := e) (t := e) rfl, if_pos contested, if_neg one, bind_of_ok ran]
    rfl
  obtain ⟨some, scorable⟩ := distinct_scorable distinct' full
  exact ⟨some, fun board member => ⟨(scorable board member).1, fun i => by
    rw [← holes_of_hands hands]; exact (scorable board member).2 i⟩⟩

theorem completeBoard_returns (runsOk : runs = 1 ∨ runs = 2) (distinct : e.Distinct)
    (complete : 1 < e.contested.length → e.CanComplete runs) (tabled : Bool) :
    ∃ boards tabled' e1, completeBoard runs tabled e = .ok (boards, tabled') e1 ∧ e1.Distinct ∧
      (1 < e.contested.length → e1.board.length = 5 ∧ e.Scorable boards) := by
  by_cases contested : 1 < e.contested.length
  · have can := complete contested
    by_cases twice : runs = 2 ∧ e.board.length < 5
    · obtain ⟨rfl, short⟩ := twice
      obtain full | ⟨-, -, enough⟩ := can
      · omega
      obtain ⟨boards, e1, ran, distinct', full, scorable⟩ := completeBoard_twice distinct contested short enough tabled
      exact ⟨boards, true, e1, ran, distinct', fun _ => ⟨full, scorable⟩⟩
    have once : e.CanComplete 1 := by
      obtain rfl | rfl := runsOk
      · exact can
      refine can.elim Or.inl fun ⟨_, fits, _⟩ => Or.inl ?_
      have most := boardSize_le e.street
      unfold BoardFits at fits
      omega
    obtain ⟨boards, tabled', e1, ran, distinct', full, scorable⟩ :=
      completeBoard_once distinct contested twice once tabled
    exact ⟨boards, tabled', e1, ran, distinct', fun _ => ⟨full, scorable⟩⟩
  exact ⟨[e.board], tabled, e, by
    unfold completeBoard
    rw [bind_of_ok (m := get) (a := e) (t := e) rfl, if_neg contested]
    rfl, distinct, fun h => absurd h contested⟩

end Engine

end Holdem
