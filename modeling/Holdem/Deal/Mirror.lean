import Mathlib.Data.List.ReduceOption
import Holdem.Engine.Setup
import Holdem.Deal.Map

/-!
The deal map against the deal. The engine deals round a ring of all its seats and the map counts
positions; they name the same card for every hole card and every board slot.
-/

namespace Holdem

open List

variable {n : ℕ}

def cardAt (indices : List ℤ) (position : ℕ) : Option Card :=
  indices[position]?.bind fun i => fullDeck[i.toNat]?

namespace Deck

def served (indices : List ℤ) : List Card := indices.filterMap fun i => fullDeck[i.toNat]?

theorem served_at {indices : List ℤ} (valid : ∀ i ∈ indices, fullDeck[i.toNat]? ≠ none) (p : ℕ) :
    (served indices)[p]? = cardAt indices p := by
  induction indices generalizing p with
  | nil => simp [served, cardAt]
  | cons i rest ih =>
    obtain ⟨c, found⟩ := Option.ne_none_iff_exists'.mp (valid i (.head _))
    have here : served (i :: rest) = c :: served rest := by simp [served, found]
    rw [here]
    cases p with
    | zero => simp [cardAt, found]
    | succ p =>
      rw [getElem?_cons_succ, ih (fun j member => valid j (mem_cons_of_mem _ member))]
      simp [cardAt]

theorem fromIndices_ok {indices : List ℤ} {deck : List Card} (built : fromIndices indices = .ok deck) :
    deck = (served indices).reverse ∧ ∀ i ∈ indices, fullDeck[i.toNat]? ≠ none := by
  unfold fromIndices at built
  split at built
  · rename_i sorted
    cases built
    refine ⟨?_, fun i member => ?_⟩
    · rw [served, List.reduceOption, filterMap_map, ← filterMap_reverse]
      rfl
    have : i ∈ (range 52).map Int.ofNat := by
      rw [← sorted, mem_insertionSort]
      exact member
    obtain ⟨k, below, rfl⟩ := List.mem_map.mp this
    have : k < fullDeck.length := by
      rw [fullDeck_length]
      exact List.mem_range.mp below
    simp [this]
  cases built

theorem deal_served {cards out rest : List Card} {k : ℕ} (dealt : deal cards.reverse k = .ok (out, rest)) :
    k ≤ cards.length ∧ out = (cards.take k).reverse ∧ rest = (cards.drop k).reverse := by
  obtain ⟨split, length⟩ := deal_ok dealt
  have whole : cards = out.reverse ++ rest.reverse := by
    rw [← reverse_append, ← split, reverse_reverse]
  have size : out.reverse.length = k := by simpa using length
  refine ⟨?_, ?_, ?_⟩
  · rw [whole, length_append, size]
    omega
  · rw [whole, take_append_of_le_length size.ge, take_of_length_le size.le, reverse_reverse]
  rw [whole, drop_append_of_le_length size.ge, drop_of_length_le size.le, nil_append, reverse_reverse]

end Deck

namespace Engine

variable {e e' : Engine n} {cards : List Card} {u : Unit}

open Method

theorem deal_at {out : List Card} {k : ℕ} (deck : e.deck = cards.reverse) (ran : deal k e = .ok out e') :
    k ≤ cards.length ∧ out = (cards.take k).reverse ∧ e' = { e with deck := (cards.drop k).reverse } := by
  unfold deal at ran
  rw [deck] at ran
  split at ran
  · rename_i found
    cases ran
    obtain ⟨enough, rfl, rfl⟩ := Deck.deal_served found
    exact ⟨enough, rfl, rfl⟩
  cases ran

theorem pass_deals (order : List (Fin n)) (distinct : order.Nodup) (deck : e.deck = cards.reverse)
    (ran : order.forM dealTo e = .ok u e') :
    order.length ≤ cards.length ∧ e'.deck = (cards.drop order.length).reverse ∧
      ∀ i, (e'.players i).hole = (e.players i).hole ++ if i ∈ order then (cards[order.idxOf i]?).toList else [] := by
  induction order generalizing e cards with
  | nil =>
    cases ran
    exact ⟨Nat.zero_le _, deck, fun i => by simp⟩
  | cons seat rest ih =>
    obtain ⟨fresh, distinct⟩ := List.nodup_cons.mp distinct
    change (dealTo seat >>= fun _ => rest.forM dealTo) e = _ at ran
    obtain ⟨_, e1, dealt, ran⟩ := bind_ok ran
    obtain ⟨out, e2, taken, dealt⟩ := bind_ok dealt
    obtain ⟨some, rfl, rfl⟩ := deal_at deck taken
    cases dealt
    obtain ⟨enough, left, holes⟩ := ih distinct rfl ran
    obtain ⟨c, cards, rfl⟩ : ∃ c others, cards = c :: others := by
      cases cards with
      | nil => simp at some
      | cons c others => exact ⟨c, others, rfl⟩
    refine ⟨?_, ?_, fun i => ?_⟩
    · simp only [drop_succ_cons, drop_zero, length_cons] at enough ⊢
      omega
    · rw [left]
      simp
    rw [holes i]
    by_cases here : i = seat
    · subst here
      rw [update_same, if_neg fresh, if_pos mem_cons_self]
      simp
    rw [update_other _ _ here]
    have place : List.idxOf i (seat :: rest) = rest.idxOf i + 1 := idxOf_cons_ne rest (Ne.symm here)
    rw [place]
    simp [here]

theorem dealHoles_deal (deck : e.deck = cards.reverse) (ran : dealHoles e = .ok () e') :
    2 * e.dealOrder.length ≤ cards.length ∧ e'.deck = (cards.drop (2 * e.dealOrder.length)).reverse ∧
      ∀ i ∈ e.dealOrder, (e'.players i).hole = (e.players i).hole ++ (cards[e.dealOrder.idxOf i]?).toList ++
        (cards[e.dealOrder.length + e.dealOrder.idxOf i]?).toList := by
  have distinct : e.dealOrder.Nodup := (Circle.lap_nodup _).filter _
  obtain ⟨_, e1, first, second⟩ := bind_ok (m := e.dealOrder.forM dealTo) ran
  obtain ⟨enough, deck1, holes1⟩ := pass_deals e.dealOrder distinct deck first
  obtain ⟨enough', deck2, holes2⟩ := pass_deals e.dealOrder distinct deck1 second
  refine ⟨?_, ?_, fun i member => ?_⟩
  · rw [length_drop] at enough'
    omega
  · rw [deck2, drop_drop]
    congr 2
    omega
  rw [holes2 i, holes1 i, if_pos member, if_pos member, getElem?_drop]

def acted (e : Engine n) (acts : List (ℤ × Action × Amount)) : Engine n :=
  acts.foldl (fun e a => after (act a.1 a.2.1 a.2.2 e)) e

theorem acted_still (e : Engine n) (acts : List (ℤ × Action × Amount)) : (e.acted acts).still = e.still := by
  induction acts generalizing e with
  | nil => rfl
  | cons a rest ih =>
    refine (ih (after (act a.1 a.2.1 a.2.2 e))).trans ?_
    cases ran : act a.1 a.2.1 a.2.2 e with
    | ok u e' => exact act_still ran
    | error x e' => rw [act_refused ran]; rfl

theorem nextStreet_serves {board : List Card} {holes : Fin n → List Card} {street next : Street} {k : ℕ}
    (deals : street.deals = some (k, next)) (layout : e.layout = ⟨street, cards.reverse, board, holes⟩)
    (ran : nextStreet e = .ok u e') :
    k ≤ cards.length ∧ e'.layout = ⟨next, (cards.drop k).reverse, board ++ (cards.take k).reverse, holes⟩ ∧
      e'.table = e.table := by
  have atStreet : e.street = street := congrArg Layout.street layout
  have deck : e.deck = cards.reverse := congrArg Layout.deck layout
  have onBoard : e.board = board := congrArg Layout.board layout
  have held : (fun i => (e.players i).hole) = holes := congrArg Layout.holes layout
  have table : e'.table = e.table := keeps_ok (P := fun s => s.table = e.table) (nextStreet_table e.table) rfl ran
  by_cases enough : k ≤ e.deck.length
  · obtain ⟨rest, out, e1, split, length, laid, street', board', deck', hands⟩ :=
      nextStreet_lays (atStreet ▸ deals) enough
    obtain rfl : e' = e1 := by
      rw [ran] at laid
      cases laid
      rfl
    have dealt : Deck.deal cards.reverse k = .ok (out, rest) := by
      rw [← deck, split, ← length]
      exact Deck.deal_append rest out
    obtain ⟨fits, outEq, restEq⟩ := Deck.deal_served dealt
    refine ⟨fits, ?_, table⟩
    have holes' : (fun i => (e'.players i).hole) = holes := by
      rw [← held]
      exact funext fun i => holes_of_hands hands i
    rw [Engine.layout, street', deck', board', holes', onBoard, outEq, restEq]
  obtain ⟨_, _, rest, out, deals', split, length, -⟩ | ⟨_, _, x, -, -, failed⟩ | ⟨river, -⟩ | ⟨ended, -⟩ := nextStreet_cases e
  · rw [atStreet, deals] at deals'
    cases deals'
    rw [split, length_append] at enough
    omega
  · rw [ran] at failed
    cases failed
  · rw [← atStreet, river] at deals
    cases deals
  rw [← atStreet] at deals
  obtain idle | showdown := ended
  · rw [idle] at deals
    cases deals
  rw [showdown] at deals
  cases deals

theorem startHand_deal {straddleFn : Option (Fin n → Bool)}
    (started : startHand straddleFn cards.reverse e = .ok true e') :
    2 * e'.dealOrder.length ≤ cards.length ∧
      ∃ holes, e'.layout = ⟨.preflop, (cards.drop (2 * e'.dealOrder.length)).reverse, [], holes⟩ ∧
        ∀ i ∈ e'.dealOrder, holes i = (cards[e'.dealOrder.idxOf i]?).toList ++
          (cards[e'.dealOrder.length + e'.dealOrder.idxOf i]?).toList := by
  obtain ⟨⟨placed, sbSeat, bbSeat, dealt, first, positions, -, -, -, deal, -, rfl⟩⟩ := startHand_opening started
  have ground := ground_postAll (placed.resetSeats.newHand cards.reverse) sbSeat bbSeat straddleFn
  obtain ⟨posted, atPosted⟩ : ∃ posted, placed.posted sbSeat bbSeat straddleFn cards.reverse = posted := ⟨_, rfl⟩
  change (placed.posted sbSeat bbSeat straddleFn cards.reverse).ground = _ at ground
  rw [atPosted] at ground deal
  have deck : posted.deck = cards.reverse := congrArg Ground.deck ground
  have empty : ∀ i, (posted.players i).hole = [] := fun i => congrArg (fun g => (g.footing i).2.2.2) ground
  obtain ⟨enough, left, holes⟩ := dealHoles_deal deck deal
  obtain ⟨deck', hole', same⟩ := keeps_ok (dealHoles_deals posted) (deals_refl posted) deal
  have order : (dealt.openRound first).dealOrder = posted.dealOrder := by
    have button : (dealt.openRound first).button = dealt.button := by
      unfold openRound
      dsimp only
      split <;> rfl
    unfold dealOrder
    rw [openRound_players, button, same]
  rw [order]
  refine ⟨enough, fun i => (dealt.players i).hole, ?_, fun i member => ?_⟩
  · rw [openRound_layout, Engine.layout, left]
    have street : dealt.street = .preflop := by rw [same]; exact congrArg Ground.street ground
    have board : dealt.board = [] := by rw [same]; exact congrArg Ground.board ground
    rw [street, board]
  dsimp only
  rw [holes i member, empty i, nil_append]

end Engine

namespace DealMap

theorem lap_above {button ring : ℕ} (inside : button < ring) : (range ring).map (fun k => (button + 1 + k) % ring) =
      range' (button + 1) (ring - (button + 1)) ++ range (button + 1) := by
  refine ext_getElem (by simp; omega) fun k short there => ?_
  have bound : k < ring := by simpa using short
  rw [getElem_map, getElem_range, getElem_append]
  split
  · rename_i above
    rw [length_range'] at above
    rw [getElem_range', Nat.mod_eq_of_lt (by omega)]
    omega
  rename_i wrapped
  rw [length_range'] at wrapped
  rw [getElem_range, Nat.mod_eq_sub_mod (by omega), Nat.mod_eq_of_lt (by omega), length_range']
  omega

theorem filter_above {seats : List ℕ} {button ring : ℕ} (inside : button < ring) (fits : ring ≤ n)
    (below : ∀ seat ∈ seats, seat < ring) :
    (range' (button + 1) (n - (button + 1))).filter (· ∈ seats) =
      (range' (button + 1) (ring - (button + 1))).filter (· ∈ seats) := by
  have split : n - (button + 1) = (ring - (button + 1)) + (n - ring) := by omega
  have none : (range' (button + 1 + (ring - (button + 1))) (n - ring)).filter (· ∈ seats) = [] := by
    refine List.filter_eq_nil_iff.mpr fun seat member => ?_
    have low := (mem_range'_1.mp member).1
    have := below seat
    simp only [decide_eq_true_eq]
    intro taken
    have := this taken
    omega
  rw [split, ← range'_append_1, filter_append, none, append_nil]

theorem foldr_max_lt {seats : List ℕ} (some : 0 < n) (below : ∀ seat ∈ seats, seat < n) : seats.foldr max 0 < n := by
  induction seats with
  | nil => exact some
  | cons k rest ih =>
    rw [foldr_cons]
    exact max_lt (below k (.head _)) (ih fun j member => below j (.tail _ member))

theorem dealOrder_eq (e : Engine n) : e.dealOrder.map Fin.val = seatDealOrder e.button (e.seated.map Fin.val) := by
  have seat : ∀ i, (e.players i).inSeat = decide (i.val ∈ e.seated.map Fin.val) := fun i => by
    have : i.val ∈ e.seated.map Fin.val ↔ (e.players i).inSeat = true := by
      rw [mem_map_of_injective Fin.val_injective, Engine.seated, Engine.mem_seatsWhere]
    simp [this]
  have below : ∀ k ∈ e.seated.map Fin.val, k < n := fun k member => by
    obtain ⟨i, -, rfl⟩ := List.mem_map.mp member
    exact i.isLt
  have inRing : ∀ k ∈ e.seated.map Fin.val, k < ring e.button (e.seated.map Fin.val) := fun k member => by
    have := le_foldr_max member
    unfold ring
    omega
  have fits : ring e.button (e.seated.map Fin.val) ≤ n := by
    have := e.button.isLt
    have most := foldr_max_lt e.button.pos below
    unfold ring
    omega
  have start : e.button.val < ring e.button (e.seated.map Fin.val) := by
    unfold ring
    omega
  have lap : (Circle.lap (Circle.step e.button 1)).map Fin.val = (range n).map fun k => (e.button.val + 1 + k) % n := by
    rw [Circle.lap, map_map]
    refine map_congr_left fun k _ => ?_
    exact Nat.mod_add_mod _ _ _
  have swap : ((Circle.lap (Circle.step e.button 1)).map Fin.val).filter (· ∈ e.seated.map Fin.val) =
      ((Circle.lap (Circle.step e.button 1)).filter fun i => decide (i.val ∈ e.seated.map Fin.val)).map Fin.val :=
    filter_map
  rw [Engine.dealOrder, funext seat, ← swap, lap, lap_above e.button.isLt, seatDealOrder, lap_above start, filter_append, filter_append,
    filter_above start fits inRing]

section Positions

variable {button : ℕ} {seats : List ℕ} {k : ℕ}

theorem position_at {target : Destination} (there : (dealMap button seats)[k]? = some target) :
    position button seats target = k := by
  obtain ⟨inside, rfl⟩ := List.getElem?_eq_some_iff.mp there
  exact dealMap_nodup.idxOf_getElem k inside

theorem position_hole {seat : ℕ} (there : (seatDealOrder button seats)[k]? = some seat) :
    position button seats (.hole seat 0) = k ∧
      position button seats (.hole seat 1) = (seatDealOrder button seats).length + k := by
  have inside := (List.getElem?_eq_some_iff.mp there).1
  constructor
  · refine position_at ?_
    rw [dealMap, append_assoc, getElem?_append_left (by simpa using inside), getElem?_map, there]
    rfl
  refine position_at ?_
  rw [dealMap, getElem?_append_left (by simp; omega), getElem?_append_right (by simp), length_map,
    Nat.add_sub_cancel_left, getElem?_map, there]
  rfl

theorem boardPositions_eq (button : ℕ) (seats : List ℕ) :
    boardPositions button seats = [2, 1, 0, 3, 4].map (2 * (seatDealOrder button seats).length + ·) := by
  have slot : ∀ k < 5, ∀ target, ([.board 2, .board 1, .board 0, .board 3, .board 4] : List Destination)[k]? = some target →
      position button seats target = 2 * (seatDealOrder button seats).length + k := by
    intro k _ target there
    refine position_at ?_
    rw [dealMap, getElem?_append_right (by simp; omega), ← there]
    congr 1
    simp
    omega
  simp only [boardPositions, range, range.loop, map_cons, map_nil]
  rw [slot 2 (by decide) (.board 0) rfl, slot 1 (by decide) (.board 1) rfl, slot 0 (by decide) (.board 2) rfl,
    slot 3 (by decide) (.board 3) rfl, slot 4 (by decide) (.board 4) rfl]

theorem positions_first (button : ℕ) (seats : List ℕ) :
    (seatDealOrder button seats).map (fun seat => position button seats (.hole seat 0)) =
      range (seatDealOrder button seats).length := by
  refine ext_getElem (by simp) fun k short there => ?_
  rw [getElem_map, getElem_range]
  exact (position_hole (getElem?_eq_getElem (by simpa using there))).1

theorem positions_second (button : ℕ) (seats : List ℕ) :
    (seatDealOrder button seats).map (fun seat => position button seats (.hole seat 1)) =
      (range (seatDealOrder button seats).length).map ((seatDealOrder button seats).length + ·) := by
  refine ext_getElem (by simp) fun k short there => ?_
  rw [getElem_map, getElem_map, getElem_range]
  exact (position_hole (getElem?_eq_getElem (by simpa using there))).2

theorem positions_perm (button : ℕ) (seats : List ℕ) :
    ((holePositions button seats).flatMap Prod.snd ++ boardPositions button seats).Perm
      (range (2 * (seatDealOrder button seats).length + 5)) := by
  have holes : ((holePositions button seats).flatMap Prod.snd).Perm (range (2 * (seatDealOrder button seats).length)) := by
    have both := (seatDealOrder button seats).map_append_flatMap_perm (fun seat => position button seats (.hole seat 0))
      fun seat => [position button seats (.hole seat 1)]
    rw [← map_eq_flatMap, positions_first, positions_second, ← range_add, ← two_mul] at both
    refine List.Perm.trans (List.Perm.of_eq ?_) both.symm
    rw [holePositions, flatMap_map]
  have slots : (boardPositions button seats).Perm ((range 5).map (2 * (seatDealOrder button seats).length + ·)) := by
    rw [boardPositions_eq]
    exact List.Perm.map _ (by decide)
  rw [range_add]
  exact holes.append slots

end Positions

end DealMap

namespace Engine

open DealMap Method

theorem mem_dealOrder {e : Engine n} {i : Fin n} : i ∈ e.dealOrder ↔ i ∈ e.seated := by
  rw [dealOrder, mem_filter, seated, mem_seatsWhere]
  simp [Circle.mem_lap]

theorem lookup_map_self {α : Type} {f : ℕ → α} {xs : List ℕ} {x : ℕ} (member : x ∈ xs) :
    (xs.map fun y => (y, f y)).lookup x = some (f x) := by
  induction xs with
  | nil => cases member
  | cons y rest ih =>
    rw [map_cons, lookup_cons]
    by_cases here : x = y
    · simp [here]
    rw [beq_false_of_ne here]
    exact ih ((List.mem_cons.mp member).resolve_left here)

theorem toList_map_some {α : Type} {x : Option α} (found : x ≠ none) : x.toList.map some = [x] := by
  cases x with
  | none => exact absurd rfl found
  | some a => rfl

theorem reverse_take_map {cards : List Card} (enough : 5 ≤ cards.length) :
    ((cards.take 3).reverse ++ ((cards.drop 3).take 1).reverse ++ (((cards.drop 3).drop 1).take 1).reverse).map some =
      [cards[2]?, cards[1]?, cards[0]?, cards[3]?, cards[4]?] := by
  match cards, enough with
  | _ :: _ :: _ :: _ :: _ :: _, _ => rfl

/-- The deal map names the cards the engine deals. -/
theorem deal_mirrored {straddleFn : Option (Fin n → Bool)} {indices : List ℤ} {deck : List Card}
    {e e₀ e₁ e₂ e₃ : Engine n} {preflop flop turn : List (ℤ × Action × Amount)}
    (built : Deck.fromIndices indices = .ok deck) (started : startHand straddleFn deck e = .ok true e₀)
    (first : nextStreet (e₀.acted preflop) = .ok () e₁) (second : nextStreet (e₁.acted flop) = .ok () e₂)
    (third : nextStreet (e₂.acted turn) = .ok () e₃) :
    (∀ s ∈ e₀.seated, ∃ p₀ p₁, (holePositions e₀.button (e₀.seated.map Fin.val)).lookup s.val = some [p₀, p₁] ∧
      (e₃.players s).hole.map some = [cardAt indices p₀, cardAt indices p₁]) ∧
    e₃.board.map some = (boardPositions e₀.button (e₀.seated.map Fin.val)).map (cardAt indices) ∧
    ((holePositions e₀.button (e₀.seated.map Fin.val)).flatMap Prod.snd ++
      boardPositions e₀.button (e₀.seated.map Fin.val)).Perm (range (2 * e₀.seated.length + 5)) := by
  obtain ⟨rfl, valid⟩ := Deck.fromIndices_ok built
  obtain ⟨enough, holes, layout, held⟩ := startHand_deal started
  have order := dealOrder_eq e₀
  have count : (seatDealOrder e₀.button (e₀.seated.map Fin.val)).length = e₀.dealOrder.length := by
    rw [← order, length_map]
  have seats : e₀.dealOrder.length = e₀.seated.length := by
    refine List.Perm.length_eq ((perm_ext_iff_of_nodup ((Circle.lap_nodup _).filter _) (seatsWhere_nodup e₀ _)).mpr fun i => ?_)
    exact mem_dealOrder
  -- the three streets
  have layout₁ : (e₀.acted preflop).layout = _ := (congrArg Prod.snd (acted_still e₀ preflop)).trans layout
  obtain ⟨fits₁, layout₁, -⟩ := nextStreet_serves rfl layout₁ first
  have layout₂ : (e₁.acted flop).layout = _ := (congrArg Prod.snd (acted_still e₁ flop)).trans layout₁
  obtain ⟨fits₂, layout₂, -⟩ := nextStreet_serves rfl layout₂ second
  have layout₃ : (e₂.acted turn).layout = _ := (congrArg Prod.snd (acted_still e₂ turn)).trans layout₂
  obtain ⟨fits₃, layout₃, -⟩ := nextStreet_serves rfl layout₃ third
  obtain ⟨cards, rest⟩ : ∃ cards, (Deck.served indices).drop (2 * e₀.dealOrder.length) = cards := ⟨_, rfl⟩
  rw [rest] at fits₁ fits₂ fits₃ layout₃
  refine ⟨fun s member => ?_, ?_, ?_⟩
  · have dealt := mem_dealOrder.mpr member
    have place : (seatDealOrder e₀.button (e₀.seated.map Fin.val))[e₀.dealOrder.idxOf s]? = some s.val := by
      rw [← order, getElem?_map, getElem?_idxOf dealt]
      rfl
    obtain ⟨zeroth, oneth⟩ := position_hole place
    refine ⟨_, _, lookup_map_self (mem_seatDealOrder.mpr (mem_map_of_mem member)), ?_⟩
    have inside := idxOf_lt_length_of_mem dealt
    have both : ∀ p < 2 * e₀.dealOrder.length, (Deck.served indices)[p]? ≠ none := fun p below =>
      (getElem?_eq_getElem (by omega : p < (Deck.served indices).length)).symm ▸ by simp
    have hole : (e₃.players s).hole = _ := (congrFun (congrArg Layout.holes layout₃) s).trans (held s dealt)
    rw [hole, map_append, toList_map_some (both _ (by omega)), toList_map_some (both _ (by omega)), Deck.served_at valid,
      Deck.served_at valid, zeroth, oneth, count]
    rfl
  · have board : e₃.board = (cards.take 3).reverse ++ ((cards.drop 3).take 1).reverse ++
        (((cards.drop 3).drop 1).take 1).reverse := congrArg Layout.board layout₃
    have five : 5 ≤ cards.length := by
      simp only [length_drop] at fits₃
      omega
    rw [board, reverse_take_map five, boardPositions_eq, count]
    simp only [← rest, getElem?_drop, Deck.served_at valid, map_cons, map_nil]
  rw [← seats, ← count]
  exact positions_perm _ _

def headsUp : Engine 2 := init (fun _ => 100) 1 1 2 .noLimit false false

def inOrder : List ℤ := (range 52).map Int.ofNat

theorem deal_mirrored_headsUp :
    ∃ e₀ e₃ : Engine 2, startHand none (Deck.served inOrder).reverse headsUp = .ok true e₀ ∧
      e₃.board.map some = (boardPositions e₀.button (e₀.seated.map Fin.val)).map (cardAt inOrder) := by
  have built : Deck.fromIndices inOrder = .ok (Deck.served inOrder).reverse := by decide +kernel
  have started := eq_ok_of_value (show value (startHand none (Deck.served inOrder).reverse headsUp) = some true by
    decide +kernel)
  obtain ⟨e₀, at₀⟩ : ∃ e₀, after (startHand none (Deck.served inOrder).reverse headsUp) = e₀ := ⟨_, rfl⟩
  have first := eq_ok_of_value (show value (nextStreet (e₀.acted [])) = some () by rw [← at₀]; decide +kernel)
  obtain ⟨e₁, at₁⟩ : ∃ e₁, after (nextStreet (e₀.acted [])) = e₁ := ⟨_, rfl⟩
  have second := eq_ok_of_value (show value (nextStreet (e₁.acted [])) = some () by rw [← at₁, ← at₀]; decide +kernel)
  obtain ⟨e₂, at₂⟩ : ∃ e₂, after (nextStreet (e₁.acted [])) = e₂ := ⟨_, rfl⟩
  have third := eq_ok_of_value (show value (nextStreet (e₂.acted [])) = some () by
    rw [← at₂, ← at₁, ← at₀]
    decide +kernel)
  rw [at₀] at started
  rw [at₁] at first
  rw [at₂] at second
  exact ⟨e₀, _, started, (deal_mirrored built started first second third).2.1⟩

end Engine

end Holdem
