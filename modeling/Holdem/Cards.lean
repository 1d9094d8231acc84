import Mathlib.Data.List.Sort
import Mathlib.Data.List.FinRange
import Mathlib.Order.Lattice

/-!
Cards, the deck and the hand evaluator of `engine.py`, with the errors the modelled code raises.
-/

namespace Holdem

/-- Why `Engine.act` refuses an action, with the values its message names. -/
inductive Refusal where
  | unknownAction (word : String)
  | noSuchSeat (i : ℤ)
  | outOfTurn (i : ℤ) (actor : Option ℕ)
  | cannotAct (i : ℤ)
  | mayNotRaise (i : ℤ)
  | notWhole
  | outsideRange (amount minTo maxTo : ℤ)
  deriving DecidableEq, Repr

/-- The exceptions that leave a modelled function. `IllegalAction` is a `ValueError`. -/
inductive PyError where
  | illegalAction (why : Refusal)
  | valueError (text : String)
  | typeError
  | indexError
  | keyError
  | overflowError
  | zeroDivisionError
  | runtimeError (text : String)
  | unverifiedHoles (seats : List ℕ)
  | chipConservation (total startTotal : ℤ)
  | diverges
  deriving DecidableEq, Repr

def PyError.isValueError : PyError → Bool
  | .illegalAction _ | .valueError _ => true
  | _ => false

structure Card where
  v : ℕ
  s : Fin 4
  low : 2 ≤ v
  high : v ≤ 14
  deriving DecidableEq

def Card.rank (c : Card) : String :=
  if c.v ≤ 10 then toString c.v else ["J", "Q", "K", "A"].getD (c.v - 11) ""

def Card.suit (c : Card) : String := ["♣", "♦", "♥", "♠"].getD c.s.val ""

def fullDeck : List Card :=
  (List.finRange 13).flatMap fun r => (List.finRange 4).map fun s =>
    ⟨r.val + 2, s, by omega, by omega⟩

theorem fullDeck_length : fullDeck.length = 52 := by decide

theorem fullDeck_nodup : fullDeck.Nodup := by decide +kernel

namespace Deck

/-- `Deck.from_indices`: `indices[0]` is dealt first, so the list is reversed for `deal`. -/
def fromIndices (indices : List ℤ) : Except PyError (List Card) :=
  if indices.insertionSort (· ≤ ·) = (List.range 52).map Int.ofNat then
    .ok ((indices.reverse.map fun i => fullDeck[i.toNat]?).reduceOption)
  else .error (.valueError "deck indices must be a permutation of range(52)")

/-- `Deck.deal`: the dealt cards come off the tail, in list order. -/
def deal (cards : List Card) (k : ℕ) : Except PyError (List Card × List Card) :=
  if cards.length < k then
    .error (.valueError s!"cannot deal {k} card(s): {cards.length} left")
  else .ok (cards.drop (cards.length - k), cards.take (cards.length - k))

theorem deal_ok {cards out rest : List Card} {k : ℕ} (h : deal cards k = .ok (out, rest)) :
    cards = rest ++ out ∧ out.length = k := by
  unfold deal at h
  split at h
  · cases h
  cases h
  exact ⟨(List.take_append_drop _ _).symm, by rw [List.length_drop]; omega⟩

theorem deal_of_le {cards : List Card} {k : ℕ} (enough : k ≤ cards.length) :
    deal cards k = .ok (cards.drop (cards.length - k), cards.take (cards.length - k)) := by
  rw [deal, if_neg (by omega)]

theorem deal_append (cards out : List Card) : deal (cards ++ out) out.length = .ok (out, cards) := by
  rw [deal_of_le (by simp)]
  simp

end Deck

structure Score where
  category : ℕ
  tiebreakers : List ℕ
  deriving DecidableEq, Repr

def Score.key (score : Score) : List ℕ := score.category :: score.tiebreakers

def suitCount (cards : List Card) (s : Fin 4) : ℕ := cards.countP fun c => c.s = s

def counts (cards : List Card) (v : ℕ) : ℕ := cards.countP fun c => c.v = v

def rankMask (cards : List Card) : ℕ := cards.foldl (fun mask c => mask ||| 1 <<< c.v) 0

/-- `range(14, 1, -1)`. -/
def ranksDown : List ℕ := [14, 13, 12, 11, 10, 9, 8, 7, 6, 5, 4, 3, 2]

def straightScan (mask : ℕ) : List ℕ → ℕ → ℕ
  | [], _ => 0
  | r :: rs, run =>
    if mask.testBit r then
      if run + 1 = 5 then r + 4 else straightScan mask rs (run + 1)
    else straightScan mask rs 0

/-- The entry of `_STRAIGHT_HIGH` for a rank mask, 0 where the table has none. -/
def straightHigh (mask : ℕ) : ℕ :=
  straightScan (if mask.testBit 14 then mask ||| 1 <<< 1 else mask) (ranksDown ++ [1]) 0

structure Groups where
  quads : ℕ := 0
  trips : ℕ := 0
  pairs : List ℕ := []
  deriving DecidableEq, Repr

def groupStep (cards : List Card) (g : Groups) (v : ℕ) : Groups :=
  if counts cards v = 4 ∧ g.quads = 0 then { g with quads := v }
  else if counts cards v = 3 then
    -- second trips plays as a pair
    if g.trips = 0 then { g with trips := v } else { g with pairs := g.pairs ++ [v] }
  else if counts cards v = 2 then { g with pairs := g.pairs ++ [v] }
  else g

def groups (cards : List Card) : Groups := ranksDown.foldl (groupStep cards) {}

def kickers (cards : List Card) (without : List ℕ) : List ℕ :=
  ranksDown.filter fun v => 0 < counts cards v ∧ v ∉ without

def flushSuit (cards : List Card) : Option (Fin 4) :=
  (List.finRange 4).find? fun s => 5 ≤ suitCount cards s

def evaluateFlush (cards : List Card) (fs : Fin 4) : Score :=
  let suited := cards.filter fun c => c.s = fs
  let sf := straightHigh (rankMask suited)
  if sf ≠ 0 then ⟨8, [sf]⟩
  else ⟨5, ((suited.map Card.v).insertionSort (· ≥ ·)).take 5⟩

def evaluateRanks (cards : List Card) : Except PyError Score :=
  let g := groups cards
  let st := straightHigh (rankMask cards)
  if g.quads ≠ 0 then
    match (kickers cards [g.quads]).max? with
    | some kick => .ok ⟨7, [g.quads, kick]⟩
    | none => .error (.valueError "max() iterable argument is empty")
  else match g.trips, g.pairs with
    | trips + 1, pair :: _ => .ok ⟨6, [trips + 1, pair]⟩
    | trips, pairs =>
      if st ≠ 0 then .ok ⟨4, [st]⟩
      else if trips ≠ 0 then
        match kickers cards [trips] with
        | k0 :: k1 :: _ => .ok ⟨3, [trips, k0, k1]⟩
        | _ => .error .indexError
      else match pairs with
        | p1 :: p2 :: _ =>
          match (kickers cards [p1, p2]).max? with
          | some kick => .ok ⟨2, [p1, p2, kick]⟩
          | none => .error (.valueError "max() iterable argument is empty")
        | [p] =>
          match kickers cards [p] with
          | k0 :: k1 :: k2 :: _ => .ok ⟨1, [p, k0, k1, k2]⟩
          | _ => .error .indexError
        | [] => .ok ⟨0, (kickers cards []).take 5⟩

def evaluate (cards : List Card) : Except PyError Score :=
  match flushSuit cards with
  | some fs => .ok (evaluateFlush cards fs)
  | none => evaluateRanks cards

def combinations {α : Type} : ℕ → List α → List (List α)
  | 0, _ => [[]]
  | _ + 1, [] => []
  | k + 1, x :: xs => (combinations k xs).map (x :: ·) ++ combinations (k + 1) xs

def bestStep (best : Option (Score × List Card)) (combo : List Card) :
    Except PyError (Option (Score × List Card)) := do
  let score ← evaluate combo
  match best with
  | none => return some (score, combo)
  | some (top, _) => return if top.key < score.key then some (score, combo) else best

def bestFive (cards : List Card) : Except PyError (List Card) := do
  match ← (combinations 5 cards).foldlM bestStep none with
  | some (_, combo) => return combo
  | none => throw .typeError

end Holdem
