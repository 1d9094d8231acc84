import Holdem.Deal.Moves

/-!
What an honest seat sends, whatever it is sent: one key, one shuffle, in its turn, and one share of each
position it may open, all of one deck.
-/

set_option linter.unusedSectionVars false

namespace Holdem.MentalDeal

open State
open List (append_nil map_cons mem_cons mem_map mem_pair nil_append nodup_nil)

variable {F G P S : Type} [Field F] [DecidableEq F] [AddCommGroup G] [Module F G] [DecidableEq G]
  (C : Suite F G P S) (c : Config) (K : Secrets F G P S)

open Method DealMap

@[simp] theorem kind_keyAnnounce (seat : ℕ) (X : G) (pop : P) : kind (keyAnnounce C seat X pop) = .keyAnnounce := rfl

@[simp] theorem kind_deckRound (round seat : ℕ) (deck : Deck G) (proof : Option S) :
    kind (deckRound C round seat deck proof) = .deckRound := rfl

@[simp] theorem kind_dealShare (pos seat : ℕ) (D : G) (proof : P) : kind (dealShare C pos seat D proof) = .dealShare := rfl

@[simp] theorem kind_auditOpen (seat : ℕ) (shares : List (DeckAudit.PositionShare G P)) (w : Option (ShuffleWitness F)) :
    kind (auditOpen C seat shares w) = .auditOpen := rfl

def ofKind (k : Kind) (log : List Message) : List Message := log.filter fun msg => kind msg = k

@[simp] theorem ofKind_nil (k : Kind) : ofKind k [] = [] := rfl

@[simp] theorem ofKind_append (k : Kind) (log more : List Message) : ofKind k (log ++ more) = ofKind k log ++ ofKind k more :=
  List.filter_append log more

@[simp] theorem ofKind_cons (k : Kind) (msg : Message) (log : List Message) :
    ofKind k (msg :: log) = if kind msg = k then msg :: ofKind k log else ofKind k log := by
  simp [ofKind, List.filter_cons]

variable {C c K}

theorem Config.expectedShuffler_inj {r r' s : ℕ} (first : c.expectedShuffler r = some s)
    (second : c.expectedShuffler r' = some s) : r = r' := by
  unfold Config.expectedShuffler at first second
  split at first
  · split at second
    · have distinct : c.seatsIn.Nodup := c.sorted.imp Nat.ne_of_lt
      have same := (List.getElem?_inj (List.getElem?_eq_some_iff.mp first).1 distinct).mp (first.trans second.symm)
      omega
    cases second
  cases first

theorem Config.mem_otherHoles {pos : ℕ} :
    pos ∈ c.otherHoles ↔ ∃ s ∈ c.seatsIn, s ≠ c.seat ∧ ∃ ordinal < 2, pos = position c.button c.seatsIn (.hole s ordinal) := by
  simp only [Config.otherHoles, holePositions, List.mem_flatMap, List.mem_filter, mem_map, decide_eq_true_eq]
  constructor
  · rintro ⟨entry, ⟨⟨s, member, rfl⟩, other⟩, inside⟩
    refine ⟨s, mem_seatDealOrder.mp member, other, ?_⟩
    obtain rfl | rfl := mem_pair.mp inside
    · exact ⟨0, by decide, rfl⟩
    exact ⟨1, by decide, rfl⟩
  rintro ⟨s, member, other, ordinal, below, rfl⟩
  refine ⟨_, ⟨⟨s, mem_seatDealOrder.mpr member, rfl⟩, other⟩, mem_pair.mpr ?_⟩
  obtain rfl | rfl := (show ordinal = 0 ∨ ordinal = 1 by omega)
  · exact .inl rfl
  exact .inr rfl

theorem Config.otherHoles_nodup : c.otherHoles.Nodup := by
  have member : ∀ entry ∈ holePositions c.button c.seatsIn, ∃ s ∈ c.seatsIn, entry =
      (s, [position c.button c.seatsIn (.hole s 0), position c.button c.seatsIn (.hole s 1)]) := by
    intro entry inside
    obtain ⟨s, there, rfl⟩ := mem_map.mp inside
    exact ⟨s, mem_seatDealOrder.mp there, rfl⟩
  refine List.nodup_flatMap.mpr ⟨?_, ?_⟩
  · intro entry inside
    obtain ⟨s, there, rfl⟩ := member entry (List.mem_of_mem_filter inside)
    refine List.nodup_cons.mpr ⟨fun same => ?_, List.nodup_singleton _⟩
    have := position_injective (mem_dealMap_hole.mpr ⟨there, by decide⟩) (List.mem_singleton.mp same)
    simp at this
  have seats : (holePositions c.button c.seatsIn).Pairwise fun first second => first.1 ≠ second.1 :=
    List.pairwise_map.mpr seatDealOrder_nodup
  refine (List.Pairwise.and_mem.mp (seats.filter _)).imp ?_
  rintro first second ⟨first', second', other⟩
  obtain ⟨s, there, rfl⟩ := member first (List.mem_of_mem_filter first')
  obtain ⟨t, -, rfl⟩ := member second (List.mem_of_mem_filter second')
  intro pos inside both
  simp only [mem_pair] at inside both
  rcases inside with rfl | rfl <;> rcases both with same | same <;>
  · have := position_injective (mem_dealMap_hole.mpr ⟨there, by decide⟩) same
    simp_all

variable {street : String} {slots : List ℕ}

theorem streetSlots_lt (known : streetSlots street = some slots) : ∀ slot ∈ slots, slot < 5 := by
  unfold streetSlots at known
  split at known <;> cases known <;> decide

theorem streetSlots_nodup (known : streetSlots street = some slots) : slots.Nodup := by
  unfold streetSlots at known
  split at known <;> cases known <;> decide

variable {slot : ℕ}

theorem streetSlots_disjoint {street' : String} {slots' : List ℕ}
    (known : streetSlots street = some slots) (known' : streetSlots street' = some slots') (inside : slot ∈ slots)
    (inside' : slot ∈ slots') : street = street' := by
  unfold streetSlots at known known'
  split at known <;> cases known <;> split at known' <;> cases known' <;> simp_all

theorem boardPositions_getD (below : slot < 5) :
    (boardPositions c.button c.seatsIn).getD slot 0 = position c.button c.seatsIn (.board slot) := by
  simp [boardPositions, List.getD_eq_getElem?_getD, below]

variable {m : State F G P}

theorem holesOf_of_mem (holes : m.holePos = holePositions c.button c.seatsIn) {seat : ℕ} (member : seat ∈ c.seatsIn) :
    m.holesOf seat = [position c.button c.seatsIn (.hole seat 0), position c.button c.seatsIn (.hole seat 1)] := by
  have found : ∀ order : List ℕ, seat ∈ order →
      (order.map fun s => (s, [position c.button c.seatsIn (.hole s 0), position c.button c.seatsIn (.hole s 1)])).lookup seat =
        some [position c.button c.seatsIn (.hole seat 0), position c.button c.seatsIn (.hole seat 1)] := by
    intro order member
    induction order with
    | nil => cases member
    | cons s rest ih =>
      rw [map_cons, List.lookup_cons]
      by_cases self : seat = s
      · rw [← self]
        simp
      rw [beq_false_of_ne self]
      exact ih ((mem_cons.mp member).resolve_left self)
  rw [holesOf, holes, holePositions, found _ (mem_seatDealOrder.mpr member), Option.getD_some]

variable (C c K)

def State.decks (m : State F G P) : List (Deck G) := C.trivialDeck :: m.roundDecks

/-- The shuffle this seat has sent, if it has: in its own round, of the deck accepted before it. At most
so many rounds are over. -/
def State.ShuffleSent (m : State F G P) (bound : ℕ) (log : List Message) : Prop :=
  ofKind .deckRound log = [] ∨
    ∃ round prev deck w proof, ofKind .deckRound log = [deckRound C (round + 1) c.seat deck proof] ∧ round ≤ bound ∧
      c.expectedShuffler (round + 1) = some c.seat ∧ (m.decks C)[round]? = some prev ∧ C.shuffleDeck m.joint prev w = .ok deck

def State.MayOpen (m : State F G P) (pos : ℕ) : Prop :=
  pos ∈ c.otherHoles ∨ ∃ street ∈ m.revealed, ∃ slots, streetSlots street = some slots ∧
    ∃ slot ∈ slots, pos = position c.button c.seatsIn (.board slot)

/-- The shares this seat has sent: each of the deck there is, of a position it may open, and of none
twice. -/
def State.SharesSent (m : State F G P) (log : List Message) : Prop :=
  ∃ positions, List.Forall₂ (m.Sends C c K) positions (ofKind .dealShare log) ∧ positions.Nodup ∧
    ∀ pos ∈ positions, m.MayOpen c pos

inductive Stage (m : State F G P) (log : List Message) : Prop
  | keys (phase : m.phase = .keygen ∨ m.phase = .aborted) (decks : m.roundDecks = []) (hidden : m.revealed = [])
      (noRound : ofKind .deckRound log = []) (noShare : ofKind .dealShare log = [])
  | chain (phase : m.phase = .shuffle ∨ m.phase = .aborted) (round : m.shuffleRound = m.roundDecks.length)
      (deck : (m.decks C)[m.shuffleRound]? = some m.deck) (hidden : m.revealed = [])
      (sent : m.ShuffleSent C c m.roundDecks.length log) (noShare : ofKind .dealShare log = [])
  | dealt (phase : m.phase ≠ .keygen ∧ m.phase ≠ .shuffle) (last : m.roundDecks.getLast? = some m.deck)
      (all : m.roundDecks.length = c.seatsIn.length) (board : m.boardPos = boardPositions c.button c.seatsIn)
      (sent : m.ShuffleSent C c m.roundDecks.length log) (shares : m.SharesSent C c K log)

def State.core (m : State F G P) : State F G P :=
  { phase := m.phase, xShare := m.xShare, jointPk := m.jointPk, deck := m.deck, shuffleRound := m.shuffleRound
    boardPos := m.boardPos, revealed := m.revealed, roundDecks := m.roundDecks }

variable {C c K}

variable {log : List Message}

theorem stage_core : Stage C c K m.core log ↔ Stage C c K m log := by
  constructor
  all_goals
    rintro (⟨phase, decks, hidden, noRound, noShare⟩ | ⟨phase, round, deck, hidden, sent, noShare⟩ |
      ⟨phase, last, all, board, sent, shares⟩)
    · exact .keys phase decks hidden noRound noShare
    · exact .chain phase round deck hidden sent noShare
    exact .dealt phase last all board sent shares

variable {m' : State F G P}

section

variable (stage : Stage C c K m log)
include stage

theorem Stage.congr (same : m'.core = m.core) : Stage C c K m' log := by
  rwa [← stage_core, same, stage_core]

theorem Stage.abort (reason : AbortReason) (bad : Option Json) : Stage C c K (m.abort reason bad) log := by
  obtain ⟨-, decks, hidden, noRound, noShare⟩ | ⟨-, round, deck, hidden, sent, noShare⟩ | ⟨-, last, all, board, sent, shares⟩ := stage
  · exact .keys (.inr rfl) decks hidden noRound noShare
  · exact .chain (.inr rfl) round deck hidden sent noShare
  exact .dealt ⟨nofun, nofun⟩ last all board sent shares

theorem Stage.of_dealing (dealing : m.Dealing) :
    m.roundDecks.getLast? = some m.deck ∧ m.roundDecks.length = c.seatsIn.length ∧
      m.boardPos = boardPositions c.button c.seatsIn ∧ m.ShuffleSent C c m.roundDecks.length log ∧ m.SharesSent C c K log := by
  unfold State.Dealing at dealing
  obtain ⟨phase, _, _, _, _⟩ | ⟨phase, _, _, _, _, _⟩ | ⟨-, last, all, board, sent, shares⟩ := stage
  · rcases phase with phase | phase <;> simp [phase] at dealing
  · rcases phase with phase | phase <;> simp [phase] at dealing
  exact ⟨last, all, board, sent, shares⟩

theorem Stage.of_keygen (fresh : m.phase = .keygen) :
    m.roundDecks = [] ∧ m.revealed = [] ∧ ofKind .deckRound log = [] ∧ ofKind .dealShare log = [] := by
  obtain ⟨-, decks, hidden, noRound, noShare⟩ | ⟨phase, _, _, _, _, _⟩ | ⟨phase, _, _, _, _, _⟩ := stage
  · exact ⟨decks, hidden, noRound, noShare⟩
  · rcases phase with phase | phase <;> simp [phase] at fresh
  exact absurd fresh phase.1

theorem Stage.of_shuffle (shuffling : m.phase = .shuffle) :
    m.shuffleRound = m.roundDecks.length ∧ (m.decks C)[m.shuffleRound]? = some m.deck ∧ m.revealed = [] ∧
      m.ShuffleSent C c m.roundDecks.length log ∧ ofKind .dealShare log = [] := by
  obtain ⟨phase, _, _, _, _⟩ | ⟨-, round, deck, hidden, sent, noShare⟩ | ⟨phase, _, _, _, _, _⟩ := stage
  · rcases phase with phase | phase <;> simp [phase] at shuffling
  · exact ⟨round, deck, hidden, sent, noShare⟩
  exact absurd shuffling phase.2

end

variable {msg : Message}

theorem Stage.send (stage : Stage C c K m log)
    (noRound : kind msg ≠ .deckRound) (noShare : kind msg ≠ .dealShare) : Stage C c K m (log ++ [msg]) := by
  have rounds : ofKind .deckRound (log ++ [msg]) = ofKind .deckRound log := by simp [noRound]
  have shares : ofKind .dealShare (log ++ [msg]) = ofKind .dealShare log := by simp [noShare]
  rcases stage with ⟨phase, decks, hidden, noRound, noShare⟩ | ⟨phase, round, deck, hidden, sent, noShare⟩ |
    ⟨phase, last, all, board, sent, shares'⟩
  · exact .keys phase decks hidden (rounds.trans noRound) (shares.trans noShare)
  · exact .chain phase round deck hidden (by rwa [State.ShuffleSent, rounds]) (shares.trans noShare)
  exact .dealt phase last all board (by rwa [State.ShuffleSent, rounds]) (by rwa [State.SharesSent, shares])

theorem ShuffleSent.accept {bound : ℕ} (sent : m.ShuffleSent C c bound log) (deck : Deck G) :
    (m.accepted c deck).ShuffleSent C c bound log := by
  obtain nothing | ⟨round, prev, out, w, proof, only, below, turn, before, shuffle⟩ := sent
  · exact .inl nothing
  refine .inr ⟨round, prev, out, w, proof, only, below, turn, ?_, shuffle⟩
  change (m.decks C ++ [deck])[round]? = some prev
  rw [List.getElem?_append_left (List.getElem?_eq_some_iff.mp before).1]
  exact before

variable {out : List Message}

theorem Emitted.stage (emitted : Emitted C c K m out m') (bound : ℕ)
    (phase : m.phase = .shuffle) (round : m.shuffleRound = m.roundDecks.length)
    (deck : (m.decks C)[m.shuffleRound]? = some m.deck) (hidden : m.revealed = []) (noShare : ofKind .dealShare log = [])
    (sent : ofKind .deckRound log = [] ∨ m.ShuffleSent C c bound log ∧ bound < m.shuffleRound) :
    Stage C c K m' (log ++ out) := by
  cases emitted with
  | idle =>
    rw [append_nil]
    refine .chain (.inl phase) round deck hidden ?_ noShare
    obtain nothing | ⟨nothing | ⟨r, prev, out, w, proof, only, below, rest⟩, early⟩ := sent
    · exact .inl nothing
    · exact .inl nothing
    exact .inr ⟨r, prev, out, w, proof, only, by omega, rest⟩
  | @shuffled shuffled turn shuffle =>
    have nothing : ofKind .deckRound log = [] := by
      obtain nothing | ⟨nothing | ⟨r, _, _, _, _, _, below, before, _⟩, early⟩ := sent
      · exact nothing
      · exact nothing
      have := c.expectedShuffler_inj before turn
      omega
    have only : ∀ proof, ofKind .deckRound (log ++ [deckRound C (m.shuffleRound + 1) c.seat shuffled proof]) =
        [deckRound C (m.shuffleRound + 1) c.seat shuffled proof] := by
      intro proof
      rw [ofKind_append, nothing, nil_append]
      rfl
    refine .chain (.inl phase) round deck hidden
      (.inr ⟨m.shuffleRound, m.deck, shuffled, _, _, only _, round.le, turn, deck, shuffle⟩) ?_
    rw [ofKind_append, noShare, nil_append]
    rfl

theorem ofKind_of_forall {k : Kind} (all : ∀ msg ∈ log, kind msg = k) (k' : Kind) :
    ofKind k' log = if k = k' then log else [] := by
  unfold ofKind
  split
  · rename_i same
    exact List.filter_eq_self.mpr fun msg member => by simp [all msg member, same]
  rename_i other
  exact List.filter_eq_nil_iff.mpr fun msg member => by simp [all msg member, other]

theorem kind_of_sends {positions : List ℕ}
    (sends : List.Forall₂ (m.Sends C c K) positions out) : ∀ msg ∈ out, kind msg = .dealShare := by
  induction sends with
  | nil => exact nofun
  | cons first _ ih =>
    intro msg member
    obtain rfl | later := mem_cons.mp member
    · obtain ⟨_, _, _, _, _, rfl⟩ := first
      rfl
    exact ih msg later

theorem Stage.deal {shuffler : ℕ} {deck : Deck G} {shares : ℕ → ℕ → Option G}
    (stage : Stage C c K m log) (good : Acceptable C c m shuffler deck) (last : m.shuffleRound + 1 = c.seatsIn.length)
    (sent : out = [] ∨ List.Forall₂ ((m.accepted c deck).Sends C c K) c.otherHoles out) :
    Stage C c K ((m.accepted c deck).entered c shares) (log ++ out) := by
  obtain ⟨round, -, hidden, shuffle, noShare⟩ := stage.of_shuffle good.phase
  have more : ((m.accepted c deck).entered c shares).ShuffleSent C c (m.roundDecks ++ [deck]).length log := by
    obtain nothing | ⟨r, prev, out, w, proof, only, below, rest⟩ := ShuffleSent.accept shuffle deck
    · exact .inl nothing
    exact .inr ⟨r, prev, out, w, proof, only, by rw [List.length_append]; omega, rest⟩
  have rounds : ofKind .deckRound out = [] := by
    obtain rfl | sends := sent
    · rfl
    rw [ofKind_of_forall (kind_of_sends sends), if_neg (by decide)]
  refine .dealt ⟨by simp [entered], by simp [entered]⟩ (by simp [entered, accepted]) ?_ rfl ?_ ?_
  · change (m.roundDecks ++ [deck]).length = c.seatsIn.length
    rw [List.length_append, List.length_singleton, ← round, last]
  · unfold State.ShuffleSent
    rw [ofKind_append, rounds, append_nil]
    exact more
  obtain rfl | sends := sent
  · rw [append_nil]
    exact ⟨[], by rw [noShare]; exact .nil, nodup_nil, by simp⟩
  refine ⟨c.otherHoles, ?_, c.otherHoles_nodup, fun pos member => .inl member⟩
  rw [ofKind_append, noShare, nil_append, ofKind_of_forall (kind_of_sends sends), if_pos rfl]
  exact sends

theorem not_mayOpen (known : streetSlots street = some slots)
    (inside : slot ∈ slots) (hidden : street ∉ m.revealed) : ¬m.MayOpen c (position c.button c.seatsIn (.board slot)) := by
  have member : .board slot ∈ dealMap c.button c.seatsIn := mem_dealMap_board (streetSlots_lt known slot inside)
  rintro (hole | ⟨street', shown, slots', known', slot', inside', same⟩)
  · obtain ⟨s, -, -, ordinal, -, same⟩ := Config.mem_otherHoles.mp hole
    cases position_injective member same
  cases position_injective member same
  exact hidden (streetSlots_disjoint known known' inside inside' ▸ shown)

theorem Stage.reveal {shares : ℕ → ℕ → Option G}
    (stage : Stage C c K m log) (dealing : m.Dealing) (hidden : street ∉ m.revealed) (known : streetSlots street = some slots)
    (sent : out = [] ∨ List.Forall₂ (m.Sends C c K) (slots.map fun slot => m.boardPos.getD slot 0) out) :
    Stage C c K { m with revealed := street :: m.revealed, shares } (log ++ out) := by
  obtain ⟨last, all, board, shuffle, positions, sends, distinct, allowed⟩ := stage.of_dealing dealing
  have phase : m.phase ≠ .keygen ∧ m.phase ≠ .shuffle := by
    rcases dealing with dealing | dealing <;> rw [dealing] <;> decide
  have kept : ∀ pos, m.MayOpen c pos → { m with revealed := street :: m.revealed, shares }.MayOpen c pos := by
    rintro pos (other | ⟨street', shown, rest⟩)
    · exact .inl other
    exact .inr ⟨street', List.mem_cons_of_mem _ shown, rest⟩
  have places : (slots.map fun slot => m.boardPos.getD slot 0) =
      slots.map fun slot => position c.button c.seatsIn (.board slot) := by
    refine List.map_congr_left fun slot inside => ?_
    rw [board]
    exact boardPositions_getD (streetSlots_lt known slot inside)
  rw [places] at sent
  have rounds : ofKind .deckRound out = [] := by
    obtain rfl | sends := sent
    · rfl
    rw [ofKind_of_forall (kind_of_sends sends), if_neg (by decide)]
  refine .dealt phase last all board (by rwa [State.ShuffleSent, ofKind_append, rounds, append_nil]) ?_
  obtain rfl | more := sent
  · rw [append_nil]
    exact ⟨positions, sends, distinct, fun pos member => kept pos (allowed pos member)⟩
  refine ⟨positions ++ slots.map fun slot => position c.button c.seatsIn (.board slot), ?_, ?_, ?_⟩
  · rw [ofKind_append, ofKind_of_forall (kind_of_sends more), if_pos rfl]
    exact List.rel_append sends more
  · refine distinct.append ((streetSlots_nodup known).map_on ?_) ?_
    · intro slot inside slot' _ same
      cases position_injective (mem_dealMap_board (streetSlots_lt known slot inside)) same
      rfl
    intro pos before now
    obtain ⟨slot, inside, rfl⟩ := mem_map.mp now
    exact not_mayOpen known inside hidden (allowed _ before)
  intro pos member
  obtain before | now := List.mem_append.mp member
  · exact kept pos (allowed pos before)
  obtain ⟨slot, inside, rfl⟩ := mem_map.mp now
  exact .inr ⟨street, List.mem_cons_self, slots, known, slot, inside, rfl⟩

variable {call : Call}

theorem Stage.move (stage : Stage C c K m log) (move : Move C c K call m out m') : Stage C c K m' (log ++ out) := by
  cases move with
  | held | key _ _ _ _ | share _ _ _ _ _ _ | board _ _ _ _ | hole _ _ _ _ | opened _ _ _ _ =>
    rw [append_nil]
    exact stage.congr rfl
  | abort | corrupt _ _ _ _ =>
    rw [append_nil]
    exact stage.abort _ _
  | start _ fresh _ =>
    obtain ⟨decks, hidden, noRound, noShare⟩ := stage.of_keygen fresh
    refine Stage.send ?_ (by simp) (by simp)
    exact .keys (.inl fresh) decks hidden noRound noShare
  | finish fresh _ _ emitted =>
    obtain ⟨decks, hidden, noRound, noShare⟩ := stage.of_keygen fresh
    refine emitted.stage 0 rfl ?_ rfl hidden noShare (.inl noRound)
    exact (congrArg List.length decks).symm
  | @round _ deck _ _ good more emitted =>
    obtain ⟨round, -, hidden, sent, noShare⟩ := stage.of_shuffle good.phase
    refine emitted.stage _ good.phase ?_ ?_ hidden noShare (.inr ⟨ShuffleSent.accept sent deck, ?_⟩)
    · simp [accepted, round]
    · simp [accepted, State.decks, round]
    change m.roundDecks.length < m.shuffleRound + 1
    omega
  | deal good last _ sent => exact stage.deal good last sent
  | reveal _ dealing hidden known _ sent => exact stage.reveal dealing hidden known sent
  | openRaises _ dealing _ =>
    obtain ⟨last, all, board, shuffle, shares⟩ := stage.of_dealing dealing
    rw [append_nil]
    exact .dealt ⟨by simp, by simp⟩ last all board shuffle shares
  | openOwn _ dealing _ _ _ =>
    obtain ⟨last, all, board, shuffle, shares⟩ := stage.of_dealing dealing
    refine Stage.send ?_ (by simp) (by simp)
    exact .dealt ⟨by simp, by simp⟩ last all board shuffle shares
  | passed dealing _ _ _ | failed dealing _ _ _ =>
    obtain ⟨last, all, board, shuffle, shares⟩ := stage.of_dealing dealing
    rw [append_nil]
    exact .dealt ⟨by simp [State.abort], by simp [State.abort]⟩ last all board shuffle shares

theorem ShuffleSent.drop {bound : ℕ} (sent : m.ShuffleSent C c bound (log ++ out)) : m.ShuffleSent C c bound log := by
  unfold State.ShuffleSent at sent
  rw [ofKind_append] at sent
  obtain nothing | ⟨round, prev, deck, w, proof, only, rest⟩ := sent
  · exact .inl (List.append_eq_nil_iff.mp nothing).1
  obtain ⟨nothing, -⟩ | ⟨only, -⟩ := List.append_eq_singleton_iff.mp only
  · exact .inl nothing
  exact .inr ⟨round, prev, deck, w, proof, only, rest⟩

theorem Stage.drop (stage : Stage C c K m (log ++ out)) : Stage C c K m log := by
  have quiet : ∀ k, ofKind k (log ++ out) = [] → ofKind k log = [] := fun k nothing =>
    (List.append_eq_nil_iff.mp (ofKind_append k log out ▸ nothing)).1
  rcases stage with ⟨phase, decks, hidden, noRound, noShare⟩ | ⟨phase, round, deck, hidden, sent, noShare⟩ |
    ⟨phase, last, all, board, sent, positions, sends, distinct, allowed⟩
  · exact .keys phase decks hidden (quiet _ noRound) (quiet _ noShare)
  · exact .chain phase round deck hidden (ShuffleSent.drop sent) (quiet _ noShare)
  rw [ofKind_append] at sends
  refine .dealt phase last all board (ShuffleSent.drop sent) ⟨_, List.forall₂_take_append _ _ _ sends, ?_, ?_⟩
  · exact distinct.sublist (List.take_sublist _ _)
  exact fun pos member => allowed pos (List.mem_of_mem_take member)

theorem play_stage (calls : List Call) : Stage C c K (play C c K calls).state (play C c K calls).sent :=
  play_keeps (.keys (.inl rfl) rfl rfl rfl rfl) calls (fun _ _ _ _ _ _ stage move => stage.move move) fun _ _ _ stage => stage.drop

theorem announced_move
    (keys : (ofKind .keyAnnounce log).length ≤ if m.announced then 1 else 0) (move : Move C c K call m out m') :
    (ofKind .keyAnnounce (log ++ out)).length ≤ if m'.announced then 1 else 0 := by
  have shares : ∀ {m : State F G P} {positions : List ℕ} {out : List Message}, List.Forall₂ (m.Sends C c K) positions out →
      ofKind .keyAnnounce out = [] := by
    intro m positions out sends
    rw [ofKind_of_forall (kind_of_sends sends), if_neg nofun]
  have emits : ∀ {m m' : State F G P} {out : List Message}, Emitted C c K m out m' →
      ofKind .keyAnnounce out = [] ∧ m'.announced = m.announced := by
    rintro m m' out (_ | _) <;> exact ⟨rfl, rfl⟩
  rw [ofKind_append]
  cases move with
  | start _ _ quiet =>
    rw [quiet] at keys
    simpa using keys
  | finish _ _ _ emitted | round _ _ emitted =>
    obtain ⟨nothing, same⟩ := emits emitted
    rw [nothing, append_nil, same]
    exact keys
  | deal _ _ _ sent | reveal _ _ _ _ _ sent =>
    obtain rfl | sends := sent
    · rwa [ofKind_nil, append_nil]
    rwa [shares sends, append_nil]
  | openOwn => simpa using keys
  | _ =>
    rw [ofKind_nil, append_nil]
    exact keys

theorem revealed_move (move : Move C c K call m out m') :
    m'.revealed = m.revealed ∨ ∃ street, call = .reveal street ∧ m'.revealed = street :: m.revealed := by
  cases move with
  | finish _ _ _ emitted | round _ _ emitted => cases emitted <;> exact .inl rfl
  | reveal called => exact .inr ⟨_, called, rfl⟩
  | _ => exact .inl rfl

theorem play_revealed (calls : List Call) : ∀ street ∈ (play C c K calls).state.revealed, .reveal street ∈ calls := by
  refine play_keeps (I := fun m _ => ∀ street ∈ m.revealed, .reveal street ∈ calls) nofun calls ?_ (fun _ _ _ told => told)
  intro call member m _ _ m' told move street shown
  obtain same | ⟨street', rfl, more⟩ := revealed_move move
  · exact told street (same ▸ shown)
  rw [more] at shown
  obtain rfl | before := mem_cons.mp shown
  · exact member
  exact told street before

theorem make_aborted (aborted : m.phase = .aborted) (call : Call) : make C c K call m = .ok [] m := by
  cases call <;> simp [make, start, handle, revealStreet, openAudit, aborted]

theorem play_aborted {calls : List Call} (aborted : (play C c K calls).state.phase = .aborted) (more : List Call) :
    play C c K (calls ++ more) = play C c K calls := by
  induction more using List.reverseRecOn with
  | nil => rw [append_nil]
  | append_singleton more call ih =>
    have step : play C c K (calls ++ (more ++ [call])) = Played.call C c K (play C c K (calls ++ more)) call := by
      rw [← List.append_assoc, play, List.foldl_append]
      rfl
    rw [step, ih, Played.call, make_aborted aborted]
    simp [after, value]

variable (C c)

/-- What a seat has sent keeps its secrets: its key and its shuffle at most once, in turn and of the deck
before; its share of a position at most once, of the last deck, never of one of its own cards, and of a
board card only if it was told to reveal the street. -/
structure Discipline (calls : List Call) (w : Played F G P) : Prop where
  oneKey : (ofKind .keyAnnounce w.sent).length ≤ 1
  oneShuffle : (ofKind .deckRound w.sent).length ≤ 1
  inTurn : ∀ msg ∈ ofKind .deckRound w.sent, ∃ round prev deck coins proof,
    msg = deckRound C (round + 1) c.seat deck proof ∧ c.expectedShuffler (round + 1) = some c.seat ∧
      (w.state.decks C)[round]? = some prev ∧ C.shuffleDeck w.state.joint prev coins = .ok deck
  oneDeck : ∀ msg ∈ ofKind .dealShare w.sent, ∃ deck pos x ct proof,
    w.state.roundDecks.length = c.seatsIn.length ∧ w.state.roundDecks.getLast? = some deck ∧
      deck[pos]? = some ct ∧ w.state.xShare = some x ∧ msg = dealShare C pos c.seat (x • ct.c0) proof
  notOwn : ∀ msg ∈ ofKind .dealShare w.sent, ∀ ordinal < 2,
    msg.get "position" ≠ .int (position c.button c.seatsIn (.hole c.seat ordinal))
  revealed : ∀ msg ∈ ofKind .dealShare w.sent, ∀ slot < 5, msg.get "position" = .int (position c.button c.seatsIn (.board slot)) →
    ∃ street slots, .reveal street ∈ calls ∧ streetSlots street = some slots ∧ slot ∈ slots
  once : ((ofKind .dealShare w.sent).map (·.get "position")).Nodup

variable {C c}

theorem map_position {positions : List ℕ} {msgs : List Message}
    (sends : List.Forall₂ (m.Sends C c K) positions msgs) : msgs.map (·.get "position") = positions.map fun pos => .int pos := by
  induction sends with
  | nil => rfl
  | cons first _ ih =>
    obtain ⟨_, _, _, _, _, rfl⟩ := first
    rw [map_cons, map_cons, ih]
    rfl

section

variable (stage : Stage C c K m log)
include stage

theorem Stage.shares : m.SharesSent C c K log := by
  obtain ⟨_, _, _, _, noShare⟩ | ⟨_, _, _, _, _, noShare⟩ | ⟨_, _, _, _, _, shares⟩ := stage
  · exact ⟨[], by rw [noShare]; exact .nil, nodup_nil, nofun⟩
  · exact ⟨[], by rw [noShare]; exact .nil, nodup_nil, nofun⟩
  exact shares

theorem Stage.shuffle : m.ShuffleSent C c m.roundDecks.length log := by
  obtain ⟨_, _, _, noRound, _⟩ | ⟨_, _, _, _, sent, _⟩ | ⟨_, _, _, _, sent, _⟩ := stage
  · exact .inl noRound
  · exact sent
  exact sent

theorem Stage.deck_of_share (member : msg ∈ ofKind .dealShare log) :
    m.roundDecks.length = c.seatsIn.length ∧ m.roundDecks.getLast? = some m.deck := by
  obtain ⟨_, _, _, _, noShare⟩ | ⟨_, _, _, _, _, noShare⟩ | ⟨_, last, all, _, _, _⟩ := stage
  · rw [noShare] at member
    cases member
  · rw [noShare] at member
    cases member
  exact ⟨all, last⟩

theorem Stage.share (member : msg ∈ ofKind .dealShare log) : ∃ pos, m.Sends C c K pos msg ∧ m.MayOpen c pos := by
  obtain ⟨positions, sends, -, allowed⟩ := stage.shares
  obtain ⟨k, below, rfl⟩ := List.getElem_of_mem member
  have length := sends.length_eq
  have sent := (List.forall₂_iff_get.mp sends).2 k (by omega) below
  exact ⟨_, sent, allowed _ (List.getElem_mem _)⟩

end

theorem MayOpen.ne_own {pos ordinal : ℕ} (may : m.MayOpen c pos) (below : ordinal < 2) :
    pos ≠ position c.button c.seatsIn (.hole c.seat ordinal) := by
  have member : .hole c.seat ordinal ∈ dealMap c.button c.seatsIn := mem_dealMap_hole.mpr ⟨c.seated, below⟩
  intro same
  obtain other | ⟨_, _, _, _, slot, _, board⟩ := may
  · obtain ⟨s, -, other, _, -, hole⟩ := Config.mem_otherHoles.mp other
    cases position_injective member (same.symm.trans hole)
    exact other rfl
  cases position_injective member (same.symm.trans board)

/-- Whatever a seat is sent and told, it keeps its discipline, and once it has aborted nothing that
comes makes it say more. -/
theorem play_disciplined (calls : List Call) : Discipline C c calls (play C c K calls) ∧
    ((play C c K calls).state.phase = .aborted → ∀ more, (play C c K (calls ++ more)).sent = (play C c K calls).sent ∧
      (play C c K (calls ++ more)).state.phase = .aborted) := by
  have stage := play_stage (C := C) (c := c) (K := K) calls
  have told := play_revealed (C := C) (c := c) (K := K) calls
  refine ⟨⟨?_, ?_, ?_, ?_, ?_, ?_, ?_⟩, fun aborted more => ?_⟩
  · have keys := play_keeps (C := C) (c := c) (K := K)
      (I := fun m log => (ofKind .keyAnnounce log).length ≤ if m.announced then 1 else 0) (Nat.zero_le _) calls
      (fun _ _ _ _ _ _ => announced_move) fun m log out bound => by
        rw [ofKind_append, List.length_append] at bound
        omega
    exact keys.trans (by split <;> decide)
  · obtain nothing | ⟨_, _, _, _, _, only, _⟩ := stage.shuffle
    · rw [nothing]
      decide
    rw [only]
    exact le_rfl
  · intro msg member
    obtain nothing | ⟨round, prev, deck, w, proof, only, -, turn, before, shuffle⟩ := stage.shuffle
    · rw [nothing] at member
      cases member
    rw [only] at member
    exact ⟨round, prev, deck, w, proof, List.mem_singleton.mp member, turn, before, shuffle⟩
  · intro msg member
    obtain ⟨pos, ⟨x, ct, secret, at', -, sent⟩, -⟩ := stage.share member
    obtain ⟨all, last⟩ := stage.deck_of_share member
    exact ⟨_, pos, x, ct, _, all, last, at', secret, sent⟩
  · intro msg member ordinal below same
    obtain ⟨pos, ⟨_, _, _, _, _, rfl⟩, may⟩ := stage.share member
    exact MayOpen.ne_own may below (Int.ofNat.inj (Json.int.inj same))
  · intro msg member slot below same
    obtain ⟨pos, ⟨_, _, _, _, _, rfl⟩, may⟩ := stage.share member
    have same : pos = position c.button c.seatsIn (.board slot) := Int.ofNat.inj (Json.int.inj same)
    obtain other | ⟨street, shown, slots, known, slot', inside, board⟩ := may
    · obtain ⟨s, -, -, ordinal, -, hole⟩ := Config.mem_otherHoles.mp other
      cases position_injective (mem_dealMap_board below) (same.symm.trans hole)
    cases position_injective (mem_dealMap_board below) (same.symm.trans board)
    exact ⟨street, slots, told street shown, known, inside⟩
  · obtain ⟨positions, sends, distinct, -⟩ := stage.shares
    rw [map_position sends]
    exact distinct.map fun _ _ same => Int.ofNat.inj (Json.int.inj same)
  rw [play_aborted aborted]
  exact ⟨rfl, aborted⟩

end Holdem.MentalDeal
