import Holdem.Engine.Hand
import Holdem.Engine.StartView
import Holdem.Embedding.Table

/-!
A table of a trusted host never gets stuck: during a hand the engine is in a betting round that can be
settled, and `_advance` leaves it only with a seat to act.
-/

namespace Holdem

open List

namespace Engine

variable {n : ℕ} {e e' : Engine n} {total : ℤ}

open Method

structure Between (total : ℤ) (e : Engine n) : Prop where
  sound : e.Sound
  square : e.Square
  blind : 0 < e.bb
  idle : e.street = .idle
  bank : e.bank = total

structure Underway (total : ℤ) (e : Engine n) : Prop where
  sound : e.Sound
  square : e.Square
  round : e.Round
  live : e.Live
  bank : e.bank = total

theorem Between.stacks (h : e.Between total) : ∑ i, (e.players i).stack = total := by
  rw [← h.bank]
  refine Finset.sum_congr rfl fun i _ => ?_
  obtain ⟨live, dead⟩ := (h.sound.between h.idle).1 i
  unfold Player.worth
  rw [live, dead]
  ring

theorem dealt_of_square (h : e.Square) : e.seatsWhere e.dealt = e.seatsWhere fun p => 0 < p.stack := by
  refine filter_congr fun i _ => ?_
  obtain ⟨out, -, -, wait, -⟩ := h i
  simp [dealt, blindEligible, out, wait]

theorem startHand_underway {deck : List Card} (few : n ≤ 9) (full : deck.Perm fullDeck) (h : e.Between total)
    (two : 2 ≤ (e.seatsWhere fun p => 0 < p.stack).length) :
    ∃ e', startHand none deck e = .ok true e' ∧ e'.Underway total := by
  have cards : deck.length = 52 := full.length_eq.trans fullDeck_length
  rw [← dealt_of_square h.square] at two
  obtain ⟨e', started⟩ := startHand_returns deck two (by omega)
  obtain ⟨sound, bank⟩ := startHand_sound none h.sound h.idle two
    (full.nodup_iff.mpr fullDeck_nodup)
  rw [started, after_ok] at sound bank
  refine ⟨e', started, sound, startHand_square h.square started, startHand_round h.sound.small h.blind started,
    startHand_live (by omega) full (fun i => (h.sound.solvent i).stack) h.sound.small h.sound.big started, ?_⟩
  rw [bank, h.bank]

theorem act_underway {seat : ℤ} {action : Action} {amount : Amount} (h : e.Underway total)
    (two : 2 ≤ e.contested.length) (ran : act seat action amount e = .ok () e') : e'.Underway total := by
  have accepted : e.accepts seat action amount = true := by
    unfold accepts
    rw [ran]
  obtain ⟨sound, bank⟩ := act_sound h.sound h.live.playing accepted
  rw [ran, after_ok] at sound bank
  exact ⟨sound, square_of_table (act_table ran) h.square, act_round h.round ran, act_live h.live ran fun _ => two,
    bank.trans h.bank⟩

theorem nextStreet_returns (live : e.Live) : ∃ e', nextStreet e = .ok () e' := by
  rcases nextStreet_cases e with ⟨k, street, rest, out, -, -, -, ran⟩ | ⟨k, street, x, deals, short, -⟩ | ⟨-, ran⟩ |
    ⟨-, ran⟩
  · exact ⟨_, ran⟩
  · have fits := live.fits
    have cards := live.cards
    unfold BoardFits at fits
    cases at' : e.street <;> rw [at'] at deals fits <;> cases deals <;> simp only [Street.boardSize] at fits <;> omega
  · exact ⟨_, ran⟩
  exact ⟨_, ran⟩

theorem nextStreet_underway (h : e.Underway total) (closed : e.actor = none) :
    ∃ e', nextStreet e = .ok () e' ∧ e'.Underway total := by
  obtain ⟨e', ran⟩ := nextStreet_returns h.live
  obtain ⟨sound, bank⟩ := nextStreet_sound h.sound
  have table := nextStreet_table e.table e rfl
  have round := nextStreet_round h.round closed
  have live := nextStreet_live h.live
  rw [ran, after_ok] at sound bank table round live
  exact ⟨e', ran, sound, square_of_table table h.square, round, live, bank.trans h.bank⟩

theorem settle_between (h : e.Underway total) (forceTabled : Bool) :
    ∃ result e', settle 1 forceTabled e = .ok result e' ∧ e'.Between total := by
  obtain ⟨result, e', ran, settled⟩ := settle_returns (Or.inl rfl) h.live.solvent h.live.distinct h.live.alive
    (fun _ => Or.inr ⟨h.live.playing, h.live.fits, by have := h.live.cards; unfold Enough; omega⟩) forceTabled
  obtain ⟨_, _, ran', sound, bank, -⟩ := settle_sound h.sound (Or.inl rfl) h.live.alive
    (fun _ => by have := h.live.cards; unfold Enough; omega) forceTabled
  rw [ran] at ran'
  cases ran'
  have table : e'.table = e.table := keeps_ok (P := fun s => s.table = e.table) (settle_table _ _ _) rfl ran
  have bb : e'.bb = e.bb := congrArg Table.bb table
  exact ⟨result, e', ran, sound, square_of_table table h.square, bb ▸ h.round.blind, settled.street, bank.trans h.bank⟩

theorem movers_eq (e : Engine n) :
    (e.contested.filter fun i => !(e.players i).allIn && decide (0 < (e.players i).stack)) =
      e.seatsWhere Player.canAct := by
  rw [contested, seatsWhere, seatsWhere, filter_filter]
  refine filter_congr fun i _ => ?_
  simp only [Player.canAct]
  cases (e.players i).inSeat <;> cases (e.players i).folded <;> simp

theorem openRound_asks (first : Fin n) (two : 2 ≤ (e.seatsWhere Player.canAct).length) :
    (e.openRound first).actor ≠ none := by
  unfold openRound
  dsimp only
  rw [if_neg fun few => by have := few.1; change (e.seatsWhere Player.canAct).length < 2 at this; omega]
  intro closed
  have empty := seek_closed.mp closed
  obtain ⟨i, member⟩ := exists_mem_of_length_pos (l := e.seatsWhere Player.canAct) (by omega)
  exact Finset.notMem_empty i (empty ▸ List.mem_toFinset.mpr member)

theorem canAct_clearBets (e : Engine n) : e.clearBets.seatsWhere Player.canAct = e.seatsWhere Player.canAct := by
  refine filter_congr fun i _ => ?_
  simp only [clearBets]
  split <;> rfl

theorem nextStreet_asks (two : 2 ≤ (e.seatsWhere Player.canAct).length)
    (ran : nextStreet e = .ok () e') : e'.street = .showdown ∨ e'.actor ≠ none := by
  rw [← canAct_clearBets] at two
  rcases nextStreet_cases e with ⟨k, street, rest, out, -, -, -, ran'⟩ | ⟨k, street, x, -, -, ran'⟩ | ⟨-, ran'⟩ |
    ⟨still, ran'⟩ <;> rw [ran] at ran' <;> cases ran'
  · exact .inr (openRound_asks _ two)
  · exact .inl rfl
  exact .inr (openRound_asks _ two)

end Engine

namespace PokerTable

variable {n rounds : ℕ} {t t' : PokerTable n} {x : PyError} {command : Scalar} {known : Command} {payload : Payload}
  {py : PyText} {fields : List (Scalar × Scalar)} {players : List PlayerSeat}

open Method Engine

theorem onEngine_ok {α : Type} {m : EngineM n α} {a : α} {engine : Engine n} (ran : m t.engine = .ok a engine) :
    onEngine m t = .ok a (t.withEngine engine) := by
  unfold onEngine within
  rw [ran]

theorem onEngine_error {α : Type} {m : EngineM n α} (ran : m t.engine = .error x t.engine) :
    onEngine m t = .error x t := by
  unfold onEngine within
  rw [ran]
  rfl

structure Dealt (t : PokerTable n) : Prop where
  betting : t.phase = .betting
  underway : t.engine.Underway (∑ i, t.initial i)
  started : ∃ initial, t.handInitial = some initial ∧ ∑ i, initial i = ∑ i, t.initial i
  fresh : t.handResult = none

structure Good (t : PokerTable n) : Prop where
  between : t.phase ≠ .betting → t.engine.Between (∑ i, t.initial i)
  during : t.phase = .betting → t.Dealt
  contested : t.phase = .betting → 2 ≤ t.engine.contested.length
  turn : t.phase = .betting → ∃ i, t.engine.actor = some i
  settled : t.phase = .settled → t.handResult.isSome
  result : ∀ result, t.handResult = some result →
    ∑ i, result.finalChips i = ∑ i, t.initial i ∧ ∑ i, result.netChips i = 0

theorem settleHand_good (h : t.Dealt) :
    ∃ t', settleHand t = .ok () t' ∧ t'.Good ∧ t'.phase = .settled ∧ t'.initial = t.initial := by
  obtain ⟨raw, engine, ran, rests⟩ := settle_between h.underway t.engine.bettingLocked
  obtain ⟨initial, recorded, sum⟩ := h.started
  have final : ∑ i, (t.withEngine engine).chips i = ∑ i, t.initial i := rests.stacks
  refine ⟨(t.withEngine engine).recordHand initial raw, ?_, ?_, rfl, rfl⟩
  · unfold settleHand
    rw [bind_of_ok (onEngine_ok ran)]
    change (if ∑ i, (t.withEngine engine).chips i ≠ ∑ i, t.initial i then _ else _ : TableM n Unit)
      (t.withEngine engine) = _
    rw [if_neg (not_not.mpr final)]
    rw [show (t.withEngine engine).handInitial = some initial from recorded]
    rfl
  refine ⟨fun _ => rests, ?_, ?_, ?_, fun _ => rfl, ?_⟩
  · intro betting
    cases betting
  · intro betting
    cases betting
  · intro betting
    cases betting
  rintro result same
  cases same
  refine ⟨final, ?_⟩
  change ∑ i, ((t.withEngine engine).chips i - initial i) = 0
  rw [Finset.sum_sub_distrib, final, sum, sub_self]

theorem Dealt.waits (h : t.Dealt) (open' : handOver t.engine = false) (turn : t.engine.actor ≠ none) : t.Good := by
  refine ⟨fun between => absurd h.betting between, fun _ => h, fun _ => ?_, fun _ => ?_, fun settled => ?_, ?_⟩
  · simp only [handOver, Bool.or_eq_false_iff, decide_eq_false_iff_not] at open'
    omega
  · exact Option.ne_none_iff_exists'.mp turn
  · rw [h.betting] at settled
    cases settled
  intro result same
  rw [h.fresh] at same
  cases same

theorem Dealt.withEngine {engine : Engine n} (h : t.Dealt) (underway : engine.Underway (∑ i, t.initial i)) :
    (t.withEngine engine).Dealt :=
  ⟨h.betting, underway, h.started, h.fresh⟩

theorem advanceFor_last (rounds : ℕ) (h : t.Dealt) (last : handOver t.engine = true ∨ t.engine.actor ≠ none) :
    ∃ t', advanceFor (rounds + 1) t = .ok () t' ∧ t'.Good ∧ t'.initial = t.initial ∧
      (handOver t.engine = true → t'.phase = .settled) := by
  unfold advanceFor
  rw [if_neg (not_not.mpr h.betting)]
  cases shut : handOver t.engine with
  | true =>
    obtain ⟨t', ran, good, phase, initial⟩ := settleHand_good h
    exact ⟨t', by rw [if_pos rfl, ran], good, initial, fun _ => phase⟩
  | false =>
    have turn : t.engine.actor ≠ none := last.resolve_left (by rw [shut]; simp)
    refine ⟨t, ?_, h.waits shut turn, rfl, fun impossible => by cases impossible⟩
    rw [if_neg (by simp), if_pos (Option.isSome_iff_ne_none.mpr turn)]

theorem advanceFor_good (rounds : ℕ) (h : t.Dealt) :
    ∃ t', advanceFor (rounds + 2) t = .ok () t' ∧ t'.Good ∧ t'.initial = t.initial ∧
      (t.engine.contested.length ≤ 1 → t'.phase = .settled) := by
  by_cases last : handOver t.engine = true ∨ t.engine.actor ≠ none
  · obtain ⟨t', ran, good, initial, settles⟩ := advanceFor_last (rounds + 1) h last
    exact ⟨t', ran, good, initial, fun alone => settles (by simp [handOver, alone])⟩
  rw [not_or, not_not, Bool.not_eq_true] at last
  obtain ⟨open', closed⟩ := last
  have more : 1 < t.engine.contested.length ∧ t.engine.bettingLocked = false := by
    simp only [handOver, Bool.or_eq_false_iff, decide_eq_false_iff_not] at open'
    exact ⟨by omega, open'.1.2⟩
  have two : 2 ≤ (t.engine.seatsWhere Player.canAct).length := by
    have unlocked := more.2
    unfold bettingLocked at unlocked
    rw [movers_eq, closed] at unlocked
    simp [more.1] at unlocked
    omega
  obtain ⟨engine, ran, underway⟩ := nextStreet_underway h.underway closed
  have next : handOver engine = true ∨ engine.actor ≠ none := by
    obtain showdown | turn := nextStreet_asks two ran
    · exact .inl (by simp [handOver, showdown])
    exact .inr turn
  obtain ⟨t', advanced, good, initial, -⟩ := advanceFor_last rounds (h.withEngine underway) next
  refine ⟨t', ?_, good, initial, fun alone => absurd alone (by omega)⟩
  unfold advanceFor
  rw [if_neg (not_not.mpr h.betting), if_neg (by simp [open']), if_neg (by simp [closed]),
    bind_of_ok (onEngine_ok ran), advanced]

/-- How a call on a good table ends: it returns and the table is good, or it raises a `ValueError` and
nothing has changed. -/
def Safe (t : PokerTable n) {α : Type} (r : EStateM.Result PyError (PokerTable n) α) : Prop :=
  (∃ a t', r = .ok a t' ∧ t'.Good ∧ t'.initial = t.initial) ∨ ∃ x, r = .error x t ∧ x.isValueError = true

theorem startHand_safe {deck : List Card} (few : n ≤ 9) (full : deck.Perm fullDeck) (good : t.Good) :
    t.Safe (startHand (rounds + 2) deck t) := by
  unfold startHand
  split
  · exact .inr ⟨_, rfl, rfl⟩
  rename_i open'
  split
  · exact .inr ⟨_, rfl, rfl⟩
  rename_i two
  have rests := good.between fun betting => open' (by rw [betting]; simp)
  obtain ⟨engine, started, underway⟩ := startHand_underway few full rests (Nat.le_of_not_lt two)
  have dealt : (t.openHand.withEngine engine).setBetting.Dealt := ⟨rfl, underway, ⟨t.chips, rfl, rests.stacks⟩, rfl⟩
  obtain ⟨t', ran, good', initial, -⟩ := advanceFor_good rounds dealt
  refine .inl ⟨(), t', ?_, good', initial⟩
  have begins : onEngine (Engine.startHand none deck) t.openHand = .ok true (t.openHand.withEngine engine) :=
    onEngine_ok started
  change (onEngine (Engine.startHand none deck) >>= _) t.openHand = _
  rw [bind_of_ok begins]
  exact ran

theorem close_safe (good : t.Good) : t.Safe (close t) := by
  unfold close
  split
  · exact .inr ⟨_, rfl, rfl⟩
  rename_i rests
  split
  · exact .inl ⟨_, _, rfl, good, rfl⟩
  refine .inl ⟨_, _, rfl, ⟨fun _ => good.between rests, ?_, ?_, ?_, ?_, good.result⟩, rfl⟩
  · intro betting
    cases betting
  · intro betting
    cases betting
  · intro betting
    cases betting
  intro settled
  cases settled

theorem parse_word {allowed : List Command}
    (h : Command.parse allowed command = some known) : command = .str known.word ∧ known ∈ allowed := by
  unfold Command.parse at h
  split at h
  · rename_i text
    have word := find?_some h
    exact ⟨congrArg Scalar.str (of_decide_eq_true word).symm, mem_of_find?_eq_some h⟩
  cases h

theorem parse_itself (known : Command) : Command.parse Command.all (.str known.word) = some known := by
  cases known <;> decide

theorem word_injective {known' : Command} (same : known.word = known'.word) : known = known' := by
  have parsed := parse_itself known
  rw [same, parse_itself known'] at parsed
  exact (Option.some.inj parsed).symm

theorem fields_refuses {refusal : String} (h : payload.fields refusal = .error x) : x.isValueError = true := by
  cases payload <;> cases h
  rfl

theorem commandPayload_refuses {lifecycle : Bool}
    (h : commandPayload py command payload lifecycle = .error x) : x.isValueError = true := by
  unfold commandPayload at h
  cases read : payload.fields "Command payload must be an object" with
  | error y =>
    rw [read] at h
    cases h
    exact fields_refuses read
  | ok fields =>
    rw [read] at h
    dsimp only [bind, Except.bind] at h
    repeat' split at h
    all_goals cases h <;> rfl

theorem commandPayload_known (h : commandPayload py command payload false = .ok fields) :
    ∃ known ∈ [Command.fold, .checkCall, .raiseTo], command = .str known.word := by
  unfold commandPayload at h
  cases read : payload.fields "Command payload must be an object" with
  | error y =>
    rw [read] at h
    cases h
  | ok fields' =>
    rw [read] at h
    dsimp only [bind, Except.bind] at h
    split at h
    · cases h
    rename_i known parsed
    obtain ⟨word, member⟩ := parse_word parsed
    exact ⟨known, member, word⟩

theorem validateCommandPayload_refuses
    (h : validateCommandPayload py command payload = .error x) : x.isValueError = true := by
  unfold validateCommandPayload at h
  split at h
  · cases h
    rfl
  cases read : payload.fields "command payload must be an object" with
  | error y =>
    rw [read] at h
    cases h
    exact fields_refuses read
  | ok fields =>
    rw [read] at h
    dsimp only [bind, Except.bind] at h
    repeat' split at h
    all_goals cases h <;> rfl

theorem validateCommandPayload_known {known' : Command}
    (h : validateCommandPayload py (.str known.word) payload = .ok (known', fields)) : known' = known := by
  unfold validateCommandPayload at h
  rw [parse_itself] at h
  cases read : payload.fields "command payload must be an object" with
  | error y =>
    rw [read] at h
    cases h
  | ok fields' =>
    rw [read] at h
    dsimp only [bind, Except.bind] at h
    split at h
    · cases h
    split at h
    · cases h
    split at h <;> cases h <;> rfl

theorem applyCommand_cases (py : PyText) (seat : Fin n) (payload : Payload) (e : Engine n)
    (kind : known ∈ [Command.fold, .checkCall, .raiseTo]) :
    (∃ x, applyCommand py seat.val (.str known.word) payload e = .error x e ∧ x.isValueError = true) ∨
      ∃ action amount, applyCommand py seat.val (.str known.word) payload e = act seat.val action (.whole amount) e ∧
        (known = .fold → action = .fold) := by
  unfold applyCommand
  rw [dif_pos ⟨by omega, by exact_mod_cast seat.isLt⟩]
  split
  · rename_i x refused
    exact .inl ⟨x, rfl, validateCommandPayload_refuses refused⟩
  rename_i known' fields valid
  obtain rfl := validateCommandPayload_known valid
  right
  simp only [mem_cons, not_mem_nil, or_false] at kind
  obtain rfl | rfl | rfl := kind
  · exact ⟨.fold, 0, rfl, fun _ => rfl⟩
  · exact ⟨.call, 0, rfl, fun impossible => by cases impossible⟩
  exact ⟨.raise, _, rfl, fun impossible => by cases impossible⟩

theorem command_cases (rounds : ℕ) (py : PyText) (playerId command : Scalar) (payload : Payload) (good : t.Good) :
    (∃ x, PokerTable.command py (rounds + 2) playerId command payload t = .error x t ∧ x.isValueError = true) ∨
      ∃ seat action amount engine t', act seat action (.whole amount) t.engine = .ok () engine ∧
        (command = .str Command.fold.word → action = .fold) ∧ t.phase = .betting ∧
        advanceFor (rounds + 2) (t.withEngine engine) = .ok () t' ∧ t'.Good ∧ t'.initial = t.initial ∧
        (engine.contested.length ≤ 1 → t'.phase = .settled) ∧
        PokerTable.command py (rounds + 2) playerId command payload t = .ok ⟨t.tableId, command⟩ t' := by
  unfold PokerTable.command
  split
  · exact .inl ⟨_, rfl, rfl⟩
  rename_i seat _
  split
  · rename_i x refused
    exact .inl ⟨x, rfl, commandPayload_refuses refused⟩
  rename_i fields valid
  split
  · exact .inl ⟨_, rfl, rfl⟩
  rename_i turn
  split
  · exact .inl ⟨_, rfl, rfl⟩
  rw [not_or, not_not, not_not] at turn
  obtain ⟨known, kind, rfl⟩ := commandPayload_known valid
  have dealt := good.during turn.1
  rcases applyCommand_cases py seat (.dict fields) t.engine kind with
    ⟨x, refused, value⟩ | ⟨action, amount, applied, folds⟩
  · rw [bind_of_error (onEngine_error refused)]
    exact .inl ⟨x, rfl, value⟩
  cases ran : act seat.val action (.whole amount) t.engine with
  | error x engine =>
    obtain ⟨why, rfl⟩ := act_illegal ran
    obtain rfl := act_refused ran
    rw [bind_of_error (onEngine_error (applied.trans ran))]
    exact .inl ⟨_, rfl, rfl⟩
  | ok u engine =>
    have underway := act_underway dealt.underway (good.contested turn.1) ran
    obtain ⟨t', advanced, good', initial, settles⟩ := advanceFor_good rounds (dealt.withEngine underway)
    refine .inr ⟨seat.val, action, amount, engine, t', ran, fun word => folds ?_, turn.1, advanced, good',
      initial, settles, ?_⟩
    · exact word_injective (Scalar.str.inj word)
    rw [bind_of_ok (onEngine_ok (applied.trans ran)), bind_of_ok advanced]
    rfl

theorem checkPositiveChips_ok {label : String} {value : Scalar} {chips : ℤ}
    (h : checkPositiveChips label value = .ok chips) : 0 < chips := by
  unfold checkPositiveChips at h
  split at h
  · split at h
    · cases h
      assumption
    cases h
  cases h

theorem seats_ok {seats : List (String × ℤ)} (h : players.mapM (PlayerSeat.check py) = .ok seats) :
    seats.length = players.length ∧ ∀ seat ∈ seats, 0 < seat.2 := by
  induction players generalizing seats with
  | nil =>
    cases h
    exact ⟨rfl, by simp⟩
  | cons player players ih =>
    rw [mapM_cons] at h
    obtain ⟨seat, checked, h⟩ := check_ok h
    obtain ⟨rest, others, h⟩ := check_ok h
    cases h
    obtain ⟨length, chips⟩ := ih others
    obtain ⟨_, -, checked⟩ := check_ok checked
    obtain ⟨_, -, checked⟩ := check_ok checked
    obtain ⟨chips', positive, checked⟩ := check_ok checked
    cases checked
    refine ⟨by rw [length_cons, length_cons, length], fun seat member => ?_⟩
    obtain rfl | member := List.mem_cons.mp member
    · exact checkPositiveChips_ok positive
    exact chips seat member

theorem init_good {tableId : Scalar} {config : TableConfig}
    (opened : init py tableId players config = .ok ⟨n, t⟩) : n ≤ 9 ∧ t.Good := by
  obtain ⟨id, -, opened⟩ := check_ok opened
  split at opened
  · cases opened
  rename_i size
  obtain ⟨sb, small, opened⟩ := check_ok opened
  obtain ⟨bb, -, opened⟩ := check_ok opened
  split at opened
  · cases opened
  rename_i blinds
  obtain ⟨kind, -, opened⟩ := check_ok opened
  obtain ⟨ante, -, opened⟩ := check_ok opened
  obtain ⟨seats, checked, opened⟩ := check_ok opened
  obtain ⟨length, positive⟩ := seats_ok checked
  have small := checkPositiveChips_ok small
  split at opened
  · split at opened
    · cases opened
    cases opened
    have chips : ∀ i : Fin seats.length, 0 ≤ (seats.get i).2 := fun i => le_of_lt (positive _ (seats.get_mem i))
    refine ⟨by omega, fun _ => ⟨init_sound chips (by omega) (by omega), fun i => ⟨rfl, rfl, rfl, rfl, rfl⟩,
      show 0 < bb by omega, rfl, ?_⟩, ?_, ?_, ?_, ?_, ?_⟩
    · refine Finset.sum_congr rfl fun i _ => ?_
      change (seats.get i).2 + 0 + 0 = _
      ring_nf
      rfl
    · intro betting
      cases betting
    · intro betting
      cases betting
    · intro betting
      cases betting
    · intro settled
      cases settled
    intro result same
    cases same
  split at opened <;> cases opened

end PokerTable

structure Shuffle where
  cards : List Card
  full : cards.Perm fullDeck

inductive TableCall where
  | startHand (deck : Shuffle)
  | command (playerId command : Scalar) (payload : Payload)
  | close

namespace PokerTable

variable {n : ℕ} {t : PokerTable n}

open Method Engine

def make (py : PyText) (rounds : ℕ) : TableCall → TableM n Unit
  | .startHand deck => PokerTable.startHand rounds deck.cards
  | .command playerId command payload => do let _ ← PokerTable.command py rounds playerId command payload
  | .close => do let _ ← PokerTable.close

theorem Safe.discard {α : Type} {m : TableM n α} (safe : t.Safe (m t)) : t.Safe ((do let _ ← m : TableM n Unit) t) := by
  obtain ⟨a, t', ran, good⟩ | ⟨x, ran, value⟩ := safe
  · exact .inl ⟨(), t', by rw [bind_of_ok ran]; rfl, good⟩
  exact .inr ⟨x, bind_of_error ran, value⟩

theorem make_safe (py : PyText) (rounds : ℕ) (call : TableCall) (few : n ≤ 9) (good : t.Good) :
    t.Safe (make py (rounds + 2) call t) := by
  cases call with
  | startHand deck => exact startHand_safe few deck.full good
  | close => exact (close_safe good).discard
  | command playerId command payload =>
    refine Safe.discard ?_
    rcases command_cases rounds py playerId command payload good with
      refused | ⟨_, _, _, _, t', -, -, -, -, good', initial, -, ran⟩
    · exact .inr refused
    exact .inl ⟨_, t', ran, good', initial⟩

theorem make_keeps (py : PyText) (rounds : ℕ) (initial : Fin n → ℤ) (few : n ≤ 9) (call : TableCall) :
    Keeps (fun t => t.Good ∧ t.initial = initial) (make py (rounds + 2) call) := by
  rintro t ⟨good, rfl⟩
  obtain ⟨_, t', ran, good', initial⟩ | ⟨x, ran, -⟩ := make_safe py rounds call few good
  · rw [ran]
    exact ⟨good', initial⟩
  rw [ran]
  exact ⟨good, rfl⟩

theorem contested_folded {e : Engine n} {i : Fin n} (able : (e.players i).canAct = true) :
    (e.fold i).contested.length < e.contested.length := by
  obtain ⟨seated, folded, -, -⟩ := canAct_iff.mp able
  have here : i ∈ e.contested := mem_seatsWhere.mpr (by simp [seated, folded])
  have sub : (e.fold i).contested ⊆ e.contested.erase i := by
    intro j member
    rw [contested, mem_seatsWhere] at member
    have other : j ≠ i := by
      rintro rfl
      rw [fold_same] at member
      simp at member
    rw [fold_other other] at member
    exact (mem_erase_of_ne other).mpr (mem_seatsWhere.mpr member)
  have shorter : (e.fold i).contested.length ≤ (e.contested.erase i).length :=
    (subperm_of_subset (seatsWhere_nodup _ _) sub).length_le
  rw [length_erase_of_mem here] at shorter
  have some := length_pos_of_mem here
  omega

/-- Whatever is called with whatever arguments, the table is between hands or waits for one seat that
can act; a call returns or raises a `ValueError` that changes nothing, and no call raises anything
else or fails to end; the chips of a settled hand are the buy-ins; and the fold of all but one seat
settles the hand. -/
theorem table_never_stuck {py : PyText} {tableId : Scalar} {players : List PlayerSeat} {config : TableConfig}
    {start : PokerTable n} (opened : init py tableId players config = .ok ⟨n, start⟩) {rounds : ℕ}
    (enough : 2 ≤ rounds) (calls : List TableCall) :
    let t := runAll (make py rounds) start calls
    (t.phase = .lobby ∨ t.phase = .settled ∨ t.phase = .closed ∨ t.phase = .betting ∧
      ∃! i, t.engine.actor = some i ∧ (t.engine.players i).canAct = true) ∧
    (∀ call, (∃ t', make py rounds call t = .ok () t') ∨
      ∃ x, make py rounds call t = .error x t ∧ x.isValueError = true) ∧
    (t.phase = .settled → t.handResult.isSome) ∧
    (∀ result, t.handResult = some result →
      ∑ i, result.finalChips i = ∑ i, start.initial i ∧ ∑ i, result.netChips i = 0) ∧
    (t.phase = .betting → 2 ≤ t.engine.contested.length) ∧
    (∀ playerId payload t', t.engine.contested.length = 2 →
      make py rounds (.command playerId (.str "fold") payload) t = .ok () t' → t'.phase = .settled) := by
  intro t
  obtain ⟨few, good₀⟩ := init_good opened
  obtain ⟨rounds, rfl⟩ : ∃ k, rounds = k + 2 := ⟨rounds - 2, by omega⟩
  obtain ⟨good, initial⟩ : t.Good ∧ t.initial = start.initial :=
    keeps_runAll (make_keeps py rounds start.initial few) calls ⟨good₀, rfl⟩
  refine ⟨?_, fun call => ?_, good.settled, fun result same => ?_, good.contested, ?_⟩
  · cases phase : t.phase with
    | lobby => exact .inl rfl
    | settled => exact .inr (.inl rfl)
    | closed => exact .inr (.inr (.inl rfl))
    | betting =>
      obtain ⟨i, turn⟩ := good.turn phase
      have round := (good.during phase).underway.round
      refine .inr (.inr (.inr ⟨rfl, i, ⟨turn, round.need i (round.turn i turn)⟩, fun j other => ?_⟩))
      exact Option.some.inj (other.1.symm.trans turn)
  · obtain ⟨_, t', ran, -⟩ | refused := make_safe py rounds call few good
    · exact .inl ⟨t', ran⟩
    exact .inr refused
  · rw [← initial]
    exact good.result result same
  intro playerId payload t' two ran
  rcases command_cases rounds py playerId (.str "fold") payload good with
    ⟨x, refused, -⟩ | ⟨seat, action, amount, engine, t'', acted, folds, -, -, -, -, settles, ran'⟩
  · rw [make, bind_of_error refused] at ran
    cases ran
  rw [make, bind_of_ok ran'] at ran
  cases ran
  obtain rfl := folds rfl
  obtain ⟨i, -, -, able, moved, move, rfl⟩ := act_moves acted
  cases move
  have fewer := contested_folded able
  exact settles (show (t.engine.fold i).contested.length ≤ 1 by omega)

theorem table_never_stuck_duel :
    let py : PyText := ⟨fun _ => true, id, fun _ => ""⟩
    let players : List PlayerSeat := [⟨.str "a", .str "A", .int 100⟩, ⟨.str "b", .str "B", .int 100⟩]
    let start := seatAll "t" [("a", 100), ("b", 100)] ⟨1, by decide⟩ 25 50 .noLimit false
    let calls : List TableCall := [.startHand ⟨fullDeck, .refl _⟩, .command (.str "a") (.str "fold") .none]
    init py (.str "t") players {} = .ok ⟨2, start⟩ ∧ (runAll (make py 2) start calls).phase = .settled ∧
      (runAll (make py 2) start calls).handResult.isSome := by
  intro py players start calls
  have opened : init py (.str "t") players {} = .ok ⟨2, start⟩ := rfl
  have settled : (runAll (make py 2) start calls).phase = .settled := by decide +kernel
  exact ⟨opened, settled, (table_never_stuck opened le_rfl calls).2.2.1 settled⟩

end PokerTable

end Holdem
