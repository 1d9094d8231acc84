import Holdem.Engine.SettleRecard
import Holdem.Embedding.Progress
import Holdem.Embedding.View

/-!
Hidden cards. A hand is played twice from one table with one list of commands and two shuffles.
-/

namespace Holdem

open List Method

variable {n : ℕ}

namespace PokerTable

open Engine

/-! ### Calls up to the settlement -/

def reachFor : ℕ → TableM n Unit
  | 0 => throw .diverges
  | rounds + 1 => fun t =>
    if t.phase ≠ .betting ∨ handOver t.engine = true ∨ t.engine.actor.isSome = true then .ok () t
    else (do onEngine Engine.nextStreet; reachFor rounds : TableM n Unit) t

/-- The settlement of `_advance`, where it makes one. -/
def settleOver : TableM n Unit := fun t =>
  if t.phase = .betting ∧ handOver t.engine = true then settleHand t else .ok () t

theorem advanceFor_eq (rounds : ℕ) (t : PokerTable n) :
    advanceFor rounds t = (do reachFor rounds; settleOver : TableM n Unit) t := by
  induction rounds generalizing t with
  | zero => rfl
  | succ rounds ih =>
    have stops : ∀ s : PokerTable n, (s.phase ≠ .betting ∨ handOver s.engine = true ∨ s.engine.actor.isSome = true) →
        (do reachFor (rounds + 1); settleOver : TableM n Unit) s = settleOver s :=
      fun s last => bind_of_ok (if_pos last)
    unfold advanceFor
    split
    · rename_i rests
      rw [stops t (.inl rests), settleOver, if_neg fun shut => rests shut.1]
    rename_i betting
    rw [not_not] at betting
    split
    · rename_i shut
      rw [stops t (.inr (.inl shut)), settleOver, if_pos ⟨betting, shut⟩]
    rename_i open'
    split
    · rename_i turn
      rw [stops t (.inr (.inr turn)), settleOver, if_neg fun shut => open' shut.2]
    rename_i closed
    have goes : reachFor (rounds + 1) t = (do onEngine Engine.nextStreet; reachFor rounds : TableM n Unit) t :=
      if_neg (by rw [betting]; simp [open', closed])
    rw [bind_apply, bind_apply, goes, bind_apply]
    cases onEngine Engine.nextStreet t with
    | ok u next =>
      have rest := ih next
      rw [bind_apply] at rest
      exact rest
    | error x next => rfl

def beginHand (deck : List Card) : TableM n Unit := fun t =>
  if t.phase ≠ .lobby ∧ t.phase ≠ .settled then
    .error (.valueError "A new hand can start only at an open table between hands") t
  else if (t.engine.seatsWhere fun p => 0 < p.stack).length < 2 then
    .error (.valueError "At least two players need chips to start a hand") t
  else (do
    modify openHand
    let _ ← onEngine (Engine.startHand none deck)
    modify setBetting : TableM n Unit) t

theorem startHand_eq (rounds : ℕ) (deck : List Card) (t : PokerTable n) :
    startHand rounds deck t = (do beginHand deck; advanceFor rounds : TableM n Unit) t := by
  rw [bind_apply]
  unfold startHand beginHand
  split
  · rfl
  split
  · rfl
  rw [← bind_apply (f := fun _ => advanceFor rounds), bind_assoc, bind_assoc]

/-- The checks of `command`: the seat that acts and the fields of the payload. -/
def checkCommand (py : PyText) (playerId command : Scalar) (payload : Payload) (t : PokerTable n) :
    Except PyError (Fin n × List (Scalar × Scalar)) :=
  match t.seatOf playerId with
  | none => .error (.valueError "Player is not seated at this table")
  | some seat =>
    match commandPayload py command payload false with
    | .error x => .error x
    | .ok fields =>
      if t.phase ≠ .betting ∨ t.engine.actor ≠ some seat then .error (.valueError "It is not this player's turn")
      else if outsideRange (t.engine.legal seat) command fields then
        .error (.valueError "Raise target is outside the legal range")
      else .ok (seat, fields)

def beginCommand (py : PyText) (playerId command : Scalar) (payload : Payload) : TableM n Unit := fun t =>
  match t.checkCommand py playerId command payload with
  | .error x => .error x t
  | .ok (seat, fields) => onEngine (Engine.applyCommand py seat.val command (.dict fields)) t

theorem command_eq (py : PyText) (rounds : ℕ) (playerId command : Scalar) (payload : Payload) (t : PokerTable n) :
    PokerTable.command py rounds playerId command payload t =
      (do beginCommand py playerId command payload
          advanceFor rounds
          return { tableId := t.tableId, command } : TableM n CommandResult) t := by
  rw [bind_apply]
  unfold PokerTable.command beginCommand checkCommand
  cases t.seatOf playerId with
  | none => rfl
  | some seat =>
    cases commandPayload py command payload false with
    | error x => rfl
    | ok fields =>
      dsimp only
      by_cases early : t.phase ≠ .betting ∨ t.engine.actor ≠ some seat
      · rw [if_pos early, if_pos early]
      rw [if_neg early, if_neg early]
      by_cases outside : outsideRange (t.engine.legal seat) command fields = true
      · rw [if_pos outside, if_pos outside]
      rw [if_neg outside, if_neg outside, bind_apply]

/-! ### A hand and its settlement -/

def settlement (rounds : ℕ) (first : TableM n Unit) (t : PokerTable n) : Option (SettleResult n) :=
  match (do first; reachFor rounds : TableM n Unit) t with
  | .ok _ b =>
    if b.phase = .betting ∧ handOver b.engine = true then
      value (Engine.settle 1 b.engine.bettingLocked b.engine)
    else none
  | .error _ _ => none

end PokerTable

structure TableCommand where
  playerId : Scalar
  command : Scalar
  payload : Payload

namespace TableCommand

def make (c : TableCommand) (py : PyText) (rounds : ℕ) : TableM n CommandResult :=
  PokerTable.command py rounds c.playerId c.command c.payload

def begin (c : TableCommand) (py : PyText) : TableM n Unit :=
  PokerTable.beginCommand py c.playerId c.command c.payload

def call (c : TableCommand) : TableCall := .command c.playerId c.command c.payload

end TableCommand

structure PlayedHand (n : ℕ) where
  table : PokerTable n
  outcome : Option (SettleResult n)

namespace PlayedHand

variable (py : PyText) (rounds : ℕ)

def start (t : PokerTable n) (deck : List Card) : PlayedHand n :=
  ⟨Method.after (PokerTable.startHand rounds deck t), PokerTable.settlement rounds (PokerTable.beginHand deck) t⟩

def obey (h : PlayedHand n) (c : TableCommand) : PlayedHand n :=
  ⟨Method.after (c.make py rounds h.table), (PokerTable.settlement rounds (c.begin py) h.table).or h.outcome⟩

def play (t : PokerTable n) (deck : List Card) (commands : List TableCommand) : PlayedHand n :=
  commands.foldl (obey py rounds) (start rounds t deck)

def answers (h : PlayedHand n) : List TableCommand → List (Except PyError CommandResult)
  | [] => []
  | c :: rest => Method.answer (c.make py rounds h.table) :: answers (h.obey py rounds c) rest

theorem answers_append (h : PlayedHand n) (commands : List TableCommand) (c : TableCommand) :
    h.answers py rounds (commands ++ [c]) =
      h.answers py rounds commands ++ [Method.answer (c.make py rounds (commands.foldl (obey py rounds) h).table)] := by
  induction commands generalizing h with
  | nil => rfl
  | cons first rest ih => rw [cons_append, answers, answers, ih, cons_append, foldl_cons]

theorem play_append (t : PokerTable n) (deck : List Card) (commands : List TableCommand) (c : TableCommand) :
    play py rounds t deck (commands ++ [c]) = (play py rounds t deck commands).obey py rounds c := by
  rw [play, foldl_append]
  rfl

theorem play_table (t : PokerTable n) (deck : Shuffle) (commands : List TableCommand) :
    (play py rounds t deck.cards commands).table =
      Method.runAll (PokerTable.make py rounds) t (.startHand deck :: commands.map TableCommand.call) := by
  have each : ∀ (c : TableCommand) (t : PokerTable n),
      Method.after (PokerTable.make py rounds c.call t) = Method.after (c.make py rounds t) := by
    intro c t
    change Method.after ((do let _ ← c.make py rounds : TableM n Unit) t) = _
    rw [Method.bind_apply]
    cases c.make py rounds t <;> rfl
  induction commands using List.reverseRecOn with
  | nil => rfl
  | append_singleton commands c ih =>
    rw [play_append, map_append, ← cons_append, Method.runAll, foldl_append]
    change Method.after (c.make py rounds (play py rounds t deck.cards commands).table) = _
    rw [ih, ← each]
    rfl

end PlayedHand

namespace PokerTable

variable {rounds k : ℕ} {t t' b : PokerTable n} {own holes : Fin n → List Card} {deck : List Card}

open Engine

/-! ### Two tables in step -/

/-- Two tables in the middle of a hand: the first has dealt `own`, the second `holes`, and the board cards
up to the `k`th are the same. -/
structure InStep (own holes : Fin n → List Card) (k : ℕ) (t t' : PokerTable n) : Prop where
  betting : t.phase = .betting
  unseen : t.shown = []
  own : ∀ i, (t.engine.players i).hole = own i
  cards : ∃ deck, t' = t.withEngine (t.engine.recard holes deck) ∧
    SameTop (k - t.engine.board.length) t.engine.deck deck

theorem onEngine_returned {α : Type} {m : EngineM n α} {a : α} (ran : onEngine m t = .ok a t') :
    ∃ e, m t.engine = .ok a e ∧ t' = t.withEngine e := by
  unfold onEngine Method.within at ran
  split at ran <;> cases ran
  exact ⟨_, ‹_›, rfl⟩

structure GoesOn (t u : PokerTable n) : Prop where
  drawn : Drawn t.engine u.engine
  ids : u.playerIds = t.playerIds

theorem GoesOn.refl (t : PokerTable n) : GoesOn t t := ⟨.refl _, rfl⟩

theorem GoesOn.trans {u v : PokerTable n} (first : GoesOn t u) (second : GoesOn u v) : GoesOn t v :=
  ⟨first.drawn.trans second.drawn, second.ids.trans first.ids⟩

theorem GoesOn.board (h : GoesOn t t') : t.engine.board.length ≤ t'.engine.board.length := h.drawn.board.length_le

theorem GoesOn.seatOf (h : GoesOn t t') : t'.seatOf = t.seatOf := by
  funext player
  unfold PokerTable.seatOf
  rw [h.ids]

theorem goesOn_withEngine {e : Engine n} (drawn : Drawn t.engine e) : GoesOn t (t.withEngine e) := ⟨drawn, rfl⟩

theorem reachFor_goesOn (rounds : ℕ) (ran : reachFor rounds t = .ok () b) : GoesOn t b := by
  induction rounds generalizing t with
  | zero => cases ran
  | succ rounds ih =>
    unfold reachFor at ran
    split at ran
    · cases ran
      exact .refl _
    obtain ⟨_, s, next, rest⟩ := bind_ok ran
    obtain ⟨e, street, rfl⟩ := onEngine_returned next
    exact (goesOn_withEngine (nextStreet_drawn street)).trans (ih rest)

theorem reachFor_dealt (rounds : ℕ) (dealt : t.Dealt) (ran : reachFor rounds t = .ok () b) : b.Dealt := by
  induction rounds generalizing t with
  | zero => cases ran
  | succ rounds ih =>
    unfold reachFor at ran
    split at ran
    · cases ran
      exact dealt
    rename_i more
    obtain ⟨_, s, next, rest⟩ := bind_ok ran
    obtain ⟨e, street, rfl⟩ := onEngine_returned next
    simp only [not_or, Option.isSome_iff_ne_none, not_not] at more
    obtain ⟨e', street', underway⟩ := nextStreet_underway dealt.underway more.2.2
    rw [street] at street'
    cases street'
    exact ih (dealt.withEngine underway) rest

theorem reachFor_inStep (rounds : ℕ) (step : InStep own holes k t t')
    (ran : reachFor rounds t = .ok () b) (within : b.engine.board.length ≤ k) :
    ∃ b', reachFor rounds t' = .ok () b' ∧ InStep own holes k b b' := by
  induction rounds generalizing t t' with
  | zero => cases ran
  | succ rounds ih =>
    obtain ⟨deck, rfl, top⟩ := step.cards
    unfold reachFor at ran
    split at ran
    · rename_i last
      cases ran
      exact ⟨_, if_pos last, step⟩
    rename_i more
    obtain ⟨_, s, next, rest⟩ := bind_ok ran
    obtain ⟨e, street, rfl⟩ := onEngine_returned next
    have drawn := nextStreet_drawn street
    have later : e.board.length ≤ k := (reachFor_goesOn rounds rest).board.trans within
    have before : t.engine.board.length ≤ e.board.length := drawn.board.length_le
    obtain ⟨deck', street', top'⟩ := nextStreet_sameTop holes street top (by omega)
    have step' : InStep own holes k (t.withEngine e) (t.withEngine (e.recard holes deck')) := by
      refine ⟨step.betting, step.unseen, fun i => (drawn.holes i).trans (step.own i), deck', rfl, ?_⟩
      rwa [show k - t.engine.board.length + t.engine.board.length - e.board.length = k - e.board.length by omega] at top'
    obtain ⟨b', rest', final⟩ := ih step' rest
    have goes : reachFor (rounds + 1) (t.withEngine (t.engine.recard holes deck)) =
        (do onEngine Engine.nextStreet; reachFor rounds : TableM n Unit) (t.withEngine (t.engine.recard holes deck)) :=
      if_neg more
    refine ⟨b', ?_, final⟩
    rw [goes, bind_of_ok (onEngine_ok street')]
    exact rest'

theorem checkCommand_kind {py : PyText} {playerId command : Scalar} {payload : Payload} {seat : Fin n}
    {fields : List (Scalar × Scalar)} (ok : t.checkCommand py playerId command payload = .ok (seat, fields)) :
    t.phase = .betting ∧ ∃ known ∈ [Command.fold, .checkCall, .raiseTo], command = .str known.word := by
  unfold checkCommand at ok
  split at ok
  · cases ok
  split at ok
  · cases ok
  rename_i valid
  split at ok
  · cases ok
  rename_i turn
  split at ok
  · cases ok
  cases ok
  rw [not_or, not_not] at turn
  exact ⟨turn.1, commandPayload_known valid⟩

theorem obey_recarded (seat : Fin n) {known : Command} (fields : List (Scalar × Scalar)) (unknown : PyError)
    (kind : known ∈ [Command.fold, .checkCall, .raiseTo]) :
    Related (Recarded holes deck) (Recarded holes deck) (obey (n := n) seat known fields unknown)
      (obey seat known fields unknown) := by
  simp only [mem_cons, not_mem_nil, or_false] at kind
  obtain rfl | rfl | rfl := kind
  · exact act_recarded seat.val .fold (.whole 0)
  · exact act_recarded seat.val .call (.whole 0)
  exact act_recarded seat.val .raise (.whole ((amountOf fields).getD 0))

theorem applyCommand_recarded (py : PyText) (seat : Fin n) {known : Command} (payload : Payload)
    (kind : known ∈ [Command.fold, .checkCall, .raiseTo]) :
    Related (Recarded holes deck) (Recarded holes deck) (applyCommand (n := n) py seat.val (.str known.word) payload)
      (applyCommand py seat.val (.str known.word) payload) := by
  rintro e _ rfl
  unfold applyCommand
  split
  · split
    · exact .error rfl
    rename_i known' fields valid
    obtain rfl := validateCommandPayload_known valid
    exact obey_recarded _ _ _ kind _ _ rfl
  exact .error rfl

theorem begin_cases (py : PyText) (c : TableCommand) (t : PokerTable n) :
    (∃ x, c.begin py t = .error x t) ∨ ∃ seat action amount e, act seat action (.whole amount) t.engine = .ok () e ∧
      t.phase = .betting ∧ c.begin py t = .ok () (t.withEngine e) := by
  unfold TableCommand.begin beginCommand
  cases ok : t.checkCommand py c.playerId c.command c.payload with
  | error x => exact .inl ⟨x, rfl⟩
  | ok checked =>
    obtain ⟨seat, fields⟩ := checked
    obtain ⟨betting, known, kind, word⟩ := checkCommand_kind ok
    rw [word]
    obtain ⟨x, refused, -⟩ | ⟨action, amount, applied, -⟩ := applyCommand_cases py seat (.dict fields) t.engine kind
    · exact .inl ⟨x, onEngine_error refused⟩
    cases ran : act seat.val action (.whole amount) t.engine with
    | error x e =>
      obtain rfl := act_refused ran
      exact .inl ⟨x, onEngine_error (applied.trans ran)⟩
    | ok u e => exact .inr ⟨seat.val, action, amount, e, ran, betting, onEngine_ok (applied.trans ran)⟩

theorem onEngine_swapped {α : Type} {m : EngineM n α}
    (blind : Related (Recarded holes deck) (Recarded holes deck) m m) (t : PokerTable n) :
    Matches (fun s s' => s' = s.withEngine (s.engine.recard holes deck)) (onEngine m t)
      (onEngine m (t.withEngine (t.engine.recard holes deck))) := by
  have ends := blind t.engine _ rfl
  unfold onEngine Method.within
  cases left : m t.engine with
  | ok a e =>
    rw [left] at ends
    obtain ⟨e', right, rfl⟩ := ends.of_ok
    dsimp only [withEngine]
    rw [right]
    exact .ok rfl
  | error x e =>
    rw [left] at ends
    obtain ⟨e', right, rfl⟩ := ends.of_error
    dsimp only [withEngine]
    rw [right]
    exact .error rfl

theorem begin_swapped (py : PyText) (c : TableCommand) (t : PokerTable n) :
    Matches (fun s s' => s' = s.withEngine (s.engine.recard holes deck)) (c.begin py t)
      (c.begin py (t.withEngine (t.engine.recard holes deck))) := by
  have checks : (t.withEngine (t.engine.recard holes deck)).checkCommand py c.playerId c.command c.payload =
      t.checkCommand py c.playerId c.command c.payload := rfl
  unfold TableCommand.begin beginCommand
  rw [checks]
  cases ok : t.checkCommand py c.playerId c.command c.payload with
  | error x => exact .error rfl
  | ok checked =>
    obtain ⟨seat, fields⟩ := checked
    obtain ⟨-, known, kind, word⟩ := checkCommand_kind ok
    rw [word]
    exact onEngine_swapped (applyCommand_recarded py seat (.dict fields) kind) t

theorem begin_inStep (py : PyText) (c : TableCommand) (step : InStep own holes k t t') :
    (∃ x, c.begin py t = .error x t ∧ c.begin py t' = .error x t') ∨
      ∃ b b', c.begin py t = .ok () b ∧ c.begin py t' = .ok () b' ∧ InStep own holes k b b' := by
  obtain ⟨deck, rfl, top⟩ := step.cards
  have both : Matches (fun s s' => s' = s.withEngine (s.engine.recard holes deck)) (c.begin py t) _ := begin_swapped py c t
  obtain ⟨x, refused⟩ | ⟨seat, action, amount, e, ran, -, begun⟩ := begin_cases py c t
  · rw [refused] at both
    obtain ⟨s', refused', rfl⟩ := both.of_error
    exact .inl ⟨x, refused, refused'⟩
  rw [begun] at both
  obtain ⟨s', begun', rfl⟩ := both.of_ok
  have layout := act_layout ran
  have board : e.board = t.engine.board := congrArg Layout.board layout
  have cards : e.deck = t.engine.deck := congrArg Layout.deck layout
  refine .inr ⟨_, _, begun, begun', step.betting, step.unseen, fun i => ?_, deck, rfl, ?_⟩
  · exact (congrFun (congrArg Layout.holes layout) i).trans (step.own i)
  show SameTop (k - e.board.length) e.deck deck
  rw [board, cards]
  exact top

theorem begin_dealt {py : PyText} {c : TableCommand} (good : t.Good) (ran : c.begin py t = .ok () b) : b.Dealt := by
  obtain ⟨x, refused⟩ | ⟨seat, action, amount, e, acted, betting, begun⟩ := begin_cases py c t
  · rw [ran] at refused
    cases refused
  rw [ran] at begun
  cases begun
  have dealt := good.during betting
  exact dealt.withEngine (act_underway dealt.underway (good.contested betting) acted)

theorem settleHand_returned {u : PokerTable n} (ran : settleHand t = .ok () u) :
    ∃ raw e initial, Engine.settle 1 t.engine.bettingLocked t.engine = .ok raw e ∧ t.handInitial = some initial ∧
      u = (t.withEngine e).recordHand initial raw := by
  obtain ⟨raw, s, called, ran⟩ := bind_ok ran
  obtain ⟨e, settled, rfl⟩ := onEngine_returned called
  obtain ⟨_, _, got, ran⟩ := bind_ok (m := get) ran
  cases got
  by_cases lost : ∑ i, (t.withEngine e).chips i ≠ ∑ i, (t.withEngine e).initial i
  · rw [if_pos lost] at ran
    cases ran
  rw [if_neg lost] at ran
  cases recorded : (t.withEngine e).handInitial with
  | none =>
    rw [recorded] at ran
    cases ran
  | some initial =>
    rw [recorded] at ran
    cases ran
    exact ⟨raw, e, initial, settled, recorded, rfl⟩

end PokerTable

/-- Settlements with the same outcome: the pots with their payouts, the winners, who showed and who did not. -/
structure SettleResult.SameOutcome {n : ℕ} (raw raw' : SettleResult n) : Prop where
  pots : raw.pots = raw'.pots
  winners : raw.winners = raw'.winners
  shown : raw.shown = raw'.shown
  mucked : raw.mucked = raw'.mucked

namespace PokerTable

variable {t t' : PokerTable n} {own holes : Fin n → List Card} {k : ℕ}

open Engine

structure ShownAlike (own holes : Fin n → List Card) (raw : SettleResult n) (u u' : PokerTable n) : Prop where
  swapped : ∃ deck, u' = u.withEngine (u.engine.recard holes deck)
  own : ∀ i, (u.engine.players i).hole = own i
  seen : ∀ i ∈ u.shown, i ∈ raw.shown

theorem settleOver_inStep {u : PokerTable n} (step : InStep own holes k t t') (dealt : t.Dealt) (dealt' : t'.Dealt)
    (shut : handOver t.engine = true) (ran : settleOver t = .ok () u) (within : u.engine.board.length ≤ k) :
    ∃ raw raw' u', value (Engine.settle 1 t.engine.bettingLocked t.engine) = some raw ∧
      value (Engine.settle 1 t'.engine.bettingLocked t'.engine) = some raw' ∧ settleOver t' = .ok () u' ∧
      u.phase = .settled ∧ u'.phase = .settled ∧
      (raw.SameOutcome raw' → (∀ i ∈ raw.shown, own i = holes i) → ShownAlike own holes raw u u') := by
  obtain ⟨deck, rfl, top⟩ := step.cards
  rw [settleOver, if_pos ⟨step.betting, shut⟩] at ran
  obtain ⟨raw, e, initial, settled, recorded, rfl⟩ := settleHand_returned ran
  obtain ⟨u', ran', -, -⟩ := settleHand_good dealt'
  obtain ⟨raw', f, initial', settled', recorded', rfl⟩ := settleHand_returned ran'
  obtain rfl : initial = initial' := Option.some.inj (recorded.symm.trans recorded')
  have drawn := settle_drawn settled
  change e.board.length ≤ k at within
  refine ⟨raw, raw', _, by rw [settled]; rfl, by rw [settled']; rfl, (if_pos ⟨step.betting, shut⟩).trans ran', rfl, rfl,
    fun same shown => ?_⟩
  obtain ⟨deck', rfl⟩ := settle_recard dealt.underway.live.solvent dealt.underway.live.alive settled settled' top
    (by omega) same.pots same.shown fun i here => by rw [step.own i, shown i here]
  refine ⟨⟨deck', ?_⟩, fun i => (drawn.holes i).trans (step.own i), fun i here => by simpa using (List.mem_filter.mp here).2⟩
  unfold recordHand
  rw [same.shown, same.winners]
  rfl

theorem settleOver_goesOn {u : PokerTable n} (ran : settleOver t = .ok () u) : GoesOn t u := by
  unfold settleOver at ran
  split at ran
  · obtain ⟨raw, e, initial, settled, -, rfl⟩ := settleHand_returned ran
    exact ⟨settle_drawn settled, rfl⟩
  cases ran
  exact .refl _

theorem advanceFor_goesOn (rounds : ℕ) (dealt : t.Dealt) : GoesOn t (after (advanceFor (rounds + 2) t)) := by
  obtain ⟨u, advanced, -⟩ := advanceFor_good rounds dealt
  rw [advanced]
  rw [advanceFor_eq] at advanced
  obtain ⟨_, b, reached, ended⟩ := bind_ok advanced
  exact (reachFor_goesOn _ reached).trans (settleOver_goesOn ended)

end PokerTable

/-- Two hands in step: both are being played, or both are settled, and then with the same outcome and shown
hands the tables differ in hidden cards only. -/
def PlayedHand.InStep {n : ℕ} (own holes : Fin n → List Card) (k : ℕ) (h h' : PlayedHand n) : Prop :=
  (PokerTable.InStep own holes k h.table h'.table ∧ h.outcome = none ∧ h'.outcome = none) ∨
    h.table.phase = .settled ∧ h'.table.phase = .settled ∧
      ∃ raw raw', h.outcome = some raw ∧ h'.outcome = some raw' ∧
        (raw.SameOutcome raw' → (∀ i ∈ raw.shown, own i = holes i) →
          PokerTable.ShownAlike own holes raw h.table h'.table)

namespace PokerTable

variable {t t' : PokerTable n} {own holes : Fin n → List Card} {k : ℕ}

open Engine

theorem follow_inStep (rounds : ℕ) {first first' : TableM n Unit} {b b' : PokerTable n} (begun : first t = .ok () b)
    (begun' : first' t' = .ok () b') (step : InStep own holes k b b') (dealt : b.Dealt) (dealt' : b'.Dealt)
    (within : (after (advanceFor (rounds + 2) b)).engine.board.length ≤ k) :
    PlayedHand.InStep own holes k ⟨after (advanceFor (rounds + 2) b), settlement (rounds + 2) first t⟩
      ⟨after (advanceFor (rounds + 2) b'), settlement (rounds + 2) first' t'⟩ := by
  obtain ⟨u, advanced, -⟩ := advanceFor_good rounds dealt
  rw [advanced, after_ok] at within ⊢
  rw [advanceFor_eq] at advanced ⊢
  obtain ⟨_, c, reached, ended⟩ := bind_ok advanced
  obtain ⟨c', reached', step⟩ := reachFor_inStep _ step reached
    ((settleOver_goesOn ended).board.trans within)
  unfold settlement
  rw [bind_of_ok begun, bind_of_ok begun', bind_of_ok reached', reached, reached']
  cases shut : handOver c.engine with
  | false =>
    have shut' : handOver c'.engine = false := by
      obtain ⟨deck, rfl, -⟩ := step.cards
      exact shut
    rw [settleOver, if_neg (by simp [shut])] at ended
    cases ended
    rw [settleOver, if_neg (by simp [shut'])]
    exact .inl ⟨step, if_neg (by simp [shut]), if_neg (by simp [shut'])⟩
  | true =>
    have shut' : c'.phase = .betting ∧ handOver c'.engine = true := by
      obtain ⟨deck, rfl, -⟩ := step.cards
      exact ⟨step.betting, shut⟩
    obtain ⟨raw, raw', u', settled, settled', ended', phase, phase', alike⟩ := settleOver_inStep step
      (reachFor_dealt _ dealt reached) (reachFor_dealt _ dealt' reached') shut ended within
    rw [ended']
    exact .inr ⟨phase, phase', raw, raw', (if_pos ⟨step.betting, shut⟩).trans settled,
      (if_pos shut').trans settled', alike⟩

theorem begin_between (py : PyText) (c : TableCommand) (rests : t.phase ≠ .betting) : ∃ x, c.begin py t = .error x t := by
  obtain refused | ⟨_, _, _, _, -, betting, -⟩ := begin_cases py c t
  · exact refused
  exact absurd betting rests

theorem make_refused {py : PyText} {rounds : ℕ} {c : TableCommand} {x : PyError} (refused : c.begin py t = .error x t) :
    c.make py rounds t = .error x t ∧ settlement rounds (c.begin py) t = none := by
  refine ⟨?_, ?_⟩
  · rw [TableCommand.make, command_eq]
    exact bind_of_error refused
  unfold settlement
  rw [bind_of_error refused]

end PokerTable

namespace PlayedHand

open PokerTable

variable {py : PyText} {rounds : ℕ} {own holes : Fin n → List Card} {k : ℕ} {h h' : PlayedHand n}

theorem obey_refused {c : TableCommand} {x : PyError} (refused : c.begin py h.table = .error x h.table) :
    h.obey py rounds c = h := by
  obtain ⟨made, none⟩ := make_refused refused
  rw [obey, made, none, Option.none_or]
  rfl

theorem after_make {c : TableCommand} {t b : PokerTable n} (begun : c.begin py t = .ok () b) (dealt : b.Dealt) :
    after (c.make py (rounds + 2) t) = after (advanceFor (rounds + 2) b) ∧
      answer (c.make py (rounds + 2) t) = .ok ⟨t.tableId, c.command⟩ := by
  obtain ⟨u, advanced, -⟩ := advanceFor_good rounds dealt
  have made : c.make py (rounds + 2) t = .ok ⟨t.tableId, c.command⟩ u := by
    rw [TableCommand.make, command_eq]
    change (c.begin py >>= _) t = _
    rw [bind_of_ok begun, bind_of_ok advanced]
    rfl
  rw [made, advanced]
  exact ⟨rfl, rfl⟩

theorem obey_inStep (c : TableCommand) (step : InStep own holes k h h') (good : h.table.Good) (good' : h'.table.Good)
    (within : (h.obey py (rounds + 2) c).table.engine.board.length ≤ k) :
    InStep own holes k (h.obey py (rounds + 2) c) (h'.obey py (rounds + 2) c) := by
  obtain ⟨step, open', open''⟩ | ⟨phase, phase', alike⟩ := step
  · obtain ⟨x, refused, refused'⟩ | ⟨b, b', begun, begun', step⟩ := begin_inStep py c step
    · rw [obey_refused refused, obey_refused refused']
      exact .inl ⟨step, open', open''⟩
    have dealt := begin_dealt good begun
    have dealt' := begin_dealt good' begun'
    unfold obey at within ⊢
    rw [open', open'', Option.or_none, Option.or_none, (after_make begun dealt).1, (after_make begun' dealt').1]
    refine follow_inStep rounds begun begun' step dealt dealt' ?_
    rwa [(after_make begun dealt).1] at within
  obtain ⟨x, refused⟩ := begin_between py c (t := h.table) (by rw [phase]; simp)
  obtain ⟨x', refused'⟩ := begin_between py c (t := h'.table) (by rw [phase']; simp)
  rw [obey_refused refused, obey_refused refused']
  exact .inr ⟨phase, phase', alike⟩

theorem answer_inStep (c : TableCommand) (step : PokerTable.InStep own holes k h.table h'.table) (good : h.table.Good)
    (good' : h'.table.Good) : answer (c.make py (rounds + 2) h.table) = answer (c.make py (rounds + 2) h'.table) := by
  obtain ⟨x, refused, refused'⟩ | ⟨b, b', begun, begun', -⟩ := begin_inStep py c step
  · rw [(make_refused refused).1, (make_refused refused').1]
    rfl
  rw [(after_make begun (begin_dealt good begun)).2,
    (after_make begun' (begin_dealt good' begun')).2]
  obtain ⟨deck, same, -⟩ := step.cards
  rw [same]
  rfl

theorem obey_goesOn (c : TableCommand) (good : h.table.Good) :
    GoesOn h.table (h.obey py (rounds + 2) c).table := by
  obtain ⟨x, refused⟩ | ⟨seat, action, amount, e, acted, -, begun⟩ := begin_cases py c h.table
  · rw [obey_refused refused]
    exact .refl _
  have dealt := begin_dealt good begun
  unfold obey
  rw [(after_make begun dealt).1]
  exact (goesOn_withEngine (Engine.drawn_of_layout (Engine.act_layout acted))).trans
    (advanceFor_goesOn rounds dealt)

end PlayedHand

/-! ### A hand from its start -/

namespace PokerTable

variable {t : PokerTable n}

open Engine PlayedHand

def dealtBy (t : PokerTable n) (deck : Shuffle) : Engine n := after (Engine.startHand none deck.cards t.engine)

def holeFrom (t : PokerTable n) (deck : Shuffle) (i : Fin n) : List Card := ((t.dealtBy deck).players i).hole

def boardFrom (t : PokerTable n) (deck : Shuffle) (k : ℕ) : List Card := upcoming k (t.dealtBy deck).deck

theorem beginHand_cases (few : n ≤ 9) (good : t.Good) : (∃ x, ∀ deck, beginHand deck t = .error x t) ∨
    ∀ deck : Shuffle, Engine.startHand none deck.cards t.engine = .ok true (t.dealtBy deck) ∧
      (t.openHand.withEngine (t.dealtBy deck)).setBetting.Dealt ∧
      beginHand deck.cards t = .ok () (t.openHand.withEngine (t.dealtBy deck)).setBetting := by
  unfold beginHand
  by_cases open' : t.phase ≠ .lobby ∧ t.phase ≠ .settled
  · exact .inl ⟨_, fun _ => if_pos open'⟩
  by_cases two : (t.engine.seatsWhere fun p => 0 < p.stack).length < 2
  · exact .inl ⟨_, fun _ => (if_neg open').trans (if_pos two)⟩
  right
  intro deck
  have rests := good.between fun betting => open' (by rw [betting]; simp)
  obtain ⟨e, started, underway⟩ := startHand_underway few deck.full rests (Nat.le_of_not_lt two)
  obtain rfl : t.dealtBy deck = e := by rw [dealtBy, started, after_ok]
  refine ⟨started, ⟨rfl, underway, ⟨t.chips, rfl, rests.stacks⟩, rfl⟩, ?_⟩
  have begins : onEngine (Engine.startHand none deck.cards) t.openHand =
      .ok true (t.openHand.withEngine (t.dealtBy deck)) := onEngine_ok started
  rw [if_neg open', if_neg two]
  change (onEngine (Engine.startHand none deck.cards) >>= _) t.openHand = _
  rw [bind_of_ok begins]
  rfl

theorem after_startHand {rounds : ℕ} {deck : List Card} {b : PokerTable n} (begun : beginHand deck t = .ok () b) :
    after (startHand rounds deck t) = after (advanceFor rounds b) := by
  rw [startHand_eq, bind_of_ok begun]

theorem dealtBy_board {deck : Shuffle} (started : Engine.startHand none deck.cards t.engine = .ok true (t.dealtBy deck))
    (dealt : (t.openHand.withEngine (t.dealtBy deck)).setBetting.Dealt) : (t.dealtBy deck).board.length = 0 := by
  have fits : (t.dealtBy deck).BoardFits := dealt.underway.live.fits
  rw [fits, startHand_street started]
  rfl

theorem start_inStep (rounds : ℕ) {k : ℕ} (few : n ≤ 9) {deck deck' : Shuffle}
    (begins : ∀ deck : Shuffle, Engine.startHand none deck.cards t.engine = .ok true (t.dealtBy deck) ∧
      (t.openHand.withEngine (t.dealtBy deck)).setBetting.Dealt ∧
      beginHand deck.cards t = .ok () (t.openHand.withEngine (t.dealtBy deck)).setBetting)
    (board : t.boardFrom deck k = t.boardFrom deck' k) (enough : k ≤ (t.dealtBy deck).deck.length)
    (within : (start (rounds + 2) t deck.cards).table.engine.board.length ≤ k) :
    PlayedHand.InStep (t.holeFrom deck) (t.holeFrom deck') k (start (rounds + 2) t deck.cards)
      (start (rounds + 2) t deck'.cards) := by
  obtain ⟨started, dealt, begun⟩ := begins deck
  obtain ⟨started', dealt', begun'⟩ := begins deck'
  have size : ∀ deck : Shuffle, deck.cards.length = 52 := fun deck => deck.full.length_eq.trans fullDeck_length
  obtain ⟨holes, rest, also, length⟩ := startHand_recard started ((size deck').trans (size deck).symm)
    (by rw [size]; omega)
  rw [started'] at also
  have same : t.dealtBy deck' = (t.dealtBy deck).recard holes rest := by
    injection also
  obtain rfl : t.holeFrom deck' = holes := by
    funext i
    rw [holeFrom, same]
    rfl
  have rests : (t.dealtBy deck').deck = rest := by rw [same]; rfl
  have top : SameTop k (t.dealtBy deck).deck (t.dealtBy deck').deck :=
    sameTop_of_upcoming (by rw [rests, length]) enough board
  unfold start at within ⊢
  rw [after_startHand begun] at within ⊢
  rw [after_startHand begun']
  refine follow_inStep rounds begun begun' ⟨rfl, rfl, fun _ => rfl, rest, ?_, ?_⟩ dealt dealt' within
  · rw [same]
    rfl
  show SameTop (k - (t.dealtBy deck).board.length) (t.dealtBy deck).deck rest
  rw [dealtBy_board started dealt, Nat.sub_zero, ← rests]
  exact top

end PokerTable

namespace PlayedHand

open PokerTable

variable {t : PokerTable n} {py : PyText} {rounds k : ℕ} {deck deck' : Shuffle} {own holes : Fin n → List Card}

theorem play_good (few : n ≤ 9) (good : t.Good) (deck : Shuffle) (commands : List TableCommand) :
    (play py (rounds + 2) t deck.cards commands).table.Good := by
  rw [play_table]
  exact (keeps_runAll (make_keeps py rounds t.initial few) _ ⟨good, rfl⟩).1

theorem play_goesOn (few : n ≤ 9) (good : t.Good) (deck : Shuffle) (commands : List TableCommand) :
    GoesOn (start (rounds + 2) t deck.cards).table (play py (rounds + 2) t deck.cards commands).table := by
  induction commands using List.reverseRecOn with
  | nil => exact .refl _
  | append_singleton commands c ih =>
    rw [play_append]
    exact ih.trans (obey_goesOn c (play_good few good deck commands))

theorem play_inStep (few : n ≤ 9) (good : t.Good)
    (begins : (start (rounds + 2) t deck.cards).table.engine.board.length ≤ k →
      InStep own holes k (start (rounds + 2) t deck.cards) (start (rounds + 2) t deck'.cards))
    (commands : List TableCommand)
    (within : (play py (rounds + 2) t deck.cards commands).table.engine.board.length ≤ k) :
    InStep own holes k (play py (rounds + 2) t deck.cards commands) (play py (rounds + 2) t deck'.cards commands) ∧
      ((play py (rounds + 2) t deck.cards commands).table.phase = .betting →
        (start (rounds + 2) t deck.cards).answers py (rounds + 2) commands =
          (start (rounds + 2) t deck'.cards).answers py (rounds + 2) commands) := by
  induction commands using List.reverseRecOn with
  | nil => exact ⟨begins within, fun _ => rfl⟩
  | append_singleton commands c ih =>
    have now : (play py (rounds + 2) t deck.cards commands).table.Good := play_good few good deck commands
    have now' : (play py (rounds + 2) t deck'.cards commands).table.Good := play_good few good deck' commands
    rw [play_append] at within ⊢
    obtain ⟨step, answered⟩ := ih ((obey_goesOn c now).board.trans within)
    rw [play_append]
    refine ⟨obey_inStep c step now now' within, fun betting => ?_⟩
    obtain ⟨step, -, -⟩ | ⟨phase, -, -⟩ := step
    · rw [answers_append, answers_append, answered step.betting]
      exact congrArg (fun last => _ ++ [last]) (answer_inStep c step now now')
    obtain ⟨x, refused⟩ := begin_between py c
      (t := (play py (rounds + 2) t deck.cards commands).table) (by rw [phase]; simp)
    rw [obey_refused refused, phase] at betting
    cases betting

end PlayedHand

namespace Engine

variable {e : Engine n} {holes : Fin n → List Card} {deck : List Card} {i : Fin n}

theorem recard_legal : (e.recard holes deck).legal i = e.legal i := rfl

theorem recard_effectiveStack : (e.recard holes deck).effectiveStack i = e.effectiveStack i := rfl

theorem recard_stack : ((e.recard holes deck).players i).stack = (e.players i).stack := rfl

theorem recard_decision : (e.recard holes deck).decision i = e.decision i := by
  unfold decision
  rw [recard_legal, recard_effectiveStack, recard_stack]

theorem recard_turnState (names : Fin n → String) (phase : TurnPhase) (winners : List (Fin n)) :
    (e.recard holes deck).turnState names i phase winners = e.turnState names i phase winners := rfl

theorem recard_turnView (names : Fin n → String) (phase : TurnPhase) (winners : List (Fin n)) :
    (e.recard holes deck).turnView names i phase winners = e.turnView names i phase winners := by
  have actor : (e.recard holes deck).actor = e.actor := rfl
  have bet : ((e.recard holes deck).players i).bet = (e.players i).bet := rfl
  have street : (e.recard holes deck).street = e.street := rfl
  have pot : (e.recard holes deck).pot = e.pot := rfl
  unfold turnView
  rw [recard_turnState, recard_legal, recard_effectiveStack, recard_decision, recard_stack, actor, bet, street, pot]

theorem recard_youView (same : holes i = (e.players i).hole) : (e.recard holes deck).youView i = e.youView i := by
  have board : (e.recard holes deck).board = e.board := rfl
  have actor : (e.recard holes deck).actor = e.actor := rfl
  unfold youView
  rw [recard_hole, same, recard_legal, board, actor]

end Engine

namespace PokerTable

variable {t : PokerTable n} {holes : Fin n → List Card}

open Engine PlayedHand

theorem shownTurn_swapped (names : Fin n → String) (deck : List Card) (s : Fin n) :
    (t.withEngine (t.engine.recard holes deck)).shownTurn names s = t.shownTurn names s := by
  have phase : (t.withEngine (t.engine.recard holes deck)).turnPhase = t.turnPhase := rfl
  have winners : (t.withEngine (t.engine.recard holes deck)).winners = t.winners := rfl
  have engine : (t.withEngine (t.engine.recard holes deck)).engine = t.engine.recard holes deck := rfl
  unfold shownTurn
  rw [phase, winners, engine, recard_turnView]
  rfl

theorem view_swapped (names : Fin n → String) {player : Scalar} {s : Fin n} (deck : List Card)
    (seated : t.seatOf player = some s) (own : holes s = (t.engine.players s).hole)
    (shown : ∀ i ∈ t.shown, holes i = (t.engine.players i).hole) :
    view names (t.withEngine (t.engine.recard holes deck)) player = view names t player := by
  have showdown : (t.withEngine (t.engine.recard holes deck)).shown.map
      (t.withEngine (t.engine.recard holes deck)).showSeat = t.shown.map t.showSeat :=
    map_congr_left fun i here => by
      show (⟨i, t.playerIds i, (holes i).map cardStr⟩ : ShownHand) = _
      rw [shown i here]
      rfl
  have seated' : (t.withEngine (t.engine.recard holes deck)).seatOf player = some s := seated
  have phase : (t.withEngine (t.engine.recard holes deck)).turnPhase = t.turnPhase := rfl
  have engine : (t.withEngine (t.engine.recard holes deck)).engine = t.engine.recard holes deck := rfl
  unfold view
  rw [seated, seated']
  dsimp only
  rw [showdown, shownTurn_swapped, phase, engine, recard_youView own]
  rfl

/-- What a seat's player sees, and what the commands answer, says nothing of the cards the seat cannot see. -/
theorem view_hides_cards {py : PyText} {tableId : Scalar} {players : List PlayerSeat} {config : TableConfig}
    {first : PokerTable n} (opened : init py tableId players config = .ok ⟨n, first⟩) {rounds : ℕ} (enough : 2 ≤ rounds)
    (earlier : List TableCall) (names : Fin n → String) (player : Scalar) (s : Fin n) (deck deck' : Shuffle)
    (commands : List TableCommand) :
    let t := runAll (make py rounds) first earlier
    let hand := play py rounds t deck.cards commands
    let hand' := play py rounds t deck'.cards commands
    t.seatOf player = some s → t.holeFrom deck s = t.holeFrom deck' s →
    t.boardFrom deck hand.table.engine.board.length = t.boardFrom deck' hand.table.engine.board.length →
    (hand.table.phase = .betting →
      view names hand.table player = view names hand'.table player ∧
      ∀ next, (start rounds t deck.cards).answers py rounds (commands ++ [next]) =
        (start rounds t deck'.cards).answers py rounds (commands ++ [next])) ∧
    ∀ raw raw', hand.outcome = some raw → hand'.outcome = some raw' → raw.SameOutcome raw' →
      (∀ i ∈ raw.shown, t.holeFrom deck i = t.holeFrom deck' i) →
      view names hand.table player = view names hand'.table player := by
  intro t hand hand' seated hole board
  obtain ⟨few, good₀⟩ := init_good opened
  obtain ⟨rounds, rfl⟩ : ∃ k, rounds = k + 2 := ⟨rounds - 2, by omega⟩
  have good : t.Good := (keeps_runAll (make_keeps py rounds first.initial few) earlier ⟨good₀, rfl⟩).1
  obtain ⟨x, refused⟩ | begins := beginHand_cases few good
  · -- no hand starts, with whichever deck
    have idle : ∀ deck : Shuffle, start (rounds + 2) t deck.cards = ⟨t, none⟩ := by
      intro deck
      unfold start settlement
      rw [startHand_eq, bind_of_error (refused _), bind_of_error (refused _)]
      rfl
    have same : hand' = hand := by
      show play py (rounds + 2) t deck'.cards commands = play py (rounds + 2) t deck.cards commands
      rw [play, play, idle, idle]
    rw [same, idle, idle]
    exact ⟨fun _ => ⟨rfl, fun _ => rfl⟩, fun _ _ _ _ _ _ => rfl⟩
  obtain ⟨started, dealt, begun⟩ := begins deck
  have played : GoesOn (t.openHand.withEngine (t.dealtBy deck)).setBetting hand.table := by
    refine GoesOn.trans ?_ (play_goesOn few good deck commands)
    unfold start
    rw [after_startHand begun]
    exact advanceFor_goesOn rounds dealt
  have fits : hand.table.engine.board.length ≤ (t.dealtBy deck).deck.length := by
    have cards := played.drawn.cards
    change _ = (t.dealtBy deck).board.length + (t.dealtBy deck).deck.length at cards
    rw [dealtBy_board started dealt] at cards
    omega
  have sits : hand.table.seatOf player = some s := by
    rw [played.seatOf]
    exact seated
  have begins' := start_inStep rounds few begins board fits
  obtain ⟨step, answered⟩ := play_inStep few good begins' commands le_rfl
  refine ⟨fun betting => ⟨?_, fun next => ?_⟩, fun raw raw' outcome outcome' same shown => ?_⟩
  · obtain ⟨step, -, -⟩ | ⟨phase, -, -⟩ := step
    · obtain ⟨cards, swapped, -⟩ := step.cards
      rw [swapped]
      refine (view_swapped names cards sits ?_ ?_).symm
      · rw [step.own, hole]
      rw [step.unseen]
      simp
    rw [phase] at betting
    cases betting
  · obtain ⟨step, -, -⟩ | ⟨phase, -, -⟩ := step
    · rw [answers_append, answers_append, answered betting]
      exact congrArg (fun last => _ ++ [last]) (answer_inStep next step
        (play_good few good deck commands) (play_good few good deck' commands))
    rw [phase] at betting
    cases betting
  obtain ⟨-, none, -⟩ | ⟨-, -, raw₁, raw₁', outcome₁, outcome₁', alike⟩ := step
  · rw [outcome] at none
    cases none
  cases outcome.symm.trans outcome₁
  cases outcome'.symm.trans outcome₁'
  obtain ⟨⟨cards, swapped⟩, own, seen⟩ := alike same shown
  rw [swapped]
  refine (view_swapped names cards sits ?_ fun i here => ?_).symm
  · rw [own, hole]
  rw [own, shown i (seen i here)]

/-- The full deck with its ends exchanged: the second seat of a duel is dealt another first card. -/
def exchangedEnds : Shuffle := ⟨fullDeck.drop 51 ++ (fullDeck.take 51).drop 1 ++ fullDeck.take 1, by decide +kernel⟩

theorem view_hides_cards_duel :
    let py : PyText := ⟨fun _ => true, id, fun _ => ""⟩
    let players : List PlayerSeat := [⟨.str "a", .str "A", .int 100⟩, ⟨.str "b", .str "B", .int 100⟩]
    let first := seatAll "t" [("a", 100), ("b", 100)] ⟨1, by decide⟩ 25 50 .noLimit false
    let deck : Shuffle := ⟨fullDeck, .refl _⟩
    let played := fun deck : Shuffle => play py 2 first deck.cards
    let fold : TableCommand := ⟨.str "a", .str "fold", .none⟩
    init py (.str "t") players {} = .ok ⟨2, first⟩ ∧ first.holeFrom deck 1 ≠ first.holeFrom exchangedEnds 1 ∧
      view (fun _ => "") (played deck []).table (.str "a") = view (fun _ => "") (played exchangedEnds []).table (.str "a") ∧
      view (fun _ => "") (played deck [fold]).table (.str "a") =
        view (fun _ => "") (played exchangedEnds [fold]).table (.str "a") := by
  intro py players first deck played fold
  have opened : init py (.str "t") players {} = .ok ⟨2, first⟩ := rfl
  have hidden := fun commands => view_hides_cards opened (le_refl 2) [] (fun _ => "") (.str "a") 0 deck exchangedEnds commands
    rfl (by decide +kernel)
  refine ⟨opened, by decide +kernel, ((hidden [] (by decide +kernel)).1 (by decide +kernel)).1, ?_⟩
  have settled : ((played deck [fold]).outcome.isSome ∧ (played deck [fold]).outcome = (played exchangedEnds [fold]).outcome) ∧
      (played deck [fold]).outcome.map SettleResult.shown = some ∅ := by decide +kernel
  obtain ⟨⟨some', same⟩, nobody⟩ := settled
  obtain ⟨raw, outcome⟩ := Option.isSome_iff_exists.mp some'
  rw [outcome] at nobody
  refine (hidden [fold] (by decide +kernel)).2 raw raw outcome (same ▸ outcome) ⟨rfl, rfl, rfl, rfl⟩ fun i here => ?_
  rw [Option.some.inj nobody] at here
  exact absurd here (Finset.notMem_empty i)

end PokerTable

end Holdem
