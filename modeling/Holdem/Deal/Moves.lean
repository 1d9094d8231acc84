import Holdem.Deal.Machine

/-!
What a `MentalDeal` can do. Every call, also one that raises, is a chain of the moves listed here, and
what a call returns is what its moves sent.
-/

set_option linter.unusedSectionVars false

namespace Holdem.MentalDeal

open List
open Function (update)

variable {F G P S α β : Type} [Field F] [DecidableEq F] [AddCommGroup G] [Module F G] [DecidableEq G]
  (C : Suite F G P S) (c : Config) (K : Secrets F G P S) {m m' : State F G P} {out : List Message}
  {I : State F G P → List Message → Prop}

open Method

def State.Dealing (m : State F G P) : Prop := m.phase = .deal ∨ m.phase = .audit

def State.keySum (m : State F G P) : G := (c.seatsIn.map fun s => (m.pubkeys s).getD 0).sum

def State.beginChain (m : State F G P) : State F G P :=
  { m with jointPk := some (m.keySum c), phase := .shuffle, deck := C.trivialDeck, shuffleRound := 0 }

def State.accepted (m : State F G P) (deck : Deck G) : State F G P :=
  { m with
    deck
    shuffleRound := m.shuffleRound + 1
    roundDecks := m.roundDecks ++ [deck]
    proofsVerified := m.proofsVerified + if c.prevention then 1 else 0 }

structure Acceptable (m : State F G P) (shuffler : ℕ) (deck : Deck G) : Prop where
  phase : m.phase = .shuffle
  turn : c.expectedShuffler (m.shuffleRound + 1) = some shuffler
  size : deck.length = 52
  nontrivial : ∀ ct ∈ deck, ct.c0 ≠ 0
  proven : c.prevention = true →
    ∃ proof, C.shuffleVerify m.joint m.deck deck (c.bgCtx (m.shuffleRound + 1) shuffler) proof = true

/-- What `_maybe_emit_shuffle` does: nothing, or one shuffle of the deck there is. -/
inductive Emitted (m : State F G P) : List Message → State F G P → Prop
  | idle : Emitted m [] m
  | shuffled {deck : Deck G} (turn : c.expectedShuffler (m.shuffleRound + 1) = some c.seat)
      (shuffle : C.shuffleDeck m.joint m.deck (K.coins m.myShuffles.length).witness = .ok deck) :
      Emitted m
        [deckRound C (m.shuffleRound + 1) c.seat deck (if c.prevention then
          some (K.shuffleProof m.joint m.deck deck (K.coins m.myShuffles.length).witness
            (c.bgCtx (m.shuffleRound + 1) c.seat)) else none)]
        { m with myShuffles := m.myShuffles ++ [(m.shuffleRound + 1, deck, (K.coins m.myShuffles.length).witness)] }

def State.Own (m : State F G P) (pos : ℕ) (D : G) : Prop :=
  ∃ x ct, m.xShare = some x ∧ m.deck[pos]? = some ct ∧ D = x • ct.c0

def State.Sends (m : State F G P) (pos : ℕ) (msg : Message) : Prop :=
  ∃ x ct, m.xShare = some x ∧ m.deck[pos]? = some ct ∧ x • ct.c0 ≠ 0 ∧
    msg = dealShare C pos c.seat (x • ct.c0) (K.dealProof pos ct.c0)

def State.WithOwn (m : State F G P) (shares : ℕ → ℕ → Option G) : Prop :=
  ∀ pos s, shares pos s = m.shares pos s ∨ s = c.seat ∧ ∃ D, m.Own pos D ∧ shares pos s = some D

def Config.otherHoles : List ℕ :=
  ((DealMap.holePositions c.button c.seatsIn).filter fun entry => entry.1 ≠ c.seat).flatMap Prod.snd

def State.entered (m : State F G P) (shares : ℕ → ℕ → Option G) : State F G P :=
  { m with
    phase := .deal
    holePos := DealMap.holePositions c.button c.seatsIn
    boardPos := DealMap.boardPositions c.button c.seatsIn
    shares }

def State.Full (m : State F G P) (pos : ℕ) : Prop := ∀ s ∈ c.seatsIn, (m.shares pos s).isSome

def State.plain (m : State F G P) (pos : ℕ) (ct : Ciphertext G) : G :=
  Suite.combine ct (c.seatsIn.map fun s => (m.shares pos s).getD 0)

def State.report (m : State F G P) : DeckAudit.AuditReport :=
  DeckAudit.auditDeck C m.joint m.deck (c.seatsIn.map fun s => (m.pubkeys s).getD 0)
    (c.seatsIn.map fun s => (m.auditShares s).getD []) (m.chain c)

def Config.blame (report : DeckAudit.AuditReport) : Option Json :=
  (report.badSeats.head?.bind fun k => c.seatsIn[k]?).map fun s => Json.int s

section

variable (call : Call)

inductive Move : State F G P → List Message → State F G P → Prop
  | held {m : State F G P} {msg : Message} (called : call = .handle msg) (held : List Message) : Move m [] { m with held }
  | abort {m : State F G P} {reason : AbortReason} (bad : Option Json) (other : ∀ pos, reason ≠ .notACard pos) :
      Move m [] (m.abort reason bad)
  | start {m : State F G P} (called : call = .start) (fresh : m.phase = .keygen) (quiet : m.announced = false) :
      Move m [keyAnnounce C c.seat (K.share • C.base) K.pop]
        { m with
          xShare := some K.share, announced := true
          pubkeys := update m.pubkeys c.seat (some (K.share • C.base)) }
  | key {m : State F G P} {i : ℕ} {X : G} {pop : P} {seat : String} (fresh : m.phase = .keygen) (known : i ∈ c.seatsIn)
      (possession : C.popVerify X pop (c.popCtx seat) = true) (same : ∀ X', m.pubkeys i = some X' → X' = X) :
      Move m [] { m with pubkeys := update m.pubkeys i (some X) }
  | finish {m m' : State F G P} {outs : List Message} (fresh : m.phase = .keygen)
      (keys : ∀ s ∈ c.seatsIn, (m.pubkeys s).isSome) (sound : m.keySum c ≠ 0)
      (emitted : Emitted C c K (m.beginChain C c) outs m') : Move m outs m'
  | round {m m' : State F G P} {deck : Deck G} {shuffler : ℕ} {outs : List Message} (good : Acceptable C c m shuffler deck)
      (more : m.shuffleRound + 1 ≠ c.seatsIn.length) (emitted : Emitted C c K (m.accepted c deck) outs m') :
      Move m outs m'
  | deal {m : State F G P} {deck : Deck G} {shuffler : ℕ} {outs : List Message} {shares : ℕ → ℕ → Option G}
      (good : Acceptable C c m shuffler deck) (last : m.shuffleRound + 1 = c.seatsIn.length)
      (own : (m.accepted c deck).WithOwn c shares)
      (sent : outs = [] ∨ Forall₂ ((m.accepted c deck).Sends C c K) c.otherHoles outs) :
      Move m outs ((m.accepted c deck).entered c shares)
  | reveal {m : State F G P} {street : String} {slots : List ℕ} {outs : List Message} {shares : ℕ → ℕ → Option G}
      (called : call = .reveal street) (dealing : m.Dealing) (hidden : street ∉ m.revealed) (known : streetSlots street = some slots)
      (own : m.WithOwn c shares)
      (sent : outs = [] ∨ Forall₂ (m.Sends C c K) (slots.map fun slot => m.boardPos.getD slot 0) outs) :
      Move m outs { m with revealed := street :: m.revealed, shares }
  | share {m : State F G P} {pos i : ℕ} {ct : Ciphertext G} {X D : G} {proof : P} (dealing : m.Dealing)
      (known : i ∈ c.seatsIn) (dealt : pos ∈ m.validPositions) (card : m.deck[pos]? = some ct)
      (key : m.pubkeys i = some X) (proven : C.dleqVerify X D ct.c0 proof = true) : Move m [] (m.record pos i D)
  | board {m : State F G P} {pos : ℕ} {ct : Ciphertext G} {card : Fin 52} (full : m.Full c pos) (at' : m.deck[pos]? = some ct)
      (place : pos ∈ m.boardPos) (opens : C.pointToCard (m.plain c pos ct) = some card) :
      Move m [] { m with board := m.board.set (m.boardPos.idxOf pos) (some card) }
  | hole {m : State F G P} {pos : ℕ} {ct : Ciphertext G} {card : Fin 52} (full : m.Full c pos) (at' : m.deck[pos]? = some ct)
      (place : pos ∈ m.holesOf c.seat) (opens : C.pointToCard (m.plain c pos ct) = some card) :
      Move m [] { m with hole := m.hole.set ((m.holesOf c.seat).idxOf pos) (some card) }
  | corrupt {m : State F G P} {pos : ℕ} {ct : Ciphertext G} (full : m.Full c pos) (at' : m.deck[pos]? = some ct)
      (place : pos ∈ m.boardPos ∨ pos ∈ m.holesOf c.seat) (opens : C.pointToCard (m.plain c pos ct) = none) :
      Move m [] (m.abort (.notACard pos) none)
  | opened {m : State F G P} {i : ℕ} (shares : List (DeckAudit.PositionShare G P)) (w : Option (ShuffleWitness F))
      (dealing : m.Dealing) (known : i ∈ c.seatsIn) :
      Move m [] { m with
        auditShares := update m.auditShares i (some shares)
        auditWitnesses := update m.auditWitnesses i w }
  | openRaises {m : State F G P} (called : call = .openAudit) (dealing : m.Dealing) (closed : m.auditOpened = false) :
      Move m [] { m with phase := .audit, auditOpened := true }
  | openOwn {m : State F G P} {x : F} {shares : List (DeckAudit.PositionShare G P)} (called : call = .openAudit)
      (dealing : m.Dealing) (closed : m.auditOpened = false) (secret : m.xShare = some x) (made : makeShares C K x m.deck = .ok shares) :
      Move m [auditOpen C c.seat shares m.acceptedWitness] { m with
        phase := .audit, auditOpened := true
        auditShares := update m.auditShares c.seat (some shares)
        auditWitnesses := update m.auditWitnesses c.seat m.acceptedWitness }
  | passed {m : State F G P} (dealing : m.Dealing) (all : ∀ s ∈ c.seatsIn, (m.auditShares s).isSome) (fresh : m.auditReport = none)
      (ok : (m.report C c).ok = true) :
      Move m [] { m with auditReport := some (m.report C c), phase := .done }
  | failed {m : State F G P} (dealing : m.Dealing) (all : ∀ s ∈ c.seatsIn, (m.auditShares s).isSome) (fresh : m.auditReport = none)
      (bad : (m.report C c).ok = false) :
      Move m [] ({ m with auditReport := some (m.report C c) }.abort (.auditFailed (m.report C c).problems)
        (c.blame (m.report C c)))

inductive Moves : State F G P → List Message → State F G P → Prop
  | refl (m : State F G P) : Moves m [] m
  | step {m m1 m' : State F G P} {out outs : List Message} (first : Move C c K call m out m1) (rest : Moves m1 outs m') :
      Moves m (out ++ outs) m'

end

variable {C c K} {call : Call}

theorem Moves.single (move : Move C c K call m out m') : Moves C c K call m out m' := by
  have := Moves.step move (.refl m')
  rwa [append_nil] at this

theorem Moves.trans {m1 : State F G P} {outs : List Message} (first : Moves C c K call m out m1)
    (rest : Moves C c K call m1 outs m') : Moves C c K call m (out ++ outs) m' := by
  induction first with
  | refl => exact rest
  | step move _ ih =>
    rw [append_assoc]
    exact .step move (ih rest)

theorem Moves.keeps (each : ∀ m log out m', I m log → Move C c K call m out m' → I m' (log ++ out))
    (moves : Moves C c K call m out m') (log : List Message) (now : I m log) : I m' (log ++ out) := by
  induction moves generalizing log with
  | refl => rwa [append_nil]
  | step move _ ih =>
    rw [← append_assoc]
    exact ih _ (each _ _ _ _ now move)

variable (C c K call)

def TracedAt {α : Type} (sent : α → List Message) (f : DealM F G P α) (m : State F G P) : Prop :=
  ∃ out, Moves C c K call m out (after (f m)) ∧ ∀ a, value (f m) = some a → sent a = out

def Traced {α : Type} (sent : α → List Message) (f : DealM F G P α) : Prop := ∀ m, TracedAt C c K call sent f m

variable {C c K call} {sent : α → List Message} {f : DealM F G P α} {sent' : β → List Message} {g : α → DealM F G P β}
  {msg : Message} {shuffler : ℕ}

theorem traced_ok {a : α}
    (ran : f m = .ok a m') (moves : Moves C c K call m (sent a) m') : TracedAt C c K call sent f m := by
  rw [TracedAt, ran]
  exact ⟨sent a, moves, fun b same => by cases same; rfl⟩

theorem traced_error {x : PyError}
    (ran : f m = .error x m') (moves : Moves C c K call m out m') : TracedAt C c K call sent f m := by
  rw [TracedAt, ran]
  exact ⟨out, moves, fun b same => by cases same⟩

theorem makeShareMsg_cases (pos : ℕ) (m : State F G P) :
    (∃ x ct, m.xShare = some x ∧ m.deck[pos]? = some ct ∧ x • ct.c0 ≠ 0 ∧ makeShareMsg C c K pos m =
        .ok (dealShare C pos c.seat (x • ct.c0) (K.dealProof pos ct.c0)) (m.record pos c.seat (x • ct.c0))) ∨
      ∃ e, makeShareMsg C c K pos m = .error e m := by
  unfold makeShareMsg cardAt State.decryptShare
  cases at' : m.deck[pos]? with
  | none => exact .inr ⟨_, rfl⟩
  | some ct =>
    cases secret : m.xShare with
    | none => exact .inr ⟨_, rfl⟩
    | some x =>
      by_cases zero : x • ct.c0 = 0
      · refine .inr ⟨.valueError "scalarmult failed (identity or invalid point)", ?_⟩
        simp [bind, Except.bind, pure, Except.pure, Backend.mul, Suite.backend, zero]
      refine .inl ⟨x, ct, rfl, rfl, zero, ?_⟩
      simp [bind, Except.bind, pure, Except.pure, Backend.mul, Suite.backend, zero]

theorem State.WithOwn.refl (m : State F G P) : m.WithOwn c m.shares := fun _ _ => .inl rfl

theorem State.WithOwn.record {pos : ℕ} {D : G} (own : m.Own pos D) : m.WithOwn c (m.record pos c.seat D).shares := by
  intro p s
  by_cases here : p = pos
  · subst here
    by_cases self : s = c.seat
    · subst self
      exact .inr ⟨rfl, D, own, by simp [State.record]⟩
    exact .inl (by simp [State.record, self])
  exact .inl (by simp [State.record, here])

theorem State.WithOwn.trans {shares shares' : ℕ → ℕ → Option G} (first : m.WithOwn c shares)
    (second : { m with shares }.WithOwn c shares') : m.WithOwn c shares' := by
  intro pos s
  obtain same | own := second pos s
  · rw [same]
    exact first pos s
  exact .inr own

theorem makeShareMsgs_made (positions : List ℕ) (m : State F G P) :
    ∃ shares, after (makeShareMsgs C c K positions m) = { m with shares } ∧ m.WithOwn c shares ∧
      ∀ msgs, value (makeShareMsgs C c K positions m) = some msgs → Forall₂ (m.Sends C c K) positions msgs := by
  induction positions generalizing m with
  | nil => exact ⟨m.shares, rfl, .refl m, fun msgs same => by cases same; exact .nil⟩
  | cons pos rest ih =>
    unfold makeShareMsgs
    rcases makeShareMsg_cases (C := C) (c := c) (K := K) pos m with ⟨x, ct, secret, at', nonzero, made⟩ | ⟨e, failed⟩
    · have own : m.WithOwn c (m.record pos c.seat (x • ct.c0)).shares := .record ⟨x, ct, secret, at', rfl⟩
      obtain ⟨shares, state, more, sends⟩ := ih (m.record pos c.seat (x • ct.c0))
      rw [bind_of_ok made, bind_apply]
      refine ⟨shares, ?_, own.trans more, ?_⟩
      · cases ran : makeShareMsgs C c K rest (m.record pos c.seat (x • ct.c0)) <;> rw [ran] at state <;> exact state
      intro msgs returned
      cases ran : makeShareMsgs C c K rest (m.record pos c.seat (x • ct.c0)) with
      | error e m' =>
        rw [ran] at returned
        cases returned
      | ok others m' =>
        rw [ran] at returned sends
        cases returned
        exact .cons ⟨x, ct, secret, at', nonzero, rfl⟩ (sends others rfl)
    rw [bind_of_error failed]
    exact ⟨m.shares, rfl, .refl m, fun msgs same => by cases same⟩

theorem recordOwn_made (positions : List ℕ) (m : State F G P) :
    ∃ shares, after (recordOwn c positions m) = { m with shares } ∧ m.WithOwn c shares := by
  induction positions generalizing m with
  | nil => exact ⟨m.shares, rfl, .refl m⟩
  | cons pos rest ih =>
    unfold recordOwn
    rw [bind_of_ok (m := get) (a := m) (t := m) rfl]
    obtain at' | ⟨ct, at'⟩ := Option.eq_none_or_eq_some m.deck[pos]?
    · have failed : (do m.decryptShare (← cardAt m pos) : Except PyError (F × G)) = .error .indexError := by
        rw [cardAt, at']
        rfl
      rw [failed]
      exact ⟨m.shares, rfl, .refl m⟩
    obtain secret | ⟨x, secret⟩ := Option.eq_none_or_eq_some m.xShare
    · have failed : (do m.decryptShare (← cardAt m pos) : Except PyError (F × G)) = .error .typeError := by
        rw [cardAt, at', ok_bind, State.decryptShare, secret]
      rw [failed]
      exact ⟨m.shares, rfl, .refl m⟩
    have made : (do m.decryptShare (← cardAt m pos) : Except PyError (F × G)) = .ok (x, x • ct.c0) := by
      rw [cardAt, at', ok_bind, State.decryptShare, secret]
      simp
    rw [made]
    obtain ⟨shares, state, more⟩ := ih (m.record pos c.seat (x • ct.c0))
    exact ⟨shares, state, (State.WithOwn.record ⟨x, ct, secret, at', rfl⟩).trans more⟩

theorem maybeEmitShuffle_emitted (m : State F G P) : ∃ out, Emitted C c K m out (after (maybeEmitShuffle C c K m)) ∧
    ∀ a, value (maybeEmitShuffle C c K m) = some a → a = out := by
  unfold maybeEmitShuffle
  dsimp only
  split
  · exact ⟨[], .idle, fun a same => by cases same; rfl⟩
  rename_i turn
  rw [not_not] at turn
  split
  · exact ⟨[], .idle, fun a same => by cases same⟩
  rename_i deck shuffled
  exact ⟨_, .shuffled turn shuffled, fun a same => by cases same; rfl⟩

theorem finishKeygen_traced (fresh : m.phase = .keygen) (keys : ∀ s ∈ c.seatsIn, (m.pubkeys s).isSome) :
    TracedAt C c K call id (finishKeygen C c K) m := by
  unfold TracedAt finishKeygen
  dsimp only
  split
  · exact ⟨[], .single (.abort none fun _ => by simp), fun a same => by cases same; rfl⟩
  rename_i sound
  obtain ⟨out, emitted, returned⟩ := maybeEmitShuffle_emitted (C := C) (c := c) (K := K) (m.beginChain C c)
  exact ⟨out, .single (.finish fresh keys sound emitted), returned⟩

theorem seatOf_mem {value : Json} {i : ℕ} (found : c.seatOf value = some i) : i ∈ c.seatsIn :=
  mem_of_find?_eq_some found

theorem abort_traced {reason : AbortReason} (bad : Option Json) (other : ∀ pos, reason ≠ .notACard pos := by simp) :
    TracedAt C c K call id (abort reason bad) m :=
  traced_ok rfl (.single (.abort bad other))

theorem onKeyAnnounce_traced (msg : Message) : Traced C c K call id (onKeyAnnounce C c K msg) := by
  intro m
  unfold TracedAt onKeyAnnounce
  split
  · exact traced_ok rfl (.refl m)
  rename_i fresh
  rw [not_not] at fresh
  split
  · exact traced_error rfl (.refl m)
  split
  · exact abort_traced _
  rename_i i found
  split
  · split
    · exact abort_traced _
    exact traced_error rfl (.refl m)
  rename_i X pop read
  split
  · exact abort_traced _
  rename_i possession
  split
  · exact abort_traced _
  rename_i same
  have key : Move C c K call m [] { m with pubkeys := update m.pubkeys i (some X) } := by
    refine .key fresh (seatOf_mem found) (by simpa using possession) fun X' known => ?_
    simpa [known] using same
  dsimp only
  split
  · rename_i all
    obtain ⟨out, moves, returned⟩ := finishKeygen_traced (C := C) (K := K)
      (m := { m with pubkeys := update m.pubkeys i (some X) }) fresh
      (fun s member => by simpa using List.all_eq_true.mp all s member)
    exact ⟨out, .step key moves, returned⟩
  exact ⟨[], .single key, fun a same => by cases same; rfl⟩

theorem enterDeal_eq (m : State F G P) : enterDeal C c K m = (do
    recordOwn c ((m.entered c m.shares).holesOf c.seat)
    makeShareMsgs C c K (((← get).holePos.filter fun entry => entry.1 ≠ c.seat).flatMap Prod.snd) :
      DealM F G P (List Message)) (m.entered c m.shares) := rfl

theorem enterDeal_made (m : State F G P) :
    ∃ shares out, after (enterDeal C c K m) = m.entered c shares ∧ m.WithOwn c shares ∧
      (out = [] ∨ Forall₂ (m.Sends C c K) c.otherHoles out) ∧
      ∀ msgs, value (enterDeal C c K m) = some msgs → msgs = out := by
  let begun := m.entered c m.shares
  obtain ⟨shares, state, own⟩ := recordOwn_made (c := c) (begun.holesOf c.seat) begun
  rw [enterDeal_eq, bind_apply]
  cases ran : recordOwn c (begun.holesOf c.seat) begun with
  | error x m1 =>
    rw [ran] at state
    exact ⟨shares, [], state, own, .inl rfl, fun msgs same => by cases same⟩
  | ok u m1 =>
    rw [ran, after_ok] at state
    subst state
    obtain ⟨shares', state', own', sends⟩ := makeShareMsgs_made (C := C) (c := c) (K := K) c.otherHoles { begun with shares }
    refine ⟨shares', (value (makeShareMsgs C c K c.otherHoles { begun with shares })).getD [], state', own.trans own', ?_,
      fun msgs returned => ?_⟩
    · cases made : value (makeShareMsgs C c K c.otherHoles { begun with shares }) with
      | none => exact .inl rfl
      | some msgs => exact .inr (sends msgs made)
    change value (makeShareMsgs C c K c.otherHoles { begun with shares }) = some msgs at returned
    rw [returned]
    rfl

theorem followRound_traced {deck : Deck G} (good : Acceptable C c m shuffler deck) :
    ∃ out, Moves C c K call m out (after (followRound C c K (m.shuffleRound + 1) (m.accepted c deck))) ∧
      ∀ a, value (followRound C c K (m.shuffleRound + 1) (m.accepted c deck)) = some a → id a = out := by
  unfold followRound
  split
  · rename_i last
    obtain ⟨shares, out, state, own, sent, returned⟩ := enterDeal_made (C := C) (c := c) (K := K) (m.accepted c deck)
    exact ⟨out, .single (state ▸ .deal good last own sent), returned⟩
  rename_i more
  obtain ⟨out, emitted, returned⟩ := maybeEmitShuffle_emitted (C := C) (c := c) (K := K) (m.accepted c deck)
  exact ⟨out, .single (.round good more emitted), returned⟩

theorem preventionFailure_cases (msg : Message) (deck : Deck G) (round seat : ℕ) (m : State F G P) :
    (∃ reason, preventionFailure C c msg deck round seat m = some reason ∧ ∀ pos, reason ≠ .notACard pos) ∨
      preventionFailure C c msg deck round seat m = none ∧ ∃ proof, C.decodeShuffle (msg.get "proof") = .ok proof ∧
          C.shuffleVerify m.joint m.deck deck (c.bgCtx round seat) proof = true := by
  unfold preventionFailure
  split
  · exact .inl ⟨_, rfl, fun _ => by simp⟩
  split
  · exact .inl ⟨_, rfl, fun _ => by simp⟩
  rename_i proof decoded
  split
  · rename_i verified
    exact .inr ⟨rfl, proof, decoded, verified⟩
  exact .inl ⟨_, rfl, fun _ => by simp⟩

theorem judgeDeck_traced (msg : Message) (raw : Json) (phase : m.phase = .shuffle)
    (turn : c.expectedShuffler (m.shuffleRound + 1) = some shuffler) :
    TracedAt C c K call id (judgeDeck C c K msg raw (m.shuffleRound + 1) shuffler) m := by
  unfold TracedAt judgeDeck
  split
  · split
    · exact abort_traced _
    exact traced_error rfl (.refl m)
  rename_i deck read
  split
  · exact abort_traced _
  rename_i size
  rw [not_not] at size
  split
  · exact abort_traced _
  rename_i nontrivial
  have proper : ∀ ct ∈ deck, ct.c0 ≠ 0 := by simpa using nontrivial
  by_cases prevention : c.prevention = true
  · rw [if_pos prevention]
    rcases preventionFailure_cases (C := C) (c := c) msg deck (m.shuffleRound + 1) shuffler m with
      ⟨reason, failed, other⟩ | ⟨passed, proof, -, verified⟩
    · rw [failed]
      exact abort_traced _ other
    rw [passed]
    have accepted : ({ m with proofsVerified := m.proofsVerified + 1 } : State F G P).accept (m.shuffleRound + 1) deck =
        m.accepted c deck := by
      rw [State.accept, State.accepted, if_pos prevention]
    rw [accepted]
    exact followRound_traced ⟨phase, turn, size, proper, fun _ => ⟨proof, verified⟩⟩
  rw [if_neg prevention]
  have accepted : m.accept (m.shuffleRound + 1) deck = m.accepted c deck := by
    rw [State.accepted, if_neg prevention]
    rfl
  rw [accepted]
  exact followRound_traced ⟨phase, turn, size, proper, fun on => absurd on prevention⟩

theorem onDeckRound_traced (msg : Message) : Traced C c K call id (onDeckRound C c K msg) := by
  intro m
  unfold TracedAt onDeckRound
  split
  · exact traced_ok rfl (.refl m)
  rename_i phase
  rw [not_not] at phase
  split
  · split
    · exact abort_traced _
    exact traced_error rfl (.refl m)
  split
  · exact traced_ok rfl (.refl m)
  split
  · rename_i expected turn
    split
    · exact abort_traced _
    exact judgeDeck_traced msg _ phase turn
  exact abort_traced _

theorem fill_cases (pos slot : ℕ) (shares : List G) (read : State F G P → List (Option (Fin 52)))
    (write : State F G P → List (Option (Fin 52)) → State F G P) (m : State F G P) :
    (∃ a, fill C pos slot shares read write m = .ok a m) ∨
      (∃ x, m.deck[pos]? = none ∧ fill C pos slot shares read write m = .error x m) ∨
      ∃ ct, m.deck[pos]? = some ct ∧ ((∃ card, C.pointToCard (Suite.combine ct shares) = some card ∧
        fill C pos slot shares read write m = .ok () (write m ((read m).set slot (some card)))) ∨
        C.pointToCard (Suite.combine ct shares) = none ∧
        fill C pos slot shares read write m = .ok () (m.abort (.notACard pos) none)) := by
  unfold fill
  rw [bind_of_ok (m := get) (a := m) (t := m) rfl]
  split
  · rw [bind_apply, decryptCard, cardAt]
    obtain at' | ⟨ct, at'⟩ := Option.eq_none_or_eq_some m.deck[pos]?
    · rw [at']
      exact .inr (.inl ⟨_, rfl, rfl⟩)
    rw [at']
    dsimp only
    cases opens : C.pointToCard (Suite.combine ct shares) with
    | none => exact .inr (.inr ⟨ct, rfl, .inr ⟨opens, rfl⟩⟩)
    | some card => exact .inr (.inr ⟨ct, rfl, .inl ⟨card, opens, rfl⟩⟩)
  exact .inl ⟨(), rfl⟩

theorem tryComplete_traced (pos : ℕ) : Traced C c K call (fun _ => []) (tryComplete C c pos) := by
  intro m
  unfold TracedAt tryComplete
  split
  · exact ⟨[], .refl m, fun _ _ => rfl⟩
  rename_i all
  have full : m.Full c pos := by simpa [State.Full, Option.isSome_iff_ne_none] using all
  have silent : ∀ {r : EStateM.Result PyError (State F G P) Unit} {m' : State F G P}, after r = m' →
      Moves C c K call m [] m' → ∃ out, Moves C c K call m out (after r) ∧ ∀ a, value r = some a → [] = out :=
    fun state moves => ⟨[], state ▸ moves, fun _ _ => rfl⟩
  split
  · rename_i place
    rcases fill_cases (C := C) pos (m.boardPos.idxOf pos) (c.seatsIn.map fun s => (m.shares pos s).getD 0) State.board
      (fun m board => { m with board }) m with ⟨a, ran⟩ | ⟨x, -, ran⟩ | ⟨ct, at', ⟨card, opens, ran⟩ | ⟨opens, ran⟩⟩
    · exact silent (by rw [ran]; rfl) (.refl m)
    · exact silent (by rw [ran]; rfl) (.refl m)
    · exact silent (by rw [ran]; rfl) (.single (.board full at' place opens))
    exact silent (by rw [ran]; rfl) (.single (.corrupt full at' (.inl place) opens))
  split
  · rename_i place
    rcases fill_cases (C := C) pos ((m.holesOf c.seat).idxOf pos) (c.seatsIn.map fun s => (m.shares pos s).getD 0)
      State.hole (fun m hole => { m with hole }) m with ⟨a, ran⟩ | ⟨x, -, ran⟩ | ⟨ct, at', ⟨card, opens, ran⟩ | ⟨opens, ran⟩⟩
    · exact silent (by rw [ran]; rfl) (.refl m)
    · exact silent (by rw [ran]; rfl) (.refl m)
    · exact silent (by rw [ran]; rfl) (.single (.hole full at' place opens))
    exact silent (by rw [ran]; rfl) (.single (.corrupt full at' (.inr place) opens))
  exact ⟨[], .refl m, fun _ _ => rfl⟩

theorem traced_bind (first : TracedAt C c K call sent f m) (second : ∀ a m', f m = .ok a m' → ∃ out,
      Moves C c K call m' out (after (g a m')) ∧ ∀ b, value (g a m') = some b → sent' b = sent a ++ out) :
    TracedAt C c K call sent' (f >>= g) m := by
  obtain ⟨out, moves, returned⟩ := first
  rw [TracedAt, bind_apply]
  cases ran : f m with
  | error x m1 =>
    rw [ran] at moves
    exact ⟨out, moves, fun b same => by cases same⟩
  | ok a m1 =>
    rw [ran] at moves returned
    obtain rfl := returned a rfl
    obtain ⟨outs, rest, returned'⟩ := second a m1 ran
    exact ⟨_, moves.trans rest, returned'⟩

theorem traced_last {before : List Message} {g : DealM F G P α}
    {h : α → β} (last : TracedAt C c K call sent g m) (joined : ∀ a, sent' (h a) = before ++ sent a) :
    ∃ out, Moves C c K call m out (after ((do return h (← g) : DealM F G P β) m)) ∧
      ∀ b, value ((do return h (← g) : DealM F G P β) m) = some b → sent' b = before ++ out := by
  obtain ⟨out, moves, returned⟩ := last
  rw [bind_apply]
  cases ran : g m with
  | error x m1 =>
    rw [ran] at moves
    exact ⟨out, moves, fun b same => by cases same⟩
  | ok a m1 =>
    rw [ran] at moves returned
    obtain rfl := returned a rfl
    exact ⟨_, moves, fun b same => by cases same; exact joined a⟩

theorem traced_then {sent : β → List Message}
    (first : TracedAt C c K call (fun _ => []) f m) (second : ∀ a, Traced C c K call sent (g a)) : TracedAt C c K call sent (f >>= g) m :=
  traced_bind first fun a m' _ => second a m'

theorem traced_and {f : DealM F G P (List Message)} {g : DealM F G P α}
    (first : TracedAt C c K call id f m) (second : ∀ a m', f m = .ok a m' → TracedAt C c K call (fun _ => []) g m') :
    TracedAt C c K call id (do let out ← f; let _ ← g; return out : DealM F G P (List Message)) m :=
  traced_bind first fun a m' ran => traced_last (second a m' ran) fun _ => (append_nil a).symm

theorem traced_pure (sent : α → List Message) (a : α) (quiet : sent a = []) :
    Traced C c K call sent (pure a : DealM F G P α) := by
  intro m
  exact ⟨[], .refl m, fun b same => by cases same; exact quiet⟩

theorem traced_forM {f : α → DealM F G P PUnit} (xs : List α) (each : ∀ a, Traced C c K call (fun _ => []) (f a)) :
    Traced C c K call (fun _ => []) (xs.forM f) := by
  induction xs with
  | nil => exact traced_pure _ _ rfl
  | cons x xs ih => exact fun m => traced_then (each x m) fun _ => ih

theorem revealStreet_traced (street : String) : Traced C c K (.reveal street) id (revealStreet C c K street) := by
  intro m
  unfold TracedAt revealStreet
  split
  · exact traced_ok rfl (.refl m)
  rename_i dealing
  have dealing : m.Dealing := or_iff_not_and_not.mpr dealing
  split
  · exact traced_ok rfl (.refl m)
  rename_i hidden
  split
  · exact traced_error rfl (.refl m)
  rename_i slots known
  let positions := slots.map fun slot => m.boardPos.getD slot 0
  obtain ⟨shares, state, own, sends⟩ := makeShareMsgs_made (C := C) (c := c) (K := K) positions
    { m with revealed := street :: m.revealed }
  have first : TracedAt C c K (.reveal street) id (do
      modify fun m => { m with revealed := street :: m.revealed }
      makeShareMsgs C c K positions : DealM F G P (List Message)) m := by
    change TracedAt C c K (.reveal street) id (fun m : State F G P =>
      makeShareMsgs C c K positions { m with revealed := street :: m.revealed }) m
    refine ⟨(value (makeShareMsgs C c K positions { m with revealed := street :: m.revealed })).getD [], .single ?_,
      fun msgs returned => ?_⟩
    · rw [state]
      refine .reveal rfl dealing hidden known own ?_
      cases made : value (makeShareMsgs C c K positions { m with revealed := street :: m.revealed }) with
      | none => exact .inl rfl
      | some msgs => exact .inr (sends msgs made)
    rw [returned]
    rfl
  exact traced_and first fun _ m' _ => traced_forM positions (fun pos => tryComplete_traced pos) m'

theorem onDealShare_traced (msg : Message) : Traced C c K call id (onDealShare C c msg) := by
  intro m
  unfold TracedAt onDealShare
  split
  · exact traced_ok rfl (.refl m)
  rename_i dealing
  have dealing : m.Dealing := or_iff_not_and_not.mpr dealing
  split
  · split
    · exact abort_traced _
    exact traced_error rfl (.refl m)
  rename_i pos seat D proof read
  split
  · exact abort_traced _
  rename_i from' found
  split
  · exact abort_traced _
  rename_i dealt
  rw [not_or, not_not] at dealt
  split
  · exact traced_error rfl (.refl m)
  · exact traced_error rfl (.refl m)
  rename_i ct X card
  split
  · exact abort_traced _
  rename_i proven
  have at' : m.deck[pos.toNat]? = some ct ∧ m.pubkeys from' = some X := by
    obtain ⟨ct', found, same⟩ := check_ok card
    obtain ⟨rfl, key⟩ := Prod.mk.inj (Except.ok.inj same)
    refine ⟨?_, key⟩
    unfold cardAt at found
    split at found <;> cases found
    assumption
  have recorded : Move C c K call m [] (m.record pos.toNat from' D) :=
    .share dealing (seatOf_mem found) dealt.2 at'.1 at'.2 (by simpa using proven)
  have completes : Traced C c K call id (do
      tryComplete C c pos.toNat
      return [] : DealM F G P (List Message)) :=
    fun m => traced_then (tryComplete_traced pos.toNat m) fun _ => traced_pure id [] rfl
  obtain ⟨out, moves, returned⟩ := completes (m.record pos.toNat from' D)
  exact ⟨out, .step recorded moves, returned⟩

theorem maybeRunAudit_traced (dealing : m.Dealing) : TracedAt C c K call (fun _ => []) (maybeRunAudit C c) m := by
  unfold TracedAt maybeRunAudit
  dsimp only
  split
  · exact ⟨[], .refl m, fun _ _ => rfl⟩
  rename_i due
  rw [not_or, Bool.not_eq_false, Option.not_isSome_iff_eq_none] at due
  have all : ∀ s ∈ c.seatsIn, (m.auditShares s).isSome := List.all_eq_true.mp due.1
  split
  · rename_i ok
    exact ⟨[], .single (.passed dealing all due.2 ok), fun _ _ => rfl⟩
  rename_i bad
  exact ⟨[], .single (.failed dealing all due.2 ((Bool.not_eq_true _).mp bad)), fun _ _ => rfl⟩

theorem openAudit_traced : Traced C c K .openAudit id (openAudit C c K) := by
  intro m
  unfold TracedAt openAudit
  split
  · exact traced_ok rfl (.refl m)
  rename_i open'
  rw [not_or, Bool.not_eq_true] at open'
  have dealing : m.Dealing := or_iff_not_and_not.mpr open'.1
  have raises : Move C c K .openAudit m [] { m with phase := .audit, auditOpened := true } := .openRaises rfl dealing open'.2
  dsimp only
  split
  · exact ⟨[], .single raises, fun a same => by cases same⟩
  rename_i shares made
  split at made
  · rename_i x secret
    have opens := Move.openOwn (C := C) (c := c) (K := K) rfl dealing open'.2 secret made
    refine traced_and (f := fun m' => .ok [auditOpen C c.seat shares m.acceptedWitness] { m with
      phase := .audit, auditOpened := true
      auditShares := update m.auditShares c.seat (some shares)
      auditWitnesses := update m.auditWitnesses c.seat m.acceptedWitness }) ?_ ?_
    · exact traced_ok rfl (.single opens)
    intro a m' same
    cases same
    exact maybeRunAudit_traced (.inr rfl)
  cases made

theorem onAuditOpen_traced (msg : Message) : Traced C c K call id (onAuditOpen C c msg) := by
  intro m
  unfold TracedAt onAuditOpen
  split
  · exact traced_ok rfl (.refl m)
  rename_i dealing
  have dealing : m.Dealing := or_iff_not_and_not.mpr dealing
  split
  · split
    · exact abort_traced _
    exact traced_error rfl (.refl m)
  rename_i seat shares read
  split
  · exact abort_traced _
  rename_i from' found
  split
  · split
    · exact abort_traced _
    exact traced_error rfl (.refl m)
  rename_i w parsed
  have audits : ∀ m : State F G P, m.Dealing → TracedAt C c K call id (do
      maybeRunAudit C c
      return [] : DealM F G P (List Message)) m :=
    fun m dealing => traced_then (maybeRunAudit_traced dealing) fun _ => traced_pure id [] rfl
  obtain ⟨out, moves, returned⟩ := audits { m with
    auditShares := update m.auditShares from' (some shares)
    auditWitnesses := update m.auditWitnesses from' w } dealing
  exact ⟨out, .step (.opened shares w dealing (seatOf_mem found)) moves, returned⟩

theorem dispatch_traced (call : Call) (msg : Message) : Traced C c K call id (dispatch C c K msg) := by
  unfold dispatch
  split
  · exact onKeyAnnounce_traced msg
  · exact onDeckRound_traced msg
  · exact onDealShare_traced msg
  · exact onAuditOpen_traced msg
  exact traced_pure id [] rfl

theorem drainPass_traced (msgs : List Message) : Traced C c K (.handle msg) Prod.fst (drainPass C c K msgs) := by
  induction msgs with
  | nil => exact traced_pure Prod.fst _ rfl
  | cons next rest ih =>
    intro m
    unfold TracedAt drainPass
    split
    · exact traced_ok rfl (.refl m)
    split
    · exact traced_error rfl (.refl m)
    · obtain ⟨out, moves, returned⟩ := ih { m with held := m.held ++ [next] }
      exact ⟨out, .step (.held rfl _) moves, returned⟩
    exact traced_bind (dispatch_traced _ next m) fun a m' _ => traced_last (ih m') fun _ => rfl

theorem drainFor_traced (passes : ℕ) : Traced C c K (.handle msg) id (drainFor C c K passes) := by
  induction passes with
  | zero => exact fun m => traced_error rfl (.refl m)
  | succ passes ih =>
    intro m
    unfold TracedAt drainFor
    split
    · exact ⟨[], .single (.held rfl []), fun a same => by cases same; rfl⟩
    split
    · exact traced_ok rfl (.refl m)
    have pass : TracedAt C c K (.handle msg) id (drainPass C c K m.held >>= fun pass => do
        if pass.2 then return pass.1 ++ (← drainFor C c K passes)
        else return pass.1 : DealM F G P (List Message)) { m with held := [] } := by
      refine traced_bind (drainPass_traced m.held { m with held := [] }) ?_
      rintro ⟨out, consumed⟩ m' -
      cases consumed with
      | false => exact ⟨[], .refl m', fun b same => by cases same; exact (append_nil out).symm⟩
      | true => exact traced_last (ih m') fun _ => rfl
    obtain ⟨out, moves, returned⟩ := pass
    exact ⟨out, .step (.held rfl []) moves, returned⟩

theorem handle_traced (msg : Message) : Traced C c K (.handle msg) id (handle C c K msg) := by
  intro m
  unfold TracedAt handle
  split
  · exact traced_ok rfl (.refl m)
  split
  · exact traced_error rfl (.refl m)
  · unfold hold
    split
    · exact abort_traced _
    exact ⟨[], .single (.held rfl _), fun a same => by cases same; rfl⟩
  exact traced_bind (dispatch_traced _ msg m) fun a m' _ => traced_last (drainFor_traced (m'.held.length + 1) m') fun _ => rfl

theorem start_traced : Traced C c K .start id (start C c K) := by
  intro m
  unfold TracedAt start
  split
  · exact traced_ok rfl (.refl m)
  rename_i fresh
  rw [not_or, not_not, Bool.not_eq_true] at fresh
  unfold Backend.mulBase
  rw [if_neg fun both => smul_ne_zero K.share_ne C.base_ne both.2]
  exact ⟨_, .single (.start rfl fresh.1 fresh.2), fun a same => by cases same; rfl⟩

theorem make_traced (call : Call) : Traced C c K call id (make C c K call) := by
  cases call with
  | start => exact start_traced
  | handle msg => exact handle_traced msg
  | reveal street => exact revealStreet_traced street
  | openAudit => exact openAudit_traced

/-- An invariant of a whole run, from every move. What a raising call would have returned is lost, so the
invariant must not need it. -/
theorem play_keeps (begins : I {} []) (calls : List Call)
    (each : ∀ call ∈ calls, ∀ m log out m', I m log → Move C c K call m out m' → I m' (log ++ out))
    (lost : ∀ m log out, I m (log ++ out) → I m log) : I (play C c K calls).state (play C c K calls).sent := by
  induction calls using reverseRecOn with
  | nil => exact begins
  | append_singleton calls call ih =>
    have before := ih fun call member => each call (mem_append_left _ member)
    obtain ⟨out, moves, returned⟩ := make_traced (C := C) (c := c) (K := K) call (play C c K calls).state
    have kept := moves.keeps (each call (mem_append_right _ (List.mem_singleton.mpr rfl))) _ before
    rw [play, foldl_append]
    change I (after (make C c K call (play C c K calls).state))
      ((play C c K calls).sent ++ (value (make C c K call (play C c K calls).state)).getD [])
    cases ran : value (make C c K call (play C c K calls).state) with
    | none =>
      rw [Option.getD_none, append_nil]
      exact lost _ _ _ kept
    | some a =>
      have same : a = out := returned a ran
      rw [Option.getD_some, same]
      exact kept

end Holdem.MentalDeal
