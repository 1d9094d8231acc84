import Holdem.Deal.Moves

/-!
The board as each seat reads it: off the proven shares of all seats.
-/

set_option linter.unusedSectionVars false

namespace Holdem

namespace MentalDeal

variable {F G P S : Type} [Field F] [DecidableEq F] [AddCommGroup G] [Module F G] [DecidableEq G]
  (C : Suite F G P S) (c : Config) {K : Secrets F G P S} {m m' : State F G P} {pos slot : ℕ} {card card' : Fin 52}

open DealMap

/-- `D` is the share in `B` of the owner of the key `X`. -/
def SharedBy (X B D : G) : Prop := ∃ x : F, X = x • C.base ∧ D = x • B

def State.Shared (m : State F G P) (pos s : ℕ) (D : G) : Prop :=
  ∃ ct X, m.deck[pos]? = some ct ∧ m.pubkeys s = some X ∧ SharedBy C X ct.c0 D

def State.Opens (m : State F G P) (pos : ℕ) (card : Fin 52) : Prop :=
  ∃ ct D, m.deck[pos]? = some ct ∧ (∀ s ∈ c.seatsIn, m.Shared C pos s (D s)) ∧
    C.pointToCard (Suite.combine ct (c.seatsIn.map D)) = some card

def State.Unread (m : State F G P) : Prop := (∀ pos s, m.shares pos s = none) ∧ ∀ card, some card ∉ m.board

structure Founded (m : State F G P) : Prop where
  secret : ∀ x, m.xShare = some x → m.pubkeys c.seat = some (x • C.base)
  early : m.phase = .keygen ∨ m.phase = .shuffle → m.Unread
  layout : m.boardPos = [] ∨ m.boardPos = boardPositions c.button c.seatsIn
  shares : ∀ pos s D, m.shares pos s = some D → m.Shared C pos s D
  board : ∀ (slot : ℕ) card, m.board[slot]? = some (some card) →
    ∃ pos, (boardPositions c.button c.seatsIn)[slot]? = some pos ∧ m.Opens C c pos card

variable {C c}

theorem SharedBy.unique {X B D D' : G} (h : SharedBy C X B D) (h' : SharedBy C X B D') : D = D' := by
  obtain ⟨x, key, rfl⟩ := h
  obtain ⟨y, key', rfl⟩ := h'
  rw [smul_left_injective F C.base_ne (key.symm.trans key')]

section

variable (h : Founded C c m)
include h

theorem Founded.unread (none : m.Unread) (shares : m'.shares = m.shares) (board : m'.board = m.board)
    (layout : m'.boardPos = m.boardPos) (secret : ∀ x, m'.xShare = some x → m'.pubkeys c.seat = some (x • C.base)) :
    Founded C c m' := by
  have none' : m'.Unread := by
    unfold State.Unread
    rwa [shares, board]
  refine ⟨secret, fun _ => none', layout ▸ h.layout, fun pos s D known => ?_, fun slot card shown => ?_⟩
  · cases (none'.1 pos s).symm.trans known
  exact (none'.2 card (List.mem_of_getElem? shown)).elim

theorem Founded.own {s : ℕ} {D : G} {shares : ℕ → ℕ → Option G} (own : m.WithOwn c shares) (known : shares pos s = some D) :
    m.Shared C pos s D := by
  obtain old | ⟨rfl, D', ⟨x, ct, secret, at', rfl⟩, new⟩ := own pos s
  · exact h.shares pos s D (old ▸ known)
  cases new.symm.trans known
  exact ⟨ct, _, at', h.secret x secret, x, rfl, rfl⟩

theorem Founded.read {ct : Ciphertext G} (full : m.Full c pos) (at' : m.deck[pos]? = some ct)
    (opens : C.pointToCard (m.plain c pos ct) = some card) : m.Opens C c pos card := by
  refine ⟨ct, fun s => (m.shares pos s).getD 0, at', fun s seated => h.shares pos s _ ?_, opens⟩
  obtain ⟨D, known⟩ := Option.isSome_iff_exists.mp (full s seated)
  simp only [known, Option.getD_some]

theorem Founded.record {i : ℕ} {X D : G} {ct : Ciphertext G} (late : ¬(m.phase = .keygen ∨ m.phase = .shuffle))
    (at' : m.deck[pos]? = some ct) (key : m.pubkeys i = some X) (shared : SharedBy C X ct.c0 D) :
    Founded C c (m.record pos i D) := by
  refine ⟨h.secret, fun early => (late early).elim, h.layout, fun pos' s D' known => ?_, h.board⟩
  have recorded : (m.record pos i D).shares pos' s = if pos' = pos ∧ s = i then some D else m.shares pos' s := by
    by_cases here : pos' = pos <;> simp [State.record, Function.update_apply, here]
  rw [recorded] at known
  split at known
  · rename_i new
    cases known
    exact ⟨ct, X, new.1 ▸ at', new.2 ▸ key, shared⟩
  exact h.shares pos' s D' known

theorem Founded.fill {ct : Ciphertext G} (full : m.Full c pos) (at' : m.deck[pos]? = some ct) (place : pos ∈ m.boardPos)
    (opens : C.pointToCard (m.plain c pos ct) = some card) :
    Founded C c { m with board := m.board.set (m.boardPos.idxOf pos) (some card) } := by
  refine ⟨h.secret, fun early => ?_, h.layout, h.shares, fun slot card' shown => ?_⟩
  · have missing := full c.seat c.seated
    rw [(h.early early).1] at missing
    cases missing
  change (m.board.set _ _)[slot]? = _ at shown
  rw [List.getElem?_set] at shown
  split at shown
  · rename_i here
    split at shown
    · cases shown
      have there : m.boardPos[slot]? = some pos := by
        rw [← here, List.getElem?_eq_getElem (List.idxOf_lt_length_iff.mpr place), List.getElem_idxOf]
      obtain none | layout := h.layout
      · rw [none] at place
        cases place
      exact ⟨pos, layout ▸ there, h.read full at' opens⟩
    cases shown
  exact h.board slot card' shown

end

section

variable (sound : ∀ X D B proof, C.dleqVerify X D B proof = true → SharedBy C X B D)
include sound

theorem Founded.move (h : Founded C c m) {call : Call} {out : List Message} (move : Move C c K call m out m') : Founded C c m' := by
  have dealt : m.Dealing → ¬(m.phase = .keygen ∨ m.phase = .shuffle) := by
    rintro (deal | audit) (early | early) <;> simp_all
  cases move with
  | start _ fresh =>
    refine h.unread (h.early (.inl fresh)) rfl rfl rfl fun x same => ?_
    cases same
    exact Function.update_self ..
  | @key i X _ _ fresh _ _ same =>
    refine h.unread (h.early (.inl fresh)) rfl rfl rfl fun x secret => ?_
    by_cases own : c.seat = i
    · have known : m.pubkeys i = some (x • C.base) := own ▸ h.secret x secret
      rw [same _ known, own]
      exact Function.update_self ..
    exact (Function.update_of_ne own ..).trans (h.secret x secret)
  | finish fresh _ _ emitted => cases emitted <;> exact h.unread (h.early (.inl fresh)) rfl rfl rfl h.secret
  | round good _ emitted => cases emitted <;> exact h.unread (h.early (.inr good.phase)) rfl rfl rfl h.secret
  | @deal deck _ _ _ good _ own =>
    have before : Founded C c (m.accepted c deck) := h.unread (h.early (.inr good.phase)) rfl rfl rfl h.secret
    exact ⟨h.secret, fun late => by cases late <;> contradiction, .inr rfl, fun _ _ _ => before.own own, before.board⟩
  | reveal _ dealing _ _ own =>
    exact ⟨h.secret, fun early => (dealt dealing early).elim, h.layout, fun _ _ _ => h.own own, h.board⟩
  | share dealing _ _ at' key proven => exact h.record (dealt dealing) at' key (sound _ _ _ _ proven)
  | board full at' place opens => exact h.fill full at' place opens
  | _ =>
    refine ⟨h.secret, fun early => ?_, h.layout, h.shares, h.board⟩
    first
      | exact h.early early
      | obtain gone | gone := early <;> cases gone

theorem play_founded (calls : List Call) : Founded C c (play C c K calls).state := by
  have unread : ({} : State F G P).Unread := ⟨fun _ _ => rfl, by simp⟩
  refine play_keeps (I := fun m _ => Founded C c m) ?_ calls (fun _ _ _ _ _ _ h move => h.move sound move) fun _ _ _ h => h
  exact ⟨by simp, fun _ => unread, .inl rfl, by simp, fun _ _ shown => (unread.2 _ (List.mem_of_getElem? shown)).elim⟩

/-- Whatever two seats are sent, and by whomever, they never read different cards off one deck. -/
theorem board_agreed (c c' : Config) (K K' : Secrets F G P S) (calls calls' : List Call) (seats : c'.seatsIn = c.seatsIn)
    (button : c'.button = c.button) (deck : (play C c' K' calls').state.deck = (play C c K calls).state.deck)
    (keys : ∀ s ∈ c.seatsIn, (play C c' K' calls').state.pubkeys s = (play C c K calls).state.pubkeys s)
    (shown : (play C c K calls).state.board[slot]? = some (some card))
    (shown' : (play C c' K' calls').state.board[slot]? = some (some card')) : card = card' := by
  obtain ⟨pos, at', ct, D, cipher, each, opens⟩ := (play_founded sound calls).board slot card shown
  obtain ⟨pos', at'', ct', D', cipher', each', opens'⟩ := (play_founded sound calls').board slot card' shown'
  rw [seats, button] at at''
  cases at'.symm.trans at''
  rw [deck] at cipher'
  cases cipher.symm.trans cipher'
  rw [seats] at each' opens'
  have same : c.seatsIn.map D = c.seatsIn.map D' := by
    refine List.map_congr_left fun s seated => ?_
    obtain ⟨ct1, X, at1, key, shared⟩ := each s seated
    obtain ⟨ct2, X', at2, key', shared'⟩ := each' s seated
    rw [deck] at at2
    cases at1.symm.trans at2
    rw [keys s seated] at key'
    cases key.symm.trans key'
    exact shared.unique shared'
  rw [same] at opens
  exact Option.some.inj (opens.symm.trans opens')

end

end MentalDeal

namespace Sample

open MentalDeal

/-- What a seat of two is sent, up to the second card of the flop. -/
def sent (other : ℕ) : List Call :=
  let round (k : ℕ) := deckRound suite k k ((List.range 52).map fun i => ⟨(k : Point), ((i + 3 * k : ℕ) : Point)⟩) none
  [.start, .handle (keyAnnounce suite other other other), .handle (round 1), .handle (round 2), .reveal "flop",
    .handle (dealShare suite 5 other ((2 * other : ℕ) : Point) other)]

def unproven (seat : ℕ) (seated : seat ∈ [1, 2]) : Config := { pair seat seated with prevention := false }

def flop (seat other : ℕ) (seated : seat ∈ [1, 2]) (nonzero : (seat : Point) ≠ 0) : State Point Point Point :=
  (play suite (unproven seat seated) (secrets seat nonzero) (sent other)).state

theorem dleq_sound (X D B proof : Point) (passed : suite.dleqVerify X D B proof = true) : SharedBy suite X B D :=
  ⟨proof, by simpa [suite] using passed⟩

end Sample

theorem MentalDeal.board_agreed_sample :
    let m := Sample.flop 1 2 (by decide) (by decide)
    let m' := Sample.flop 2 1 (by decide) (by decide)
    m.board[1]? = some (some 5) ∧ ∃ card, m'.board[1]? = some (some card) ∧ 5 = card := by
  intro m m'
  have facts : m.board[1]? = some (some 5) ∧ m'.board[1]? = some (some 5) ∧ m'.deck = m.deck ∧
      ∀ s ∈ [1, 2], m'.pubkeys s = m.pubkeys s := by
    decide +kernel
  obtain ⟨left, right, deck, keys⟩ := facts
  exact ⟨left, _, right, board_agreed Sample.dleq_sound (Sample.unproven 1 _) (Sample.unproven 2 _)
    (Sample.secrets (1 : ℕ) _) (Sample.secrets (2 : ℕ) _) (Sample.sent 2) (Sample.sent 1) rfl rfl deck keys left right⟩

end Holdem
