import Holdem.Engine.Setup
import Holdem.Engine.Settlement

/-!
Whole lifetimes of a table. An operation is what a caller may do with the engine at some point; a run
is any sequence of operations, each allowed where it happens.
-/

namespace Holdem

open Finset Method

variable {n : ℕ}

inductive TableOp (n : ℕ) where
  | startHand (straddleFn : Option (Fin n → Bool)) (deck : List Card)
  | act (seat : ℤ) (action : Action) (amount : Amount)
  | nextStreet
  | sitOut (i : Fin n)
  | sitIn (i : Fin n) (postNow : Bool)
  | addChips (i : Fin n) (amount : ℤ)
  | settle (runs : ℕ) (forceTabled : Bool)

namespace Engine

variable {e e' : Engine n} {i : Fin n}

def accepts (e : Engine n) (seat : ℤ) (action : Action) (amount : Amount) : Bool :=
  match act seat action amount e with
  | .ok _ _ => true
  | .error _ _ => false

end Engine

namespace TableOp

def next (e : Engine n) : TableOp n → Engine n
  | startHand straddleFn deck => after (Engine.startHand straddleFn deck e)
  | act seat action amount => after (Engine.act seat action amount e)
  | nextStreet => after (Engine.nextStreet e)
  | sitOut i => e.sitOut i
  | sitIn i postNow => e.sitIn i postNow
  | addChips i amount => after (Engine.addChips i amount e)
  | settle runs forceTabled => after (Engine.settle runs forceTabled e)

/-- When a caller may make the call: hands start between hands, with two seats and no card twice in the
deck, actions are accepted ones, streets follow closed rounds, and a hand is settled while somebody is
in it and the deck completes the board. -/
def Allowed (e : Engine n) : TableOp n → Prop
  | startHand _ deck => e.street = .idle ∧ 2 ≤ (e.seatsWhere e.dealt).length ∧ deck.Nodup
  | act seat action amount => e.accepts seat action amount = true
  | nextStreet => e.actor = none
  | sitOut _ | sitIn _ _ | addChips _ _ => True
  | settle runs _ => (runs = 1 ∨ runs = 2) ∧ e.contested ≠ [] ∧ (1 < e.contested.length → e.Enough runs)

def bought (e : Engine n) : TableOp n → ℤ
  | addChips _ amount => if e.street ≠ .idle ∨ amount ≤ 0 then 0 else amount
  | _ => 0

def InHand (e : Engine n) : TableOp n → Prop
  | act _ _ _ => e.street ≠ .idle
  | _ => True

def run (e : Engine n) (ops : List (TableOp n)) : Engine n := ops.foldl next e

def Along (cond : Engine n → TableOp n → Prop) : Engine n → List (TableOp n) → Prop
  | _, [] => True
  | e, op :: rest => cond e op ∧ Along cond (next e op) rest

def boughtIn : Engine n → List (TableOp n) → ℤ
  | _, [] => 0
  | e, op :: rest => bought e op + boughtIn (next e op) rest

instance (e : Engine n) : (op : TableOp n) → Decidable (op.Allowed e)
  | startHand _ deck => inferInstanceAs (Decidable (e.street = .idle ∧ 2 ≤ (e.seatsWhere e.dealt).length ∧ deck.Nodup))
  | act seat action amount => inferInstanceAs (Decidable (e.accepts seat action amount = true))
  | nextStreet => inferInstanceAs (Decidable (e.actor = none))
  | sitOut _ | sitIn _ _ | addChips _ _ => inferInstanceAs (Decidable True)
  | settle runs _ => inferInstanceAs (Decidable ((runs = 1 ∨ runs = 2) ∧ e.contested ≠ [] ∧
      (1 < e.contested.length → runs * (5 - e.board.length) ≤ e.deck.length)))

instance (e : Engine n) : (op : TableOp n) → Decidable (op.InHand e)
  | act _ _ _ => inferInstanceAs (Decidable (e.street ≠ .idle))
  | startHand _ _ | nextStreet | sitOut _ | sitIn _ _ | addChips _ _ | settle _ _ => inferInstanceAs (Decidable True)

instance decidableAlong (cond : Engine n → TableOp n → Prop) [∀ e op, Decidable (cond e op)] :
    (e : Engine n) → (ops : List (TableOp n)) → Decidable (Along cond e ops)
  | _, [] => inferInstanceAs (Decidable True)
  | e, op :: rest =>
    have := decidableAlong cond (next e op) rest
    inferInstanceAs (Decidable (cond e op ∧ Along cond (next e op) rest))

end TableOp

namespace Engine

variable {e e' : Engine n} {i : Fin n} {runs : ℕ}

structure Sound (e : Engine n) : Prop where
  small : 0 ≤ e.sb
  big : 0 ≤ e.bb
  solvent : e.Solvent
  distinct : e.Distinct
  playing : e.street ≠ .idle → e.BoardFits
  between : e.street = .idle → e.Cleared ∧
    (e.contested.length ≤ 1 ∨ e.board.length = 5 ∨ e.deck = [] ∧ e.board = [])

theorem init_sound {chips : Fin n → ℤ} {button : Fin n} {sb bb : ℤ} {structure' : BettingStructure}
    {bbAnte dealSittingOut : Bool} (nonneg : ∀ i, 0 ≤ chips i) (small : 0 ≤ sb) (big : 0 ≤ bb) :
    (init chips button sb bb structure' bbAnte dealSittingOut).Sound where
  small := small
  big := big
  solvent := fun i => ⟨nonneg i, le_refl 0, le_refl 0, le_refl 0⟩
  distinct := fun _ => List.nodup_nil
  playing := fun h => absurd rfl h
  between := fun _ => ⟨fun _ => ⟨rfl, rfl⟩, Or.inr (Or.inr ⟨rfl, rfl⟩)⟩

theorem posted_pays {placed : Engine n} (moved : e.Rearranges placed) (small : 0 ≤ e.sb) (big : 0 ≤ e.bb)
    (sbSeat bbSeat : Fin n) (straddleFn : Option (Fin n → Bool)) (deck : List Card) :
    (placed.resetSeats.newHand deck).Pays (placed.posted sbSeat bbSeat straddleFn deck) := by
  obtain ⟨_, _, _, eq⟩ := moved.rest
  exact pays_postAll (by rw [eq]; exact small) (by rw [eq]; exact big) sbSeat bbSeat straddleFn

theorem posted_chips {placed : Engine n} (moved : e.Rearranges placed) (cleared : e.Cleared) (small : 0 ≤ e.sb)
    (big : 0 ≤ e.bb) (sbSeat bbSeat : Fin n) (straddleFn : Option (Fin n → Bool)) (deck : List Card) :
    (placed.posted sbSeat bbSeat straddleFn deck).bank = e.bank ∧
      (e.Solvent → (placed.posted sbSeat bbSeat straddleFn deck).Solvent) := by
  have cleared' : placed.Cleared := fun i => by
    obtain ⟨_, _, _, same⟩ := moved.players i
    rw [same]
    exact cleared i
  have pays := posted_pays moved small big sbSeat bbSeat straddleFn deck
  refine ⟨?_, fun solvent => pays_solvent pays fun i => ?_⟩
  · rw [pays_bank pays]
    exact sum_congr rfl fun i _ => (resetSeats_worth cleared' i).trans (rearranges_chips moved i).1
  exact resetSeats_solvent ((rearranges_chips moved i).2 (solvent i))

section Posted

variable (placed : Engine n) (sbSeat bbSeat : Fin n) (straddleFn : Option (Fin n → Bool)) (deck : List Card)

theorem posted_ground : (placed.posted sbSeat bbSeat straddleFn deck).ground =
    (placed.resetSeats.newHand deck).ground := ground_postAll _ _ _ _

theorem posted_layout : (placed.posted sbSeat bbSeat straddleFn deck).layout = ⟨.preflop, deck, [], fun _ => []⟩ := by
  have ground := posted_ground placed sbSeat bbSeat straddleFn deck
  exact congrArg (fun g : Ground n => (⟨g.street, g.deck, g.board, fun i => (g.footing i).2.2.2⟩ : Layout n)) ground

theorem posted_contested : (placed.posted sbSeat bbSeat straddleFn deck).contested = placed.resetSeats.seated := by
  have ground := posted_ground placed sbSeat bbSeat straddleFn deck
  have each := fun i => congrArg (fun g : Ground n => (g.footing i).1 && !(g.footing i).2.2.1) ground
  refine List.filter_congr fun i _ => (each i).trans ?_
  change (placed.dealt (placed.players i) && !!placed.dealt (placed.players i)) = placed.dealt (placed.players i)
  simp

end Posted

structure Dealing (start e : Engine n) : Prop where
  pays : start.Pays e
  sb : e.sb = start.sb
  bb : e.bb = start.bb
  street : e.street = start.street
  board : e.board = start.board
  contested : e.contested = start.contested
  distinct : e.Distinct

theorem dealHoles_dealing (start : Engine n) : Keeps (Dealing start) (dealHoles : EngineM n Unit) := by
  intro s h
  have deals := dealHoles_deals s s (deals_refl s)
  have contested : (after (dealHoles s)).contested = s.contested := by
    obtain ⟨deck, holes, eq⟩ := deals
    rw [eq]
    rfl
  obtain ⟨deck, holes, eq⟩ := deals
  exact ⟨pays_trans h.pays (dealHoles_pays s s (pays_refl s)), (congrArg sb eq).trans h.sb,
    (congrArg bb eq).trans h.bb, (congrArg street eq).trans h.street, (congrArg board eq).trans h.board,
    contested.trans h.contested, dealHoles_distinct s h.distinct⟩

theorem openRound_dealing {start s : Engine n} (h : Dealing start s) (first : Fin n) :
    Dealing start (s.openRound first) := by
  have table := table_of_still (still_openRound s first)
  have layout := openRound_layout s first
  exact ⟨pays_trans h.pays (pays_of_players (openRound_players s first)), (congrArg Table.sb table).trans h.sb,
    (congrArg Table.bb table).trans h.bb, (congrArg Layout.street layout).trans h.street,
    (congrArg Layout.board layout).trans h.board, (contested_of_hands (openRound_hands s first)).trans h.contested,
    distinct_of_layout layout h.distinct⟩

theorem openPreflop_dealing (start : Engine n) (bbSeat : Fin n) :
    Keeps (Dealing start) (openPreflop bbSeat : EngineM n Unit) := by
  intro s h
  unfold openPreflop
  split
  · exact openRound_dealing h _
  exact h

theorem posted_dealing (placed : Engine n) (sbSeat bbSeat : Fin n) (straddleFn : Option (Fin n → Bool))
    {deck : List Card} (distinct : deck.Nodup) :
    Dealing (placed.posted sbSeat bbSeat straddleFn deck) (placed.posted sbSeat bbSeat straddleFn deck) := by
  refine ⟨pays_refl _, rfl, rfl, rfl, rfl, rfl, fun i => ?_⟩
  have cards := congrArg (fun l : Layout n => (l.holes i ++ (l.board ++ l.deck)).Nodup)
    (posted_layout placed sbSeat bbSeat straddleFn deck)
  exact cards.mpr (by simpa using distinct)

theorem startHand_sound (straddleFn : Option (Fin n → Bool)) {deck : List Card} (sound : e.Sound)
    (idle : e.street = .idle) (two : 2 ≤ (e.seatsWhere e.dealt).length) (distinct : deck.Nodup) :
    (after (startHand straddleFn deck e)).Sound ∧ (after (startHand straddleFn deck e)).bank = e.bank := by
  obtain ⟨placed, sbSeat, bbSeat, positions, small, big, seated⟩ := startHand_placed two
  have moved := rearranges_of_ok positions
  obtain ⟨_, _, _, eq⟩ := moved.rest
  have first := posted_dealing placed sbSeat bbSeat straddleFn distinct
  have ground := posted_ground placed sbSeat bbSeat straddleFn deck
  have layout := posted_layout placed sbSeat bbSeat straddleFn deck
  obtain ⟨bank, solvent⟩ := posted_chips moved (sound.between idle).1 sound.small sound.big sbSeat bbSeat straddleFn deck
  have dealing : Dealing (placed.posted sbSeat bbSeat straddleFn deck) (after (startHand straddleFn deck e)) := by
    rw [startHand_of_placed positions small big seated]
    exact keeps_bind (dealHoles_dealing _) (fun _ =>
      keeps_bind (openPreflop_dealing _ bbSeat) fun _ => keeps_pure true) _ first
  have sb : (after (startHand straddleFn deck e)).sb = e.sb :=
    dealing.sb.trans ((congrArg Ground.sb ground).trans (by rw [eq]; rfl))
  have bb : (after (startHand straddleFn deck e)).bb = e.bb :=
    dealing.bb.trans ((congrArg Ground.bb ground).trans (by rw [eq]; rfl))
  have street : (after (startHand straddleFn deck e)).street = .preflop :=
    dealing.street.trans (congrArg Layout.street layout)
  have board : (after (startHand straddleFn deck e)).board = [] := dealing.board.trans (congrArg Layout.board layout)
  refine ⟨⟨sb ▸ sound.small, bb ▸ sound.big, pays_solvent dealing.pays (solvent sound.solvent), dealing.distinct,
    fun _ => ?_, fun h => ?_⟩, (pays_bank dealing.pays).trans bank⟩
  · rw [BoardFits, board, street]; rfl
  rw [street] at h; cases h

theorem act_sound {seat : ℤ} {action : Action} {amount : Amount} (sound : e.Sound) (playing : e.street ≠ .idle)
    (accepted : e.accepts seat action amount = true) :
    (after (act seat action amount e)).Sound ∧ (after (act seat action amount e)).bank = e.bank := by
  unfold accepts at accepted
  split at accepted
  · rename_i u e' ran
    rw [ran, after_ok]
    have pays := act_pays ran
    have layout := act_layout ran
    have sb : e'.sb = e.sb := congrArg Table.sb (act_table ran)
    have bb : e'.bb = e.bb := congrArg Table.bb (act_table ran)
    have street : e'.street = e.street := congrArg Layout.street layout
    refine ⟨⟨sb ▸ sound.small, bb ▸ sound.big, pays_solvent pays sound.solvent,
      distinct_of_layout layout sound.distinct, fun _ => boardFits_of_layout layout (sound.playing playing),
      fun idle => absurd (street ▸ idle) playing⟩, pays_bank pays⟩
  cases accepted

theorem totals_clearBets (e : Engine n) (cleared : e.Cleared) : e.clearBets.Cleared := by
  intro i
  simp only [clearBets]
  split <;> exact cleared i

theorem nextStreet_cleared : Keeps (fun e : Engine n => e.Cleared) nextStreet :=
  nextStreet_keeps totals_clearBets (fun _ _ _ _ h => h) fun e h i => by rw [openStreet_players]; exact h i

theorem nextStreet_cards (distinct : e.Distinct) (playing : e.street ≠ .idle → e.BoardFits) :
    (after (nextStreet e)).Distinct ∧ ((after (nextStreet e)).street ≠ .idle → (after (nextStreet e)).BoardFits) ∧
      ((after (nextStreet e)).street = .idle → e.street = .idle ∧
        (after (nextStreet e)).board = e.board ∧ (after (nextStreet e)).deck = e.deck) := by
  have cleared : e.clearBets.Distinct := fun i => by
    rw [holes_of_hands (hands_clearBets e)]
    exact distinct i
  rcases nextStreet_cases e with ⟨k, street, rest, out, deals, cards, length, ran⟩ |
    ⟨k, street, x, deals, -, ran⟩ | ⟨river, ran⟩ | ⟨still, ran⟩ <;> rw [ran]
  · have layout := openStreet_layout { e.clearBets with deck := rest, board := e.board ++ out, street }
    have played : e.street ≠ .idle := fun idle => by rw [idle] at deals; cases deals
    have next : street ≠ .idle ∧ e.street.boardSize + k = street.boardSize := by
      cases at' : e.street <;> rw [at'] at deals <;> cases deals <;> simp [Street.boardSize]
    refine ⟨distinct_deal ((hands_openStreet _).trans (hands_clearBets e)) cards (congrArg Layout.board layout)
      (congrArg Layout.deck layout) distinct, fun _ => ?_, fun idle => ?_⟩
    · have fits := playing played
      unfold BoardFits at fits
      refine boardFits_of_layout layout ?_
      change (e.board ++ out).length = street.boardSize
      rw [List.length_append]
      omega
    exact absurd ((congrArg Layout.street layout).symm.trans idle) next.1
  · exact ⟨cleared, playing, fun idle => ⟨idle, rfl, rfl⟩⟩
  · refine ⟨cleared, fun _ => ?_, fun idle => by cases idle⟩
    have fits := playing (by rw [river]; simp)
    rwa [BoardFits, river] at fits
  have layout := openStreet_layout e.clearBets
  exact ⟨distinct_of_layout layout cleared, fun played => boardFits_of_layout layout
    (playing fun idle => played ((congrArg Layout.street layout).trans idle)),
    fun idle => ⟨(congrArg Layout.street layout).symm.trans idle, congrArg Layout.board layout,
      congrArg Layout.deck layout⟩⟩

theorem nextStreet_sound (sound : e.Sound) : (after (nextStreet e)).Sound ∧ (after (nextStreet e)).bank = e.bank := by
  have pays := nextStreet_pays e e (pays_refl e)
  have table := nextStreet_table e.table e rfl
  have hands := nextStreet_hands e.hands e rfl
  have sb : (after (nextStreet e)).sb = e.sb := congrArg Table.sb table
  have bb : (after (nextStreet e)).bb = e.bb := congrArg Table.bb table
  obtain ⟨distinct, fits, idles⟩ := nextStreet_cards sound.distinct sound.playing
  refine ⟨⟨sb ▸ sound.small, bb ▸ sound.big, pays_solvent pays sound.solvent, distinct, fits, fun idle => ?_⟩,
    pays_bank pays⟩
  obtain ⟨was, board, deck⟩ := idles idle
  obtain ⟨cleared, cards⟩ := sound.between was
  refine ⟨nextStreet_cleared e cleared, ?_⟩
  rwa [contested_of_hands hands, board, deck]

theorem update_sound {f : Player → Player} (sound : e.Sound) (hand : (f (e.players i)).hand = (e.players i).hand)
    (totals : ((f (e.players i)).totalLive, (f (e.players i)).totalDead) =
      ((e.players i).totalLive, (e.players i).totalDead))
    (solvent : (f (e.players i)).Solvent) : (e.update i f).Sound := by
  have hands : (e.update i f).hands = e.hands := update_keeps Player.hand i hand
  have pots := congrFun (update_keeps (e := e) (fun p => (p.totalLive, p.totalDead)) i totals)
  refine ⟨sound.small, sound.big, fun j => ?_, fun j => ?_, sound.playing, fun idle => ?_⟩
  · by_cases other : j = i
    · subst other; rwa [update_same]
    rw [update_other _ _ other]; exact sound.solvent j
  · rw [holes_of_hands hands]
    exact sound.distinct j
  obtain ⟨cleared, cards⟩ := sound.between idle
  refine ⟨fun j => ?_, by rwa [contested_of_hands hands]⟩
  have same := pots j
  simp only [Prod.mk.injEq] at same
  rw [same.1, same.2]
  exact cleared j

theorem bank_update (e : Engine n) (i : Fin n) (f : Player → Player) :
    (e.update i f).bank = e.bank + ((f (e.players i)).worth - (e.players i).worth) := by
  have others : ∑ j ∈ Finset.univ.erase i, ((e.update i f).players j).worth =
      ∑ j ∈ Finset.univ.erase i, (e.players j).worth :=
    sum_congr rfl fun j hj => by rw [update_other _ _ (ne_of_mem_erase hj)]
  rw [bank, bank, ← add_sum_erase _ _ (mem_univ i), others, update_same,
    ← add_sum_erase _ (fun j => (e.players j).worth) (mem_univ i)]
  ring

theorem addChips_sound (sound : e.Sound) (i : Fin n) (amount : ℤ) : (after (addChips i amount e)).Sound ∧
      (after (addChips i amount e)).bank = e.bank + (TableOp.addChips i amount).bought e := by
  by_cases refused : e.street ≠ .idle ∨ amount ≤ 0
  · simp only [addChips, TableOp.bought, if_pos refused, after_ok, add_zero]
    exact ⟨sound, trivial⟩
  simp only [addChips, TableOp.bought, if_neg refused, after_ok]
  obtain ⟨stack, bet, live, dead⟩ := sound.solvent i
  refine ⟨update_sound sound rfl rfl ⟨?_, bet, live, dead⟩, ?_⟩
  · dsimp only
    omega
  rw [bank_update]
  simp only [Player.worth]
  ring

theorem sitOut_sound (sound : e.Sound) (i : Fin n) : (e.sitOut i).Sound ∧ (e.sitOut i).bank = e.bank := by
  obtain ⟨stack, bet, live, dead⟩ := sound.solvent i
  exact ⟨update_sound sound rfl rfl ⟨stack, bet, live, dead⟩, pays_bank (pays_update (Player.pays_of_same rfl rfl))⟩

theorem sitIn_sound (sound : e.Sound) (i : Fin n) (postNow : Bool) :
    (e.sitIn i postNow).Sound ∧ (e.sitIn i postNow).bank = e.bank := by
  obtain ⟨stack, bet, live, dead⟩ := sound.solvent i
  exact ⟨update_sound sound rfl rfl ⟨stack, bet, live, dead⟩, pays_bank (pays_update (Player.pays_of_same rfl rfl))⟩

theorem sound_canComplete (sound : e.Sound) (runsOk : runs = 1 ∨ runs = 2)
    (enough : 1 < e.contested.length → e.Enough runs) (many : 1 < e.contested.length) : e.CanComplete runs := by
  have cards := enough many
  by_cases idle : e.street = .idle
  · obtain few | full | ⟨deck, board⟩ := (sound.between idle).2
    · omega
    · exact Or.inl full
    rw [Enough, deck, board, List.length_nil] at cards
    omega
  exact Or.inr ⟨idle, sound.playing idle, cards⟩

theorem settle_sound (sound : e.Sound) (runsOk : runs = 1 ∨ runs = 2) (alive : e.contested ≠ [])
    (enough : 1 < e.contested.length → e.Enough runs) (forceTabled : Bool) :
    ∃ result e', settle runs forceTabled e = .ok result e' ∧ e'.Sound ∧ e'.bank = e.bank ∧ e'.Cleared := by
  obtain ⟨result, e', ran, settled⟩ := settle_returns runsOk sound.solvent sound.distinct alive
    (sound_canComplete sound runsOk enough) forceTabled
  have table : e'.table = e.table := keeps_ok (P := fun s => s.table = e.table) (settle_table _ _ _) rfl ran
  have sb : e'.sb = e.sb := congrArg Table.sb table
  have bb : e'.bb = e.bb := congrArg Table.bb table
  refine ⟨result, e', ran, ⟨sb ▸ sound.small, bb ▸ sound.big, settled.solvent, settled.distinct,
    fun played => absurd settled.street played, fun _ => ⟨settled.cleared, ?_⟩⟩, settled.bank, settled.cleared⟩
  rw [contested_of_hands settled.hands]
  by_cases many : 1 < e.contested.length
  · exact Or.inr (Or.inl (settled.board many))
  exact Or.inl (by omega)

end Engine

namespace TableOp

variable {e : Engine n} {op : TableOp n}

theorem next_sound (sound : e.Sound) (allowed : op.Allowed e) (inHand : op.InHand e) :
    (op.next e).Sound ∧ (op.next e).bank = e.bank + op.bought e := by
  cases op with
  | startHand straddleFn deck =>
    obtain ⟨idle, two, distinct⟩ := allowed
    simpa [bought, next] using Engine.startHand_sound _ sound idle two distinct
  | act seat action amount => simpa [bought, next] using Engine.act_sound sound inHand allowed
  | nextStreet => simpa [bought, next] using Engine.nextStreet_sound sound
  | sitOut i => simpa [bought, next] using Engine.sitOut_sound sound i
  | sitIn i postNow => simpa [bought, next] using Engine.sitIn_sound sound i postNow
  | addChips i amount => exact Engine.addChips_sound sound i amount
  | settle runs forceTabled =>
    obtain ⟨runsOk, alive, enough⟩ := allowed
    obtain ⟨result, e', ran, sound', bank, -⟩ := Engine.settle_sound sound runsOk alive enough forceTabled
    simp only [next, ran, bought, add_zero]
    exact ⟨sound', bank⟩

theorem run_sound (ops : List (TableOp n)) (sound : e.Sound)
    (along : Along (fun e op => op.Allowed e ∧ op.InHand e) e ops) :
    (run e ops).Sound ∧ (run e ops).bank = e.bank + boughtIn e ops := by
  induction ops generalizing e with
  | nil => exact ⟨sound, (add_zero _).symm⟩
  | cons op rest ih =>
    obtain ⟨⟨allowed, inHand⟩, along⟩ := along
    obtain ⟨sound', bank⟩ := next_sound sound allowed inHand
    obtain ⟨final, total⟩ := ih sound' along
    refine ⟨final, total.trans ?_⟩
    rw [bank, boughtIn, add_assoc]

theorem along_append {cond : Engine n → TableOp n → Prop} (ops : List (TableOp n))
    (along : Along cond e (ops ++ [op])) : Along cond e ops ∧ cond (run e ops) op := by
  induction ops generalizing e with
  | nil => exact ⟨trivial, along.1⟩
  | cons first rest ih =>
    obtain ⟨here, later⟩ := along
    exact ⟨⟨here, (ih later).1⟩, (ih later).2⟩

/-- Along a run whose actions are all made during a hand, chips are conserved: the table has the
chips it started with and those bought since, no count is ever negative, and a hand that is settled
leaves nothing in the pot. -/
theorem run_conserves_chips (chips : Fin n → ℤ) {button : Fin n} {sb bb : ℤ} {structure' : BettingStructure}
    {bbAnte dealSittingOut : Bool} (nonneg : ∀ i, 0 ≤ chips i) (small : 0 < sb) (big : sb ≤ bb)
    (ops : List (TableOp n))
    (along : Along (fun e op => op.Allowed e ∧ op.InHand e)
      (Engine.init chips button sb bb structure' bbAnte dealSittingOut) ops) :
    let start := Engine.init chips button sb bb structure' bbAnte dealSittingOut
    (run start ops).bank = ∑ i, chips i + boughtIn start ops ∧ (run start ops).Solvent ∧
      ∀ earlier runs forceTabled, ops = earlier ++ [.settle runs forceTabled] →
        (∃ result, Engine.settle runs forceTabled (run start earlier) = .ok result (run start ops)) ∧
        (run start ops).Cleared := by
  intro start
  have sound : start.Sound := Engine.init_sound nonneg (le_of_lt small) (by omega)
  obtain ⟨final, bank⟩ := run_sound ops sound along
  refine ⟨bank.trans (congrArg (· + _) (sum_congr rfl fun i _ => ?_)), final.solvent, ?_⟩
  · change chips i + 0 + 0 = chips i
    ring
  rintro earlier runs forceTabled rfl
  obtain ⟨before, ⟨runsOk, alive, enough⟩, -⟩ := along_append earlier along
  obtain ⟨result, e', ran, -, -, cleared⟩ :=
    Engine.settle_sound (run_sound earlier sound before).1 runsOk alive enough forceTabled
  have last : run start (earlier ++ [.settle runs forceTabled]) = e' := by
    simp only [run, List.foldl_append, List.foldl_cons, List.foldl_nil]
    change next (run start earlier) _ = e'
    rw [next, ran, Method.after_ok]
  rw [last]
  exact ⟨⟨result, ran⟩, cleared⟩

def duel : Engine 2 := Engine.init (fun _ => 100) 1 1 2 .noLimit false false

theorem run_conserves_chips_duel :
    Along (fun e op => op.Allowed e ∧ op.InHand e) duel
        [.startHand none fullDeck, .act 0 .fold (.whole 0), .settle 1 false] ∧
      (run duel [.startHand none fullDeck, .act 0 .fold (.whole 0), .settle 1 false]).bank = 200 :=
  ⟨by decide +kernel, (run_conserves_chips (fun _ => 100) (by decide) (by decide) (by decide) _
    (by decide +kernel)).1⟩

/-- `settle` leaves the seat to act in place, so a call is accepted between hands, and the next
`start_hand` wipes what it put in. -/
theorem idle_call_burns_chips :
    let ops : List (TableOp 2) := [.startHand none fullDeck, .act 0 .fold (.whole 0), .settle 1 false,
      .act 1 .call (.whole 0), .startHand none fullDeck]
    Along (fun e op => op.Allowed e) duel ops ∧ duel.bank = 200 ∧ boughtIn duel ops = 0 ∧
      (run duel ops).bank = 198 := by
  decide +kernel

end TableOp

end Holdem
