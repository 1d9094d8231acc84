import Holdem.Engine.Betting

/-!
Who may raise again. What `no_raise`, `acted_at` and `min_raise` stand for (TDA 47-A) is that a seat that
has acted may raise again once the bet has grown by a full raise.
-/

namespace Holdem

open Finset

namespace Engine

variable {n : ℕ} {e e' s s' : Engine n} {i q : Fin n} {action : Action} {straddleFn : Option (Fin n → Bool)}
  {raised : Engine n} {deck : List Card}

open Method

/-- An accepted action: whose it was, the bet it left that seat with, and what it added to the bet to call. -/
structure Played (n : ℕ) where
  seat : Fin n
  bet : ℤ
  growth : ℤ

def playedBy (i : Fin n) (s s' : Engine n) : Played n :=
  { seat := i, bet := (s'.players i).bet, growth := s'.currentBet - s.currentBet }

/-- The rounds of a hand: the smallest raise a round opens with, its accepted actions, last one first,
and the table, which a refused action leaves alone. -/
inductive InRound (e : Engine n) : ℤ → List (Played n) → Engine n → Prop
  | preflop {straddleFn : Option (Fin n → Bool)} {deck : List Card} {s : Engine n}
      (started : startHand straddleFn deck e = .ok true s) :
      InRound e (if s.straddler.isSome then 2 * s.bb else s.bb) [] s
  | act {opening : ℤ} {log : List (Played n)} {s s' : Engine n} {i : Fin n} {action : Action} {amount : Amount}
      (before : InRound e opening log s) (turn : s.actor = some i) (ran : act i action amount s = .ok () s') :
      InRound e opening (playedBy i s s' :: log) s'
  | street {opening : ℤ} {log : List (Played n)} {s s' : Engine n} (before : InRound e opening log s)
      (closed : s.actor = none) (dealt : nextStreet s = .ok () s') : InRound e s.bb [] s'

def lastBet (log : List (Played n)) (q : Fin n) : Option ℤ := (log.find? fun p => p.seat = q).map Played.bet

def lastFull (opening : ℤ) : List (Played n) → ℤ
  | [] => opening
  | p :: earlier => if lastFull opening earlier ≤ p.growth then p.growth else lastFull opening earlier

theorem lastBet_cons (p : Played n) (log : List (Played n)) (q : Fin n) :
    lastBet (p :: log) q = if p.seat = q then some p.bet else lastBet log q := by
  unfold lastBet
  by_cases here : p.seat = q <;> simp [here]

inductive Marks (e : Engine n) (i : Fin n) (e' : Engine n) : Prop
  | level (current : e'.currentBet = e.currentBet) (minRaise : e'.minRaise = e.minRaise)
      (acted : e'.actedAt = e.actedAt) (marked : e'.noRaise = e.noRaise) (need : e'.needToAct = e.needToAct)
  | full (size : e.minRaise ≤ e'.currentBet - e.currentBet) (minRaise : e'.minRaise = e'.currentBet - e.currentBet)
      (acted : e'.actedAt = e.actedAt) (marked : e'.noRaise = ∅)
      (need : ∀ q, q ≠ i → (q ∈ e'.needToAct ↔ (e.players q).canAct = true))
  | short (grows : e.currentBet ≤ e'.currentBet) (size : e'.currentBet - e.currentBet < e.minRaise)
      (minRaise : e'.minRaise = e.minRaise) (acted : e'.actedAt = e.actedAt)
      (need : ∀ q, q ≠ i → (q ∈ e'.needToAct ↔ (e.players q).canAct = true))
      (marked : ∀ q, q ∈ e'.noRaise ↔
        match decide ((e.players q).canAct = true ∧ q ≠ i), e.actedAt q with
        | true, some level => e'.currentBet - level < e.minRaise
        | _, _ => q ∈ e.noRaise)

theorem mem_behind (high : ∀ q, (e.players q).bet ≤ e.currentBet)
    (tops : e.currentBet < raised.currentBet) (others : ∀ q, q ≠ i → raised.players q = e.players q) (q : Fin n) :
    q ∈ raised.behind i ↔ (e.players q).canAct = true ∧ q ≠ i := by
  simp only [behind, mem_filter, mem_univ, true_and]
  constructor
  · rintro ⟨able, other, -⟩
    exact ⟨others q other ▸ able, other⟩
  rintro ⟨able, other⟩
  rw [others q other]
  exact ⟨able, other, (high q).trans_lt tops⟩

theorem mem_shortRaise (q : Fin n) : q ∈ (raised.shortRaise i).noRaise ↔
    match decide (q ∈ raised.behind i), raised.actedAt q with
    | true, some level => raised.currentBet - level < raised.minRaise
    | _, _ => q ∈ raised.noRaise := by
  simp only [shortRaise, mem_union, regrown]
  by_cases behind : q ∈ raised.behind i
  · cases acted : raised.actedAt q with
    | none => simp [behind, acted]
    | some level => simp [behind, acted]
  simp [behind]

theorem not_barred {current least : ℤ} {held : Prop} (free : ¬held) (acted : Option ℤ) :
    (∀ bet, acted = some bet → least ≤ current - bet) → ¬(match true, acted with
      | true, some level => current - level < least
      | _, _ => held) := by
  intro grown
  cases acted with
  | none => exact free
  | some bet => exact not_lt.mpr (grown bet rfl)

theorem raiseTo_marks (round : e.Round) {target : ℤ} (tops : e.currentBet < target)
    (room : target ≤ (e.players i).bet + (e.players i).stack) :
    Marks e i (e.raiseTo i (target - (e.players i).bet)) := by
  have asked := (raiseTo_raised round tops room).asked
  have high := round.high i
  obtain ⟨raised, made⟩ : ∃ raised, e.update i (raiseChips (decide (e.currentBet = 0)) (target - (e.players i).bet)) =
    raised := ⟨_, rfl⟩
  have bet : (raised.players i).bet = target := by
    rw [← made, update_same]
    simp only [raiseChips, Player.did, Player.commit]
    omega
  have least : raised.minRaise = e.minRaise := made ▸ rfl
  have acted : raised.actedAt = e.actedAt := made ▸ rfl
  have marks : raised.noRaise = e.noRaise := made ▸ rfl
  have others : ∀ q, q ≠ i → raised.players q = e.players q := fun q other => made ▸ update_other e _ other
  unfold raiseTo at asked ⊢
  dsimp only at asked ⊢
  rw [made, bet, if_pos tops] at asked ⊢
  split at asked
  · rename_i full
    rw [if_pos full]
    have size : e.minRaise ≤ target - e.currentBet := of_decide_eq_true full
    rw [← bet] at size ⊢
    exact .full size rfl acted rfl asked
  rename_i short
  rw [if_neg short]
  have size : target - e.currentBet < e.minRaise := by simpa using short
  have tops' : e.currentBet < (raised.raiseBet i).currentBet := lt_of_lt_of_eq tops bet.symm
  refine .short (le_of_lt tops') (bet ▸ size) least acted asked fun q => ?_
  refine (@mem_shortRaise _ i (raised.raiseBet i) q).trans ?_
  have behind := mem_behind round.high tops' others q
  rw [decide_eq_decide.mpr behind]
  change (match _, raised.actedAt q with
    | true, some level => (raised.players i).bet - level < raised.minRaise
    | _, _ => q ∈ raised.noRaise) ↔ _
  rw [acted, least, marks]
  rfl

theorem fold_marks (e : Engine n) (i : Fin n) : Marks e i (e.fold i) := .level rfl rfl rfl rfl rfl

theorem call_marks (e : Engine n) (i : Fin n) : Marks e i (e.call i) := by
  unfold call
  dsimp only
  split <;> exact .level rfl rfl rfl rfl rfl

theorem move_marks (round : e.Round) (move : Move e i action e') : Marks e i e' := by
  cases move with
  | fold => exact fold_marks e i
  | call => exact call_marks e i
  | raiseCall => exact call_marks e i
  | raise target may low high adds =>
    have tops := lt_of_lt_of_le (legal_minTo_gt round.blind round.minRaise (round.low i) may) low
    exact raiseTo_marks round tops (le_trans high (legal_maxTo_le e i))

theorem move_others (round : e.Round) (move : Move e i action e') (other : q ≠ i) : e'.players q = e.players q := by
  obtain ⟨-, rfl⟩ | ⟨-, rfl⟩ | ⟨-, target, tops, -, raised⟩ := move_cases round move
  · exact fold_other other
  · exact call_other other
  exact raised.others q other

/-- The marks of a round: a seat is marked with its bet when it acts, and barred from raising if the bet has
not grown by a full raise since. -/
structure Marked (s : Engine n) : Prop where
  level : ∀ q bet, s.actedAt q = some bet → (s.players q).bet = bet
  asked : ∀ q, (s.players q).canAct = true → q ∉ s.needToAct → s.actedAt q ≠ none
  barred : ∀ q ∈ s.noRaise, s.actedAt q ≠ none
  rule : ∀ q ∈ s.needToAct,
    (q ∈ s.noRaise ↔ ∃ bet, s.actedAt q = some bet ∧ s.currentBet - bet < s.minRaise)

theorem marks_acted (marks : Marks e i e') : e'.actedAt = e.actedAt := by
  cases marks <;> assumption

theorem marks_rule (round : e.Round) (marked : e.Marked) (marks : Marks e i e') (other : q ≠ i) (asked : q ∈ e'.needToAct) :
    (q ∈ e'.noRaise ↔ ∃ bet, e.actedAt q = some bet ∧ e'.currentBet - bet < e'.minRaise) := by
  cases marks with
  | level current minRaise acted same need =>
    rw [same, current, minRaise]
    exact marked.rule q (need ▸ asked)
  | full size minRaise acted none need =>
    -- the bet has grown by a full raise since anybody acted
    rw [none, minRaise]
    constructor
    · intro member
      exact absurd member (notMem_empty q)
    rintro ⟨bet, at_, less⟩
    have level := marked.level q bet at_
    have high := round.high q
    omega
  | short grows size minRaise acted need formula =>
    have able : decide ((e.players q).canAct = true ∧ q ≠ i) = true := decide_eq_true ⟨(need q other).mp asked, other⟩
    rw [formula q, able, minRaise]
    cases at_ : e.actedAt q with
    | none => simpa using fun member => absurd at_ (marked.barred q member)
    | some bet => simp

theorem marks_barred (marked : e.Marked) (marks : Marks e i e') (member : q ∈ e'.noRaise) : e.actedAt q ≠ none := by
  cases marks with
  | level _ _ _ same => exact marked.barred q (same ▸ member)
  | full _ _ _ none => exact absurd (none ▸ member) (notMem_empty q)
  | short _ _ _ _ _ formula =>
    intro unmarked
    have before := (formula q).mp member
    rw [unmarked] at before
    have before : q ∈ e.noRaise := by
      split at before
      · contradiction
      exact before
    exact marked.barred q before unmarked

theorem marks_asked (marked : e.Marked) (marks : Marks e i e') (other : q ≠ i) (able : (e.players q).canAct = true)
    (unasked : q ∉ e'.needToAct) : e.actedAt q ≠ none := by
  cases marks with
  | level _ _ _ _ need => exact marked.asked q able (need ▸ unasked)
  | full _ _ _ _ need => exact absurd ((need q other).mpr able) unasked
  | short _ _ _ _ need => exact absurd ((need q other).mpr able) unasked

theorem actDone_acted (acted : e'.actedAt = e.actedAt) :
    (e'.actDone i).actedAt i = some ((e'.actDone i).players i).bet ∧
      ∀ q, q ≠ i → (e'.actDone i).actedAt q = e.actedAt q :=
  ⟨Function.update_self i _ _, fun q other => (Function.update_of_ne other _ _).trans (congrFun acted q)⟩

theorem move_marked (round : e.Round) (marked : e.Marked) (move : Move e i action e') : (e'.actDone i).Marked := by
  have marks := move_marks round move
  obtain ⟨here, others⟩ := actDone_acted (i := i) (marks_acted marks)
  refine ⟨fun q bet at_ => ?_, fun q able unasked => ?_, fun q member => ?_, fun q asked => ?_⟩
  · by_cases other : q = i
    · rw [other, here] at at_
      rw [other]
      exact Option.some_inj.mp at_
    rw [others q other] at at_
    change (e'.players q).bet = bet
    rw [move_others round move other]
    exact marked.level q bet at_
  · by_cases other : q = i
    · rw [other, here]
      exact Option.some_ne_none _
    rw [others q other]
    change (e'.players q).canAct = true at able
    rw [move_others round move other] at able
    exact marks_asked marked marks other able fun member => unasked (Finset.mem_erase.mpr ⟨other, member⟩)
  · by_cases other : q = i
    · rw [other, here]
      exact Option.some_ne_none _
    rw [others q other]
    exact marks_barred marked marks member
  obtain ⟨other, asked⟩ := Finset.mem_erase.mp asked
  rw [others q other]
  change (q ∈ e'.noRaise ↔ ∃ bet, e.actedAt q = some bet ∧ e'.currentBet - bet < e'.minRaise)
  exact marks_rule round marked marks other asked

/-- A round, with its marks. Between the rounds nobody is asked, and the marks of the last one are still there. -/
structure Paced (s : Engine n) : Prop where
  round : s.Round
  marked : s.needToAct = ∅ ∨ s.Marked

theorem Paced.open (paced : s.Paced) (turn : s.actor = some i) : s.Marked :=
  paced.marked.resolve_left (ne_empty_of_mem (paced.round.turn i turn))

theorem move_paced (paced : e.Paced) (turn : e.actor = some i) (move : Move e i action e') : (e'.actDone i).Paced :=
  ⟨move_round paced.round turn move, Or.inr (move_marked paced.round (paced.open turn) move)⟩

theorem openRound_marked (e : Engine n) (first : Fin n) :
    (e.openRound first).needToAct = ∅ ∨ (e.openRound first).Marked := by
  unfold openRound
  dsimp only
  split
  · exact Or.inl rfl
  exact Or.inr ⟨fun _ _ at_ => (by cases at_), fun q able unasked => absurd (mem_actors.mpr able) unasked,
    fun _ member => absurd member (notMem_empty _),
    fun _ _ => ⟨fun member => absurd member (notMem_empty _), fun ⟨_, at_, _⟩ => (by cases at_)⟩⟩

theorem openRound_unmarked (e : Engine n) (first : Fin n) : (e.openRound first).actedAt = (fun _ => none) ∧
    (e.openRound first).minRaise = e.minRaise ∧ (e.openRound first).straddler = e.straddler ∧
    (e.openRound first).bb = e.bb := by
  unfold openRound
  dsimp only
  split <;> exact ⟨rfl, rfl, rfl, rfl⟩

theorem nextStreet_paced (paced : s.Paced) (closed : s.actor = none) (dealt : nextStreet s = .ok () s') : s'.Paced := by
  have round := nextStreet_round paced.round closed
  rw [dealt] at round
  refine ⟨round, ?_⟩
  -- a street that is dealt opens a round, and the showdown leaves nobody to act
  rcases nextStreet_cases s with ⟨k, street, rest, out, -, -, -, ran⟩ | ⟨k, street, x, -, -, ran⟩ | ⟨-, ran⟩ |
    ⟨-, ran⟩ <;> rw [ran] at dealt <;> cases dealt
  · exact openRound_marked _ _
  · exact Or.inl (round.closed.mp closed)
  exact openRound_marked _ _

theorem startHand_paced (small : 0 ≤ e.sb) (blind : 0 < e.bb)
    (started : startHand straddleFn deck e = .ok true s) : s.Paced := by
  obtain ⟨opening⟩ := startHand_opening started
  exact ⟨startHand_round small blind started, opening.opened ▸ openRound_marked _ _⟩

structure Tracks (s : Engine n) (opening : ℤ) (log : List (Played n)) : Prop extends Paced s where
  minRaise : s.minRaise = lastFull opening log
  acted : s.needToAct = ∅ ∨ ∀ q, s.actedAt q = lastBet log q

variable {opening : ℤ} {log : List (Played n)}

theorem marks_minRaise (round : e.Round) (least : e.minRaise = lastFull opening log) (marks : Marks e i e') :
    (e'.actDone i).minRaise = lastFull opening (playedBy i e (e'.actDone i) :: log) := by
  have positive : 0 < e.minRaise := lt_of_lt_of_le round.blind round.minRaise
  have grown : lastFull opening (playedBy i e (e'.actDone i) :: log) =
      if e.minRaise ≤ e'.currentBet - e.currentBet then e'.currentBet - e.currentBet else e.minRaise := by
    rw [lastFull, ← least]
    rfl
  rw [grown]
  change e'.minRaise = _
  cases marks with
  | level current minRaise => rw [minRaise, current, if_neg (by omega)]
  | full size minRaise => rw [minRaise, if_pos size]
  | short grows size minRaise => rw [minRaise, if_neg (by omega)]

theorem marks_lastBet (acted : ∀ q, e.actedAt q = lastBet log q) (marks : Marks e i e') (q : Fin n) :
    (e'.actDone i).actedAt q = lastBet (playedBy i e (e'.actDone i) :: log) q := by
  obtain ⟨here, others⟩ := actDone_acted (i := i) (marks_acted marks)
  rw [lastBet_cons]
  change _ = if i = q then some ((e'.actDone i).players i).bet else lastBet log q
  by_cases other : q = i
  · rw [other, here, if_pos rfl]
  rw [others q other, if_neg (Ne.symm other)]
  exact acted q

theorem tracks_act {amount : Amount} (tracks : s.Tracks opening log)
    (turn : s.actor = some i) (ran : act i action amount s = .ok () s') :
    s'.Tracks opening (playedBy i s s' :: log) := by
  obtain ⟨j, -, turn', -, moved, move, rfl⟩ := act_moves ran
  cases Option.some_inj.mp (turn'.symm.trans turn)
  have marks := move_marks tracks.round move
  have acted := tracks.acted.resolve_left (ne_empty_of_mem (tracks.round.turn _ turn))
  exact ⟨move_paced tracks.toPaced turn move, marks_minRaise tracks.round tracks.minRaise marks,
    Or.inr (marks_lastBet acted marks)⟩

theorem tracks_street (tracks : s.Tracks opening log) (closed : s.actor = none)
    (dealt : nextStreet s = .ok () s') : s'.Tracks s.bb [] := by
  have paced := nextStreet_paced tracks.toPaced closed dealt
  rcases nextStreet_cases s with ⟨k, street, rest, out, -, -, -, ran⟩ | ⟨k, street, x, -, -, ran⟩ | ⟨-, ran⟩ |
    ⟨-, ran⟩ <;> rw [ran] at dealt <;> cases dealt
  · obtain ⟨acted, least, -⟩ := openRound_unmarked _ _
    exact ⟨paced, least, Or.inr fun q => congrFun acted q⟩
  · exact ⟨paced, rfl, Or.inl (paced.round.closed.mp closed)⟩
  obtain ⟨acted, least, -⟩ := openRound_unmarked _ _
  exact ⟨paced, least, Or.inr fun q => congrFun acted q⟩

theorem postAll_minRaise (blind : 0 < e.bb) (least : e.minRaise = e.bb) (unset : e.straddler = none) (sbSeat bbSeat : Fin n)
    (straddleFn : Option (Fin n → Bool)) : (e.postAll sbSeat bbSeat straddleFn).minRaise =
      if (e.postAll sbSeat bbSeat straddleFn).straddler.isSome then 2 * e.bb else e.bb := by
  obtain ⟨kept, straddler⟩ := postForced_minRaise e sbSeat bbSeat
  have bb : (e.postForced sbSeat bbSeat).bb = e.bb := congrArg Ground.bb (ground_postForced e sbSeat bbSeat)
  unfold postAll straddle
  split
  · change max (e.postForced sbSeat bbSeat).minRaise (2 * (e.postForced sbSeat bbSeat).bb) = 2 * e.bb
    rw [kept, bb, least]
    omega
  change (e.postForced sbSeat bbSeat).minRaise = if (e.postForced sbSeat bbSeat).straddler.isSome then _ else _
  rw [kept, straddler, unset]
  exact least

theorem tracks_preflop (small : 0 ≤ e.sb) (blind : 0 < e.bb) (started : startHand straddleFn deck e = .ok true s) :
    s.Tracks (if s.straddler.isSome then 2 * s.bb else s.bb) [] := by
  have paced := startHand_paced small blind started
  obtain ⟨opening⟩ := startHand_opening started
  obtain ⟨deck', holes, dealt⟩ := keeps_ok (dealHoles_deals _) (deals_refl _) opening.deal
  obtain ⟨_, _, _, placed⟩ := (rearranges_of_ok opening.positions).rest
  have bb : opening.placed.bb = e.bb := by rw [placed]
  have posted := postAll_minRaise (e := opening.placed.resetSeats.newHand deck) (bb ▸ blind) rfl rfl opening.sbSeat
    opening.bbSeat straddleFn
  have blinds : (opening.placed.posted opening.sbSeat opening.bbSeat straddleFn deck).bb = opening.placed.bb :=
    congrArg Ground.bb (posted_ground opening.placed opening.sbSeat opening.bbSeat straddleFn deck)
  obtain ⟨acted, least, straddler, bb'⟩ := openRound_unmarked opening.dealt opening.first
  refine ⟨paced, ?_, Or.inr fun q => congrFun (opening.opened ▸ acted) q⟩
  rw [lastFull, opening.opened, least, straddler, bb', dealt]
  change (opening.placed.posted opening.sbSeat opening.bbSeat straddleFn deck).minRaise =
    if (opening.placed.posted opening.sbSeat opening.bbSeat straddleFn deck).straddler.isSome then
      2 * (opening.placed.posted opening.sbSeat opening.bbSeat straddleFn deck).bb
    else (opening.placed.posted opening.sbSeat opening.bbSeat straddleFn deck).bb
  rw [blinds]
  exact posted

theorem inRound_tracks (small : 0 ≤ e.sb) (blind : 0 < e.bb)
    (reached : InRound e opening log s) : s.Tracks opening log := by
  induction reached with
  | preflop started => exact tracks_preflop small blind started
  | act before turn ran ih => exact tracks_act ih turn ran
  | street before closed dealt ih => exact tracks_street ih closed dealt

theorem legal_canRaise_iff (round : s.Round) (limit : s.bettingStructure ≠ .fixedLimit) (able : (s.players i).canAct = true) :
    (s.legal i).canRaise = true ↔ (s.legal i).toCall < (s.players i).stack ∧ i ∉ s.noRaise := by
  obtain ⟨-, -, -, chips⟩ := canAct_iff.mp able
  have blind := round.blind
  have least := round.minRaise
  have low := round.low i
  have high := round.high i
  have room : s.toCall (s.players i) < (s.players i).stack → s.currentBet < (s.raiseRange (s.players i)).2 := by
    intro more
    unfold toCall at more
    unfold raiseRange minTarget
    split
    · dsimp only
      omega
    · rename_i fixed
      exact absurd fixed limit
    dsimp only
    split_ifs <;> omega
  simp only [legal, decide_eq_true_eq]
  constructor
  · rintro ⟨more, free, -⟩
    exact ⟨more, free⟩
  rintro ⟨more, free⟩
  exact ⟨more, free, fun capped => limit capped.1, room more⟩

/-- Raises are reopened by the round as a whole: in every state of every round, whoever is still asked is
barred from raising exactly if it has acted and the bet has since grown by less than a full raise. -/
theorem reopening_rule {opening : ℤ} {log : List (Played n)} (small : 0 ≤ e.sb) (blind : 0 < e.bb)
    (reached : InRound e opening log s) :
    (∀ q ∈ s.needToAct,
      (q ∈ s.noRaise ↔ ∃ level, lastBet log q = some level ∧ s.currentBet - level < s.minRaise)) ∧
    (s.bettingStructure ≠ .fixedLimit → ∀ i, s.actor = some i →
      ((s.legal i).canRaise = true ↔ (s.legal i).toCall < (s.players i).stack ∧
        (lastBet log i = none ∨ ∃ level, lastBet log i = some level ∧ s.minRaise ≤ s.currentBet - level))) ∧
    s.minRaise = lastFull opening log := by
  have tracks := inRound_tracks small blind reached
  have rule : ∀ q ∈ s.needToAct,
      (q ∈ s.noRaise ↔ ∃ level, lastBet log q = some level ∧ s.currentBet - level < s.minRaise) := by
    intro q asked
    rw [← tracks.acted.resolve_left (ne_empty_of_mem asked) q]
    exact (tracks.marked.resolve_left (ne_empty_of_mem asked)).rule q asked
  refine ⟨rule, fun limit i turn => ?_, tracks.minRaise⟩
  have asked := tracks.round.turn i turn
  rw [legal_canRaise_iff tracks.round limit (tracks.round.need i asked), rule i asked]
  refine and_congr_right fun _ => ?_
  cases lastBet log i with
  | none => simp
  | some level => simp

def trio : Engine 3 := Engine.init ![100, 100, 15] 2 1 2 .noLimit false false

theorem reopening_rule_short :
    ∃ opening log s, InRound trio opening log s ∧ 0 ∈ s.needToAct ∧ 0 ∈ s.noRaise ∧
      ∃ level, lastBet log 0 = some level ∧ s.currentBet - level < s.minRaise := by
  obtain ⟨s₁, started, eq₁⟩ : ∃ s, startHand none fullDeck trio = .ok true s ∧ s = after (startHand none fullDeck trio) :=
    ⟨_, eq_ok_of_value (by decide +kernel), rfl⟩
  obtain ⟨s₂, raised, eq₂⟩ : ∃ s, act (0 : Fin 3) .raise (.whole 10) s₁ = .ok () s ∧
      s = after (act (0 : Fin 3) .raise (.whole 10) s₁) := ⟨_, eq_ok_of_value (by rw [eq₁]; decide +kernel), rfl⟩
  obtain ⟨s₃, folded, eq₃⟩ : ∃ s, act (1 : Fin 3) .fold (.whole 0) s₂ = .ok () s ∧
      s = after (act (1 : Fin 3) .fold (.whole 0) s₂) := ⟨_, eq_ok_of_value (by rw [eq₂, eq₁]; decide +kernel), rfl⟩
  obtain ⟨s₄, allIn, eq₄⟩ : ∃ s, act (2 : Fin 3) .raise (.whole 15) s₃ = .ok () s ∧
      s = after (act (2 : Fin 3) .raise (.whole 15) s₃) := ⟨_, eq_ok_of_value (by rw [eq₃, eq₂, eq₁]; decide +kernel), rfl⟩
  have reached := InRound.act (InRound.act (InRound.act (InRound.preflop started) (by rw [eq₁]; decide +kernel) raised)
    (by rw [eq₂, eq₁]; decide +kernel) folded) (by rw [eq₃, eq₂, eq₁]; decide +kernel) allIn
  have asked : 0 ∈ s₄.needToAct := by rw [eq₄, eq₃, eq₂, eq₁]; decide +kernel
  have barred : 0 ∈ s₄.noRaise := by rw [eq₄, eq₃, eq₂, eq₁]; decide +kernel
  exact ⟨_, _, s₄, reached, asked, barred, ((reopening_rule (by decide) (by decide) reached).1 0 asked).mp barred⟩

end Engine

end Holdem
