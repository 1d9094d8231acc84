import Holdem.Session.Follow

/-!
Where the seats that play on are honest, a busted seat follows them to the same hand and stacks in
whatever order their reports come, and never takes them to differ.
-/

namespace Holdem

open List

variable {n : ℕ} {H : Type}

structure Ended (n : ℕ) (H : Type) where
  hand : ℕ
  report : Option (H × (Fin n → ℤ))

namespace Ended

def after (e : Ended n H) (chips : Fin n → ℤ) : Fin n → ℤ := e.report.elim chips Prod.snd

def message (e : Ended n H) : PeerMessage n H :=
  match e.report with
  | some (digest, chips) => .handSettled e.hand digest (some chips)
  | none => .handVoid (some e.hand)

def kept (e : Ended n H) : Option (Report n H) := e.report.map fun r => ⟨r.1, some r.2⟩

theorem message_inj {e e' : Ended n H} (same : e.message = e'.message) : e = e' := by
  obtain ⟨hand, report⟩ := e
  obtain ⟨hand', report'⟩ := e'
  cases report <;> cases report' <;> simp_all [message, Prod.ext_iff]

end Ended

/-- The hands that the seats left play. One they settle pays out the chips on the table, none to a seat
that had none; one they void is dealt again under another number. -/
inductive TableRun (departed : Finset (Fin n)) : ℕ → (Fin n → ℤ) → List (Ended n H) → Prop
  | nil {last : ℕ} {chips : Fin n → ℤ} : TableRun departed last chips []
  | cons {last : ℕ} {chips : Fin n → ℤ} {e : Ended n H} {rest : List (Ended n H)} (later : last < e.hand)
      (two : 2 ≤ (remaining departed chips).length)
      (pays : ∀ digest settled, e.report = some (digest, settled) →
        (∀ i, 0 ≤ settled i) ∧ Session.credible chips settled = true)
      (onward : TableRun departed e.hand (e.after chips) rest) : TableRun departed last chips (e :: rest)

def played : (Fin n → ℤ) → List (Ended n H) → List ((Fin n → ℤ) × Ended n H)
  | _, [] => []
  | chips, e :: rest => (chips, e) :: played (e.after chips) rest

def reached : Point n → List (Ended n H) → Point n
  | p, [] => p
  | p, e :: rest => reached (e.report.elim p fun r => (e.hand, r.2)) rest

variable {run : List (Ended n H)}

theorem reached_congr {chips : Fin n → ℤ} {x : (Fin n → ℤ) × Ended n H} (member : x ∈ played chips run)
    (settled : x.2.report ≠ none) (p q : Point n) : reached p run = reached q run := by
  induction run generalizing chips p q with
  | nil => cases member
  | cons e rest ih =>
    unfold reached
    obtain rfl | member := List.mem_cons.mp member
    · obtain ⟨r, ended⟩ := Option.ne_none_iff_exists'.mp settled
      rw [ended]
      rfl
    exact ih member _ _

theorem reached_of_waiting {p : Point n}
    (waiting : ∀ e, (p.2, e) ∈ played p.2 run → e.report = none) : reached p run = p := by
  induction run with
  | nil => rfl
  | cons e rest ih =>
    have void := waiting e (.head _)
    have same : e.after p.2 = p.2 := by rw [Ended.after, void]; rfl
    unfold reached
    rw [void]
    exact ih fun e' member => waiting e' (mem_cons_of_mem _ (by rwa [same]))

namespace TableRun

variable {departed : Finset (Fin n)} {last : ℕ} {chips before : Fin n → ℤ} {run : List (Ended n H)} {e : Ended n H}
  {x : (Fin n → ℤ) × Ended n H}

theorem later (h : TableRun departed last chips run) (member : x ∈ played chips run) : last < x.2.hand := by
  induction h with
  | nil => cases member
  | cons later two pays onward ih =>
    obtain rfl | member := List.mem_cons.mp member
    · exact later
    exact lt_trans later (ih member)

theorem unique (h : TableRun departed last chips run) {y : (Fin n → ℤ) × Ended n H} (first : x ∈ played chips run)
    (second : y ∈ played chips run) (same : x.2.hand = y.2.hand) : x = y := by
  induction h with
  | nil => cases first
  | cons later two pays onward ih =>
    rcases List.mem_cons.mp first with rfl | first <;> rcases List.mem_cons.mp second with rfl | second
    · rfl
    · exact absurd (onward.later second) (by rw [← same]; exact lt_irrefl _)
    · exact absurd (onward.later first) (by rw [same]; exact lt_irrefl _)
    exact ih first second

theorem two_of_mem (h : TableRun departed last chips run) (member : x ∈ played chips run) :
    2 ≤ (remaining departed chips).length := by
  cases h with
  | nil => cases member
  | cons later two pays onward => exact two

theorem credible_iff {known settled : Fin n → ℤ} :
    Session.credible known settled = true ↔ ∑ i, settled i = ∑ i, known i ∧ ∀ i, known i = 0 → settled i = 0 := by
  simp [Session.credible]

theorem after_credible (counts : ∀ i, 0 ≤ chips i) (pays : ∀ digest settled, e.report = some (digest, settled) →
      (∀ i, 0 ≤ settled i) ∧ Session.credible chips settled = true) :
    (∀ i, 0 ≤ e.after chips i) ∧ Session.credible chips (e.after chips) = true := by
  unfold Ended.after
  cases ended : e.report with
  | none => exact ⟨counts, credible_iff.mpr ⟨rfl, fun _ => id⟩⟩
  | some r => exact pays r.1 r.2 ended

theorem credible_trans {a b c : Fin n → ℤ} (first : Session.credible a b = true) (second : Session.credible b c = true) :
    Session.credible a c = true := by
  rw [credible_iff] at first second ⊢
  exact ⟨second.1.trans first.1, fun i none => second.2 i (first.2 i none)⟩

theorem remaining_mono {a b : Fin n → ℤ} (counts : ∀ i, 0 ≤ a i) (pays : Session.credible a b = true) {i : Fin n}
    (member : i ∈ remaining departed b) : i ∈ remaining departed a := by
  obtain ⟨chips, stays⟩ := mem_remaining.mp member
  refine mem_remaining.mpr ⟨lt_of_le_of_ne (counts i) fun none => ?_, stays⟩
  rw [(credible_iff.mp pays).2 i none.symm] at chips
  exact lt_irrefl _ chips

theorem dealt (h : TableRun departed last chips run) (counts : ∀ i, 0 ≤ chips i) (member : (before, e) ∈ played chips run) :
    (∀ i, 0 ≤ before i) ∧ Session.credible chips before = true ∧ ∀ digest settled, e.report = some (digest, settled) →
      (∀ i, 0 ≤ settled i) ∧ Session.credible before settled = true := by
  induction h with
  | nil => cases member
  | cons later two pays onward ih =>
    obtain first | member := List.mem_cons.mp member
    · cases first
      exact ⟨counts, credible_iff.mpr ⟨rfl, fun _ => id⟩, pays⟩
    obtain ⟨counts', pays'⟩ := after_credible counts pays
    obtain ⟨there, total, ended⟩ := ih counts' member
    exact ⟨there, credible_trans pays' total, ended⟩

end TableRun

structure Standing (departed : Finset (Fin n)) (start : Point n) (run : List (Ended n H)) (p : Point n)
    (rest : List (Ended n H)) : Prop where
  onward : TableRun departed p.1 p.2 rest
  counts : ∀ i, 0 ≤ p.2 i
  ends : reached p rest = reached start run
  later : ∀ x ∈ played start.2 run, p.1 < x.2.hand → x ∈ played p.2 rest
  within : ∀ x ∈ played p.2 rest, x ∈ played start.2 run

namespace Standing

variable {departed : Finset (Fin n)} {start p : Point n} {run rest : List (Ended n H)} {before settled : Fin n → ℤ} {hand : ℕ}
  {digest : H}

theorem refl (h : TableRun departed start.1 start.2 run) (counts : ∀ i, 0 ≤ start.2 i) : Standing departed start run start run :=
  ⟨h, counts, rfl, fun _ member _ => member, fun _ => id⟩

theorem settle (h : TableRun departed start.1 start.2 run) (counts : ∀ i, 0 ≤ start.2 i)
    (member : (before, ⟨hand, some (digest, settled)⟩) ∈ played start.2 run) :
    ∃ rest, Standing departed start run (hand, settled) rest := by
  obtain ⟨last, chips⟩ := start
  dsimp only at h counts member
  induction h with
  | nil => cases member
  | @cons last chips e rest later two pays onward ih =>
    obtain first | member := List.mem_cons.mp member
    · cases first
      refine ⟨rest, onward, (pays digest settled rfl).1, rfl, fun x there after => ?_, fun x => mem_cons_of_mem _⟩
      obtain rfl | there := List.mem_cons.mp there
      · exact absurd after (lt_irrefl _)
      exact there
    obtain ⟨counts', -⟩ := TableRun.after_credible counts pays
    obtain ⟨rest', place⟩ := ih counts' member
    refine ⟨rest', place.onward, place.counts, ?_, fun x there after => ?_, fun x there => mem_cons_of_mem _ (place.within x there)⟩
    · exact place.ends.trans (reached_congr member nofun _ _)
    obtain rfl | there := List.mem_cons.mp there
    · exact absurd (lt_trans (onward.later member) after) (lt_irrefl _)
    exact place.later x there after

variable {x : (Fin n → ℤ) × Ended n H}

section

variable (h : Standing departed start run p rest) (member : x ∈ played start.2 run) (after : p.1 < x.2.hand)
include h member after

theorem two : 2 ≤ (remaining departed p.2).length :=
  h.onward.two_of_mem (h.later x member after)

theorem remains {seat : Fin n} (dealt : seat ∈ remaining departed x.1) : seat ∈ remaining departed p.2 :=
  TableRun.remaining_mono h.counts (h.onward.dealt h.counts (h.later x member after)).2.1 dealt

end

end Standing

namespace Session

variable [DecidableEq H] {departed : Finset (Fin n)} {start p : Point n} {run rest : List (Ended n H)}
  {f : Following n H} {x : (Fin n → ℤ) × Ended n H} {kept : Kept n H} {ledger : List (ℕ × Kept n H)} {origin : H}
  {heard : List (Reported n H)} {s s0 : Session n H} {seat : Fin n} {m : Reported n H}

def Alike (x : (Fin n → ℤ) × Ended n H) (kept : Kept n H) : Prop := ∀ seat, ∀ r ∈ kept seat, r = x.2.kept

theorem dedup_alike {α : Type} [DecidableEq α] {xs : List α} {a : α} (alike : ∀ y ∈ xs, y = a) : xs.dedup = [] ∨ xs.dedup = [a] := by
  induction xs with
  | nil => exact .inl rfl
  | cons y ys ih =>
    obtain rfl := alike y (.head _)
    by_cases there : y ∈ ys
    · rw [dedup_cons_of_mem there]
      exact ih fun z member => alike z (.tail _ member)
    rw [dedup_cons_of_notMem there]
    obtain none | one := ih fun z member => alike z (.tail _ member)
    · exact .inr (by rw [none])
    exact absurd (List.mem_dedup.mp (one ▸ mem_singleton_self y)) there

theorem followHand_honest (place : Standing departed start run f.point rest) (member : x ∈ played start.2 run)
    (after : f.last < x.2.hand) (alike : Alike x kept) :
    (followHand departed x.2.hand kept f = some f ∧
      (x.2.report ≠ none → ∃ seat ∈ remaining departed f.known, kept seat = [])) ∨
    ∃ digest settled, x.2.report = some (digest, settled) ∧ followHand departed x.2.hand kept f =
      some ⟨x.2.hand, settled, some (x.2.hand, digest, settled, (remaining departed f.known).toFinset)⟩ := by
  have all : ∀ r ∈ (remaining departed f.known).flatMap kept, r = x.2.kept := fun r there => by
    obtain ⟨seat, -, there⟩ := List.mem_flatMap.mp there
    exact alike seat r there
  have one := dedup_alike all
  have few : ((remaining departed f.known).flatMap kept).dedup.length ≤ 1 := by
    obtain none | one := one
    · rw [none]; simp
    rw [one]; simp
  unfold followHand
  dsimp only
  rw [if_neg (by omega)]
  split
  · rename_i missing
    refine .inl ⟨rfl, fun _ => ?_⟩
    simpa using missing
  rename_i complete
  have each : ∀ seat ∈ remaining departed f.known, kept seat ≠ [] := by simpa using complete
  have two : 2 ≤ (remaining departed f.known).length := place.two member after
  obtain ⟨seat, playing⟩ := exists_mem_of_length_pos (l := remaining departed f.known) (by omega)
  obtain ⟨r, reported⟩ := exists_mem_of_ne_nil _ (each seat playing)
  have got : ((remaining departed f.known).flatMap kept).dedup = [x.2.kept] := one.resolve_left fun none => by
    have there := List.mem_dedup.mpr (List.mem_flatMap.mpr ⟨seat, playing, reported⟩)
    rw [none] at there
    cases there
  rw [got]
  obtain ⟨before, hand, report⟩ := x
  cases report with
  | none => exact .inl ⟨rfl, fun settled => absurd rfl settled⟩
  | some r =>
    obtain ⟨digest, settled⟩ := r
    obtain ⟨-, paid, pays⟩ := place.onward.dealt place.counts (place.later _ member after)
    have fits : credible f.known settled = true := TableRun.credible_trans paid (pays digest settled rfl).2
    refine .inr ⟨digest, settled, rfl, ?_⟩
    show (if credible f.known settled then _ else _) = _
    rw [if_pos fits]

def Honest (start : Point n) (run : List (Ended n H)) (ledger : List (ℕ × Kept n H)) : Prop :=
  ∀ entry ∈ ledger, ∃ x ∈ played start.2 run, x.2.hand = entry.1 ∧ Alike x entry.2

def Waits (departed : Finset (Fin n)) (start : Point n) (run : List (Ended n H)) (p : Point n) (ledger : List (ℕ × Kept n H)) : Prop :=
  ∀ x ∈ played start.2 run, x.2.report ≠ none → p.1 < x.2.hand → ∀ kept, (x.2.hand, kept) ∈ ledger →
    ∃ seat ∈ remaining departed p.2, kept seat = []

def Agreed (start : Point n) (run : List (Ended n H)) (f : Following n H) : Prop :=
  ∃ digest seats before, f.agreed = some (f.last, digest, f.known, seats) ∧
    (before, ⟨f.last, some (digest, f.known)⟩) ∈ played start.2 run

theorem followAll_honest (counts : ∀ i, 0 ≤ start.2 i) (runs : TableRun departed start.1 start.2 run)
    (place : Standing departed start run f.point rest) (sorted : Ledger.Sorted ledger)
    (above : ∀ entry ∈ ledger, f.last < entry.1) (honest : Honest start run ledger) :
    ∃ f' rest', followAll departed ledger f = some f' ∧ Standing departed start run f'.point rest' ∧
      (f' = f ∨ (∃ entry ∈ ledger, entry.1 = f'.last) ∧ Agreed start run f') ∧ Waits departed start run f'.point ledger := by
  induction ledger generalizing f rest with
  | nil => exact ⟨f, rest, rfl, place, .inl rfl, nofun⟩
  | cons entry ledger ih =>
    obtain ⟨below, sorted⟩ := List.pairwise_cons.mp sorted
    obtain ⟨x, member, same, alike⟩ := honest entry (.head _)
    have after : f.last < x.2.hand := same ▸ above entry (.head _)
    have rested : Honest start run ledger := fun e there => honest e (.tail _ there)
    have two : ¬(remaining departed f.known).length < 2 := Nat.not_lt.mpr (place.two member after)
    unfold followAll
    rw [if_neg two, ← same]
    -- the hand is waited for, or the pass goes on from it
    obtain ⟨stays, missing⟩ | ⟨digest, settled, ended, moves⟩ := followHand_honest place member after alike
    · obtain ⟨f', rest', ran, place', moved, waits⟩ := ih place sorted (fun e there => above e (.tail _ there)) rested
      refine ⟨f', rest', by rw [stays]; exact ran, place', ?_, fun y there settled later kept stored => ?_⟩
      · obtain rfl | ⟨⟨e, there, at'⟩, agreed⟩ := moved
        · exact .inl rfl
        exact .inr ⟨⟨e, mem_cons_of_mem _ there, at'⟩, agreed⟩
      obtain first | stored := List.mem_cons.mp stored
      · subst first
        obtain rfl := runs.unique member there same
        obtain rfl | ⟨⟨e, there, at'⟩, -⟩ := moved
        · exact missing settled
        have lower : x.2.hand < f'.last := at' ▸ below e there
        exact absurd (lt_trans later lower) (lt_irrefl _)
      exact waits y there settled later kept stored
    obtain ⟨before, hand, report⟩ := x
    dsimp only at ended same
    subst ended
    obtain ⟨rest1, place1⟩ := Standing.settle runs counts member
    obtain ⟨f', rest', ran, place', moved, waits⟩ := ih (f := ⟨hand, settled, _⟩) place1 sorted
      (fun e there => same ▸ below e there) rested
    refine ⟨f', rest', by rw [moves]; exact ran, place', .inr ?_, fun y there settled later kept stored => ?_⟩
    · obtain rfl | ⟨⟨e, there, at'⟩, agreed⟩ := moved
      · exact ⟨⟨entry, mem_cons_self, same.symm⟩, digest, _, before, rfl, member⟩
      exact ⟨⟨e, mem_cons_of_mem _ there, at'⟩, agreed⟩
    obtain first | stored := List.mem_cons.mp stored
    · subst first
      obtain rfl | ⟨⟨e, there, at'⟩, -⟩ := moved
      · exact absurd (same ▸ later) (lt_irrefl _)
      have lower : y.2.hand < f'.last := at' ▸ below e there
      exact absurd (lt_trans later lower) (lt_irrefl _)
    exact waits y there settled later kept stored

/-- The digest with which the table settled a hand, the one in which the session busted or a later one. -/
def Known (start : Point n) (run : List (Ended n H)) (origin : H) (p : Point n) (digest : H) : Prop :=
  (p = start ∧ digest = origin) ∨ ∃ before, (before, ⟨p.1, some (digest, p.2)⟩) ∈ played start.2 run

structure Attends (start : Point n) (run : List (Ended n H)) (origin : H) (heard : List (Reported n H)) (s0 : Session n H)
    (p : Point n) (s : Session n H) : Prop where
  trails : Trails heard s0 s
  running : s.terminal = none
  claims : ∀ seat claim, s.endClaims seat = some claim → (remaining s0.departed claim.2).length < 2
  follows : s.followedAt = some p
  place : ∃ rest, Standing s0.departed start run p rest
  held : ∃ digest, s.endedHand = some p.1 ∧ s.endedDigest = some digest ∧ s.endedStacks = some p.2 ∧
    Known start run origin p digest
  honest : Honest start run s.followReports
  stored : ∀ x ∈ played start.2 run, x.2.report ≠ none → p.1 < x.2.hand → ∀ seat, (seat, x.2.message) ∈ heard →
    Ledger.Stored s.followReports x.2.hand seat
  waits : Waits s0.departed start run p s.followReports

structure Over (start : Point n) (run : List (Ended n H)) (s : Session n H) : Prop where
  terminal : s.terminal = some .endedNormal
  follows : s.followedAt = some (reached start run)

omit [DecidableEq H] in
theorem finishFollowed_over (running : s.terminal = none)
    (claims : ∀ seat claim, s.endClaims seat = some claim → (remaining departed claim.2).length < 2)
    (follows : s.followedAt = some p) (place : Standing departed start run p rest) :
    s.finishFollowed = s ∨ Over start run s.finishFollowed := by
  have track := finishFollowed_track s
  unfold finishFollowed at track ⊢
  have found : s.followed.or s.settledAt = some p := follows
  rw [found] at track ⊢
  dsimp only at track ⊢
  split
  · rename_i told
    rw [if_pos told] at track
    obtain ⟨-, seat, claim⟩ := told
    unfold finishSession at track ⊢
    split
    · exact .inl rfl
    rename_i on
    rw [if_neg on] at track
    have shut : rest = [] := by
      cases place.onward with
      | nil => rfl
      | cons later two => exact absurd two (Nat.not_le.mpr (claims seat p claim))
    refine .inr ⟨by simp [terminate, running], (followedAt_of_track track).2.trans ?_⟩
    rw [follows, ← place.ends, shut]
    rfl
  exact .inl rfl

omit [DecidableEq H] in
theorem Attends.still {s' : Session n H} (h : Attends start run origin heard s0 p s) (same : s'.track = s.track)
    (running : s'.terminal = none) (out : s'.eliminated = true) (claims : s'.endClaims = s.endClaims)
    (ended : (s'.endedHand, s'.endedDigest, s'.endedStacks) = (s.endedHand, s.endedDigest, s.endedStacks)) :
    Attends start run origin heard s0 p s' := by
  obtain ⟨trails, at'⟩ := h.trails.still same fun _ => out
  simp only [Prod.mk.injEq] at ended
  simp only [track, Prod.mk.injEq] at same
  exact ⟨trails, running, claims ▸ h.claims, at'.trans h.follows, h.place, by rw [ended.1, ended.2.1, ended.2.2]; exact h.held,
    same.2.1 ▸ h.honest, same.2.1 ▸ h.stored, same.2.1 ▸ h.waits⟩

omit [DecidableEq H] in
@[simp]
theorem deferredHand_message (e : Ended n H) : deferredHand e.message = some e.hand := by
  obtain ⟨hand, report⟩ := e
  cases report <;> rfl

omit [DecidableEq H] in
theorem Attends.more (h : Attends start run origin heard s0 p s)
    (behind : ∀ hand, deferredHand m.2 = some hand → hand ≤ p.1) : Attends start run origin (heard ++ [m]) s0 p s := by
  refine { h with trails := h.trails.more fun m' => mem_append_left [m], stored := fun x there settled later seat told => ?_ }
  obtain told | new := List.mem_append.mp told
  · exact h.stored x there settled later seat told
  obtain rfl := List.mem_singleton.mp new
  exact absurd (behind _ (deferredHand_message x.2)) (Nat.not_le.mpr later)

omit [DecidableEq H] in
theorem settledReport_counts {digest : H} {chips : Fin n → ℤ} (counts : ∀ i, 0 ≤ chips i) :
    settledReport digest (some chips) = ⟨digest, some chips⟩ := by
  simp [settledReport, Option.filter, counts]

omit [DecidableEq H] in
theorem kept_said (runs : TableRun departed start.1 start.2 run) (counts : ∀ i, 0 ≤ start.2 i) (member : x ∈ played start.2 run)
    {r : Report n H} (kept : x.2.kept = some r) :
    ∃ digest chips, x.2.message = .handSettled x.2.hand digest chips ∧ settledReport digest chips = r := by
  obtain ⟨before, hand, report⟩ := x
  obtain ⟨⟨digest, settled⟩, rfl, rfl⟩ := Option.map_eq_some_iff.mp kept
  exact ⟨digest, some settled, rfl, settledReport_counts ((runs.dealt counts member).2.2 digest settled rfl).1⟩

theorem noteReport_honest (runs : TableRun departed start.1 start.2 run)
    (honest : Honest start run ledger) (member : x ∈ played start.2 run) :
    Honest start run (noteReport x.2.hand seat x.2.kept ledger) := by
  intro entry there
  obtain old | ⟨same, each⟩ := Ledger.mem_noteReport there
  · exact honest entry old
  refine ⟨x, member, same.symm, fun seat' r kept => ?_⟩
  obtain ⟨-, rfl⟩ | ⟨kept', old, kept⟩ := each seat' r kept
  · rfl
  obtain ⟨y, there, hand, alike⟩ := honest _ old
  rw [runs.unique member there hand.symm]
  exact alike seat' r kept

theorem followSettled_attends (runs : TableRun s0.departed start.1 start.2 run) (counts : ∀ i, 0 ≤ start.2 i)
    (h : Attends start run origin heard s0 p s) (member : x ∈ played start.2 run) (dealt : seat ∈ remaining s0.departed x.1)
    (later : p.1 < x.2.hand) (near : x.2.hand ≤ p.1 + followAhead) :
    Over start run (s.followSettled seat x.2.hand x.2.kept) ∨
      ∃ p', Attends start run origin (heard ++ [(seat, x.2.message)]) s0 p' (s.followSettled seat x.2.hand x.2.kept) := by
  obtain ⟨rest, place⟩ := h.place
  have departed := h.trails.departed
  have trails : Trails (heard ++ [(seat, x.2.message)]) s0 (s.followSettled seat x.2.hand x.2.kept) := by
    refine (followSettled_trails (h.trails.more fun m' => mem_append_left _) h.running h.follows fun r kept => ?_).1
    obtain ⟨digest, chips, said, same⟩ := kept_said runs counts member kept
    exact ⟨digest, chips, mem_append_right _ (by rw [said]; exact mem_singleton_self _), same⟩
  have ledger : Honest start run (noteReport x.2.hand seat x.2.kept s.followReports) := noteReport_honest runs h.honest member
  have stored : ∀ y ∈ played start.2 run, y.2.report ≠ none → p.1 < y.2.hand → ∀ seat', (seat', y.2.message) ∈ heard ++ [(seat, x.2.message)] →
      Ledger.Stored (noteReport x.2.hand seat x.2.kept s.followReports) y.2.hand seat' := fun y there settled later seat' told => by
    apply Ledger.noteReport_stored
    obtain told | new := List.mem_append.mp told
    · exact .inr (h.stored y there settled later seat' told)
    obtain ⟨rfl, same⟩ := Prod.mk.inj (List.mem_singleton.mp new)
    exact .inl ⟨congrArg Ended.hand (Ended.message_inj same), rfl⟩
  obtain ⟨ignored, -⟩ | ⟨-, rest'⟩ := followSettled_cases h.follows seat x.2.hand x.2.kept
  · refine absurd ⟨?_, ?_, later, near⟩ ignored
    · rw [active, departed]
      exact place.two member later
    rw [active, departed]
    exact place.remains member later dealt
  have above : ∀ entry ∈ noteReport x.2.hand seat x.2.kept s.followReports, p.1 < entry.1 := fun entry there => by
    obtain old | ⟨same, -⟩ := Ledger.mem_noteReport there
    · exact h.trails.above p h.follows entry old
    rw [same]
    exact later
  obtain ⟨f, rest1, ran, place1, moved, waits⟩ := followAll_honest (f := ⟨p.1, p.2, none⟩) counts runs place
    (Ledger.noteReport_sorted h.trails.sorted) above ledger
  rw [← departed] at ran
  obtain ⟨f', ran', same⟩ := rest'.resolve_left fun ⟨failed, _⟩ => by
    have := failed.symm.trans ran
    cases this
  obtain rfl : f' = f := Option.some.inj (ran'.symm.trans ran)
  rw [same] at trails ⊢
  obtain ⟨idle, same⟩ | ⟨hand, digest, chips, seats, agreed, same⟩ := followTo_cases f' (s.noted p seat x.2.hand x.2.kept)
  · rw [same] at trails ⊢
    obtain rfl | ⟨-, digest, seats, before, agreed, -⟩ := moved
    · exact .inr ⟨p, trails, h.running, h.claims, rfl, h.place, h.held, ledger, stored, waits⟩
    rw [idle] at agreed
    cases agreed
  rw [same] at trails ⊢
  obtain rfl | ⟨⟨entry, there, at'⟩, digest', seats', before, agreed', known⟩ := moved
  · cases agreed
  rw [agreed] at agreed'
  obtain ⟨rfl, rfl, rfl, rfl⟩ := by simpa only [Option.some.injEq, Prod.mk.injEq] using agreed'
  rcases finishFollowed_over (s := (s.noted p seat x.2.hand x.2.kept).moved f' _ digest _ seats) (p := f'.point)
    h.running h.claims rfl place1 with stays | shut
  · rw [stays] at trails ⊢
    refine .inr ⟨f'.point, trails, h.running, h.claims, rfl, ⟨rest1, place1⟩, ⟨digest, rfl, rfl, rfl, .inr ⟨before, known⟩⟩,
      fun e member => ledger e (List.mem_filter.mp member).1, fun y played settled after seat' told => ?_,
      fun y there settled after kept stored => waits y there settled after kept (List.mem_filter.mp stored).1⟩
    have before : p.1 < f'.last := at' ▸ above entry there
    obtain ⟨kept, there, some⟩ := stored y played settled (lt_trans before after) seat' told
    exact ⟨kept, List.mem_filter.mpr ⟨there, decide_eq_true after⟩, some⟩
  exact .inl shut

theorem followSettled_behind {hand : ℕ} {report : Option (Report n H)} (h : Attends start run origin heard s0 p s)
    (behind : hand ≤ p.1) : Attends start run origin heard s0 p (s.followSettled seat hand report) := by
  obtain ⟨-, same⟩ | ⟨counted, -⟩ := followSettled_cases h.follows seat hand report
  · rw [same]
    refine { h with trails := ?_, follows := rfl }
    refine ⟨h.trails.departed, h.trails.settledAt, fun _ => h.trails.out h.running, h.trails.sorted, fun q found => ?_, h.trails.said⟩
    cases found
    exact h.trails.above p h.follows
  exact absurd counted.2.2.1 (Nat.not_lt.mpr behind)

variable (env : SessionEnv n H)

theorem handleMessage_held {digest : H} (h : Attends start run origin heard s0 p s)
    (held : s.endedDigest = some digest) (at' : s.endedHand = some p.1) (chips : s.endedStacks = some p.2) :
    Over start run (s.handleMessage env seat (.handSettled p.1 digest (some p.2))) ∨
      Attends start run origin heard s0 p (s.handleMessage env seat (.handSettled p.1 digest (some p.2))) := by
  obtain ⟨rest, place⟩ := h.place
  have same : s.endedReport = some (settledReport digest (some p.2)) := by
    rw [settledReport_counts place.counts, endedReport, held, chips]
    rfl
  have agrees : Attends start run origin heard s0 p { s with endedAgreed := insert seat s.endedAgreed } :=
    h.still rfl h.running (h.trails.out h.running) rfl rfl
  rw [handleMessage_settled env h.running (h.trails.out h.running), if_pos at', ← same]
  split
  · exact .inr h
  rw [if_neg (not_not.mpr rfl)]
  split
  · obtain stays | shut := finishFollowed_over agrees.running agrees.claims agrees.follows place
    · rw [stays]
      exact .inr agrees
    exact .inl shut
  exact .inr h

/-- What the honest seats say: how the hand in which the session busted was settled, and how each hand
they were dealt into ended. -/
def Says (departed : Finset (Fin n)) (start : Point n) (run : List (Ended n H)) (origin : H) (m : Reported n H) : Prop :=
  m.2 = .handSettled start.1 origin (some start.2) ∨
    ∃ x ∈ played start.2 run, m.1 ∈ remaining departed x.1 ∧ m.2 = x.2.message

theorem handleMessage_attends (runs : TableRun s0.departed start.1 start.2 run) (counts : ∀ i, 0 ≤ start.2 i)
    (h : Attends start run origin heard s0 p s) (said : Says s0.departed start run origin m)
    (near : ∀ hand, deferredHand m.2 = some hand → hand ≤ p.1 + followAhead) :
    Over start run (s.handleMessage env m.1 m.2) ∨
      ∃ p', Attends start run origin (heard ++ [m]) s0 p' (s.handleMessage env m.1 m.2) := by
  obtain ⟨seat, message⟩ := m
  obtain ⟨digest, at', held, chips, known⟩ := h.held
  have out := h.trails.out h.running
  have again (same : message = .handSettled p.1 digest (some p.2)) : Over start run (s.handleMessage env seat message) ∨
      ∃ p', Attends start run origin (heard ++ [(seat, message)]) s0 p' (s.handleMessage env seat message) := by
    subst same
    have more := h.more (m := (seat, .handSettled p.1 digest (some p.2))) fun hand same => (Option.some.inj same).ge
    exact (handleMessage_held env more held at' chips).imp_right fun h => ⟨p, h⟩
  obtain rfl | ⟨x, member, dealt, rfl⟩ := said
  · obtain ⟨rfl, rfl⟩ | ⟨before, there⟩ := known
    · exact again rfl
    have behind := runs.later there
    dsimp only at behind ⊢
    rw [handleMessage_settled env h.running out, if_neg (by rw [at', Option.some.injEq]; omega)]
    exact .inr ⟨p, followSettled_behind (h.more fun hand same => (Option.some.inj same) ▸ behind.le) behind.le⟩
  dsimp only at dealt near ⊢
  have apart (other : x.2.hand ≠ p.1) : s.handleMessage env seat x.2.message = s.followSettled seat x.2.hand x.2.kept := by
    have elsewhere : s.endedHand ≠ some x.2.hand := by
      rw [at', ne_eq, Option.some.injEq]
      exact other.symm
    obtain ⟨before, hand, report⟩ := x
    cases report with
    | none => exact (handleMessage_void env h.running out seat (some hand)).trans (if_neg fun both => elsewhere both.2)
    | some r =>
      obtain ⟨digest', settled⟩ := r
      refine (handleMessage_settled env h.running out seat hand digest' (some settled)).trans ((if_neg elsewhere).trans ?_)
      rw [settledReport_counts ((runs.dealt counts member).2.2 digest' settled rfl).1]
      rfl
  obtain later | same | behind := lt_trichotomy p.1 x.2.hand
  · rw [apart later.ne']
    exact followSettled_attends runs counts h member dealt later (near _ (deferredHand_message x.2))
  · obtain ⟨rfl, rfl⟩ | ⟨before, there⟩ := known
    · exact absurd (runs.later member) (by rw [← same]; exact lt_irrefl _)
    obtain rfl := runs.unique member there same.symm
    exact again rfl
  rw [apart behind.ne]
  refine .inr ⟨p, followSettled_behind (h.more fun hand same => ?_) behind.le⟩
  rw [deferredHand_message] at same
  exact (Option.some.inj same) ▸ behind.le

/-- A session whose table goes on after the hand it busted in, which it has settled with this digest. Of
the match's end it has heard nothing, or only where one seat at most is left. -/
structure Holds (start : Point n) (origin : H) (s : Session n H) : Prop where
  running : s.terminal = none
  counts : ∀ i, 0 ≤ start.2 i
  hand : s.endedHand = some start.1
  digest : s.endedDigest = some origin
  chips : s.endedStacks = some start.2
  claims : ∀ seat claim, s.endClaims seat = some claim → (remaining s.departed claim.2).length < 2

def InWindow (messages : List (Reported n H)) (s : Session n H) : Prop :=
  ∀ before m, before ++ [m] <+: messages → ∀ p, (s.hear env before).followedAt = some p →
    ∀ hand, deferredHand m.2 = some hand → hand ≤ p.1 + followAhead

theorem hear_attends {messages : List (Reported n H)} (busted : Busted start s) (holds : Holds start origin s)
    (runs : TableRun s.departed start.1 start.2 run) (said : ∀ m ∈ messages, Says s.departed start run origin m)
    (near : InWindow env messages s) :
    Over start run (s.hear env messages) ∨ ∃ p, Attends start run origin messages s p (s.hear env messages) := by
  induction messages using reverseRecOn with
  | nil =>
    have follows : s.followedAt = some start := by rw [Session.followedAt, busted.followed, busted.settledAt]; rfl
    refine .inr ⟨start, busted.trails, holds.running, holds.claims, follows, ⟨run, .refl runs holds.counts⟩,
      ⟨origin, holds.hand, holds.digest, holds.chips, .inl ⟨rfl, rfl⟩⟩, ?_, by simp, ?_⟩
    · show Honest start run s.followReports
      rw [busted.reports]
      intro m member
      cases member
    show Waits s.departed start run start s.followReports
    rw [busted.reports]
    simp [Waits]
  | append_singleton messages m ih =>
    have before := ih (fun m' there => said m' (mem_append_left _ there))
      fun before m' first => near before m' (first.trans (prefix_append _ _))
    rw [hear_concat]
    obtain shut | ⟨p, attends⟩ := before
    · left
      have same : (s.hear env messages).handleMessage env m.1 m.2 = s.hear env messages := by
        simp [handleMessage, shut.terminal]
      rwa [same]
    exact handleMessage_attends env runs holds.counts attends (said m (by simp))
      (near messages m prefix_rfl p attends.follows)

omit [DecidableEq H] in
theorem Attends.complete (h : Attends start run origin heard s0 p s)
    (all : ∀ x ∈ played start.2 run, x.2.report ≠ none → ∀ seat ∈ remaining s0.departed x.1, (seat, x.2.message) ∈ heard) :
    s.followedAt = some (reached start run) := by
  obtain ⟨rest, place⟩ := h.place
  rw [h.follows, ← place.ends, reached_of_waiting fun e next => ?_]
  by_contra settled
  have member := place.within _ next
  have later := place.onward.later next
  have stored : ∀ seat ∈ remaining s0.departed p.2, Ledger.Stored s.followReports e.hand seat := fun seat playing =>
    h.stored _ member settled later seat (all _ member settled seat playing)
  have two := place.two member later
  obtain ⟨seat, playing⟩ := exists_mem_of_length_pos (l := remaining s0.departed p.2) (by omega)
  obtain ⟨kept, there, -⟩ := stored seat playing
  obtain ⟨seat', playing', missing⟩ := h.waits _ member settled later kept there
  exact (stored seat' playing').kept h.trails.sorted there missing

/-- A busted session follows the table only from a hand to a later one that every seat still playing has
reported alike, and to the end of an honest run, in whatever order it is reported. -/
theorem busted_follows_alike (busted : Busted start s) :
    (∀ messages m, (∀ m' ∈ messages ++ [m], IsReport m'.2) → ∃ p q, (s.hear env messages).followedAt = some p ∧
      (s.hear env (messages ++ [m])).followedAt = some q ∧ Relation.ReflTransGen (Advance s.departed (messages ++ [m])) p q) ∧
    ∀ origin run messages, Holds start origin s → TableRun s.departed start.1 start.2 run →
      (∀ m ∈ messages, Says s.departed start run origin m) →
      (∀ x ∈ played start.2 run, x.2.report ≠ none → ∀ seat ∈ remaining s.departed x.1, (seat, x.2.message) ∈ messages) →
      InWindow env messages s →
      (s.hear env messages).terminal ≠ some .abortedProtocol ∧ (s.hear env messages).followedAt = some (reached start run) := by
  refine ⟨fun messages m reports => ?_, fun origin run messages holds runs said all near => ?_⟩
  · have trails := (hear_trails env busted messages fun m' there => reports m' (mem_append_left _ there)).more
      fun m' (there : m' ∈ messages) => mem_append_left [m] there
    obtain ⟨p, at'⟩ := trails.followedAt busted.settledAt
    obtain ⟨-, q, moved, chain⟩ := handleMessage_trails env trails (reports m (by simp)) (mem_append_right _ (mem_singleton_self m)) at'
    exact ⟨p, q, at', by rw [hear_concat]; exact moved, chain⟩
  obtain shut | ⟨p, attends⟩ := hear_attends env busted holds runs said near
  · exact ⟨by rw [shut.terminal]; decide, shut.follows⟩
  exact ⟨by rw [attends.running]; decide, attends.complete all⟩

namespace Sample

/-- The session of a seat that has busted in the first hand, at a table that one more seat may have left. -/
def busted (departed : Finset (Fin 4)) : Session 4 ℕ :=
  { localSeat := 3, departed, handNo := 1
    replica := some (Replica.init 1 0 ![100, 100, 100, 0] 1 2 .noLimit)
    handResult := some ⟨[], none, ∅, [], [], ∅, ∅, false⟩
    endedHand := some 1, endedDigest := some 5, endedStacks := some ![100, 100, 100, 0]
    endedSeats := Finset.univ, endedAgreed := {3} }

def bust : Point 4 := (1, ![100, 100, 100, 0])

theorem busted_all : Busted bust (busted ∅) := ⟨by decide +kernel, rfl, rfl, rfl⟩

theorem busted_left : Busted bust (busted {2}) := ⟨by decide +kernel, rfl, rfl, rfl⟩

theorem holds : Holds bust 5 (busted ∅) := ⟨rfl, by decide, rfl, rfl, rfl, nofun⟩

def peer : SessionEnv 4 ℕ := ⟨fun _ => 0, fun _ _ => true⟩

/-- The second hand is voided, the third busts seat 2, and the fourth is between the two that are left. -/
def hands : List (Ended 4 ℕ) := [⟨2, none⟩, ⟨3, some (6, ![150, 150, 0, 0])⟩, ⟨4, some (7, ![200, 100, 0, 0])⟩]

theorem hands_run : TableRun (busted ∅).departed bust.1 bust.2 hands := by
  refine .cons (by decide) (by decide) nofun (.cons (by decide) (by decide +kernel) ?_ (.cons (by decide) (by decide +kernel) ?_ .nil)) <;>
  · rintro digest settled same
    obtain ⟨-, rfl⟩ := Prod.mk.inj (Option.some.inj same)
    exact ⟨by decide, by decide +kernel⟩

def reports : List (Reported 4 ℕ) :=
  [(0, .handSettled 4 7 (some ![200, 100, 0, 0])), (1, .handSettled 4 7 (some ![200, 100, 0, 0])),
    (2, .handSettled 3 6 (some ![150, 150, 0, 0])), (0, .handSettled 1 5 (some ![100, 100, 100, 0])),
    (1, .handSettled 3 6 (some ![150, 150, 0, 0])), (2, .handVoid (some 2)),
    (1, .handSettled 3 6 (some ![150, 150, 0, 0])), (0, .handSettled 3 6 (some ![150, 150, 0, 0]))]

theorem reports_near : InWindow peer reports (busted ∅) := by
  intro before m first p _ hand of
  have there : m ∈ reports := first.subset (mem_append_right _ (mem_singleton_self m))
  have low : ∀ m ∈ reports, ∀ hand ∈ deferredHand m.2, hand ≤ followAhead := by decide +kernel
  exact le_trans (low m there hand of) (Nat.le_add_left _ _)

theorem reports_said : ∀ m ∈ reports, Says (busted ∅).departed bust hands 5 m := by
  unfold Says
  decide +kernel

end Sample

theorem busted_follows_alike_sample :
    ((Sample.busted ∅).hear Sample.peer Sample.reports).followedAt = some (4, ![200, 100, 0, 0]) :=
  ((busted_follows_alike Sample.peer Sample.busted_all).2 5 Sample.hands Sample.reports Sample.holds Sample.hands_run
    Sample.reports_said (by decide +kernel) Sample.reports_near).2

/-- Seat 2 has left with its chips, and the table is followed without a word from it. -/
theorem busted_follows_without : ¬∀ (s : Session 4 ℕ) (start q : Point 4) (messages : List (Reported 4 ℕ)), Busted start s →
    (∀ m ∈ messages, IsReport m.2) → (s.hear Sample.peer messages).followedAt = some q → q ≠ start →
    ∀ seat, 0 < start.2 seat → ∃ m ∈ messages, m.1 = seat := by
  intro all
  have heard := all (Sample.busted {2}) Sample.bust (2, ![120, 80, 100, 0])
    [(0, .handSettled 2 6 (some ![120, 80, 100, 0])), (1, .handSettled 2 6 (some ![120, 80, 100, 0]))]
    Sample.busted_left (by simp [IsReport]) (by decide +kernel) (by decide) 2 (by decide)
  revert heard
  decide

end Session

end Holdem
