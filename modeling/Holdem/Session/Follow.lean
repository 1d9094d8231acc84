import Holdem.Session.Peer

/-!
A seat that has busted plays no further hand and follows the table by the reports of the seats that play
on, which come in any order.
-/

namespace Holdem

open List Relation
open Function (update update_of_ne update_self)

variable {n : ℕ} {H : Type} [DecidableEq H]

abbrev Kept (n : ℕ) (H : Type) := Fin n → List (Option (Report n H))

abbrev Point (n : ℕ) := ℕ × (Fin n → ℤ)

abbrev Reported (n : ℕ) (H : Type) := Fin n × PeerMessage n H

theorem mem_remaining {departed : Finset (Fin n)} {chips : Fin n → ℤ} {i : Fin n} :
    i ∈ remaining departed chips ↔ 0 < chips i ∧ i ∉ departed := by
  simp [remaining, activeSeats, and_comm]

namespace Ledger

variable {ledger : List (ℕ × Kept n H)} {hand : ℕ} {seat : Fin n} {report : Option (Report n H)}
  {entry : ℕ × Kept n H} {seat' : Fin n}

def Sorted (ledger : List (ℕ × Kept n H)) : Prop := ledger.Pairwise fun a b => a.1 < b.1

def Stored (ledger : List (ℕ × Kept n H)) (hand : ℕ) (seat : Fin n) : Prop := ∃ kept, (hand, kept) ∈ ledger ∧ kept seat ≠ []

theorem mem_keepTwo {α : Type} [DecidableEq α] {x y : α} {kept : List α} (member : x ∈ keepTwo y kept) : x = y ∨ x ∈ kept := by
  unfold keepTwo at member
  split at member
  · obtain old | new := mem_append.mp member
    · exact .inr old
    exact .inl (mem_singleton.mp new)
  exact .inr member

theorem keepTwo_ne {α : Type} [DecidableEq α] (y : α) (kept : List α) : keepTwo y kept ≠ [] := by
  unfold keepTwo
  split
  · simp
  rename_i full
  rintro rfl
  simp at full

theorem mem_noteReport (member : entry ∈ Session.noteReport hand seat report ledger) :
    entry ∈ ledger ∨ entry.1 = hand ∧ ∀ s x, x ∈ entry.2 s → s = seat ∧ x = report ∨ ∃ kept, (hand, kept) ∈ ledger ∧ x ∈ kept s := by
  have fresh : ∀ s x, x ∈ update (fun _ => []) seat [report] s → s = seat ∧ x = report := fun s x there => by
    by_cases same : s = seat
    · subst same
      exact ⟨rfl, by simpa using there⟩
    simp [update_of_ne same] at there
  induction ledger with
  | nil =>
    obtain rfl := mem_singleton.mp member
    exact .inr ⟨rfl, fun s x there => .inl (fresh s x there)⟩
  | cons first rest ih =>
    obtain ⟨h, kept⟩ := first
    unfold Session.noteReport at member
    split at member
    · rename_i same
      subst same
      obtain rfl | later := mem_cons.mp member
      · refine .inr ⟨rfl, fun s x there => ?_⟩
        by_cases same : s = seat
        · subst same
          simp only [update_self] at there
          obtain rfl | old := mem_keepTwo there
          · exact .inl ⟨rfl, rfl⟩
          exact .inr ⟨kept, mem_cons_self, old⟩
        simp only [update_of_ne same] at there
        exact .inr ⟨kept, mem_cons_self, there⟩
      exact .inl (mem_cons_of_mem _ later)
    split at member
    · obtain rfl | later := mem_cons.mp member
      · exact .inr ⟨rfl, fun s x there => .inl (fresh s x there)⟩
      exact .inl later
    obtain rfl | later := mem_cons.mp member
    · exact .inl mem_cons_self
    obtain old | ⟨same, each⟩ := ih later
    · exact .inl (mem_cons_of_mem _ old)
    refine .inr ⟨same, fun s x there => (each s x there).imp id ?_⟩
    rintro ⟨kept', there, old⟩
    exact ⟨kept', mem_cons_of_mem _ there, old⟩

theorem noteReport_sorted (sorted : Sorted ledger) : Sorted (Session.noteReport hand seat report ledger) := by
  induction ledger with
  | nil => exact pairwise_singleton _ _
  | cons first rest ih =>
    obtain ⟨h, kept⟩ := first
    obtain ⟨below, sorted⟩ := pairwise_cons.mp sorted
    unfold Session.noteReport
    split
    · exact pairwise_cons.mpr ⟨below, sorted⟩
    rename_i other
    split
    · rename_i before
      refine pairwise_cons.mpr ⟨fun entry member => ?_, pairwise_cons.mpr ⟨below, sorted⟩⟩
      obtain rfl | later := mem_cons.mp member
      · exact before
      exact lt_trans before (below entry later)
    refine pairwise_cons.mpr ⟨fun entry member => ?_, ih sorted⟩
    obtain old | ⟨same, -⟩ := mem_noteReport member
    · exact below entry old
    rw [same]
    omega

omit [DecidableEq H] in
theorem Stored.cons (h : Stored ledger hand seat) : Stored (entry :: ledger) hand seat := by
  obtain ⟨kept, there, some⟩ := h
  exact ⟨kept, mem_cons_of_mem _ there, some⟩

theorem update_keepTwo {kept : Kept n H} (some : seat' = seat ∨ kept seat' ≠ []) :
    update kept seat (keepTwo report (kept seat)) seat' ≠ [] := by
  by_cases same : seat' = seat
  · subst same
    rw [update_self]
    exact keepTwo_ne _ _
  rw [update_of_ne same]
  exact some.resolve_left same

theorem noteReport_stored {hand' : ℕ} (old : hand' = hand ∧ seat' = seat ∨ Stored ledger hand' seat') :
    Stored (Session.noteReport hand seat report ledger) hand' seat' := by
  have fresh : update (fun _ => []) seat [report] seat ≠ [] := by simp
  induction ledger with
  | nil =>
    obtain ⟨rfl, rfl⟩ := old.resolve_right fun ⟨_, there, _⟩ => by cases there
    exact ⟨_, mem_singleton_self _, fresh⟩
  | cons first rest ih =>
    obtain ⟨h, kept⟩ := first
    unfold Session.noteReport
    split
    · rename_i same
      subst same
      obtain ⟨rfl, rfl⟩ | ⟨kept', there, some⟩ := old
      · exact ⟨_, mem_cons_self, update_keepTwo (.inl rfl)⟩
      obtain first | later := mem_cons.mp there
      · cases first
        exact ⟨_, mem_cons_self, update_keepTwo (.inr some)⟩
      exact ⟨kept', mem_cons_of_mem _ later, some⟩
    split
    · obtain ⟨rfl, rfl⟩ | stored := old
      · exact ⟨_, mem_cons_self, fresh⟩
      exact stored.cons
    obtain same | ⟨kept', there, some⟩ := old
    · exact (ih (.inl same)).cons
    obtain first | later := mem_cons.mp there
    · exact ⟨kept', first ▸ mem_cons_self, some⟩
    exact (ih (.inr ⟨kept', later, some⟩)).cons

omit [DecidableEq H] in
theorem Sorted.unique (sorted : Sorted ledger) {kept kept' : Kept n H} (there : (hand, kept) ∈ ledger)
    (there' : (hand, kept') ∈ ledger) : kept = kept' := by
  induction ledger with
  | nil => cases there
  | cons first rest ih =>
    obtain ⟨below, sorted⟩ := pairwise_cons.mp sorted
    rcases mem_cons.mp there with rfl | later <;> rcases mem_cons.mp there' with same | later'
    · exact (Prod.mk.inj same).2.symm
    · exact absurd (below _ later') (lt_irrefl _)
    · exact absurd (below _ later) (by rw [← same]; exact lt_irrefl _)
    exact ih sorted later later'

omit [DecidableEq H] in
theorem Stored.kept (h : Stored ledger hand seat) (sorted : Sorted ledger) {kept : Kept n H} (there : (hand, kept) ∈ ledger) :
    kept seat ≠ [] := by
  obtain ⟨kept', there', some⟩ := h
  exact sorted.unique there' there ▸ some

end Ledger

/-- A step from a hand to a later one that every seat still playing has reported, with the same digest
and the same chips. -/
structure Advance (departed : Finset (Fin n)) (heard : List (Reported n H)) (a b : Point n) : Prop where
  later : a.1 < b.1
  agreed : ∃ digest, ∀ seat ∈ remaining departed a.2, (seat, .handSettled b.1 digest (some b.2)) ∈ heard
  counts : ∀ i, 0 ≤ b.2 i
  total : ∑ i, b.2 i = ∑ i, a.2 i
  nothing : ∀ i, a.2 i = 0 → b.2 i = 0

namespace Session

variable {departed : Finset (Fin n)} {hand : ℕ} {kept : Kept n H} {f f' : Following n H} {heard : List (Reported n H)}
  {s s0 : Session n H} {seat : Fin n} {report : Option (Report n H)} {start : Point n} {s' : Session n H}

def Following.point (f : Following n H) : Point n := (f.last, f.known)

theorem followHand_cases (ran : followHand departed hand kept f = some f') : f' = f ∨ ∃ digest settled,
      f' = ⟨hand, settled, some (hand, digest, settled, (remaining departed f.known).toFinset)⟩ ∧
      credible f.known settled = true ∧
      ∀ seat ∈ remaining departed f.known, some ⟨digest, some settled⟩ ∈ kept seat := by
  unfold followHand at ran
  dsimp only at ran
  split at ran
  · cases ran
  split at ran
  · exact .inl (Option.some.inj ran).symm
  rename_i complete
  split at ran
  · rename_i digest settled got
    split at ran
    · rename_i fits
      refine .inr ⟨digest, settled, (Option.some.inj ran).symm, fits, fun seat playing => ?_⟩
      have reported : kept seat ≠ [] := by
        simpa using all_eq_true.mp (not_not.mp complete) seat playing
      obtain ⟨x, member⟩ := exists_mem_of_ne_nil _ reported
      have among : x ∈ ((remaining departed f.known).flatMap kept).dedup :=
        mem_dedup.mpr (mem_flatMap.mpr ⟨seat, playing, member⟩)
      rw [got] at among
      rwa [← mem_singleton.mp among]
    exact .inl (Option.some.inj ran).symm
  exact .inl (Option.some.inj ran).symm

omit [DecidableEq H] in
theorem settledReport_some {digest digest' : H} {chips : Option (Fin n → ℤ)} {settled : Fin n → ℤ}
    (h : settledReport digest chips = ⟨digest', some settled⟩) :
    digest = digest' ∧ chips = some settled ∧ ∀ i, 0 ≤ settled i := by
  obtain ⟨same, filtered⟩ := Report.mk.inj h
  obtain ⟨found, counts⟩ := Option.filter_eq_some_iff.mp filtered
  exact ⟨same, found, by simpa using counts⟩

def Heard (heard : List (Reported n H)) (ledger : List (ℕ × Kept n H)) : Prop :=
  ∀ entry ∈ ledger, ∀ seat report, some report ∈ entry.2 seat → ∃ digest chips,
    (seat, .handSettled entry.1 digest chips) ∈ heard ∧ settledReport digest chips = report

theorem followHand_advance (ran : followHand departed hand kept f = some f')
    (two : 2 ≤ (remaining departed f.known).length) (later : f.last < hand)
    (said : ∀ seat report, some report ∈ kept seat → ∃ digest chips,
      (seat, .handSettled hand digest chips) ∈ heard ∧ settledReport digest chips = report) :
    f' = f ∨ f'.last = hand ∧ Advance departed heard f.point f'.point := by
  obtain rfl | ⟨digest, settled, rfl, fits, each⟩ := followHand_cases ran
  · exact .inl rfl
  have reported : ∀ seat ∈ remaining departed f.known, (seat, .handSettled hand digest (some settled)) ∈ heard ∧
      ∀ i, 0 ≤ settled i := fun seat playing => by
    obtain ⟨digest', chips, there, same⟩ := said seat _ (each seat playing)
    obtain ⟨rfl, rfl, counts⟩ := settledReport_some same
    exact ⟨there, counts⟩
  obtain ⟨seat, playing⟩ := exists_mem_of_length_pos (l := remaining departed f.known) (by omega)
  simp only [credible, Bool.and_eq_true, decide_eq_true_eq] at fits
  exact .inr ⟨rfl, later, ⟨digest, fun seat playing => (reported seat playing).1⟩, (reported seat playing).2, fits.1, fits.2⟩

theorem followAll_advances {ledger : List (ℕ × Kept n H)} (sorted : Ledger.Sorted ledger)
    (above : ∀ entry ∈ ledger, f.last < entry.1) (said : Heard heard ledger)
    (ran : followAll departed ledger f = some f') : ReflTransGen (Advance departed heard) f.point f'.point := by
  induction ledger generalizing f with
  | nil =>
    cases ran
    exact .refl
  | cons entry rest ih =>
    obtain ⟨below, sorted⟩ := pairwise_cons.mp sorted
    have rested : Heard heard rest := fun e member => said e (mem_cons_of_mem _ member)
    unfold followAll at ran
    split at ran
    · cases ran
      exact .refl
    rename_i two
    obtain ⟨f1, passed, onward⟩ := Option.bind_eq_some_iff.mp ran
    rcases followHand_advance passed (by omega) (above entry mem_cons_self)
      (said entry mem_cons_self) with rfl | ⟨reached, advance⟩
    · exact ih sorted (fun e member => above e (mem_cons_of_mem _ member)) rested onward
    exact .head advance (ih sorted (fun e member => reached ▸ below e member) rested onward)

def followedAt (s : Session n H) : Option (Point n) := s.followed.or s.settledAt

/-- What only `_follow_settled` changes. -/
def track (s : Session n H) :=
  (s.followed, s.followReports, s.departed, s.handNo, s.replica, s.handResult, s.localSeat)

omit [DecidableEq H] in
theorem terminate_track (ending : Ending) (s : Session n H) : (s.terminate ending).track = s.track := by
  unfold terminate
  split <;> rfl

omit [DecidableEq H] in
theorem finishSession_track (chips : Fin n → ℤ) (s : Session n H) : (s.finishSession chips false).track = s.track := by
  unfold finishSession
  split
  · rfl
  exact terminate_track ..

omit [DecidableEq H] in
theorem finishFollowed_track (s : Session n H) : s.finishFollowed.track = s.track := by
  unfold finishFollowed
  split
  · rfl
  split
  · exact finishSession_track ..
  rfl

omit [DecidableEq H] in
theorem terminate_ended (ending : Ending) (s : Session n H) : (s.terminate ending).terminal ≠ none := by
  unfold terminate
  split
  · rename_i ended
    exact Option.isSome_iff_ne_none.mp ended
  exact Option.some_ne_none _

omit [DecidableEq H] in
theorem finishFollowed_running (running : s.finishFollowed.terminal = none) : s.finishFollowed = s := by
  unfold finishFollowed at running ⊢
  split at running
  · rfl
  split at running
  · rename_i shut
    rw [if_pos shut]
    unfold finishSession at running ⊢
    split at running
    · rename_i shut
      rw [if_pos shut]
    exact (terminate_ended _ _ running).elim
  rename_i on
  rw [if_neg on]

structure Trails (heard : List (Reported n H)) (s0 s : Session n H) : Prop where
  departed : s.departed = s0.departed
  settledAt : s.settledAt = s0.settledAt
  out : s.terminal = none → s.eliminated = true
  sorted : Ledger.Sorted s.followReports
  above : ∀ point, s.followedAt = some point → ∀ entry ∈ s.followReports, point.1 < entry.1
  said : Heard heard s.followReports

omit [DecidableEq H] in
theorem Trails.more {heard' : List (Reported n H)} (h : Trails heard s0 s) (more : ∀ m ∈ heard, m ∈ heard') :
    Trails heard' s0 s :=
  ⟨h.departed, h.settledAt, h.out, h.sorted, h.above, fun entry member seat report kept => by
    obtain ⟨digest, chips, there, same⟩ := h.said entry member seat report kept
    exact ⟨digest, chips, more _ there, same⟩⟩

omit [DecidableEq H] in
theorem followedAt_of_track (same : s'.track = s.track) :
    s'.settledAt = s.settledAt ∧ s'.followedAt = s.followedAt := by
  simp only [track, Prod.mk.injEq] at same
  obtain ⟨followed, -, -, hand, replica, result, -⟩ := same
  have settled : s'.settledAt = s.settledAt := by simp only [Session.settledAt, hand, replica, result]
  exact ⟨settled, by simp only [Session.followedAt, followed, settled]⟩

omit [DecidableEq H] in
theorem Trails.still (h : Trails heard s0 s) (same : s'.track = s.track)
    (out : s'.terminal = none → s'.eliminated = true) : Trails heard s0 s' ∧ s'.followedAt = s.followedAt := by
  obtain ⟨settled, at'⟩ := followedAt_of_track same
  simp only [track, Prod.mk.injEq] at same
  obtain ⟨-, reports, departed, -⟩ := same
  exact ⟨⟨departed.trans h.departed, settled.trans h.settledAt, out, reports ▸ h.sorted, by rw [at', reports]; exact h.above,
    reports ▸ h.said⟩, at'⟩

def Counts (point : Point n) (seat : Fin n) (hand : ℕ) (s : Session n H) : Prop :=
  2 ≤ (s.active point.2).length ∧ seat ∈ s.active point.2 ∧ point.1 < hand ∧ hand ≤ point.1 + followAhead

def noted (point : Point n) (seat : Fin n) (hand : ℕ) (report : Option (Report n H)) (s : Session n H) : Session n H :=
  { s with followed := some point, followReports := noteReport hand seat report s.followReports }

variable {point : Point n}

theorem followSettled_cases (at' : s.followedAt = some point) (seat : Fin n) (hand : ℕ) (report : Option (Report n H)) :
    ¬Counts point seat hand s ∧ s.followSettled seat hand report = { s with followed := some point } ∨
    Counts point seat hand s ∧
      (followAll s.departed (s.noted point seat hand report).followReports ⟨point.1, point.2, none⟩ = none ∧
          s.followSettled seat hand report = (s.noted point seat hand report).terminate .abortedProtocol ∨
        ∃ f, followAll s.departed (s.noted point seat hand report).followReports ⟨point.1, point.2, none⟩ = some f ∧
          s.followSettled seat hand report = (s.noted point seat hand report).followTo f) := by
  have found : s.followed.or s.settledAt = some point := at'
  unfold followSettled
  rw [found]
  obtain ⟨last, chips⟩ := point
  dsimp only
  split
  · rename_i ignored
    refine .inl ⟨fun ⟨two, playing, later, near⟩ => ?_, rfl⟩
    obtain few | other | far := ignored
    · exact absurd two (Nat.not_le.mpr few)
    · exact other playing
    exact far ⟨later, near⟩
  rename_i counted
  rw [not_or, not_or, not_not, not_not] at counted
  refine .inr ⟨⟨Nat.le_of_not_lt counted.1, counted.2.1, counted.2.2.1, counted.2.2.2⟩, ?_⟩
  split
  · rename_i disputed
    exact .inl ⟨disputed, rfl⟩
  rename_i f ran
  exact .inr ⟨f, ran, rfl⟩

def moved (f : Following n H) (hand : ℕ) (digest : H) (chips : Fin n → ℤ) (seats : Finset (Fin n)) (s : Session n H) :
    Session n H :=
  { s with
    followed := some f.point
    endedHand := some hand
    endedDigest := some digest
    endedStacks := some chips
    endedSeats := seats
    endedAgreed := seats
    followReports := s.followReports.filter fun kept => f.last < kept.1 }

omit [DecidableEq H] in
theorem followTo_cases (f : Following n H) (s : Session n H) :
    (f.agreed = none ∧ s.followTo f = s) ∨ ∃ hand digest chips seats, f.agreed = some (hand, digest, chips, seats) ∧
      s.followTo f = (s.moved f hand digest chips seats).finishFollowed := by
  unfold followTo
  split
  · exact .inl ⟨by assumption, rfl⟩
  exact .inr ⟨_, _, _, _, by assumption, rfl⟩

theorem followSettled_trails (h : Trails heard s0 s) (running : s.terminal = none) (at' : s.followedAt = some point)
    (new : ∀ r, report = some r → ∃ digest chips, (seat, .handSettled hand digest chips) ∈ heard ∧ settledReport digest chips = r) :
    Trails heard s0 (s.followSettled seat hand report) ∧ ∃ point',
      (s.followSettled seat hand report).followedAt = some point' ∧ ReflTransGen (Advance s0.departed heard) point point' := by
  have out := h.out running
  have base : Trails heard s0 { s with followed := some point } := by
    refine ⟨h.departed, h.settledAt, fun _ => out, h.sorted, fun p found => ?_, h.said⟩
    cases found
    exact h.above point at'
  obtain ⟨-, same⟩ | ⟨counts, rest⟩ := followSettled_cases at' seat hand report
  · rw [same]
    exact ⟨base, point, rfl, .refl⟩
  have noted : Trails heard s0 (s.noted point seat hand report) := by
    refine ⟨h.departed, h.settledAt, fun _ => out, Ledger.noteReport_sorted h.sorted, fun p found entry member => ?_,
      fun entry member seat' r kept => ?_⟩
    · cases found
      obtain old | ⟨same, -⟩ := Ledger.mem_noteReport member
      · exact h.above point at' entry old
      rw [same]
      exact counts.2.2.1
    obtain old | ⟨same, each⟩ := Ledger.mem_noteReport member
    · exact h.said entry old seat' r kept
    obtain ⟨rfl, is⟩ | ⟨kept', there, old⟩ := each seat' _ kept
    · rw [same]
      exact new r is.symm
    rw [same]
    exact h.said _ there seat' r old
  obtain ⟨-, same⟩ | ⟨f, ran, same⟩ := rest
  · rw [same]
    obtain ⟨trails, at''⟩ := noted.still (terminate_track .abortedProtocol _) fun none => absurd none (terminate_ended _ _)
    exact ⟨trails, point, at'', .refl⟩
  have chain := followAll_advances noted.sorted (noted.above point rfl) noted.said ran
  rw [same]
  obtain ⟨-, same⟩ | ⟨hand', digest, chips, seats, -, same⟩ := followTo_cases f (s.noted point seat hand report)
  · rw [same]
    exact ⟨noted, point, rfl, .refl⟩
  have moved : Trails heard s0 ((s.noted point seat hand report).moved f hand' digest chips seats) := by
    refine ⟨h.departed, h.settledAt, fun _ => out, noted.sorted.filter _, fun p found entry member => ?_,
      fun entry member => noted.said entry (mem_filter.mp member).1⟩
    cases found
    exact of_decide_eq_true (mem_filter.mp member).2
  obtain ⟨trails, at''⟩ := moved.still (finishFollowed_track _) fun none => by
    rw [finishFollowed_running none]
    exact out
  rw [same]
  exact ⟨trails, f.point, at'', h.departed ▸ chain⟩

variable (env : SessionEnv n H)

def IsReport : PeerMessage n H → Prop
  | .handSettled _ _ _ | .handVoid _ => True
  | _ => False

def hear (s : Session n H) (messages : List (Reported n H)) : Session n H :=
  messages.foldl (fun s m => s.handleMessage env m.1 m.2) s

theorem hear_concat (s : Session n H) (messages : List (Reported n H)) (m : Reported n H) :
    s.hear env (messages ++ [m]) = (s.hear env messages).handleMessage env m.1 m.2 := by
  simp [hear]

omit [DecidableEq H] in
theorem Trails.followedAt (h : Trails heard s0 s) (busted : s0.settledAt = some start) :
    ∃ point, s.followedAt = some point := by
  unfold Session.followedAt
  rw [h.settledAt, busted]
  cases s.followed with
  | none => exact ⟨start, rfl⟩
  | some point => exact ⟨point, rfl⟩

theorem handleMessage_settled (running : s.terminal = none) (out : s.eliminated = true) (seat : Fin n) (hand : ℕ) (digest : H)
    (chips : Option (Fin n → ℤ)) :
    s.handleMessage env seat (.handSettled hand digest chips) = if s.endedHand = some hand then
        if seat ∉ s.endedSeats then s
        else if some (settledReport digest chips) ≠ s.endedReport then s.settlementDisagrees
        else if seat ∉ s.endedAgreed then finishFollowed { s with endedAgreed := insert seat s.endedAgreed }
        else s
      else s.followSettled seat hand (some (settledReport digest chips)) := by
  simp [handleMessage, deliverHandMessage, onHandSettled, running, out]

theorem handleMessage_void (running : s.terminal = none) (out : s.eliminated = true) (seat : Fin n) (hand : Option ℕ) :
    s.handleMessage env seat (.handVoid hand) = if s.endedDigest.isSome ∧ s.endedHand = some (hand.getD s.handNo) then
        if seat ∈ s.endedSeats then s.settlementDisagrees else s
      else s.followSettled seat (hand.getD s.handNo) none := by
  simp [handleMessage, deliverHandMessage, onHandVoid, running, out]

theorem handleMessage_trails {message : PeerMessage n H}
    (h : Trails heard s0 s) (isReport : IsReport message) (there : (seat, message) ∈ heard) (at' : s.followedAt = some point) :
    Trails heard s0 (s.handleMessage env seat message) ∧ ∃ point',
      (s.handleMessage env seat message).followedAt = some point' ∧ ReflTransGen (Advance s0.departed heard) point point' := by
  have still : ∀ s' : Session n H, s'.track = s.track → (s'.terminal = none → s'.eliminated = true) →
      Trails heard s0 s' ∧ ∃ point', s'.followedAt = some point' ∧ ReflTransGen (Advance s0.departed heard) point point' := by
    intro s' same out
    obtain ⟨trails, at''⟩ := h.still same out
    exact ⟨trails, point, at''.trans at', .refl⟩
  have disputed := still s.settlementDisagrees (terminate_track ..) fun none => (terminate_ended _ _ none).elim
  cases running : s.terminal with
  | some ending =>
    have same : s.handleMessage env seat message = s := by simp [handleMessage, running]
    rw [same]
    exact still s rfl h.out
  | none =>
    have out := h.out running
    cases message with
    | sessionEnd hand winner chips => cases isReport
    | betAction hand seq action amount digest => cases isReport
    | handSettled hand digest chips =>
      rw [handleMessage_settled env running out]
      split_ifs
      · exact disputed
      · exact still s rfl h.out
      · refine still _ (finishFollowed_track _) fun none => ?_
        rw [finishFollowed_running none]
        exact out
      · exact still s rfl h.out
      exact followSettled_trails h running at' fun r same => ⟨digest, chips, there, Option.some.inj same⟩
    | handVoid hand =>
      rw [handleMessage_void env running out]
      split_ifs
      · exact disputed
      · exact still s rfl h.out
      exact followSettled_trails h running at' nofun

structure Busted (start : Point n) (s : Session n H) : Prop where
  out : s.eliminated = true
  settledAt : s.settledAt = some start
  followed : s.followed = none
  reports : s.followReports = []

omit [DecidableEq H] in
theorem Busted.trails (h : Busted start s) : Trails [] s s :=
  ⟨rfl, rfl, fun _ => h.out, by rw [h.reports]; exact .nil, by rw [h.reports]; nofun, by rw [h.reports]; nofun⟩

theorem hear_trails (h : Busted start s) (messages : List (Reported n H)) (reports : ∀ m ∈ messages, IsReport m.2) :
    Trails messages s (s.hear env messages) := by
  induction messages using reverseRecOn with
  | nil => exact h.trails
  | append_singleton messages m ih =>
    have trails := (ih fun m' member => reports m' (by simp [member])).more
      fun m' (member : m' ∈ messages) => mem_append_left [m] member
    obtain ⟨point, at'⟩ := trails.followedAt h.settledAt
    rw [hear_concat]
    exact (handleMessage_trails env trails (reports m (by simp)) (by simp) at').1

end Session

end Holdem
