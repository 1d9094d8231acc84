import Mathlib.Data.List.Induction
import Mathlib.Logic.Function.Basic

/-!
A receiver of numbered messages that keeps the first thing it gets for a number whose turn has not come.
A number is lost exactly if something else for it came before its real message, and that before the real
message of an earlier number.
-/

namespace FirstKept

open Function List

structure Arrival where
  number : ℕ
  real : Bool
  deriving DecidableEq

structure Receiver where
  next : ℕ := 0
  kept : ℕ → Option Bool := fun _ => none

namespace Receiver

def pop (r : Receiver) : Receiver := { r with kept := update r.kept r.next none }

def passed (r : Receiver) : Receiver := { r with next := r.next + 1 }

def drain : ℕ → Receiver → Receiver
  | 0, r => r
  | steps + 1, r =>
    match r.kept r.next with
    | none => r
    | some false => r.pop
    | some true => drain steps r.pop.passed

def keep (r : Receiver) (a : Arrival) : Receiver :=
  { r with kept := update r.kept a.number ((r.kept a.number).or (some a.real)) }

def receive (total : ℕ) (r : Receiver) (a : Arrival) : Receiver :=
  if a.number < r.next then r
  else if r.next < a.number then r.keep a
  else if a.real then drain (total - (r.next + 1)) r.passed
  else r

def run (total : ℕ) (arrivals : List Arrival) : Receiver := arrivals.foldl (receive total) {}

end Receiver

open Receiver

variable {total : ℕ} {r r' : Receiver} {a : Arrival} {seen rest arrivals : List Arrival} {j : ℕ}

/-- Something for a number came before its real message, and that before the real message of an earlier number. -/
def Displaced (arrivals : List Arrival) : Prop :=
  ∃ i j, i < j ∧ [⟨j, false⟩, ⟨j, true⟩, ⟨i, true⟩].Sublist arrivals

structure Drained (total : ℕ) (r r' : Receiver) : Prop where
  le : r.next ≤ r'.next
  bound : r'.next ≤ total
  passed : ∀ j, r.next ≤ j → j < r'.next → r.kept j = some true
  stuck : r'.next < total → r.kept r'.next ≠ some true
  ahead : ∀ j, r'.next < j → r'.kept j = r.kept j

theorem drain_drained (steps : ℕ) (r : Receiver) (left : r.next + steps = total) : Drained total r (drain steps r) := by
  induction steps generalizing r with
  | zero => exact ⟨Nat.le_refl _, by simp [drain]; omega, fun j low high => absurd high (by simp [drain]; omega),
      fun less => absurd less (by simp [drain]; omega), fun _ _ => rfl⟩
  | succ steps ih =>
    unfold drain
    split
    · rename_i none
      exact ⟨Nat.le_refl _, by omega, fun j low high => absurd high (by omega), fun _ => by simp [none], fun _ _ => rfl⟩
    · rename_i junk
      refine ⟨Nat.le_refl _, by simp [pop]; omega, fun j low high => absurd high (by simp [pop]; omega), fun _ => ?_, fun j high => ?_⟩
      · simp [pop, junk]
      exact update_of_ne (by simp [pop] at high; omega) _ _
    rename_i real
    have later := ih r.pop.passed (by simp [Receiver.passed, pop]; omega)
    have other : ∀ j, r.next + 1 ≤ j → r.pop.passed.kept j = r.kept j := fun j high =>
      update_of_ne (by omega) _ _
    have le : r.next + 1 ≤ (drain steps r.pop.passed).next := later.le
    refine ⟨by omega, later.bound, fun j low high => ?_, fun less => ?_, fun j high => ?_⟩
    · by_cases here : j = r.next
      · rw [here, real]
      rw [← other j (by omega)]
      exact later.passed j (by simp [Receiver.passed, pop]; omega) high
    · rw [← other _ le]
      exact later.stuck less
    rw [later.ahead j high, other j (by omega)]

theorem receive_cases (total : ℕ) (r : Receiver) (a : Arrival) (inside : a.number < total) :
    (a.number < r.next ∧ receive total r a = r) ∨
    (r.next < a.number ∧ receive total r a = r.keep a) ∨
    (a = ⟨r.next, false⟩ ∧ receive total r a = r) ∨
    (a = ⟨r.next, true⟩ ∧ Drained total r.passed (receive total r a)) := by
  obtain ⟨number, real⟩ := a
  dsimp only at inside
  unfold receive
  dsimp only
  split
  · exact Or.inl ⟨‹_›, rfl⟩
  split
  · exact Or.inr (Or.inl ⟨‹_›, rfl⟩)
  obtain rfl : number = r.next := by omega
  cases real with
  | false => exact Or.inr (Or.inr (Or.inl ⟨rfl, rfl⟩))
  | true => exact Or.inr (Or.inr (Or.inr ⟨rfl, drain_drained _ _ (by simp [Receiver.passed]; omega)⟩))

theorem keep_other (other : j ≠ a.number) : (r.keep a).kept j = r.kept j := update_of_ne other _ _

theorem keep_same (r : Receiver) (a : Arrival) : (r.keep a).kept a.number = (r.kept a.number).or (some a.real) :=
  update_self _ _ _

structure Sound (total : ℕ) (seen : List Arrival) (r : Receiver) : Prop where
  bound : r.next ≤ total
  past : ∀ j, j < r.next → ⟨j, true⟩ ∈ seen
  kept : ∀ j b, r.next < j → r.kept j = some b → ⟨j, b⟩ ∈ seen

theorem receive_sound (sound : Sound total seen r) (inside : a.number < total) :
    Sound total (seen ++ [a]) (receive total r a) := by
  have grow : ∀ {x}, x ∈ seen → x ∈ seen ++ [a] := fun member => mem_append_left _ member
  obtain ⟨-, same⟩ | ⟨ahead, held⟩ | ⟨-, same⟩ | ⟨here, drained⟩ := receive_cases total r a inside
  · rw [same]
    exact ⟨sound.bound, fun j low => grow (sound.past j low), fun j b high kept => grow (sound.kept j b high kept)⟩
  · rw [held]
    refine ⟨sound.bound, fun j low => grow (sound.past j low), fun j b high kept => ?_⟩
    by_cases other : j = a.number
    · subst other
      rw [keep_same] at kept
      cases before : r.kept a.number with
      | none =>
        rw [before] at kept
        cases kept
        exact mem_append_right _ mem_cons_self
      | some b' =>
        rw [before] at kept
        cases kept
        exact grow (sound.kept _ _ high before)
    rw [keep_other other] at kept
    exact grow (sound.kept j b high kept)
  · rw [same]
    exact ⟨sound.bound, fun j low => grow (sound.past j low), fun j b high kept => grow (sound.kept j b high kept)⟩
  have le : r.next + 1 ≤ (receive total r a).next := drained.le
  refine ⟨drained.bound, fun j low => ?_, fun j b high kept => ?_⟩
  · by_cases before : j < r.next
    · exact grow (sound.past j before)
    by_cases up : j = r.next
    · rw [up, here]
      exact mem_append_right _ mem_cons_self
    exact grow (sound.kept j true (by omega) (drained.passed j (by simp [Receiver.passed]; omega) low))
  rw [drained.ahead j high] at kept
  exact grow (sound.kept j b (by omega) kept)

theorem run_concat (seen : List Arrival) (a : Arrival) : run total (seen ++ [a]) = receive total (run total seen) a := by
  rw [run, foldl_append]
  rfl

theorem run_sound (inside : ∀ a ∈ seen, a.number < total) : Sound total seen (run total seen) := by
  induction seen using reverseRecOn with
  | nil => exact ⟨Nat.zero_le _, fun j low => absurd low (Nat.not_lt_zero j), fun j b _ kept => (by cases kept)⟩
  | append_singleton seen a ih =>
    rw [run_concat]
    exact receive_sound (ih fun x member => inside x (mem_append_left _ member))
      (inside a (mem_append_right _ (.head _)))

structure Once (total : ℕ) (arrivals : List Arrival) : Prop where
  inside : ∀ a ∈ arrivals, a.number < total
  real : ∀ j, j < total → arrivals.count ⟨j, true⟩ = 1

namespace Once

theorem mem (once : Once total arrivals) (less : j < total) : ⟨j, true⟩ ∈ arrivals := by
  have count := once.real j less
  exact List.count_pos_iff.mp (by omega)

theorem split (once : Once total (seen ++ rest)) (less : j < total) :
    (⟨j, true⟩ ∈ seen ∧ ⟨j, true⟩ ∉ rest) ∨ (⟨j, true⟩ ∉ seen ∧ ⟨j, true⟩ ∈ rest) := by
  have count := once.real j less
  rw [count_append] at count
  by_cases first : (⟨j, true⟩ : Arrival) ∈ seen
  · have := List.count_pos_iff.mpr first
    exact Or.inl ⟨first, List.count_eq_zero.mp (by omega)⟩
  have := List.count_eq_zero.mpr first
  exact Or.inr ⟨first, List.count_pos_iff.mp (by omega)⟩

end Once

/-- As long as nothing is displaced, the receiver waits for the first real message that has not come, and
has kept every later one that has. -/
structure Ready (total : ℕ) (seen : List Arrival) (r : Receiver) : Prop where
  here : r.next < total → ⟨r.next, true⟩ ∉ seen
  held : ∀ j, r.next < j → ⟨j, true⟩ ∈ seen → r.kept j = some true

theorem Ready.same (ready : Ready total seen r) (other : ∀ j, r.next ≤ j → a ≠ ⟨j, true⟩) : Ready total (seen ++ [a]) r := by
  have old : ∀ j, r.next ≤ j → ⟨j, true⟩ ∈ seen ++ [a] → ⟨j, true⟩ ∈ seen := by
    intro j high member
    obtain member | here := List.mem_append.mp member
    · exact member
    exact absurd (List.mem_singleton.mp here).symm (other j high)
  exact ⟨fun less member => ready.here less (old _ (Nat.le_refl _) member),
    fun j high member => ready.held j high (old j (Nat.le_of_lt high) member)⟩

theorem not_blocked (once : Once total (seen ++ ⟨j, true⟩ :: rest)) (fair : ¬Displaced (seen ++ ⟨j, true⟩ :: rest))
    (sound : Sound total seen r) (ready : Ready total seen r) (ahead : r.next < j) : r.kept j ≠ some false := by
  intro junk
  apply fair
  have inside : j < total := once.inside ⟨j, true⟩ (by simp)
  have less : r.next < total := by omega
  -- the real message of the next number is still to come
  have coming : ⟨r.next, true⟩ ∈ rest := by
    obtain ⟨arrived, -⟩ | ⟨-, coming⟩ := once.split less
    · exact absurd arrived (ready.here less)
    obtain same | later := List.mem_cons.mp coming
    · cases same
      omega
    exact later
  have before : [⟨j, false⟩].Sublist seen := List.singleton_sublist.mpr (sound.kept j false ahead junk)
  have after : [⟨j, true⟩, ⟨r.next, true⟩].Sublist (⟨j, true⟩ :: rest) :=
    List.Sublist.cons_cons _ (List.singleton_sublist.mpr coming)
  exact ⟨r.next, j, ahead, before.append after⟩

theorem receive_ready (once : Once total (seen ++ a :: rest)) (fair : ¬Displaced (seen ++ a :: rest))
    (sound : Sound total seen r) (ready : Ready total seen r) : Ready total (seen ++ [a]) (receive total r a) := by
  rcases receive_cases total r a (once.inside a (by simp)) with ⟨past, same⟩ | ⟨ahead, held⟩ | ⟨rfl, same⟩ | ⟨rfl, drained⟩
  · rw [same]
    refine ready.same fun j high eq => ?_
    subst eq
    dsimp only at past
    omega
  · rw [held]
    refine ⟨fun less member => ?_, fun j high member => ?_⟩
    · obtain member | here := List.mem_append.mp member
      · exact ready.here less member
      rw [← List.mem_singleton.mp here] at ahead
      exact Nat.lt_irrefl _ ahead
    change r.next < j at high
    obtain member | here := List.mem_append.mp member
    · have kept := ready.held j high member
      by_cases other : j = a.number
      · rw [other, keep_same, ← other, kept]
        rfl
      rw [keep_other other, kept]
    obtain rfl := (List.mem_singleton.mp here).symm
    have free := not_blocked once fair sound ready high
    rw [keep_same]
    cases kept : r.kept j with
    | none => rfl
    | some b =>
      cases b with
      | false => exact absurd kept free
      | true => rfl
  · rw [same]
    exact ready.same fun j _ eq => (by cases eq)
  have le : r.next + 1 ≤ (receive total r ⟨r.next, true⟩).next := drained.le
  have old : ∀ j, r.next < j → ⟨j, true⟩ ∈ seen ++ [⟨r.next, true⟩] → ⟨j, true⟩ ∈ seen := by
    intro j high member
    obtain member | here := List.mem_append.mp member
    · exact member
    cases List.mem_singleton.mp here
    omega
  refine ⟨fun less member => ?_, fun j high member => ?_⟩
  · exact drained.stuck less (ready.held _ (by omega) (old _ (by omega) member))
  rw [drained.ahead j high]
  exact ready.held j (by omega) (old j (by omega) member)

theorem run_ready (once : Once total arrivals) (fair : ¬Displaced arrivals) (split : seen ++ rest = arrivals) :
    Ready total seen (run total seen) := by
  induction seen using reverseRecOn generalizing rest with
  | nil => exact ⟨fun _ => not_mem_nil, fun j _ member => absurd member not_mem_nil⟩
  | append_singleton seen a ih =>
    have split : seen ++ a :: rest = arrivals := by simpa using split
    subst split
    rw [run_concat]
    exact receive_ready once fair (run_sound fun x member => once.inside x (mem_append_left _ member)) (ih rfl)

section blocked

variable {i : ℕ} (inside : ∀ a ∈ seen, a.number < total) (order : i < j) (waits : ⟨i, true⟩ ∉ seen)

include inside order waits

theorem kept_stays (split : rest ++ arrivals = seen) (kept : (run total rest).kept j = some false) :
    (run total seen).kept j = some false := by
  subst split
  induction arrivals using reverseRecOn with
  | nil => rwa [append_nil]
  | append_singleton later a ih =>
    rw [← append_assoc] at inside waits ⊢
    have kept := ih (fun x member => inside x (mem_append_left _ member)) (fun member => waits (mem_append_left _ member))
    have sound := run_sound inside
    have low : (run total (rest ++ later ++ [a])).next ≤ i := Nat.le_of_not_lt fun less => waits (sound.past i less)
    rw [run_concat] at low ⊢
    rcases receive_cases total (run total (rest ++ later)) a (inside a (by simp)) with
      ⟨-, same⟩ | ⟨-, held⟩ | ⟨-, same⟩ | ⟨-, drained⟩
    · rwa [same]
    · rw [held]
      by_cases other : j = a.number
      · rw [other, keep_same, ← other, kept]
        rfl
      rwa [keep_other other]
    · rwa [same]
    rw [drained.ahead j (by omega)]
    exact kept

theorem junk_kept (missing : ⟨j, true⟩ ∉ seen) (arrived : ⟨j, false⟩ ∈ seen) : (run total seen).kept j = some false := by
  obtain ⟨before, after, rfl⟩ := append_of_mem arrived
  have split : before ++ [⟨j, false⟩] ++ after = before ++ ⟨j, false⟩ :: after := by simp
  refine kept_stays inside order waits split ?_
  have sound : Sound total before (run total before) := run_sound fun x member => inside x (mem_append_left _ member)
  have low : (run total before).next ≤ i := Nat.le_of_not_lt fun less => waits (mem_append_left _ (sound.past i less))
  rw [run_concat]
  rcases receive_cases total (run total before) ⟨j, false⟩ (inside _ arrived) with
    ⟨past, -⟩ | ⟨-, held⟩ | ⟨here, -⟩ | ⟨here, -⟩
  · dsimp only at past
    omega
  · rw [held, keep_same]
    dsimp only
    cases kept : (run total before).kept j with
    | none => rfl
    | some b =>
      cases b with
      | false => rfl
      | true => exact absurd (mem_append_left _ (sound.kept j true (by omega) kept)) missing
  · cases here
    omega
  cases here

end blocked

theorem never_passed (inside : ∀ a ∈ seen ++ rest, a.number < total) (missing : ⟨j, true⟩ ∉ rest)
    (low : (run total seen).next ≤ j) (kept : (run total seen).kept j ≠ some true) :
    (run total (seen ++ rest)).next ≤ j ∧
      ((run total (seen ++ rest)).next < j → (run total (seen ++ rest)).kept j ≠ some true) := by
  induction rest using reverseRecOn with
  | nil =>
    rw [append_nil]
    exact ⟨low, fun _ => kept⟩
  | append_singleton later a ih =>
    rw [← append_assoc] at inside ⊢
    obtain ⟨low, kept⟩ := ih (fun x member => inside x (mem_append_left _ member))
      fun member => missing (mem_append_left _ member)
    rw [run_concat]
    rcases receive_cases total (run total (seen ++ later)) a (inside a (by simp)) with
      ⟨-, same⟩ | ⟨-, held⟩ | ⟨-, same⟩ | ⟨rfl, drained⟩
    · rw [same]
      exact ⟨low, kept⟩
    · rw [held]
      refine ⟨low, fun ahead => ?_⟩
      by_cases other : j = a.number
      · have junk : a.real = false := by
          cases real : a.real with
          | false => rfl
          | true => exact absurd (by simp [other, ← real]) missing
        have before := kept ahead
        rw [other, keep_same, ← other, junk]
        cases there : (run total (seen ++ later)).kept j with
        | none => simp
        | some b => rwa [there] at before
      rw [keep_other other]
      exact kept ahead
    · rw [same]
      exact ⟨low, kept⟩
    have other : (run total (seen ++ later)).next ≠ j := fun same => missing (by simp [← same])
    have free := kept (by omega)
    have low' : (receive total (run total (seen ++ later)) ⟨_, true⟩).next ≤ j :=
      Nat.le_of_not_lt fun less => free (drained.passed j (by simp [Receiver.passed]; omega) less)
    refine ⟨low', fun ahead => ?_⟩
    rw [drained.ahead j ahead]
    exact free

theorem run_complete (once : Once total arrivals) : (run total arrivals).next = total ↔ ¬Displaced arrivals := by
  constructor
  · rintro complete ⟨i, j, order, triple⟩
    obtain ⟨first, tail, rfl, junk, triple⟩ := List.cons_sublist_iff.mp triple
    obtain ⟨second, third, rfl, real, single⟩ := List.cons_sublist_iff.mp triple
    have earlier : ⟨i, true⟩ ∈ third := List.singleton_sublist.mp single
    rw [← append_assoc] at complete once
    have inside : ∀ a ∈ first ++ second, a.number < total := fun a member => once.inside a (mem_append_left _ member)
    have last : j < total := inside _ (mem_append_left _ junk)
    have waits : ⟨i, true⟩ ∉ first ++ second := by
      obtain ⟨-, absent⟩ | ⟨absent, -⟩ := once.split (j := i) (by omega)
      · exact absurd earlier absent
      exact absent
    have gone : ⟨j, true⟩ ∉ third := by
      obtain ⟨-, absent⟩ | ⟨absent, -⟩ := once.split last
      · exact absent
      exact absurd (mem_append_right _ real) absent
    have late : ⟨j, true⟩ ∉ first := by
      rw [append_assoc] at once
      obtain ⟨-, absent⟩ | ⟨absent, -⟩ := once.split last
      · exact absurd (mem_append_left _ real) absent
      exact absent
    -- the real message finds something else in its place, and does not come again
    have kept : (run total first).kept j = some false :=
      junk_kept (fun a member => inside a (mem_append_left _ member)) order
        (fun member => waits (mem_append_left _ member)) late junk
    have kept : (run total (first ++ second)).kept j = some false := kept_stays inside order waits rfl kept
    have low : (run total (first ++ second)).next ≤ i :=
      Nat.le_of_not_lt fun less => waits ((run_sound inside).past i less)
    have stuck := (never_passed once.inside gone (by omega) (by simp [kept])).1
    omega
  intro fair
  have ready : Ready total arrivals (run total arrivals) := run_ready once fair (append_nil _)
  have bound := (run_sound once.inside).bound
  by_contra short
  have less : (run total arrivals).next < total := by omega
  exact ready.here less (once.mem less)

end FirstKept
