import Holdem.Lib.Method

/-!
Two objects side by side. A relation between their states is carried through a pair of calls if both end
the same way, with the same value or exception, in related states.
-/

namespace Method

variable {ε σ σ' τ τ' α β : Type} {P Q R : σ → σ' → Prop} {r : EStateM.Result ε σ α} {r' : EStateM.Result ε σ' α}
  {m : EStateM ε σ α} {s : σ} {f : α → EStateM ε σ β} {f' : α → EStateM ε σ' β} {m' : EStateM ε σ' α}

inductive Matches (R : σ → σ' → Prop) : EStateM.Result ε σ α → EStateM.Result ε σ' α → Prop
  | ok {a : α} {s : σ} {s' : σ'} : R s s' → Matches R (.ok a s) (.ok a s')
  | error {x : ε} {s : σ} {s' : σ'} : R s s' → Matches R (.error x s) (.error x s')

/-- From states that `P` relates, the calls match and leave states that `Q` relates. -/
def Related (P Q : σ → σ' → Prop) (m : EStateM ε σ α) (m' : EStateM ε σ' α) : Prop :=
  ∀ s s', P s s' → Matches Q (m s) (m' s')

section

variable (h : Matches P r r')
include h

theorem Matches.mono (weaken : ∀ s s', P s s' → Q s s') : Matches Q r r' := by
  cases h with
  | ok related => exact .ok (weaken _ _ related)
  | error related => exact .error (weaken _ _ related)

theorem Matches.after : P (after r) (after r') := by
  cases h with
  | ok related => exact related
  | error related => exact related

theorem Matches.value : value r = value r' := by
  cases h <;> rfl

theorem Matches.raised : raised r = raised r' := by
  cases h <;> rfl

theorem Matches.answer : answer r = answer r' := by
  cases h <;> rfl

end

theorem Matches.keeps {K : σ → Prop} (h : Matches P (m s) r')
    (keep : Keeps K m) (holds : K s) : Matches (fun t t' => P t t' ∧ K t) (m s) r' := by
  have kept := keep s holds
  generalize m s = r at h kept
  cases h with
  | ok related => exact .ok ⟨related, kept⟩
  | error related => exact .error ⟨related, kept⟩

theorem Matches.of_ok {a : α} (h : Matches P (.ok a s) r') : ∃ s', r' = .ok a s' ∧ P s s' := by
  cases h with
  | ok related => exact ⟨_, rfl, related⟩

theorem Matches.of_error {x : ε} (h : Matches P (.error x s) r') : ∃ s', r' = .error x s' ∧ P s s' := by
  cases h with
  | error related => exact ⟨_, rfl, related⟩

theorem related_pure (a : α) : Related P P (pure a : EStateM ε σ α) (pure a : EStateM ε σ' α) :=
  fun _ _ h => .ok h

theorem related_modify {f : σ → σ} {f' : σ' → σ'} (carry : ∀ s s', P s s' → Q (f s) (f' s')) :
    Related P Q (modify f : EStateM ε σ PUnit) (modify f' : EStateM ε σ' PUnit) :=
  fun s s' h => .ok (carry s s' h)

theorem Matches.bind {r : σ} {r' : σ'} (first : Matches Q (m r) (m' r')) (fails : ∀ s s', Q s s' → R s s')
    (second : ∀ a s s', m r = .ok a s → m' r' = .ok a s' → Q s s' → Matches R (f a s) (f' a s')) :
    Matches R ((m >>= f) r) ((m' >>= f') r') := by
  rw [bind_apply, bind_apply]
  generalize eq : m r = left, eq' : m' r' = right at first second ⊢
  cases first with
  | ok related => exact second _ _ _ rfl rfl related
  | error related => exact .error (fails _ _ related)

theorem related_bind (first : Related P Q m m') (fails : ∀ s s', Q s s' → R s s')
    (second : ∀ a, Related Q R (f a) (f' a)) : Related P R (m >>= f) (m' >>= f') :=
  fun s s' h => (first s s' h).bind fails fun a t t' _ _ related => second a t t' related

theorem related_forM {f : α → EStateM ε σ PUnit} {f' : α → EStateM ε σ' PUnit} (xs : List α)
    (each : ∀ a, Related P P (f a) (f' a)) : Related P P (xs.forM f) (xs.forM f') := by
  induction xs with
  | nil => exact related_pure _
  | cons x xs ih => exact related_bind (each x) (fun _ _ h => h) fun _ => ih

/-! ### Secret calls

An object is called by operations of which some are secret. What an onlooker gets to see of a run is
how each other call ended and what shows of the object then. -/

section Secret

variable {ω κ : Type} (call : ω → EStateM ε σ α) (secret : ω → Bool) (look : σ → κ) {s t : σ}

def trace : σ → List ω → List (Option α × Option ε × κ)
  | _, [] => []
  | s, op :: ops =>
    let rest := trace (after (call op s)) ops
    if secret op then rest else (value (call op s), raised (call op s), look (after (call op s))) :: rest

theorem trace_related {P : σ → σ → Prop} (shows : ∀ s t, P s t → look s = look t)
    (steps : ∀ op, Related P P (call op) (call op)) (ops : List ω) (related : P s t) :
    trace call secret look s ops = trace call secret look t ops ∧ P (runAll call s ops) (runAll call t ops) := by
  induction ops generalizing s t with
  | nil => exact ⟨rfl, related⟩
  | cons op ops ih =>
    have both := steps op s t related
    obtain ⟨rest, ends⟩ := ih both.after
    refine ⟨?_, ends⟩
    rw [trace, trace, both.value, both.raised, shows _ _ both.after, rest]

variable {call secret look} (view : σ → τ)
  (shows : ∀ s t, view s = view t → look s = look t)
  (steps : ∀ op, secret op = false → Related (fun s t => view s = view t) (fun s t => view s = view t) (call op) (call op))
  (hides : ∀ op, secret op = true → ∀ s, view (after (call op s)) = view s)
include shows steps hides

theorem trace_purge (ops : List ω) (same : view s = view t) :
    trace call secret look s ops = trace call secret look t (ops.filter fun op => !secret op) ∧
      view (runAll call s ops) = view (runAll call t (ops.filter fun op => !secret op)) := by
  induction ops generalizing s t with
  | nil => exact ⟨rfl, same⟩
  | cons op ops ih =>
    cases kind : secret op with
    | true =>
      rw [List.filter_cons_of_neg (by simp [kind])]
      have rest := ih ((hides op kind s).trans same)
      refine ⟨?_, rest.2⟩
      rw [trace, if_pos kind]
      exact rest.1
    | false =>
      have both := steps op kind s t same
      have rest := ih both.after
      rw [List.filter_cons_of_pos (by simp [kind])]
      refine ⟨?_, rest.2⟩
      rw [trace, trace, if_neg (by simp [kind]), if_neg (by simp [kind]), both.value, both.raised,
        shows _ _ both.after, rest.1]

theorem trace_noninterference {ops ops' : List ω} (same : view s = view t)
    (calls : ops.filter (fun op => !secret op) = ops'.filter fun op => !secret op) :
    trace call secret look s ops = trace call secret look t ops' ∧
      view (runAll call s ops) = view (runAll call t ops') := by
  obtain ⟨left, leftEnd⟩ := trace_purge view shows steps hides ops same
  obtain ⟨right, rightEnd⟩ := trace_purge view shows steps hides ops' (rfl : view t = view t)
  rw [calls] at left leftEnd
  exact ⟨left.trans right.symm, leftEnd.trans rightEnd.symm⟩

end Secret

end Method
