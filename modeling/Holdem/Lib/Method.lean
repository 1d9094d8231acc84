import Mathlib.Logic.Basic

/-!
Methods of a mutable object. A call returns a value or raises, and either way it leaves the object in
some state, as in `EStateM`; here are the rules by which proofs take a method apart.
-/

namespace Method

variable {ε σ τ α β : Type} {r : EStateM.Result ε σ α} {a : α} {m : EStateM ε σ α} {f : α → EStateM ε σ β} {s t : σ}
  {P : σ → Prop} {b : β}

def after : EStateM.Result ε σ α → σ
  | .ok _ s => s
  | .error _ s => s

@[simp] theorem after_ok (a : α) (s : σ) : after (.ok a s : EStateM.Result ε σ α) = s := rfl

@[simp] theorem after_error (x : ε) (s : σ) : after (.error x s : EStateM.Result ε σ α) = s := rfl

def value : EStateM.Result ε σ α → Option α
  | .ok a _ => some a
  | .error _ _ => none

def raised : EStateM.Result ε σ α → Option ε
  | .ok _ _ => none
  | .error x _ => some x

def answer : EStateM.Result ε σ α → Except ε α
  | .ok a _ => .ok a
  | .error x _ => .error x

theorem eq_ok_of_value (h : value r = some a) : r = .ok a (after r) := by
  cases r <;> cases h
  rfl

theorem exists_ok (h : (value r).isSome = true) : ∃ a, r = .ok a (after r) := by
  cases r with
  | ok a s => exact ⟨a, rfl⟩
  | error x s => cases h

theorem bind_apply (m : EStateM ε σ α) (f : α → EStateM ε σ β) (s : σ) : (m >>= f) s = match m s with
      | .ok a t => f a t
      | .error x t => .error x t := rfl

theorem bind_of_ok (h : m s = .ok a t) : (m >>= f) s = f a t := by
  rw [bind_apply, h]

theorem bind_of_error {x : ε} (h : m s = .error x t) : (m >>= f) s = .error x t := by
  rw [bind_apply, h]

theorem bind_ok {u : σ} (h : (m >>= f) s = .ok b u) : ∃ a t, m s = .ok a t ∧ f a t = .ok b u := by
  rw [bind_apply] at h
  cases hm : m s with
  | ok a t => rw [hm] at h; exact ⟨a, t, rfl, h⟩
  | error x t => rw [hm] at h; cases h

theorem after_map (m : EStateM ε σ α) (f : α → β) (s : σ) : after ((m >>= fun a => pure (f a)) s) = after (m s) := by
  rw [bind_apply]
  cases m s <;> rfl

def Returns (m : EStateM ε σ α) (s : σ) : Prop := ∃ a t, m s = .ok a t

theorem returns_pure (a : α) (s : σ) : Returns (pure a : EStateM ε σ α) s := ⟨a, s, rfl⟩

theorem returns_bind (first : Returns m s) (second : ∀ a t, m s = .ok a t → Returns (f a) t) : Returns (m >>= f) s := by
  obtain ⟨a, t, ran⟩ := first
  obtain ⟨b, u, ran'⟩ := second a t ran
  exact ⟨b, u, (bind_of_ok ran).trans ran'⟩

theorem check_ok {x : Except ε α} {f : α → Except ε β} (h : (x >>= f) = .ok b) : ∃ a, x = .ok a ∧ f a = .ok b := by
  cases x with
  | ok a => exact ⟨a, rfl, h⟩
  | error y => cases h

def Keeps (P : σ → Prop) (m : EStateM ε σ α) : Prop := ∀ s, P s → P (after (m s))

theorem keeps_pure (a : α) : Keeps P (pure a : EStateM ε σ α) := fun _ h => h

theorem keeps_throw (x : ε) : Keeps P (throw x : EStateM ε σ α) := fun _ h => h

theorem keeps_modify {f : σ → σ} (keep : ∀ s, P s → P (f s)) : Keeps P (modify f : EStateM ε σ PUnit) := keep

theorem keeps_bind (first : Keeps P m) (second : ∀ a, Keeps P (f a)) : Keeps P (m >>= f) := by
  intro s h
  have mid := first s h
  rw [bind_apply]
  cases hm : m s with
  | ok a t => rw [hm] at mid; exact second a t mid
  | error x t => rw [hm] at mid; exact mid

theorem keeps_forM {f : α → EStateM ε σ PUnit} {xs : List α}
    (each : ∀ a ∈ xs, Keeps P (f a)) : Keeps P (xs.forM f) := by
  induction xs with
  | nil => exact keeps_pure _
  | cons x xs ih =>
    exact keeps_bind (each x (.head _))
      (fun _ => ih fun a member => each a (.tail _ member))

theorem keeps_ok (keep : Keeps P m) (h : P s) (ran : m s = .ok a t) : P t := by
  have := keep s h
  rwa [ran] at this

def runAll {ω : Type} (call : ω → EStateM ε σ α) (s : σ) (ops : List ω) : σ :=
  ops.foldl (fun s op => after (call op s)) s

theorem keeps_runAll {ω : Type} {call : ω → EStateM ε σ α} (each : ∀ op, Keeps P (call op))
    (ops : List ω) (h : P s) : P (runAll call s ops) := by
  induction ops generalizing s with
  | nil => exact h
  | cons op ops ih => exact ih (each op s h)

def within (read : τ → σ) (write : τ → σ → τ) (m : EStateM ε σ α) : EStateM ε τ α := fun t =>
  match m (read t) with
  | .ok a s => .ok a (write t s)
  | .error x s => .error x (write t s)

end Method
