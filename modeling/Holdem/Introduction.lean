import Mathlib.Algebra.Order.Ring.Rat
import Mathlib.Logic.Function.Basic

/-!
`introduction_service.py`: which connection a room, or a guest in it, belongs to. What signatures,
challenges, rates, quotas and fields say comes with the message, and so does the time.
-/

set_option linter.unusedSectionVars false

namespace Holdem

open Function

namespace Introduction

structure Guest (Conn : Type) where
  peer : Conn
  expiresAt : ℚ
  offer : Bool := false
  answer : Bool := false

structure Room (Conn Key : Type) where
  peer : Conn
  expiresAt : ℚ
  lease : ℚ
  guests : Key → Option (Guest Conn) := fun _ => none

inductive Role (Route Key : Type) where
  | host (route : Route)
  | guest (route : Route) (key : Key)

inductive Message (Route Key : Type) where
  | lookup (route : Route)
  | hostRegister (route : Route) (expiresAt : ℚ)
  | guestJoin (route : Route) (key : Key) (expiresAt : ℚ)
  | renew
  | close
  | reject (key : Key)
  | setup (key : Key)

inductive Event (Conn Route Key : Type) where
  | message (c : Conn) (now : ℚ) (passes : Bool) (m : Message Route Key)
  | detach (c : Conn)
  | maintain (now : ℚ)

variable {Conn Route Key : Type} [DecidableEq Conn] [DecidableEq Route] [DecidableEq Key]

def Role.route : Role Route Key → Route
  | .host route | .guest route _ => route

namespace Room

def live (room : Room Conn Key) (now : ℚ) : Bool := decide (now < min room.lease room.expiresAt)

def setGuest (room : Room Conn Key) (key : Key) (guest : Option (Guest Conn)) : Room Conn Key :=
  { room with guests := update room.guests key guest }

@[grind =] theorem setGuest_peer (room : Room Conn Key) (key : Key) (guest : Option (Guest Conn)) :
    (room.setGuest key guest).peer = room.peer := rfl

@[grind =] theorem setGuest_guests (room : Room Conn Key) (key : Key) (guest : Option (Guest Conn)) (k : Key) :
    (room.setGuest key guest).guests k = if k = key then guest else room.guests k := update_apply ..

/-- The end of `_message`: what becomes of the room that a connection with a role has found. -/
def told (c : Conn) (role : Role Route Key) (now : ℚ) (room : Room Conn Key) : Message Route Key → Option (Room Conn Key)
  | .renew => match role with
    | .host _ => some { room with lease := min (now + 60) room.expiresAt }
    | .guest .. => some room
  | .close => match role with
    | .host _ => none
    | .guest .. => some room
  | .reject key => match role with
    | .host _ => some (room.setGuest key none)
    | .guest .. => some room
  | .setup key => match role, room.guests key with
    | _, none => some room
    | .host _, some guest => if guest.offer then some room else some (room.setGuest key (some { guest with offer := true }))
    | .guest .., some guest =>
      if guest.peer ≠ c ∨ guest.answer ∨ ¬guest.offer then some room
      else some (room.setGuest key (some { guest with answer := true }))
  | _ => some room

end Room

/-- The service. A connection that is detached, or has neither registered nor joined, has no role. -/
structure Service (Conn Route Key : Type) where
  rooms : Route → Option (Room Conn Key) := fun _ => none
  roles : Conn → Option (Role Route Key) := fun _ => none
  lookups : Conn → Option Route := fun _ => none

namespace Service

variable (s : Service Conn Route Key)

def room (route : Route) (now : ℚ) : Option (Room Conn Key) :=
  (s.rooms route).filter fun room => room.live now

def setRoom (route : Route) (room : Option (Room Conn Key)) : Service Conn Route Key :=
  { s with rooms := update s.rooms route room }

def setRole (c : Conn) (role : Option (Role Route Key)) : Service Conn Route Key :=
  { s with roles := update s.roles c role }

def message (c : Conn) (now : ℚ) (m : Message Route Key) : Service Conn Route Key :=
  match s.roles c with
  | some role => match s.room role.route now with
    | none => s
    | some room => s.setRoom role.route (room.told c role now m)
  | none => match m with
    | .lookup route => if (s.room route now).isSome then { s with lookups := update s.lookups c (some route) } else s
    | .hostRegister route expiresAt =>
      if (s.rooms route).isSome then s
      else (s.setRoom route (some { peer := c, expiresAt, lease := min (now + 60) expiresAt })).setRole c (some (.host route))
    | .guestJoin route key expiresAt => match s.room route now with
      | none => s
      | some room =>
        if s.lookups c ≠ some route ∨ room.expiresAt < expiresAt ∨ (room.guests key).isSome then s
        else (s.setRoom route (some (room.setGuest key (some { peer := c, expiresAt })))).setRole c (some (.guest route key))
    | _ => s

def detach (c : Conn) : Service Conn Route Key :=
  let left := s.setRole c none
  match s.roles c with
  | none => left
  | some (.host route) => left.setRoom route none
  | some (.guest route key) => match s.rooms route with
    | none => left
    | some room => match room.guests key with
      | none => left
      | some guest => if guest.peer = c then left.setRoom route (some (room.setGuest key none)) else left

def maintain (now : ℚ) : Service Conn Route Key :=
  { s with rooms := fun route => (s.room route now).map fun room =>
      { room with guests := fun key => (room.guests key).filter fun guest => decide (now < guest.expiresAt) } }

def step : Event Conn Route Key → Service Conn Route Key
  | .message c now passes m => if passes then s.message c now m else s
  | .detach c => s.detach c
  | .maintain now => s.maintain now

def run (events : List (Event Conn Route Key)) : Service Conn Route Key := events.foldl step s

/-- The room at the route of a host that is attached is the one it registered. -/
def Owned : Prop :=
  ∀ c route room, s.roles c = some (.host route) → s.rooms route = some room → room.peer = c

variable {s}

@[grind →] theorem room_found {route : Route} {now : ℚ} {room : Room Conn Key} (found : s.room route now = some room) :
    s.rooms route = some room := (Option.filter_eq_some_iff.mp found).1

theorem told_cases (c : Conn) (role : Role Route Key) (now : ℚ) (room : Room Conn Key) (m : Message Route Key) :
    (room.told c role now m = none → m = .close ∧ role = .host role.route) ∧
      (room.told c role now m ≠ some room → role = .host role.route ∨ ∃ key, m = .setup key) ∧
      ∀ room', room.told c role now m = some room' → room'.peer = room.peer ∧ ∀ key, room.guests key ≠ none → room'.guests key = none → m = .reject key ∧ role = .host role.route := by
  cases m <;> cases role <;> simp only [Room.told, Role.route]
  all_goals repeat' split
  all_goals exact ⟨by simp, by simp, fun room' same => by cases same <;> grind⟩

/-- No route is registered while a connection that has registered it before is still attached. -/
def Clear : Service Conn Route Key → List (Event Conn Route Key) → Prop
  | _, [] => True
  | s, e :: events => (∀ c now passes route expiresAt, e = .message c now passes (.hostRegister route expiresAt) →
      ∀ c', s.roles c' ≠ some (.host route)) ∧ Clear (s.step e) events

theorem Owned.run {events : List (Event Conn Route Key)} (owned : s.Owned) (clear : Clear s events) : (s.run events).Owned := by
  induction events generalizing s with
  | nil => exact owned
  | cons e events ih =>
    refine ih (fun c route room role there => ?_) clear.2
    have clear := clear.1
    unfold Owned at owned
    revert role there
    cases e with
    | message c' now passes m =>
      have told role room := told_cases c' role now room m
      simp only [step, message, setRoom, setRole]
      repeat' split
      all_goals grind [update_apply]
    | detach c' =>
      simp only [step, detach, setRoom, setRole]
      repeat' split
      all_goals grind [update_apply]
    | maintain now =>
      rintro role there
      obtain ⟨kept, found, rfl⟩ := Option.map_eq_some_iff.mp there
      exact owned c route kept role (room_found found)

theorem Clear.left {before rest : List (Event Conn Route Key)} (clear : Clear s (before ++ rest)) : Clear s before := by
  induction before generalizing s with
  | nil => trivial
  | cons e before ih => exact ⟨clear.1, ih clear.2⟩

end Service

end Introduction

end Holdem
