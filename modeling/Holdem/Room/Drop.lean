import Holdem.Wire

/-!
What a notice of a dropped seat says about where its sender's hand stood, and how a game compares that
with where its own hand stood.
-/

namespace Holdem

/-- `_drop_notice`, the constant fields apart. -/
structure DropNotice where
  hand : ℤ
  lostSeat : ℤ
  dealt : Bool
  settled : Bool
  actions : ℤ
  deriving DecidableEq

namespace DropNotice

def message (own : DropNotice) : Message :=
  [("type", .str "peer_lost"), ("hand", .int own.hand), ("lost_seat", .int own.lostSeat), ("ended", .bool true),
    ("dealt", .bool own.dealt), ("settled", .bool own.settled), ("actions", .int own.actions)]

def stage (hand : ℤ) (dealt settled : Bool) (actions : ℤ) : String :=
  if settled then "settled hand " ++ toString hand
  else if ¬dealt then "not dealt hand " ++ toString hand
  else "applied " ++ toString actions ++ " actions in hand " ++ toString hand

/-- Does a hand that stood so agree with this game's? The game is `live` if its hand was being played. -/
def agrees (own : DropNotice) (live : Bool) (hand : ℤ) (dealt settled : Bool) (actions : ℤ) : Bool :=
  if hand = own.hand then
    if ¬dealt then !own.settled
    else if settled then own.settled
    else own.dealt && !own.settled && decide (own.actions = actions)
  -- the sender ended its hand and this game has begun the next
  else if hand < own.hand then settled || !dealt
  -- the sender has begun the next hand and this game has not
  else !dealt && !live

def seatText : Option ℤ → String
  | some seat => toString seat
  | none => "None"

/-- `_drop_dispute`: the mark for the terminal reason, and whether the notice says that this game's hand
was not dealt. -/
def dropDispute (own : DropNotice) (live : Bool) (notice : Message) (sender : Option ℤ) : String × Bool :=
  match notice.get "hand", notice.get "actions", notice.get "dealt", notice.get "settled" with
  | .int hand, .int actions, .bool dealt, .bool settled =>
    (if own.agrees live hand dealt settled actions then ""
     else "; disputed: seat " ++ seatText sender ++ " had " ++ stage hand dealt settled actions ++ ", this game " ++
       stage own.hand own.dealt own.settled own.actions,
     decide (hand = own.hand) && !dealt)
  | _, _, _, _ => ("; disputed: seat " ++ seatText sender ++ "'s notice did not say where its hand stood", false)

end DropNotice

end Holdem
