import Mathlib.Algebra.Order.Ring.Rat
import Holdem.Wire

/-!
Admission: how a host learns that a connection holds the invite, and under which key.
-/

namespace Holdem

open Function (update)

abbrev Bytes := List UInt8

namespace Hex

def digit (d : ℕ) : Char := Char.ofNat (if d < 10 then 48 + d else 87 + d)

def value (c : Char) : Option ℕ :=
  if '0' ≤ c ∧ c ≤ '9' then some (c.toNat - 48)
  else if 'a' ≤ c ∧ c ≤ 'f' then some (c.toNat - 87)
  else if 'A' ≤ c ∧ c ≤ 'F' then some (c.toNat - 55)
  else none

def encode (b : Bytes) : String := String.ofList (b.flatMap fun x => [digit (x.toNat / 16), digit (x.toNat % 16)])

def blank (c : Char) : Bool := c ∈ [' ', '\t', '\n', '\r', '\x0b', '\x0c']

def decodeChars : List Char → Option Bytes
  | [] => some []
  | [c] => if blank c then some [] else none
  | c :: d :: rest =>
    if blank c then decodeChars (d :: rest)
    else do
      let high ← value c
      let low ← value d
      let bytes ← decodeChars rest
      return UInt8.ofNat (16 * high + low) :: bytes

/-- `bytes.fromhex`, which skips blanks between bytes. -/
def decode (text : String) : Option Bytes := decodeChars text.toList

end Hex

namespace Admission

def domainResponse : Bytes := "poker.admission.v1.response".toList.map fun c => UInt8.ofNat c.toNat

def transcriptVersion : UInt8 := 1
def nonceLen : ℕ := 16
def secretLen : ℕ := 16
def macLen : ℕ := 32
def tokenLen : ℕ := 8
def keyLen : ℕ := 32

def challengeTtl : ℚ := 30

def sized (name : String) (value : Bytes) (size : ℕ) : Except PyError Unit :=
  if value.length = size then .ok ()
  else .error (.valueError (name ++ " must be exactly " ++ toString size ++ " bytes, got " ++ toString value.length))

def transcript (discoveryToken hostPubkey joinerPubkey clientNonce serverNonce : Bytes) : Except PyError Bytes := do
  sized "discovery_token" discoveryToken tokenLen
  sized "host_pubkey" hostPubkey keyLen
  sized "joiner_pubkey" joinerPubkey keyLen
  sized "client_nonce" clientNonce nonceLen
  sized "server_nonce" serverNonce nonceLen
  return UInt8.ofNat domainResponse.length :: domainResponse ++ transcriptVersion :: discoveryToken ++
    (hostPubkey ++ joinerPubkey) ++ (clientNonce ++ serverNonce)

/-- What `secrets.token_bytes(NONCE_LEN)` draws. -/
abbrev Nonce := { b : Bytes // b.length = nonceLen }

variable (mac : Bytes → Bytes → Bytes)

def verifyMac (secret tr given : Bytes) : Bool := decide (given.length = macLen) && decide (mac secret tr = given)

structure Pending where
  clientNonce : Nonce
  serverNonce : Nonce
  joinerPubkey : { b : Bytes // b.length = keyLen }
  issuedAt : ℚ

end Admission

open Admission

structure HostAdmission where
  secret : { b : Bytes // b.length = secretLen }
  hostPubkey : { b : Bytes // b.length = keyLen }
  token : { b : Bytes // b.length = tokenLen }
  ttl : ℚ := challengeTtl
  pending : String → Option Pending := fun _ => none
  admitted : String → Option Bytes := fun _ => none
  admittedNonces : String → Option (Bytes × Bytes) := fun _ => none

namespace HostAdmission

variable (mac : Bytes → Bytes → Bytes)

def isAdmitted (conn : String) (a : HostAdmission) : Bool := (a.admitted conn).isSome

def forget (conn : String) (a : HostAdmission) : HostAdmission :=
  { a with
    pending := update a.pending conn none
    admitted := update a.admitted conn none
    admittedNonces := update a.admittedNonces conn none }

def expire (now : ℚ) (a : HostAdmission) : HostAdmission :=
  { a with pending := fun conn => (a.pending conn).filter fun p => now - p.issuedAt < a.ttl }

/-- `on_hello`: the nonces of the challenge, if there is one. -/
def onHello (now : ℚ) (drawn : Nonce) (conn : String) (joinerPubkey clientNonce : Bytes) (a : HostAdmission) :
    Option (Bytes × Bytes) × HostAdmission :=
  if a.isAdmitted conn then (none, a)
  else
    let a := a.expire now
    if nonce : clientNonce.length = nonceLen then
      if key : joinerPubkey.length = keyLen then
        (some (clientNonce, drawn.val),
          { a with pending := update a.pending conn (some ⟨⟨clientNonce, nonce⟩, drawn, ⟨joinerPubkey, key⟩, now⟩) })
      else (none, a)
    else (none, a)

/-- `on_response`. The challenge is used up whether or not the answer is right. -/
def onResponse (now : ℚ) (conn : String) (joinerPubkey clientNonce serverNonce given : Bytes) (a : HostAdmission) :
    Bool × HostAdmission :=
  let a := a.expire now
  match a.pending conn with
  | none => (false, a)
  | some p =>
    let a := { a with pending := update a.pending conn none }
    if joinerPubkey ≠ p.joinerPubkey.val then (false, a)
    else if clientNonce ≠ p.clientNonce.val ∨ serverNonce ≠ p.serverNonce.val then (false, a)
    else match transcript a.token.val a.hostPubkey.val p.joinerPubkey.val p.clientNonce.val p.serverNonce.val with
      | .error _ => (false, a)
      | .ok tr =>
        if verifyMac mac a.secret.val tr given then
          (true, { a with
            admitted := update a.admitted conn (some p.joinerPubkey.val)
            admittedNonces := update a.admittedNonces conn (some (p.clientNonce.val, p.serverNonce.val)) })
        else (false, a)

def acceptPayload (conn : String) (a : HostAdmission) : Option (Bytes × Bytes) := a.admittedNonces conn

end HostAdmission

namespace Admission

theorem transcript_ok {t h j c s b : Bytes} : transcript t h j c s = .ok b ↔
    (t.length = tokenLen ∧ h.length = keyLen ∧ j.length = keyLen ∧ c.length = nonceLen ∧ s.length = nonceLen) ∧
      b = UInt8.ofNat domainResponse.length :: domainResponse ++ transcriptVersion :: t ++ (h ++ j) ++ (c ++ s) := by
  unfold transcript sized
  constructor
  · intro ran
    repeat' split at ran
    all_goals first | cases ran; simp_all | skip
    all_goals simp_all [bind, Except.bind]
  rintro ⟨⟨ht, hh, hj, hc, hs⟩, rfl⟩
  simp [ht, hh, hj, hc, hs, bind, Except.bind, pure, Except.pure]

theorem transcript_injective {t h j c s t' h' j' c' s' b : Bytes} (first : transcript t h j c s = .ok b)
    (second : transcript t' h' j' c' s' = .ok b) : t = t' ∧ h = h' ∧ j = j' ∧ c = c' ∧ s = s' := by
  obtain ⟨⟨ht, hh, hj, hc, hs⟩, rfl⟩ := transcript_ok.mp first
  obtain ⟨⟨ht', hh', hj', hc', hs'⟩, same⟩ := transcript_ok.mp second
  simp only [List.cons_append, List.append_assoc, List.cons.injEq, List.append_cancel_left_eq, true_and] at same
  obtain ⟨token, after⟩ := List.append_inj same (ht.trans ht'.symm)
  obtain ⟨host, after⟩ := List.append_inj after (hh.trans hh'.symm)
  obtain ⟨joiner, after⟩ := List.append_inj after (hj.trans hj'.symm)
  obtain ⟨client, server⟩ := List.append_inj after (hc.trans hc'.symm)
  exact ⟨token, host, joiner, client, server⟩

end Admission

end Holdem
