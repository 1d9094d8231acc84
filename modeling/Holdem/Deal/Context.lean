import Mathlib
import Holdem.Wire
import Holdem.Deal.ShuffleProof

/-!
The contexts a deal is bound to: the bytes that the session id digests, and the labels under which a
seat derives its key share and proves that it holds it.
-/

namespace Framing

open List

@[simp] theorem length_digits (width n : ℕ) : (digits width n).length = width := by
  induction width generalizing n with
  | zero => rfl
  | succ width ih => rw [digits, length_append, ih, length_singleton]

theorem digits_inj {width n m : ℕ} (hn : n < 256 ^ width) (hm : m < 256 ^ width)
    (same : digits width n = digits width m) : n = m := by
  induction width generalizing n m with
  | zero =>
    rw [pow_zero] at hn hm
    omega
  | succ width ih =>
    rw [pow_succ] at hn hm
    rw [digits, digits] at same
    obtain ⟨high, low⟩ := append_inj same (by rw [length_digits, length_digits])
    have last : n % 256 = m % 256 := by
      have bytes := congrArg UInt8.toNat (List.singleton_inj.mp low)
      simpa using bytes
    have front := ih (Nat.div_lt_of_lt_mul (by omega)) (Nat.div_lt_of_lt_mul (by omega)) high
    omega

end Framing

namespace Holdem

open List Folding

theorem toBytes_eq {width n : ℕ} {bytes : List UInt8} (h : toBytes width n = .ok bytes) :
    n < 256 ^ width ∧ bytes = Framing.digits width n := by
  rw [toBytes] at h
  split at h
  · cases h
    exact ⟨‹_›, rfl⟩
  · cases h

theorem toBytes_front {width n m : ℕ} {a b rest rest' : List UInt8} (ha : toBytes width n = .ok a)
    (hb : toBytes width m = .ok b) (same : a ++ rest = b ++ rest') : n = m ∧ rest = rest' := by
  obtain ⟨small, rfl⟩ := toBytes_eq ha
  obtain ⟨small', rfl⟩ := toBytes_eq hb
  obtain ⟨digits, rests⟩ := append_inj same (by rw [Framing.length_digits, Framing.length_digits])
  exact ⟨Framing.digits_inj small small' digits, rests⟩

namespace DealContext

def encode (text : String) : List UInt8 := text.toByteArray.data.toList

theorem encode_inj {a b : String} (same : encode a = encode b) : a = b := by
  apply String.toByteArray_inj.mp
  apply ByteArray.ext
  exact Array.toList_inj.mp same

def framed (raw : List UInt8) : Except PyError (List UInt8) := do
  let length ← toBytes 4 raw.length
  return length ++ raw

theorem framed_front {raw raw' a b rest rest' : List UInt8} (ha : framed raw = .ok a) (hb : framed raw' = .ok b)
    (same : a ++ rest = b ++ rest') : raw = raw' ∧ rest = rest' := by
  obtain ⟨length, hl, ha⟩ := bind_eq_ok ha
  obtain ⟨length', hl', hb⟩ := bind_eq_ok hb
  cases ha
  cases hb
  rw [append_assoc, append_assoc] at same
  obtain ⟨lengths, raws⟩ := toBytes_front hl hl' same
  exact append_inj raws lengths

/-- What a session has adopted. A seat id comes from the host's message and may be any value. -/
structure Adopted where
  dealPolicy : Option String
  continuationPolicy : Option String
  seatOrder : List Json

variable {s t : Adopted} {bytes : List UInt8}

def seatBytes : List Json → Except PyError (List UInt8)
  | [] => .ok []
  | .str cid :: order => do
    let seat ← framed (encode cid)
    let others ← seatBytes order
    return seat ++ others
  | _ :: _ => .error .typeError

theorem seatBytes_cons {cid : Json} {order : List Json} (h : seatBytes (cid :: order) = .ok bytes) :
    ∃ text seat others, cid = .str text ∧ framed (encode text) = .ok seat ∧ seatBytes order = .ok others ∧
      bytes = seat ++ others := by
  cases cid with
  | str text =>
    obtain ⟨seat, hs, h⟩ := bind_eq_ok h
    obtain ⟨others, ho, h⟩ := bind_eq_ok h
    cases h
    exact ⟨text, seat, others, rfl, hs, ho, rfl⟩
  | _ => cases h

theorem seatBytes_inj {order order' : List Json} (count : order.length = order'.length)
    (h : seatBytes order = .ok bytes) (h' : seatBytes order' = .ok bytes) : order = order' := by
  induction order generalizing order' bytes with
  | nil => exact (List.length_eq_zero_iff.mp count.symm).symm
  | cons cid order ih =>
    cases order' with
    | nil => cases count
    | cons cid' order' =>
      obtain ⟨text, seat, others, rfl, hs, ho, rfl⟩ := seatBytes_cons h
      obtain ⟨text', seat', others', rfl, hs', ho', same⟩ := seatBytes_cons h'
      obtain ⟨texts, rfl⟩ := framed_front hs hs' same
      rw [encode_inj texts, ih (Nat.succ.inj count) ho ho']

def dealCtxLabel : List UInt8 := encode "poker.deal.context"

def dealCtxVersion : ℕ := 4

def dealContextBytes (s : Adopted) : Except PyError (List UInt8) :=
  match s.dealPolicy, s.continuationPolicy with
  | none, _ => .error (.runtimeError
      "cannot build a deal context before a policy is adopted; forensic callers want _recorded_session_id()")
  | some _, none => .error (.runtimeError "cannot build a deal context before a continuation policy is adopted")
  | some policy, some continuation => do
    let label ← framed dealCtxLabel
    let version ← toBytes 4 dealCtxVersion
    let policy ← framed (encode policy)
    let continuation ← framed (encode continuation)
    let count ← toBytes 4 s.seatOrder.length
    let seats ← seatBytes s.seatOrder
    return label ++ (version ++ (policy ++ (continuation ++ (count ++ seats))))

theorem dealContextBytes_fields (h : dealContextBytes s = .ok bytes) :
    ∃ policy continuation label version deal next count seats,
      s = ⟨some policy, some continuation, s.seatOrder⟩ ∧ framed dealCtxLabel = .ok label ∧
      toBytes 4 dealCtxVersion = .ok version ∧ framed (encode policy) = .ok deal ∧
      framed (encode continuation) = .ok next ∧ toBytes 4 s.seatOrder.length = .ok count ∧
      seatBytes s.seatOrder = .ok seats ∧ bytes = label ++ (version ++ (deal ++ (next ++ (count ++ seats)))) := by
  obtain ⟨policy, continuation, order⟩ := s
  cases policy with
  | none => cases h
  | some policy =>
    cases continuation with
    | none => cases h
    | some continuation =>
      obtain ⟨label, hl, h⟩ := bind_eq_ok h
      obtain ⟨version, hv, h⟩ := bind_eq_ok h
      obtain ⟨deal, hd, h⟩ := bind_eq_ok h
      obtain ⟨next, hn, h⟩ := bind_eq_ok h
      obtain ⟨count, hc, h⟩ := bind_eq_ok h
      obtain ⟨seats, hs, h⟩ := bind_eq_ok h
      cases h
      exact ⟨policy, continuation, label, version, deal, next, count, seats, rfl, hl, hv, hd, hn, hc, hs, rfl⟩

theorem dealContextBytes_inj (hs : dealContextBytes s = .ok bytes) (ht : dealContextBytes t = .ok bytes) : s = t := by
  obtain ⟨policy, continuation, label, version, deal, next, count, seats, es, hl, hv, hd, hn, hc, ho, rfl⟩ :=
    dealContextBytes_fields hs
  obtain ⟨policy', continuation', label', version', deal', next', count', seats', et, hl', hv', hd', hn', hc', ho', same⟩ :=
    dealContextBytes_fields ht
  replace same := (framed_front hl hl' same).2
  replace same := (toBytes_front hv hv' same).2
  obtain ⟨policies, same⟩ := framed_front hd hd' same
  obtain ⟨continuations, same⟩ := framed_front hn hn' same
  obtain ⟨counts, rfl⟩ := toBytes_front hc hc' same
  rw [es, et, encode_inj policies, encode_inj continuations, seatBytes_inj counts ho ho']

def hexdigest (digest : List UInt8) : List Char :=
  digest.flatMap fun b => [Nat.digitChar (b.toNat / 16), Nat.digitChar (b.toNat % 16)]

theorem digitChar_inj : ∀ m < 16, ∀ n < 16, Nat.digitChar m = Nat.digitChar n → m = n := by decide

theorem hexdigest_inj {a b : List UInt8} (same : hexdigest a = hexdigest b) : a = b := by
  induction a generalizing b with
  | nil => cases b with
    | nil => rfl
    | cons y b => cases same
  | cons x a ih => cases b with
    | nil => cases same
    | cons y b =>
      simp only [hexdigest, flatMap_cons, cons_append, nil_append, List.cons.injEq] at same
      obtain ⟨high, low, rest⟩ := same
      have hx := x.toNat_lt
      have hy := y.toNat_lt
      have highs := digitChar_inj _ (by omega) _ (by omega) high
      have lows := digitChar_inj _ (by omega) _ (by omega) low
      rw [ih rest, UInt8.toNat_inj.mp (show x.toNat = y.toNat by omega)]

variable (sha256 : List UInt8 → List UInt8) (hmac : List UInt8 → List UInt8 → List UInt8) {hand hand' seat seat' : ℤ}
  {sid : String}

def dealSessionId (s : Adopted) : Except PyError String := do
  let bytes ← dealContextBytes s
  return "poker.deal.v" ++ toString dealCtxVersion ++ ":" ++ String.ofList (hexdigest (sha256 bytes))

theorem dealSessionId_eq (h : dealSessionId sha256 s = .ok sid) : ∃ bytes,
    dealContextBytes s = .ok bytes ∧ sid.toList = "poker.deal.v4:".toList ++ hexdigest (sha256 bytes) := by
  obtain ⟨bytes, hb, h⟩ := bind_eq_ok h
  cases h
  exact ⟨bytes, hb, by rw [String.toList_append, String.toList_ofList]; rfl⟩

theorem dealSessionId_inj (injective : sha256.Injective)
    (hs : dealSessionId sha256 s = .ok sid) (ht : dealSessionId sha256 t = .ok sid) : s = t := by
  obtain ⟨bytes, hb, same⟩ := dealSessionId_eq sha256 hs
  obtain ⟨bytes', hb', same'⟩ := dealSessionId_eq sha256 ht
  have digests := hexdigest_inj (append_cancel_left (same.symm.trans same'))
  exact dealContextBytes_inj hb (injective digests ▸ hb')

theorem digitChar_ne_bar : ∀ n < 16, Nat.digitChar n ≠ '|' := by decide

theorem bar_notMem_dealSessionId (h : dealSessionId sha256 s = .ok sid) : '|' ∉ sid.toList := by
  obtain ⟨bytes, -, chars⟩ := dealSessionId_eq sha256 h
  intro member
  rw [chars, mem_append, hexdigest, mem_flatMap] at member
  obtain fixed | ⟨b, -, digit⟩ := member
  · exact absurd fixed (by decide)
  · have small := b.toNat_lt
    simp only [mem_cons, not_mem_nil, or_false] at digit
    obtain high | low := digit
    · exact digitChar_ne_bar _ (by omega) high.symm
    · exact digitChar_ne_bar _ (by omega) low.symm

theorem bar_notMem_repr (z : ℤ) : '|' ∉ z.repr.toList := by
  have digits (n : ℕ) : '|' ∉ n.repr.toList := by
    intro member
    rw [Nat.repr_eq_ofList_toDigits, String.toList_ofList] at member
    exact absurd (Nat.isDigit_of_mem_toDigits (by decide) (by decide) member) (by decide)
  rw [Int.repr_eq_if]
  split
  · exact digits _
  · rw [String.toList_append, mem_append]
    rintro (sign | digit)
    · exact absurd sign (by decide)
    · exact digits _ digit

def context (tag sid : String) (hand seat : ℤ) : List UInt8 :=
  encode ("|".intercalate [tag, sid, toString hand, toString seat])

theorem context_inj {tag sid sid' : String} (ht : '|' ∉ tag.toList) (hs : '|' ∉ sid.toList)
    (hs' : '|' ∉ sid'.toList) (same : context tag sid hand seat = context tag sid' hand' seat') :
    sid = sid' ∧ hand = hand' ∧ seat = seat' := by
  have joined := congrArg String.toList (encode_inj same)
  rw [String.toList_intercalate, String.toList_intercalate] at joined
  have split := congrArg (List.splitOn '|') joined
  have bar : "|".toList = ['|'] := rfl
  rw [bar, splitOn_intercalate, splitOn_intercalate] at split
  · simp only [map_cons, map_nil, List.cons.injEq, String.toList_inj, Int.toString_eq_repr, Int.repr_inj,
      true_and, and_true] at split
    exact split
  · simp [ht, hs', bar_notMem_repr]
  · simp
  · simp [ht, hs, bar_notMem_repr]
  · simp

def shareInfo (sid : String) (hand seat : ℤ) : List UInt8 := context "poker.share.v1" sid hand seat

/-- The blocks that `derive_share` reduces to a scalar. A digest has 32 bytes, so that two make up the 64. -/
def shareBlocks (master : List UInt8) (sid : String) (hand seat : ℤ) : List UInt8 × List UInt8 :=
  let info := shareInfo sid hand seat
  let t := hmac master ([] ++ info ++ [1])
  (t, hmac master (t ++ info ++ [2]))

def deriveShare {Scalar : Type} (scalarReduce : List UInt8 → Scalar) (master : List UInt8) (sid : String)
    (hand seat : ℤ) : Scalar :=
  let blocks := shareBlocks hmac master sid hand seat
  scalarReduce ((blocks.1 ++ blocks.2).take 64)

def popCtx (sid : String) (hand seat : ℤ) : List UInt8 := context "poker.dkg.v1" sid hand seat

theorem shareInfo_of_shareBlocks (injective : ∀ master, (hmac master).Injective) {master : List UInt8} {sid sid' : String}
    (same : shareBlocks hmac master sid hand seat = shareBlocks hmac master sid' hand' seat') :
    shareInfo sid hand seat = shareInfo sid' hand' seat' := by
  have first := injective master (congrArg Prod.fst same)
  exact append_cancel_right first

/-- The same input to the derivation, the same blocks from it or the same context for a proof of
possession: then the policies, the seats, the hand and the seat are the same. -/
theorem dealContext_unique (hsha : sha256.Injective) (hmacs : ∀ master, (hmac master).Injective) {s t : Adopted}
    {sid sid' : String} (hs : dealSessionId sha256 s = .ok sid) (ht : dealSessionId sha256 t = .ok sid')
    (master : List UInt8) (hand hand' seat seat' : ℤ)
    (same : shareInfo sid hand seat = shareInfo sid' hand' seat' ∨
      shareBlocks hmac master sid hand seat = shareBlocks hmac master sid' hand' seat' ∨
      popCtx sid hand seat = popCtx sid' hand' seat') :
    s.dealPolicy = t.dealPolicy ∧ s.continuationPolicy = t.continuationPolicy ∧ s.seatOrder = t.seatOrder ∧
      hand = hand' ∧ seat = seat' := by
  have bar := bar_notMem_dealSessionId sha256 hs
  have bar' := bar_notMem_dealSessionId sha256 ht
  have parts : sid = sid' ∧ hand = hand' ∧ seat = seat' := by
    obtain info | blocks | pop := same
    · exact context_inj (by decide) bar bar' info
    · exact context_inj (by decide) bar bar' (shareInfo_of_shareBlocks hmac hmacs blocks)
    · exact context_inj (by decide) bar bar' pop
  obtain ⟨rfl, hands, seats⟩ := parts
  have adopted := dealSessionId_inj sha256 hsha hs ht
  exact ⟨congrArg _ adopted, congrArg _ adopted, congrArg _ adopted, hands, seats⟩

def sampleTable : Adopted := ⟨some "bayer-groth-v1", some "host", [.str "a|b", .str "c"]⟩

theorem dealContext_unique_sample : ∃ sid, dealSessionId id sampleTable = .ok sid ∧
    sampleTable.seatOrder = sampleTable.seatOrder ∧ (3 : ℤ) = 3 ∧ (1 : ℤ) = 1 := by
  obtain ⟨sid, h⟩ : ∃ sid, dealSessionId id sampleTable = .ok sid := ⟨_, rfl⟩
  exact ⟨sid, h, (dealContext_unique id (fun _ => id) Function.injective_id (fun _ => Function.injective_id) h h []
    3 3 1 1 (.inl rfl)).2.2⟩

end DealContext

end Holdem
