import Mathlib.Algebra.Order.Ring.Int
import Mathlib.Data.List.MinMax
import Holdem.Engine.Forfeit
import Holdem.Engine.Layers

/-!
`cashout_split`: the pot priced for an EV cashout. What the function does with its floating-point
factors is two truncations to whole chips, which are its parameters here.
-/

namespace Holdem

open Finset Function List

variable {n : ℕ}

structure Cashout (n : ℕ) where
  payouts : Fin n → ℤ
  refund : Option (Fin n × ℤ)
  eligiblePot : ℤ
  gross : ℤ
  net : ℤ
  fee : ℤ

namespace Cashout

open Forfeit

def pots (players : Fin n → Player) (contenders : List (Fin n)) : List (Pot n) :=
  let live := fun i => (players i).totalLive
  potLayers (takeOut (uncalled live) live) (fun i => (players i).totalDead) contenders

/-- The loop over the pots: one that a single seat can win is that seat's, one the hero contests is kept,
and one of others only ends the function. -/
def sortPots (hero : Fin n) :
    (Fin n → ℤ) → List (Pot n) → List (Pot n) → Option ((Fin n → ℤ) × List (Pot n))
  | payouts, contested, [] => some (payouts, contested)
  | payouts, contested, pot :: rest =>
    match pot.eligible with
    | [seat] => sortPots hero (update payouts seat (payouts seat + pot.amount)) contested rest
    | eligible => if hero ∈ eligible then sortPots hero payouts (contested ++ [pot]) rest else none

/-- The hero's part of each contested pot before the rounding chips: in proportion to its size. -/
def floors (contested : List (Pot n)) (net : ℤ) : List ℤ :=
  contested.map fun pot => if potsTotal contested ≠ 0 then net * pot.amount / potsTotal contested else 0

def biggest (contested : List (Pot n)) : ℕ :=
  (contested.map Pot.amount).idxOf ((contested.map Pot.amount).max?.getD 0)

def parts (contested : List (Pot n)) (net : ℤ) : List ℤ :=
  (floors contested net).modify (biggest contested) (· + (net - (floors contested net).sum))

/-- `for j, i in enumerate(rivals)`, from place `j` on. -/
def payRivals (each odd : ℤ) : ℕ → List (Fin n) → (Fin n → ℤ) → (Fin n → ℤ)
  | _, [], payouts => payouts
  | j, i :: rest, payouts =>
    payRivals each odd (j + 1) rest
      (update payouts i (payouts i + (each + if (j : ℤ) < odd then 1 else 0)))

/-- One contested pot: the hero takes its part, its rivals share the rest. -/
def payPot (hero : Fin n) (payouts : Fin n → ℤ) (pot : Pot n) (heroPart : ℤ) : Fin n → ℤ :=
  let payouts := update payouts hero (payouts hero + heroPart)
  let rivals := pot.eligible.filter fun i => i ≠ hero
  let rest := pot.amount - heroPart
  payRivals (rest / rivals.length) (rest % rivals.length) 0 rivals payouts

def payPots (hero : Fin n) (payouts : Fin n → ℤ) (priced : List (Pot n × ℤ)) : Fin n → ℤ :=
  priced.foldl (fun paid pot => payPot hero paid pot.1 pot.2) payouts

end Cashout

open Cashout

/-- `cashout_split`; `equity` is `int(hero_eq * _)` and `afterFee` is `int(_ * (1 - fee))`. -/
def cashoutSplit (players : Fin n → Player) (hero : Fin n) (contenders : List (Fin n)) (equity afterFee : ℤ → ℤ) :
    Option (Cashout n) :=
  (sortPots hero (fun _ => 0) [] (Cashout.pots players contenders)).map fun (payouts, contested) =>
    let eligiblePot := potsTotal contested
    let gross := equity eligiblePot
    let net := afterFee gross
    { payouts := payPots hero payouts (contested.zip (parts contested net))
      refund := Forfeit.uncalled fun i => (players i).totalLive
      eligiblePot, gross, net, fee := gross - net }

namespace Cashout

open Forfeit

variable {hero : Fin n} {contested : List (Pot n)} {net : ℤ} {payouts : Fin n → ℤ} {priced : Pot n × ℤ}
  {before after : List (Pot n)} {paid : Fin n → ℤ} {each odd : ℤ} {pot : Pot n} {i : Fin n} {k : ℕ}

def contestedPots (hero : Fin n) (pots : List (Pot n)) : List (Pot n) :=
  pots.filter fun pot => hero ∈ pot.eligible ∧ pot.eligible.length ≠ 1

def soloPots (pots : List (Pot n)) (i : Fin n) : ℤ := potsTotal (pots.filter fun pot => pot.eligible = [i])

def potShare (hero : Fin n) (priced : Pot n × ℤ) : Fin n → ℤ := payPot hero (fun _ => 0) priced.1 priced.2

section

variable (pots : List (Pot n)) (sorted : sortPots hero payouts before pots = some (paid, after))
include pots sorted

theorem sortPots_contested : after = before ++ contestedPots hero pots ∧ ∀ i, paid i = payouts i + soloPots pots i := by
  induction pots generalizing payouts before with
  | nil =>
    cases sorted
    exact ⟨(append_nil _).symm, fun i => (add_zero _).symm⟩
  | cons pot rest ih =>
    unfold sortPots at sorted
    split at sorted
    · rename_i seat alone
      obtain ⟨same, sums⟩ := ih sorted
      refine ⟨by simp [same, contestedPots, alone], fun i => ?_⟩
      rw [sums i]
      by_cases mine : i = seat
      · subst mine
        rw [update_self, soloPots, soloPots, List.filter_cons_of_pos (by simpa using alone)]
        simp only [potsTotal, List.map_cons, List.sum_cons]
        omega
      rw [update_of_ne mine, soloPots, soloPots, List.filter_cons_of_neg (by simp [alone, Ne.symm mine])]
    rename_i several
    split at sorted
    · rename_i contests
      obtain ⟨same, sums⟩ := ih sorted
      have many : pot.eligible.length ≠ 1 := fun one => by
        obtain ⟨seat, alone⟩ := List.length_eq_one_iff.mp one
        exact several seat alone
      refine ⟨?_, fun i => ?_⟩
      · rw [same, contestedPots, contestedPots, List.filter_cons_of_pos (by simp [contests, many])]
        simp
      rw [sums i, soloPots, soloPots, List.filter_cons_of_neg (by simpa using several i)]
    cases sorted

theorem sortPots_total : ∑ i, paid i + potsTotal after = ∑ i, payouts i + potsTotal before + potsTotal pots := by
  induction pots generalizing payouts before with
  | nil =>
    cases sorted
    simp [potsTotal]
  | cons pot rest ih =>
    unfold sortPots at sorted
    split at sorted
    · rename_i seat alone
      rw [ih sorted, sum_update_of_mem (mem_univ seat), sdiff_singleton_eq_erase,
        ← add_sum_erase _ payouts (mem_univ seat)]
      simp only [potsTotal, List.map_cons, List.sum_cons]
      omega
    split at sorted
    · rw [ih sorted]
      simp only [potsTotal, List.map_cons, List.sum_cons, map_append, sum_append, map_nil, sum_nil]
      omega
    cases sorted

end

theorem payRivals_add (each odd : ℤ) (j : ℕ) (rivals : List (Fin n)) (payouts : Fin n → ℤ) (i : Fin n) :
    payRivals each odd j rivals payouts i = payouts i + payRivals each odd j rivals (fun _ => 0) i := by
  induction rivals generalizing j payouts with
  | nil => simp [payRivals]
  | cons rival rest ih =>
    rw [payRivals, payRivals, ih, ih (j + 1) (update _ _ _)]
    by_cases mine : i = rival
    · subst mine
      simp only [update_self]
      omega
    simp only [update_of_ne mine]
    omega

theorem payRivals_other {rivals : List (Fin n)} (other : i ∉ rivals) (j : ℕ)
    (payouts : Fin n → ℤ) : payRivals each odd j rivals payouts i = payouts i := by
  induction rivals generalizing j payouts with
  | nil => rfl
  | cons rival rest ih =>
    obtain ⟨here, later⟩ := not_or.mp fun h => other (List.mem_cons.mpr h)
    rw [payRivals, ih later, update_of_ne here]

theorem payRivals_nonneg (enough : 0 ≤ each) (rivals : List (Fin n)) (j : ℕ)
    (old : ∀ i, 0 ≤ payouts i) (i : Fin n) : 0 ≤ payRivals each odd j rivals payouts i := by
  induction rivals generalizing j payouts with
  | nil => exact old i
  | cons rival rest ih =>
    refine ih (j + 1) fun k => ?_
    have := old k
    rw [update_apply]
    split
    · rename_i here
      subst here
      split <;> omega
    exact this

theorem payRivals_total (each odd : ℤ) (j : ℕ) (rivals : List (Fin n)) (payouts : Fin n → ℤ) :
    ∑ i, payRivals each odd j rivals payouts i =
      ∑ i, payouts i + each * rivals.length + (min odd (j + rivals.length) - min odd j) := by
  induction rivals generalizing j payouts with
  | nil => simp [payRivals]
  | cons rival rest ih =>
    rw [payRivals, ih, sum_update_of_mem (mem_univ rival), sdiff_singleton_eq_erase,
      ← add_sum_erase _ payouts (mem_univ rival), length_cons]
    push_cast
    have shares : each * ((rest.length : ℤ) + 1) = each * rest.length + each := by ring
    rw [shares]
    split <;> omega

theorem payPot_add (payouts : Fin n → ℤ) (pot : Pot n) (part : ℤ) (i : Fin n) :
    payPot hero payouts pot part i = payouts i + potShare hero (pot, part) i := by
  unfold potShare payPot
  rw [payRivals_add, payRivals_add _ _ _ _ (update (fun _ => 0) hero (0 + part))]
  by_cases mine : i = hero
  · subst mine
    simp only [update_self]
    omega
  simp only [update_of_ne mine]
  omega

theorem payPots_add (payouts : Fin n → ℤ) (priced : List (Pot n × ℤ)) (i : Fin n) :
    payPots hero payouts priced i = payouts i + (priced.map fun pot => potShare hero pot i).sum := by
  induction priced generalizing payouts with
  | nil => simp [payPots]
  | cons pot rest ih =>
    have step := ih (payPot hero payouts pot.1 pot.2)
    rw [payPot_add, Prod.mk.eta] at step
    simp only [payPots, foldl_cons, List.map_cons, List.sum_cons] at step ⊢
    omega

theorem potShare_ineligible (in_pot : hero ∈ priced.1.eligible)
    (out : i ∉ priced.1.eligible) : potShare hero priced i = 0 := by
  have other : i ≠ hero := by
    rintro rfl
    exact out in_pot
  unfold potShare payPot
  rw [payRivals_other fun member => out (List.mem_filter.mp member).1, update_of_ne other]

theorem potShare_nonneg (low : 0 ≤ priced.2) (high : priced.2 ≤ priced.1.amount) (i : Fin n) :
    0 ≤ potShare hero priced i := by
  refine payRivals_nonneg (Int.ediv_nonneg (by omega) (Int.natCast_nonneg _)) _ 0 (fun k => ?_) i
  rw [update_apply]
  split
  · exact le_trans low (le_of_eq (zero_add _).symm)
  exact le_refl 0

theorem potShare_total (rival : ∃ i ∈ priced.1.eligible, i ≠ hero) : ∑ i, potShare hero priced i = priced.1.amount := by
  obtain ⟨i, member, other⟩ := rival
  have some : 0 < ((priced.1.eligible.filter fun i => i ≠ hero).length : ℤ) := by
    exact_mod_cast length_pos_of_mem (List.mem_filter.mpr ⟨member, by simpa using other⟩)
  unfold potShare payPot
  rw [payRivals_total, sum_update_of_mem (mem_univ hero)]
  have division := Int.mul_ediv_add_emod (priced.1.amount - priced.2) ((priced.1.eligible.filter fun i => i ≠ hero).length : ℤ)
  have fewer := Int.emod_lt_of_pos (priced.1.amount - priced.2) some
  have least := Int.emod_nonneg (priced.1.amount - priced.2) (by omega : ((priced.1.eligible.filter fun i => i ≠ hero).length : ℤ) ≠ 0)
  simp only [sum_const_zero, Nat.cast_zero, zero_add, add_zero]
  rw [mul_comm]
  omega

/-- What is cut off the hero's parts of the pots, but for a largest one, is at most what the hero's price
leaves of that one. All is scaled by the sum of the pots, so that no part is divided. -/
def RoundingFits (amounts : List ℤ) (net : ℤ) : Prop :=
  ((amounts.erase (amounts.max?.getD 0)).map (net * · % amounts.sum)).sum ≤ (amounts.sum - net) * amounts.max?.getD 0

theorem floors_eq (contested : List (Pot n)) (net : ℤ) :
    floors contested net = contested.map fun pot => net * pot.amount / potsTotal contested := by
  unfold floors
  refine map_congr_left fun pot _ => ?_
  split
  · rfl
  rename_i none
  rw [not_not.mp none, Int.ediv_zero]

section Bounds

variable (amounts : ∀ pot ∈ contested, 0 ≤ pot.amount) (low : 0 ≤ net) (high : net ≤ potsTotal contested)
include amounts low high

theorem floor_bounds {pot : Pot n} (member : pot ∈ contested) :
    0 ≤ net * pot.amount / potsTotal contested ∧ net * pot.amount / potsTotal contested ≤ pot.amount := by
  have amount := amounts pot member
  have total : 0 ≤ potsTotal contested := by omega
  refine ⟨Int.ediv_nonneg (mul_nonneg low amount) total, ?_⟩
  obtain none | some := total.eq_or_lt
  · rw [← none, Int.ediv_zero]
    exact amount
  refine Int.ediv_le_of_le_mul some ?_
  rw [mul_comm]
  exact mul_le_mul_of_nonneg_left high amount

omit amounts in
theorem floors_sum_le : (floors contested net).sum ≤ net := by
  obtain none | some := (show 0 ≤ potsTotal contested by omega).eq_or_lt
  · rw [floors_eq, ← none]
    simpa using low
  have each : ∀ pots : List (Pot n), (pots.map fun pot => net * pot.amount / potsTotal contested).sum * potsTotal contested ≤
      net * potsTotal pots := by
    intro pots
    induction pots with
    | nil => simp [potsTotal]
    | cons pot rest ih =>
      have here := Int.ediv_mul_le (net * pot.amount) some.ne'
      have split : potsTotal (pot :: rest) = pot.amount + potsTotal rest := by simp [potsTotal]
      rw [split, List.map_cons, List.sum_cons, mul_add, add_mul]
      omega
  rw [floors_eq]
  exact le_of_mul_le_mul_right (each contested) some

end Bounds

theorem floors_mod (amounts : List ℤ) (net total : ℤ) :
    total * (amounts.map (net * · / total)).sum + (amounts.map (net * · % total)).sum = net * amounts.sum := by
  induction amounts with
  | nil => simp
  | cons amount rest ih =>
    have here := Int.mul_ediv_add_emod (net * amount) total
    simp only [List.map_cons, List.sum_cons, mul_add]
    omega

theorem roundingFits_iff (amounts : ∀ pot ∈ contested, 0 ≤ pot.amount) (low : 0 ≤ net) (high : net ≤ potsTotal contested)
    (most : pot ∈ contested) (largest : (contested.map Pot.amount).max?.getD 0 = pot.amount) :
    RoundingFits (contested.map Pot.amount) net ↔
      net * pot.amount / potsTotal contested + (net - (floors contested net).sum) ≤ pot.amount := by
  have listed := List.perm_cons_erase (List.mem_map_of_mem (f := Pot.amount) most)
  have floors : (floors contested net).sum = net * pot.amount / potsTotal contested +
      (((contested.map Pot.amount).erase pot.amount).map (net * · / potsTotal contested)).sum := by
    rw [floors_eq, ← List.sum_cons, ← List.map_cons (f := (net * · / potsTotal contested)), ← (listed.map _).sum_eq, List.map_map]
    rfl
  have total : pot.amount + ((contested.map Pot.amount).erase pot.amount).sum = potsTotal contested := by
    rw [← List.sum_cons, ← listed.sum_eq]
    rfl
  have cut := floors_mod ((contested.map Pot.amount).erase pot.amount) net (potsTotal contested)
  unfold RoundingFits
  rw [largest, floors]
  change (List.map (net * · % potsTotal contested) _).sum ≤ (potsTotal contested - net) * pot.amount ↔ _
  obtain none | some := (show 0 ≤ potsTotal contested by omega).eq_or_lt
  · have nothing : net = 0 := by omega
    have := amounts pot most
    simp [← none, nothing, this]
  generalize (((contested.map Pot.amount).erase pot.amount).map (net * · / potsTotal contested)).sum = taken at cut ⊢
  have whole : potsTotal contested * net = net * pot.amount + net * ((contested.map Pot.amount).erase pot.amount).sum := by
    rw [← mul_add, total, mul_comm]
  have scaled := mul_le_mul_iff_right₀ (b := net - taken) (c := pot.amount) some
  rw [mul_sub] at scaled
  rw [sub_mul]
  omega

theorem parts_length (contested : List (Pot n)) (net : ℤ) : (parts contested net).length = contested.length := by
  simp [parts, floors]

theorem biggest_amount (there : contested[k]? = some pot) :
    (k = biggest contested → (contested.map Pot.amount).max?.getD 0 = pot.amount) ∧ biggest contested < contested.length := by
  have some : contested.map Pot.amount ≠ [] := by
    rintro empty
    rw [List.map_eq_nil_iff.mp empty] at there
    simp at there
  obtain ⟨most, found⟩ := Option.isSome_iff_exists.mp (List.isSome_max?_iff.mpr some)
  have member : most ∈ contested.map Pot.amount := (List.max?_eq_some_iff.mp found).1
  have inside := List.idxOf_lt_length_iff.mpr member
  refine ⟨fun here => ?_, ?_⟩
  · have value := getElem_idxOf inside
    rw [biggest, found] at here
    simp only [Option.getD_some] at here
    rw [found, Option.getD_some, ← value]
    simp only [getElem_map]
    congr 1
    rw [← Option.some.injEq, ← there, here, getElem?_eq_getElem]
  rw [biggest, found]
  simpa using inside

theorem parts_at (there : contested[k]? = some pot) :
    (parts contested net)[k]? = some (net * pot.amount / potsTotal contested +
      if k = biggest contested then net - (floors contested net).sum else 0) := by
  have floor : (floors contested net)[k]? = some (net * pot.amount / potsTotal contested) := by
    rw [floors_eq, getElem?_map, there]
    rfl
  rw [parts, getElem?_modify, floor]
  by_cases here : k = biggest contested
  · simp [here]
  simp [here, Ne.symm here]

theorem mem_priced : priced ∈ contested.zip (parts contested net) ↔
      ∃ k : ℕ, contested[k]? = some priced.1 ∧ (parts contested net)[k]? = some priced.2 := by
  rw [mem_iff_getElem?]
  simp only [getElem?_zip_eq_some]

theorem parts_bounded_iff (amounts : ∀ pot ∈ contested, 0 ≤ pot.amount) (low : 0 ≤ net)
    (high : net ≤ potsTotal contested) :
    (∀ priced ∈ contested.zip (parts contested net), 0 ≤ priced.2 ∧ priced.2 ≤ priced.1.amount) ↔
      RoundingFits (contested.map Pot.amount) net := by
  have rounding := floors_sum_le low high
  constructor
  · intro bounded
    cases whole : contested with
    | nil =>
      subst whole
      have : net = 0 := le_antisymm high low
      subst this
      simp [RoundingFits]
    | cons first rest =>
      rw [← whole]
      have zeroth : contested[0]? = some first := by simp [whole]
      have inside := (biggest_amount zeroth).2
      have there := getElem?_eq_getElem inside
      obtain ⟨-, most⟩ := bounded (_, _) (mem_priced.mpr ⟨_, there, parts_at there⟩)
      rw [if_pos rfl] at most
      exact (roundingFits_iff amounts low high (getElem_mem inside) ((biggest_amount there).1 rfl)).mpr most
  rintro fits ⟨pot, part⟩ member
  obtain ⟨k, there, taken⟩ := mem_priced.mp member
  dsimp only at there taken
  have bounds := floor_bounds amounts low high (mem_of_getElem? there)
  obtain rfl := Option.some.inj ((parts_at there).symm.trans taken)
  dsimp only
  split
  · rename_i here
    have := (roundingFits_iff amounts low high (mem_of_getElem? there) ((biggest_amount there).1 here)).mp fits
    omega
  omega

def pricedPots (players : Fin n → Player) (hero : Fin n) (contenders : List (Fin n)) (net : ℤ) : List (Pot n × ℤ) :=
  (contestedPots hero (pots players contenders)).zip
    (parts (contestedPots hero (pots players contenders)) net)

structure Fair (players : Fin n → Player) (hero : Fin n) (contenders : List (Fin n)) (split : Cashout n) : Prop where
  payouts : ∀ i, 0 ≤ split.payouts i
  parts : ∀ priced ∈ pricedPots players hero contenders split.net, 0 ≤ priced.2 ∧ priced.2 ≤ priced.1.amount
  sources : ∀ i, split.payouts i = soloPots (pots players contenders) i +
    ((pricedPots players hero contenders split.net).map fun priced => potShare hero priced i).sum
  eligible : ∀ priced ∈ pricedPots players hero contenders split.net, ∀ i ∉ priced.1.eligible, potShare hero priced i = 0
  total : ∑ i, split.payouts i + split.refund.elim 0 Prod.snd = ∑ i, (players i).total

section Split

variable {players : Fin n → Player} {contenders : List (Fin n)} {equity afterFee : ℤ → ℤ} {split : Cashout n}

theorem cashoutSplit_some (ran : cashoutSplit players hero contenders equity afterFee = some split) :
    ∃ paid, sortPots hero (fun _ => 0) [] (pots players contenders) =
        some (paid, contestedPots hero (pots players contenders)) ∧
      split.payouts = payPots hero paid (pricedPots players hero contenders split.net) ∧
      split.eligiblePot = potsTotal (contestedPots hero (pots players contenders)) ∧
      split.net = afterFee (equity (potsTotal (contestedPots hero (pots players contenders)))) ∧
      split.refund = uncalled fun i => (players i).totalLive := by
  obtain ⟨⟨paid, contested⟩, sorted, rfl⟩ := Option.map_eq_some_iff.mp ran
  obtain ⟨same, -⟩ := sortPots_contested _ sorted
  rw [nil_append] at same
  subst same
  exact ⟨paid, sorted, rfl, rfl, rfl, rfl⟩

theorem takeOut_total (refund : Option (Fin n × ℤ)) (live : Fin n → ℤ) :
    ∑ i, takeOut refund live i + refund.elim 0 Prod.snd = ∑ i, live i := by
  cases refund with
  | none => simp [takeOut]
  | some back =>
    have moved := back_total (some back) (fun _ => 0) live
    simp only [giveBack, sum_update_of_mem (mem_univ back.1), sum_const_zero] at moved
    simp only [Option.elim_some]
    omega

section Pots

variable (lives : ∀ i, 0 ≤ (players i).totalLive) (deads : ∀ i, 0 ≤ (players i).totalDead) (enters : hero ∈ contenders)
include lives deads enters

theorem pots_winnable : ∀ pot ∈ pots players contenders, pot.Winnable contenders :=
  potLayers_winnable (ne_nil_of_mem enters) (takeOut_nonneg lives fun _ found => found) deads

theorem contested_pot (distinct : contenders.Nodup) {pot : Pot n}
    (member : pot ∈ contestedPots hero (pots players contenders)) :
    0 ≤ pot.amount ∧ hero ∈ pot.eligible ∧ ∃ i ∈ pot.eligible, i ≠ hero := by
  obtain ⟨listed, held⟩ := List.mem_filter.mp member
  obtain ⟨mine, several⟩ := of_decide_eq_true held
  obtain ⟨amount, -, eligible⟩ := pots_winnable lives deads enters pot listed
  refine ⟨amount, mine, ?_⟩
  by_contra alone
  have all : ∀ i ∈ pot.eligible, i = hero := fun i there => by
    by_contra other
    exact alone ⟨i, there, other⟩
  have one := List.eq_replicate_iff.mpr ⟨rfl, all⟩
  have fresh := eligible.nodup distinct
  rw [one, nodup_replicate] at fresh
  have := length_pos_of_mem mine
  omega

end Pots

theorem soloPots_nonneg {pots : List (Pot n)} (amounts : ∀ pot ∈ pots, 0 ≤ pot.amount) (i : Fin n) : 0 ≤ soloPots pots i := by
  refine List.sum_nonneg fun amount member => ?_
  obtain ⟨pot, listed, rfl⟩ := List.mem_map.mp member
  exact amounts pot (List.mem_filter.mp listed).1

theorem shares_sum {priced : List (Pot n × ℤ)} (rivals : ∀ pot ∈ priced, ∃ i ∈ pot.1.eligible, i ≠ hero) :
    ∑ i, (priced.map fun pot => potShare hero pot i).sum = potsTotal (priced.map Prod.fst) := by
  induction priced with
  | nil => simp [potsTotal]
  | cons pot rest ih =>
    have here := potShare_total (rivals pot (.head _))
    have later := ih fun p member => rivals p (.tail _ member)
    simp only [List.map_cons, List.sum_cons, sum_add_distrib, potsTotal] at later ⊢
    rw [here, later]

/-- A cashout pays nothing from thin air exactly if the rounding chips fit into the largest pot. -/
theorem cashout_fair_iff (lives : ∀ i, 0 ≤ (players i).totalLive) (deads : ∀ i, 0 ≤ (players i).totalDead)
    (distinct : contenders.Nodup) (enters : hero ∈ contenders)
    (ran : cashoutSplit players hero contenders equity afterFee = some split)
    (low : 0 ≤ split.net) (net : split.net ≤ split.gross) (gross : split.gross ≤ split.eligiblePot) :
    let amounts := (contestedPots hero (pots players contenders)).map Pot.amount
    Fair players hero contenders split ↔ RoundingFits amounts (afterFee (equity amounts.sum)) := by
  obtain ⟨paid, sorted, payouts, eligiblePot, priced, refund⟩ := cashoutSplit_some ran
  intro amounts
  change _ ↔ RoundingFits amounts (afterFee (equity (potsTotal _)))
  rw [← priced]
  have solo := (sortPots_contested _ sorted).2
  have contested : ∀ pot ∈ contestedPots hero (pots players contenders), _ := fun _ member =>
    contested_pot lives deads enters distinct member
  have high : split.net ≤ potsTotal (contestedPots hero (pots players contenders)) := by omega
  have bounded := parts_bounded_iff (fun pot member => (contested pot member).1) low high
  refine ⟨fun fair => bounded.mp fair.parts, fun fits => ?_⟩
  have among : ∀ pot ∈ pricedPots players hero contenders split.net,
      pot.1 ∈ contestedPots hero (pots players contenders) := fun pot member => (of_mem_zip member).1
  have sums : ∀ i, split.payouts i = soloPots (pots players contenders) i +
      ((pricedPots players hero contenders split.net).map fun pot => potShare hero pot i).sum := fun i => by
    rw [payouts, payPots_add, solo i, zero_add]
  refine ⟨fun i => ?_, bounded.mpr fits, sums, fun pot member i out => ?_, ?_⟩
  · rw [sums i]
    refine add_nonneg (soloPots_nonneg (fun pot listed => (pots_winnable lives deads enters pot listed).amount) i) ?_
    refine List.sum_nonneg fun share member => ?_
    obtain ⟨pot, listed, rfl⟩ := List.mem_map.mp member
    obtain ⟨least, most⟩ := bounded.mpr fits pot listed
    exact potShare_nonneg least most i
  · exact potShare_ineligible (contested pot.1 (among pot member)).2.1 out
  have shares := shares_sum fun pot member => (contested pot.1 (among pot member)).2.2
  have whole := sortPots_total _ sorted
  have layers : potsTotal (pots players contenders) = _ := potLayers_total _ _ contenders
  have back := takeOut_total split.refund fun i => (players i).totalLive
  have listed : (pricedPots players hero contenders split.net).map Prod.fst =
      contestedPots hero (pots players contenders) := map_fst_zip (parts_length _ _).ge
  rw [listed] at shares
  rw [← refund] at layers
  simp only [sum_const_zero, potsTotal, map_nil, sum_nil, zero_add] at whole
  have each : ∑ i, split.payouts i = ∑ i, paid i + potsTotal (contestedPots hero (pots players contenders)) := by
    rw [← shares, ← sum_add_distrib]
    exact sum_congr rfl fun i _ => by rw [payouts, payPots_add]
  simp only [Player.total, sum_add_distrib]
  rw [each, potsTotal, whole, ← potsTotal, layers]
  omega

end Split

/-- Four seats all in for 13, 13, 7 and 3, the first the hero: three pots of 12 chips. -/
def nearEqualPots : Fin 4 → Player := fun i => { stack := 0, totalLive := ![13, 13, 7, 3] i }

theorem nearEqualPots_pots :
    Cashout.pots nearEqualPots [0, 1, 2, 3] = [⟨12, [0, 1, 2, 3]⟩, ⟨12, [0, 1, 2]⟩, ⟨12, [0, 1]⟩] := by
  have called : uncalled (fun i => (nearEqualPots i).totalLive) = none := by decide +kernel
  have steps : levels (fun i => (nearEqualPots i).totalLive) = [3, 7, 13] :=
    levels_eq (by decide) (by decide) (by decide)
  rw [Cashout.pots, called]
  change potLayers (fun i => (nearEqualPots i).totalLive) _ _ = _
  rw [potLayers, steps]
  decide +kernel

/-- With a sure win and a fee of one in a hundred the hero takes 13 chips of a pot of 12, and the last
seat is paid less than nothing. -/
theorem near_equal_pots_overdrawn :
    ∃ split, cashoutSplit nearEqualPots 0 [0, 1, 2, 3] id (fun gross => gross * 99 / 100) = some split ∧
      split.net = 35 ∧ split.gross = 36 ∧ split.eligiblePot = 36 ∧
      pricedPots nearEqualPots 0 [0, 1, 2, 3] split.net =
        [(⟨12, [0, 1, 2, 3]⟩, 13), (⟨12, [0, 1, 2]⟩, 11), (⟨12, [0, 1]⟩, 11)] ∧
      split.payouts 3 = -1 ∧ ¬Fair nearEqualPots 0 [0, 1, 2, 3] split := by
  refine ⟨_, by rw [cashoutSplit, nearEqualPots_pots]; rfl, by decide +kernel, by decide +kernel, by decide +kernel, ?_, ?_, ?_⟩
  · rw [pricedPots, nearEqualPots_pots]
    decide +kernel
  · decide +kernel
  intro fair
  have paid := fair.payouts 3
  revert paid
  decide +kernel

def evenPot : Fin 2 → Player := fun _ => { stack := 0, totalLive := 10 }

theorem cashout_fair_iff_even :
    ∃ split, cashoutSplit evenPot 0 [0, 1] (· / 2) (fun gross => gross * 99 / 100) = some split ∧
      Fair evenPot 0 [0, 1] split := by
  have pots : Cashout.pots evenPot [0, 1] = [⟨20, [0, 1]⟩] := by
    have called : uncalled (fun i => (evenPot i).totalLive) = none := by decide +kernel
    have steps : levels (fun i => (evenPot i).totalLive) = [10] := levels_eq (by decide) (by decide) (by decide)
    rw [Cashout.pots, called]
    change potLayers (fun i => (evenPot i).totalLive) _ _ = _
    rw [potLayers, steps]
    decide +kernel
  refine ⟨_, by rw [cashoutSplit, pots]; rfl, ?_⟩
  refine (@cashout_fair_iff 2 0 evenPot [0, 1] (· / 2) (fun gross => gross * 99 / 100) _ (by decide) (by decide)
    (by decide) (by decide) (by rw [cashoutSplit, pots]; rfl) (by decide +kernel) (by decide +kernel) (by decide +kernel)).mpr ?_
  rw [pots]
  unfold RoundingFits
  decide +kernel

end Cashout

end Holdem
