import Holdem.Engine.Frame

/-!
Chips of one player. Posts, bets and returned bets move a player's chips between stack and pot and leave
what the player is worth as it was, with no count below zero.
-/

namespace Holdem

namespace Player

variable {p q r : Player}

def worth (p : Player) : ℤ := p.stack + p.totalLive + p.totalDead

structure Solvent (p : Player) : Prop where
  stack : 0 ≤ p.stack
  bet : 0 ≤ p.bet
  totalLive : 0 ≤ p.totalLive
  totalDead : 0 ≤ p.totalDead

def Ready (p : Player) : Prop := p.inSeat = true → 0 ≤ p.stack ∧ (p.allIn = false → 0 < p.stack)

/-- `q` is `p` after some of its own chips have moved. -/
structure Pays (p q : Player) : Prop where
  worth : q.worth = p.worth
  solvent : p.Solvent → q.Solvent
  bet : 0 ≤ p.bet → 0 ≤ q.bet
  ready : p.Ready → q.Ready

theorem pays_refl (p : Player) : p.Pays p := ⟨rfl, id, id, id⟩

theorem pays_trans (first : p.Pays q) (second : q.Pays r) : p.Pays r :=
  ⟨second.worth.trans first.worth, second.solvent ∘ first.solvent, second.bet ∘ first.bet, second.ready ∘ first.ready⟩

theorem pays_commit (p : Player) (amt : ℤ) : p.Pays (p.commit amt) := by
  refine ⟨?_, fun h => ?_, fun h => ?_, fun h seated => ?_⟩
  · simp only [Player.worth, commit]
    omega
  · obtain ⟨stack, bet, live, dead⟩ := h
    refine ⟨?_, ?_, ?_, dead⟩ <;> simp only [commit] <;> omega
  · simp only [commit]
    omega
  have behind := h seated
  simp only [commit, Bool.or_eq_false_iff, decide_eq_false_iff_not]
  exact ⟨by omega, fun more => by omega⟩

theorem pays_did (p : Player) (action : LastAction) : p.Pays (p.did action) :=
  ⟨rfl, fun h => ⟨h.stack, h.bet, h.totalLive, h.totalDead⟩, id, id⟩

theorem pays_bet (p : Player) (amt : ℤ) (action : LastAction) : p.Pays ((p.commit amt).did action) :=
  pays_trans (pays_commit p amt) (pays_did _ action)

theorem pays_commitDead {amount : ℤ} (positive : 0 ≤ amount) (p : Player) :
    p.Pays (p.commitDead (min amount p.stack)) := by
  refine ⟨?_, fun h => ?_, id, fun h seated => ?_⟩
  · simp only [Player.worth, commitDead]
    omega
  · obtain ⟨stack, bet, live, dead⟩ := h
    refine ⟨?_, bet, live, ?_⟩ <;> simp only [commitDead] <;> omega
  simp only [commitDead, Bool.or_eq_false_iff, decide_eq_false_iff_not]
  exact ⟨by omega, fun more => by omega⟩

theorem pays_of_same (worth : (q.stack, q.bet, q.totalLive, q.totalDead) = (p.stack, p.bet, p.totalLive, p.totalDead))
    (flags : (q.inSeat, q.allIn) = (p.inSeat, p.allIn)) : p.Pays q := by
  obtain ⟨stack, bet, live, dead⟩ : q.stack = p.stack ∧ q.bet = p.bet ∧ q.totalLive = p.totalLive ∧
      q.totalDead = p.totalDead := by simpa using worth
  obtain ⟨seat, allIn⟩ : q.inSeat = p.inSeat ∧ q.allIn = p.allIn := by simpa using flags
  refine ⟨by rw [Player.worth, Player.worth, stack, live, dead], fun h => ?_, fun h => bet ▸ h, fun h => ?_⟩
  · exact ⟨stack ▸ h.stack, bet ▸ h.bet, live ▸ h.totalLive, dead ▸ h.totalDead⟩
  rwa [Ready, stack, allIn, seat]

end Player

namespace Engine

variable {n : ℕ} {e e' e'' : Engine n} {i : Fin n} {action : Action}

def bank (e : Engine n) : ℤ := ∑ i, (e.players i).worth

def Solvent (e : Engine n) : Prop := ∀ i, (e.players i).Solvent

def Pays (e e' : Engine n) : Prop := ∀ i, (e.players i).Pays (e'.players i)

theorem pays_bank (h : e.Pays e') : e'.bank = e.bank :=
  Finset.sum_congr rfl fun i _ => (h i).worth

theorem pays_solvent (h : e.Pays e') (solvent : e.Solvent) : e'.Solvent := fun i => (h i).solvent (solvent i)

theorem pays_refl (e : Engine n) : e.Pays e := fun _ => Player.pays_refl _

theorem pays_trans (first : e.Pays e') (second : e'.Pays e'') : e.Pays e'' :=
  fun i => Player.pays_trans (first i) (second i)

theorem pays_of_players (same : e'.players = e.players) : e.Pays e' :=
  fun _ => same ▸ Player.pays_refl _

theorem pays_update {f : Player → Player} (h : (e.players i).Pays (f (e.players i))) : e.Pays (e.update i f) := by
  intro j
  by_cases other : j = i
  · subst other
    rwa [update_same]
  rw [update_other _ _ other]
  exact Player.pays_refl _

theorem pays_emit {body : EventBody n} (h : e.Pays e') : e.Pays (e'.emit body) := h

theorem pays_post (e : Engine n) (i : Fin n) (amount : ℤ) (label : Blind) : e.Pays (e.post i amount label) :=
  pays_emit (pays_update (Player.pays_bet (e.players i) _ _))

theorem pays_postDead {amount : ℤ} (positive : 0 ≤ amount) (e : Engine n) (i : Fin n) (label : Blind) :
    e.Pays (e.postDead i amount label) :=
  pays_emit (pays_update (Player.pays_commitDead positive _))

theorem pays_fold (e : Engine n) (i : Fin n) : e.Pays (e.fold i) :=
  pays_emit (pays_update (Player.pays_of_same rfl rfl))

theorem pays_call (e : Engine n) (i : Fin n) : e.Pays (e.call i) := by
  unfold call
  dsimp only
  split
  · exact pays_emit (pays_update (Player.pays_did _ _))
  exact pays_emit (pays_update (Player.pays_bet _ _ _))

theorem pays_raiseTo (e : Engine n) (i : Fin n) (add : ℤ) : e.Pays (e.raiseTo i add) := by
  have chips : e.Pays (e.update i (raiseChips (decide (e.currentBet = 0)) add)) :=
    pays_update (Player.pays_bet (e.players i) _ _)
  refine pays_trans chips (pays_of_players ?_)
  rw [raiseTo, emit_players]
  split
  · split <;> rfl
  rfl

theorem pays_move (move : Move e i action e') : e.Pays e' := by
  cases move with
  | fold => exact pays_fold e i
  | call => exact pays_call e i
  | raise => exact pays_raiseTo e i _
  | raiseCall => exact pays_call e i

theorem act_pays {seat : ℤ} {amount : Amount} {u : Unit} (h : act seat action amount e = .ok u e') : e.Pays e' := by
  obtain ⟨i, -, -, -, moved, move, rfl⟩ := act_moves h
  exact pays_trans (pays_move move) (pays_of_players rfl)

open Method

theorem pays_clearBets (e : Engine n) : e.Pays e.clearBets := by
  intro i
  simp only [clearBets]
  split <;> exact ⟨rfl, fun h => ⟨h.stack, le_refl 0, h.totalLive, h.totalDead⟩, fun _ => le_refl 0, id⟩

theorem openRound_players (e : Engine n) (first : Fin n) : (e.openRound first).players = e.players := by
  unfold openRound
  dsimp only
  split <;> rfl

theorem openStreet_players (e : Engine n) : e.openStreet.players = e.players :=
  openRound_players (e.emit _) _

theorem nextStreet_pays (e : Engine n) : Keeps (fun s => e.Pays s) (nextStreet : EngineM n Unit) :=
  nextStreet_keeps (fun s h => pays_trans h (pays_clearBets s)) (fun _ _ _ _ h => h)
    (fun s h => pays_trans h (pays_of_players (openStreet_players s)))

theorem mem_seatsWhere {p : Player → Bool} : i ∈ e.seatsWhere p ↔ p (e.players i) = true := by
  simp [seatsWhere]

theorem seatsWhere_nodup (e : Engine n) (p : Player → Bool) : (e.seatsWhere p).Nodup := (List.nodup_finRange n).filter _

theorem uncalled_bounds {back : ℤ} (h : e.uncalled = some (i, back)) : 0 < back ∧ back ≤ (e.players i).totalLive := by
  unfold uncalled at h
  split at h
  · rename_i top second rest sorted
    have positive : 0 < second := by
      have member : second ∈ e.lives := by rw [sorted]; simp
      rw [lives, List.mem_insertionSort, List.mem_filter] at member
      simpa using member.2
    split at h
    · split at h
      · rename_i only
        cases h
        have top_of : (e.players i).totalLive = top := by
          have := mem_seatsWhere.mp (only ▸ List.mem_singleton_self i)
          simpa using this
        omega
      cases h
    cases h
  cases h

theorem pays_returnUncalled (e : Engine n) : e.Pays e.returnUncalled := by
  unfold returnUncalled
  split
  · rename_i i back found
    obtain ⟨positive, most⟩ := uncalled_bounds found
    refine pays_emit (pays_update ⟨?_, fun h => ⟨?_, h.bet, ?_, h.totalDead⟩, id, fun h seated => ?_⟩)
    · simp only [Player.worth]
      omega
    · have := h.stack
      dsimp only
      omega
    · dsimp only
      omega
    have behind := h seated
    dsimp only
    exact ⟨by omega, fun _ => by omega⟩
  exact pays_refl e

theorem completeBoard_pays (e : Engine n) (runs : ℕ) (tabled : Bool) :
    Keeps (fun s => e.Pays s) (completeBoard runs tabled) :=
  completeBoard_keeps (nextStreet_pays e) (fun _ _ _ _ _ _ h => h) runs tabled

def Cleared (e : Engine n) : Prop := ∀ i, (e.players i).totalLive = 0 ∧ (e.players i).totalDead = 0

end Engine

end Holdem
