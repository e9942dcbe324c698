/-
Httpe.Idempotency.Isolation — idempotency keys do not interfere.

All keys share one cluster and one clock. `SameOn` says that two states
look alike from a key: its entry, expired or not, and its own calls.
Steps on other keys do not disturb that, and a step on the key does the
same in both. So what happens on a key in a run is what happens when only
the operations on that key are replayed, at the same times.
-/
import Httpe.Idempotency.Recursion
import Httpe.Lib.Refinement

namespace Httpe.Idempotency

variable {ι R : Type*}

/-- The event, if it is one of the key's. -/
def onKey (calls : ι → StartCall) (key : String) (e : IdempEvent ι R) : Option (IdempEvent ι R) :=
  if (calls e.client).idempotencyKey = key then some e else none

/-- The operations on a key in a history, each at its time. -/
def keyEvents (calls : ι → StartCall) (key : String) (tr : List (IdempTransition ι R)) :
    List (IdempEvent ι R) :=
  tr.filterMap fun t => onKey calls key t.event

/-- Two states look alike from a key; the second one's clock may be
behind. -/
structure SameOn (calls : ι → StartCall) (key : String) (s a : IdempSystem ι R) : Prop where
  now : a.now ≤ s.now
  store : a.storeAt key = s.storeAt key
  pc : ∀ i, (calls i).idempotencyKey = key → a.pc i = s.pc i
  lockedSince : ∀ i, (calls i).idempotencyKey = key → a.lockedSince i = s.lockedSince i

variable {calls : ι → StartCall} {key : String} {s s' a : IdempSystem ι R} {e : IdempEvent ι R}

theorem SameOn.entryAt (h : SameOn calls key s a) (t : ℚ) : a.entryAt key t = s.entryAt key t := by
  show (a.storeAt key).filter _ = (s.storeAt key).filter _
  rw [h.store]

variable [DecidableEq ι] {m : IdempotencyManager}

/-- What a step may do, it does. -/
theorem idempStep_of_move (h : IdempMove m calls s e s') : idempStep m calls s e = some s' := by
  cases h with
  | acquire htime hpc hfree =>
      simp [idempStep, htime, IdempotencyManager.startStep, hpc,
        MockRedisCluster.setnxWithTtl_of_not_live hfree]
  | taken htime hpc hlive =>
      simp [idempStep, htime, IdempotencyManager.startStep, hpc,
        MockRedisCluster.setnxWithTtl_of_live hlive]
  | vanished htime hpc hfree =>
      simp [idempStep, htime, IdempotencyManager.startStep, hpc,
        MockRedisCluster.get_of_not_live hfree]
  | @answer i t entry htime hpc hlive =>
      by_cases hstatus : entry.value.status = .inFlight <;>
        simp [idempStep, htime, IdempotencyManager.startStep, hpc,
          MockRedisCluster.get_of_live hlive, StartPc.answer, hstatus]
  | complete htime =>
      simp [idempStep, htime, IdempotencyManager.completeTransaction, MockRedisCluster.set]
  | release htime =>
      simp [idempStep, htime, IdempotencyManager.releaseLockOnFailure,
        MockRedisCluster.delete_eq_erase]

/-- A step finishes nobody else's lock. -/
theorem IdempMove.lockedSince_of_not_own {i : ι} (h : IdempMove m calls s e s')
    (hne : e.client ≠ i) : s'.lockedSince i = s.lockedSince i := by
  cases h with
  | acquire => exact Function.update_of_ne (Ne.symm hne) _ _
  | taken => rfl
  | vanished => rfl
  | answer => rfl
  | complete => exact Function.update_of_ne (Ne.symm hne) _ _
  | release => exact Function.update_of_ne (Ne.symm hne) _ _

/-- A step on another key. -/
theorem SameOn.other (h : SameOn calls key s a) (hmove : IdempMove m calls s e s')
    (hkey : (calls e.client).idempotencyKey ≠ key) : SameOn calls key s' a := by
  have hother : ∀ i, (calls i).idempotencyKey = key → e.client ≠ i :=
    fun i hi heq => hkey (heq ▸ hi)
  constructor
  · exact h.now.trans (hmove.time_le.trans_eq hmove.now_eq.symm)
  · exact h.store.trans (hmove.storeAt_of_key_ne hkey).symm
  · intro i hi
    exact (h.pc i hi).trans (hmove.pc_of_not_own (hother i hi)).symm
  · intro i hi
    exact (h.lockedSince i hi).trans (hmove.lockedSince_of_not_own (hother i hi)).symm

/-- Two states that agree on the key's calls still do after the same
update. -/
theorem update_congr_on {β : Type*} {f g : ι → β} {i : ι} {x : β}
    (h : ∀ j, (calls j).idempotencyKey = key → f j = g j) (j : ι)
    (hj : (calls j).idempotencyKey = key) :
    Function.update f i x j = Function.update g i x j := by
  by_cases hij : j = i
  · subst hij
    simp
  · simpa [Function.update_of_ne hij] using h j hj

/-- A step on the key. -/
theorem SameOn.own (h : SameOn calls key s a) (hmove : IdempMove m calls s e s')
    (hkey : (calls e.client).idempotencyKey = key) :
    ∃ a', IdempMove m calls a e a' ∧ SameOn calls key s' a' := by
  subst hkey
  have htime := h.now.trans hmove.time_le
  have hpc := h.pc e.client rfl
  have hentry := h.entryAt
  cases hmove with
  | @acquire i t _ hset hfree =>
      refine ⟨_, .acquire htime (hpc.trans hset) ((hentry t).trans hfree), le_rfl, ?_,
        update_congr_on h.pc, update_congr_on h.lockedSince⟩
      simp [IdempSystem.storeAt]
  | @taken i t entry _ hset hlive =>
      exact ⟨_, .taken htime (hpc.trans hset) ((hentry t).trans hlive), le_rfl, h.store,
        update_congr_on h.pc, h.lockedSince⟩
  | @vanished i t _ hget hfree =>
      refine ⟨_, .vanished htime (hpc.trans hget) ((hentry t).trans hfree), le_rfl, ?_,
        update_congr_on h.pc, h.lockedSince⟩
      simp [IdempSystem.storeAt]
  | @answer i t entry _ hget hlive =>
      exact ⟨_, .answer htime (hpc.trans hget) ((hentry t).trans hlive), le_rfl, h.store,
        update_congr_on h.pc, h.lockedSince⟩
  | @complete i r t _ =>
      refine ⟨_, .complete htime, le_rfl, ?_, h.pc, update_congr_on h.lockedSince⟩
      simp [IdempSystem.storeAt]
  | @release i t _ =>
      refine ⟨_, .release htime, le_rfl, ?_, h.pc, update_congr_on h.lockedSince⟩
      simp [IdempSystem.storeAt]

variable {tr tr₁ tr₂ : List (IdempTransition ι R)} {s₁ s₂ : IdempSystem ι R} {t₀ : ℚ}

/-- The key's part of a run is a run. -/
theorem key_simulation : StutterSimulation (idempStep (R := R) m calls) (.start t₀)
    (idempStep m calls) (fun t => onKey calls key t.event) id (SameOn calls key) := by
  intro tr s e s' a _ h hstep
  have hmove := idempMove_of_step hstep
  by_cases hkey : (calls e.client).idempotencyKey = key
  · simp only [onKey, if_pos hkey]
    obtain ⟨a', hmove', h'⟩ := h.own hmove hkey
    exact ⟨e, a', rfl, idempStep_of_move hmove', h'⟩
  · simp only [onKey, if_neg hkey]
    exact h.other hmove hkey

/-- Replaying only the key's operations leads to the same on the key. -/
theorem sameOn_replay (hrun : Run (idempStep m calls) (.start t₀) tr s) :
    SameOn calls key s (exec (idempStep m calls) (.start t₀) (keyEvents calls key tr)).2 := by
  have hstart : SameOn calls key (.start t₀ : IdempSystem ι R) (.start t₀) := by
    constructor
    · exact le_rfl
    · rfl
    · exact fun _ _ => rfl
    · exact fun _ _ => rfl
  obtain ⟨tr', a, hrun', hsame, hshown⟩ := key_simulation.follow hstart hrun
  have hevents : tr'.map Transition.event = keyEvents calls key tr := hshown
  rw [← hevents, exec_eq_of_run hrun']
  exact hsame

/-- **Keys do not interfere.** Take any two runs, of any clients on any
keys, in which the operations on one key are the same and made at the
same times. Then whatever else happens in them, every call on that key
stands at the same place or has the same answer, the same calls hold the
lock since the same time, and the key finds the same entry at any time. -/
theorem keys_do_not_interfere (hrun₁ : Run (idempStep m calls) (.start t₀) tr₁ s₁)
    (hrun₂ : Run (idempStep m calls) (.start t₀) tr₂ s₂)
    (hkey : keyEvents calls key tr₁ = keyEvents calls key tr₂) :
    (∀ i, (calls i).idempotencyKey = key →
      s₁.pc i = s₂.pc i ∧ s₁.lockedSince i = s₂.lockedSince i) ∧
    ∀ t, s₁.entryAt key t = s₂.entryAt key t := by
  have h₁ : SameOn calls key s₁ _ := sameOn_replay hrun₁
  have h₂ : SameOn calls key s₂ _ := sameOn_replay hrun₂
  rw [hkey] at h₁
  constructor
  · intro i hi
    exact ⟨(h₁.pc i hi).symm.trans (h₂.pc i hi),
      (h₁.lockedSince i hi).symm.trans (h₂.lockedSince i hi)⟩
  · intro t
    exact (h₁.entryAt t).symm.trans (h₂.entryAt t)

/-- Client 1 works on a key of its own. -/
def twoKeys : Fin 2 → StartCall
  | 0 => ⟨"idemp-a", "hash-a"⟩
  | 1 => ⟨"idemp-b", "hash-b"⟩

theorem keys_do_not_interfere_alone :
    let alone := exec (idempStep (R := ℕ) {} twoKeys) (.start 0)
      [⟨0, .start, 0⟩, ⟨0, .complete 7, 9⟩]
    let crowd := exec (idempStep (R := ℕ) {} twoKeys) (.start 0)
      [⟨1, .start, 0⟩, ⟨0, .start, 0⟩, ⟨1, .release, 4⟩, ⟨0, .complete 7, 9⟩]
    crowd.2.entryAt "idemp-a" 10 = alone.2.entryAt "idemp-a" 10 ∧
      crowd.2.pc 0 = .returned .newRequestLocked none := by
  intro alone crowd
  obtain ⟨hcalls, hentry⟩ := keys_do_not_interfere
    (run_exec (idempStep (R := ℕ) {} twoKeys) _ (.start 0))
    (run_exec (idempStep (R := ℕ) {} twoKeys) _ (.start 0))
    (show keyEvents twoKeys "idemp-a" crowd.1 = keyEvents twoKeys "idemp-a" alone.1 by
      decide +kernel)
  exact ⟨hentry 10, (hcalls 0 rfl).1.trans (by decide +kernel)⟩

end Httpe.Idempotency
