/-
Httpe.Idempotency.Recursion — `start_transaction` calls itself at most
as often as its key's entry dies.

The recursion has no argument that decreases. A failed SETNX has seen a
live entry, so the GET after it finds nothing only if that entry expired
or was deleted in between. `DepthInv` carries this along a run: while a
call stands between the two accesses, either the entry is live, or it
died since that SETNX (`Charged`).

The clock may show anything here, also a time before the last one
(`anyClockStep`); every run of `idempStep` is such a run.
-/
import Httpe.Idempotency.History
import Httpe.Lib.Charging

namespace Httpe.Idempotency

variable {ι R : Type*}

/-! ## Recursive calls and deaths -/

/-- The SETNX of an invocation finds the key taken. -/
def failedSetnx (i : ι) (t : IdempTransition ι R) : Bool :=
  match t.pre.pc i, t.post.pc i with
  | .setnx, .get => true
  | _, _ => false

/-- The GET of an invocation finds nothing. -/
def recursiveCall (i : ι) (t : IdempTransition ι R) : Bool :=
  match t.pre.pc i, t.post.pc i with
  | .get, .setnx => true
  | _, _ => false

def failedSetnxs (i : ι) (tr : List (IdempTransition ι R)) : ℕ := tr.countP (failedSetnx i)

def recursiveCalls (i : ι) (tr : List (IdempTransition ι R)) : ℕ := tr.countP (recursiveCall i)

/-- Invocations of `start_transaction` on the caller's stack. -/
def recursionDepth (i : ι) (tr : List (IdempTransition ι R)) : ℕ := 1 + recursiveCalls i tr

/-- The key's entry, live at the last clock reading, is gone when the
event comes or after it. -/
def dies (key : String) (t : IdempTransition ι R) : Bool :=
  (t.pre.entryAt key t.pre.now).isSome &&
    ((t.pre.entryAt key t.event.time).isNone || (t.post.entryAt key t.event.time).isNone)

/-- The entry of the call's key dies while the call stands between its
SETNX and its GET. -/
def diesUnder (calls : ι → StartCall) (i : ι) (t : IdempTransition ι R) : Bool :=
  dies (calls i).idempotencyKey t &&
    match t.pre.pc i with
    | .get => true
    | .setnx | .returned _ _ => false

/-- `t`, after the history `l`, pays for recursive call `j`, counting from
zero: the entry dies between the failed SETNX and the GET of the
invocation that makes it. -/
def Pays (calls : ι → StartCall) (i : ι) (j : ℕ) (l : List (IdempTransition ι R))
    (t : IdempTransition ι R) : Prop :=
  failedSetnxs i l = j + 1 ∧ recursiveCalls i l = j ∧ diesUnder calls i t = true

def Charged (calls : ι → StartCall) (i : ι) (tr : List (IdempTransition ι R)) (j : ℕ) : Prop :=
  ∃ l t r, tr = l ++ t :: r ∧ Pays calls i j l t

section History

variable {calls : ι → StartCall} {i : ι} {tr : List (IdempTransition ι R)}
  {t : IdempTransition ι R} {j : ℕ}

theorem failedSetnxs_snoc :
    failedSetnxs i (tr ++ [t]) = failedSetnxs i tr + if failedSetnx i t then 1 else 0 := by
  rw [failedSetnxs, List.countP_append, List.countP_singleton, failedSetnxs]

theorem recursiveCalls_snoc :
    recursiveCalls i (tr ++ [t]) = recursiveCalls i tr + if recursiveCall i t then 1 else 0 := by
  rw [recursiveCalls, List.countP_append, List.countP_singleton, recursiveCalls]

theorem failedSetnxs_le_of_prefix (l l' : List (IdempTransition ι R)) (h : l <+: l') :
    failedSetnxs i l ≤ failedSetnxs i l' :=
  h.countP_le

theorem failedSetnxs_snoc_of_pc_eq (h : t.post.pc i = t.pre.pc i) :
    failedSetnxs i (tr ++ [t]) = failedSetnxs i tr := by
  rw [failedSetnxs_snoc, failedSetnx, h]
  cases t.pre.pc i <;> rfl

theorem recursiveCalls_snoc_of_pc_eq (h : t.post.pc i = t.pre.pc i) :
    recursiveCalls i (tr ++ [t]) = recursiveCalls i tr := by
  rw [recursiveCalls_snoc, recursiveCall, h]
  cases t.pre.pc i <;> rfl

theorem Charged.snoc (h : Charged calls i tr j) : Charged calls i (tr ++ [t]) j :=
  exists_split_snoc h

theorem StartPc.answer_eq_returned (cachedData : CachedData R) :
    ∃ status response, StartPc.answer cachedData = .returned status response := by
  unfold StartPc.answer
  split_ifs
  · exact ⟨_, _, rfl⟩
  · exact ⟨_, _, rfl⟩

end History

/-! ## Every recursive call is paid for -/

section Invariant

variable {calls : ι → StartCall} {i : ι} {s s' : IdempSystem ι R} {e : IdempEvent ι R}
  {tr : List (IdempTransition ι R)}

structure DepthInv (calls : ι → StartCall) (i : ι) (tr : List (IdempTransition ι R))
    (s : IdempSystem ι R) : Prop where
  charged : ∀ j < recursiveCalls i tr, Charged calls i tr j
  atSetnx : s.pc i = .setnx → failedSetnxs i tr = recursiveCalls i tr
  atGet : s.pc i = .get → failedSetnxs i tr = recursiveCalls i tr + 1 ∧
    ((s.entryAt (calls i).idempotencyKey s.now).isSome ∨ Charged calls i tr (recursiveCalls i tr))

/-- While the call stands before its GET, its entry is live or has been
charged, whatever event comes. -/
theorem DepthInv.live_or_charged (h : DepthInv calls i tr s) (hpc : s.pc i = .get)
    (hnow : s'.now = e.time) :
    ((s.entryAt (calls i).idempotencyKey e.time).isSome ∧
      (s'.entryAt (calls i).idempotencyKey s'.now).isSome) ∨
    Charged calls i (tr ++ [⟨s, e, s'⟩]) (recursiveCalls i tr) := by
  obtain ⟨hfailed, hlive | hcharged⟩ := h.atGet hpc
  · by_cases hdies : dies (calls i).idempotencyKey ⟨s, e, s'⟩ = true
    · refine .inr ⟨tr, _, [], rfl, hfailed, rfl, ?_⟩
      simp [diesUnder, hdies, hpc]
    · refine .inl ?_
      simp only [dies, hlive, Bool.true_and, Bool.or_eq_true, not_or, Option.isNone_iff_eq_none,
        ← ne_eq, Option.ne_none_iff_isSome] at hdies
      rw [hnow]
      exact hdies
  · exact .inr hcharged.snoc

theorem DepthInv.charged_snoc (h : DepthInv calls i tr s) {t : IdempTransition ι R} :
    ∀ j < recursiveCalls i tr, Charged calls i (tr ++ [t]) j :=
  fun j hj => (h.charged j hj).snoc

theorem DepthInv.other (h : DepthInv calls i tr s) (hnow : s'.now = e.time)
    (hpc : s'.pc i = s.pc i) : DepthInv calls i (tr ++ [⟨s, e, s'⟩]) s' := by
  have hfailed : failedSetnxs i (tr ++ [⟨s, e, s'⟩]) = failedSetnxs i tr :=
    failedSetnxs_snoc_of_pc_eq hpc
  have hcalls : recursiveCalls i (tr ++ [⟨s, e, s'⟩]) = recursiveCalls i tr :=
    recursiveCalls_snoc_of_pc_eq hpc
  constructor
  · rw [hcalls]
    exact h.charged_snoc
  · intro hsetnx
    rw [hfailed, hcalls]
    exact h.atSetnx (hpc ▸ hsetnx)
  · intro hget
    rw [hfailed, hcalls]
    refine ⟨(h.atGet (hpc ▸ hget)).1, ?_⟩
    rcases h.live_or_charged (hpc ▸ hget) hnow with ⟨-, hlive⟩ | hcharged
    · exact .inl hlive
    · exact .inr hcharged

/-- The call's SETNX fails. -/
theorem DepthInv.failed (h : DepthInv calls i tr s) (hpre : s.pc i = .setnx)
    (hpost : s'.pc i = .get)
    (hlive : (s'.entryAt (calls i).idempotencyKey s'.now).isSome) :
    DepthInv calls i (tr ++ [⟨s, e, s'⟩]) s' := by
  have hfailed : failedSetnxs i (tr ++ [⟨s, e, s'⟩]) = failedSetnxs i tr + 1 := by
    simp [failedSetnxs_snoc, failedSetnx, hpre, hpost]
  have hcalls : recursiveCalls i (tr ++ [⟨s, e, s'⟩]) = recursiveCalls i tr := by
    simp [recursiveCalls_snoc, recursiveCall, hpre]
  constructor
  · rw [hcalls]
    exact h.charged_snoc
  · intro hsetnx
    rw [hpost] at hsetnx
    cases hsetnx
  · intro _
    rw [hfailed, hcalls, h.atSetnx hpre]
    exact ⟨rfl, .inl hlive⟩

/-- The call's GET finds nothing, and it calls itself. -/
theorem DepthInv.again (h : DepthInv calls i tr s) (hpre : s.pc i = .get)
    (hpost : s'.pc i = .setnx) (hnow : s'.now = e.time)
    (hfree : s.entryAt (calls i).idempotencyKey e.time = none) :
    DepthInv calls i (tr ++ [⟨s, e, s'⟩]) s' := by
  have hfailed : failedSetnxs i (tr ++ [⟨s, e, s'⟩]) = failedSetnxs i tr := by
    simp [failedSetnxs_snoc, failedSetnx, hpre]
  have hcalls : recursiveCalls i (tr ++ [⟨s, e, s'⟩]) = recursiveCalls i tr + 1 := by
    simp [recursiveCalls_snoc, recursiveCall, hpre, hpost]
  have hcharged : Charged calls i (tr ++ [⟨s, e, s'⟩]) (recursiveCalls i tr) := by
    rcases h.live_or_charged hpre hnow with ⟨hlive, -⟩ | hcharged
    · rw [hfree] at hlive
      cases hlive
    · exact hcharged
  constructor
  · rw [hcalls]
    exact Nat.forall_lt_succ_right.mpr ⟨h.charged_snoc, hcharged⟩
  · intro _
    rw [hfailed, hcalls]
    exact (h.atGet hpre).1
  · intro hget
    rw [hpost] at hget
    cases hget

theorem DepthInv.returned (h : DepthInv calls i tr s) {status : IdempotencyStatus}
    {response : Option R} (hpost : s'.pc i = .returned status response) :
    DepthInv calls i (tr ++ [⟨s, e, s'⟩]) s' := by
  have hcalls : recursiveCalls i (tr ++ [⟨s, e, s'⟩]) = recursiveCalls i tr := by
    simp [recursiveCalls_snoc, recursiveCall, hpost]
  constructor
  · rw [hcalls]
    exact h.charged_snoc
  · intro hsetnx
    rw [hpost] at hsetnx
    cases hsetnx
  · intro hget
    rw [hpost] at hget
    cases hget

end Invariant

/-! ## Where a call stands alone -/

section Alone

variable {key : String} {s s' : IdempSystem ι R} {i : ι}

/-- Where a call may stand after `n` steps of its own and `k` recursive
calls, if nobody else touches its key. -/
inductive Alone (key : String) (s : IdempSystem ι R) : ℕ → ℕ → StartPc R → Prop
  | start : Alone key s 0 0 .setnx
  | failed : Alone key s 1 0 .get
  | again (hgone : s.storeAt key = none) : Alone key s 2 1 .setnx
  | locked : Alone key s 3 1 (.returned .newRequestLocked none)
  | answered {n : ℕ} {status : IdempotencyStatus} {response : Option R} (hn : n ≤ 2) :
      Alone key s n 0 (.returned status response)

theorem Alone.bounds {n k : ℕ} {pc : StartPc R} (h : Alone key s n k pc) : n ≤ 3 ∧ k ≤ 1 := by
  cases h with
  | start => decide
  | failed => decide
  | again => decide
  | locked => decide
  | answered hn => exact ⟨by omega, by omega⟩

/-- A call that has not returned has a step left. -/
theorem Alone.lt_of_not_returned {n k : ℕ} {pc : StartPc R} (h : Alone key s n k pc)
    (hpc : ∀ status response, pc ≠ .returned status response) : n < 3 := by
  cases h with
  | start => decide
  | failed => decide
  | again => decide
  | locked => exact absurd rfl (hpc _ _)
  | answered => exact absurd rfl (hpc _ _)

/-- A call that has called itself returns the lock. -/
theorem Alone.locked_of_again {n : ℕ} {status : IdempotencyStatus} {response : Option R}
    (h : Alone key s n 1 (.returned status response)) :
    status = .newRequestLocked ∧ response = none := by
  cases h with
  | locked => exact ⟨rfl, rfl⟩

theorem Alone.other {n k : ℕ} (h : Alone key s n k (s.pc i)) (hpc : s'.pc i = s.pc i)
    (hstore : s'.storeAt key = s.storeAt key) : Alone key s' n k (s'.pc i) := by
  rw [hpc]
  generalize s.pc i = pc at h
  cases h with
  | start => exact .start
  | failed => exact .failed
  | again hgone => exact .again (hstore.trans hgone)
  | locked => exact .locked
  | answered hn => exact .answered hn

end Alone

variable [DecidableEq ι]

/-! ## Any clock -/

/-- One event at whatever time the clock shows. -/
def anyClockStep (m : IdempotencyManager) (calls : ι → StartCall) (s : IdempSystem ι R)
    (e : IdempEvent ι R) : Option (IdempSystem ι R) :=
  idempStep m calls { s with now := e.time } e

variable {m : IdempotencyManager} {calls : ι → StartCall} {i : ι} {key : String}
  {s s' s₀ : IdempSystem ι R} {e : IdempEvent ι R} {tr : List (IdempTransition ι R)}

theorem anyClockStep_of_idempStep (h : idempStep m calls s e = some s') :
    anyClockStep m calls s e = some s' := by
  unfold anyClockStep
  unfold idempStep at h ⊢
  split_ifs at h
  rw [if_pos le_rfl]
  exact h

theorem anyClock_of_run (hrun : Run (idempStep m calls) s₀ tr s) :
    Run (anyClockStep m calls) s₀ tr s :=
  hrun.weaken fun _ _ _ h => anyClockStep_of_idempStep h

theorem idempMove_of_anyClockStep (h : anyClockStep m calls s e = some s') :
    IdempMove m calls { s with now := e.time } e s' :=
  idempMove_of_step h

/-- A client's step moves no other client's call. -/
theorem IdempMove.pc_of_not_own (h : IdempMove m calls s e s') (hne : e.client ≠ i) :
    s'.pc i = s.pc i := by
  cases h with
  | acquire => exact Function.update_of_ne (Ne.symm hne) _ _
  | taken => exact Function.update_of_ne (Ne.symm hne) _ _
  | vanished => exact Function.update_of_ne (Ne.symm hne) _ _
  | answer => exact Function.update_of_ne (Ne.symm hne) _ _
  | complete => rfl
  | release => rfl

theorem IdempMove.storeAt_of_key_ne (h : IdempMove m calls s e s')
    (hne : (calls e.client).idempotencyKey ≠ key) : s'.storeAt key = s.storeAt key := by
  have hother : redisKey key ≠ redisKey (calls e.client).idempotencyKey :=
    fun heq => hne (redisKey_inj.mp heq).symm
  cases h with
  | acquire => exact MockRedisCluster.put_store_of_ne hother
  | taken => rfl
  | vanished => exact MockRedisCluster.erase_store_of_ne hother
  | answer => rfl
  | complete => exact MockRedisCluster.put_store_of_ne hother
  | release => exact MockRedisCluster.erase_store_of_ne hother

/-- An entry dies by its time running out, by a deletion, or by a
completion whose own time-to-live is over at once. -/
theorem dies_of_step (h : anyClockStep m calls s e = some s')
    (hdies : dies key ⟨s, e, s'⟩ = true) :
    ∃ entry, s.storeAt key = some entry ∧ s.now < entry.expiry ∧
      (entry.expiry ≤ e.time ∨ (calls e.client).idempotencyKey = key ∧
        (e.op = .release ∨ ∃ r, e.op = .complete r ∧ m.cacheTtl ≤ 0)) := by
  obtain ⟨hlive, hdead⟩ := Bool.and_eq_true_iff.mp hdies
  obtain ⟨entry, hentry⟩ := Option.isSome_iff_exists.mp hlive
  obtain ⟨hstore, hlt⟩ := IdempSystem.entryAt_eq_some.mp hentry
  refine ⟨entry, hstore, hlt, ?_⟩
  by_cases hexpired : entry.expiry ≤ e.time
  · exact .inl hexpired
  · have hstill : s.entryAt key e.time = some entry :=
      IdempSystem.entryAt_eq_some.mpr ⟨hstore, not_le.mp hexpired⟩
    have hgone : s'.entryAt key e.time = none := by
      simpa [hstill] using hdead
    have hmove := idempMove_of_anyClockStep h
    by_cases hkey : (calls e.client).idempotencyKey = key
    · refine .inr ⟨hkey, ?_⟩
      subst hkey
      cases hmove with
      | acquire _ _ hfree => exact absurd (hstill.symm.trans hfree) nofun
      | taken => exact absurd (hstill.symm.trans hgone) nofun
      | vanished _ _ hfree => exact absurd (hstill.symm.trans hfree) nofun
      | answer => exact absurd (hstill.symm.trans hgone) nofun
      | @complete j r t =>
          refine .inr ⟨r, rfl, ?_⟩
          have hexp := IdempSystem.entryAt_eq_none.mp hgone _ MockRedisCluster.put_store
          have hnonpos : (m.cacheTtl : ℚ) ≤ 0 := (add_le_iff_nonpos_right t).mp hexp
          exact_mod_cast hnonpos
      | release => exact .inl rfl
    · have hsame : s'.storeAt key = s.storeAt key := hmove.storeAt_of_key_ne hkey
      have hlive' : s'.entryAt key e.time = some entry :=
        IdempSystem.entryAt_eq_some.mpr ⟨hsame.trans hstore, not_le.mp hexpired⟩
      rw [hlive'] at hgone
      cases hgone

theorem DepthInv.step (h : DepthInv calls i tr s)
    (hstep : anyClockStep m calls s e = some s') : DepthInv calls i (tr ++ [⟨s, e, s'⟩]) s' := by
  have hmove := idempMove_of_anyClockStep hstep
  by_cases hown : e.client = i
  · subst hown
    cases hmove with
    | acquire => exact h.returned (Function.update_self ..)
    | @taken _ _ entry _ hpc hlive =>
        exact h.failed hpc (Function.update_self ..) (Option.isSome_iff_exists.mpr ⟨entry, hlive⟩)
    | vanished _ hpc hfree => exact h.again hpc (Function.update_self ..) rfl hfree
    | @answer _ _ entry =>
        obtain ⟨status, response, hanswer⟩ := StartPc.answer_eq_returned entry.value
        exact h.returned ((Function.update_self ..).trans hanswer)
    | complete => exact h.other rfl rfl
    | release => exact h.other rfl rfl
  · exact h.other hmove.now_eq (hmove.pc_of_not_own hown)

theorem depthInv_of_run (hstart : s₀.pc i = .setnx) (hrun : Run (anyClockStep m calls) s₀ tr s) :
    DepthInv calls i tr s := by
  refine hrun.invariant (DepthInv calls i) ?_ fun tr s e s' _ ih hstep => ih.step hstep
  constructor
  · exact nofun
  · exact fun _ => rfl
  · intro hget
    exact absurd (hstart.symm.trans hget) nofun

/-! ## A call nobody interferes with -/

/-- The event is on another key, or a step of call `i`. -/
def Undisturbed (calls : ι → StartCall) (i : ι) (t : IdempTransition ι R) : Prop :=
  (calls t.event.client).idempotencyKey = (calls i).idempotencyKey →
    t.event.client = i ∧ t.event.op = .start

/-- Accesses that call `i` has made, if its client makes no other. -/
def ownSteps (i : ι) (tr : List (IdempTransition ι R)) : ℕ :=
  tr.countP fun t => t.event.client = i

/-- A step of the call: it fails its SETNX, or finds nothing and leaves
nothing behind, or returns, and on an empty key it returns the lock. -/
theorem Alone.own {n k : ℕ} {t : ℚ} (h : Alone (calls i).idempotencyKey s n k (s.pc i))
    (hstep : anyClockStep m calls s ⟨i, .start, t⟩ = some s') :
    Alone (calls i).idempotencyKey s' (n + 1)
      (k + if recursiveCall i ⟨s, ⟨i, .start, t⟩, s'⟩ then 1 else 0) (s'.pc i) := by
  unfold recursiveCall
  simp only
  cases idempMove_of_anyClockStep hstep with
  | acquire _ hpc hfree =>
      change s.pc i = .setnx at hpc
      rw [hpc] at h ⊢
      simp only [Function.update_self]
      cases h with
      | start => exact .answered (by decide)
      | again => exact .locked
  | @taken _ _ entry _ hpc hlive =>
      change s.pc i = .setnx at hpc
      rw [hpc] at h ⊢
      simp only [Function.update_self]
      cases h with
      | start => exact .failed
      | again hgone =>
          have hstore := (IdempSystem.entryAt_eq_some.mp hlive).1
          exact absurd (hgone.symm.trans hstore) nofun
  | vanished _ hpc hfree =>
      change s.pc i = .get at hpc
      rw [hpc] at h ⊢
      simp only [Function.update_self]
      cases h with
      | failed => exact .again MockRedisCluster.erase_store
  | @answer _ _ entry _ hpc hlive =>
      change s.pc i = .get at hpc
      obtain ⟨status, response, hanswer⟩ := StartPc.answer_eq_returned entry.value
      rw [hpc] at h ⊢
      simp only [Function.update_self, hanswer]
      cases h with
      | failed => exact .answered (by decide)

theorem alone_of_run (hstart : s₀.pc i = .setnx) (hrun : Run (anyClockStep m calls) s₀ tr s)
    (hquiet : ∀ t ∈ tr, Undisturbed calls i t) :
    Alone (calls i).idempotencyKey s (ownSteps i tr) (recursiveCalls i tr) (s.pc i) := by
  refine hrun.invariant_of_forall (Undisturbed calls i)
    (fun tr s => Alone (calls i).idempotencyKey s (ownSteps i tr) (recursiveCalls i tr) (s.pc i))
    (hstart ▸ .start) ?_ hquiet
  intro tr s e s' _ ih hstep hone
  have hmove := idempMove_of_anyClockStep hstep
  rw [ownSteps, List.countP_append, List.countP_singleton, ← ownSteps]
  by_cases hkey : (calls e.client).idempotencyKey = (calls i).idempotencyKey
  · obtain ⟨hown, hop⟩ := hone hkey
    obtain ⟨j, op, t⟩ := e
    subst hown hop
    rw [recursiveCalls_snoc]
    simpa using ih.own hstep
  · have hown : e.client ≠ i := fun hown => hkey (congrArg (fun j => (calls j).idempotencyKey) hown)
    have hpc := hmove.pc_of_not_own hown
    rw [recursiveCalls_snoc_of_pc_eq hpc]
    simpa [hown] using ih.other hpc (hmove.storeAt_of_key_ne hkey)

/-- **The recursion terminates.** Whatever the store holds when a call
starts, whatever the clock shows and whatever else happens meanwhile:
each recursive call has an expiry or deletion of the key's entry of its
own, between the failed SETNX and the GET of the invocation that made it,
so there are at most as many. If nobody else touches the key, the call
makes at most one recursive call and three accesses, an access is always
possible until it returns, and after a recursive call it returns the
lock. -/
theorem recursion_paid_by_deaths (hstart : s₀.pc i = .setnx)
    (hrun : Run (anyClockStep m calls) s₀ tr s) :
    (∃ charge : Fin (recursiveCalls i tr) → Fin tr.length, StrictMono charge ∧
      ∀ j : Fin (recursiveCalls i tr), Pays calls i j (tr.take (charge j)) (tr.get (charge j))) ∧
    recursionDepth i tr ≤ 1 + tr.countP (diesUnder calls i) ∧
    ((∀ t ∈ tr, Undisturbed calls i t) →
      recursiveCalls i tr ≤ 1 ∧ ownSteps i tr ≤ 3 ∧
      ((∀ status response, s.pc i ≠ .returned status response) → ownSteps i tr < 3 ∧
        ∀ t, (anyClockStep m calls s ⟨i, .start, t⟩).isSome) ∧
      (recursiveCalls i tr = 1 → ∀ status response, s.pc i = .returned status response →
        status = .newRequestLocked ∧ response = none)) := by
  have hcharge : ∃ charge : Fin (recursiveCalls i tr) → Fin tr.length, StrictMono charge ∧
      ∀ j : Fin (recursiveCalls i tr), Pays calls i j (tr.take (charge j)) (tr.get (charge j)) :=
    exists_strictMono_positions (P := Pays calls i) failedSetnxs_le_of_prefix
      (fun j l t hpays => hpays.1) (depthInv_of_run hstart hrun).charged
  refine ⟨hcharge, ?_, fun hquiet => ?_⟩
  · obtain ⟨charge, hmono, hpays⟩ := hcharge
    exact Nat.add_le_add_left (le_countP_of_charged hmono fun j => (hpays j).2.2) 1
  · have halone := alone_of_run hstart hrun hquiet
    refine ⟨halone.bounds.2, halone.bounds.1, fun hpc => ?_, fun hagain status response hpc => ?_⟩
    · exact ⟨halone.lt_of_not_returned hpc, fun t => idempStep_start_isSome le_rfl hpc⟩
    · rw [hagain, hpc] at halone
      exact halone.locked_of_again

/-- The lock of another submission runs out between the SETNX and the
GET. -/
theorem recursion_paid_by_deaths_expired :
    let held := exec (idempStep (R := ℕ) {} submitted) (.start 0) [⟨0, .start, 0⟩]
    let run := exec (idempStep {} submitted) held.2
      [⟨1, .start, 119⟩, ⟨1, .start, 120⟩, ⟨1, .start, 120⟩]
    recursionDepth 1 run.1 = 2 ∧ 1 ≤ run.1.countP (diesUnder submitted 1) ∧
    run.2.pc 1 = .returned .newRequestLocked none := by
  intro held run
  have hrun : Run (anyClockStep {} submitted) held.2 run.1 run.2 :=
    anyClock_of_run (run_exec _ _ _)
  have hdepth : recursionDepth 1 run.1 = 2 := by decide +kernel
  have hreturned : ∃ status response, run.2.pc 1 = .returned status response :=
    ⟨.newRequestLocked, none, by decide +kernel⟩
  have hquiet : ∀ t ∈ run.1, t.event.client = 1 ∧ t.event.op = .start := by decide +kernel
  have hstart : held.2.pc 1 = .setnx := by decide +kernel
  obtain ⟨-, hbound, halone⟩ := recursion_paid_by_deaths hstart hrun
  refine ⟨hdepth, ?_, ?_⟩
  · rw [hdepth] at hbound
    omega
  · obtain ⟨status, response, hpc⟩ := hreturned
    obtain ⟨rfl, rfl⟩ := (halone fun t ht _ => hquiet t ht).2.2.2
      (by unfold recursionDepth at hdepth; omega) status response hpc
    exact hpc

end Httpe.Idempotency
