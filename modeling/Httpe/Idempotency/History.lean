/-
Httpe.Idempotency.History — what one key's entry says about the calls
made on it.

`KeyMove` is a step of the system as one key sees it. `finishes` are the
`complete_transaction` and `release_lock_on_failure` calls made on the
key so far. `CacheInv` ties the two together on every run, whoever makes
those calls and whenever: the store holds a completed payload exactly as
the last of them left it, until its time-to-live is over.
`returned_completed_iff` is what that means for `start_transaction`.
-/
import Httpe.Idempotency.Manager

namespace Httpe.Idempotency

variable {ι R : Type*}

/-- The raw entry of an idempotency key, expired or not. -/
def IdempSystem.storeAt (s : IdempSystem ι R) (key : String) : Option (Entry (CachedData R)) :=
  s.redis.store (redisKey key)

@[simp] theorem IdempSystem.start_storeAt {t₀ : ℚ} {key : String} :
    (IdempSystem.start t₀ : IdempSystem ι R).storeAt key = none := rfl

theorem IdempSystem.entryAt_eq_some {s : IdempSystem ι R} {key : String} {t : ℚ}
    {entry : Entry (CachedData R)} :
    s.entryAt key t = some entry ↔ s.storeAt key = some entry ∧ t < entry.expiry :=
  MockRedisCluster.liveEntry_eq_some

theorem IdempSystem.entryAt_eq_none {s : IdempSystem ι R} {key : String} {t : ℚ} :
    s.entryAt key t = none ↔ ∀ entry, s.storeAt key = some entry → entry.expiry ≤ t :=
  MockRedisCluster.liveEntry_eq_none

/-- A `complete_transaction` call, or with no response a
`release_lock_on_failure` call. -/
structure Finish (ι R : Type*) where
  client : ι
  response : Option R
  time : ℚ
  deriving DecidableEq

def finishOn (calls : ι → StartCall) (key : String) (e : IdempEvent ι R) : Option (Finish ι R) :=
  if (calls e.client).idempotencyKey = key then
    match e.op with
    | .start => none
    | .complete r => some ⟨e.client, some r, e.time⟩
    | .release => some ⟨e.client, none, e.time⟩
  else none

/-- The calls that finished the key, oldest first. -/
def finishes (calls : ι → StartCall) (key : String) (tr : List (IdempTransition ι R)) :
    List (Finish ι R) :=
  tr.filterMap fun t => finishOn calls key t.event

def lastFinish (calls : ι → StartCall) (key : String) (tr : List (IdempTransition ι R)) :
    Option (Finish ι R) :=
  (finishes calls key tr).getLast?

/-- Only an unfinished holder finishes the key. -/
def ByHolder (calls : ι → StartCall) (key : String) (t : IdempTransition ι R) : Prop :=
  (finishOn calls key t.event).isSome → (t.pre.lockedSince t.event.client).isSome

/-- The step is one of `start_transaction` on the key, and the call
returns. -/
def Returns (calls : ι → StartCall) (key : String) (t : IdempTransition ι R)
    (status : IdempotencyStatus) (response : Option R) : Prop :=
  t.event.op = .start ∧ (calls t.event.client).idempotencyKey = key ∧
    t.post.pc t.event.client = .returned status response

section Finishes

variable {calls : ι → StartCall} {key : String} {tr : List (IdempTransition ι R)}
  {t : IdempTransition ι R} {e : IdempEvent ι R} {f : Finish ι R}

theorem finishOn_eq_some (h : finishOn calls key e = some f) :
    (calls e.client).idempotencyKey = key ∧ f.client = e.client ∧ f.time = e.time := by
  obtain ⟨i, op, t⟩ := e
  cases op <;> simp only [finishOn] at h <;> split_ifs at h with hkey <;> cases h <;>
    exact ⟨hkey, rfl, rfl⟩

@[simp] theorem lastFinish_nil : lastFinish calls key ([] : List (IdempTransition ι R)) = none :=
  rfl

theorem finishes_snoc_of_none (h : finishOn calls key t.event = none) :
    finishes calls key (tr ++ [t]) = finishes calls key tr := by
  simp [finishes, List.filterMap_append, h]

theorem finishes_snoc_of_some (h : finishOn calls key t.event = some f) :
    finishes calls key (tr ++ [t]) = finishes calls key tr ++ [f] := by
  simp [finishes, List.filterMap_append, h]

theorem lastFinish_snoc_of_none (h : finishOn calls key t.event = none) :
    lastFinish calls key (tr ++ [t]) = lastFinish calls key tr := by
  rw [lastFinish, finishes_snoc_of_none h, lastFinish]

theorem lastFinish_snoc_of_some (h : finishOn calls key t.event = some f) :
    lastFinish calls key (tr ++ [t]) = some f := by
  rw [lastFinish, finishes_snoc_of_some h, List.getLast?_concat]

end Finishes

variable [DecidableEq ι]

/-! ## A step as one key sees it -/

/-- Every step leaves the key alone, acquires it, clears its expired
entry, or finishes it. -/
inductive KeyMove (m : IdempotencyManager) (calls : ι → StartCall) (key : String)
    (s : IdempSystem ι R) : IdempEvent ι R → IdempSystem ι R → Prop
  | idle {e : IdempEvent ι R} {s' : IdempSystem ι R} (hstore : s'.storeAt key = s.storeAt key)
      (hlocked : ∀ j, (calls j).idempotencyKey = key → s'.lockedSince j = s.lockedSince j)
      (hfinish : finishOn calls key e = none) : KeyMove m calls key s e s'
  | acquire {i : ι} {t : ℚ} {s' : IdempSystem ι R} (hkey : (calls i).idempotencyKey = key)
      (hpc : s.pc i = .setnx) (hfree : s.entryAt key t = none)
      (hstore : s'.storeAt key = some ⟨lockPayload (calls i).requestHash, t + m.lockTtl⟩)
      (hlocked : s'.lockedSince = Function.update s.lockedSince i (some t)) :
      KeyMove m calls key s ⟨i, .start, t⟩ s'
  | expire {i : ι} {t : ℚ} {s' : IdempSystem ι R} (hfree : s.entryAt key t = none)
      (hstore : s'.storeAt key = none) (hlocked : s'.lockedSince = s.lockedSince) :
      KeyMove m calls key s ⟨i, .start, t⟩ s'
  | finish {e : IdempEvent ι R} {f : Finish ι R} {s' : IdempSystem ι R}
      (hfin : finishOn calls key e = some f)
      (hstore : s'.storeAt key = f.response.map fun r => ⟨cachedPayload r, f.time + m.cacheTtl⟩)
      (hlocked : s'.lockedSince = Function.update s.lockedSince f.client none) :
      KeyMove m calls key s e s'

variable {m : IdempotencyManager} {calls : ι → StartCall} {key : String}
  {s s' : IdempSystem ι R} {e : IdempEvent ι R}

/-- What a step on another key does here. -/
theorem update_of_key_ne {i j : ι} {since : Option ℚ} {lockedSince : ι → Option ℚ}
    (hi : (calls i).idempotencyKey ≠ key) (hj : (calls j).idempotencyKey = key) :
    Function.update lockedSince i since j = lockedSince j :=
  Function.update_of_ne (fun hij : j = i => hi (hij ▸ hj)) _ _

theorem IdempMove.keyMove (h : IdempMove m calls s e s') (key : String) :
    KeyMove m calls key s e s' := by
  cases h with
  | @acquire i t _ hpc hfree =>
      by_cases hkey : (calls i).idempotencyKey = key
      · subst hkey
        exact .acquire rfl hpc hfree MockRedisCluster.put_store rfl
      · exact .idle (MockRedisCluster.put_store_of_ne fun h => hkey (redisKey_inj.mp h).symm)
          (fun j hj => update_of_key_ne hkey hj) (if_neg hkey)
  | taken => exact .idle rfl (fun _ _ => rfl) (by simp [finishOn])
  | @vanished i t _ _ hfree =>
      by_cases hkey : (calls i).idempotencyKey = key
      · subst hkey
        exact .expire hfree MockRedisCluster.erase_store rfl
      · exact .idle (MockRedisCluster.erase_store_of_ne fun h => hkey (redisKey_inj.mp h).symm)
          (fun _ _ => rfl) (if_neg hkey)
  | answer => exact .idle rfl (fun _ _ => rfl) (by simp [finishOn])
  | @complete i r t _ =>
      by_cases hkey : (calls i).idempotencyKey = key
      · subst hkey
        exact .finish (if_pos rfl) MockRedisCluster.put_store rfl
      · exact .idle (MockRedisCluster.put_store_of_ne fun h => hkey (redisKey_inj.mp h).symm)
          (fun j hj => update_of_key_ne hkey hj) (if_neg hkey)
  | @release i t _ =>
      by_cases hkey : (calls i).idempotencyKey = key
      · subst hkey
        exact .finish (if_pos rfl) MockRedisCluster.erase_store rfl
      · exact .idle (MockRedisCluster.erase_store_of_ne fun h => hkey (redisKey_inj.mp h).symm)
          (fun j hj => update_of_key_ne hkey hj) (if_neg hkey)

/-! ## The cached response -/

/-- A completed payload is in the store exactly if the last call that
finished the key put it there. -/
structure CacheInv (m : IdempotencyManager) (calls : ι → StartCall) (key : String)
    (tr : List (IdempTransition ι R)) (s : IdempSystem ι R) : Prop where
  stored : ∀ entry, s.storeAt key = some entry → entry.value.status ≠ .inFlight →
    ∃ i r τ, lastFinish calls key tr = some ⟨i, some r, τ⟩ ∧
      entry = ⟨cachedPayload r, τ + m.cacheTtl⟩
  kept : ∀ i r τ, lastFinish calls key tr = some ⟨i, some r, τ⟩ → s.now < τ + m.cacheTtl →
    s.storeAt key = some ⟨cachedPayload r, τ + m.cacheTtl⟩

variable {tr : List (IdempTransition ι R)} {t₀ : ℚ}

theorem CacheInv.step (h : CacheInv m calls key tr s) (hmove : IdempMove m calls s e s') :
    CacheInv m calls key (tr ++ [⟨s, e, s'⟩]) s' := by
  have hnow : s.now ≤ s'.now := hmove.time_le.trans_eq hmove.now_eq.symm
  have htime := hmove.now_eq
  -- an entry that is kept is live, so nobody finds the key free
  have hlive : ∀ i r τ, lastFinish calls key tr = some ⟨i, some r, τ⟩ →
      s'.now < τ + m.cacheTtl → s.entryAt key s'.now ≠ none := by
    intro i r τ hlast hlt hfree
    exact absurd (IdempSystem.entryAt_eq_none.mp hfree _ (h.kept i r τ hlast (hnow.trans_lt hlt)))
      (not_le.mpr hlt)
  cases hmove.keyMove key with
  | idle hstore _ hfinish =>
      constructor
      · intro entry hentry hstatus
        rw [lastFinish_snoc_of_none hfinish]
        exact h.stored entry (hstore ▸ hentry) hstatus
      · intro i r τ hlast hlt
        rw [lastFinish_snoc_of_none hfinish] at hlast
        rw [hstore]
        exact h.kept i r τ hlast (hnow.trans_lt hlt)
  | acquire hkey _ hfree hstore _ =>
      constructor
      · intro entry hentry hstatus
        rw [hstore] at hentry
        cases hentry
        exact absurd lockPayload_status hstatus
      · intro i r τ hlast hlt
        rw [lastFinish_snoc_of_none (by simp [finishOn])] at hlast
        exact absurd (htime ▸ hfree) (hlive i r τ hlast hlt)
  | expire hfree hstore _ =>
      constructor
      · intro entry hentry
        rw [hstore] at hentry
        cases hentry
      · intro i r τ hlast hlt
        rw [lastFinish_snoc_of_none (by simp [finishOn])] at hlast
        exact absurd (htime ▸ hfree) (hlive i r τ hlast hlt)
  | finish hfin hstore _ =>
      constructor
      · intro entry hentry _
        rw [hstore] at hentry
        obtain ⟨r, hr, rfl⟩ := Option.map_eq_some_iff.mp hentry
        exact ⟨_, r, _, (lastFinish_snoc_of_some hfin).trans (by rw [← hr]), rfl⟩
      · intro i r τ hlast _
        rw [lastFinish_snoc_of_some hfin] at hlast
        cases hlast
        exact hstore

theorem cacheInv_of_run (hrun : Run (idempStep m calls) (.start t₀) tr s) (key : String) :
    CacheInv m calls key tr s := by
  refine hrun.invariant (CacheInv m calls key)
    ⟨fun _ h => by simp at h, fun _ _ _ h => by simp at h⟩ ?_
  exact fun tr s e s' _ ih hstep => ih.step (idempMove_of_step hstep)

/-- While the last completion is not undone, its response is what the
store answers, until its time-to-live is over. -/
theorem entryAt_of_lastFinish (hrun : Run (idempStep m calls) (.start t₀) tr s) {i : ι} {r : R}
    {τ t : ℚ} (hlast : lastFinish calls key tr = some ⟨i, some r, τ⟩) (ht : s.now ≤ t)
    (hlt : t < τ + m.cacheTtl) :
    s.entryAt key t = some ⟨cachedPayload r, τ + m.cacheTtl⟩ :=
  IdempSystem.entryAt_eq_some.mpr
    ⟨(cacheInv_of_run hrun key).kept i r τ hlast (ht.trans_lt hlt), hlt⟩

/-- **What COMPLETED means.** A step of `start_transaction` returns
COMPLETED exactly if it is the GET, the last call that finished the key
is a `complete_transaction`, and its time-to-live is not over; what it
returns is that call's response. -/
theorem returned_completed_iff (hrun : Run (idempStep m calls) (.start t₀) tr s) {j : ι} {t : ℚ}
    (hmove : IdempMove m calls s ⟨j, .start, t⟩ s') {response : Option R} :
    s'.pc j = .returned .completed response ↔
      s.pc j = .get ∧ ∃ i r τ, lastFinish calls (calls j).idempotencyKey tr
        = some ⟨i, some r, τ⟩ ∧ t < τ + m.cacheTtl ∧ response = some r := by
  have htime := hmove.time_le
  have hinv := cacheInv_of_run hrun (calls j).idempotencyKey
  cases hmove with
  | acquire _ hpc _ => simp [hpc]
  | taken _ hpc _ => simp [hpc]
  | vanished _ _ hfree =>
      simp only [Function.update_self, reduceCtorEq, false_iff, not_and, not_exists]
      intro _ i r τ hlast hlt _
      rw [entryAt_of_lastFinish hrun hlast htime hlt] at hfree
      cases hfree
  | @answer _ _ entry _ hpc hlive =>
      obtain ⟨hstore, hexp⟩ := IdempSystem.entryAt_eq_some.mp hlive
      simp only [Function.update_self, StartPc.answer, hpc, true_and]
      constructor
      · intro heq
        by_cases hstatus : entry.value.status = .inFlight
        · rw [if_pos hstatus] at heq
          cases heq
        rw [if_neg hstatus] at heq
        obtain ⟨i, r, τ, hlast, rfl⟩ := hinv.stored entry hstore hstatus
        cases heq
        exact ⟨i, r, τ, hlast, hexp, rfl⟩
      · rintro ⟨i, r, τ, hlast, hlt, rfl⟩
        rw [entryAt_of_lastFinish hrun hlast htime hlt] at hlive
        cases hlive
        rfl

/-! ## What a returning step was -/

section Returns

variable {t : IdempTransition ι R} {response : Option R}
  (hmove : IdempMove m calls t.pre t.event t.post)
include hmove

/-- The key was free. -/
theorem Returns.free (h : Returns calls key t .newRequestLocked response) :
    t.pre.entryAt key t.event.time = none := by
  obtain ⟨hop, rfl, hpc⟩ := h
  obtain ⟨s₁, ⟨j, op, time⟩, s₂⟩ := t
  obtain rfl : op = .start := hop
  exact ((returned_newRequestLocked_iff hmove).mp hpc).2.1

/-- The GET found a lock. -/
theorem Returns.locked (h : Returns calls key t .inFlight response) :
    t.pre.pc t.event.client = .get ∧ ∃ entry,
      t.pre.entryAt key t.event.time = some entry ∧ entry.value.status = .inFlight := by
  obtain ⟨hop, rfl, hpc⟩ := h
  obtain ⟨s₁, ⟨j, op, time⟩, s₂⟩ := t
  obtain rfl : op = .start := hop
  obtain ⟨hget, -, hentry⟩ := (returned_inFlight_iff hmove).mp hpc
  exact ⟨hget, hentry⟩

/-- The GET found the last completion. -/
theorem Returns.cached (hrun : Run (idempStep m calls) (.start t₀) tr t.pre)
    (h : Returns calls key t .completed response) :
    t.pre.pc t.event.client = .get ∧ ∃ i r τ, lastFinish calls key tr = some ⟨i, some r, τ⟩ ∧
      t.event.time < τ + m.cacheTtl ∧ response = some r := by
  obtain ⟨hop, rfl, hpc⟩ := h
  obtain ⟨s₁, ⟨j, op, time⟩, s₂⟩ := t
  obtain rfl : op = .start := hop
  exact (returned_completed_iff hrun hmove).mp hpc

end Returns

end Httpe.Idempotency
