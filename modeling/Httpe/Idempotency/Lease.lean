/-
Httpe.Idempotency.Lease — one key under slow holders.

`complete_transaction` and `release_lock_on_failure` know the key only,
so a holder whose lock expired can overwrite or delete the lock of the
client that came after it. `SparesLeases` says a step does not: it is
the exact condition, step by step. A run whose steps all meet it keeps
every lease exclusive, and after a step that does not meet it the next
client to start can break one.
-/
import Httpe.Idempotency.History

namespace Httpe.Idempotency

variable {ι R : Type*}

/-- If the step acquires the key, then `lock_ttl` has passed since the
acquisition of every holder still unfinished. -/
def LeaseExclusive (m : IdempotencyManager) (calls : ι → StartCall) (key : String)
    (t : IdempTransition ι R) : Prop :=
  ∀ response, Returns calls key t .newRequestLocked response →
    ∀ i, (calls i).idempotencyKey = key → ∀ since ∈ t.pre.lockedSince i,
      since + m.lockTtl ≤ t.event.time

/-- If the step finishes the key while another client's lock has not
expired, it is a completion that outlives that lock. -/
def SparesLeases (m : IdempotencyManager) (calls : ι → StartCall) (key : String)
    (t : IdempTransition ι R) : Prop :=
  ∀ f ∈ finishOn calls key t.event, ∀ i, i ≠ f.client → (calls i).idempotencyKey = key →
    ∀ since ∈ t.pre.lockedSince i, f.time < since + m.lockTtl →
      f.response.isSome ∧ since + m.lockTtl ≤ f.time + m.cacheTtl

variable [DecidableEq ι] {m : IdempotencyManager} {calls : ι → StartCall} {key : String}
  {tr : List (IdempTransition ι R)} {s s' : IdempSystem ι R} {e : IdempEvent ι R} {t₀ : ℚ}

/-- Whose lock has not expired, its key is not free before it does. -/
def LeaseInv (m : IdempotencyManager) (calls : ι → StartCall) (key : String)
    (s : IdempSystem ι R) : Prop :=
  ∀ i, (calls i).idempotencyKey = key → ∀ since ∈ s.lockedSince i, s.now < since + m.lockTtl →
    ∃ entry, s.storeAt key = some entry ∧ since + m.lockTtl ≤ entry.expiry

omit [DecidableEq ι] in
theorem LeaseInv.expired_of_free (h : LeaseInv m calls key s) (htime : s.now ≤ e.time)
    (hfree : s.entryAt key e.time = none) {i : ι} (hkey : (calls i).idempotencyKey = key)
    {since : ℚ} (hsince : since ∈ s.lockedSince i) : since + m.lockTtl ≤ e.time := by
  by_contra hlt
  obtain ⟨entry, hstore, hexp⟩ := h i hkey since hsince (htime.trans_lt (not_le.mp hlt))
  exact hlt (hexp.trans (IdempSystem.entryAt_eq_none.mp hfree entry hstore))

theorem LeaseInv.step (h : LeaseInv m calls key s) (hmove : IdempMove m calls s e s')
    (hspare : SparesLeases m calls key ⟨s, e, s'⟩) : LeaseInv m calls key s' := by
  intro i hi since hsince hlt
  have htime := hmove.time_le
  have hnow := hmove.now_eq
  rw [hnow] at hlt
  cases hmove.keyMove key with
  | idle hstore hlocked _ =>
      rw [hstore]
      exact h i hi since (hlocked i hi ▸ hsince) (htime.trans_lt hlt)
  | @acquire j t _ _ _ hfree hstore hlocked =>
      rw [hlocked] at hsince
      by_cases hij : i = j
      · rw [hij, Function.update_self] at hsince
        cases hsince
        exact ⟨_, hstore, le_rfl⟩
      · rw [Function.update_of_ne hij] at hsince
        exact absurd (h.expired_of_free htime hfree hi hsince) (not_le.mpr hlt)
  | expire hfree _ hlocked =>
      rw [hlocked] at hsince
      exact absurd (h.expired_of_free htime hfree hi hsince) (not_le.mpr hlt)
  | @finish _ f _ hfin hstore hlocked =>
      rw [hlocked] at hsince
      by_cases hij : i = f.client
      · rw [hij, Function.update_self] at hsince
        cases hsince
      · rw [Function.update_of_ne hij] at hsince
        rw [← (finishOn_eq_some hfin).2.2] at hlt
        obtain ⟨hresp, hexp⟩ := hspare f hfin i hij hi since hsince hlt
        obtain ⟨r, hr⟩ := Option.isSome_iff_exists.mp hresp
        exact ⟨⟨cachedPayload r, f.time + m.cacheTtl⟩, by rw [hstore, hr]; rfl, hexp⟩

theorem leaseInv_of_run (hrun : Run (idempStep m calls) (.start t₀) tr s)
    (hspare : ∀ t ∈ tr, SparesLeases m calls key t) : LeaseInv m calls key s := by
  refine hrun.invariant_of_forall (SparesLeases m calls key) (fun _ s => LeaseInv m calls key s)
    (fun _ _ _ h => by cases h) ?_ hspare
  exact fun tr s e s' _ ih hstep ht => ih.step (idempMove_of_step hstep) ht

/-- A client that has not started yet acquires a free key. -/
theorem step_of_free {j : ι} {time : ℚ} (htime : s.now ≤ time) (hpc : s.pc j = .setnx)
    (hfree : s.entryAt (calls j).idempotencyKey time = none) :
    ∃ s', idempStep m calls s ⟨j, .start, time⟩ = some s' ∧
      s'.pc j = .returned .newRequestLocked none := by
  have hsome : (idempStep m calls s ⟨j, .start, time⟩).isSome :=
    idempStep_start_isSome htime fun _ _ h => by rw [hpc] at h; cases h
  obtain ⟨s', hstep⟩ := Option.isSome_iff_exists.mp hsome
  exact ⟨s', hstep, (returned_newRequestLocked_iff (idempMove_of_step hstep)).mpr
    ⟨hpc, hfree, rfl⟩⟩

/-- After a step that cut another client's lock short, a client that has
not started yet can acquire the key before that lock expires. -/
theorem not_leaseExclusive_of_not_spares {t : IdempTransition ι R}
    (hmove : IdempMove m calls t.pre t.event t.post) (hspare : ¬ SparesLeases m calls key t)
    {j : ι} (hkey : (calls j).idempotencyKey = key) (hpc : t.post.pc j = .setnx) :
    ∃ time s', idempStep m calls t.post ⟨j, .start, time⟩ = some s' ∧
      ¬ LeaseExclusive m calls key ⟨t.post, ⟨j, .start, time⟩, s'⟩ := by
  obtain ⟨s, e, s'⟩ := t
  simp only [SparesLeases, not_forall, Option.mem_def] at hspare
  obtain ⟨f, hf, i, hif, hi, since, hsince, hlt, hcut⟩ := hspare
  have hnow := hmove.now_eq
  suffices hfree : ∃ time, s'.now ≤ time ∧ time < since + m.lockTtl ∧
      s'.entryAt key time = none ∧ s'.lockedSince i = some since by
    obtain ⟨time, htime, hearly, hfree, hstill⟩ := hfree
    obtain ⟨s'', hstep, hpc'⟩ := step_of_free (m := m) htime hpc (hkey ▸ hfree)
    refine ⟨time, s'', hstep, fun hexcl => ?_⟩
    exact absurd (hexcl none ⟨rfl, hkey, hpc'⟩ i hi since hstill) (not_le.mpr hearly)
  cases hmove.keyMove key with
  | idle _ _ hnone => rw [hnone] at hf; cases hf
  | acquire => simp [finishOn] at hf
  | expire => simp [finishOn] at hf
  | finish hfin hstore hlocked =>
      rw [hfin] at hf
      cases hf
      have htime := (finishOn_eq_some hfin).2.2
      have hstill : s'.lockedSince i = some since := by
        rw [hlocked, Function.update_of_ne hif, hsince]
      cases hresp : f.response with
      | none =>
          refine ⟨f.time, by rw [hnow, htime], hlt, ?_, hstill⟩
          exact IdempSystem.entryAt_eq_none.mpr fun entry hentry => by
            rw [hstore, hresp] at hentry; cases hentry
      | some r =>
          have hexp : f.time + m.cacheTtl < since + m.lockTtl := by simpa [hresp] using hcut
          -- the response expires first
          refine ⟨max f.time (f.time + m.cacheTtl), by rw [hnow, htime]; exact le_max_left _ _,
            max_lt hlt hexp, ?_, hstill⟩
          refine IdempSystem.entryAt_eq_none.mpr fun entry hentry => ?_
          rw [hstore, hresp] at hentry
          cases hentry
          exact le_max_right _ _

/-- **Exactly which steps keep leases exclusive.** A run none of whose
steps cuts another client's lock short acquires a key only when the locks
of its unfinished holders have expired. Right after a step that does cut
one short, any client that has not started yet can break exclusivity. -/
theorem leaseExclusive_of_spares (hrun : Run (idempStep m calls) (.start t₀) tr s) :
    ((∀ t ∈ tr, SparesLeases m calls key t) → ∀ t ∈ tr, LeaseExclusive m calls key t) ∧
    (∀ t ∈ tr, ¬ SparesLeases m calls key t →
      ∀ j, (calls j).idempotencyKey = key → t.post.pc j = .setnx →
        ∃ time s', idempStep m calls t.post ⟨j, .start, time⟩ = some s' ∧
          ¬ LeaseExclusive m calls key ⟨t.post, ⟨j, .start, time⟩, s'⟩) := by
  refine ⟨fun hspare t ht response hret i hi since hsince => ?_, fun t ht hspare j hj hpc => ?_⟩
  · obtain ⟨l, r, rfl, hl, -⟩ := hrun.reached_of_mem ht
    have hinv := leaseInv_of_run hl fun u hu => hspare u (List.mem_append_left _ hu)
    have hmove := idempMove_of_step (hrun.step_of_mem t ht)
    exact hinv.expired_of_free hmove.time_le (hret.free hmove) hi hsince
  · exact not_leaseExclusive_of_not_spares (idempMove_of_step (hrun.step_of_mem t ht)) hspare hj hpc

/-- The first client's lock expires, the second one acquires the key, and
the first one completes late: the third submission is not executed. -/
theorem leaseExclusive_of_spares_lateCompletion :
    let run := exec (idempStep {} submitted) (.start 0)
      [⟨0, .start, 0⟩, ⟨1, .start, 121⟩, ⟨0, .complete "txn-999", 122⟩, ⟨2, .start, 123⟩,
       ⟨2, .start, 124⟩]
    run.2.pc 2 = .returned .completed (some "txn-999") ∧
      ∀ t ∈ run.1, LeaseExclusive {} submitted "idemp-unique-req-8899" t := by
  intro run
  have hrun : Run (idempStep {} submitted) (.start 0) run.1 run.2 := run_exec _ _ _
  have hspare : ∀ t ∈ run.1, SparesLeases {} submitted "idemp-unique-req-8899" t := by
    simp only [SparesLeases]
    decide +kernel
  exact ⟨by decide +kernel, (leaseExclusive_of_spares hrun).1 hspare⟩

/-- It releases instead: the third client acquires the key two seconds
into the second one's lock. -/
theorem not_leaseExclusive_lateRelease :
    let run := exec (idempStep (R := String) {} submitted) (.start 0)
      [⟨0, .start, 0⟩, ⟨1, .start, 121⟩, ⟨0, .release, 122⟩, ⟨2, .start, 123⟩]
    (∀ t ∈ run.1, ByHolder submitted "idemp-unique-req-8899" t) ∧
      ¬ ∀ t ∈ run.1, LeaseExclusive {} submitted "idemp-unique-req-8899" t := by
  intro run
  constructor
  · simp only [ByHolder]
    decide +kernel
  · intro hexcl
    have hacquired : ∃ t ∈ run.1,
        Returns submitted "idemp-unique-req-8899" t .newRequestLocked none ∧
        t.pre.lockedSince 1 = some 121 ∧ t.event.time = 123 := by
      simp only [Returns]
      decide +kernel
    obtain ⟨t, ht, hret, hsince, htime⟩ := hacquired
    have hlate := hexcl t ht none hret 1 rfl 121 hsince
    rw [htime] at hlate
    exact absurd hlate (by decide +kernel)

end Httpe.Idempotency
