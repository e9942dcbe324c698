/-
Httpe.Idempotency.ExactlyOnce — one key under timely holders.

`TimelyStep` is the discipline: only a client whose `start_transaction`
got the lock, and that has not finished, completes or releases the key,
and it does so strictly before its lock expires. It is stated per step,
so that it holds of every prefix of a run: when a step is made, the locks
of the holders still unfinished have not expired
(`timelyStep_of_allFinished` derives it from the discipline stated once
for a whole run).

`TimelyInv` ties the stored entry and its expiry to the set of
unfinished holders, whatever happens between the two accesses of any
call.
-/
import Httpe.Idempotency.History

namespace Httpe.Idempotency

variable {ι R : Type*}

/-- The step respects the discipline of the key. -/
structure TimelyStep (m : IdempotencyManager) (calls : ι → StartCall) (key : String)
    (t : IdempTransition ι R) : Prop where
  byHolder : ByHolder calls key t
  inTime : ∀ i, (calls i).idempotencyKey = key → ∀ since ∈ t.pre.lockedSince i,
    t.event.time < since + m.lockTtl

/-- The step finishes the key only in time, by a holder that has not
finished before. -/
def FinishedInTime (m : IdempotencyManager) (calls : ι → StartCall) (key : String)
    (t : IdempTransition ι R) : Prop :=
  (finishOn calls key t.event).isSome →
    ∃ since ∈ t.pre.lockedSince t.event.client, t.event.time < since + m.lockTtl

/-- The completions among the calls that finished the key: payload and time. -/
def completions (calls : ι → StartCall) (key : String) (tr : List (IdempTransition ι R)) :
    List (R × ℚ) :=
  (finishes calls key tr).filterMap fun f => f.response.map fun r => (r, f.time)

variable {calls : ι → StartCall} {key : String} {tr : List (IdempTransition ι R)}

/-- If the last call that finished the key is a completion, it is the
most recent completion. -/
theorem completions_getLast?_of_lastFinish {i : ι} {r : R} {τ : ℚ}
    (h : lastFinish calls key tr = some ⟨i, some r, τ⟩) :
    (completions calls key tr).getLast? = some (r, τ) := by
  obtain ⟨init, hinit⟩ := List.getLast?_eq_some_iff.mp h
  rw [completions, hinit, List.filterMap_append]
  simp

variable [DecidableEq ι] {m : IdempotencyManager} {s s' : IdempSystem ι R} {e : IdempEvent ι R}
  {t₀ : ℚ}

/-! ## The invariant -/

structure TimelyInv (m : IdempotencyManager) (calls : ι → StartCall) (key : String)
    (tr : List (IdempTransition ι R)) (s : IdempSystem ι R) : Prop where
  /-- An unfinished holder's lock is what is stored. -/
  holder : ∀ i since, (calls i).idempotencyKey = key → s.lockedSince i = some since →
    s.storeAt key = some ⟨lockPayload (calls i).requestHash, since + m.lockTtl⟩
  unique : ∀ i j, (calls i).idempotencyKey = key → (calls j).idempotencyKey = key →
    (s.lockedSince i).isSome → (s.lockedSince j).isSome → i = j
  /-- A stored lock is an unfinished holder's. -/
  locked : ∀ entry, s.storeAt key = some entry → entry.value.status = .inFlight →
    ∃ i, (calls i).idempotencyKey = key ∧ (s.lockedSince i).isSome
  /-- After a completion the key stays completed for its time-to-live. -/
  cached : ∀ f ∈ finishes calls key tr, f.response.isSome → s.now < f.time + m.cacheTtl →
    ∃ entry, s.storeAt key = some entry ∧ entry.value.status ≠ .inFlight ∧
      f.time + m.cacheTtl ≤ entry.expiry

omit [DecidableEq ι] in
/-- A key without unfinished holders, whose entry is not a lock. -/
theorem TimelyInv.of_no_holder
    (hnone : ∀ j, (calls j).idempotencyKey = key → s.lockedSince j = none)
    (hstore : ∀ entry, s.storeAt key = some entry → entry.value.status ≠ .inFlight)
    (hcached : ∀ f ∈ finishes calls key tr, f.response.isSome → s.now < f.time + m.cacheTtl →
      ∃ entry, s.storeAt key = some entry ∧ entry.value.status ≠ .inFlight ∧
        f.time + m.cacheTtl ≤ entry.expiry) : TimelyInv m calls key tr s where
  holder i since hkey hsince := by rw [hnone i hkey] at hsince; cases hsince
  unique i j hi _ hsi := by rw [hnone i hi] at hsi; cases hsi
  locked entry hentry hstatus := absurd hstatus (hstore entry hentry)
  cached := hcached

section Preserved

variable (h : TimelyInv m calls key tr s)
include h

omit [DecidableEq ι] in
/-- Where the key is free there is no unfinished holder. -/
theorem TimelyInv.no_holder_of_free (htimely : TimelyStep m calls key ⟨s, e, s'⟩)
    (hfree : s.entryAt key e.time = none) {i : ι} (hkey : (calls i).idempotencyKey = key) :
    s.lockedSince i = none := by
  refine Option.eq_none_iff_forall_not_mem.mpr fun since hsince => ?_
  have hexp := IdempSystem.entryAt_eq_none.mp hfree _ (h.holder i since hkey hsince)
  exact absurd (htimely.inTime i hkey since hsince) (not_lt.mpr hexp)

/-- Where the key is free no completion's time-to-live is still running. -/
theorem TimelyInv.not_cached_of_free (hmove : IdempMove m calls s e s')
    (hfree : s.entryAt key e.time = none) {f : Finish ι R} (hf : f ∈ finishes calls key tr)
    (hresp : f.response.isSome) : f.time + m.cacheTtl ≤ e.time := by
  by_contra hlt
  obtain ⟨entry, hstore, -, hexp⟩ :=
    h.cached f hf hresp (hmove.time_le.trans_lt (not_le.mp hlt))
  exact hlt (hexp.trans (IdempSystem.entryAt_eq_none.mp hfree entry hstore))

/-- Nor while the key has an unfinished holder. -/
theorem TimelyInv.not_cached_of_holder (hmove : IdempMove m calls s e s') {i : ι}
    (hkey : (calls i).idempotencyKey = key) (hi : (s.lockedSince i).isSome) {f : Finish ι R}
    (hf : f ∈ finishes calls key tr) (hresp : f.response.isSome) :
    f.time + m.cacheTtl ≤ e.time := by
  by_contra hlt
  obtain ⟨entry, hstore, hstatus, -⟩ :=
    h.cached f hf hresp (hmove.time_le.trans_lt (not_le.mp hlt))
  obtain ⟨since, hsince⟩ := Option.isSome_iff_exists.mp hi
  rw [h.holder i since hkey hsince] at hstore
  cases hstore
  exact hstatus rfl

/-- When its only holder finishes, the key has none left. -/
theorem TimelyInv.no_holder_of_finish {i j : ι} (hi : (calls i).idempotencyKey = key)
    (hj : (calls j).idempotencyKey = key) (hholder : (s.lockedSince i).isSome) :
    Function.update s.lockedSince i none j = none := by
  by_cases hji : j = i
  · rw [hji, Function.update_self]
  · rw [Function.update_of_ne hji, ← Option.not_isSome_iff_eq_none]
    exact fun hsome => hji (h.unique j i hj hi hsome hholder)

end Preserved

theorem TimelyInv.step (h : TimelyInv m calls key tr s) (hmove : IdempMove m calls s e s')
    (htimely : TimelyStep m calls key ⟨s, e, s'⟩) :
    TimelyInv m calls key (tr ++ [⟨s, e, s'⟩]) s' := by
  have hnow := hmove.now_eq
  cases hmove.keyMove key with
  | idle hstore hlocked hfinish =>
      constructor
      · intro i since hkey hsince
        rw [hstore]
        exact h.holder i since hkey (hlocked i hkey ▸ hsince)
      · intro i j hi hj hsi hsj
        rw [hlocked i hi] at hsi
        rw [hlocked j hj] at hsj
        exact h.unique i j hi hj hsi hsj
      · intro entry hentry hstatus
        obtain ⟨i, hkey, hi⟩ := h.locked entry (hstore ▸ hentry) hstatus
        exact ⟨i, hkey, by rwa [hlocked i hkey]⟩
      · intro f hf hresp hlt
        rw [finishes_snoc_of_none hfinish] at hf
        rw [hstore]
        exact h.cached f hf hresp ((hmove.time_le.trans_eq hnow.symm).trans_lt hlt)
  | @acquire i t _ hkey _ hfree hstore hlocked =>
      have hown : ∀ q, (calls q).idempotencyKey = key → ∀ since ∈ s'.lockedSince q,
          q = i ∧ since = t := by
        intro q hq since hsince
        rw [hlocked] at hsince
        by_cases hqi : q = i
        · rw [hqi, Function.update_self] at hsince
          exact ⟨hqi, (Option.some.inj hsince).symm⟩
        · rw [Function.update_of_ne hqi, h.no_holder_of_free htimely hfree hq] at hsince
          cases hsince
      constructor
      · intro j since hj hsince
        obtain ⟨rfl, rfl⟩ := hown j hj since hsince
        exact hstore
      · intro j j' hj hj' hsj hsj'
        obtain ⟨since, hsince⟩ := Option.isSome_iff_exists.mp hsj
        obtain ⟨since', hsince'⟩ := Option.isSome_iff_exists.mp hsj'
        exact (hown j hj since hsince).1.trans (hown j' hj' since' hsince').1.symm
      · intro entry _ _
        exact ⟨i, hkey, by rw [hlocked, Function.update_self]; rfl⟩
      · intro f hf hresp hlt
        rw [finishes_snoc_of_none (by simp [finishOn])] at hf
        rw [hnow] at hlt
        exact absurd (h.not_cached_of_free hmove hfree hf hresp) (not_le.mpr hlt)
  | @expire i t _ hfree hstore hlocked =>
      refine .of_no_holder ?_ (fun entry hentry => by rw [hstore] at hentry; cases hentry) ?_
      · intro j hj
        rw [hlocked, h.no_holder_of_free htimely hfree hj]
      · intro f hf hresp hlt
        rw [finishes_snoc_of_none (by simp [finishOn])] at hf
        rw [hnow] at hlt
        exact absurd (h.not_cached_of_free hmove hfree hf hresp) (not_le.mpr hlt)
  | @finish _ f _ hfin hstore hlocked =>
      obtain ⟨hkey, hclient, -⟩ := finishOn_eq_some hfin
      have hholder : (s.lockedSince e.client).isSome := htimely.byHolder (by rw [hfin]; rfl)
      rw [hclient] at hlocked
      refine .of_no_holder (fun j hj => ?_) (fun entry hentry => ?_) fun g hg hresp hlt => ?_
      · rw [hlocked, h.no_holder_of_finish hkey hj hholder]
      · rw [hstore] at hentry
        obtain ⟨r, -, rfl⟩ := Option.map_eq_some_iff.mp hentry
        simp
      · rw [finishes_snoc_of_some hfin] at hg
        rcases List.mem_append.mp hg with hg | hg
        · rw [hnow] at hlt
          exact absurd (h.not_cached_of_holder hmove hkey hholder hg hresp) (not_le.mpr hlt)
        · rw [List.mem_singleton.mp hg] at hresp ⊢
          obtain ⟨r, hr⟩ := Option.isSome_iff_exists.mp hresp
          exact ⟨⟨cachedPayload r, f.time + m.cacheTtl⟩, by rw [hstore, hr]; rfl, by simp, le_rfl⟩

theorem timelyInv_of_run (hrun : Run (idempStep m calls) (.start t₀) tr s)
    (htimely : ∀ t ∈ tr, TimelyStep m calls key t) : TimelyInv m calls key tr s := by
  refine hrun.invariant_of_forall (TimelyStep m calls key) (TimelyInv m calls key) ?_ ?_ htimely
  · exact .of_no_holder (fun _ _ => rfl) (fun entry h => by simp at h)
      (fun f hf => by simp [finishes] at hf)
  · exact fun tr s e s' _ ih hstep ht => ih.step (idempMove_of_step hstep) ht

/-! ## The discipline of a whole run -/

/-- Only a call that has returned holds a lock. -/
def HoldersReturned (s : IdempSystem ι R) : Prop :=
  ∀ i, (s.lockedSince i).isSome → s.pc i = .returned .newRequestLocked none

theorem HoldersReturned.step (h : HoldersReturned s) (hmove : IdempMove m calls s e s') :
    HoldersReturned s' := by
  intro j hj
  cases hmove with
  | @acquire i t _ _ _ =>
      by_cases hji : j = i
      · simp [hji]
      · simp only [Function.update_of_ne hji] at hj ⊢
        exact h j hj
  | @taken i _ _ _ hpc _ | @vanished i _ _ hpc _ | @answer i _ _ _ hpc _ =>
      have hji : j ≠ i := by
        rintro rfl
        rw [h j hj] at hpc
        cases hpc
      simp only [Function.update_of_ne hji]
      exact h j hj
  | @complete i _ _ _ | @release i _ _ =>
      by_cases hji : j = i
      · simp [hji] at hj
      · simp only [Function.update_of_ne hji] at hj
        exact h j hj

omit [DecidableEq ι] in
/-- A client that finishes in time finishes its own lock. -/
theorem FinishedInTime.lt (hfin : FinishedInTime m calls key ⟨s, e, s'⟩)
    (hsome : (finishOn calls key e).isSome) {since : ℚ}
    (hsince : s.lockedSince e.client = some since) : e.time < since + m.lockTtl := by
  obtain ⟨since', hmem, hlt⟩ := hfin hsome
  rw [Option.mem_def, hsince, Option.some.injEq] at hmem
  rwa [hmem]

/-- A holder keeps its lock until it finishes, and finishes in time. -/
theorem lockedSince_step (h : HoldersReturned s) (hmove : IdempMove m calls s e s')
    (hfin : FinishedInTime m calls key ⟨s, e, s'⟩) {i : ι}
    (hkey : (calls i).idempotencyKey = key) {since : ℚ} (hsince : s.lockedSince i = some since) :
    s'.lockedSince i = some since ∨ e.time < since + m.lockTtl := by
  cases hmove.keyMove key with
  | idle _ hlocked _ => exact .inl ((hlocked i hkey).trans hsince)
  | @acquire j t _ _ hpc _ _ hlocked =>
      have hij : i ≠ j := by
        rintro rfl
        rw [h i (by rw [hsince]; rfl)] at hpc
        cases hpc
      exact .inl (by rw [hlocked, Function.update_of_ne hij, hsince])
  | expire _ _ hlocked => exact .inl (by rw [hlocked, hsince])
  | @finish _ f _ hf _ hlocked =>
      obtain ⟨-, hclient, -⟩ := finishOn_eq_some hf
      by_cases hij : i = f.client
      · exact .inr (hfin.lt (by rw [hf]; rfl) (by rw [← hclient, ← hij, hsince]))
      · exact .inl (by rw [hlocked, Function.update_of_ne hij, hsince])

/-- If every client that locked the key has finished, once and in time,
then every step on the way respected the discipline. -/
theorem timelyStep_of_allFinished (hrun : Run (idempStep m calls) (.start t₀) tr s)
    (hfin : ∀ t ∈ tr, FinishedInTime m calls key t)
    (hall : ∀ i, (calls i).idempotencyKey = key → s.lockedSince i = none) :
    ∀ t ∈ tr, TimelyStep m calls key t := by
  have hreturned : ∀ {l a}, Run (idempStep m calls) (.start t₀) l a →
      HoldersReturned (a : IdempSystem ι R) := by
    intro l a hl
    refine hl.invariant (fun _ a => HoldersReturned a) (fun i hi => by cases hi) ?_
    exact fun _ _ _ _ _ ih hstep => ih.step (idempMove_of_step hstep)
  intro t ht
  obtain ⟨l, r, rfl, hl, hr⟩ := hrun.reached_of_mem ht
  have hmove := idempMove_of_step (hrun.step_of_mem t ht)
  refine ⟨fun hsome => ?_, fun i hkey since hsince => ?_⟩
  · obtain ⟨since, hsince, -⟩ := hfin t ht hsome
    exact Option.isSome_iff_exists.mpr ⟨since, hsince⟩
  rcases lockedSince_step (hreturned hl) hmove (hfin t ht) hkey hsince with hkept | hlt
  · -- from here on the lock is held, or was finished in time later on
    have hrest : HoldersReturned s ∧
        (s.lockedSince i = some since ∨ t.post.now < since + m.lockTtl) := by
      refine hr.invariant_of_forall (FinishedInTime m calls key)
        (fun _ b => HoldersReturned b ∧
          (b.lockedSince i = some since ∨ t.post.now < since + m.lockTtl))
        ⟨(hreturned hl).step hmove, .inl hkept⟩ ?_
        fun u hu => hfin u (List.mem_append_right _ (List.mem_cons_of_mem _ hu))
      rintro tr b e b' hb ⟨hret, hlocked⟩ hstep hfinished
      have hmove' := idempMove_of_step hstep
      refine ⟨hret.step hmove', ?_⟩
      rcases hlocked with hlocked | hlt
      · have hmono : t.post.now ≤ b.now := hb.mono IdempSystem.now fun _ _ _ h =>
          (idempMove_of_step h).time_le.trans_eq (idempMove_of_step h).now_eq.symm
        exact (lockedSince_step hret hmove' hfinished hkey hlocked).imp_right
          fun hlt => (hmono.trans hmove'.time_le).trans_lt hlt
      · exact .inr hlt
    rw [hall i hkey, hmove.now_eq] at hrest
    exact hrest.2.resolve_left nofun
  · exact hlt

/-! ## Exactly once -/

/-- **Exactly once under timely holders.** In every run that respects the
discipline of a key: at most one client holds an unfinished lock on it;
a call returns IN_FLIGHT only if some client did at its GET; nobody
acquires the key within `cache_ttl` of a completion; and a call that
returns COMPLETED returns the most recent completion's payload. -/
theorem exactly_once (hrun : Run (idempStep m calls) (.start t₀) tr s)
    (htimely : ∀ t ∈ tr, TimelyStep m calls key t) :
    (∀ i j, (calls i).idempotencyKey = key → (calls j).idempotencyKey = key →
      (s.lockedSince i).isSome → (s.lockedSince j).isSome → i = j) ∧
    (∀ t ∈ tr, ∀ response, Returns calls key t .inFlight response →
      t.pre.pc t.event.client = .get ∧
        ∃ i, (calls i).idempotencyKey = key ∧ (t.pre.lockedSince i).isSome) ∧
    (∀ l t r, tr = l ++ t :: r → ∀ response, Returns calls key t .newRequestLocked response →
      ∀ c ∈ completions calls key l, c.2 + m.cacheTtl ≤ t.event.time) ∧
    (∀ l t r, tr = l ++ t :: r → ∀ response, Returns calls key t .completed response →
      ∃ c, (completions calls key l).getLast? = some c ∧ response = some c.1) := by
  have hprefix : ∀ l t r, tr = l ++ t :: r → Run (idempStep m calls) (.start t₀) l t.pre ∧
      TimelyInv m calls key l t.pre ∧ IdempMove m calls t.pre t.event t.post := by
    rintro l t r rfl
    obtain ⟨hl, hstep, -⟩ := hrun.split
    exact ⟨hl, timelyInv_of_run hl fun u hu => htimely u (List.mem_append_left _ hu),
      idempMove_of_step hstep⟩
  refine ⟨(timelyInv_of_run hrun htimely).unique, ?_, ?_, ?_⟩
  · intro t ht response hret
    obtain ⟨l, r, htr, -, -⟩ := hrun.reached_of_mem ht
    obtain ⟨-, hinv, hmove⟩ := hprefix l t r htr
    obtain ⟨hget, entry, hlive, hstatus⟩ := hret.locked hmove
    exact ⟨hget, hinv.locked entry (IdempSystem.entryAt_eq_some.mp hlive).1 hstatus⟩
  · intro l t r htr response hret ⟨payload, τ⟩ hc
    obtain ⟨-, hinv, hmove⟩ := hprefix l t r htr
    obtain ⟨f, hf, hfr⟩ := List.mem_filterMap.mp hc
    obtain ⟨payload', hresp, heq⟩ := Option.map_eq_some_iff.mp hfr
    cases heq
    exact hinv.not_cached_of_free hmove (hret.free hmove) hf (by rw [hresp]; rfl)
  · intro l t r htr response hret
    obtain ⟨hl, -, hmove⟩ := hprefix l t r htr
    obtain ⟨-, i, payload, τ, hlast, -, hresp⟩ := hret.cached hmove hl
    exact ⟨(payload, τ), completions_getLast?_of_lastFinish hlast, hresp⟩

/-- The second client's accesses stand on one side of the completion, the
third one's on both sides. -/
theorem exactly_once_selfTest :
    let run := exec (idempStep {} submitted) (.start 0)
      [⟨0, .start, 0⟩, ⟨1, .start, 1⟩, ⟨1, .start, 2⟩, ⟨2, .start, 3⟩,
       ⟨0, .complete "txn-999", 4⟩, ⟨2, .start, 5⟩]
    run.2.pc 1 = .returned .inFlight none ∧ run.2.pc 2 = .returned .completed (some "txn-999") ∧
      ∀ l t r, run.1 = l ++ t :: r → ∀ response,
        Returns submitted "idemp-unique-req-8899" t .completed response →
        ∃ c, (completions submitted "idemp-unique-req-8899" l).getLast? = some c ∧
          response = some c.1 := by
  intro run
  have hrun : Run (idempStep {} submitted) (.start 0) run.1 run.2 := run_exec _ _ _
  have hholder : ∀ t ∈ run.1, ByHolder submitted "idemp-unique-req-8899" t := by
    simp only [ByHolder]
    decide +kernel
  have htime : ∀ t ∈ run.1, ∀ i, (submitted i).idempotencyKey = "idemp-unique-req-8899" →
      ∀ since ∈ t.pre.lockedSince i, t.event.time < since + 120 := by decide +kernel
  exact ⟨by decide +kernel, by decide +kernel,
    (exactly_once hrun fun t ht => ⟨hholder t ht, htime t ht⟩).2.2.2⟩

end Httpe.Idempotency
