/-
Httpe.Idempotency.Reexecution — how often a key can be executed again.

Here nothing is asked of the clients: they complete and release any key
at any time, late, twice, or without ever having held it. A key that was
locked or completed still answers until its time-to-live is over, unless
somebody releases it. So `NEW_REQUEST_LOCKED` is paced by the shorter of
the two times-to-live and by the releases (`pacedKey_of_run`).
-/
import Httpe.Idempotency.Recursion
import Httpe.Lib.Pacing
import Mathlib.Data.Rat.Floor

namespace Httpe.Idempotency

variable {ι R : Type*}

/-- `start_transaction` on the key returns `NEW_REQUEST_LOCKED`. -/
def acquires (calls : ι → StartCall) (key : String) (t : IdempTransition ι R) : Bool :=
  decide ((calls t.event.client).idempotencyKey = key) &&
    match t.event.op, t.post.pc t.event.client with
    | .start, .returned .newRequestLocked _ => true
    | _, _ => false

/-- `release_lock_on_failure` on the key. -/
def releases (calls : ι → StartCall) (key : String) (t : IdempTransition ι R) : Bool :=
  decide ((calls t.event.client).idempotencyKey = key) &&
    match t.event.op with
    | .release => true
    | .start | .complete _ => false

/-- How many steps of a kind a history has in a window. -/
def countIn (p : IdempTransition ι R → Bool) (x T : ℚ) (tr : List (IdempTransition ι R)) : ℕ :=
  tr.countP fun t => p t && inWindow x T t.event.time

/-- The shorter time-to-live. -/
def IdempotencyManager.minTtl (m : IdempotencyManager) : ℚ := min m.lockTtl m.cacheTtl

section Count

variable {p : IdempTransition ι R → Bool} {x T : ℚ} {tr : List (IdempTransition ι R)}
  {t : IdempTransition ι R}

theorem countIn_snoc : countIn p x T (tr ++ [t])
    = countIn p x T tr + if p t && inWindow x T t.event.time then 1 else 0 := by
  rw [countIn, List.countP_append, List.countP_singleton, countIn]

theorem countIn_snoc_of_not (h : p t = false) : countIn p x T (tr ++ [t]) = countIn p x T tr := by
  simp [countIn_snoc, h]

theorem countIn_snoc_of_outside (h : inWindow x T t.event.time = false) :
    countIn p x T (tr ++ [t]) = countIn p x T tr := by
  simp [countIn_snoc, h]

theorem countIn_snoc_of_inside (hp : p t = true) (h : inWindow x T t.event.time = true) :
    countIn p x T (tr ++ [t]) = countIn p x T tr + 1 := by
  simp [countIn_snoc, hp, h]

end Count

variable {m : IdempotencyManager} {calls : ι → StartCall} {key : String}
  {s s' : IdempSystem ι R} {e : IdempEvent ι R} {tr : List (IdempTransition ι R)} {x T t₀ : ℚ}

/-- The key in a window, as the lease its entry is. -/
def PacedKey (m : IdempotencyManager) (calls : ι → StartCall) (key : String) (x T : ℚ)
    (tr : List (IdempTransition ι R)) (s : IdempSystem ι R) : Prop :=
  Paced m.minTtl x T (countIn (acquires calls key) x T tr) (countIn (releases calls key) x T tr)
    s.now fun t => s.entryAt key t = none

/-- An entry just written answers for its time-to-live. -/
theorem add_minTtl_le_of_free {entry : Entry (CachedData R)} {t t' : ℚ} {ttl : ℤ}
    (hfree : s'.entryAt key t' = none) (hstore : s'.storeAt key = some entry)
    (hexpiry : entry.expiry = t + ttl) (httl : m.minTtl ≤ ttl) : t + m.minTtl ≤ t' := by
  have hexpired := IdempSystem.entryAt_eq_none.mp hfree entry hstore
  rw [hexpiry] at hexpired
  linarith

/-- A step that neither acquires nor releases the key, and leaves it no
freer than it was. -/
theorem PacedKey.later (h : PacedKey m calls key x T tr s) (hle : s.now ≤ s'.now)
    (hacquire : acquires calls key ⟨s, e, s'⟩ = false)
    (hrelease : releases calls key ⟨s, e, s'⟩ = false)
    (hfree : ∀ t, s'.now ≤ t → s'.entryAt key t = none → s.entryAt key t = none) :
    PacedKey m calls key x T (tr ++ [⟨s, e, s'⟩]) s' := by
  unfold PacedKey
  rw [countIn_snoc_of_not hacquire, countIn_snoc_of_not hrelease]
  exact Paced.later h hle hfree

/-- A step that writes the key's entry: it answers from then on for a
time-to-live at least. -/
theorem PacedKey.renew (h : PacedKey m calls key x T tr s) (hle : s.now ≤ s'.now)
    (hacquire : acquires calls key ⟨s, e, s'⟩ = false)
    (hrelease : releases calls key ⟨s, e, s'⟩ = false)
    (hheld : ∀ t, s'.entryAt key t = none → s'.now + m.minTtl ≤ t) :
    PacedKey m calls key x T (tr ++ [⟨s, e, s'⟩]) s' := by
  unfold PacedKey
  rw [countIn_snoc_of_not hacquire, countIn_snoc_of_not hrelease]
  exact Paced.renew h hle fun t _ => hheld t

/-- A step in the window that gets the free key. -/
theorem PacedKey.grant (h : PacedKey m calls key x T tr s) (hle : s.now ≤ s'.now)
    (hnow : s'.now = e.time) (hwindow : inWindow x T e.time = true)
    (hacquire : acquires calls key ⟨s, e, s'⟩ = true)
    (hrelease : releases calls key ⟨s, e, s'⟩ = false) (hfree : s.entryAt key s'.now = none)
    (hheld : ∀ t, s'.entryAt key t = none → s'.now + m.minTtl ≤ t) :
    PacedKey m calls key x T (tr ++ [⟨s, e, s'⟩]) s' := by
  have hbounds : x ≤ s'.now ∧ s'.now ≤ x + T := hnow ▸ of_decide_eq_true hwindow
  unfold PacedKey
  rw [countIn_snoc_of_inside hacquire hwindow, countIn_snoc_of_not hrelease]
  exact Paced.grant h hle hbounds.1 hbounds.2 hfree fun t _ => hheld t

/-- A step in the window that releases the key. -/
theorem PacedKey.release (h : PacedKey m calls key x T tr s) (hle : s.now ≤ s'.now)
    (hwindow : inWindow x T e.time = true) (hacquire : acquires calls key ⟨s, e, s'⟩ = false)
    (hrelease : releases calls key ⟨s, e, s'⟩ = true) :
    PacedKey m calls key x T (tr ++ [⟨s, e, s'⟩]) s' := by
  unfold PacedKey
  rw [countIn_snoc_of_not hacquire, countIn_snoc_of_inside hrelease hwindow]
  exact Paced.release h hle

variable [DecidableEq ι]

/-- A step on the key, in the window. -/
theorem PacedKey.own (h : PacedKey m calls key x T tr s) (hmove : IdempMove m calls s e s')
    (hkey : (calls e.client).idempotencyKey = key) (hwindow : inWindow x T e.time = true) :
    PacedKey m calls key x T (tr ++ [⟨s, e, s'⟩]) s' := by
  subst hkey
  cases hmove with
  | acquire hle hpc hfree =>
      exact h.grant hle rfl hwindow (by simp [acquires]) (by simp [releases]) hfree fun t' hfree' =>
        add_minTtl_le_of_free hfree' MockRedisCluster.put_store rfl (min_le_left _ _)
  | taken hle hpc hlive =>
      exact h.later hle (by simp [acquires]) (by simp [releases]) fun _ _ hfree => hfree
  | vanished hle hpc hgone =>
      refine h.later hle (by simp [acquires]) (by simp [releases]) fun t' ht' _ => ?_
      exact IdempSystem.entryAt_eq_none.mpr fun entry hentry =>
        (IdempSystem.entryAt_eq_none.mp hgone entry hentry).trans ht'
  | @answer i t entry hle hpc hlive =>
      refine h.later hle ?_ (by simp [releases]) fun _ _ hfree => hfree
      by_cases hstatus : entry.value.status = .inFlight <;>
        simp [acquires, StartPc.answer, hstatus]
  | complete hle =>
      exact h.renew hle (by simp [acquires]) (by simp [releases]) fun t' hfree' =>
        add_minTtl_le_of_free hfree' MockRedisCluster.put_store rfl (min_le_right _ _)
  | release hle => exact h.release hle hwindow (by simp [acquires]) (by simp [releases])

theorem PacedKey.step (h : PacedKey m calls key x T tr s) (hpos : 0 ≤ m.minTtl)
    (hmove : IdempMove m calls s e s') : PacedKey m calls key x T (tr ++ [⟨s, e, s'⟩]) s' := by
  have hle : s.now ≤ s'.now := hmove.time_le.trans_eq hmove.now_eq.symm
  by_cases hwindow : inWindow x T e.time = true
  · by_cases hkey : (calls e.client).idempotencyKey = key
    · exact h.own hmove hkey hwindow
    · refine h.later hle (by simp [acquires, hkey]) (by simp [releases, hkey]) fun t _ hfree => ?_
      rw [IdempSystem.entryAt_eq_none] at hfree ⊢
      rwa [hmove.storeAt_of_key_ne hkey] at hfree
  · have hout : inWindow x T e.time = false := by simpa using hwindow
    unfold PacedKey
    rw [countIn_snoc_of_outside (t := ⟨s, e, s'⟩) hout,
      countIn_snoc_of_outside (t := ⟨s, e, s'⟩) hout]
    exact Paced.outside h hpos hle (hmove.now_eq ▸ hout)

theorem pacedKey_of_run (hpos : 0 ≤ m.minTtl) (hrun : Run (idempStep m calls) (.start t₀) tr s) :
    PacedKey m calls key x T tr s :=
  hrun.invariant (PacedKey m calls key x T) (.inl rfl)
    fun _ _ _ _ _ ih hstep => ih.step hpos (idempMove_of_step hstep)

/-- **A key is executed again only so often.** Whoever completes or
releases what and when: in every closed window of length `T`,
`start_transaction` gives out a key at most once, once more for each time
the shorter time-to-live fits in the window, and once more for each
release of the key in the window. -/
theorem reexecutions_bounded (hlock : 0 < m.lockTtl) (hcache : 0 < m.cacheTtl) (hT : 0 ≤ T)
    (hrun : Run (idempStep m calls) (.start t₀) tr s) :
    (countIn (acquires calls key) x T tr : ℤ)
      ≤ 1 + ⌊T / m.minTtl⌋ + countIn (releases calls key) x T tr := by
  have hpos : 0 < m.minTtl := by
    unfold IdempotencyManager.minTtl
    exact_mod_cast lt_min hlock hcache
  exact (pacedKey_of_run hpos.le hrun).le hpos hT

/-- Three submissions get the key in 200 seconds: one lock runs out, one is
released by the client that had lost it. -/
theorem reexecutions_bounded_slow :
    let run := exec (idempStep (R := ℕ) {} submitted) (.start 0)
      [⟨0, .start, 0⟩, ⟨1, .start, 120⟩, ⟨0, .release, 150⟩, ⟨2, .start, 200⟩]
    countIn (acquires submitted "idemp-unique-req-8899") 0 200 run.1 = 3 ∧
    (countIn (acquires submitted "idemp-unique-req-8899") 0 200 run.1 : ℤ)
      ≤ 1 + ⌊(200 : ℚ) / 120⌋ + 1 := by
  intro run
  have hrun : Run (idempStep {} submitted) (.start 0) run.1 run.2 := run_exec _ _ _
  have hbound : (countIn (acquires submitted "idemp-unique-req-8899") 0 200 run.1 : ℤ) ≤ _ :=
    reexecutions_bounded (by decide) (by decide) (by norm_num) hrun
  exact ⟨by decide +kernel, hbound.trans_eq (by decide +kernel)⟩

end Httpe.Idempotency
