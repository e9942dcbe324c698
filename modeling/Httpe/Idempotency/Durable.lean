/-
Httpe.Idempotency.Durable — when a recorded response stays recorded.

`Durable` is the promise: a `start_transaction` that begins after the
lock's holder completed the key, and returns within `cache_ttl` of it,
returns that response. It holds exactly if the calls that finish the key
afterwards leave it alone: at the access where the call returns, the last
`complete_transaction` or `release_lock_on_failure` made on the key is a
completion with the same response. Time and the two accesses of the
calls, however interleaved, make no difference.
-/
import Httpe.Idempotency.History

namespace Httpe.Idempotency

variable {ι R : Type*}

/-- The current holder of the key's lock completes the key with `r`. -/
def CompletedByHolder (m : IdempotencyManager) (calls : ι → StartCall) (key : String) (r : R)
    (c : IdempTransition ι R) : Prop :=
  c.event.op = .complete r ∧ (calls c.event.client).idempotencyKey = key ∧
    ∃ since ∈ c.pre.lockedSince c.event.client, c.event.time < since + m.lockTtl

/-- In the history `tr`, step `c` completes the key with `r`, and at the
later step `t`, after the steps `l`, a `start_transaction` on the key
that began after `c` returns while the response should be cached. -/
structure LookedUp (m : IdempotencyManager) (calls : ι → StartCall) (key : String)
    (tr : List (IdempTransition ι R)) (r : R) (c : IdempTransition ι R)
    (l : List (IdempTransition ι R)) (t : IdempTransition ι R)
    (status : IdempotencyStatus) (response : Option R) : Prop where
  history : c ∈ l ∧ ∃ rest, tr = l ++ t :: rest
  completed : CompletedByHolder m calls key r c
  begins : c.post.pc t.event.client = .setnx
  cached : t.event.time < c.event.time + m.cacheTtl
  returns : Returns calls key t status response

def Durable (m : IdempotencyManager) (calls : ι → StartCall) (key : String)
    (tr : List (IdempTransition ι R)) : Prop :=
  ∀ r c l t status response, LookedUp m calls key tr r c l t status response →
    status = .completed ∧ response = some r

/-- Whenever a call returns, the last call that finished the key before
is a completion with the recorded response. -/
def NotUndone (m : IdempotencyManager) (calls : ι → StartCall) (key : String)
    (tr : List (IdempTransition ι R)) : Prop :=
  ∀ r c l t status response, LookedUp m calls key tr r c l t status response →
    ∃ i τ, lastFinish calls key l = some ⟨i, some r, τ⟩

variable [DecidableEq ι] {m : IdempotencyManager} {calls : ι → StartCall} {key : String}
  {tr l : List (IdempTransition ι R)}
  {s s' : IdempSystem ι R} {t₀ : ℚ}

/-- No call that finished the key is later than the last one, nor than
the clock. -/
theorem finishes_time_le (hrun : Run (idempStep m calls) (.start t₀) tr s) :
    (∀ f ∈ finishes calls key tr, f.time ≤ s.now) ∧
      ∀ f ∈ finishes calls key tr, ∀ g ∈ lastFinish calls key tr, f.time ≤ g.time := by
  refine hrun.invariant (fun tr s => (∀ f ∈ finishes calls key tr, f.time ≤ s.now) ∧
    ∀ f ∈ finishes calls key tr, ∀ g ∈ lastFinish calls key tr, f.time ≤ g.time)
    ⟨fun f hf => by simp [finishes] at hf, fun f hf => by simp [finishes] at hf⟩ ?_
  rintro tr s e s' - ⟨hnow, hlast⟩ hstep
  have hmove := idempMove_of_step hstep
  have hle : s.now ≤ s'.now := hmove.time_le.trans_eq hmove.now_eq.symm
  cases hfin : finishOn calls key e with
  | none =>
      rw [finishes_snoc_of_none hfin, lastFinish_snoc_of_none hfin]
      exact ⟨fun f hf => (hnow f hf).trans hle, hlast⟩
  | some g =>
      have hall : ∀ f ∈ finishes calls key tr ++ [g], f.time ≤ e.time := by
        refine forall_mem_snoc (fun f hf => (hnow f hf).trans hmove.time_le) ?_
        rw [(finishOn_eq_some hfin).2.2]
      rw [finishes_snoc_of_some hfin, lastFinish_snoc_of_some hfin, hmove.now_eq]
      refine ⟨hall, fun f hf g' hg' => ?_⟩
      cases hg'
      rw [(finishOn_eq_some hfin).2.2]
      exact hall f hf

/-- A call that returns while a response is cached returns it. -/
theorem Returns.of_cached {t : IdempTransition ι R} {status : IdempotencyStatus}
    {response : Option R} (hmove : IdempMove m calls t.pre t.event t.post)
    (h : Returns calls key t status response) {r : R} {expiry : ℚ}
    (hlive : t.pre.entryAt key t.event.time = some ⟨cachedPayload r, expiry⟩) :
    status = .completed ∧ response = some r := by
  obtain ⟨hop, rfl, hpc⟩ := h
  obtain ⟨s₁, e, s₂⟩ := t
  replace hmove : IdempMove m calls s₁ e s₂ := hmove
  cases hmove with
  | acquire _ _ hfree => rw [hfree] at hlive; cases hlive
  | taken _ _ _ => simp at hpc
  | vanished _ _ _ => simp at hpc
  | answer _ _ hlive' =>
      rw [hlive] at hlive'
      cases hlive'
      simp only [Function.update_self, StartPc.answer] at hpc
      cases hpc
      exact ⟨rfl, rfl⟩
  | complete | release => cases hop

/-- What one call returns within the time-to-live of a completion. -/
theorem lookedUp_iff (hrun : Run (idempStep m calls) (.start t₀) tr s) {r : R}
    {c t : IdempTransition ι R} {status : IdempotencyStatus} {response : Option R}
    (h : LookedUp m calls key tr r c l t status response) :
    (status = .completed ∧ response = some r) ↔
      ∃ i τ, lastFinish calls key l = some ⟨i, some r, τ⟩ := by
  obtain ⟨⟨hcl, rest, rfl⟩, ⟨hcop, hckey, -⟩, -, hcached, hret⟩ := h
  obtain ⟨hrun', hstep, -⟩ := hrun.split
  have hmove := idempMove_of_step hstep
  constructor
  · rintro ⟨rfl, rfl⟩
    obtain ⟨-, i, r', τ, hlast, -, hresp⟩ := hret.cached hmove hrun'
    cases hresp
    exact ⟨i, τ, hlast⟩
  · rintro ⟨i, τ, hlast⟩
    -- the last completion is not older than `c`, so it is still cached
    have hc : (⟨c.event.client, some r, c.event.time⟩ : Finish ι R) ∈ finishes calls key l := by
      refine List.mem_filterMap.mpr ⟨c, hcl, ?_⟩
      rw [finishOn, if_pos hckey, hcop]
    have hle : c.event.time ≤ τ := (finishes_time_le hrun').2 _ hc _ hlast
    exact hret.of_cached hmove (entryAt_of_lastFinish hrun' hlast hmove.time_le
      (hcached.trans_le (add_le_add_left hle _)))

/-- **Exactly when a recorded response is durable.** -/
theorem durable_iff_notUndone (hrun : Run (idempStep m calls) (.start t₀) tr s) :
    Durable m calls key tr ↔ NotUndone m calls key tr := by
  constructor
  · intro h r c l t status response hlook
    exact (lookedUp_iff hrun hlook).mp (h r c l t status response hlook)
  · intro h r c l t status response hlook
    exact (lookedUp_iff hrun hlook).mpr (h r c l t status response hlook)

theorem durable_iff_notUndone_selfTest :
    let run := exec (idempStep {} submitted) (.start 0)
      [⟨0, .start, 0⟩, ⟨0, .complete "txn-999", 1⟩, ⟨2, .start, 2⟩, ⟨2, .start, 3⟩]
    run.2.pc 2 = .returned .completed (some "txn-999") ∧
      (Durable {} submitted "idemp-unique-req-8899" run.1 ↔
        NotUndone {} submitted "idemp-unique-req-8899" run.1) :=
  ⟨by decide +kernel, durable_iff_notUndone (run_exec _ _ _)⟩

/-- The first client's lock expires, the second one acquires the key and
completes it, and the first one releases late: the third submission is
executed again. -/
theorem not_durable_lateRelease :
    let run := exec (idempStep {} submitted) (.start 0)
      [⟨0, .start, 0⟩, ⟨1, .start, 121⟩, ⟨1, .complete "txn-999", 122⟩, ⟨0, .release, 123⟩,
       ⟨2, .start, 124⟩]
    run.2.pc 2 = .returned .newRequestLocked none ∧
      ¬ Durable {} submitted "idemp-unique-req-8899" run.1 := by
  intro run
  refine ⟨by decide +kernel, fun hdur => ?_⟩
  obtain ⟨t, ht⟩ : ∃ t, run.1.drop 4 = [t] := List.length_eq_one_iff.mp (by decide +kernel)
  have hreturns : ∀ t ∈ run.1.drop 4, Returns submitted "idemp-unique-req-8899" t
      .newRequestLocked none ∧ t.event.client = 2 ∧ t.event.time = 124 := by
    simp only [Returns]
    decide +kernel
  obtain ⟨hret, hclient, htime⟩ := hreturns t (by rw [ht]; exact List.mem_singleton_self t)
  obtain ⟨c, hc, hcompleted, hbegins, hcached⟩ : ∃ c ∈ run.1.take 4,
      CompletedByHolder {} submitted "idemp-unique-req-8899" "txn-999" c ∧
        c.post.pc 2 = .setnx ∧ 124 < c.event.time + 86400 := by
    simp only [CompletedByHolder]
    decide +kernel
  have hlook : LookedUp {} submitted "idemp-unique-req-8899" run.1 "txn-999" c (run.1.take 4) t
      .newRequestLocked none :=
    ⟨⟨hc, [], by rw [← ht, List.take_append_drop]⟩, hcompleted, hclient ▸ hbegins,
      htime ▸ hcached, hret⟩
  cases (hdur _ _ _ _ _ _ hlook).1

end Httpe.Idempotency
