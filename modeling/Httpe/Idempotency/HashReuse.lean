/-
Httpe.Idempotency.HashReuse — the request hash is stored and never
compared.

`start_transaction` writes its hash into the lock payload, the completed
payload replaces it, and a GET looks at the status alone. So one key's
answers stay within one request exactly as far as its callers see to it:
`HashesAgree` asks of each GET, made while a completion is cached, that
its caller's hash is the completing client's.
-/
import Httpe.Idempotency.History

namespace Httpe.Idempotency

variable {ι R : Type*}

/-- A call that returns COMPLETED has the request hash of the client
whose completion it returns. -/
def AnsweredOwn (calls : ι → StartCall) (key : String) (tr : List (IdempTransition ι R)) : Prop :=
  ∀ l t rest response, tr = l ++ t :: rest → Returns calls key t .completed response →
    ∃ f ∈ lastFinish calls key l, f.response = response ∧
      (calls t.event.client).requestHash = (calls f.client).requestHash

/-- A GET made within the time-to-live of a completion that nothing has
overwritten or released comes with the completing client's hash. -/
def HashesAgree (m : IdempotencyManager) (calls : ι → StartCall) (key : String)
    (tr : List (IdempTransition ι R)) : Prop :=
  ∀ l t rest, tr = l ++ t :: rest → t.event.op = .start →
    (calls t.event.client).idempotencyKey = key → t.pre.pc t.event.client = .get →
    ∀ f ∈ lastFinish calls key l, f.response.isSome → t.event.time < f.time + m.cacheTtl →
      (calls t.event.client).requestHash = (calls f.client).requestHash

variable [DecidableEq ι] {m : IdempotencyManager} {calls : ι → StartCall} {key : String}
  {tr : List (IdempTransition ι R)} {s : IdempSystem ι R} {t₀ : ℚ}

/-- **Exactly when key reuse leaks nothing**, whoever completes and
releases the key. -/
theorem answeredOwn_iff_hashesAgree (hrun : Run (idempStep m calls) (.start t₀) tr s) :
    AnsweredOwn calls key tr ↔ HashesAgree m calls key tr := by
  constructor
  · rintro h l t rest rfl hop hkey hget ⟨i, response, τ⟩ hlast hsome hlt
    obtain ⟨r, rfl⟩ := Option.isSome_iff_exists.mp hsome
    obtain ⟨hl, hstep, -⟩ := hrun.split
    have hmove := idempMove_of_step hstep
    have hret : Returns calls key t .completed (some r) := by
      refine ⟨hop, hkey, ?_⟩
      obtain ⟨s₁, ⟨j, op, time⟩, s₂⟩ := t
      obtain rfl : op = .start := hop
      exact (returned_completed_iff hl hmove).mpr ⟨hget, i, r, τ, hkey.symm ▸ hlast, hlt, rfl⟩
    obtain ⟨f, hf, -, hhash⟩ := h l t rest (some r) rfl hret
    rw [Option.mem_def, Option.mem_def.mp hlast, Option.some.injEq] at hf
    rwa [← hf] at hhash
  · rintro h l t rest response rfl hret
    obtain ⟨hl, hstep, -⟩ := hrun.split
    obtain ⟨hget, i, r, τ, hlast, hlt, rfl⟩ := hret.cached (idempMove_of_step hstep) hl
    exact ⟨_, hlast, rfl, h l t rest rfl hret.1 hret.2.1 hget _ hlast rfl hlt⟩

theorem answeredOwn_iff_hashesAgree_selfTest :
    let run := exec (idempStep {} submitted) (.start 0)
      [⟨0, .start, 0⟩, ⟨0, .complete "txn-999", 1⟩, ⟨1, .start, 2⟩, ⟨1, .start, 3⟩]
    run.2.pc 1 = .returned .completed (some "txn-999") ∧
      AnsweredOwn submitted "idemp-unique-req-8899" run.1 :=
  ⟨by decide +kernel,
    (answeredOwn_iff_hashesAgree (run_exec _ _ _)).mpr fun _ _ _ _ _ _ _ _ _ _ _ => rfl⟩

/-- Two requests under one key. -/
def reusedKey : Fin 2 → StartCall
  | 0 => ⟨"idemp-unique-req-8899", "hash-abc-123"⟩
  | 1 => ⟨"idemp-unique-req-8899", "hash-def-456"⟩

/-- The second request is answered with the first one's response. -/
theorem not_answeredOwn_reusedKey :
    let run := exec (idempStep {} reusedKey) (.start 0)
      [⟨0, .start, 0⟩, ⟨0, .complete "txn-999", 1⟩, ⟨1, .start, 2⟩, ⟨1, .start, 3⟩]
    (∀ t ∈ run.1, ByHolder reusedKey "idemp-unique-req-8899" t) ∧
      run.2.pc 1 = .returned .completed (some "txn-999") ∧
      ¬ AnsweredOwn reusedKey "idemp-unique-req-8899" run.1 := by
  intro run
  refine ⟨by simp only [ByHolder]; decide +kernel, by decide +kernel, fun hown => ?_⟩
  obtain ⟨t, ht⟩ : ∃ t, run.1.drop 3 = [t] := List.length_eq_one_iff.mp (by decide +kernel)
  have hreturns : ∀ t ∈ run.1.drop 3, Returns reusedKey "idemp-unique-req-8899" t .completed
      (some "txn-999") ∧ t.event.client = 1 := by
    simp only [Returns]
    decide +kernel
  obtain ⟨hret, hclient⟩ := hreturns t (by rw [ht]; exact List.mem_singleton_self t)
  obtain ⟨f, hf, -, hhash⟩ := hown (run.1.take 3) t [] (some "txn-999")
    (by rw [← ht, List.take_append_drop]) hret
  have hlast : lastFinish reusedKey "idemp-unique-req-8899" (run.1.take 3)
      = some ⟨0, some "txn-999", 1⟩ := by decide +kernel
  rw [hlast] at hf
  cases hf
  rw [hclient] at hhash
  exact absurd hhash (by decide)

end Httpe.Idempotency
