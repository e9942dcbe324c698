/-
Httpe.Saga.Transfers — P2P transfers across the OCC shards.

A transfer is the two-step saga of `diagrams/p2p-payment-flow.puml`:
DEBIT_SENDER and CREDIT_RECEIVER, each one compare-and-swap on the shard
its account is routed to. The refund is the compare-and-swap the other
way. What version a call expects is left to the caller: it may be fresh,
stale or guessed. Any number of transfers run at once, between any
accounts of any shards.

If nothing is rounded, such a step moves the balances by its own amount
or not at all (`ledger_swapOn`), so `sagas_conserve` holds of them, and no
transfer ever creates money (`transfers_exact`). The shards compute with
Python's decimal context. As long as all amounts have at most four
decimals and all money together fits in its digits, what they compute is
exact in every state a run reaches, so that the run is one without
rounding (`run_exact`); that is what `transfers_never_create` is about.
-/
import Httpe.Occ.Shard
import Httpe.Saga.Conservation
import Mathlib.Algebra.BigOperators.Pi
import Mathlib.Algebra.Order.BigOperators.Group.Finset

namespace Httpe.Saga

open Decimal Occ

variable {σ ι : Type*} [DecidableEq σ]

/-- What the shards hold of account `a`; `shardOf` is the shard router. -/
def balance (shardOf : String → σ) (w : σ → MockDatabaseShard) (a : String) : ℚ :=
  match (w (shardOf a)).store a with
  | some row => row.availableBalance
  | none => 0

/-- One compare-and-swap on the account's shard; `expected` is how the
caller comes by the version. -/
def swapOn (rd : Rounding) (shardOf : String → σ) (a : String) (call : ℤ → CasCall)
    (expected : MockDatabaseShard → ℤ) (w : σ → MockDatabaseShard) :
    CallResult × (σ → MockDatabaseShard) :=
  match (call (expected (w (shardOf a)))).execute rd (w (shardOf a)) with
  | (.ok success, db) => (.returned success, Function.update w (shardOf a) db)
  | (.error .overflow, db) =>
      (.raised "[<class 'decimal.Overflow'>]", Function.update w (shardOf a) db)

inductive TransferStep where
  | debitSender
  | creditReceiver
  deriving DecidableEq, Repr

structure Transfer where
  senderAccountId : String
  receiverAccountId : String
  amount : ℚ
  /-- The version each of the four calls expects. -/
  expected : TransferStep → CallKind → MockDatabaseShard → ℤ

namespace Transfer

def account (t : Transfer) : TransferStep → String
  | .debitSender => t.senderAccountId
  | .creditReceiver => t.receiverAccountId

def name : TransferStep → String
  | .debitSender => "DEBIT_SENDER"
  | .creditReceiver => "CREDIT_RECEIVER"

/-- What a step does to the balance of its account. -/
def delta (t : Transfer) : TransferStep → ℚ
  | .debitSender => -t.amount
  | .creditReceiver => t.amount

/-- What a step does to all balances. -/
def effect (t : Transfer) (r : TransferStep) : String → ℚ := Pi.single (t.account r) (t.delta r)

/-- The update a call of a step makes, given the version. -/
def call (t : Transfer) : TransferStep → CallKind → ℤ → CasCall
  | .debitSender, .action => .debit t.senderAccountId t.amount
  | .debitSender, .compensation => .credit t.senderAccountId t.amount
  | .creditReceiver, .action => .credit t.receiverAccountId t.amount
  | .creditReceiver, .compensation => .debit t.receiverAccountId t.amount

def step (rd : Rounding) (shardOf : String → σ) (t : Transfer) (r : TransferStep) :
    SagaStep (σ → MockDatabaseShard) where
  name := name r
  action := swapOn rd shardOf (t.account r) (t.call r .action) (t.expected r .action)
  compensation :=
    swapOn rd shardOf (t.account r) (t.call r .compensation) (t.expected r .compensation)

def orchestrator (rd : Rounding) (shardOf : String → σ) (ctx : P2PTransferContext)
    (t : Transfer) : SagaOrchestrator TransferStep (σ → MockDatabaseShard) where
  ctx := ctx
  step := t.step rd shardOf
  state := fun _ => {}
  steps := [.debitSender, .creditReceiver]

/-- The amount is out of the sender's account and not in the receiver's. -/
def outstanding (t : Transfer) (state : TransferStep → StepState) : ℚ :=
  if (state .debitSender).status.inEffect && !(state .creditReceiver).status.inEffect then t.amount
  else 0

end Transfer

theorem Transfer.outstanding_nonneg (t : Transfer) (h : 0 ≤ t.amount)
    {state : TransferStep → StepState} : 0 ≤ t.outstanding state := by
  unfold Transfer.outstanding
  split
  · exact h
  · exact le_rfl

/-! ## One compare-and-swap -/

section Swap

variable {shardOf : String → σ} {a : String} {call : ℤ → CasCall}
  {expected : MockDatabaseShard → ℤ} {w : σ → MockDatabaseShard}

/-- A swap answers true and writes a new balance, or all shards are left
alone. -/
theorem swapOn_cases (rd : Rounding) (expected : MockDatabaseShard → ℤ)
    (w : σ → MockDatabaseShard) (haccount : ∀ v, (call v).accountId = a) :
    (∃ v row balance, (w (shardOf a)).store a = some row ∧ (call v).Commits rd row balance ∧
      swapOn rd shardOf a call expected w = (.returned true,
        Function.update w (shardOf a) ((w (shardOf a)).put a (row.updated balance)))) ∨
    ((swapOn rd shardOf a call expected w).1 ≠ .returned true ∧
      (swapOn rd shardOf a call expected w).2 = w) := by
  rcases (call (expected (w (shardOf a)))).execute_cases rd (w (shardOf a)) with
    ⟨row, balance, hrow, hcommits, hex⟩ | ⟨-, -, -, -, hex⟩ | ⟨-, hex⟩
  · rw [haccount] at hrow hex
    refine .inl ⟨_, row, balance, hrow, hcommits, ?_⟩
    simp only [swapOn, hex]
  · refine .inr ?_
    simp [swapOn, hex]
  · refine .inr ?_
    simp [swapOn, hex]

/-- The balances after a row is written. -/
theorem balance_update {row : AccountRecord} (b : String) :
    balance shardOf (Function.update w (shardOf a) ((w (shardOf a)).put a row)) b
      = if b = a then row.availableBalance else balance shardOf w b := by
  by_cases hab : b = a
  · subst hab
    simp [balance]
  · rw [if_neg hab]
    by_cases hshard : shardOf b = shardOf a
    · simp only [balance, hshard, Function.update_self, MockDatabaseShard.put_store_of_ne _ hab]
    · simp only [balance, Function.update_of_ne hshard]

/-- Without rounding it moves the balance of its account by its own
amount, or nothing. -/
theorem ledger_swapOn {δ : ℚ} (haccount : ∀ v, (call v).accountId = a)
    (hdelta : ∀ v, (call v).delta = δ) :
    balance shardOf (swapOn .exact shardOf a call expected w).2 = balance shardOf w
      + if (swapOn .exact shardOf a call expected w).1 = .returned true
        then Pi.single a δ else 0 := by
  rcases swapOn_cases .exact expected w haccount with
    ⟨v, row, written, hrow, hcommits, hswap⟩ | ⟨hanswer, hkept⟩
  · have hwritten : row.availableBalance + δ = written := by
      simpa [CasCall.newBalance, hdelta] using hcommits.newBalance
    rw [hswap, if_pos rfl]
    funext b
    rw [balance_update]
    by_cases hab : b = a
    · subst hab
      simp [balance, hrow, ← hwritten]
    · simp [hab]
  · rw [hkept, if_neg hanswer, add_zero]

end Swap

/-- No shard holds an overdrawn account. -/
def NoOverdraft (w : σ → MockDatabaseShard) : Prop :=
  ∀ k a row, (w k).store a = some row → 0 ≤ row.availableBalance

/-- A property of rows that every commit of the calls keeps. -/
theorem rows_swapOn {P : AccountRecord → Prop} {rd : Rounding} {shardOf : String → σ} {a : String}
    {call : ℤ → CasCall} {expected : MockDatabaseShard → ℤ} {w : σ → MockDatabaseShard}
    (h : ∀ k b row, (w k).store b = some row → P row) (haccount : ∀ v, (call v).accountId = a)
    (hcommit : ∀ v row balance, (call v).Commits rd row balance → P row →
      P (row.updated balance)) :
    ∀ k b row, ((swapOn rd shardOf a call expected w).2 k).store b = some row → P row := by
  rcases swapOn_cases rd expected w haccount with
    ⟨v, row, balance, hrow, hcommits, hswap⟩ | ⟨-, hkept⟩
  · rw [hswap]
    intro k b row' hrow'
    by_cases hk : k = shardOf a
    · subst hk
      simp only [Function.update_self] at hrow'
      by_cases hab : b = a
      · subst hab
        rw [MockDatabaseShard.put_store_self] at hrow'
        cases hrow'
        exact hcommit v row balance hcommits (h _ _ row hrow)
      · rw [MockDatabaseShard.put_store_of_ne _ hab] at hrow'
        exact h _ b row' hrow'
    · simp only [Function.update_of_ne hk] at hrow'
      exact h k b row' hrow'
  · rw [hkept]
    exact h

/-- The balances have at most four decimals. -/
def FourDecimals (w : σ → MockDatabaseShard) : Prop :=
  ∀ k a row, (w k).store a = some row → HasScale 4 row.availableBalance

omit [DecidableEq σ] in
theorem NoOverdraft.balance_nonneg {shardOf : String → σ} {w : σ → MockDatabaseShard}
    (h : NoOverdraft w) (a : String) : 0 ≤ balance shardOf w a := by
  unfold balance
  cases hrow : (w (shardOf a)).store a with
  | none => exact le_rfl
  | some row => exact h _ a row hrow

/-! ## One transfer -/

namespace Transfer

variable {shardOf : String → σ} {t : Transfer} {r : TransferStep} {w : σ → MockDatabaseShard}

@[simp] theorem call_accountId (k : CallKind) (v : ℤ) : (t.call r k v).accountId = t.account r := by
  cases r <;> cases k <;> rfl

@[simp] theorem call_amount (k : CallKind) (v : ℤ) : (t.call r k v).amount = t.amount := by
  cases r <;> cases k <;> rfl

theorem call_action_delta (v : ℤ) : (t.call r .action v).delta = t.delta r := by
  cases r <;> rfl

theorem call_compensation_delta (v : ℤ) : (t.call r .compensation v).delta = -t.delta r := by
  cases r with
  | debitSender => simp [call, CasCall.delta, delta]
  | creditReceiver => rfl

theorem step_additive (r : TransferStep) : AdditiveStep (balance shardOf) (fun _ => 0)
    (t.step .exact shardOf r) (t.effect r) := by
  constructor
  · intro w
    rw [sub_self, add_zero]
    exact ledger_swapOn (call_accountId .action) call_action_delta
  · intro w
    rw [sub_self, add_zero, effect, ← Pi.single_neg]
    exact ledger_swapOn (call_accountId .compensation) call_compensation_delta

theorem steps_nodup {rd : Rounding} (ctx : P2PTransferContext) :
    (t.orchestrator rd shardOf ctx).steps.Nodup :=
  show [TransferStep.debitSender, .creditReceiver].Nodup by decide

/-- Which of the two steps failed. -/
theorem steps_eq_append_cons {before after : List TransferStep} {f : TransferStep}
    (h : [.debitSender, .creditReceiver] = before ++ f :: after) :
    f = .debitSender ∧ after = [.creditReceiver] ∨ f = .creditReceiver := by
  cases before with
  | nil => cases h; exact .inl ⟨rfl, rfl⟩
  | cons b before =>
      cases before with
      | nil => cases h; exact .inr rfl
      | cons b' before => simp at h

/-- The receiver is credited only while the sender is debited. -/
theorem debit_of_credit {state : TransferStep → StepState} {pc : SagaPc TransferStep}
    (h : ProcInv [.debitSender, .creditReceiver] state pc)
    (hcredit : (state .creditReceiver).status.inEffect = true) :
    (state .debitSender).status.inEffect = true := by
  have hfailed : ∀ before after f, [.debitSender, .creditReceiver] = before ++ f :: after →
      (state f).status = .failed → (∀ r ∈ after, (state r).status = .notStarted) → False := by
    intro before after f hsteps hf hafter
    rcases steps_eq_append_cons hsteps with ⟨-, rfl⟩ | rfl
    · simp [hafter _ List.mem_cons_self, StepStatus.inEffect] at hcredit
    · simp [hf, StepStatus.inEffect] at hcredit
  cases pc with
  | idle => simp [h .creditReceiver, StepStatus.inEffect] at hcredit
  | forward rest executed =>
      obtain ⟨hsteps, hexecuted, hrest⟩ := h
      have hmem : TransferStep.creditReceiver ∈ executed ++ rest := hsteps ▸ by simp
      rcases List.mem_append.mp hmem with hmem | hmem
      · -- the whole list is executed
        have hdebit : TransferStep.debitSender ∈ executed := by
          cases executed with
          | nil => cases hmem
          | cons q executed =>
              rw [List.cons_append] at hsteps
              rw [(List.cons.inj hsteps).1]
              exact List.mem_cons_self
        rw [hexecuted _ hdebit]
        rfl
      · simp [hrest _ hmem, StepStatus.inEffect] at hcredit
  | rollback rest =>
      obtain ⟨before, f, after, undone, hsteps, -, -, -, hf, hafter⟩ := h
      exact (hfailed before after f hsteps hf hafter).elim
  | done result =>
      cases result with
      | true =>
          rw [h .debitSender (by simp)]
          rfl
      | false =>
          obtain ⟨before, f, after, hsteps, -, hf, hafter⟩ := h
          exact (hfailed before after f hsteps hf hafter).elim

/-- What the total over accounts that include both ends sees of it. -/
theorem sum_inEffect {A : Finset String} (hsender : t.senderAccountId ∈ A)
    (hreceiver : t.receiverAccountId ∈ A) {state : TransferStep → StepState}
    {pc : SagaPc TransferStep} (h : ProcInv [.debitSender, .creditReceiver] state pc) :
    ∑ a ∈ A, inEffect t.effect [.debitSender, .creditReceiver] state a
      = -t.outstanding state := by
  have hcredit := debit_of_credit h
  cases hd : (state .debitSender).status.inEffect <;>
    cases hc : (state .creditReceiver).status.inEffect
  · simp [inEffect, outstanding, hd, hc]
  · rw [hd] at hcredit
    cases hcredit hc
  · simp [inEffect, effect, outstanding, hd, hc, account, delta, hsender]
  · simp [inEffect, effect, outstanding, hd, hc, account, delta, hsender, hreceiver,
      Finset.sum_add_distrib]

/-- An account the transfer does not name sees nothing of it. -/
theorem inEffect_of_ne {a : String} (hsender : a ≠ t.senderAccountId)
    (hreceiver : a ≠ t.receiverAccountId) {state : TransferStep → StepState} :
    inEffect t.effect [.debitSender, .creditReceiver] state a = 0 := by
  cases hd : (state .debitSender).status.inEffect <;>
    cases hc : (state .creditReceiver).status.inEffect <;>
    simp [inEffect, effect, hd, hc, account, hsender, hreceiver]

/-- A transfer that is done and whose refund did not fail. -/
theorem outstanding_of_done {state : TransferStep → StepState} {result : Bool}
    (h : ProcInv [.debitSender, .creditReceiver] state (.done result))
    (hrefund : (state .debitSender).status ≠ .compensationError) : t.outstanding state = 0 := by
  cases result with
  | true =>
      have hcredit := h .creditReceiver (by simp)
      simp [outstanding, hcredit, StepStatus.inEffect]
  | false =>
      have hdebit := h.ne_success .debitSender (by simp)
      have hnone : (state .debitSender).status.inEffect = false := by
        cases hstatus : (state .debitSender).status with
        | success => exact absurd hstatus hdebit
        | compensationError => exact absurd hstatus hrefund
        | notStarted | failed | compensated => rfl
      simp [outstanding, hnone]

end Transfer

/-- A swap of a transfer is exact in the decimal context while no account
of `A` holds more than the total. -/
theorem Transfer.swapOn_exact {shardOf : String → σ} {t : Transfer} {r : TransferStep}
    {k : CallKind} {w : σ → MockDatabaseShard} {A : Finset String} {total : ℚ}
    (hpos : 0 < t.amount) (hamount : HasScale 4 t.amount) (hrows : FourDecimals w)
    (hkept : NoOverdraft w) (haccount : t.account r ∈ A) (hlt : total + t.amount < 10 ^ 24)
    (htotal : ∑ a ∈ A, balance shardOf w a ≤ total) :
    swapOn decimalContext.rounding shardOf (t.account r) (t.call r k) (t.expected r k) w
      = swapOn .exact shardOf (t.account r) (t.call r k) (t.expected r k) w := by
  have hexecute : ∀ v, (t.call r k v).execute decimalContext.rounding (w (shardOf (t.account r)))
      = (t.call r k v).execute .exact (w (shardOf (t.account r))) := by
    refine fun v => CasCall.execute_congr fun row hrow hadm => ?_
    rw [Transfer.call_accountId] at hrow
    have hbalance : row.availableBalance ≤ total := by
      have hsingle := Finset.single_le_sum (f := balance shardOf w)
        (fun a _ => hkept.balance_nonneg a) haccount
      have hheld : balance shardOf w (t.account r) = row.availableBalance := by
        simp [balance, hrow]
      linarith
    have hdelta : HasScale 4 (t.call r k v).delta := CasCall.hasScale_delta (by simpa using hamount)
    obtain ⟨hlow, hhigh⟩ := hadm.sum_bounds (by simpa using hpos) (hkept _ _ row hrow)
    rw [Transfer.call_amount] at hhigh
    refine decimalContext_round_of_scale ((hrows _ _ row hrow).add hdelta) ?_
    rw [abs_of_nonneg hlow]
    linarith
  unfold swapOn
  rw [hexecute]

/-! ## Any number of transfers -/

section Transfers

variable [Fintype ι] [DecidableEq ι] {shardOf : String → σ} {ctx : ι → P2PTransferContext}
  {t : ι → Transfer} {w₀ : σ → MockDatabaseShard}
  {s : SagaSystem ι TransferStep (σ → MockDatabaseShard)}
  {tr : List (SagaTransition ι TransferStep (σ → MockDatabaseShard))}

/-- What the transfers keep when nothing is rounded. -/
theorem transfers_exact (hpos : ∀ i, 0 < (t i).amount) (h0 : NoOverdraft w₀)
    (hrun : Run (sagaStep fun i => (t i).orchestrator .exact shardOf (ctx i))
      (.start (fun i => (t i).orchestrator .exact shardOf (ctx i)) w₀) tr s)
    {A : Finset String}
    (hends : ∀ i, (t i).senderAccountId ∈ A ∧ (t i).receiverAccountId ∈ A) :
    ∑ a ∈ A, balance shardOf s.world a
      = ∑ a ∈ A, balance shardOf w₀ a - ∑ i, (t i).outstanding (s.proc i).state ∧
    ∑ a ∈ A, balance shardOf s.world a ≤ ∑ a ∈ A, balance shardOf w₀ a ∧
    NoOverdraft s.world ∧
    (∀ a ∉ A, balance shardOf s.world a = balance shardOf w₀ a) ∧
    ((∀ i, ∃ result, (s.proc i).pc = .done result) →
      (∀ i, ((s.proc i).state .debitSender).status ≠ .compensationError) →
      ∑ a ∈ A, balance shardOf s.world a = ∑ a ∈ A, balance shardOf w₀ a) := by
  have hinv : ∀ i, ProcInv [.debitSender, .creditReceiver] (s.proc i).state (s.proc i).pc :=
    procInv_of_run (fun i => (t i).steps_nodup (ctx i)) (fun _ _ _ => rfl) hrun
  have hledger := own_of_run (fun i => (t i).steps_nodup (ctx i)) (fun _ _ _ => rfl)
    (fun i r _ => (t i).step_additive r) hrun
  simp only [own, sub_zero] at hledger
  have hat : ∀ a, balance shardOf s.world a = balance shardOf w₀ a
      + ∑ i, inEffect (t i).effect [.debitSender, .creditReceiver] (s.proc i).state a := by
    intro a
    have happly := congrFun hledger a
    rwa [Pi.add_apply, Finset.sum_apply] at happly
  have htotal : ∑ a ∈ A, balance shardOf s.world a
      = ∑ a ∈ A, balance shardOf w₀ a - ∑ i, (t i).outstanding (s.proc i).state := by
    have hsum : ∀ i, ∑ a ∈ A, inEffect (t i).effect [.debitSender, .creditReceiver]
        (s.proc i).state a = -(t i).outstanding (s.proc i).state :=
      fun i => Transfer.sum_inEffect (hends i).1 (hends i).2 (hinv i)
    simp only [hat]
    rw [Finset.sum_add_distrib, Finset.sum_comm]
    simp only [hsum, Finset.sum_neg_distrib, sub_eq_add_neg]
  have hnonneg : 0 ≤ ∑ i, (t i).outstanding (s.proc i).state :=
    Finset.sum_nonneg fun i _ => (t i).outstanding_nonneg (hpos i).le
  have hkept : NoOverdraft s.world := by
    have hcommit : ∀ i r k v row balance, ((t i).call r k v).Commits .exact row balance →
        0 ≤ row.availableBalance → 0 ≤ (row.updated balance).availableBalance :=
      fun i r k v row balance hcommits hrow =>
        hcommits.balance_nonneg (by simpa using hpos i) hrow
    refine world_of_run h0 (fun i r w hw => ?_) (fun i r w hw => ?_) hrun
    · exact rows_swapOn hw (Transfer.call_accountId .action) (hcommit i r .action)
    · exact rows_swapOn hw (Transfer.call_accountId .compensation) (hcommit i r .compensation)
  refine ⟨htotal, by linarith, hkept, fun a ha => ?_, fun hdone hrefund => ?_⟩
  · rw [hat a, Finset.sum_eq_zero, add_zero]
    intro i _
    have hsender : a ≠ (t i).senderAccountId := ne_of_mem_of_not_mem (hends i).1 ha |>.symm
    have hreceiver : a ≠ (t i).receiverAccountId := ne_of_mem_of_not_mem (hends i).2 ha |>.symm
    exact Transfer.inEffect_of_ne hsender hreceiver
  · have hzero : ∑ i, (t i).outstanding (s.proc i).state = 0 := by
      refine Finset.sum_eq_zero fun i _ => ?_
      obtain ⟨result, hpc⟩ := hdone i
      exact Transfer.outstanding_of_done (hpc ▸ hinv i) (hrefund i)
    rw [htotal, hzero, sub_zero]

omit [Fintype ι] in
/-- Commits of four decimals keep four decimals. -/
theorem fourDecimals_of_run (hrows : FourDecimals w₀) (hamounts : ∀ i, HasScale 4 (t i).amount)
    (hrun : Run (sagaStep fun i => (t i).orchestrator .exact shardOf (ctx i))
      (.start (fun i => (t i).orchestrator .exact shardOf (ctx i)) w₀) tr s) :
    FourDecimals s.world := by
  have hcommit : ∀ i r k v row balance, ((t i).call r k v).Commits .exact row balance →
      HasScale 4 row.availableBalance →
      HasScale 4 (row.updated balance).availableBalance := by
    intro i r k v row balance hcommits hrow
    have hdelta : HasScale 4 ((t i).call r k v).delta :=
      CasCall.hasScale_delta (by simpa using hamounts i)
    have hbalance : row.availableBalance + ((t i).call r k v).delta = balance := by
      simpa [CasCall.newBalance] using hcommits.newBalance
    rw [AccountRecord.updated_availableBalance, ← hbalance]
    exact hrow.add hdelta
  refine world_of_run hrows (fun i r w hw => ?_) (fun i r w hw => ?_) hrun
  · exact rows_swapOn hw (Transfer.call_accountId .action) (hcommit i r .action)
  · exact rows_swapOn hw (Transfer.call_accountId .compensation) (hcommit i r .compensation)

/-- In every state reached without rounding the decimal context rounds
nothing, so a run with it is one without. -/
theorem run_exact {A : Finset String} (hpos : ∀ i, 0 < (t i).amount) (h0 : NoOverdraft w₀)
    (hrows : FourDecimals w₀) (hamounts : ∀ i, HasScale 4 (t i).amount)
    (hends : ∀ i, (t i).senderAccountId ∈ A ∧ (t i).receiverAccountId ∈ A)
    (hlt : ∀ i, ∑ a ∈ A, balance shardOf w₀ a + (t i).amount < 10 ^ 24)
    (hrun : Run (sagaStep fun i => (t i).orchestrator decimalContext.rounding shardOf (ctx i))
      (.start (fun i => (t i).orchestrator decimalContext.rounding shardOf (ctx i)) w₀) tr s) :
    Run (sagaStep fun i => (t i).orchestrator .exact shardOf (ctx i))
      (.start (fun i => (t i).orchestrator .exact shardOf (ctx i)) w₀) tr s := by
  refine hrun.of_agree fun tr' s' i hrun' => sagaStep_congr ?_
  obtain ⟨-, htotal, hkept, -, -⟩ := transfers_exact hpos h0 hrun' hends
  have hdecimals := fourDecimals_of_run hrows hamounts hrun'
  have haccount : ∀ r, (t i).account r ∈ A := by
    intro r
    cases r with
    | debitSender => exact (hends i).1
    | creditReceiver => exact (hends i).2
  have hswap : ∀ r k, _ := fun r k =>
    Transfer.swapOn_exact (k := k) (hpos i) (hamounts i) hdecimals hkept (haccount r) (hlt i) htotal
  constructor
  · rfl
  · exact fun r => rfl
  · exact fun r => hswap r .action
  · exact fun r => hswap r .compensation

/-- **Transfers never create money.** Any number of transfers of positive
amounts between any accounts of any shards run at once, with any expected
versions. Balances and amounts have at most four decimals, and the total
of some accounts that include both ends of all transfers, together with
any one amount, is below 10²⁴. In every state the transfers reach, that
total is what it was less the amounts that are out of a sender's account
and not yet in the receiver's; no account is overdrawn; and an account
that no transfer names has what it had. So the total never grows, and once
all transfers are done and no refund has failed it is what it was. -/
theorem transfers_never_create (hpos : ∀ i, 0 < (t i).amount)
    (hamounts : ∀ i, HasScale 4 (t i).amount) (h0 : NoOverdraft w₀) (hrows : FourDecimals w₀)
    {A : Finset String}
    (hends : ∀ i, (t i).senderAccountId ∈ A ∧ (t i).receiverAccountId ∈ A)
    (hlt : ∀ i, ∑ a ∈ A, balance shardOf w₀ a + (t i).amount < 10 ^ 24)
    (hrun : Run (sagaStep fun i => (t i).orchestrator decimalContext.rounding shardOf (ctx i))
      (.start (fun i => (t i).orchestrator decimalContext.rounding shardOf (ctx i)) w₀) tr s) :
    ∑ a ∈ A, balance shardOf s.world a
      = ∑ a ∈ A, balance shardOf w₀ a - ∑ i, (t i).outstanding (s.proc i).state ∧
    ∑ a ∈ A, balance shardOf s.world a ≤ ∑ a ∈ A, balance shardOf w₀ a ∧
    NoOverdraft s.world ∧
    (∀ a ∉ A, balance shardOf s.world a = balance shardOf w₀ a) ∧
    ((∀ i, ∃ result, (s.proc i).pc = .done result) →
      (∀ i, ((s.proc i).state .debitSender).status ≠ .compensationError) →
      ∑ a ∈ A, balance shardOf s.world a = ∑ a ∈ A, balance shardOf w₀ a) :=
  transfers_exact hpos h0 (run_exact hpos h0 hrows hamounts hends hlt hrun) hends

end Transfers

/-- A shard with one account. -/
def shardWith (row : AccountRecord) : MockDatabaseShard :=
  MockDatabaseShard.empty.insertAccount row

omit [DecidableEq σ] in
theorem rows_shardWith {P : AccountRecord → Prop} {row : σ → AccountRecord} (h : ∀ k, P (row k)) :
    ∀ k a stored, (shardWith (row k)).store a = some stored → P stored := by
  intro k a stored hstored
  change (MockDatabaseShard.empty.put (row k).accountId (row k)).store a = some stored at hstored
  by_cases ha : a = (row k).accountId
  · rw [ha, MockDatabaseShard.put_store_self] at hstored
    cases hstored
    exact h k
  · rw [MockDatabaseShard.put_store_of_ne _ ha] at hstored
    cases hstored

def twoAccounts : Bool → AccountRecord
  | false => ⟨"acc-sender-shard0", "usr-1", 1500, 1500, 1, .active⟩
  | true => ⟨"acc-receiver-shard3", "usr-2", 200, 200, 7, .active⟩

def route (accountId : String) : Bool := accountId = "acc-receiver-shard3"

/-- Two transfers; the credit of the second one expects a version the
first one leaves behind. -/
def twoTransfers : Bool → Transfer
  | false => ⟨"acc-sender-shard0", "acc-receiver-shard3", 500, fun
      | .debitSender, _ => fun _ => 1
      | .creditReceiver, _ => fun _ => 7⟩
  | true => ⟨"acc-sender-shard0", "acc-receiver-shard3", 300, fun
      | .debitSender, .action => fun _ => 2
      | .debitSender, .compensation => fun _ => 3
      | .creditReceiver, _ => fun _ => 7⟩

theorem transfers_never_create_two :
    let orchestrators := fun i =>
      (twoTransfers i).orchestrator decimalContext.rounding route ⟨"saga", "txn", .pending, []⟩
    let start := SagaSystem.start orchestrators fun k => shardWith (twoAccounts k)
    let run := exec (sagaStep orchestrators) start
      [false, true, false, true, false, true, true, true, false]
    ∑ a ∈ {"acc-sender-shard0", "acc-receiver-shard3"}, balance route run.2.world a = 1700 ∧
    NoOverdraft run.2.world := by
  intro orchestrators start run
  have hwhole : ∀ n : ℤ, HasScale 4 (n : ℚ) := hasScale_intCast 4
  have hamounts : ∀ i, HasScale 4 (twoTransfers i).amount := by
    intro i
    cases i with
    | false => exact hwhole 500
    | true => exact hwhole 300
  have hbalances : ∀ i, HasScale 4 (twoAccounts i).availableBalance := by
    intro i
    cases i with
    | false => exact hwhole 1500
    | true => exact hwhole 200
  obtain ⟨-, -, hnonneg, -, htotal⟩ := transfers_never_create
    (A := {"acc-sender-shard0", "acc-receiver-shard3"}) (by decide +kernel) hamounts
    (rows_shardWith (by decide +kernel)) (rows_shardWith hbalances) (by decide +kernel)
    (by decide +kernel) (run_exec (sagaStep orchestrators) _ start)
  refine ⟨(htotal (fun i => ?_) (by decide +kernel)).trans (by decide +kernel), hnonneg⟩
  cases i with
  | false => exact ⟨true, by decide +kernel⟩
  | true => exact ⟨false, by decide +kernel⟩

end Httpe.Saga
