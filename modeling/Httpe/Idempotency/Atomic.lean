/-
Httpe.Idempotency.Atomic — `start_transaction` is linearizable.

`IdempTable` is what the manager keeps, in its own terms: each
idempotency key is free, locked for a request, or holds a response, and
nothing on it has expired. `atomicStart` is the whole of
`start_transaction` on it as one indivisible operation, and `atomicStep`
is the system in which every operation is.

The code's system is followed by that one (`atomic_simulation`). An
operation that writes takes effect at its only store access, and a call
of `start_transaction` at the access it returns from: the SETNX that got
the lock, or the GET that found something. The accesses before it show
nothing, although the key may change hands between any two of them.
-/
import Httpe.Idempotency.Expiry
import Httpe.Idempotency.History
import Httpe.Lib.Refinement

namespace Httpe.Idempotency

variable {ι R : Type*}

/-! ## The table -/

/-- What a key that is not free holds. -/
inductive Slot (R : Type*) where
  | locked (requestHash : String)
  | cached (response : R)
  deriving DecidableEq

/-- The payload the manager stores for it. -/
def Slot.payload : Slot R → CachedData R
  | locked requestHash => lockPayload requestHash
  | cached response => cachedPayload response

/-- The keys in use, each with its expiry; expired keys are free. -/
abbrev IdempTable (R : Type*) := EagerMap (Slot R)

/-- What `start_transaction` answers. -/
inductive StartAnswer (R : Type*) where
  | newRequestLocked
  | inFlight
  | completed (response : R)
  deriving DecidableEq

def StartAnswer.returned : StartAnswer R → StartPc R
  | newRequestLocked => .returned .newRequestLocked none
  | inFlight => .returned .inFlight none
  | completed response => .returned .completed (some response)

def Slot.startAnswer : Slot R → StartAnswer R
  | locked _ => .inFlight
  | cached response => .completed response

theorem Slot.answer_payload (slot : Slot R) :
    StartPc.answer slot.payload = slot.startAnswer.returned := by
  cases slot <;> rfl

/-- `start_transaction` at one moment. -/
def IdempotencyManager.atomicStart (m : IdempotencyManager) (call : StartCall) (t : ℚ)
    (table : IdempTable R) : StartAnswer R × IdempTable R :=
  let table := table.advance t
  match table.store call.idempotencyKey with
  | none =>
      (.newRequestLocked,
        table.write call.idempotencyKey ⟨.locked call.requestHash, t + m.lockTtl⟩)
  | some entry => (entry.value.startAnswer, table)

/-! ## The system of indivisible operations -/

structure AtomicSystem (ι R : Type*) where
  table : IdempTable R
  answer : ι → Option (StartAnswer R)

def AtomicSystem.start (t₀ : ℚ) : AtomicSystem ι R := ⟨EagerMap.empty t₀, fun _ => none⟩

variable [DecidableEq ι]

def atomicStep (m : IdempotencyManager) (calls : ι → StartCall) (a : AtomicSystem ι R)
    (e : IdempEvent ι R) : Option (AtomicSystem ι R) :=
  let key := (calls e.client).idempotencyKey
  if a.table.now ≤ e.time then
    match e.op with
    | .start =>
        match a.answer e.client with
        | none =>
            let (answer, table) := m.atomicStart (calls e.client) e.time a.table
            some ⟨table, Function.update a.answer e.client (some answer)⟩
        | some _ => none
    | .complete responsePayload =>
        let table := a.table.advance e.time
        some { a with table := table.write key ⟨.cached responsePayload, e.time + m.cacheTtl⟩ }
    | .release =>
        let table := a.table.advance e.time
        some { a with table := table.remove key }
  else none

/-- The event of a transition that takes effect: one that writes, or the
access from which `start_transaction` returns. -/
def effect (t : IdempTransition ι R) : Option (IdempEvent ι R) :=
  match t.event.op, t.post.pc t.event.client with
  | .start, .setnx | .start, .get => none
  | _, _ => some t.event

/-! ## The table later -/

/-- The store's entry for what the table holds. -/
def stored (entry : Entry (Slot R)) : Entry (CachedData R) := ⟨entry.value.payload, entry.expiry⟩

namespace EagerMap

variable {V : Type*} {map : EagerMap V} {key other : String} {entry : Entry V} {t t' : ℚ}

theorem advance_advance (h : t ≤ t') : (map.advance t).advance t' = map.advance t' := by
  have hstore : ((map.advance t).advance t').store = (map.advance t').store := by
    funext key
    simp only [advance]
    cases map.store key with
    | none => rfl
    | some entry =>
        by_cases hlive : t' < entry.expiry
        · simp [Option.filter, hlive, h.trans_lt hlive]
        · by_cases hnow : t < entry.expiry <;> simp [Option.filter, hlive, hnow]
  exact (EagerMap.mk.injEq ..).mpr ⟨rfl, hstore⟩

theorem advance_write (h : t ≤ t') (hnow : map.now = t) :
    ((map.write key entry).advance t').store key
      = (some entry).filter fun entry => t' < entry.expiry := by
  simp only [advance, write, Function.update_self, hnow]
  by_cases hlive : t' < entry.expiry
  · simp [Option.filter, hlive, h.trans_lt hlive]
  · by_cases hearly : t < entry.expiry <;> simp [Option.filter, hlive, hearly]

theorem advance_write_of_ne (hne : other ≠ key) :
    ((map.write key entry).advance t').store other = (map.advance t').store other := by
  simp [advance, write, Function.update_of_ne hne]

theorem advance_remove : ((map.remove key).advance t').store key = none := by
  simp [advance, remove]

theorem advance_remove_of_ne (hne : other ≠ key) :
    ((map.remove key).advance t').store other = (map.advance t').store other := by
  simp [advance, remove, Function.update_of_ne hne]

end EagerMap

/-! ## The simulation -/

/-- Where a call stands in the code and what it has been answered. -/
def Agrees (pc : StartPc R) : Option (StartAnswer R) → Prop
  | none => pc = .setnx ∨ pc = .get
  | some answer => pc = answer.returned

/-- The table holds what the store has live, now and at any later time
nothing happens. -/
structure Tracks (s : IdempSystem ι R) (a : AtomicSystem ι R) : Prop where
  time : a.table.now ≤ s.now
  holds : ∀ key t, s.now ≤ t → s.entryAt key t = ((a.table.advance t).store key).map stored
  answers : ∀ i, Agrees (s.pc i) (a.answer i)

section Holds

omit [DecidableEq ι]

variable {s : IdempSystem ι R} {a : AtomicSystem ι R} {t : ℚ}

/-- Both write the key. -/
theorem Tracks.holds_write (h : Tracks s a) (ht : s.now ≤ t) (key : String) (slot : Slot R)
    (expiry : ℚ) (other : String) (t' : ℚ) (ht' : t ≤ t') :
    (s.redis.put (redisKey key) ⟨slot.payload, expiry⟩).liveEntry (redisKey other) t'
      = ((((a.table.advance t).write key ⟨slot, expiry⟩).advance t').store other).map stored := by
  by_cases hother : other = key
  · subst hother
    rw [MockRedisCluster.liveEntry_put, EagerMap.advance_write ht' rfl]
    by_cases hlive : t' < expiry <;> simp [Option.filter, stored, hlive]
  · have hne : redisKey other ≠ redisKey key := fun heq => hother (redisKey_inj.mp heq)
    rw [MockRedisCluster.liveEntry_put_of_ne hne, EagerMap.advance_write_of_ne hother,
      EagerMap.advance_advance ht']
    exact h.holds other t' (ht.trans ht')

/-- Both clear the key. -/
theorem Tracks.holds_remove (h : Tracks s a) (ht : s.now ≤ t) (key other : String) (t' : ℚ)
    (ht' : t ≤ t') : (s.redis.erase (redisKey key)).liveEntry (redisKey other) t'
      = ((((a.table.advance t).remove key).advance t').store other).map stored := by
  by_cases hother : other = key
  · subst hother
    rw [MockRedisCluster.liveEntry_erase, EagerMap.advance_remove]
    rfl
  · have hne : redisKey other ≠ redisKey key := fun heq => hother (redisKey_inj.mp heq)
    rw [MockRedisCluster.liveEntry_erase_of_ne hne, EagerMap.advance_remove_of_ne hother,
      EagerMap.advance_advance ht']
    exact h.holds other t' (ht.trans ht')

/-- Only the store clears the key, when what it holds there has expired. -/
theorem Tracks.holds_erase (h : Tracks s a) (ht : s.now ≤ t) {key : String}
    (hfree : s.entryAt key t = none) (other : String) (t' : ℚ) (ht' : t ≤ t') :
    (s.redis.erase (redisKey key)).liveEntry (redisKey other) t'
      = ((a.table.advance t').store other).map stored := by
  by_cases hother : other = key
  · subst hother
    have hlater : s.entryAt other t' = none :=
      IdempSystem.entryAt_eq_none.mpr fun entry hentry =>
        (IdempSystem.entryAt_eq_none.mp hfree entry hentry).trans ht'
    rw [MockRedisCluster.liveEntry_erase, ← h.holds other t' (ht.trans ht'), hlater]
  · have hne : redisKey other ≠ redisKey key := fun heq => hother (redisKey_inj.mp heq)
    rw [MockRedisCluster.liveEntry_erase_of_ne hne]
    exact h.holds other t' (ht.trans ht')

/-- Nobody writes. -/
theorem Tracks.holds_later (h : Tracks s a) (ht : s.now ≤ t) (other : String) (t' : ℚ)
    (ht' : t ≤ t') : s.entryAt other t' = ((a.table.advance t').store other).map stored :=
  h.holds other t' (ht.trans ht')

end Holds

section Tracks

variable {m : IdempotencyManager} {calls : ι → StartCall} {s s' : IdempSystem ι R}
  {a : AtomicSystem ι R} {i : ι} {t : ℚ} {pc : StartPc R}

theorem Agrees.of_setnx {answer : Option (StartAnswer R)} (h : Agrees pc answer)
    (hpc : pc = .setnx ∨ pc = .get) : answer = none := by
  cases answer with
  | none => rfl
  | some answer => rcases hpc with rfl | rfl <;> cases answer <;> cases h

theorem Tracks.agrees_update (h : Tracks s a) {answer : Option (StartAnswer R)}
    (hi : Agrees pc answer) (j : ι) :
    Agrees (Function.update s.pc i pc j) (Function.update a.answer i answer j) := by
  by_cases hj : j = i
  · subst hj
    simpa using hi
  · simpa [Function.update_of_ne hj] using h.answers j

/-- A call that goes on without an answer. -/
theorem Tracks.agrees_pending (h : Tracks s a) (hi : a.answer i = none)
    (hpc : pc = .setnx ∨ pc = .get) (j : ι) :
    Agrees (Function.update s.pc i pc j) (a.answer j) := by
  have hagrees := h.agrees_update (i := i) (show Agrees pc none from hpc) j
  rwa [← hi, Function.update_eq_self] at hagrees

theorem atomicStep_start (htime : a.table.now ≤ t) (hpending : a.answer i = none) :
    atomicStep m calls a ⟨i, .start, t⟩ = some
      ⟨(m.atomicStart (calls i) t a.table).2,
        Function.update a.answer i (some (m.atomicStart (calls i) t a.table).1)⟩ := by
  simp [atomicStep, htime, hpending]

end Tracks

variable {m : IdempotencyManager} {calls : ι → StartCall} {s : IdempSystem ι R}
  {tr : List (IdempTransition ι R)} {t₀ : ℚ}

/-- Every step of the code's system is one indivisible operation, or
shows nothing. -/
theorem atomic_simulation :
    StutterSimulation (idempStep (R := R) m calls) (.start t₀) (atomicStep m calls) effect id
      Tracks := by
  intro tr s e s' a _ h hstep
  have hmove := idempMove_of_step hstep
  have htime : a.table.now ≤ e.time := h.time.trans hmove.time_le
  cases hmove with
  | @acquire i t hle hpc hfree =>
      have hpending := (h.answers i).of_setnx (.inl hpc)
      have hnone : (a.table.advance t).store (calls i).idempotencyKey = none := by
        have hholds := h.holds (calls i).idempotencyKey t hle
        rw [hfree] at hholds
        exact Option.map_eq_none_iff.mp hholds.symm
      simp only [effect, Function.update_self]
      refine ⟨_, _, rfl, atomicStep_start htime hpending, ?_⟩
      simp only [IdempotencyManager.atomicStart, hnone]
      constructor
      · exact le_rfl
      · exact h.holds_write hle _ (.locked (calls i).requestHash) _
      · exact h.agrees_update rfl
  | @taken i t entry hle hpc hlive =>
      simp only [effect, Function.update_self]
      constructor
      · exact htime
      · exact h.holds_later hle
      · exact h.agrees_pending ((h.answers i).of_setnx (.inl hpc)) (.inr rfl)
  | @vanished i t hle hpc hfree =>
      simp only [effect, Function.update_self]
      constructor
      · exact htime
      · exact h.holds_erase hle hfree
      · exact h.agrees_pending ((h.answers i).of_setnx (.inr hpc)) (.inl rfl)
  | @answer i t entry hle hpc hlive =>
      have hpending := (h.answers i).of_setnx (.inr hpc)
      have hholds := h.holds (calls i).idempotencyKey t hle
      rw [hlive] at hholds
      obtain ⟨held, hheld, rfl⟩ := Option.map_eq_some_iff.mp hholds.symm
      have hanswer : StartPc.answer (stored held).value = held.value.startAnswer.returned :=
        held.value.answer_payload
      have heffect : effect (⟨s, ⟨i, .start, t⟩, { s with
            now := t, pc := Function.update s.pc i (.answer (stored held).value) }⟩ :
          IdempTransition ι R) = some ⟨i, .start, t⟩ := by
        simp only [effect, Function.update_self, hanswer]
        cases held.value <;> rfl
      rw [heffect]
      refine ⟨_, _, rfl, atomicStep_start htime hpending, ?_⟩
      simp only [IdempotencyManager.atomicStart, hheld]
      constructor
      · exact le_rfl
      · intro other t' ht'
        rw [EagerMap.advance_advance ht']
        exact h.holds_later hle other t' ht'
      · exact h.agrees_update hanswer
  | @complete i r t hle =>
      simp only [effect]
      refine ⟨_, _, rfl, by simp only [atomicStep, if_pos htime]; rfl, ?_⟩
      constructor
      · exact le_rfl
      · exact h.holds_write hle _ (.cached r) _
      · exact h.answers
  | @release i t hle =>
      simp only [effect]
      refine ⟨_, _, rfl, by simp only [atomicStep, if_pos htime]; rfl, ?_⟩
      constructor
      · exact le_rfl
      · exact h.holds_remove hle _
      · exact h.answers

/-- **`start_transaction` is linearizable.** Whatever the interleaving of
its store accesses with those of other calls, with completions, releases
and expiries: the operations, each taken as indivisible at one of its own
accesses, make a run of the indivisible system in the order of those
accesses. Every call that has returned was answered so there, a
COMPLETED always with a response, and the store has live what the table
holds. -/
theorem startTransaction_linearizable (hrun : Run (idempStep m calls) (.start t₀) tr s) :
    ∃ tr' a, Run (atomicStep m calls) (.start t₀) tr' a ∧
      tr'.map Transition.event = tr.filterMap effect ∧
      (∀ i status response, s.pc i = .returned status response ↔
        ∃ answer, a.answer i = some answer ∧ answer.returned = .returned status response) ∧
      ∀ key t, s.now ≤ t → s.entryAt key t = ((a.table.advance t).store key).map stored := by
  have hstart : Tracks (.start t₀ : IdempSystem ι R) (.start t₀) := by
    constructor
    · exact le_rfl
    · exact fun _ _ _ => rfl
    · exact fun _ => .inl rfl
  obtain ⟨tr', a, hrun', htracks, hshown⟩ := atomic_simulation.follow hstart hrun
  refine ⟨tr', a, hrun', hshown, fun i status response => ?_, htracks.holds⟩
  have hagrees := htracks.answers i
  cases hanswer : a.answer i with
  | none =>
      rw [hanswer] at hagrees
      rcases hagrees with hpc | hpc <;> simp [hpc]
  | some answer =>
      rw [hanswer] at hagrees
      rw [show s.pc i = answer.returned from hagrees]
      simp

/-- The lock of submission 0 runs out under submission 1, which takes it
over and completes; the third one is answered from the cache. -/
theorem startTransaction_linearizable_takeover :
    ∃ tr' a, Run (atomicStep (R := ℕ) {} submitted) (.start 0) tr' a ∧
      tr'.map Transition.event
        = [⟨0, .start, 0⟩, ⟨1, .start, 120⟩, ⟨1, .complete 7, 125⟩, ⟨2, .start, 131⟩] ∧
      a.answer 1 = some .newRequestLocked ∧ a.answer 2 = some (.completed 7) := by
  obtain ⟨tr', a, hrun, hevents, hanswers, -⟩ := startTransaction_linearizable
    (run_exec (idempStep (R := ℕ) {} submitted) [⟨0, .start, 0⟩, ⟨1, .start, 119⟩,
      ⟨1, .start, 120⟩, ⟨1, .start, 120⟩, ⟨1, .complete 7, 125⟩, ⟨2, .start, 130⟩,
      ⟨2, .start, 131⟩] (.start 0))
  refine ⟨tr', a, hrun, hevents.trans (by decide +kernel), ?_, ?_⟩
  · obtain ⟨answer, hanswer, hreturned⟩ :=
      (hanswers 1 .newRequestLocked none).mp (by decide +kernel)
    cases answer <;> cases hreturned
    exact hanswer
  · obtain ⟨answer, hanswer, hreturned⟩ :=
      (hanswers 2 .completed (some 7)).mp (by decide +kernel)
    cases answer <;> cases hreturned
    exact hanswer

end Httpe.Idempotency
