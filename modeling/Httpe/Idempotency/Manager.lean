/-
Httpe.Idempotency.Manager — `IdempotencyManager` of
`pseudocode/idempotency-handler.py`, and the system in which the calls
of any number of clients interleave.

`start_transaction` makes two store accesses, SETNX and GET, and calls
itself when the GET finds nothing. `StartPc` is where a call stands
between accesses; the recursive call is the move back to the SETNX.
`complete_transaction` and `release_lock_on_failure` are single accesses.

The store holds the payload dictionaries themselves: the `json.dumps` of
every write and the `json.loads` of every read cancel, and a dumped
dictionary is never the empty string. `created_at` and
`completed_at` are written and never read; they are left out.

`lockedSince` is a history variable: when a call got
`NEW_REQUEST_LOCKED` and its client has neither completed nor released
since. No operation reads it.

`IdempMove` lists every step of the system, once; `idempMove_of_step` is
the only place that takes `idempStep` apart.
-/
import Httpe.Idempotency.Redis
import Httpe.Lib.Run

namespace Httpe.Idempotency

inductive IdempotencyStatus where
  | newRequestLocked
  | inFlight
  | completed
  | failed
  deriving DecidableEq, Repr

/-- A stored payload; absent keys of the dictionary are `none`. -/
structure CachedData (R : Type*) where
  status : IdempotencyStatus
  requestHash : Option String := none
  response : Option R := none
  deriving DecidableEq

variable {ι R : Type*}

def lockPayload (requestHash : String) : CachedData R :=
  { status := .inFlight, requestHash := some requestHash }

def cachedPayload (response : R) : CachedData R :=
  { status := .completed, response := some response }

@[simp] theorem lockPayload_status {requestHash : String} :
    (lockPayload requestHash : CachedData R).status = .inFlight := rfl
@[simp] theorem cachedPayload_status {response : R} :
    (cachedPayload response).status = .completed := rfl

structure IdempotencyManager where
  lockTtl : ℤ := 120
  cacheTtl : ℤ := 86400
  deriving DecidableEq, Repr

def redisKey (idempotencyKey : String) : String := "idemp:" ++ idempotencyKey

theorem redisKey_inj {key key' : String} : redisKey key = redisKey key' ↔ key = key' :=
  String.append_right_inj _

/-- The arguments of one `start_transaction` call. -/
structure StartCall where
  idempotencyKey : String
  requestHash : String
  deriving DecidableEq, Repr

inductive StartPc (R : Type*) where
  | setnx
  | get
  | returned (status : IdempotencyStatus) (cachedResponse : Option R)
  deriving DecidableEq

namespace IdempotencyManager

/-- One step of `start_transaction`: the next store access and the code
after it. A call that has returned has no step. -/
def startStep (m : IdempotencyManager) (call : StartCall) (currentTime : ℚ)
    (redis : MockRedisCluster (CachedData R)) :
    StartPc R → Option (StartPc R × MockRedisCluster (CachedData R))
  | .setnx =>
      match redis.setnxWithTtl (redisKey call.idempotencyKey) (lockPayload call.requestHash)
        m.lockTtl currentTime with
      | (true, redis) => some (.returned .newRequestLocked none, redis)
      | (false, redis) => some (.get, redis)
  | .get =>
      match redis.get (redisKey call.idempotencyKey) currentTime with
      | (none, redis) => some (.setnx, redis)
      | (some cachedData, redis) =>
          if cachedData.status = .inFlight then some (.returned .inFlight none, redis)
          else some (.returned .completed cachedData.response, redis)
  | .returned _ _ => none

def completeTransaction (m : IdempotencyManager) (idempotencyKey : String)
    (responsePayload : R) (currentTime : ℚ) (redis : MockRedisCluster (CachedData R)) :
    MockRedisCluster (CachedData R) :=
  redis.set (redisKey idempotencyKey) (cachedPayload responsePayload) m.cacheTtl currentTime

def releaseLockOnFailure (idempotencyKey : String) (redis : MockRedisCluster (CachedData R)) :
    MockRedisCluster (CachedData R) :=
  redis.delete (redisKey idempotencyKey)

end IdempotencyManager

/-! ## The system -/

/-- Each client `i` makes one `start_transaction` call; one that calls
again is another index. -/
structure IdempSystem (ι R : Type*) where
  redis : MockRedisCluster (CachedData R)
  now : ℚ
  pc : ι → StartPc R
  lockedSince : ι → Option ℚ

/-- An empty cluster at time `t₀`, and nobody has called anything. -/
def IdempSystem.start (t₀ : ℚ) : IdempSystem ι R :=
  ⟨{}, t₀, fun _ => .setnx, fun _ => none⟩

/-- What a client does next: a step of its `start_transaction`, or a call
of one of the other two on the same key. -/
inductive ClientOp (R : Type*) where
  | start
  | complete (responsePayload : R)
  | release
  deriving DecidableEq

structure IdempEvent (ι R : Type*) where
  client : ι
  op : ClientOp R
  time : ℚ
  deriving DecidableEq

variable [DecidableEq ι]

/-- One event; its clock reading is not before the last one. -/
def idempStep (m : IdempotencyManager) (calls : ι → StartCall) (s : IdempSystem ι R)
    (e : IdempEvent ι R) : Option (IdempSystem ι R) :=
  if s.now ≤ e.time then
    match e.op with
    | .start =>
        (m.startStep (calls e.client) e.time s.redis (s.pc e.client)).map fun (pc, redis) =>
          { redis := redis
            now := e.time
            pc := Function.update s.pc e.client pc
            lockedSince :=
              match pc with
              | .returned .newRequestLocked _ =>
                  Function.update s.lockedSince e.client (some e.time)
              | _ => s.lockedSince }
    | .complete responsePayload => some
        { s with
          redis := m.completeTransaction (calls e.client).idempotencyKey responsePayload e.time
            s.redis
          now := e.time
          lockedSince := Function.update s.lockedSince e.client none }
    | .release => some
        { s with
          redis := IdempotencyManager.releaseLockOnFailure (calls e.client).idempotencyKey s.redis
          now := e.time
          lockedSince := Function.update s.lockedSince e.client none }
  else none

abbrev IdempTransition (ι R : Type*) := Transition (IdempSystem ι R) (IdempEvent ι R)

/-- The entry a store access on the key would find at time `t`. -/
def IdempSystem.entryAt (s : IdempSystem ι R) (key : String) (t : ℚ) :
    Option (Entry (CachedData R)) :=
  s.redis.liveEntry (redisKey key) t

/-- What a GET that finds `cachedData` makes the call return. -/
def StartPc.answer (cachedData : CachedData R) : StartPc R :=
  if cachedData.status = .inFlight then .returned .inFlight none
  else .returned .completed cachedData.response

/-! ## Every step -/

inductive IdempMove (m : IdempotencyManager) (calls : ι → StartCall) (s : IdempSystem ι R) :
    IdempEvent ι R → IdempSystem ι R → Prop
  | acquire {i : ι} {t : ℚ} (htime : s.now ≤ t) (hpc : s.pc i = .setnx)
      (hfree : s.entryAt (calls i).idempotencyKey t = none) :
      IdempMove m calls s ⟨i, .start, t⟩
        { redis := s.redis.put (redisKey (calls i).idempotencyKey)
            ⟨lockPayload (calls i).requestHash, t + m.lockTtl⟩
          now := t
          pc := Function.update s.pc i (.returned .newRequestLocked none)
          lockedSince := Function.update s.lockedSince i (some t) }
  | taken {i : ι} {t : ℚ} {entry : Entry (CachedData R)} (htime : s.now ≤ t)
      (hpc : s.pc i = .setnx) (hlive : s.entryAt (calls i).idempotencyKey t = some entry) :
      IdempMove m calls s ⟨i, .start, t⟩
        { s with now := t, pc := Function.update s.pc i .get }
  | vanished {i : ι} {t : ℚ} (htime : s.now ≤ t) (hpc : s.pc i = .get)
      (hfree : s.entryAt (calls i).idempotencyKey t = none) :
      IdempMove m calls s ⟨i, .start, t⟩
        { s with
          redis := s.redis.erase (redisKey (calls i).idempotencyKey)
          now := t
          pc := Function.update s.pc i .setnx }
  | answer {i : ι} {t : ℚ} {entry : Entry (CachedData R)} (htime : s.now ≤ t)
      (hpc : s.pc i = .get) (hlive : s.entryAt (calls i).idempotencyKey t = some entry) :
      IdempMove m calls s ⟨i, .start, t⟩
        { s with now := t, pc := Function.update s.pc i (.answer entry.value) }
  | complete {i : ι} {r : R} {t : ℚ} (htime : s.now ≤ t) :
      IdempMove m calls s ⟨i, .complete r, t⟩
        { s with
          redis := s.redis.put (redisKey (calls i).idempotencyKey)
            ⟨cachedPayload r, t + m.cacheTtl⟩
          now := t
          lockedSince := Function.update s.lockedSince i none }
  | release {i : ι} {t : ℚ} (htime : s.now ≤ t) :
      IdempMove m calls s ⟨i, .release, t⟩
        { s with
          redis := s.redis.erase (redisKey (calls i).idempotencyKey)
          now := t
          lockedSince := Function.update s.lockedSince i none }

variable {m : IdempotencyManager} {calls : ι → StartCall} {s s' : IdempSystem ι R}
  {e : IdempEvent ι R}

theorem idempMove_of_step (h : idempStep m calls s e = some s') : IdempMove m calls s e s' := by
  obtain ⟨i, op, t⟩ := e
  simp only [idempStep] at h
  split_ifs at h with htime
  cases op with
  | start =>
      simp only [Option.map_eq_some_iff] at h
      obtain ⟨⟨pc', redis'⟩, hstart, rfl⟩ := h
      cases hpc : s.pc i with
      | setnx =>
          rw [hpc] at hstart
          simp only [IdempotencyManager.startStep] at hstart
          cases hlive : s.entryAt (calls i).idempotencyKey t with
          | none =>
              rw [MockRedisCluster.setnxWithTtl_of_not_live hlive] at hstart
              cases hstart
              exact .acquire htime hpc hlive
          | some entry =>
              rw [MockRedisCluster.setnxWithTtl_of_live hlive] at hstart
              cases hstart
              exact .taken htime hpc hlive
      | get =>
          rw [hpc] at hstart
          simp only [IdempotencyManager.startStep] at hstart
          cases hlive : s.entryAt (calls i).idempotencyKey t with
          | none =>
              rw [MockRedisCluster.get_of_not_live hlive] at hstart
              cases hstart
              exact .vanished htime hpc hlive
          | some entry =>
              have hanswer := IdempMove.answer (m := m) htime hpc hlive
              rw [MockRedisCluster.get_of_live hlive] at hstart
              simp only [StartPc.answer] at hanswer
              simp only at hstart
              split_ifs at hstart hanswer <;> cases hstart <;> exact hanswer
      | returned status response =>
          rw [hpc] at hstart
          cases hstart
  | complete r => cases h; exact .complete htime
  | release =>
      cases h
      rw [IdempotencyManager.releaseLockOnFailure, MockRedisCluster.delete_eq_erase]
      exact .release htime

/-- A `start_transaction` that has not returned can always move on. -/
theorem idempStep_start_isSome {j : ι} {t : ℚ} (htime : s.now ≤ t)
    (hpc : ∀ status response, s.pc j ≠ .returned status response) :
    (idempStep m calls s ⟨j, .start, t⟩).isSome := by
  simp only [idempStep, if_pos htime, Option.isSome_map]
  cases hj : s.pc j with
  | setnx => simp only [IdempotencyManager.startStep]; split <;> rfl
  | get => simp only [IdempotencyManager.startStep]; split <;> [rfl; (split <;> rfl)]
  | returned status response => exact absurd hj (hpc status response)

theorem IdempMove.time_le (h : IdempMove m calls s e s') : s.now ≤ e.time := by
  cases h <;> assumption

theorem IdempMove.now_eq (h : IdempMove m calls s e s') : s'.now = e.time := by
  cases h <;> rfl

/-- Three submissions of the self-test's request. -/
def submitted : Fin 3 → StartCall := fun _ => ⟨"idemp-unique-req-8899", "hash-abc-123"⟩

/-! ## What `start_transaction` answers -/

section Answers

variable {j : ι} {t : ℚ} {response : Option R}

theorem returned_newRequestLocked_iff (h : IdempMove m calls s ⟨j, .start, t⟩ s') :
    s'.pc j = .returned .newRequestLocked response ↔
      s.pc j = .setnx ∧ s.entryAt (calls j).idempotencyKey t = none ∧ response = none := by
  cases h with
  | acquire _ hpc hfree => simp [hpc, hfree, eq_comm]
  | taken _ hpc hlive => simp [hlive]
  | vanished _ hpc _ => simp [hpc]
  | @answer _ _ entry _ hpc _ =>
      by_cases hstatus : entry.value.status = .inFlight <;> simp [hpc, StartPc.answer, hstatus]

theorem returned_inFlight_iff (h : IdempMove m calls s ⟨j, .start, t⟩ s') :
    s'.pc j = .returned .inFlight response ↔
      s.pc j = .get ∧ response = none ∧ ∃ entry,
        s.entryAt (calls j).idempotencyKey t = some entry ∧ entry.value.status = .inFlight := by
  cases h with
  | acquire _ hpc _ => simp [hpc]
  | taken _ hpc _ => simp [hpc]
  | vanished _ hpc hfree => simp [hfree]
  | @answer _ _ entry _ hpc hlive =>
      by_cases hstatus : entry.value.status = .inFlight
      · simp [hpc, hlive, StartPc.answer, hstatus, eq_comm]
      · simp [hpc, hlive, StartPc.answer, hstatus]

end Answers

end Httpe.Idempotency
