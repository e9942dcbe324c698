/-
Httpe.Idempotency.Expiry — lazy expiry cannot be observed.

`MockRedisCluster` keeps an entry past its expiry until an operation on
its key comes across it. `EagerMap` is what it stands for: a map that
holds live entries only, because everything that expires is removed at
that instant. The two answer every sequence of calls alike
(`redis_refines_eagerMap`).

The simulation relation is that the map holds exactly what the cluster
has live (`Shows`); what is dead in the cluster does not enter it.
Waiting shows in the map alone, as `advance`.
-/
import Httpe.Idempotency.Redis
import Httpe.Lib.Simulation

namespace Httpe.Idempotency

variable {V : Type*}

/-- One call of the cluster. -/
inductive RedisOp (V : Type*) where
  | setnxWithTtl (key : String) (value : V) (ttlSeconds : ℤ)
  | get (key : String)
  | set (key : String) (value : V) (ttlSeconds : ℤ)
  | delete (key : String)
  deriving DecidableEq

/-- A call and the clock's reading when it is made. -/
structure RedisCall (V : Type*) where
  op : RedisOp V
  time : ℚ
  deriving DecidableEq

/-- What a call returns; `set` and `delete` return nothing. -/
inductive RedisReply (V : Type*) where
  | acquired (b : Bool)
  | value (v : Option V)
  | none
  deriving DecidableEq

def MockRedisCluster.call (redis : MockRedisCluster V) (c : RedisCall V) :
    RedisReply V × MockRedisCluster V :=
  match c.op with
  | .setnxWithTtl key value ttlSeconds =>
      let (acquired, redis) := redis.setnxWithTtl key value ttlSeconds c.time
      (.acquired acquired, redis)
  | .get key =>
      let (value, redis) := redis.get key c.time
      (.value value, redis)
  | .set key value ttlSeconds => (.none, redis.set key value ttlSeconds c.time)
  | .delete key => (.none, redis.delete key)

/-! ## The reference map -/

/-- A map at time `now` in which nothing has expired. -/
structure EagerMap (V : Type*) where
  now : ℚ
  store : String → Option (Entry V)
  live : ∀ key entry, store key = some entry → now < entry.expiry

namespace EagerMap

/-- Time passes, and what has expired by `t` is removed. -/
def advance (m : EagerMap V) (t : ℚ) : EagerMap V where
  now := t
  store := fun key => (m.store key).filter fun entry => t < entry.expiry
  live := fun key entry h => by simpa using (Option.filter_eq_some_iff.mp h).2

/-- The entry is stored, unless it expires at once. -/
def write (m : EagerMap V) (key : String) (entry : Entry V) : EagerMap V where
  now := m.now
  store := Function.update m.store key
    ((some entry).filter fun entry => m.now < entry.expiry)
  live := by
    intro other e h
    by_cases hother : other = key
    · subst hother
      rw [Function.update_self] at h
      simpa using (Option.filter_eq_some_iff.mp h).2
    · rw [Function.update_of_ne hother] at h
      exact m.live other e h

def remove (m : EagerMap V) (key : String) : EagerMap V where
  now := m.now
  store := Function.update m.store key none
  live := by
    intro other e h
    by_cases hother : other = key
    · subst hother
      rw [Function.update_self] at h
      cases h
    · rw [Function.update_of_ne hother] at h
      exact m.live other e h

def empty (t₀ : ℚ) : EagerMap V := ⟨t₀, fun _ => none, by simp⟩

/-- The call on the map as it is at the call's time. -/
def call (m : EagerMap V) (c : RedisCall V) : RedisReply V × EagerMap V :=
  let m := m.advance c.time
  match c.op with
  | .setnxWithTtl key value ttlSeconds =>
      match m.store key with
      | some _ => (.acquired false, m)
      | none => (.acquired true, m.write key ⟨value, c.time + ttlSeconds⟩)
  | .get key => (.value ((m.store key).map Entry.value), m)
  | .set key value ttlSeconds => (.none, m.write key ⟨value, c.time + ttlSeconds⟩)
  | .delete key => (.none, m.remove key)

end EagerMap

/-! ## What is live after an update -/

namespace MockRedisCluster

variable {redis : MockRedisCluster V} {key other : String} {entry : Entry V} {t t' : ℚ}

/-- What is live later is what is live now and has not expired by then. -/
theorem liveEntry_later (h : t ≤ t') : redis.liveEntry key t'
    = (redis.liveEntry key t).filter fun entry => t' < entry.expiry := by
  unfold liveEntry
  cases redis.store key with
  | none => rfl
  | some entry =>
      by_cases hlive : t' < entry.expiry
      · simp [Option.filter, hlive, h.trans_lt hlive]
      · by_cases hnow : t < entry.expiry <;> simp [Option.filter, hlive, hnow]

theorem liveEntry_put : (redis.put key entry).liveEntry key t
    = (some entry).filter fun entry => t < entry.expiry := by
  rw [liveEntry, put_store]

theorem liveEntry_put_of_ne (h : other ≠ key) :
    (redis.put key entry).liveEntry other t = redis.liveEntry other t := by
  rw [liveEntry, put_store_of_ne h, liveEntry]

theorem liveEntry_erase : (redis.erase key).liveEntry key t = none := by
  rw [liveEntry, erase_store, Option.filter_none]

theorem liveEntry_erase_of_ne (h : other ≠ key) :
    (redis.erase key).liveEntry other t = redis.liveEntry other t := by
  rw [liveEntry, erase_store_of_ne h, liveEntry]

end MockRedisCluster

/-! ## The simulation -/

/-- The map holds what the cluster has live at time `t`. -/
def Shows (t : ℚ) (redis : MockRedisCluster V) (m : EagerMap V) : Prop :=
  ∀ key, m.store key = redis.liveEntry key t

section Shows

variable {redis : MockRedisCluster V} {m : EagerMap V} {key : String} {entry : Entry V} {t t' : ℚ}

theorem Shows.advance (h : Shows t redis m) (hle : t ≤ t') : Shows t' redis (m.advance t') := by
  intro key
  rw [MockRedisCluster.liveEntry_later hle, ← h key]
  rfl

theorem Shows.write (h : Shows t redis m) (hnow : m.now = t) :
    Shows t (redis.put key entry) (m.write key entry) := by
  intro other
  by_cases hother : other = key
  · subst hother
    rw [MockRedisCluster.liveEntry_put, ← hnow]
    exact Function.update_self ..
  · rw [MockRedisCluster.liveEntry_put_of_ne hother, ← h other]
    exact Function.update_of_ne hother ..

theorem Shows.remove (h : Shows t redis m) : Shows t (redis.erase key) (m.remove key) := by
  intro other
  by_cases hother : other = key
  · subst hother
    rw [MockRedisCluster.liveEntry_erase]
    exact Function.update_self ..
  · rw [MockRedisCluster.liveEntry_erase_of_ne hother, ← h other]
    exact Function.update_of_ne hother ..

/-- An entry that is not live may as well not be there. -/
theorem Shows.erase (h : Shows t redis m) (hdead : redis.liveEntry key t = none) :
    Shows t (redis.erase key) m := by
  intro other
  by_cases hother : other = key
  · subst hother
    rw [MockRedisCluster.liveEntry_erase, h other, hdead]
  · rw [MockRedisCluster.liveEntry_erase_of_ne hother, h other]

end Shows

/-- One call, at a time not before the last one's. -/
theorem redis_simulation :
    TimedSimulation RedisCall.time (MockRedisCluster.call (V := V)) EagerMap.call Shows := by
  rintro n redis m ⟨op, t⟩ hshows hle
  have hnow : Shows t redis (m.advance t) := hshows.advance hle
  cases op with
  | setnxWithTtl key value ttlSeconds =>
      have hkey := hnow key
      cases hlive : redis.liveEntry key t with
      | some entry =>
          rw [hlive] at hkey
          simp only [MockRedisCluster.call, EagerMap.call, hkey,
            MockRedisCluster.setnxWithTtl_of_live hlive]
          exact ⟨trivial, hnow⟩
      | none =>
          rw [hlive] at hkey
          simp only [MockRedisCluster.call, EagerMap.call, hkey,
            MockRedisCluster.setnxWithTtl_of_not_live hlive]
          exact ⟨trivial, hnow.write rfl⟩
  | get key =>
      have hkey := hnow key
      cases hlive : redis.liveEntry key t with
      | some entry =>
          rw [hlive] at hkey
          simp only [MockRedisCluster.call, EagerMap.call, hkey,
            MockRedisCluster.get_of_live hlive]
          exact ⟨rfl, hnow⟩
      | none =>
          rw [hlive] at hkey
          simp only [MockRedisCluster.call, EagerMap.call, hkey,
            MockRedisCluster.get_of_not_live hlive]
          exact ⟨rfl, hnow.erase hlive⟩
  | set key value ttlSeconds => exact ⟨rfl, hnow.write rfl⟩
  | delete key =>
      refine ⟨rfl, ?_⟩
      show Shows t (redis.delete key) ((m.advance t).remove key)
      rw [MockRedisCluster.delete_eq_erase]
      exact hnow.remove

/-- SETNX refuses exactly when GET finds something. -/
theorem setnxWithTtl_false_iff (redis : MockRedisCluster V) (key : String) (value : V)
    (ttlSeconds : ℤ) (t : ℚ) :
    (redis.setnxWithTtl key value ttlSeconds t).1 = false ↔ (redis.get key t).1.isSome := by
  cases hlive : redis.liveEntry key t with
  | some entry =>
      rw [MockRedisCluster.setnxWithTtl_of_live hlive, MockRedisCluster.get_of_live hlive]
      simp
  | none =>
      rw [MockRedisCluster.setnxWithTtl_of_not_live hlive, MockRedisCluster.get_of_not_live hlive]
      simp

/-- **Lazy expiry is unobservable.** A new cluster and the empty map give
the same answers to every sequence of calls under a nondecreasing clock.
SETNX and GET agree on what is live, at any time and whatever the cluster
still holds. -/
theorem redis_refines_eagerMap (t₀ : ℚ) (calls : List (RedisCall V))
    (hclock : List.IsChain (· ≤ ·) (calls.map RedisCall.time)) :
    outputs MockRedisCluster.call {} calls = outputs EagerMap.call (EagerMap.empty t₀) calls ∧
    ∀ (redis : MockRedisCluster V) key value ttlSeconds t,
      (redis.setnxWithTtl key value ttlSeconds t).1 = false ↔ (redis.get key t).1.isSome := by
  refine ⟨redis_simulation.outputs_eq_of_forall (fun _ key => rfl) hclock, ?_⟩
  exact setnxWithTtl_false_iff

/-- A lock of 120 seconds is still there just before its expiry, gone at
it, and an entry without time to live is gone at once. -/
def boundaryCalls : List (RedisCall String) :=
  [⟨.setnxWithTtl "idemp:k" "lock" 120, 0⟩, ⟨.get "idemp:k", 119⟩,
   ⟨.setnxWithTtl "idemp:k" "late" 120, 120⟩, ⟨.set "idemp:k" "dead" 0, 130⟩,
   ⟨.get "idemp:k", 130⟩, ⟨.delete "idemp:k", 131⟩]

theorem redis_refines_eagerMap_boundary :
    outputs EagerMap.call (EagerMap.empty 0) boundaryCalls
      = [.acquired true, .value (some "lock"), .acquired true, .none, .value none, .none] := by
  rw [← (redis_refines_eagerMap 0 boundaryCalls (by decide +kernel)).1]
  decide +kernel

end Httpe.Idempotency
