/-
Httpe.Idempotency.Redis — `MockRedisCluster` of
`pseudocode/idempotency-handler.py`.

Every operation that reads the clock takes the reading as its argument.
Times are exact rationals and time-to-lives integers. The store is
generic in its values; the manager's are the dictionaries it passes
through `json.dumps` and `json.loads`.

An entry stays in the store past its expiry until an operation comes
across it. `liveEntry` is what an operation at time `t` can see of a
key, and each operation is described by it: nobody can tell an expired
entry from a missing one.
-/
import Mathlib.Algebra.Order.Ring.Rat
import Mathlib.Logic.Function.Basic

namespace Httpe.Idempotency

structure Entry (V : Type*) where
  value : V
  expiry : ℚ
  deriving DecidableEq

structure MockRedisCluster (V : Type*) where
  store : String → Option (Entry V) := fun _ => none

namespace MockRedisCluster

variable {V : Type*}

def put (redis : MockRedisCluster V) (key : String) (entry : Entry V) : MockRedisCluster V :=
  ⟨Function.update redis.store key (some entry)⟩

def erase (redis : MockRedisCluster V) (key : String) : MockRedisCluster V :=
  ⟨Function.update redis.store key none⟩

def setnxWithTtl (redis : MockRedisCluster V) (key : String) (value : V) (ttlSeconds : ℤ)
    (currentTime : ℚ) : Bool × MockRedisCluster V :=
  match redis.store key with
  | some entry =>
      if currentTime < entry.expiry then (false, redis)
      else (true, redis.put key ⟨value, currentTime + ttlSeconds⟩)
  | none => (true, redis.put key ⟨value, currentTime + ttlSeconds⟩)

def get (redis : MockRedisCluster V) (key : String) (currentTime : ℚ) :
    Option V × MockRedisCluster V :=
  match redis.store key with
  | none => (none, redis)
  | some entry =>
      if entry.expiry ≤ currentTime then (none, redis.erase key)
      else (some entry.value, redis)

def set (redis : MockRedisCluster V) (key : String) (value : V) (ttlSeconds : ℤ)
    (currentTime : ℚ) : MockRedisCluster V :=
  redis.put key ⟨value, currentTime + ttlSeconds⟩

def delete (redis : MockRedisCluster V) (key : String) : MockRedisCluster V :=
  match redis.store key with
  | some _ => redis.erase key
  | none => redis

/-! ## The store after an update -/

variable {redis : MockRedisCluster V} {key other : String} {entry : Entry V} {value : V}
  {ttlSeconds : ℤ} {t t' : ℚ}

@[simp] theorem put_store : (redis.put key entry).store key = some entry :=
  Function.update_self ..

@[simp] theorem put_store_of_ne (h : other ≠ key) :
    (redis.put key entry).store other = redis.store other :=
  Function.update_of_ne h ..

@[simp] theorem erase_store : (redis.erase key).store key = none :=
  Function.update_self ..

@[simp] theorem erase_store_of_ne (h : other ≠ key) :
    (redis.erase key).store other = redis.store other :=
  Function.update_of_ne h ..

theorem erase_of_store_eq_none (h : redis.store key = none) : redis.erase key = redis := by
  rw [erase, ← h, Function.update_eq_self]

theorem delete_eq_erase : redis.delete key = redis.erase key := by
  unfold delete
  cases h : redis.store key with
  | some entry => rfl
  | none => exact (erase_of_store_eq_none h).symm

/-! ## What is live -/

/-- The entry of `key` that has not expired at time `t`. -/
def liveEntry (redis : MockRedisCluster V) (key : String) (t : ℚ) : Option (Entry V) :=
  (redis.store key).filter fun entry => t < entry.expiry

theorem liveEntry_eq_some : redis.liveEntry key t = some entry ↔
    redis.store key = some entry ∧ t < entry.expiry := by
  simp [liveEntry, Option.filter_eq_some_iff]

theorem liveEntry_eq_none : redis.liveEntry key t = none ↔
    ∀ entry, redis.store key = some entry → entry.expiry ≤ t := by
  simp [liveEntry, Option.filter_eq_none_iff]

theorem setnxWithTtl_of_live (h : redis.liveEntry key t = some entry) :
    redis.setnxWithTtl key value ttlSeconds t = (false, redis) := by
  obtain ⟨hstore, hlt⟩ := liveEntry_eq_some.mp h
  unfold setnxWithTtl
  rw [hstore]
  exact if_pos hlt

theorem setnxWithTtl_of_not_live (h : redis.liveEntry key t = none) :
    redis.setnxWithTtl key value ttlSeconds t
      = (true, redis.put key ⟨value, t + ttlSeconds⟩) := by
  unfold setnxWithTtl
  cases hstore : redis.store key with
  | none => rfl
  | some entry => exact if_neg (not_lt.mpr (liveEntry_eq_none.mp h entry hstore))

theorem get_of_live (h : redis.liveEntry key t = some entry) :
    redis.get key t = (some entry.value, redis) := by
  obtain ⟨hstore, hlt⟩ := liveEntry_eq_some.mp h
  unfold get
  rw [hstore]
  exact if_neg (not_le.mpr hlt)

/-- A `get` that finds nothing live leaves nothing behind. -/
theorem get_of_not_live (h : redis.liveEntry key t = none) :
    redis.get key t = (none, redis.erase key) := by
  unfold get
  cases hstore : redis.store key with
  | none => rw [erase_of_store_eq_none hstore]
  | some entry => exact if_pos (liveEntry_eq_none.mp h entry hstore)

end MockRedisCluster

end Httpe.Idempotency
