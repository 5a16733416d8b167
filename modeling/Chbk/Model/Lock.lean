import Chbk.Model.Storage

/-!
# `gc/lock.rs`

The lock object that keeps two GC instances apart: taking it, keeping it fresh,
breaking a stale one, and giving it back. All of it is single requests to S3;
delays are left out, as time may pass between any two calls.
-/

namespace Chbk

open Lib

def LOCK_KEY : String := "gc/.lock"
def TTL_SECS : UInt64 := 60

/-- Wrap around into the range of an `i64`. -/
@[irreducible] def wrapI64 (n : Int) : Int := Int.bmod n (2 ^ 64)

theorem wrapI64_eq {n : Int} (hlo : -2 ^ 63 ≤ n) (hhi : n < 2 ^ 63) : wrapI64 n = n := by
  unfold wrapI64
  rw [Int.bmod_def]
  omega

theorem wrapI64_range (n : Int) : -2 ^ 63 ≤ wrapI64 n ∧ wrapI64 n < 2 ^ 63 := by
  unfold wrapI64
  rw [Int.bmod_def]
  omega

/-- Only the value modulo `2 ^ 64` counts. -/
theorem exists_wrapI64_eq (n : Int) : ∃ k, wrapI64 n = n + k * 2 ^ 64 := by
  unfold wrapI64
  rw [Int.bmod_def]
  split
  · exact ⟨-(n / 2 ^ 64), by omega⟩
  · exact ⟨-(n / 2 ^ 64) - 1, by omega⟩

/-- Seconds since the epoch; before it, zero. -/
def nowEpochSecs : P Int := do
  return max 0 (← askEnv .utcNow)

def LockInfo.new (instanceId : String) : P LockInfo := do
  let hostname ← askEnv .gethostname
  let acquiredAt ← nowEpochSecs
  return ⟨instanceId, hostname, acquiredAt, TTL_SECS⟩

/-- `is_expired`, at a given time. -/
def LockInfo.isExpired (info : LockInfo) (now : Int) : Bool :=
  now > wrapI64 (info.acquiredAt + wrapI64 info.ttlSecs.toNat)

/-- Create the lock object. `None` when there is one. -/
def tryPut (instanceId : String) : P (Option ETag) := do
  let info ← LockInfo.new instanceId
  let (etag, conflict) ← putObjectConditional LOCK_KEY (.lock info) none true
  return if conflict then none else some etag

/-- Delete the lock object, whatever it holds; a failing delete is dropped. -/
def dropLock : P Unit := do
  let _ ← Prog.attempt (deleteObject LOCK_KEY)
  return ()

def breakStale (instanceId : String) : P (Option ETag) := do
  dropLock
  tryPut instanceId

/-- `acquire`. `None` when another instance holds the lock. -/
def acquire (instanceId : String) : P (Option ETag) := do
  match ← tryPut instanceId with
  | some etag => return some etag
  | none =>
    match ← Prog.attempt (getObject LOCK_KEY) with
    | .error _ => tryPut instanceId
    | .ok (.lock existing) =>
      if existing.isExpired (← nowEpochSecs) then breakStale instanceId else return none
    | .ok _ => breakStale instanceId

/-- `acquire_with_retry`, with `left` attempts. -/
def acquireWithRetry (instanceId : String) : Nat → P (Option ETag)
  | 0 => return none
  | left + 1 => do
    match ← Prog.attempt (acquire instanceId) with
    | .ok (some etag) => return some etag
    | .ok none => if left = 0 then return none else acquireWithRetry instanceId left
    | .error e =>
      if left = 0 then throw (withContext "acquire GC lock" e)
      else acquireWithRetry instanceId left

/-- `release`: a lock that is seen to be another's stays. -/
def release (instanceId : String) : P Unit := do
  match ← Prog.attempt (getObject LOCK_KEY) with
  | .ok (.lock existing) => if existing.instanceId ≠ instanceId then return () else dropLock
  | _ => dropLock

/-- `refresh`: put the record again if the ETag still matches. -/
def refresh (instanceId : String) (expectedEtag : ETag) : P (Option ETag) := do
  let info ← LockInfo.new instanceId
  let (newEtag, conflict) ← putObjectConditional LOCK_KEY (.lock info) (some expectedEtag) false
  return if conflict then none else some newEtag

end Chbk
