import Chbk.Model.Storage

/-!
# `util.rs`, `blob_hash.rs` and `manifest.rs`

Keys of blobs and of manifests, and the reading and writing of manifests.

* `blobShard` — the shard of a hash; for some texts that are no hashes the slice panics.
* `blobRemoteKey`, `manifestKey` — where things are in the bucket.
* `fromHex` — a hash as sixteen bytes, for comparison.
* `readAllManifests` — all or nothing: one manifest that cannot be read fails
  the whole.
-/

namespace Chbk

open Lib

/-! ## Blob keys -/

/-- The shard of a hash: its first two bytes. There is none where they do not end between
two characters; the slice panics. -/
def blobShard (hash : String) : Option String :=
  if 2 ≤ (utf8 hash).length then firstTwoBytes hash else some "__"

/-- The key of a blob. For a hash without a shard it is some text that no other hash has. -/
@[irreducible] def blobRemoteKey (hash : String) : String :=
  "base/data/blobs/" ++ (blobShard hash).getD "__" ++ "/" ++ hash

/-- `blob_remote_key` of a hash from a manifest, which may be any text. -/
def keyOrPanic (hash : String) : P String := do
  if (blobShard hash).isNone then
    return (← askEnv (.panic "end byte index 2 is not a char boundary")).elim
  return blobRemoteKey hash

theorem keyOrPanic_some {hash : String} (h : (blobShard hash).isSome = true) :
    keyOrPanic hash = .done (blobRemoteKey hash) := by
  unfold keyOrPanic
  rw [Option.isNone_eq_false_iff.mpr h]
  rfl

theorem keyOrPanic_none {hash : String} (h : blobShard hash = none) : ∃ msg k,
    keyOrPanic hash = .call (.env (.panic msg)) k := by
  unfold keyOrPanic
  rw [h]
  exact ⟨_, _, rfl⟩

/-- All keys, or a panic and nothing else. -/
theorem collect_keyOrPanic (hashes : List String) :
    ((∀ hash ∈ hashes, (blobShard hash).isSome = true) ∧
      Prog.collect keyOrPanic hashes = .done (hashes.map blobRemoteKey)) ∨
    ((∃ hash ∈ hashes, blobShard hash = none) ∧ ∃ msg k,
      Prog.collect keyOrPanic hashes = .call (.env (.panic msg)) k) := by
  induction hashes with
  | nil => exact .inl ⟨by simp, rfl⟩
  | cons hash hashes ih =>
    cases hshard : blobShard hash with
    | none =>
      obtain ⟨msg, k, heq⟩ := keyOrPanic_none hshard
      refine .inr ⟨⟨hash, List.mem_cons_self .., hshard⟩, msg, ?_⟩
      unfold Prog.collect
      rw [heq]
      exact ⟨_, rfl⟩
    | some shard =>
      have hkey : keyOrPanic hash = .done (blobRemoteKey hash) :=
        keyOrPanic_some (by rw [hshard]; rfl)
      unfold Prog.collect
      rw [hkey]
      rcases ih with ⟨hall, heq⟩ | ⟨⟨hash', hmem, hnone⟩, msg, k, heq⟩
      · refine .inl ⟨List.forall_mem_cons.mpr ⟨by rw [hshard]; rfl, hall⟩, ?_⟩
        rw [heq]
        rfl
      · refine .inr ⟨⟨hash', List.mem_cons_of_mem _ hmem, hnone⟩, msg, ?_⟩
        rw [heq]
        exact ⟨_, rfl⟩

example : ["ab01", "a", "é", "aé"].map blobShard = [some "ab", some "__", some "é", none] := by
  decide +kernel

/-- 128 bits as sixteen bytes. -/
abbrev BlobHash := List UInt8

def hexDigit (c : Char) : Option UInt8 :=
  if '0' ≤ c ∧ c ≤ '9' then some (UInt8.ofNat (c.toNat - '0'.toNat))
  else if 'a' ≤ c ∧ c ≤ 'f' then some (UInt8.ofNat (c.toNat - 'a'.toNat + 10))
  else if 'A' ≤ c ∧ c ≤ 'F' then some (UInt8.ofNat (c.toNat - 'A'.toNat + 10))
  else none

/-- The loop of `from_hex` over pairs of digits. -/
def fromHexPairs : List Char → Option BlobHash
  | hi :: lo :: cs => do
    let high ← hexDigit hi
    let low ← hexDigit lo
    let rest ← fromHexPairs cs
    return ((high <<< 4) ||| low) :: rest
  | [] => some []
  | [_] => none

def fromHex (s : String) : Option BlobHash :=
  if (utf8 s).length ≠ 32 then none else fromHexPairs s.toList

/-! ## Manifest names -/

def MANIFEST_PREFIX : String := "snapshots/"
def MANIFEST_SUFFIX : String := ".json.zst"

@[irreducible] def manifestKey (name : String) : String := MANIFEST_PREFIX ++ name ++ MANIFEST_SUFFIX

def manifestNameFromKey (key : String) : Option String :=
  (stripPrefix? key MANIFEST_PREFIX).bind fun s => stripSuffix? s MANIFEST_SUFFIX

/-! ### Dates -/

/-- A date of the Gregorian calendar. -/
structure CivilDate where
  year : Int
  month : Nat
  day : Nat
  deriving DecidableEq, Repr

/-- The date of a day counted from 1970-01-01. Years run from March in here, in
eras of 400 years. -/
def civilFromDays (days : Int) : CivilDate :=
  let z := days + 719468
  let era := z / 146097
  let doe := z % 146097
  let yoe := (doe - doe / 1460 + doe / 36524 - doe / 146096) / 365
  let doy := doe - (365 * yoe + yoe / 4 - yoe / 100)
  let mp := (5 * doy + 2) / 153
  let day := doy - (153 * mp + 2) / 5 + 1
  let month := if mp < 10 then mp + 3 else mp - 9
  ⟨yoe + era * 400 + (if month ≤ 2 then 1 else 0), month.toNat, day.toNat⟩

/-- `{:0wd}` of a number. -/
def padZeros (w n : Nat) : String :=
  let s := toString n
  String.ofList (List.replicate (w - s.toList.length) '0') ++ s

/-- `%Y`: four digits at least, with a sign outside of 0 to 9999. -/
def formatYear (y : Int) : String :=
  if 0 ≤ y ∧ y ≤ 9999 then padZeros 4 y.toNat
  else if y < 0 then "-" ++ padZeros 4 y.natAbs
  else "+" ++ padZeros 4 y.toNat

/-- `AUTO_TIMESTAMP_FMT`, of a time in seconds. -/
def formatAutoTimestamp (ts : Int) : String :=
  let date := civilFromDays (ts / 86400)
  let secs := (ts % 86400).toNat
  "y" ++ formatYear date.year ++ "m" ++ padZeros 2 date.month ++ "d" ++ padZeros 2 date.day
    ++ "_h" ++ padZeros 2 (secs / 3600) ++ "m" ++ padZeros 2 (secs / 60 % 60)
    ++ "s" ++ padZeros 2 (secs % 60)

def AUTO_UUID_LEN : Nat := 8

def buildAutoName (shard replica : String) (ts : Int) (uuid : String) : String :=
  let shortUuid := String.ofList ((uuid.toList.filter isAsciiHexdigit).take AUTO_UUID_LEN)
  "live_" ++ shard ++ "_" ++ replica ++ "_" ++ formatAutoTimestamp ts ++ "_" ++ shortUuid

example : buildAutoName "01" "r1" 1776688245 "abcdef12-3456-7890-abcd-ef1234567890" =
    "live_01_r1_y2026m04d20_h12m30s45_abcdef12" := by decide +kernel

/-! ## Reading and writing -/

/-- `decode`: an object that holds no manifest does not decode. -/
def decodeManifest : Body → Except AnyError Manifest
  | .manifest m => .ok m
  | _ => .error ["decompress manifest", "unknown frame descriptor"]

theorem decodeManifest_ok {body : Body} {m : Manifest} (h : decodeManifest body = .ok m) :
    body = .manifest m := by
  cases body with
  | manifest m' => exact congrArg Body.manifest (Except.ok.inj h)
  | lock info => cases h
  | data bs => cases h

def writeManifest (m : Manifest) : P Unit := do
  let (_etag, conflict) ← Prog.mapFail (withContext ("write manifest " ++ m.name))
    (putObjectConditional (manifestKey m.name) (.manifest m) none true)
  if conflict then throw ["manifest already exists: " ++ m.name]

/-- The key is authoritative for the name. -/
def readManifest (name : String) : P Manifest := do
  let body ← Prog.mapFail (withContext ("read manifest " ++ name)) (getObject (manifestKey name))
  let m ← liftP (decodeManifest body)
  return { m with name }

def listManifestNames : P (List String) := do
  let entries ← listObjects MANIFEST_PREFIX
  return entries.filterMap fun e => manifestNameFromKey e.key

/-- `try_collect`: the first failure ends it. The manifests come in the order
in which they were read. -/
def readAllManifests : P (List Manifest) := do
  let names ← listManifestNames
  let order ← askEnv .order
  Prog.collect readManifest (reorder order names)

/-- The blob hashes of a manifest, each once. -/
def blobHashSet (m : Manifest) : List String := (m.parts.map ManifestPart.blobHash).dedup

def deleteManifest (name : String) : P Unit :=
  Prog.mapFail (withContext ("delete manifest " ++ name)) (deleteObject (manifestKey name))

end Chbk
