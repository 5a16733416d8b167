import Chbk.Model.Duration
import Chbk.Model.Gc
import Chbk.Model.Restore

/-!
# The commands of `main.rs`

The dispatch behind the command line: what each command checks before it starts, and
what `list-snapshots` prints.

* `restoreCommand` — the guards of `restore`.
* `listSnapshots` — the lines of `list-snapshots`.
* `asyncMain` — every command.

What is at the destination of a restore is a parameter: whether something lies in it,
or why it cannot be read. `generate-env` prints a fixed text and is left out, and so are
the lines in which a restore tells what it has found and done.
-/

namespace Chbk

open Lib

-- ---------------------------------------------------------------------------
-- `restore`
-- ---------------------------------------------------------------------------

structure RestoreArgs where
  name : String
  toDir : String
  table : Option String
  force : Bool
  shard : Option String
  replica : Option String
  skipExisting : Bool
  attach : Bool
  deriving DecidableEq, Repr

/-- `--table`: the database is what stands before the first dot. -/
def parseTableArg (t : String) : Except AnyError (String × String) :=
  match (splitOnce '.' t).filter fun x => x.1 ≠ "" ∧ x.2 ≠ "" with
  | some x => .ok x
  | none => .error ["--table must be in format db.table, got: " ++ t]

def tableFilterOf : Option String → Except AnyError (Option (String × String))
  | none => .ok none
  | some t => (parseTableArg t).map some

/-- `--skip-existing`: the tables of the server. -/
def excludedTables (json : Json) (skipExisting : Bool) : P (Option (List (String × String))) := do
  if skipExisting then
    let existing ← liftP (queryExistingTables json (← askEnv (.runQuery existingTablesQuery)))
    return some existing
  else return none

/-- `occupied` says whether something lies in the destination. -/
def restoreCommand (json : Json) (decodeContent : ManifestFile → Except AnyError Bytes)
    (cfg : Config) (occupied : Except AnyError Bool) (args : RestoreArgs) : P Unit := do
  let tableFilter ← liftP (tableFilterOf args.table)
  if (← liftP occupied) && !args.force then
    throw ["'" ++ args.toDir ++ "' is not empty. Use --force to overwrite."]
  let excludeTables ← excludedTables json args.skipExisting
  let _ ← liftP (initStorage cfg)
  restoreSnapshot decodeContent args.name args.toDir
    ⟨tableFilter, args.shard, args.replica, excludeTables, args.attach⟩

-- ---------------------------------------------------------------------------
-- `list-snapshots`
-- ---------------------------------------------------------------------------

/-- `%Y-%m-%d %H:%M:%S UTC`, or the number where `chrono` has no date for it. -/
def formatListTime (ts : Int) : String :=
  if inDateRange ts then
    let date := civilFromDays (ts / 86400)
    let secs := (ts % 86400).toNat
    formatYear date.year ++ "-" ++ padZeros 2 date.month ++ "-" ++ padZeros 2 date.day ++ " "
      ++ padZeros 2 (secs / 3600) ++ ":" ++ padZeros 2 (secs / 60 % 60) ++ ":"
      ++ padZeros 2 (secs % 60) ++ " UTC"
  else toString ts

example : formatListTime 1776688245 = "2026-04-20 12:30:45 UTC" := by decide +kernel

/-- The tables of a manifest, each once. -/
def tablesOf (m : Manifest) : List (String × String) :=
  (m.parts.map fun p => (p.database, p.tableName)).dedup

def dashIfEmpty (s : String) : String := if s = "" then "-" else s

def snapshotLine (m : Manifest) : String :=
  m.name ++ "  " ++ formatListTime m.timestamp ++ "  shard=" ++ dashIfEmpty m.shard
    ++ "  replica=" ++ dashIfEmpty m.replica ++ "  tables=" ++ toString (tablesOf m).length

/-- `--shard` and `--replica`. -/
def matchesFlags (shard replica : Option String) (m : Manifest) : Bool :=
  shard.all (m.shard = ·) && replica.all (m.replica = ·)

def listSnapshots (cfg : Config) (shard replica : Option String) : P Unit := do
  let _ ← liftP (initStorage cfg)
  let manifests ← readAllManifests
  let shown := (manifests.filter (matchesFlags shard replica)).insertionSort fun a b =>
    a.timestamp ≤ b.timestamp
  printEach "" (shown.map snapshotLine)

-- ---------------------------------------------------------------------------
-- Dispatch
-- ---------------------------------------------------------------------------

inductive Commands where
  | createSnapshot (name : Option String)
  | restore (args : RestoreArgs)
  | rmSnapshot (name : String) (dryRun : Bool)
  | gcAll (dryRun : Bool) (gracePeriodHours : UInt64)
  | listSnapshots (shard replica : Option String)
  | gcLive (retainAll : String) (retainDaily : Option String) (dryRun : Bool) (now : Option Int)
  deriving DecidableEq, Repr

/-- The durations are read before the lock is asked for. -/
def gcLiveCommand (isAlphabetic : Char → Bool) (cfg : Config) (retainAll : String)
    (retainDaily : Option String) (dryRun : Bool) (now : Option Int) : P Unit := do
  let _ ← liftP (initStorage cfg)
  let retainAllMinutes ← liftP (parseDurationMinutes isAlphabetic retainAll)
  let retainDailyMinutes ← liftP (retainDaily.mapM (parseDurationMinutes isAlphabetic))
  let now ← match now with
    | some now => pure now
    | none => askEnv .utcNow
  pruneOldLiveSnapshots retainAllMinutes retainDailyMinutes now dryRun

def asyncMain (json : Json) (isAlphabetic : Char → Bool)
    (decodeContent : ManifestFile → Except AnyError Bytes) (cfg : Config)
    (occupied : Except AnyError Bool) : Commands → P Unit
  | .createSnapshot name => do
    let snapshotName ← createSnapshot json cfg name
    askEnv (.println ("Snapshot created: " ++ snapshotName))
  | .restore args => restoreCommand json decodeContent cfg occupied args
  | .rmSnapshot name dryRun => do
    let _ ← liftP (initStorage cfg)
    gcSnapshot name dryRun
  | .gcAll dryRun hours => do
    let _ ← liftP (initStorage cfg)
    gcAllBlobs dryRun hours
  | .listSnapshots shard replica => listSnapshots cfg shard replica
  | .gcLive retainAll retainDaily dryRun now =>
    gcLiveCommand isAlphabetic cfg retainAll retainDaily dryRun now

end Chbk
