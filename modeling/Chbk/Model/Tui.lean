import Mathlib.Data.List.Sort
import Mathlib.Order.Basic
import Chbk.Model.World

/-!
# `tui.rs`

What the terminal interface knows of a backup under way: one row for each part,
brought up to date by the events that the backup sends.

* `TuiState.applyEvent` — one event. `none` is a panic, at an index out of
  bounds.
* `TuiState.tableSummary` — the rows counted by table.

Drawing, sorting and the keyboard are left out.
-/

namespace Chbk

open Lib

/-- `std::time::Instant`. -/
abbrev Instant := Nat

structure PartSummary where
  hash : String
  database : String
  table : String
  partName : String
  bytesOnDisk : UInt64
  rowsCount : UInt64
  deriving DecidableEq, Repr

inductive BackupEvent where
  | partsDiscovered (parts : List PartSummary) (knownHashes : List String)
  | partHeadCheck (hash : String)
  | partHeadSkipped (hash : String) (size : UInt64)
  | partStaging (hash : String)
  | partStaged (hash : String) (fileCount : UInt32)
  | partUploading (hash : String)
  | partUploadProgress (hash : String) (bytesUploaded total : UInt64)
  | partDone (hash : String) (zipSize : UInt64)
  | backupComplete (snapshotName : String)
  deriving DecidableEq, Repr

-- ---------------------------------------------------------------------------
-- Rows
-- ---------------------------------------------------------------------------

inductive PartStatus where
  | skipped
  | pending
  | headCheck
  | staging
  | staged
  | uploading
  | headSkip
  | done
  deriving DecidableEq, Repr

namespace PartStatus

/-- The discriminant. -/
def rank : PartStatus → Nat
  | skipped => 0
  | pending => 1
  | headCheck => 2
  | staging => 3
  | staged => 4
  | uploading => 5
  | headSkip => 6
  | done => 7

theorem rank_injective : Function.Injective rank := by
  intro a b h
  cases a <;> cases b <;> first | rfl | cases h

/-- The derived order. -/
instance : LinearOrder PartStatus := LinearOrder.lift' rank rank_injective

theorem le_iff {a b : PartStatus} : a ≤ b ↔ a.rank ≤ b.rank := Iff.rfl

end PartStatus

structure PartRow where
  database : String
  table : String
  partName : String
  bytesOnDisk : UInt64
  rowsCount : UInt64
  fileCount : Option UInt32
  status : PartStatus
  progressBytes : UInt64
  progressTotal : UInt64
  isNew : Bool
  zipSize : UInt64
  doneAt : Option Instant
  deriving DecidableEq, Repr

/-- The status a part is discovered with. -/
def initialStatus (knownHashes : List String) (p : PartSummary) : PartStatus :=
  if p.hash ∈ knownHashes then .skipped else .pending

def newRow (knownHashes : List String) (p : PartSummary) : PartRow where
  database := p.database
  table := p.table
  partName := p.partName
  bytesOnDisk := p.bytesOnDisk
  rowsCount := p.rowsCount
  fileCount := none
  status := initialStatus knownHashes p
  progressBytes := 0
  progressTotal := 0
  isNew := p.hash ∉ knownHashes
  zipSize := 0
  doneAt := none

structure TuiState where
  parts : List PartRow := []
  /-- The row of a hash. -/
  partIndex : List (String × Nat) := []
  complete : Bool := false
  deriving DecidableEq, Repr

namespace TuiState

-- ---------------------------------------------------------------------------
-- Events
-- ---------------------------------------------------------------------------

/-- One part is discovered, at its place in the list. -/
def discoverPart (knownHashes : List String) (s : TuiState) (x : PartSummary × Nat) : TuiState :=
  { s with
    partIndex := insertKey x.1.hash x.2 s.partIndex
    parts := s.parts ++ [newRow knownHashes x.1] }

/-- Change the row the index has for a hash. -/
def changeRow (hash : String) (f : PartRow → PartRow) (s : TuiState) : Option TuiState :=
  match s.partIndex.lookup hash with
  | none => some s
  | some idx => s.parts[idx]?.map fun row => { s with parts := s.parts.set idx (f row) }

/-- Raise the status of that row, with what else changes then. -/
def raise (status : PartStatus) (hash : String) (f : PartRow → PartRow) (s : TuiState) :
    Option TuiState :=
  s.changeRow hash fun row => if status > row.status then { f row with status } else row

def applyEvent (now : Instant) (s : TuiState) : BackupEvent → Option TuiState
  | .partsDiscovered parts knownHashes =>
    some (parts.zipIdx.foldl (discoverPart knownHashes) { s with parts := [], partIndex := [] })
  | .partHeadCheck hash => s.raise .headCheck hash id
  | .partHeadSkipped hash size =>
    s.raise .headSkip hash fun row => { row with zipSize := size, doneAt := some now }
  | .partStaging hash => s.raise .staging hash id
  | .partStaged hash fileCount =>
    s.raise .staged hash fun row => { row with fileCount := some fileCount }
  | .partUploading hash => s.raise .uploading hash fun row => { row with progressBytes := 0 }
  | .partUploadProgress hash bytesUploaded total =>
    s.changeRow hash fun row => { row with progressBytes := bytesUploaded, progressTotal := total }
  | .partDone hash zipSize =>
    s.raise .done hash fun row =>
      { row with zipSize, progressBytes := zipSize, progressTotal := zipSize, doneAt := some now }
  | .backupComplete _ => some { s with complete := true }

/-- Events, each with the time it is applied at. -/
def run (s : TuiState) : List (Instant × BackupEvent) → Option TuiState
  | [] => some s
  | e :: es => (s.applyEvent e.1 e.2).bind fun s' => run s' es

end TuiState

-- ---------------------------------------------------------------------------
-- The summary
-- ---------------------------------------------------------------------------

/-- The sums wrap around. -/
structure TableSummaryRow where
  database : String
  table : String
  parts : UInt32 := 0
  skip : UInt32 := 0
  todo : UInt32 := 0
  doing : UInt32 := 0
  done : UInt32 := 0
  bytesOnDisk : UInt64 := 0
  rowsCount : UInt64 := 0
  fileCount : UInt32 := 0
  deriving DecidableEq, Repr

/-- One part more, under its status. -/
def TableSummaryRow.count (row : TableSummaryRow) : PartStatus → TableSummaryRow
  | .skipped | .headSkip => { row with parts := row.parts + 1, skip := row.skip + 1 }
  | .pending | .staged => { row with parts := row.parts + 1, todo := row.todo + 1 }
  | .headCheck | .staging | .uploading =>
    { row with parts := row.parts + 1, doing := row.doing + 1 }
  | .done => { row with parts := row.parts + 1, done := row.done + 1 }

def TableSummaryRow.add (row : TableSummaryRow) (p : PartRow) : TableSummaryRow :=
  let row := row.count p.status
  { row with
    bytesOnDisk := row.bytesOnDisk + p.bytesOnDisk
    rowsCount := row.rowsCount + p.rowsCount
    fileCount := row.fileCount + p.fileCount.getD 0 }

def addToTable (map : List ((String × String) × TableSummaryRow)) (p : PartRow) :
    List ((String × String) × TableSummaryRow) :=
  let key := (p.database, p.table)
  let row := (map.lookup key).getD { database := p.database, table := p.table }
  insertKey key (row.add p) map

/-- `table_summary`: the tables in the order of their names. -/
def TuiState.tableSummary (s : TuiState) : List TableSummaryRow :=
  ((s.parts.foldl addToTable []).map Prod.snd).insertionSort fun a b =>
    a.database < b.database ∨ (a.database = b.database ∧ a.table ≤ b.table)

end Chbk
