import Chbk.Model.Snapshots

/-!
# `restore_snapshot`

What a restore writes below its output directory: first the metadata files of
the manifest, then the directories of its parts.

* `filterRestoreItems` — the parts and the files that are restored.
* `restoreManifest` — the command, once it has read the manifest.

The base64 decoder is a parameter (`decodeContent`); what it decodes is the
record's content. Calls that take a path carry its components. Printed lines are
left out, but for those that name the skipped tables.
-/

namespace Chbk

open Lib

-- ---------------------------------------------------------------------------
-- What is restored
-- ---------------------------------------------------------------------------

structure FilteredRestoreItems where
  parts : List ManifestPart
  files : List ManifestFile
  skipped : List (String × String)
  deriving DecidableEq, Repr

/-- A table given on the command line; it must have parts. -/
def filterTable (parts : List ManifestPart) (files : List ManifestFile) :
    Option (String × String) → Except AnyError (List ManifestPart × List ManifestFile)
  | none => .ok (parts, files)
  | some (db, tbl) =>
    let parts := parts.filter fun p => p.database = db ∧ p.tableName = tbl
    if parts = [] then .error ["No parts found for table '" ++ db ++ "." ++ tbl ++ "' in snapshot"]
    else
      let dbSql := "metadata/" ++ db ++ ".sql"
      let tableSql := "metadata/" ++ db ++ "/" ++ tbl ++ ".sql"
      .ok (parts, files.filter fun f => f.path = dbSql ∨ f.path = tableSql)

/-- `str::split_once`. -/
def splitOnce (c : Char) (s : String) : Option (String × String) :=
  let before := s.toList.takeWhile (· ≠ c)
  match s.toList.dropWhile (· ≠ c) with
  | [] => none
  | _ :: after => some (String.ofList before, String.ofList after)

/-- The table a metadata file is of. -/
def tableOfFile (f : ManifestFile) : Option (String × String) := do
  let rest ← stripPrefix? f.path "metadata/"
  let inner ← stripSuffix? rest ".sql"
  splitOnce '/' inner

/-- Pairs in the order of a `BTreeSet`. -/
def pairLe (x y : String × String) : Bool := x.1 < y.1 ∨ (x.1 = y.1 ∧ x.2 ≤ y.2)

def filterRestoreItems (parts : List ManifestPart) (files : List ManifestFile)
    (tableFilter : Option (String × String)) (excludeTables : Option (List (String × String))) :
    Except AnyError FilteredRestoreItems := do
  let (parts, files) ← filterTable parts files tableFilter
  match excludeTables with
  | none => return ⟨parts, files, []⟩
  | some exclude =>
    let key (p : ManifestPart) := (p.database, p.tableName)
    let skipped := (((parts.filter fun p => key p ∈ exclude).map key).dedup).mergeSort pairLe
    return ⟨parts.filter fun p => key p ∉ exclude,
      files.filter fun f => (tableOfFile f).all (· ∉ exclude), skipped⟩

/-- An expectation about the manifest's header. -/
def checkExpected (what field snapshotName actual : String) : Option String → Except AnyError Unit
  | none => .ok ()
  | some expected =>
    if actual ≠ expected then
      .error [what ++ " mismatch: snapshot '" ++ snapshotName ++ "' has " ++ field ++ "='" ++ actual
        ++ "', expected '" ++ expected ++ "'"]
    else .ok ()

/-- What the flags of a restore select. -/
structure RestoreFlags where
  tableFilter : Option (String × String)
  expectedShard : Option String
  expectedReplica : Option String
  excludeTables : Option (List (String × String))
  attach : Bool
  deriving DecidableEq, Repr

/-- The checks of a restore, and what it keeps of the manifest. -/
def selectItems (snapshotName : String) (flags : RestoreFlags) (m : Manifest) :
    Except AnyError FilteredRestoreItems := do
  checkExpected "Shard" "shard" snapshotName m.shard flags.expectedShard
  checkExpected "Replica" "replica" snapshotName m.replica flags.expectedReplica
  filterRestoreItems m.parts m.files flags.tableFilter flags.excludeTables

-- ---------------------------------------------------------------------------
-- What is written
-- ---------------------------------------------------------------------------

/-- `fs::create_dir_all`. -/
def createDirAll (path : List Component) : P Unit := do
  liftP (← askEnv (.createDirAll path))

/-- `Path::parent`, as components. -/
def parentComponents (path : List Component) : Option (List Component) :=
  match path.getLast? with
  | none | some .rootDir => none
  | some _ => some path.dropLast

/-- The directories above the last component of a path. -/
def createParents (path : List Component) : P Unit :=
  match parentComponents path with
  | some parent => createDirAll parent
  | none => return ()

section

variable (decodeContent : ManifestFile → Except AnyError Bytes)

def restoreFile (outputDir : String) (file : ManifestFile) : P Unit := do
  let content ← liftP (decodeContent file)
  let path := components (pathJoin outputDir file.path)
  createParents path
  liftP (← askEnv (.writeFile path content))

/-- The directory of a part; a part to attach goes below `detached`. -/
def partDir (outputDir : String) (attach : Bool) (part : ManifestPart) : String :=
  let table := pathJoin (pathJoin (pathJoin outputDir "data") part.database) part.tableName
  if attach then pathJoin (pathJoin table "detached") part.partName
  else pathJoin table part.partName

def restorePart (outputDir : String) (attach : Bool) (part : ManifestPart) :
    P (String × String × String) := do
  let remoteKey ← keyOrPanic part.blobHash
  let destDir := partDir outputDir attach part
  Prog.mapFail (withContext ("create " ++ destDir)) (createDirAll (components destDir))
  let body ← Prog.mapFail (withContext ("get " ++ remoteKey)) (getObject remoteKey)
  liftP (← askEnv (.extractZip (components destDir) body))
  return (part.database, part.tableName, part.partName)

def attachRestored (part : String × String × String) : P Unit :=
  Prog.mapFail (withContext ("ATTACH PART " ++ part.1 ++ "." ++ part.2.1 ++ "/" ++ part.2.2))
    (attachPart part.1 part.2.1 part.2.2)

/-- The parts are started one after the other. Those before one whose key panics may be
served in any order, and none behind it is started. -/
def servedOrder (order : List Nat) (parts : List ManifestPart) : List ManifestPart :=
  let keyed (p : ManifestPart) : Bool := (blobShard p.blobHash).isSome
  reorder order (parts.takeWhile keyed) ++ parts.dropWhile keyed

/-- All parts are tried; the first failure among them is the result. -/
def restoreParts (outputDir : String) (attach : Bool) (parts : List ManifestPart) : P Unit := do
  let order ← askEnv .order
  let results ← Prog.collect (fun part => Prog.attempt (restorePart outputDir attach part))
    (servedOrder order parts)
  let restored ← Prog.collect liftP results
  if attach then
    let order ← askEnv .order
    let results ← Prog.collect (fun part => Prog.attempt (attachRestored part))
      (reorder order restored)
    let _ ← Prog.collect liftP results
    return ()

def restoreItems (outputDir : String) (attach : Bool) (items : FilteredRestoreItems) :
    P Unit := do
  printEach "Skipping existing table: " (items.skipped.map fun t => t.1 ++ "." ++ t.2)
  Prog.mapFail (withContext ("create " ++ outputDir)) (createDirAll (components outputDir))
  let _ ← Prog.collect (restoreFile decodeContent outputDir) items.files
  if items.parts = [] then return ()
  restoreParts outputDir attach items.parts

def restoreManifest (snapshotName outputDir : String) (flags : RestoreFlags) (m : Manifest) :
    P Unit := do
  let items ← liftP (selectItems snapshotName flags m)
  restoreItems decodeContent outputDir flags.attach items

def restoreSnapshot (snapshotName outputDir : String) (flags : RestoreFlags) : P Unit := do
  let m ← Prog.mapFail (withContext ("Reading manifest for '" ++ snapshotName ++ "'"))
    (readManifest snapshotName)
  restoreManifest decodeContent snapshotName outputDir flags m

end

end Chbk
