import Chbk.Model.World

/-!
# Staging a part directory

`stage_part_dir_sync` hard-links the files of a part into a directory of its
own. A marker file beside the directory says that it is complete.

* `stagePartDirSync` — the calls to the file system, in the source's order.
* `Staging` — the directory and its marker; each may be missing, or be anything.
* `StageAnswers` — how the file system may answer. Every call may fail, with
  part of its effect; `exists` is false where it fails.

The source directory stays as it is, and none of the three places lies in
another.
-/

namespace Chbk

open Lib

-- ---------------------------------------------------------------------------
-- Calls
-- ---------------------------------------------------------------------------

/-- The three places: the part, its staging directory, and the marker. -/
inductive Site where
  | src
  | dst
  | marker
  deriving DecidableEq, Repr

inductive FileType where
  | file
  | dir
  | symlink
  | other
  deriving DecidableEq, Repr

inductive LinkError where
  | alreadyExists
  /-- `EXDEV`. -/
  | crossesDevices
  | other (e : AnyError)
  deriving DecidableEq, Repr

/-- The names on the way down from a place. -/
abbrev RelPath := List String

inductive StageOp where
  /-- `Path::exists`. -/
  | pathExists (site : Site)
  | removeDirAll (site : Site)
  | removeFile (site : Site)
  /-- `create_dir_all`, below `dst`. -/
  | createDirAll (rel : RelPath)
  /-- `WalkDir`, from its first entry to its last. -/
  | walkDir (site : Site)
  /-- From `src` to `dst`. -/
  | hardLink (rel : RelPath)
  /-- The length in the metadata. -/
  | metadata (site : Site) (rel : RelPath)
  | write (site : Site) (content : Bytes)

@[reducible] def StageResp : StageOp → Type
  | .pathExists _ => Bool
  | .removeDirAll _ => Except AnyError Unit
  | .removeFile _ => Except AnyError Unit
  | .createDirAll _ => Except AnyError Unit
  | .walkDir _ => List (Except AnyError (RelPath × FileType))
  | .hardLink _ => Except LinkError Unit
  | .metadata _ _ => Except AnyError Nat
  | .write _ _ => Except AnyError Unit

abbrev StageP := Prog StageOp StageResp AnyError

def fsCall (op : StageOp) : StageP (StageResp op) := Prog.ask op

/-- `?` on a result. -/
def liftStage {α : Type} : Except AnyError α → StageP α
  | .ok a => .done a
  | .error e => .fail e

/-- `fs::create_dir_all`. -/
def createStageDir (rel : RelPath) : StageP Unit := do
  liftStage (← fsCall (.createDirAll rel))

/-- `fs::metadata`, and its length. -/
def metadataLen (site : Site) (rel : RelPath) : StageP Nat := do
  liftStage (← fsCall (.metadata site rel))

-- ---------------------------------------------------------------------------
-- `stage_part_dir_sync`
-- ---------------------------------------------------------------------------

/-- How the places are shown in messages. -/
structure StagePaths where
  src : String
  dst : String
  marker : String
  deriving DecidableEq, Repr

/-- A path below a place, as it is shown. -/
def shown (base : String) (rel : RelPath) : String := joinWith "/" (base :: rel)

/-- `as u32`. -/
def asU32 (n : Nat) : UInt32 := UInt32.ofNat n

/-- One round of the loop over the source: the count of files so far, and one
more. -/
def stageEntry (paths : StagePaths) (fileCount : UInt32)
    (entry : Except AnyError (RelPath × FileType)) : StageP UInt32 := do
  let (rel, ft) ← liftStage entry
  if ft = .symlink then
    throw ["Symlinks are not supported in staged parts: " ++ shown paths.src rel]
  if rel = [] then return fileCount
  let outPath := shown paths.dst rel
  if ft = .dir then
    Prog.mapFail (withContext ("Failed to create " ++ outPath)) (createStageDir rel)
    return fileCount
  if ft ≠ .file then return fileCount
  let fileCount := fileCount + 1
  createStageDir rel.dropLast
  match ← fsCall (.hardLink rel) with
  | .ok _ => return fileCount
  | .error .alreadyExists =>
    let srcLen ← metadataLen .src rel
    let dstLen ← metadataLen .dst rel
    if dstLen ≠ srcLen then
      throw ["Staged file exists with different size: " ++ outPath ++ " (" ++ toString dstLen
        ++ " vs " ++ toString srcLen ++ ")"]
    return fileCount
  | .error .crossesDevices =>
    throw ["Cannot hardlink across filesystems: " ++ shown paths.src rel ++ " -> " ++ outPath
      ++ ". BACKUP_DIR must be on the same filesystem as CH_DATA_PATH."]
  | .error (.other e) => throw (withContext ("Failed to link " ++ outPath) e)

/-- The files among the entries a walk has come to, passing over its errors. -/
def countFiles (entries : List (Except AnyError (RelPath × FileType))) : Nat :=
  (entries.filter fun
    | .ok (_, ft) => ft = .file
    | .error _ => false).length

/-- Make the directory, link the files, and put the marker beside it. -/
def linkPartDir (paths : StagePaths) : StageP UInt32 := do
  Prog.mapFail (withContext ("Failed to create " ++ paths.dst)) (createStageDir [])
  let entries ← fsCall (.walkDir .src)
  let fileCount ← Prog.foldl (stageEntry paths) 0 entries
  Prog.mapFail (withContext ("Failed to write " ++ paths.marker)) (do
    liftStage (← fsCall (.write .marker [0x6f, 0x6b])))
  return fileCount

/-- Remove what is left of an earlier attempt. A marker that cannot be removed
is passed over. -/
def clearStage (paths : StagePaths) : StageP Unit := do
  if ← fsCall (.pathExists .dst) then
    Prog.mapFail (withContext ("Failed to remove " ++ paths.dst)) (do
      liftStage (← fsCall (.removeDirAll .dst)))
  if ← fsCall (.pathExists .marker) then
    let _ ← fsCall (.removeFile .marker)

def stagePartDirSync (paths : StagePaths) : StageP UInt32 := do
  if !(← fsCall (.pathExists .src)) then throw ["Part directory missing: " ++ paths.src]
  if ← fsCall (.pathExists .marker) then
    if ← fsCall (.pathExists .dst) then
      -- staged already
      let entries ← fsCall (.walkDir .dst)
      return asU32 (countFiles entries)
  clearStage paths
  linkPartDir paths

-- ---------------------------------------------------------------------------
-- The file system
-- ---------------------------------------------------------------------------

inductive Node where
  | file (content : Bytes)
  | dir
  | symlink
  | other
  deriving DecidableEq, Repr

def Node.fileType : Node → FileType
  | file _ => .file
  | dir => .dir
  | symlink => .symlink
  | other => .other

/-- What is at a place and below it; the place itself is `[]`. -/
abbrev Tree := List (RelPath × Node)

/-- There is something at the place itself. -/
def Tree.present (t : Tree) : Bool := (t.lookup []).isSome

/-- The content of a file in the tree. -/
def Tree.fileAt (t : Tree) (p : RelPath) : Option Bytes :=
  match t.lookup p with
  | some (.file bs) => some bs
  | _ => none

/-- Make the missing ones of some directories. -/
def Tree.makeDirs (made : List RelPath) (t : Tree) : Tree :=
  made.foldl (fun t p => if t.lookup p = none then insertKey p .dir t else t) t

/-- Each of the places is free, or a directory. -/
def Tree.freeFor (t : Tree) (made : List RelPath) : Prop :=
  ∀ p ∈ made, t.lookup p = none ∨ t.lookup p = some .dir

/-- The staging directory and its marker. -/
structure Staging where
  dst : Tree
  marker : Tree
  deriving DecidableEq, Repr

def Staging.at (source : Tree) (s : Staging) : Site → Tree
  | .src => source
  | .dst => s.dst
  | .marker => s.marker

def Staging.set (s : Staging) : Site → Tree → Staging
  | .src, _ => s
  | .dst, t => { s with dst := t }
  | .marker, t => { s with marker := t }

/-- A walk comes to every entry once, or meets an error and misses some. -/
def WalkAnswers (t : Tree) (entries : List (Except AnyError (RelPath × FileType))) : Prop :=
  (∀ rel ft, .ok (rel, ft) ∈ entries → ∃ node, (rel, node) ∈ t ∧ node.fileType = ft) ∧
    ((∀ e, .error e ∉ entries) →
      t.present ∧ entries.Perm (t.map fun x => .ok (x.1, x.2.fileType)))

/-- How a call may be answered, and what it leaves. -/
def StageAnswers (source : Tree) : (op : StageOp) → Staging → StageResp op → Staging → Prop
  | .pathExists site, s, r, s' => (r = true → (s.at source site).present = true) ∧ s' = s
  | .removeDirAll site, s, .ok _, s' => s' = s.set site []
  | .removeDirAll site, s, .error _, s' => ∃ keep, s' = s.set site ((s.at source site).filter keep)
  | .removeFile site, s, .ok _, s' => s' = s.set site []
  | .removeFile site, s, .error _, s' => s' = s ∨ s' = s.set site []
  | .createDirAll rel, s, .ok _, s' =>
    s.dst.freeFor rel.inits ∧ s' = { s with dst := s.dst.makeDirs rel.inits }
  | .createDirAll rel, s, .error _, s' => ∃ made, made <+: rel.inits ∧ s.dst.freeFor made ∧
      s' = { s with dst := s.dst.makeDirs made }
  | .walkDir site, s, entries, s' => WalkAnswers (s.at source site) entries ∧ s' = s
  | .hardLink rel, s, .ok _, s' => s.dst.lookup rel = none ∧
      s.dst.lookup rel.dropLast = some .dir ∧
      ∃ bs, source.fileAt rel = some bs ∧ s' = { s with dst := insertKey rel (.file bs) s.dst }
  | .hardLink rel, s, .error .alreadyExists, s' => s.dst.lookup rel ≠ none ∧ s' = s
  | .hardLink rel, s, .error _, s' => s' = s ∨ ∃ node, source.lookup rel = some node ∧
      s.dst.lookup rel = none ∧ s' = { s with dst := insertKey rel node s.dst }
  | .metadata site rel, s, .ok n, s' => s' = s ∧
      ∀ bs, (s.at source site).fileAt rel = some bs → n = bs.length
  | .metadata _ _, s, .error _, s' => s' = s
  | .write site content, s, .ok _, s' => s' = s.set site [([], .file content)]
  | .write site _, s, .error _, s' => s' = s ∨ ∃ bs, s' = s.set site [([], .file bs)]

end Chbk
