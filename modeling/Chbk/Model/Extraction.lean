import Chbk.Model.ExtractZip
import Chbk.Model.Restore

/-!
# Extractions side by side

`restore_snapshot` extracts its parts on threads of their own. Here the reader
of `part_zip.rs` is a program that makes its calls on the file tree one by one,
so that the calls of several parts may be interleaved.

* `TreeOp` — a call on the tree; `TreeOp.perform` is what it does.
* `extractZipCalls` — `extract_zip` over these calls.
* `restorePartCalls` — one part, with what its download was answered.
* `restoreMetadata` — the part of the command that runs before the parts.
-/

namespace Chbk

open Lib

-- ---------------------------------------------------------------------------
-- Calls on the file tree
-- ---------------------------------------------------------------------------

inductive TreeOp where
  /-- `create_dir_all(dest_dir)`. -/
  | createDest (dest : AbsPath)
  /-- `create_dir_all` of `dest_dir.join(rel)`, for a directory entry. -/
  | createDir (dest : AbsPath) (rel : String)
  /-- `create_dir_all` of the parent of `dest_dir.join(rel)`. -/
  | createParent (dest : AbsPath) (rel : String)
  /-- `File::create` at `dest_dir.join(rel)`. -/
  | createFile (dest : AbsPath) (rel : String)
  /-- `write_all` to the open file. -/
  | writeAll (out : AbsPath) (bs : Bytes)
  deriving DecidableEq, Repr

/-- Every call is answered by success or an error. -/
abbrev TreeResp (_ : TreeOp) : Type := Except AnyError Unit

/-- The answer of a step on the tree; one that fails leaves it as it is. -/
def Fs.answer (fs : Fs) : Except AnyError Fs → Except AnyError Unit × Fs
  | .ok fs' => (.ok (), fs')
  | .error e => (.error e, fs)

def TreeOp.perform (op : TreeOp) (fs : Fs) : Except AnyError Unit × Fs :=
  match op with
  | .createDest dest => fs.answer (fs.createDirAll dest)
  | .createDir dest rel =>
    let dir := join dest rel
    -- a path that ends in a dot has to be there; what is above it is made
    if endsInDot rel && !fs.dirs dir then
      match fs.createDirAll dir.dropLast with
      | .ok fs' => (.error ["No such file or directory"], fs')
      | .error e => (.error e, fs)
    else fs.answer (fs.createDirAll dir)
  | .createParent dest rel => fs.answer (createParentFor fs dest rel)
  | .createFile dest rel => fs.answer (createOut fs dest rel)
  | .writeAll out bs => (.ok (), fs.appendFile out bs)

-- ---------------------------------------------------------------------------
-- The reader
-- ---------------------------------------------------------------------------

/-- A reader that makes calls: its state is the stream alone. -/
abbrev Extraction (α : Type) : Type := StateT Reader (Prog TreeOp TreeResp Failure) α

/-- A call with `?` behind it. -/
def treeCall (op : TreeOp) : Extraction Unit := fun reader =>
  .call op fun
    | .ok () => .done ((), reader)
    | .error e => .fail (.error e)

/-- A step that looks at the stream only. -/
def reading {α : Type} (m : ZipReader α) : Extraction α := fun reader =>
  match m ⟨reader, Fs.empty⟩ with
  | .ok a s => .done (a, s.reader)
  | .error e _ => .fail e

def readFileDataCalls (name : String) (out : AbsPath) :
    Nat → Nat → UInt32 → Extraction UInt32
  | 0, 0, crc => pure crc
  | 0, _ + 1, _ => reading (throw .diverges)
  | fuel + 1, remaining, crc => do
    if remaining = 0 then return crc
    let bs ← reading (readSome (min READ_BUF_LEN remaining))
    if bs.isEmpty then reading (bail ["Unexpected EOF reading ZIP data for " ++ name])
    treeCall (.writeAll out bs)
    readFileDataCalls name out fuel (remaining - bs.length) (crcUpdate crc bs)

/-- A directory entry. -/
def extractDirCalls (dest : AbsPath) (name : String) : Extraction Unit := do
  let rel := trimEndSlashes name
  reading (liftResult (validateRelPath rel))
  treeCall (.createDir dest rel)

/-- What is checked behind the data of an entry. -/
def checkEntry (name : String) (h : LocalHeader) (compressedSize uncompressedSize : Nat)
    (crc : UInt32) : ZipReader Unit := do
  let (crc32, ddCsize, ddUsize) ← entryCheck h compressedSize uncompressedSize
  checkCrc name crc32 (crcFinalize crc).toNat
  checkSizes name compressedSize uncompressedSize ddCsize ddUsize

/-- A file entry. -/
def extractFileCalls (dest : AbsPath) (name : String) (h : LocalHeader)
    (compressedSize uncompressedSize : Nat) : Extraction Unit := do
  reading (liftResult (validateRelPath name))
  treeCall (.createParent dest name)
  treeCall (.createFile dest name)
  let crc ← readFileDataCalls name (join dest name) compressedSize compressedSize crcInit
  reading (checkEntry name h compressedSize uncompressedSize crc)

def extractEntryCalls (dest : AbsPath) : Extraction Unit := do
  let h ← reading readLocalHeader
  let nameBytes ← reading (readExact "Failed to read ZIP filename" h.nameLen)
  let name ← reading (decodeName nameBytes)
  let extra ← reading (readExact "Failed to read ZIP extra" h.extraLen)
  reading (checkMethod h.method)
  let sizes ← reading (entrySizes h extra)
  if name.toList.getLast? = some '/' then extractDirCalls dest name
  else extractFileCalls dest name h sizes.1 sizes.2

def extractLoopCalls (dest : AbsPath) : Nat → Extraction Unit
  | 0 => reading (throw .diverges)
  | fuel + 1 => do
    match ← reading readU32Opt with
    | none => return
    | some sig =>
      if sig = ZIP_LOCAL_FILE_HEADER_SIG then
        extractEntryCalls dest
        extractLoopCalls dest fuel
      else if sig = ZIP_CENTRAL_DIRECTORY_FILE_HEADER_SIG ∨ sig = ZIP_END_OF_CENTRAL_DIR_SIG
          ∨ sig = ZIP64_END_OF_CENTRAL_DIR_SIG ∨ sig = ZIP64_END_OF_CENTRAL_DIR_LOCATOR_SIG then
        return
      else reading (bail ["Unexpected ZIP signature: 0x" ++ formatHex 8 sig])

/-- `create_dir_all(dest_dir)` under its context. -/
def createDestCall (context : String) (dest : AbsPath) : Extraction Unit := fun reader =>
  .call (.createDest dest) fun
    | .ok () => .done ((), reader)
    | .error e => .fail (.error (withContext context e))

/-- `extract_zip` into the place `dest`. -/
def extractZipCalls (dest : AbsPath) : Extraction Unit := do
  createDestCall ("Failed to create " ++ "/" ++ joinWith "/" dest) dest
  extractLoopCalls dest ((← get).rest.length + 1)

-- ---------------------------------------------------------------------------
-- The command
-- ---------------------------------------------------------------------------

/-- What the GET of a part's archive is answered: an error, or a stream. -/
abbrev Download : Type := Except AnyError Reader

/-- One part, into the place its directory names. -/
def restorePartCalls (cwd : AbsPath) (outputDir : String) (attach : Bool) (part : ManifestPart)
    (download : Download) : Prog TreeOp TreeResp Failure Unit := do
  if (blobShard part.blobHash).isNone then throw .panic
  let destDir := partDir outputDir attach part
  let dest := join cwd destDir
  let (_, _) ← createDestCall ("create " ++ destDir) dest ⟨[], []⟩
  match download with
  | .error e => throw (.error (withContext ("get " ++ blobRemoteKey part.blobHash) e))
  | .ok reader =>
    let (_, _) ← extractZipCalls dest reader
    return ()

/-- The output directory and the metadata files. -/
def restoreMetadata (decodeContent : ManifestFile → Except AnyError Bytes) (outputDir : String)
    (items : FilteredRestoreItems) : P Unit := do
  printEach "Skipping existing table: " (items.skipped.map fun t => t.1 ++ "." ++ t.2)
  Prog.mapFail (withContext ("create " ++ outputDir)) (createDirAll (components outputDir))
  let _ ← Prog.collect (restoreFile decodeContent outputDir) items.files
  return ()

end Chbk
