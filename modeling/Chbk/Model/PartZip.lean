import Chbk.Lib.Bytes
import Chbk.Model.Text

/-!
# The ZIP streams of `part_zip.rs`

The writer emits local header, data and data descriptor for each file, then
the central directory; the reader takes the local entries in order and stops
at the first central record.

* `writeZip` — a program over the bytes emitted so far. What was emitted stays
  emitted when a later step fails.
* `extractZip` — a program over the stream and the file tree. A slice out of
  bounds is a `panic` of its own, never an error value.

Sizes and offsets are `u64`, as in the source. The file tree has no limits on
names and no links.
-/

namespace Chbk

open Lib

def ZIP_LOCAL_FILE_HEADER_SIG : Nat := 0x04034b50
def ZIP_DATA_DESCRIPTOR_SIG : Nat := 0x08074b50
def ZIP_CENTRAL_DIRECTORY_FILE_HEADER_SIG : Nat := 0x02014b50
def ZIP_END_OF_CENTRAL_DIR_SIG : Nat := 0x06054b50
def ZIP64_END_OF_CENTRAL_DIR_SIG : Nat := 0x06064b50
def ZIP64_END_OF_CENTRAL_DIR_LOCATOR_SIG : Nat := 0x07064b50

def ZIP_VERSION_ZIP64 : Nat := 45
def ZIP_FLAG_DATA_DESCRIPTOR : Nat := 8
def ZIP_METHOD_STORED : Nat := 0

def ZIP64_EXTRA_ID : Nat := 0x0001

/-- `u32::MAX`, which in a size field says "see the ZIP64 extra". -/
def U32_MAX : Nat := 0xFFFFFFFF

def U16_MAX : Nat := 0xFFFF

structure ZipFileEntry where
  absPath : String
  relPath : String
  size : UInt64
  deriving DecidableEq, Repr

/-! ## Names -/

/-- The loop body of `validate_rel_path`. -/
def checkComponent (path : String) : Component → Except AnyError Unit
  | .normal _ | .curDir => .ok ()
  | .parentDir | .rootDir => .error ["Unsafe ZIP entry path: " ++ path]

def validateRelPath (path : String) : Except AnyError Unit :=
  if path = "" then .error ["Empty ZIP entry path"]
  else (components path).forM (checkComponent path)

/-- The names among the components of a path. -/
def normals (comps : List Component) : List String :=
  comps.filterMap fun
    | .normal s => some s
    | _ => none

/-- After `validateRelPath` the components are names and dots, so the source's
"Unsupported path component" arm is never taken. -/
def pathToZipName (path : String) : Except AnyError String := do
  validateRelPath path
  let s := joinWith "/" (normals (components path))
  if s = "" then throw ["Empty ZIP entry name"]
  if '\\' ∈ s.toList then throw ["Backslashes not allowed in ZIP entry name: " ++ s]
  return s

/-! ## The size estimate -/

/-- What one file adds to the estimate. -/
def estimateEntrySize (f : ZipFileEntry) : Nat :=
  let nameLen := match pathToZipName f.relPath with
    | .ok s => (utf8 s).length
    | .error _ => 0
  let zip64 := f.size.toNat > U32_MAX
  let extraLocal := if zip64 then 4 + 16 else 0
  let extraCentral := if zip64 then 4 + 24 else 0
  (30 + nameLen + extraLocal) + f.size.toNat + (if zip64 then 24 else 16)
    + (46 + nameLen + extraCentral)

def estimateZipSize (files : List ZipFileEntry) : UInt64 :=
  UInt64.ofNat ((files.map estimateEntrySize).sum + 22
    + if files.length > U16_MAX then 56 + 20 else 0)

/-! ## The writer -/

/-- A writer's state is what it has emitted; a failure leaves it there. -/
abbrev ZipWriter := EStateM AnyError Bytes

def writeAll (bs : Bytes) : ZipWriter Unit := modify (· ++ bs)

def writeU16 (v : Nat) : ZipWriter Unit := writeAll (leBytes 2 v)
def writeU32 (v : Nat) : ZipWriter Unit := writeAll (leBytes 4 v)
def writeU64 (v : Nat) : ZipWriter Unit := writeAll (leBytes 8 v)

/-- `try_into` a `u16` under a context. -/
def tryIntoU16 (msg : String) (n : Nat) : ZipWriter Nat :=
  if n ≤ U16_MAX then pure n
  else throw [msg, "out of range integral type conversion attempted"]

def buildZip64ExtraLocal (compressed uncompressed : Nat) : Bytes :=
  leBytes 2 ZIP64_EXTRA_ID ++ leBytes 2 16 ++ leBytes 8 uncompressed ++ leBytes 8 compressed

def buildZip64ExtraCentral (compressed uncompressed offset : Nat) : Bytes :=
  leBytes 2 ZIP64_EXTRA_ID ++ leBytes 2 24 ++ leBytes 8 uncompressed ++ leBytes 8 compressed
    ++ leBytes 8 offset

structure CentralEntry where
  name : Bytes
  crc32 : UInt32
  size : UInt64
  localHeaderOffset : UInt64
  needsZip64 : Bool
  deriving DecidableEq, Repr

/-- The writer's rule for an entry: ZIP64 when the size or the running offset
is above `u32::MAX`. -/
def entryNeedsZip64 (size offset : UInt64) : Bool :=
  size.toNat > U32_MAX || offset.toNat > U32_MAX

/-- The two size fields of a header. -/
def writeHeaderSizes (needsZip64 : Bool) (size : UInt64) : ZipWriter Unit :=
  if needsZip64 then do
    writeU32 0xFFFFFFFF
    writeU32 0xFFFFFFFF
  else do
    writeU32 size.toNat
    writeU32 size.toNat

/-- The local header of one file, with its name and extra field. Returns how
many bytes it is counted as. The signature and the fields before the name
length are out before the length is checked. -/
def writeLocalHeader (nameBytes : Bytes) (size : UInt64) (needsZip64 : Bool) :
    ZipWriter UInt64 := do
  writeU32 ZIP_LOCAL_FILE_HEADER_SIG
  writeU16 ZIP_VERSION_ZIP64
  writeU16 ZIP_FLAG_DATA_DESCRIPTOR
  writeU16 ZIP_METHOD_STORED
  writeU16 0
  writeU16 0
  writeU32 0
  writeHeaderSizes needsZip64 size
  writeU16 (← tryIntoU16 "ZIP filename too long" nameBytes.length)
  let localExtra := if needsZip64 then buildZip64ExtraLocal size.toNat size.toNat else []
  writeU16 (← tryIntoU16 "ZIP extra too long" localExtra.length)
  writeAll nameBytes
  writeAll localExtra
  return 30 + UInt64.ofNat nameBytes.length + UInt64.ofNat localExtra.length

/-- The writer's read buffer. -/
def WRITE_BUF_LEN : Nat := 4 * 1024 * 1024

/-- The copy loop: `remaining` bytes are still to come from the open file.
Every round copies a byte at least, so `remaining` rounds are enough. -/
def copyFileData (absPath : String) :
    Nat → Nat → Reader → UInt32 → UInt64 → ZipWriter (UInt32 × UInt64)
  | 0, _, _, crc, offset => pure (crc, offset)
  | fuel + 1, remaining, file, crc, offset =>
    if remaining = 0 then pure (crc, offset)
    else
      match file.read (min WRITE_BUF_LEN remaining) with
      | (.error _, _) => throw ["Failed to read " ++ absPath, "io error"]
      | (.ok [], _) => throw ["Unexpected EOF reading " ++ absPath ++ " (expected "
          ++ toString remaining ++ " more bytes)"]
      | (.ok (b :: bs), file') => do
        writeAll (b :: bs)
        copyFileData absPath fuel (remaining - (bs.length + 1)) file'
          (crcUpdate crc (b :: bs)) (offset + UInt64.ofNat (bs.length + 1))

/-- The data descriptor, and how many bytes it is counted as. -/
def writeDataDescriptor (crc32 : UInt32) (size : UInt64) (needsZip64 : Bool) :
    ZipWriter UInt64 := do
  writeU32 ZIP_DATA_DESCRIPTOR_SIG
  writeU32 crc32.toNat
  if needsZip64 then
    writeU64 size.toNat
    writeU64 size.toNat
    return 24
  else
    writeU32 size.toNat
    writeU32 size.toNat
    return 16

/-- One round of the loop over the files: the entry of `f`, from the offset
where it starts to the offset where it ends. -/
def writeEntry (openFile : String → Except AnyError Reader) (offset : UInt64)
    (f : ZipFileEntry) : ZipWriter (CentralEntry × UInt64) := do
  let name ← match pathToZipName f.relPath with
    | .ok s => pure s
    | .error e => throw e
  let nameBytes := utf8 name
  let needsZip64 := entryNeedsZip64 f.size offset
  let localHeaderOffset := offset
  let header ← writeLocalHeader nameBytes f.size needsZip64
  let offset := offset + header
  let file ← match openFile f.absPath with
    | .ok r => pure r
    | .error e => throw (withContext ("Failed to open " ++ f.absPath) e)
  let (crc, offset) ← copyFileData f.absPath f.size.toNat f.size.toNat file crcInit offset
  let crc32 := crcFinalize crc
  let descriptor ← writeDataDescriptor crc32 f.size needsZip64
  return (⟨nameBytes, crc32, f.size, localHeaderOffset, needsZip64⟩, offset + descriptor)

/-- The loop over the files. -/
def writeEntries (openFile : String → Except AnyError Reader) :
    UInt64 → List ZipFileEntry → ZipWriter (List CentralEntry × UInt64)
  | offset, [] => pure ([], offset)
  | offset, f :: fs => do
    let (c, offset) ← writeEntry openFile offset f
    let (cs, offset) ← writeEntries openFile offset fs
    return (c :: cs, offset)

/-- The offset field of a central record. -/
def writeCentralOffset (needsZip64 : Bool) (offset : UInt64) : ZipWriter Unit :=
  if needsZip64 then writeU32 0xFFFFFFFF else writeU32 offset.toNat

/-- The central record of one entry, and how many bytes it is counted as. -/
def writeCentralHeader (c : CentralEntry) : ZipWriter UInt64 := do
  writeU32 ZIP_CENTRAL_DIRECTORY_FILE_HEADER_SIG
  writeU16 ZIP_VERSION_ZIP64
  writeU16 ZIP_VERSION_ZIP64
  writeU16 ZIP_FLAG_DATA_DESCRIPTOR
  writeU16 ZIP_METHOD_STORED
  writeU16 0
  writeU16 0
  writeU32 c.crc32.toNat
  let needsZip64 := c.needsZip64 || c.localHeaderOffset.toNat > U32_MAX
  writeHeaderSizes needsZip64 c.size
  writeU16 (← tryIntoU16 "ZIP filename too long" c.name.length)
  let centralExtra := if needsZip64 then
      buildZip64ExtraCentral c.size.toNat c.size.toNat c.localHeaderOffset.toNat
    else []
  writeU16 (← tryIntoU16 "ZIP extra too long" centralExtra.length)
  writeU16 0
  writeU16 0
  writeU16 0
  writeU32 0
  writeCentralOffset needsZip64 c.localHeaderOffset
  writeAll c.name
  writeAll centralExtra
  return 46 + UInt64.ofNat c.name.length + UInt64.ofNat centralExtra.length

/-- The loop over the central directory. -/
def writeCentralDirectory : UInt64 → List CentralEntry → ZipWriter UInt64
  | offset, [] => pure offset
  | offset, c :: cs => do
    let n ← writeCentralHeader c
    writeCentralDirectory (offset + n) cs

/-- The ZIP64 end record and its locator. -/
def writeZip64EndRecords (fileCount : Nat) (centralDirOffset centralDirSize : UInt64) :
    ZipWriter Unit := do
  writeU32 ZIP64_END_OF_CENTRAL_DIR_SIG
  writeU64 44
  writeU16 ZIP_VERSION_ZIP64
  writeU16 ZIP_VERSION_ZIP64
  writeU32 0
  writeU32 0
  writeU64 fileCount
  writeU64 fileCount
  writeU64 centralDirSize.toNat
  writeU64 centralDirOffset.toNat
  writeU32 ZIP64_END_OF_CENTRAL_DIR_LOCATOR_SIG
  writeU32 0
  writeU64 (centralDirOffset + centralDirSize).toNat
  writeU32 1

/-- The counts, size and offset in the end record. -/
def writeEndCounts (needsZip64Eocd : Bool) (fileCount : Nat)
    (centralDirOffset centralDirSize : UInt64) : ZipWriter Unit :=
  if needsZip64Eocd then do
    writeU16 0xFFFF
    writeU16 0xFFFF
    writeU32 0xFFFFFFFF
    writeU32 0xFFFFFFFF
  else do
    writeU16 fileCount
    writeU16 fileCount
    writeU32 centralDirSize.toNat
    writeU32 centralDirOffset.toNat

/-- The end record. -/
def writeEndRecord (needsZip64Eocd : Bool) (fileCount : Nat)
    (centralDirOffset centralDirSize : UInt64) : ZipWriter Unit := do
  writeU32 ZIP_END_OF_CENTRAL_DIR_SIG
  writeU16 0
  writeU16 0
  writeEndCounts needsZip64Eocd fileCount centralDirOffset centralDirSize
  writeU16 0

/-- The records behind the central directory. -/
def writeEndRecords (fileCount : Nat) (centralDirOffset centralDirSize offset : UInt64) :
    ZipWriter UInt64 :=
  let needsZip64Eocd := fileCount > U16_MAX || centralDirOffset.toNat > U32_MAX
    || centralDirSize.toNat > U32_MAX
  if needsZip64Eocd then do
    writeZip64EndRecords fileCount centralDirOffset centralDirSize
    let offset := offset + 56 + 20
    writeEndRecord true fileCount centralDirOffset centralDirSize
    return offset + 22
  else do
    writeEndRecord false fileCount centralDirOffset centralDirSize
    return offset + 22

/-- `write_zip`. `openFile` is `File::open`: what reading the file hands out,
or why it does not open. -/
def writeZip (openFile : String → Except AnyError Reader) (files : List ZipFileEntry) :
    ZipWriter UInt64 := do
  let (central, centralDirOffset) ← writeEntries openFile 0 files
  let offset ← writeCentralDirectory centralDirOffset central
  writeEndRecords central.length centralDirOffset (offset - centralDirOffset) offset

/-- The bytes `write_zip` leaves in its stream, from an empty one. -/
def zipOutput (openFile : String → Except AnyError Reader) (files : List ZipFileEntry) :
    Except AnyError UInt64 × Bytes :=
  match writeZip openFile files [] with
  | .ok n bs => (.ok n, bs)
  | .error e bs => (.error e, bs)

end Chbk
