import Chbk.Lib.Codec
import Chbk.Model.PartZip

/-!
# The ZIP reader of `part_zip.rs`

`extractZip` takes the local entries of a stream in order and writes each to
the file tree. Its state is the stream with the tree; both stay as they are
when it fails.

* `Fs` — a file tree: which places hold a file, which a directory.
* `Failure` — an error value, a slice out of bounds, or a loop cut short.
* `extractZip` — the reader; `extractEntry` is its arm for a local header.
-/

namespace Chbk

open Lib

/-! ## The file tree -/

/-- A file tree, by places below the root. -/
structure Fs where
  files : AbsPath → Option Bytes
  dirs : AbsPath → Bool

namespace Fs

/-- A tree with nothing in it but the root. -/
def empty : Fs := ⟨fun _ => none, fun p => p.isEmpty⟩

def setFile (fs : Fs) (p : AbsPath) (bs : Bytes) : Fs :=
  { fs with files := fun q => if q = p then some bs else fs.files q }

def setDir (fs : Fs) (p : AbsPath) : Fs :=
  { fs with dirs := fun q => q = p || fs.dirs q }

/-- One step of `create_dir_all`: a directory that is there is fine, a file in
its place is not. -/
def mkdirStep (fs : Fs) (p : AbsPath) : Except AnyError Fs :=
  if fs.dirs p then .ok fs
  else if (fs.files p).isSome then .error ["File exists"]
  else .ok (fs.setDir p)

/-- `create_dir_all`, from the root down. -/
def createDirAll (fs : Fs) (p : AbsPath) : Except AnyError Fs :=
  p.inits.foldlM mkdirStep fs

/-- `File::create` at a place whose parent is to be a directory: an empty file,
in place of the one there. -/
def createFile (fs : Fs) (p : AbsPath) : Except AnyError Fs :=
  if fs.dirs p then .error ["Is a directory"]
  else if fs.dirs p.dropLast then .ok (fs.setFile p [])
  else .error ["No such file or directory"]

/-- `write_all` to an open file at a place. -/
def appendFile (fs : Fs) (p : AbsPath) (bs : Bytes) : Fs :=
  match fs.files p with
  | some old => fs.setFile p (old ++ bs)
  | none => fs

end Fs

/-! ## The reader's steps -/

/-- How the reader may end without success. -/
inductive Failure where
  /-- An `Err` with its messages. -/
  | error (e : AnyError)
  /-- A slice or an index out of bounds. -/
  | panic
  /-- A loop cut short. It is never reached: each round consumes input. -/
  | diverges
  deriving DecidableEq, Repr

/-- The reader's monad: a stream, and the tree it writes to. -/
abbrev ZipReader := EStateM Failure (Input Fs)

def bail {α : Type} (e : AnyError) : ZipReader α := throw (.error e)

/-- Lift a step on the file tree. -/
def onFs (f : Fs → Except AnyError Fs) : ZipReader Unit := do
  let s ← get
  match f s.env with
  | .ok fs => set { s with env := fs }
  | .error e => bail e

/-- `Err(e)` of an I/O call, as text. -/
def ioErrorText : IoError → String
  | .unexpectedEof => "failed to fill whole buffer"
  | .other => "io error"

/-- `read_exact`, as the source calls it. -/
def readExactRaw (n : Nat) : ZipReader (Except IoError Bytes) := fun s =>
  let (r, reader) := s.reader.readExact n
  .ok r { s with reader }

/-- `read_exact` under a context. -/
def readExact (context : String) (n : Nat) : ZipReader Bytes := do
  match ← readExactRaw n with
  | .ok bs => return bs
  | .error e => bail [context, ioErrorText e]

def readU16 : ZipReader Nat := do return leNat (← readExact "Failed to read u16" 2)
def readU32 : ZipReader Nat := do return leNat (← readExact "Failed to read u32" 4)
def readU64 : ZipReader Nat := do return leNat (← readExact "Failed to read u64" 8)

/-- `None` at an early end of the stream, wherever in the four bytes it comes. -/
def readU32Opt : ZipReader (Option Nat) := do
  match ← readExactRaw 4 with
  | .ok bs => return some (leNat bs)
  | .error .unexpectedEof => return none
  | .error e => bail ["Failed to read u32", ioErrorText e]

/-- The slice `bs[i..j]`. -/
def slice (bs : Bytes) (i j : Nat) : Except Failure Bytes :=
  if i ≤ j ∧ j ≤ bs.length then .ok ((bs.drop i).take (j - i)) else .error .panic

/-- The loop of `parse_zip64_sizes_from_extra`, at index `i`. Each round moves
on by four bytes at least. -/
def parseZip64Loop (extra : Bytes) : Nat → Nat → Except Failure (Nat × Nat)
  | 0, _ => .error .diverges
  | fuel + 1, i => do
    if i + 4 ≤ extra.length then
      let id := leNat (← slice extra i (i + 2))
      let len := leNat (← slice extra (i + 2) (i + 4))
      let i := i + 4
      if i + len > extra.length then
        throw (.error ["ZIP64 sizes missing from extra"])
      else if id = ZIP64_EXTRA_ID then
        if len < 16 then throw (.error ["Invalid ZIP64 extra length " ++ toString len])
        let uncompressed := leNat (← slice extra i (i + 8))
        let compressed := leNat (← slice extra (i + 8) (i + 16))
        return (compressed, uncompressed)
      else parseZip64Loop extra fuel (i + len)
    else throw (.error ["ZIP64 sizes missing from extra"])

/-- The compressed and the uncompressed size of the first ZIP64 field. -/
def parseZip64SizesFromExtra (extra : Bytes) : Except Failure (Nat × Nat) :=
  parseZip64Loop extra (extra.length + 1) 0

/-- The CRC and the two sizes of a data descriptor, whose signature may be
left out. -/
def readDataDescriptor (zip64 : Bool) : ZipReader (Nat × Nat × Nat) := do
  let first ← readU32
  let crc32 ← if first = ZIP_DATA_DESCRIPTOR_SIG then readU32 else pure first
  if zip64 then
    let csize ← readU64
    let usize ← readU64
    return (crc32, csize, usize)
  else
    let csize ← readU32
    let usize ← readU32
    return (crc32, csize, usize)

/-- The fields of a local header. -/
structure LocalHeader where
  flags : Nat
  method : Nat
  crc32 : Nat
  compressedSize : Nat
  uncompressedSize : Nat
  nameLen : Nat
  extraLen : Nat

/-- The fixed fields behind a local signature. -/
def readLocalHeader : ZipReader LocalHeader := do
  let _versionNeeded ← readU16
  let flags ← readU16
  let method ← readU16
  let _modTime ← readU16
  let _modDate ← readU16
  let headerCrc32 ← readU32
  let compressedSize ← readU32
  let uncompressedSize ← readU32
  let nameLen ← readU16
  let extraLen ← readU16
  return ⟨flags, method, headerCrc32, compressedSize, uncompressedSize, nameLen, extraLen⟩

/-- The reader's data buffer. -/
def READ_BUF_LEN : Nat := 1024 * 1024

/-- The slice of the first `k` bytes of the data buffer. -/
def bufSlice (k : Nat) : ZipReader Unit := if k ≤ READ_BUF_LEN then pure () else throw .panic

/-- One `read` into the first `k` bytes of the data buffer, under its context;
what it handed out is then taken from the buffer. -/
def readSome (k : Nat) : ZipReader Bytes := do
  bufSlice k
  let s ← get
  match s.reader.read k with
  | (.ok bs, reader) =>
    set { s with reader }
    bufSlice bs.length
    return bs
  | (.error e, reader) =>
    set { s with reader }
    bail ["Failed to read ZIP data", ioErrorText e]

/-- The data loop: `remaining` bytes are still to come. Returns the CRC
register. Every round takes a byte at least. -/
def readFileData (name : String) (out : AbsPath) : Nat → Nat → UInt32 → ZipReader UInt32
  | 0, 0, crc => pure crc
  | 0, _ + 1, _ => throw .diverges
  | fuel + 1, remaining, crc => do
    if remaining = 0 then return crc
    let bs ← readSome (min READ_BUF_LEN remaining)
    if bs.isEmpty then bail ["Unexpected EOF reading ZIP data for " ++ name]
    onFs fun fs => .ok (fs.appendFile out bs)
    readFileData name out fuel (remaining - bs.length) (crcUpdate crc bs)

/-- Whether the text of a path ends in a `.` piece. The system takes such a
path for a directory that has to exist. -/
def endsInDot (rel : String) : Bool := (splitAt '/' rel).getLast? = some "."

/-- `create_dir_all` of `dest_dir.join(rel)`. -/
def createDirFor (dest : AbsPath) (rel : String) : ZipReader Unit := do
  let dir := join dest rel
  if endsInDot rel && !(← get).env.dirs dir then
    onFs fun fs => fs.createDirAll dir.dropLast
    bail ["No such file or directory"]
  else onFs fun fs => fs.createDirAll dir

/-- `create_dir_all` of the parent of `dest_dir.join(rel)`. -/
def createParentFor (fs : Fs) (dest : AbsPath) (rel : String) : Except AnyError Fs :=
  fs.createDirAll (join dest rel).dropLast

/-- `File::create` at `dest_dir.join(rel)`. -/
def createOut (fs : Fs) (dest : AbsPath) (rel : String) : Except AnyError Fs :=
  let path := join dest rel
  match if endsInDot rel then .error ["Is a directory"] else fs.createFile path with
  | .ok fs => .ok fs
  | .error e => .error (withContext ("Failed to create " ++ "/" ++ joinWith "/" path) e)

/-- `str::trim_end_matches('/')`. -/
def trimEndSlashes (s : String) : String :=
  String.ofList (s.toList.reverse.dropWhile (· = '/')).reverse

/-- `?` on a result that needs no stream. -/
def liftResult {α : Type} : Except AnyError α → ZipReader α
  | .ok a => pure a
  | .error e => bail e

/-- `String::from_utf8` under its context. -/
def decodeName (nameBytes : Bytes) : ZipReader String :=
  match fromUtf8 nameBytes with
  | some s => pure s
  | none => bail ["ZIP filename is not UTF-8", "invalid utf-8 sequence"]

def checkMethod (method : Nat) : ZipReader Unit :=
  if method ≠ ZIP_METHOD_STORED then
    bail ["Unsupported ZIP method " ++ toString method ++ " (only stored supported)"]
  else pure ()

/-- The reader's rule for an entry: ZIP64 when a size field is all ones. -/
def headerZip64 (h : LocalHeader) : Bool :=
  h.compressedSize = 0xFFFFFFFF || h.uncompressedSize = 0xFFFFFFFF

/-- The two sizes of an entry, from the header or from its ZIP64 extra. -/
def entrySizes (h : LocalHeader) (extra : Bytes) : ZipReader (Nat × Nat) :=
  if headerZip64 h then
    match parseZip64SizesFromExtra extra with
    | .ok sizes => pure sizes
    | .error e => throw e
  else pure (h.compressedSize, h.uncompressedSize)

/-- The CRC and the sizes to check the data against. -/
def entryCheck (h : LocalHeader) (compressedSize uncompressedSize : Nat) :
    ZipReader (Nat × Nat × Nat) :=
  if h.flags &&& ZIP_FLAG_DATA_DESCRIPTOR ≠ 0 then readDataDescriptor (headerZip64 h)
  else pure (h.crc32, compressedSize, uncompressedSize)

def checkCrc (name : String) (crc32 computedCrc : Nat) : ZipReader Unit :=
  if crc32 ≠ computedCrc then
    bail ["CRC mismatch for " ++ name ++ ": expected " ++ formatHex 8 crc32 ++ ", got "
      ++ formatHex 8 computedCrc]
  else pure ()

def checkSizes (name : String) (compressedSize uncompressedSize ddCsize ddUsize : Nat) :
    ZipReader Unit :=
  if ddCsize ≠ compressedSize ∨ ddUsize ≠ uncompressedSize then
    bail ["Size mismatch for " ++ name ++ ": header c/u " ++ toString compressedSize ++ " / "
      ++ toString uncompressedSize ++ ", dd c/u " ++ toString ddCsize ++ " / "
      ++ toString ddUsize]
  else pure ()

/-- A directory entry. The writer makes none. -/
def extractDir (dest : AbsPath) (name : String) : ZipReader Unit := do
  let rel := trimEndSlashes name
  liftResult (validateRelPath rel)
  createDirFor dest rel

/-- A file entry: its data, and the check behind them. -/
def extractFile (dest : AbsPath) (name : String) (h : LocalHeader)
    (compressedSize uncompressedSize : Nat) : ZipReader Unit := do
  liftResult (validateRelPath name)
  onFs fun fs => createParentFor fs dest name
  onFs fun fs => createOut fs dest name
  let crc ← readFileData name (join dest name) compressedSize compressedSize crcInit
  let (crc32, ddCsize, ddUsize) ← entryCheck h compressedSize uncompressedSize
  checkCrc name crc32 (crcFinalize crc).toNat
  checkSizes name compressedSize uncompressedSize ddCsize ddUsize

/-- The arm of `extract_zip` behind a local signature. -/
def extractEntry (dest : AbsPath) : ZipReader Unit := do
  let h ← readLocalHeader
  let nameBytes ← readExact "Failed to read ZIP filename" h.nameLen
  let name ← decodeName nameBytes
  let extra ← readExact "Failed to read ZIP extra" h.extraLen
  checkMethod h.method
  let sizes ← entrySizes h extra
  if name.toList.getLast? = some '/' then extractDir dest name
  else extractFile dest name h sizes.1 sizes.2

/-- The loop of `extract_zip`. Every round but the last takes the four bytes of
a signature. -/
def extractLoop (dest : AbsPath) : Nat → ZipReader Unit
  | 0 => throw .diverges
  | fuel + 1 => do
    match ← readU32Opt with
    | none => return
    | some sig =>
      if sig = ZIP_LOCAL_FILE_HEADER_SIG then
        extractEntry dest
        extractLoop dest fuel
      else if sig = ZIP_CENTRAL_DIRECTORY_FILE_HEADER_SIG ∨ sig = ZIP_END_OF_CENTRAL_DIR_SIG
          ∨ sig = ZIP64_END_OF_CENTRAL_DIR_SIG ∨ sig = ZIP64_END_OF_CENTRAL_DIR_LOCATOR_SIG then
        return
      else bail ["Unexpected ZIP signature: 0x" ++ formatHex 8 sig]

/-- `extract_zip` into the place `dest`. -/
def extractZip (dest : AbsPath) : ZipReader Unit := do
  onFs fun fs => match fs.createDirAll dest with
    | .ok fs => .ok fs
    | .error e => .error (withContext ("Failed to create " ++ "/" ++ joinWith "/" dest) e)
  extractLoop dest ((← get).reader.rest.length + 1)

/-- The outcome of `extract_zip` on a stream and a tree, with the tree it
leaves. -/
def runExtract (dest : AbsPath) (reader : Reader) (fs : Fs) : Except Failure Unit × Fs :=
  match extractZip dest ⟨reader, fs⟩ with
  | .ok _ s => (.ok (), s.env)
  | .error e s => (.error e, s.env)

end Chbk
