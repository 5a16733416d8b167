import Chbk.Lib.Fields
import Chbk.Zip.Layout

/-!
# Reading an archive from its end

The ZIP format's own way in: the end record, with the ZIP64 record where a field
is all ones, then the central directory it points to. No function of the program
does this; other readers of the archives do.

* `readDirectory` — the whole way. An all-ones field is looked up in the ZIP64
  record or extra field, where it has to be; any other value is taken as it is.
* `Directory` — what is read: where the directory is, and its entries.
-/

namespace Chbk

open Lib

-- ---------------------------------------------------------------------------
-- The end of the archive
-- ---------------------------------------------------------------------------

/-- What a reader learns of one entry. -/
structure DirEntry where
  name : Bytes
  crc32 : Nat
  compressedSize : Nat
  uncompressedSize : Nat
  localHeaderOffset : Nat
  deriving DecidableEq, Repr

/-- What a reader learns of the archive. -/
structure Directory where
  offset : Nat
  size : Nat
  count : Nat
  entries : List DirEntry
  deriving DecidableEq, Repr

/-- The counts, the size and the offset of an end record. -/
structure EndRecord where
  onDisk : Nat
  count : Nat
  size : Nat
  offset : Nat
  deriving DecidableEq, Repr

def readEndRecord (bs : Bytes) : Option EndRecord :=
  match decodeFields [4, 2, 2, 2, 2, 4, 4, 2] bs with
  | some ([sig, _, _, onDisk, count, size, offset, commentLen], _) =>
    if sig = ZIP_END_OF_CENTRAL_DIR_SIG ∧ commentLen = 0 then some ⟨onDisk, count, size, offset⟩
    else none
  | _ => none

/-- The place of the ZIP64 end record. -/
def readLocator (bs : Bytes) : Option Nat :=
  match decodeFields [4, 4, 8, 4] bs with
  | some ([sig, _, offset, _], _) =>
    if sig = ZIP64_END_OF_CENTRAL_DIR_LOCATOR_SIG then some offset else none
  | _ => none

def readZip64EndRecord (bs : Bytes) : Option EndRecord :=
  match decodeFields [4, 8, 2, 2, 4, 4, 8, 8, 8, 8] bs with
  | some ([sig, _, _, _, _, _, onDisk, count, size, offset], _) =>
    if sig = ZIP64_END_OF_CENTRAL_DIR_SIG then some ⟨onDisk, count, size, offset⟩ else none
  | _ => none

/-- Some field of an end record is all ones. -/
def EndRecord.needsZip64 (r : EndRecord) : Bool :=
  r.onDisk = U16_MAX || r.count = U16_MAX || r.size = U32_MAX || r.offset = U32_MAX

/-- An all-ones field is taken from the ZIP64 record. -/
def EndRecord.merge (r r64 : EndRecord) : EndRecord :=
  ⟨if r.onDisk = U16_MAX then r64.onDisk else r.onDisk,
    if r.count = U16_MAX then r64.count else r.count,
    if r.size = U32_MAX then r64.size else r.size,
    if r.offset = U32_MAX then r64.offset else r.offset⟩

/-- The end record of an archive without a comment, and where the directory
ends. -/
def readEnd (bs : Bytes) : Option (EndRecord × Nat) :=
  if bs.length < 22 then none
  else
    match readEndRecord (bs.drop (bs.length - 22)) with
    | none => none
    | some r =>
      if r.needsZip64 then
        if bs.length < 42 then none
        else
          match readLocator (bs.drop (bs.length - 42)) with
          | none => none
          | some pos => (readZip64EndRecord (bs.drop pos)).map fun r64 => (r.merge r64, pos)
      else some (r, bs.length - 22)

-- ---------------------------------------------------------------------------
-- The central directory
-- ---------------------------------------------------------------------------

/-- The payload of the first ZIP64 block of an extra field. -/
def findZip64 : Nat → Bytes → Option Bytes
  | 0, _ => none
  | fuel + 1, extra =>
    match decodeFields [2, 2] extra with
    | some ([id, len], rest) =>
      if rest.length < len then none
      else if id = ZIP64_EXTRA_ID then some (rest.take len)
      else findZip64 fuel (rest.drop len)
    | _ => none

/-- A field, and what is left of the ZIP64 payload behind it. -/
def resolveField (field : Nat) (payload : Option Bytes) : Option (Nat × Option Bytes) :=
  if field = U32_MAX then
    match payload.bind (decodeFields [8]) with
    | some ([v], rest) => some (v, some rest)
    | _ => none
  else some (field, payload)

/-- The sizes and the offset of a record, in the order of the ZIP64 payload. -/
def resolveFields (uncompressedSize compressedSize offset : Nat) (extra : Bytes) :
    Option (Nat × Nat × Nat) := do
  let payload := findZip64 extra.length extra
  let (uncompressedSize, payload) ← resolveField uncompressedSize payload
  let (compressedSize, payload) ← resolveField compressedSize payload
  let (offset, _) ← resolveField offset payload
  return (uncompressedSize, compressedSize, offset)

/-- One central record, and what is behind it. -/
def readCentralEntry (bs : Bytes) : Option (DirEntry × Bytes) :=
  match decodeFields [4, 2, 2, 2, 2, 2, 2, 4, 4, 4, 2, 2, 2, 2, 2, 4, 4] bs with
  | some ([sig, _, _, _, _, _, _, crc32, csize, usize, nameLen, extraLen, commentLen, _, _, _,
      offset], rest) =>
    if sig = ZIP_CENTRAL_DIRECTORY_FILE_HEADER_SIG ∧
        nameLen + extraLen + commentLen ≤ rest.length then
      (resolveFields usize csize offset ((rest.drop nameLen).take extraLen)).map fun x =>
        (⟨rest.take nameLen, crc32, x.2.1, x.1, x.2.2⟩,
          rest.drop (nameLen + extraLen + commentLen))
    else none
  | _ => none

/-- So many central records, and nothing behind them. -/
def readCentral : Nat → Bytes → Option (List DirEntry)
  | 0, bs => if bs = [] then some [] else none
  | n + 1, bs =>
    match readCentralEntry bs with
    | none => none
    | some (e, rest) => (readCentral n rest).map (e :: ·)

/-- The directory of an archive. It ends where the end records begin. -/
def readDirectory (bs : Bytes) : Option Directory :=
  match readEnd bs with
  | none => none
  | some (r, pos) =>
    if r.onDisk = r.count ∧ r.offset + r.size = pos then
      (readCentral r.count ((bs.drop r.offset).take r.size)).map fun es =>
        ⟨r.offset, r.size, r.count, es⟩
    else none

end Chbk
