import Mathlib.Data.List.Basic

/-!
# Errors, text and paths

The few pieces of Rust's standard library the program leans on, written over
the characters of a string: `strip_prefix`, `strip_suffix`, `split`, `lines`,
`trim`, number parsing and hexadecimal formatting; and `Path::components`.

* `AnyError` — an `anyhow` error as its chain of messages, outermost first.
* `components` — a Unix path taken apart the way `std::path` does it.
* `join` — `Path::join`, resolved to a place in the file tree.
-/

namespace Chbk

/-! ## Errors -/

/-- An `anyhow` error: its messages, the outermost context first. -/
abbrev AnyError := List String

/-- `with_context`. -/
def withContext (msg : String) (e : AnyError) : AnyError := msg :: e

/-- What a sequence that succeeds has passed through. -/
theorem except_bind_eq_ok {α β : Type} {x : Except AnyError α} {f : α → Except AnyError β} {b : β}
    (h : x >>= f = .ok b) : ∃ a, x = .ok a ∧ f a = .ok b := by
  cases x with
  | ok a => exact ⟨a, rfl, h⟩
  | error e => cases h

/-- A loop of checks passes when each of them does. -/
theorem forM_eq_ok {α : Type} {f : α → Except AnyError Unit} {l : List α} :
    l.forM f = .ok () ↔ ∀ a ∈ l, f a = .ok () := by
  induction l with
  | nil => simp [pure, Except.pure]
  | cons a l ih =>
    rw [List.forall_mem_cons, ← ih]
    cases h : f a with
    | ok u => simp [List.forM, h, bind, Except.bind]
    | error e => simp [List.forM, h, bind, Except.bind]

/-! ## Strings -/

/-- `str::strip_prefix`. -/
def stripPrefix? (s p : String) : Option String :=
  if p.toList.isPrefixOf s.toList then
    some (String.ofList (s.toList.drop p.toList.length))
  else none

/-- `str::strip_suffix`. -/
def stripSuffix? (s p : String) : Option String :=
  if p.toList.isSuffixOf s.toList then
    some (String.ofList (s.toList.take (s.toList.length - p.toList.length)))
  else none

/-- `str::starts_with`. -/
def startsWith (s p : String) : Bool := p.toList.isPrefixOf s.toList

/-- `str::split` at one character. -/
def splitAt (c : Char) (s : String) : List String :=
  (s.toList.splitOn c).map String.ofList

/-- `join` of pieces with a separator. -/
def joinWith (sep : String) : List String → String
  | [] => ""
  | [s] => s
  | s :: t :: ts => s ++ sep ++ joinWith sep (t :: ts)

theorem splitAt_ne_nil (s : String) : splitAt '/' s ≠ [] := by
  unfold splitAt
  intro h
  exact List.splitOn_ne_nil _ _ (List.map_eq_nil_iff.mp h)

theorem splitAt_append_slash (a b : String) :
    splitAt '/' (a ++ "/" ++ b) = splitAt '/' a ++ splitAt '/' b := by
  have hsep : "/".toList = ['/'] := rfl
  unfold splitAt
  rw [String.toList_append, String.toList_append, hsep, List.append_assoc, List.singleton_append,
    List.splitOn_append_cons_self, List.map_append]

theorem toList_joinWith (ss : List String) :
    (joinWith "/" ss).toList = ['/'].intercalate (ss.map String.toList) := by
  induction ss with
  | nil => rfl
  | cons s ss ih =>
    cases ss with
    | nil => simp [joinWith]
    | cons t ts => simp [joinWith, String.toList_append, ih, List.intercalate]

theorem splitAt_joinWith {ss : List String} (hne : ss ≠ []) (h : ∀ s ∈ ss, '/' ∉ s.toList) :
    splitAt '/' (joinWith "/" ss) = ss := by
  rw [splitAt, toList_joinWith, List.splitOn_intercalate]
  · simp [Function.comp_def]
  · simpa using h
  · simpa using hne

/-- Taken apart at the slashes and joined again. -/
theorem joinWith_splitAt (s : String) : joinWith "/" (splitAt '/' s) = s := by
  apply String.toList_injective
  rw [toList_joinWith, splitAt, List.map_map]
  have hid : String.toList ∘ String.ofList = id := funext fun l => String.toList_ofList
  rw [hid, List.map_id, List.intercalate_splitOn]

/-- The bytes of a string. -/
def utf8 (s : String) : List UInt8 := s.toUTF8.data.toList

/-- `String::from_utf8`. -/
def fromUtf8 (bs : List UInt8) : Option String := String.fromUTF8? ⟨bs.toArray⟩

theorem fromUtf8_utf8 (s : String) : fromUtf8 (utf8 s) = some s := by
  have hb : (⟨(utf8 s).toArray⟩ : ByteArray) = s.toUTF8 := by
    simp [utf8]
  rw [fromUtf8, hb, String.fromUTF8?, String.toUTF8_eq_toByteArray, dif_pos s.isValidUTF8]
  rfl

theorem utf8_injective {s t : String} (h : utf8 s = utf8 t) : s = t := by
  have hs := fromUtf8_utf8 s
  rw [h, fromUtf8_utf8] at hs
  exact (Option.some.inj hs).symm

/-- ASCII characters are a byte each. -/
theorem utf8_of_ascii {s : String} (h : ∀ c ∈ s.toList, c.toNat < 128) :
    utf8 s = s.toList.map fun c => UInt8.ofNat c.toNat := by
  have hbytes : utf8 s = s.toList.flatMap String.utf8EncodeChar := by
    unfold utf8
    rw [String.toUTF8_eq_toByteArray, ← String.utf8Encode_toList, List.utf8Encode]
    simp
  rw [hbytes, List.map_eq_flatMap]
  refine List.flatMap_congr fun c hc => ?_
  have hlow : c.toNat ≤ 127 := Nat.le_of_lt_succ (h c hc)
  simp [String.utf8EncodeChar, hlow]

/-- `char::is_whitespace`. -/
def isWhitespace (c : Char) : Bool :=
  let n := c.toNat
  (0x9 ≤ n && n ≤ 0xD) || n = 0x20 || n = 0x85 || n = 0xA0 || n = 0x1680 ||
    (0x2000 ≤ n && n ≤ 0x200A) || n = 0x2028 || n = 0x2029 || n = 0x202F || n = 0x205F || n = 0x3000

/-- `str::trim`. -/
def trim (s : String) : String :=
  String.ofList ((s.toList.dropWhile isWhitespace).reverse.dropWhile isWhitespace).reverse

/-- One line without its line end: the `\n` is gone already, a `\r` before it
goes too. -/
def stripCr (l : List Char) : List Char :=
  if l.getLast? = some '\r' then l.dropLast else l

/-- The pieces between line feeds as lines: all but the last one ended in a
line feed, and an empty last one is no line. -/
def linesOf : List (List Char) → List (List Char)
  | [] => []
  | [l] => if l.isEmpty then [] else [l]
  | l :: l' :: ls => stripCr l :: linesOf (l' :: ls)

/-- `str::lines`. -/
def lines (s : String) : List String :=
  (linesOf (s.toList.splitOn '\n')).map String.ofList

/-! ## Numbers -/

/-- The digits of an unsigned number below `bound`, read from the left. -/
def parseDigits (bound : Nat) : Nat → List Char → Except String Nat
  | acc, [] => .ok acc
  | acc, c :: cs =>
    if c.isDigit then
      let acc' := acc * 10 + (c.toNat - '0'.toNat)
      if acc' < bound then parseDigits bound acc' cs
      else .error "number too large to fit in target type"
    else .error "invalid digit found in string"

/-- `str::parse` into an unsigned type of `bound` values: digits, after an
optional plus sign. -/
def parseUnsigned (bound : Nat) (s : String) : Except String Nat :=
  match s.toList with
  | [] => .error "cannot parse integer from empty string"
  | ['+'] => .error "invalid digit found in string"
  | '+' :: cs => parseDigits bound 0 cs
  | cs => parseDigits bound 0 cs

/-- One lowercase hexadecimal digit. -/
def hexChar (n : Nat) : Char :=
  if n < 10 then Char.ofNat ('0'.toNat + n) else Char.ofNat ('a'.toNat + (n - 10))

/-- The `w` low hexadecimal digits of `n`. -/
def hexDigits : Nat → Nat → List Char
  | 0, _ => []
  | w + 1, n => hexDigits w (n / 16) ++ [hexChar (n % 16)]

/-- `{:0wx}`, for a number of at most `w` digits. -/
def formatHex (w n : Nat) : String := String.ofList (hexDigits w n)

/-- `char::is_ascii_hexdigit`. -/
def isAsciiHexdigit (c : Char) : Bool :=
  c.isDigit || ('a' ≤ c && c ≤ 'f') || ('A' ≤ c && c ≤ 'F')

/-! ## Paths -/

/-- `std::path::Component`, on Unix. -/
inductive Component where
  | rootDir
  | curDir
  | parentDir
  | normal (s : String)
  deriving DecidableEq, Repr

/-- The component a piece between slashes stands for, past the first one: empty
pieces and `.` are dropped. -/
def pieceComponent (piece : String) : Option Component :=
  if piece = "" ∨ piece = "." then none
  else if piece = ".." then some .parentDir
  else some (.normal piece)

/-- `Path::components`. A `.` counts only where it begins a relative path. -/
def components (path : String) : List Component :=
  match splitAt '/' path with
  | [] => []
  | first :: rest =>
    (if startsWith path "/" then [Component.rootDir]
      else if first = "." then [Component.curDir]
      else (pieceComponent first).toList) ++ rest.filterMap pieceComponent

/-- A place in the file tree: the names on the way down from the root. -/
abbrev AbsPath := List String

/-- Follow one component from a place in the tree. -/
def stepTo (p : AbsPath) : Component → AbsPath
  | .rootDir => []
  | .curDir => p
  | .parentDir => p.dropLast
  | .normal s => p ++ [s]

/-- The place `dest.join(rel)` names: an absolute `rel` replaces `dest`. -/
def join (dest : AbsPath) (rel : String) : AbsPath := (components rel).foldl stepTo dest

end Chbk
