import Chbk.Model.World

/-!
# `clickhouse.rs`

The queries the program sends to ClickHouse, and what it makes of the answers.

* `queryActiveParts` — the parts in an answer to the parts query. A line that
  does not parse is passed over; a row with a null hash is skipped; a hash that
  is no hash fails the whole.
* `queryExistingTables` — the tables in an answer to the tables query.

The JSON library is a parameter (`Json`): its parser and its printer.
-/

namespace Chbk

open Lib

/-! ## JSON values -/

/-- `serde_json::Number`. A float is known by how it prints. -/
inductive Number where
  | posInt (n : UInt64)
  | negInt (n : Int)
  | float (text : String)
  deriving DecidableEq, Repr

/-- `serde_json::Value`. -/
inductive Value where
  | null
  | bool (b : Bool)
  | number (n : Number)
  | string (s : String)
  | array (items : List Value)
  | object (fields : List (String × Value))

namespace Number

def text : Number → String
  | posInt n => toString n.toNat
  | negInt n => toString n
  | float t => t

end Number

namespace Value

/-- `json[key]`: null where there is no such member, or no object. -/
def index : Value → String → Value
  | object fields, key => (fields.lookup key).getD null
  | _, _ => null

def asStr : Value → Option String
  | string s => some s
  | _ => none

def asU64 : Value → Option Nat
  | number (.posInt n) => some n.toNat
  | _ => none

/-- `as_str().unwrap_or(d)`. -/
def strOr (v : Value) (d : String) : String := v.asStr.getD d

end Value

/-- The JSON library. -/
structure Json where
  fromStr : String → Option Value
  toStr : Value → String

/-! ## The queries -/

/-- What the queries and the commands use of the configuration. -/
structure Config where
  s3Bucket : Option String
  s3Region : Option String
  s3AccessKeyId : Option String
  s3SecretAccessKey : Option String
  chDataPath : String
  outputDir : String
  useClickhouseLocal : Bool
  onlyTablesPattern : Option String
  ignoreTablesPattern : Option String
  partConcurrency : Nat
  deleteConcurrency : Nat
  multipartPartConcurrency : Nat
  uploadMinChunkSize : Nat
  uploadMaxChunkSize : Nat
  uploadTargetParts : Nat
  shard : Option String
  replica : Option String
  deriving DecidableEq, Repr

/-- `to_ascii_lowercase`. -/
def toAsciiLowercase (s : String) : String :=
  String.ofList (s.toList.map fun c =>
    if 'A' ≤ c ∧ c ≤ 'Z' then Char.ofNat (c.toNat + 32) else c)

/-- A pattern of the command line: none of it is left if it is blank, or "none". -/
def normalizePattern (s : String) : Option String :=
  let trimmed := trim s
  if trimmed = "" ∨ toAsciiLowercase trimmed = "none" then none else some trimmed

/-- The patterns that `from_args` makes of `--only` and `--ignore`. -/
def Config.withPatterns (cfg : Config) (only : Option String) (ignore : String) : Config :=
  { cfg with
    onlyTablesPattern := only.bind normalizePattern
    ignoreTablesPattern := normalizePattern ignore }

/-- `str::replace` of one character. -/
def replaceChar (c : Char) (by_ : String) (s : String) : String :=
  String.ofList (s.toList.flatMap fun d => if d = c then by_.toList else [d])

/-- A pattern between single quotes; an empty one matches all. -/
def escapePattern (pattern : String) : String :=
  let esc := replaceChar '\'' "''" pattern
  if esc = "" then ".*" else esc

def activePartsConditions (cfg : Config) : List String :=
  ["active = 1"]
    ++ (cfg.onlyTablesPattern.map fun p =>
      "match(database || '.' || table, '" ++ escapePattern p ++ "')").toList
    ++ (cfg.ignoreTablesPattern.map fun p =>
      "NOT match(database || '.' || table, '" ++ escapePattern p ++ "')").toList

def activePartsQuery (cfg : Config) : String :=
  "\n        SELECT database, table, name, path, hash_of_all_files,\n"
    ++ "               bytes_on_disk, rows\n"
    ++ "        FROM system.parts\n"
    ++ "        WHERE " ++ joinWith "\n            AND " (activePartsConditions cfg) ++ "\n"
    ++ "        ORDER BY level ASC -- newest parts first so we're less likely to hit a part "
    ++ "that's already been merged into a larger part by the time we try to stage (hard link) it\n"
    ++ "        FORMAT JSONEachRow\n        "

def macrosQuery : String :=
  "SELECT macro, substitution FROM system.macros FORMAT JSONEachRow"

def existingTablesQuery : String :=
  "\n        SELECT database, name\n"
    ++ "        FROM system.tables\n"
    ++ "        WHERE database NOT IN ('system', 'INFORMATION_SCHEMA', 'information_schema')\n"
    ++ "        FORMAT JSONEachRow\n    "

/-! ## Reading the answers -/

def parseU64 (v : Value) : UInt64 :=
  match v.asU64 with
  | some n => UInt64.ofNat n
  | none =>
    match v with
    | .string s =>
      match parseUnsigned (2 ^ 64) s with
      | .ok n => UInt64.ofNat n
      | .error _ => 0
    | _ => 0

/-- The hash in a text: 32 hex digits, or a 128-bit number in decimal. -/
def hashOfText (raw : String) : Except AnyError String :=
  let s := trim raw
  if (utf8 s).length = 32 ∧ s.toList.all isAsciiHexdigit then .ok (toAsciiLowercase s)
  else
    match parseUnsigned (2 ^ 128) s with
    | .ok n => .ok (formatHex 32 n)
    | .error e => .error ["Failed to parse hash_of_all_files UInt128: " ++ s, e]

/-- `None` for a null hash. -/
def parseHashOfAllFilesHex (json : Json) : Value → Except AnyError (Option String)
  | .null => .ok none
  | .string s => (hashOfText s).map some
  | .number n => (hashOfText n.text).map some
  | v => .error ["hash_of_all_files has unexpected type: " ++ json.toStr v]

/-- What one row makes: a part, nothing for a null hash, or a failure. -/
def partOfRow (json : Json) (row : Value) : Except AnyError (Option PartInfo) :=
  match parseHashOfAllFilesHex json (row.index "hash_of_all_files") with
  | .error e => .error e
  | .ok none => .ok none
  | .ok (some hash) => .ok (some
      { database := (row.index "database").strOr ""
        table := (row.index "table").strOr ""
        name := (row.index "name").strOr ""
        path := (row.index "path").strOr ""
        hashOfAllFiles := hash
        bytesOnDisk := parseU64 (row.index "bytes_on_disk")
        rowsCount := parseU64 (row.index "rows") })

/-- The loop over the lines of the answer to the parts query. -/
def partsOfLines (json : Json) : List String → Except AnyError (List PartInfo)
  | [] => .ok []
  | line :: ls =>
    match json.fromStr line with
    | none => partsOfLines json ls
    | some row =>
      match partOfRow json row with
      | .error e => .error e
      | .ok part => (partsOfLines json ls).map fun ps => part.toList ++ ps

/-- `query_active_parts`, from what `run_query` returned. -/
def queryActiveParts (json : Json) (answer : Except AnyError String) :
    Except AnyError (List PartInfo) :=
  answer.bind fun text => partsOfLines json (lines text)

/-- The two strings a row holds under two keys. -/
def pairOfRow (row : Value) (k₁ k₂ : String) : Option (String × String) :=
  match (row.index k₁).asStr, (row.index k₂).asStr with
  | some a, some b => some (a, b)
  | _, _ => none

/-- The pairs in the lines that have one. -/
def pairsOfText (json : Json) (k₁ k₂ : String) (text : String) : List (String × String) :=
  (lines text).filterMap fun line => (json.fromStr line).bind fun row => pairOfRow row k₁ k₂

/-- `query_macros`: later rows win. -/
def queryMacros (json : Json) (answer : Except AnyError String) :
    Except AnyError (List (String × String)) :=
  answer.map fun text => (pairsOfText json "macro" "substitution" text).reverse

/-- `query_existing_tables`, as the list of its pairs. -/
def queryExistingTables (json : Json) (answer : Except AnyError String) :
    Except AnyError (List (String × String)) :=
  answer.map (pairsOfText json "database" "name")

/-! ## Attaching a part -/

def attachPartQuery (database table partName : String) : String :=
  "ALTER TABLE `" ++ replaceChar '`' "``" database ++ "`.`" ++ replaceChar '`' "``" table
    ++ "` ATTACH PART '" ++ replaceChar '\'' "''" partName ++ "'"

/-- Any answer that is not blank is a failure. -/
def attachPart (database table partName : String) : P Unit := do
  let result ← liftP (← askEnv (.runQuery (attachPartQuery database table partName)))
  if trim result ≠ "" then throw ["ATTACH PART failed: " ++ trim result]

end Chbk
