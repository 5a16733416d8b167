import Chbk.Lib.Quoting
import Chbk.Model.Clickhouse

/-!
# Strings between quotes in SQL

The queries put table patterns and the names of databases, tables and parts
between quotes. The quotes in them are doubled; the backslashes are not, though
the server takes a backslash for the start of an escape.

* `Slot` — a place of a query where the code puts a string between quotes.
* `Slot.ReadAs` — the server reads one token there, which ends where the code
  ends it and has the given value.
* `slots_readAs_iff` — each place of the two queries is read as what it was given
  exactly when no backslash escapes anything.
-/

namespace Chbk

open Lib

-- ---------------------------------------------------------------------------
-- Slots
-- ---------------------------------------------------------------------------

/-- The two quotes of SQL. -/
inductive SqlQuote where
  | literal
  | identifier
  deriving DecidableEq, Repr

namespace SqlQuote

def char : SqlQuote → Char
  | literal => '\''
  | identifier => '`'

def text : SqlQuote → String
  | literal => "'"
  | identifier => "`"

/-- The server's rules for what stands between them. `control` is what a letter
stands for behind a backslash. -/
def rules (control : Char → Option Char) (q : SqlQuote) : Quotes Char where
  quote := q.char
  backslash := '\\'
  apart := by cases q <;> decide
  control := control

end SqlQuote

/-- A place of a query: the string the code is given for it, what the code
writes between the quotes, and what it writes behind the closing quote. -/
structure Slot where
  quote : SqlQuote
  given : String
  written : String
  after : String
  deriving DecidableEq, Repr

namespace Slot

/-- The query from the opening quote on. -/
def text (s : Slot) : String := s.quote.text ++ (s.written ++ (s.quote.text ++ s.after))

/-- The query has this place. -/
def In (s : Slot) (sql : String) : Prop := ∃ before : String, sql = before ++ s.text

/-- The server reads one token that ends at the code's closing quote and has the
value `v`. -/
def ReadAs (control : Char → Option Char) (s : Slot) (v : String) : Prop :=
  (s.quote.rules control).lexQuoted s.text.toList = some (v.toList, s.after.toList)

/-- Every backslash of the given string stands before a character it does not
escape. -/
def Harmless (control : Char → Option Char) (s : Slot) : Prop :=
  (s.quote.rules control).Harmless s.given.toList

end Slot

-- ---------------------------------------------------------------------------
-- The slots of the two queries
-- ---------------------------------------------------------------------------

/-- The places of the query that attaches a part. -/
def attachSlots (database table partName : String) : List Slot :=
  let part := "'" ++ (replaceChar '\'' "''" partName ++ "'")
  let tbl := "`" ++ (replaceChar '`' "``" table ++ ("`" ++ (" ATTACH PART " ++ part)))
  [⟨.identifier, database, replaceChar '`' "``" database, "." ++ tbl⟩,
    ⟨.identifier, table, replaceChar '`' "``" table, " ATTACH PART " ++ part⟩,
    ⟨.literal, partName, replaceChar '\'' "''" partName, ""⟩]

/-- The parts query up to the first pattern. -/
def partsQueryStart : String :=
  "\n        SELECT database, table, name, path, hash_of_all_files,\n"
    ++ "               bytes_on_disk, rows\n        FROM system.parts\n        WHERE active = 1"

/-- The parts query behind its conditions. -/
def partsQueryEnd : String :=
  "\n        ORDER BY level ASC -- newest parts first so we're less likely to hit a part "
    ++ "that's already been merged into a larger part by the time we try to stage (hard link) it\n"
    ++ "        FORMAT JSONEachRow\n        "

def onlyStart : String := "\n            AND match(database || '.' || table, "

def ignoreStart : String := "\n            AND NOT match(database || '.' || table, "

/-- The place of a pattern, in front of `rest`. -/
def patternSlot (rest p : String) : Slot := ⟨.literal, p, escapePattern p, ")" ++ rest⟩

/-- The condition of a pattern, with `rest` behind it. -/
def patternCondition (start : String) (pattern : Option String) (rest : String) : String :=
  match pattern with
  | some p => start ++ (patternSlot rest p).text
  | none => rest

/-- What stands behind the pattern of the tables to back up. -/
def behindOnly (cfg : Config) : String :=
  patternCondition ignoreStart cfg.ignoreTablesPattern partsQueryEnd

/-- The places of the parts query. -/
def partsSlots (cfg : Config) : List Slot :=
  (cfg.onlyTablesPattern.map (patternSlot (behindOnly cfg))).toList
    ++ (cfg.ignoreTablesPattern.map (patternSlot partsQueryEnd)).toList

theorem attachSlots_in {database table partName : String} {s : Slot}
    (h : s ∈ attachSlots database table partName) :
    s.In (attachPartQuery database table partName) := by
  have hopen : "ALTER TABLE `" = "ALTER TABLE " ++ "`" := by decide
  have hbetween : "`.`" = "`" ++ ("." ++ "`") := by decide
  have hattach : "` ATTACH PART '" = "`" ++ (" ATTACH PART " ++ "'") := by decide
  simp only [attachSlots, List.mem_cons, List.not_mem_nil, or_false] at h
  unfold attachPartQuery
  rw [hopen, hbetween, hattach]
  rcases h with rfl | rfl | rfl
  · refine ⟨"ALTER TABLE ", ?_⟩
    simp only [Slot.text, SqlQuote.text, String.append_assoc]
  · refine ⟨"ALTER TABLE " ++ "`" ++ replaceChar '`' "``" database ++ "`" ++ ".", ?_⟩
    simp only [Slot.text, SqlQuote.text, String.append_assoc]
  · refine ⟨"ALTER TABLE " ++ "`" ++ replaceChar '`' "``" database ++ "`" ++ "." ++ "`"
      ++ replaceChar '`' "``" table ++ "`" ++ " ATTACH PART ", ?_⟩
    simp only [Slot.text, SqlQuote.text, String.append_assoc, String.append_empty]

/-- The conditions, pattern by pattern. -/
theorem joinConditions (cfg : Config) (rest : String) :
    joinWith "\n            AND " (activePartsConditions cfg) ++ rest =
      "active = 1" ++ patternCondition onlyStart cfg.onlyTablesPattern
        (patternCondition ignoreStart cfg.ignoreTablesPattern rest) := by
  have hclose : ∀ more : String, "')" ++ more = "'" ++ (")" ++ more) := by
    intro more
    rw [← String.append_assoc]
    rfl
  have honly : ∀ more : String, "\n            AND " ++
      ("match(database || '.' || table, '" ++ more) = onlyStart ++ ("'" ++ more) := by
    intro more
    rw [← String.append_assoc, ← String.append_assoc]
    rfl
  have hignore : ∀ more : String, "\n            AND " ++
      ("NOT match(database || '.' || table, '" ++ more) = ignoreStart ++ ("'" ++ more) := by
    intro more
    rw [← String.append_assoc, ← String.append_assoc]
    rfl
  unfold activePartsConditions patternCondition
  cases cfg.onlyTablesPattern with
  | none =>
    cases cfg.ignoreTablesPattern with
    | none => rfl
    | some p' =>
      show "active = 1" ++ "\n            AND " ++
        ("NOT match(database || '.' || table, '" ++ escapePattern p' ++ "')") ++ rest = _
      simp only [Slot.text, SqlQuote.text, patternSlot, String.append_assoc, hclose, hignore]
  | some p =>
    cases cfg.ignoreTablesPattern with
    | none =>
      show "active = 1" ++ "\n            AND " ++
        ("match(database || '.' || table, '" ++ escapePattern p ++ "')") ++ rest = _
      simp only [Slot.text, SqlQuote.text, patternSlot, String.append_assoc, hclose, honly]
    | some p' =>
      show "active = 1" ++ "\n            AND " ++
        ("match(database || '.' || table, '" ++ escapePattern p ++ "')" ++ "\n            AND " ++
          ("NOT match(database || '.' || table, '" ++ escapePattern p' ++ "')")) ++ rest = _
      simp only [Slot.text, SqlQuote.text, patternSlot, String.append_assoc, hclose, honly,
        hignore]

theorem activePartsQuery_eq (cfg : Config) :
    activePartsQuery cfg = partsQueryStart ++
      patternCondition onlyStart cfg.onlyTablesPattern (behindOnly cfg) := by
  have hstart : partsQueryStart =
      "\n        SELECT database, table, name, path, hash_of_all_files,\n"
        ++ ("               bytes_on_disk, rows\n" ++ ("        FROM system.parts\n"
        ++ ("        WHERE " ++ "active = 1"))) := by decide +kernel
  have hend : partsQueryEnd = "\n" ++
      ("        ORDER BY level ASC -- newest parts first so we're less likely to hit a part "
        ++ ("that's already been merged into a larger part by the time we try to stage (hard link) it\n"
        ++ "        FORMAT JSONEachRow\n        ")) := by decide +kernel
  have hconditions := joinConditions cfg partsQueryEnd
  rw [hend] at hconditions
  unfold behindOnly activePartsQuery
  rw [hstart, hend]
  simp only [String.append_assoc] at hconditions ⊢
  rw [hconditions]

theorem patternCondition_some (start p rest : String) :
    patternCondition start (some p) rest = start ++ (patternSlot rest p).text := rfl

theorem partsSlots_in {cfg : Config} {s : Slot} (h : s ∈ partsSlots cfg) :
    s.In (activePartsQuery cfg) := by
  rw [activePartsQuery_eq]
  rcases List.mem_append.mp h with h | h
  · obtain ⟨p, hp, rfl⟩ := Option.map_eq_some_iff.mp (Option.mem_toList.mp h)
    rw [hp, patternCondition_some, ← String.append_assoc]
    exact ⟨_, rfl⟩
  · obtain ⟨p, hp, rfl⟩ := Option.map_eq_some_iff.mp (Option.mem_toList.mp h)
    unfold behindOnly
    rw [hp, patternCondition_some]
    cases cfg.onlyTablesPattern with
    | none =>
      show Slot.In _ (partsQueryStart ++ (ignoreStart ++ (patternSlot partsQueryEnd p).text))
      rw [← String.append_assoc]
      exact ⟨_, rfl⟩
    | some p' =>
      -- the second pattern stands in what is behind the first
      refine ⟨partsQueryStart ++ onlyStart ++ "'" ++ escapePattern p' ++ "'" ++ ")" ++ ignoreStart,
        ?_⟩
      simp only [patternCondition_some, Slot.text, SqlQuote.text, patternSlot,
        String.append_assoc]

-- ---------------------------------------------------------------------------
-- What the server reads
-- ---------------------------------------------------------------------------

variable {control : Char → Option Char}

theorem toList_replaceChar (q : SqlQuote) (s : String) :
    (replaceChar q.char (String.ofList [q.char, q.char]) s).toList =
      (q.rules control).doubled s.toList := by
  unfold replaceChar Quotes.doubled
  rw [String.toList_ofList, String.toList_ofList]
  refine congrArg (fun f => s.toList.flatMap f) (funext fun c => ?_)
  by_cases hc : c = q.char
  · rw [if_pos hc, if_pos (show c = (q.rules control).quote from hc), hc]
  · rw [if_neg hc, if_neg (show ¬c = (q.rules control).quote from hc)]

theorem toList_text (s : Slot) : s.text.toList =
    s.quote.char :: (s.written.toList ++ s.quote.char :: s.after.toList) := by
  have hquote : s.quote.text.toList = [s.quote.char] := by cases s.quote <;> rfl
  unfold Slot.text
  rw [String.toList_append, String.toList_append, String.toList_append, hquote]
  rfl

/-- A place where the quotes are doubled, with something else behind it than one
more quote. -/
theorem readAs_given_iff {s : Slot}
    (hwritten : s.written = replaceChar s.quote.char (String.ofList [s.quote.char, s.quote.char])
      s.given) (hafter : s.after.toList.head? ≠ some s.quote.char) :
    s.ReadAs control s.given ↔ s.Harmless control := by
  have htext : s.text.toList = s.quote.char ::
      ((s.quote.rules control).doubled s.given.toList ++ s.quote.char :: s.after.toList) := by
    rw [← toList_replaceChar, ← hwritten]
    exact toList_text s
  have hlex : (s.quote.rules control).lexQuoted s.text.toList =
      (s.quote.rules control).lexBody ((s.quote.rules control).doubled s.given.toList ++
        (s.quote.rules control).quote :: s.after.toList) := by
    rw [htext]
    exact if_pos rfl
  unfold Slot.ReadAs Slot.Harmless
  rw [hlex]
  exact Quotes.lexBody_doubled_iff hafter

theorem attachSlots_readAs_iff {database table partName : String} {s : Slot}
    (h : s ∈ attachSlots database table partName) :
    s.ReadAs control s.given ↔ s.Harmless control := by
  simp only [attachSlots, List.mem_cons, List.not_mem_nil, or_false] at h
  rcases h with rfl | rfl | rfl
  · exact readAs_given_iff rfl (by simp [SqlQuote.char])
  · exact readAs_given_iff rfl (by simp [SqlQuote.char])
  · exact readAs_given_iff rfl (by simp [SqlQuote.char])

/-- Doubling the quotes leaves nothing empty that was not. -/
theorem replaceChar_eq_empty {pattern : String} :
    replaceChar '\'' "''" pattern = "" ↔ pattern = "" := by
  constructor
  · intro h
    have hnil : pattern.toList.flatMap (fun d => if d = '\'' then "''".toList else [d]) = [] := by
      have htext := congrArg String.toList h
      unfold replaceChar at htext
      rwa [String.toList_ofList] at htext
    cases hp : pattern.toList with
    | nil => exact String.toList_injective hp
    | cons c cs =>
      rw [hp, List.flatMap_cons] at hnil
      split at hnil
      · cases hnil
      · cases hnil
  · rintro rfl
    rfl

theorem mem_partsSlots {cfg : Config} {s : Slot} (h : s ∈ partsSlots cfg) :
    ∃ rest p, s = patternSlot rest p := by
  rcases List.mem_append.mp h with h | h
  · obtain ⟨p, -, rfl⟩ := Option.map_eq_some_iff.mp (Option.mem_toList.mp h)
    exact ⟨_, p, rfl⟩
  · obtain ⟨p, -, rfl⟩ := Option.map_eq_some_iff.mp (Option.mem_toList.mp h)
    exact ⟨_, p, rfl⟩

theorem patternSlot_head (rest p : String) :
    (patternSlot rest p).after.toList.head? = some ')' := by
  show (")" ++ rest).toList.head? = some ')'
  rw [String.toList_append]
  rfl

theorem patternSlot_readAs_iff {rest p : String} (hp : p ≠ "") :
    (patternSlot rest p).ReadAs control p ↔ (patternSlot rest p).Harmless control := by
  refine readAs_given_iff ?_ ?_
  · exact if_neg fun hempty => hp (replaceChar_eq_empty.mp hempty)
  · rw [patternSlot_head]
    show some ')' ≠ some '\''
    decide

/-- An empty pattern is read as the one that matches all. -/
theorem patternSlot_readAs_empty (rest : String) : (patternSlot rest "").ReadAs control ".*" := by
  have hhead : (")" ++ rest).toList.head? ≠ some '\'' := by
    rw [show (")" ++ rest).toList.head? = some ')' from patternSlot_head rest ""]
    decide
  have hwritten : (patternSlot rest "").written = ".*" := show escapePattern "" = ".*" by decide
  have htext : (patternSlot rest "").text.toList =
      '\'' :: '.' :: '*' :: '\'' :: (")" ++ rest).toList := by
    rw [toList_text, hwritten]
    rfl
  unfold Slot.ReadAs
  rw [htext]
  show (SqlQuote.literal.rules control).lexBody ('.' :: '*' :: '\'' :: (")" ++ rest).toList) = _
  have hdot : '.' ≠ (SqlQuote.literal.rules control).quote := show '.' ≠ '\'' by decide
  have hdot' : '.' ≠ (SqlQuote.literal.rules control).backslash := show '.' ≠ '\\' by decide
  have hstar : '*' ≠ (SqlQuote.literal.rules control).quote := show '*' ≠ '\'' by decide
  have hstar' : '*' ≠ (SqlQuote.literal.rules control).backslash := show '*' ≠ '\\' by decide
  rw [Quotes.lexBody_plain _ hdot hdot', Quotes.lexBody_plain _ hstar hstar']
  rw [show (SqlQuote.literal.rules control).lexBody ('\'' :: (")" ++ rest).toList) = _ from
    Quotes.lexBody_end _ hhead]
  rfl

theorem partsSlots_readAs {cfg : Config} {s : Slot} (h : s ∈ partsSlots cfg) :
    (s.given = "" → s.ReadAs control ".*") ∧
      (s.given ≠ "" → (s.ReadAs control s.given ↔ s.Harmless control)) := by
  obtain ⟨rest, p, rfl⟩ := mem_partsSlots h
  constructor
  · rintro rfl
    exact patternSlot_readAs_empty rest
  · exact patternSlot_readAs_iff

theorem partsSlots_given (cfg : Config) : (partsSlots cfg).map Slot.given =
    cfg.onlyTablesPattern.toList ++ cfg.ignoreTablesPattern.toList := by
  unfold partsSlots
  cases cfg.onlyTablesPattern <;> cases cfg.ignoreTablesPattern <;> rfl

theorem normalizePattern_ne_empty {s p : String} (h : normalizePattern s = some p) : p ≠ "" := by
  unfold normalizePattern at h
  dsimp only at h
  split at h
  · cases h
  · rename_i hblank
    obtain rfl := Option.some.inj h
    exact fun hempty => hblank (.inl hempty)

/-- No pattern of the command line is empty. -/
theorem given_ne_empty {cfg : Config} {only : Option String} {ignore : String} {s : Slot}
    (h : s ∈ partsSlots (cfg.withPatterns only ignore)) : s.given ≠ "" := by
  have hmem := List.mem_map_of_mem (f := Slot.given) h
  rw [partsSlots_given] at hmem
  rcases List.mem_append.mp hmem with hmem | hmem
  · obtain ⟨pattern, -, hp⟩ := Option.bind_eq_some_iff.mp (Option.mem_toList.mp hmem)
    exact normalizePattern_ne_empty hp
  · exact normalizePattern_ne_empty (Option.mem_toList.mp hmem)

/-- The slots of the parts query are the patterns of the command line, and those
of the attach query the three names. Each stands in its query, and is read as a
single token with the value given exactly when no backslash in it escapes
anything. -/
theorem slots_readAs_iff (control : Char → Option Char) (cfg : Config) (only : Option String)
    (ignore database table partName : String) :
    (partsSlots (cfg.withPatterns only ignore)).map Slot.given =
        (only.bind normalizePattern).toList ++ (normalizePattern ignore).toList ∧
      (∀ s ∈ partsSlots (cfg.withPatterns only ignore),
        s.In (activePartsQuery (cfg.withPatterns only ignore)) ∧
        (s.ReadAs control s.given ↔ s.Harmless control)) ∧
      (attachSlots database table partName).map Slot.given = [database, table, partName] ∧
      ∀ s ∈ attachSlots database table partName,
        s.In (attachPartQuery database table partName) ∧
        (s.ReadAs control s.given ↔ s.Harmless control) := by
  refine ⟨partsSlots_given _, ?_, rfl, ?_⟩
  · intro s hs
    obtain ⟨-, hgiven⟩ : (s.given = "" → s.ReadAs control ".*") ∧
        (s.given ≠ "" → (s.ReadAs control s.given ↔ s.Harmless control)) := partsSlots_readAs hs
    exact ⟨partsSlots_in hs, hgiven (given_ne_empty hs)⟩
  · intro s hs
    exact ⟨attachSlots_in hs, attachSlots_readAs_iff hs⟩

/-- A configuration without patterns. -/
def plainConfig : Config where
  s3Bucket := none
  s3Region := none
  s3AccessKeyId := none
  s3SecretAccessKey := none
  chDataPath := "/var/lib/clickhouse"
  outputDir := "/out"
  useClickhouseLocal := false
  onlyTablesPattern := none
  ignoreTablesPattern := none
  partConcurrency := 1
  deleteConcurrency := 1
  multipartPartConcurrency := 1
  uploadMinChunkSize := 1
  uploadMaxChunkSize := 1
  uploadTargetParts := 1
  shard := none
  replica := none

/-- The letters that stand for a control character. -/
def sqlControl : Char → Option Char
  | '0' => some '\x00'
  | 'a' => some '\x07'
  | 'b' => some '\x08'
  | 't' => some '\x09'
  | 'n' => some '\x0a'
  | 'v' => some '\x0b'
  | 'f' => some '\x0c'
  | 'r' => some '\x0d'
  | _ => none

/-- A pattern with a backslash that escapes nothing, and a quote. -/
theorem slots_readAs_iff_dots :
    (patternSlot partsQueryEnd "app\\.it's").ReadAs sqlControl "app\\.it's" := by
  obtain ⟨-, hpattern, -⟩ :=
    slots_readAs_iff sqlControl plainConfig (some " app\\.it's ") "none" "app" "users" "all_1_1_0"
  have hslot : partsSlots (plainConfig.withPatterns (some " app\\.it's ") "none") =
      [patternSlot partsQueryEnd "app\\.it's"] := by decide +kernel
  have hharmless : (patternSlot partsQueryEnd "app\\.it's").Harmless sqlControl :=
    show (SqlQuote.literal.rules sqlControl).Harmless "app\\.it's".toList by decide
  rw [hslot] at hpattern
  exact (hpattern _ (List.mem_singleton.mpr rfl)).2.mpr hharmless

/-- A word boundary of a pattern is read as a backspace. And a table's name that
ends in a backslash escapes the closing quote. -/
theorem wordBoundary_not_readAs :
    (∃ s ∈ partsSlots (plainConfig.withPatterns (some "\\bfoo\\b") "none"),
      s.given = "\\bfoo\\b" ∧ ¬s.ReadAs sqlControl s.given) ∧
    ∃ s ∈ attachSlots "app" "users\\" "all_1_1_0",
      s.given = "users\\" ∧ ¬s.ReadAs sqlControl s.given := by
  constructor
  · have hslot : partsSlots (plainConfig.withPatterns (some "\\bfoo\\b") "none") =
        [patternSlot partsQueryEnd "\\bfoo\\b"] := by decide +kernel
    rw [hslot]
    refine ⟨_, List.mem_singleton.mpr rfl, rfl, fun h => ?_⟩
    have hharmless := (patternSlot_readAs_iff (by decide)).mp h
    exact absurd hharmless
      (show ¬(SqlQuote.literal.rules sqlControl).Harmless "\\bfoo\\b".toList by decide)
  · obtain ⟨s, hs, hquote, hgiven⟩ : ∃ s ∈ attachSlots "app" "users\\" "all_1_1_0",
        s.quote = .identifier ∧ s.given = "users\\" :=
      ⟨_, List.mem_cons_of_mem _ (List.mem_cons_self ..), rfl, rfl⟩
    refine ⟨s, hs, hgiven, fun h => ?_⟩
    have hharmless := (attachSlots_readAs_iff hs).mp h
    unfold Slot.Harmless at hharmless
    rw [hquote, hgiven] at hharmless
    exact absurd hharmless (by decide)

end Chbk
