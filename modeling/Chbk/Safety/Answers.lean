import Chbk.Safety.Accuracy
import Chbk.Safety.Commands

/-!
# What is made of the answers of the server

An answer is the text of the rows, of an error, or of rows with an error behind
them; nobody looks at the status of the response. The two readers take it line by
line and pass over what does not parse.

* `partsKept_iff` — an answer to the parts query loses no line exactly if all its
  lines are rows of the query, or it is refused for the hash of one of them.
* `tablesKept_iff` — the same for the tables query, which refuses nothing.
* `answers_kept_iff` — both, with what a backup then commits.
* `errorText_lost` — the text of an error is an answer without parts or tables.
-/

namespace Chbk

open Lib Prog

-- ---------------------------------------------------------------------------
-- Lines
-- ---------------------------------------------------------------------------

/-- A line with something on it. -/
def Filled (line : String) : Prop := trim line ≠ ""

/-- An object with a value, perhaps null, under the key. -/
def Value.HasColumn (row : Value) (column : String) : Prop :=
  ∃ fields v, row = .object fields ∧ (column, v) ∈ fields

/-- A row of the answer to a query: an object that has the columns of the query,
some of them texts. Text that is an object of another kind, such as that of an
exception, is no row. -/
structure IsRow (json : Json) (columns texts : List String) (line : String) (row : Value) :
    Prop where
  parses : json.fromStr line = some row
  columns : ∀ c ∈ columns, row.HasColumn c
  texts : ∀ c ∈ texts, ∃ s, row.index c = .string s

/-- A row of the answer to the parts query. -/
abbrev IsPartRow (json : Json) : String → Value → Prop :=
  IsRow json ["database", "table", "name", "path", "hash_of_all_files", "bytes_on_disk", "rows"]
    ["database", "table", "name", "path"]

/-- A row of the answer to the tables query. -/
abbrev IsTableRow (json : Json) : String → Value → Prop :=
  IsRow json ["database", "name"] ["database", "name"]

/-- A line is a row that makes one part, or has a null hash. -/
def Yields (json : Json) (line : String) (part : Option PartInfo) : Prop :=
  ∃ row, IsPartRow json line row ∧ partOfRow json row = .ok part ∧
    (part = none → row.HasColumn "hash_of_all_files" ∧ row.index "hash_of_all_files" = .null)

/-- The parts that a line adds. -/
def lineParts (json : Json) (line : String) : List PartInfo :=
  match (json.fromStr line).map (partOfRow json) with
  | some (.ok part) => part.toList
  | _ => []

/-- Every line is a row, and the parts are those of the lines. -/
structure AllRows (json : Json) (text : String) (parts : List PartInfo) : Prop where
  rows : ∀ line ∈ lines text, Filled line → ∃ part, Yields json line part
  parts : parts = (lines text).flatMap (lineParts json)

/-- Whatever parts are made of the text, no line is lost. -/
def PartsKept (json : Json) (text : String) : Prop :=
  ∀ parts, queryActiveParts json (.ok text) = .ok parts → AllRows json text parts

/-- Whatever tables are made of the text, no line is lost. -/
def TablesKept (json : Json) (text : String) : Prop :=
  ∀ tables, queryExistingTables json (.ok text) = .ok tables → ∀ line ∈ lines text, Filled line →
    ∃ row pair, IsTableRow json line row ∧ pairOfRow row "database" "name" = some pair ∧ pair ∈ tables

/-- All lines are rows. -/
def OnlyRows (json : Json) (text : String) : Prop :=
  ∀ line ∈ lines text, Filled line → ∃ row, IsPartRow json line row

/-- Some line holds a hash that is no hash. -/
def HasBadHash (json : Json) (text : String) : Prop :=
  ∃ line ∈ lines text, ∃ row, json.fromStr line = some row ∧
    ∃ e, parseHashOfAllFilesHex json (row.index "hash_of_all_files") = .error e

/-- All lines are rows that hold the names of a database and of a table. -/
def OnlyTables (json : Json) (text : String) : Prop :=
  ∀ line ∈ lines text, Filled line → ∃ row, IsTableRow json line row

section

variable {json : Json}

-- ---------------------------------------------------------------------------
-- The readers
-- ---------------------------------------------------------------------------

theorem parseHash_none {v : Value} (h : parseHashOfAllFilesHex json v = .ok none) : v = .null := by
  cases v with
  | null => rfl
  | string s =>
    unfold parseHashOfAllFilesHex at h
    cases hs : hashOfText s with
    | ok x => simp [hs, Except.map] at h
    | error e => simp [hs, Except.map] at h
  | number n =>
    unfold parseHashOfAllFilesHex at h
    cases hs : hashOfText n.text with
    | ok x => simp [hs, Except.map] at h
    | error e => simp [hs, Except.map] at h
  | bool b => cases h
  | array items => cases h
  | object fields => cases h

/-- A row fails for its hash, and has no part if this is null. -/
theorem partOfRow_spec (row : Value) :
    (∀ e, partOfRow json row = .error e ↔
      parseHashOfAllFilesHex json (row.index "hash_of_all_files") = .error e) ∧
      (partOfRow json row = .ok none → row.index "hash_of_all_files" = .null) := by
  unfold partOfRow
  cases hhash : parseHashOfAllFilesHex json (row.index "hash_of_all_files") with
  | error e =>
    refine ⟨fun e' => by simp, fun h => ?_⟩
    cases h
  | ok hash =>
    cases hash with
    | none => exact ⟨fun e' => by simp, fun _ => parseHash_none hhash⟩
    | some hash => exact ⟨fun e' => by simp, fun h => by simp at h⟩

/-- The loop over the lines succeeds if no line fails, and takes their parts. -/
theorem partsOfLines_eq_ok : ∀ {ls : List String} {parts : List PartInfo},
    partsOfLines json ls = .ok parts ↔
      (∀ line ∈ ls, ∀ row, json.fromStr line = some row → ∀ e, partOfRow json row ≠ .error e) ∧
        parts = ls.flatMap (lineParts json) := by
  intro ls
  induction ls with
  | nil =>
    intro parts
    simp [partsOfLines, eq_comm]
  | cons line ls ih =>
    intro parts
    unfold partsOfLines
    rw [List.forall_mem_cons, List.flatMap_cons]
    cases hline : json.fromStr line with
    | none =>
      simp only [lineParts, hline, Option.map_none, List.nil_append]
      rw [ih]
      have hthis : ∀ row, none = some row → ∀ e, partOfRow json row ≠ .error e := by
        intro row hrow
        cases hrow
      exact ⟨fun h => ⟨⟨hthis, h.1⟩, h.2⟩, fun h => ⟨h.1.2, h.2⟩⟩
    | some row =>
      cases hrow : partOfRow json row with
      | error e =>
        simp only [hrow]
        constructor
        · intro h
          cases h
        · rintro ⟨⟨hno, -⟩, -⟩
          exact absurd hrow (hno row rfl e)
      | ok part =>
        simp only [hrow, lineParts, hline, Option.map_some]
        have hthis : ∀ row', some row = some row' → ∀ e, partOfRow json row' ≠ .error e := by
          rintro row' ⟨⟩ e
          rw [hrow]
          intro h
          cases h
        cases hrest : partsOfLines json ls with
        | error e =>
          simp only [Except.map]
          constructor
          · intro h
            cases h
          · rintro ⟨⟨-, hno⟩, -⟩
            have := ih.mpr ⟨hno, rfl⟩
            rw [hrest] at this
            cases this
        | ok ps =>
          obtain ⟨hno, rfl⟩ := ih.mp hrest
          simp only [Except.map, Except.ok.injEq]
          exact ⟨fun h => ⟨⟨hthis, hno⟩, h.symm⟩, fun h => h.2.symm⟩

/-- The answer is refused for a hash, and for nothing else. -/
theorem hasBadHash_iff {text : String} :
    HasBadHash json text ↔ ∀ parts, queryActiveParts json (.ok text) ≠ .ok parts := by
  have hquery : queryActiveParts json (.ok text) = partsOfLines json (lines text) := rfl
  rw [hquery]
  constructor
  · rintro ⟨line, hline, row, hrow, e, he⟩ parts hparts
    exact (partsOfLines_eq_ok.mp hparts).1 line hline row hrow e (((partOfRow_spec row).1 e).mpr he)
  · intro h
    by_contra hnone
    refine h _ (partsOfLines_eq_ok.mpr ⟨fun line hline row hrow e he => ?_, rfl⟩)
    exact hnone ⟨line, hline, row, hrow, e, ((partOfRow_spec row).1 e).mp he⟩

/-- **An answer to the parts query loses no line exactly if it is refused for a
hash, or all its lines are rows.** -/
theorem partsKept_iff {text : String} :
    PartsKept json text ↔ HasBadHash json text ∨ OnlyRows json text := by
  constructor
  · intro h
    by_cases hbad : HasBadHash json text
    · exact Or.inl hbad
    · -- something was made of it, so every line was a row
      rw [hasBadHash_iff, not_forall] at hbad
      obtain ⟨parts, hparts⟩ := hbad
      obtain ⟨hrows, -⟩ := h parts (not_not.mp hparts)
      refine Or.inr fun line hline hfilled => ?_
      obtain ⟨part, row, hrow, -⟩ := hrows line hline hfilled
      exact ⟨row, hrow⟩
  · intro h parts hparts
    obtain ⟨hno, heq⟩ := partsOfLines_eq_ok.mp hparts
    refine ⟨fun line hline hfilled => ?_, heq⟩
    rcases h with hbad | hrows
    · exact absurd hparts (hasBadHash_iff.mp hbad parts)
    · obtain ⟨row, hrow⟩ := hrows line hline hfilled
      cases hpart : partOfRow json row with
      | error e => exact absurd hpart (hno line hline row hrow.parses e)
      | ok part =>
        refine ⟨part, row, hrow, hpart, ?_⟩
        rintro rfl
        exact ⟨hrow.columns _ (by simp), (partOfRow_spec row).2 hpart⟩

theorem pairOfRow_eq_some {row : Value} {k₁ k₂ a b : String} :
    pairOfRow row k₁ k₂ = some (a, b) ↔ row.index k₁ = .string a ∧ row.index k₂ = .string b := by
  have hstr : ∀ v : Value, ∀ s, v.asStr = some s ↔ v = .string s := by
    intro v s
    cases v <;> simp [Value.asStr]
  unfold pairOfRow
  rw [← hstr, ← hstr]
  cases (row.index k₁).asStr with
  | none => simp
  | some a' =>
    cases (row.index k₂).asStr with
    | none => simp
    | some b' => simp

/-- **An answer to the tables query loses no line exactly if all its lines are
rows with the two names.** -/
theorem tablesKept_iff {text : String} : TablesKept json text ↔ OnlyTables json text := by
  constructor
  · intro h line hline hfilled
    obtain ⟨row, -, hrow, -, -⟩ := h _ rfl line hline hfilled
    exact ⟨row, hrow⟩
  · intro h tables htables line hline hfilled
    obtain ⟨row, hrow⟩ := h line hline hfilled
    obtain ⟨db, hdb⟩ := hrow.texts "database" (by simp)
    obtain ⟨table, htable⟩ := hrow.texts "name" (by simp)
    have hpair := pairOfRow_eq_some.mpr ⟨hdb, htable⟩
    refine ⟨row, (db, table), hrow, hpair, ?_⟩
    obtain rfl := Except.ok.inj htables
    refine List.mem_filterMap.mpr ⟨line, hline, ?_⟩
    rw [hrow.parses]
    exact hpair

-- ---------------------------------------------------------------------------
-- What is committed
-- ---------------------------------------------------------------------------

/-- The text of the last answer to the parts query that was not refused. -/
def lastAnswer (json : Json) (cfg : Config) : Watch Op Resp (Option String) where
  init := none
  observe
    | v, .env (.runQuery sql), .ok text =>
      if sql = activePartsQuery cfg ∧ (queryActiveParts json (.ok text)).toOption.isSome then
        some text
      else v
    | v, _, _ => v

/-- No manifest is written before there is such an answer. -/
def AnswerRule (v : Option String) : Op → Prop
  | .s3 (.putObject _ (.manifest _) _ _) => v.isSome = true
  | _ => True

variable {cfg : Config}

theorem lastAnswer_isSome {v : Option String} (h : v.isSome = true) (op : Op) (r : Resp op) :
    ((lastAnswer json cfg).observe v op r).isSome = true := by
  unfold lastAnswer
  dsimp only
  split
  · split_ifs
    · rfl
    · exact h
  · exact h

/-- Behind the answer everything is allowed. -/
theorem follows_answered {α : Type} (p : P α) : ∀ {v : Option String}, v.isSome = true →
    Follows (lastAnswer json cfg) AnswerRule p v (fun _ _ => True) (fun _ _ => True) := by
  induction p with
  | done a => exact fun _ => trivial
  | fail e => exact fun _ => trivial
  | call op k ih =>
    intro v hv
    refine ⟨?_, fun r => ih r (lastAnswer_isSome hv op r)⟩
    unfold AnswerRule
    split
    · exact hv
    · trivial

theorem follows_answers (json : Json) (cfg : Config) (name : Option String) :
    Follows (lastAnswer json cfg) AnswerRule (createSnapshot json cfg name) none
      (fun _ _ => True) (fun _ _ => True) := by
  refine Follows.bind (R := fun _ v => v = none) (follows_askEnv trivial fun r => rfl)
    fun timestamp v hv => ?_
  refine Follows.bind (R := fun _ v => v = none) (follows_liftP (fun _ _ => hv) fun _ _ => trivial)
    fun storage v hv => ?_
  -- the first answer is read before anything else is done
  refine Follows.bind (R := fun _ v => v.isSome = true) ?_ fun parts v hv => follows_answered _ hv
  refine Follows.bind (R := fun r v => ∀ parts, queryActiveParts json r = .ok parts →
    v.isSome = true) (follows_askEnv trivial fun r parts hparts => ?_) fun r v hv => ?_
  · cases r with
    | error e => cases hparts
    | ok text => simp [lastAnswer, hparts, Except.toOption]
  · exact follows_liftP hv fun _ _ => trivial

/-- An answer that is not refused is the last one, and the ledger has its parts;
any other answer changes neither. -/
theorem answer_cases (v : Ledger) (last : Option String) (op : Op) (r : Resp op) :
    ((lastAnswer json cfg).observe last op r = last ∧
      (v.observe json cfg op r).listing = v.listing) ∨
    ∃ text parts, (⟨op, r⟩ : Called Op Resp) = ⟨.env (.runQuery (activePartsQuery cfg)), .ok text⟩ ∧
      queryActiveParts json (.ok text) = .ok parts ∧
      (lastAnswer json cfg).observe last op r = some text ∧
      (v.observe json cfg op r).listing = parts := by
  rcases op with o | o
  · refine Or.inl ⟨rfl, ?_⟩
    cases o with
    | getObject key =>
      rcases r with e | ⟨⟨⟩ | ⟨⟩ | ⟨⟩⟩ <;> rfl
    | _ => cases r <;> rfl
  · cases o with
    | runQuery sql =>
      by_cases hsql : sql = activePartsQuery cfg
      · subst hsql
        cases hparts : queryActiveParts json r with
        | error e =>
          refine Or.inl ?_
          cases r with
          | error e' => simp [lastAnswer, Ledger.observe, Ledger.learn, hparts]
          | ok text => simp [lastAnswer, Ledger.observe, Ledger.learn, hparts, Except.toOption]
        | ok parts =>
          cases r with
          | error e' => cases hparts
          | ok text =>
            refine Or.inr ⟨text, parts, rfl, hparts, ?_, ?_⟩
            · simp [lastAnswer, hparts, Except.toOption]
            · simp [Ledger.observe, Ledger.learn, hparts]
      · refine Or.inl ?_
        cases r with
        | error e => simp [lastAnswer, Ledger.observe, Ledger.learn, hsql]
        | ok text => simp [lastAnswer, Ledger.observe, Ledger.learn, hsql]
    | stagePart part dir =>
      refine Or.inl ⟨rfl, ?_⟩
      cases r <;> rfl
    | _ => exact Or.inl ⟨rfl, rfl⟩

/-- The last answer is that of which the ledger has its list of parts. -/
theorem lastAnswer_spec {text : String} : ∀ {hist : History Op Resp},
    (lastAnswer json cfg).view hist = some text →
      ⟨.env (.runQuery (activePartsQuery cfg)), .ok text⟩ ∈ hist ∧
      queryActiveParts json (.ok text) = .ok (ledgerOf json cfg hist).listing
  | [], h => by cases h
  | ⟨op, r⟩ :: hist, h => by
    have hview : (lastAnswer json cfg).observe ((lastAnswer json cfg).view hist) op r = some text := h
    have hledger : ledgerOf json cfg (⟨op, r⟩ :: hist) =
        (ledgerOf json cfg hist).observe json cfg op r := rfl
    rcases answer_cases (ledgerOf json cfg hist) ((lastAnswer json cfg).view hist) op r with
      ⟨hlast, hlisting⟩ | ⟨text', parts, hcall, hparts, hlast, hlisting⟩
    · rw [hlast] at hview
      obtain ⟨hmem, hparts⟩ := lastAnswer_spec hview
      rw [hledger, hlisting]
      exact ⟨List.mem_cons_of_mem _ hmem, hparts⟩
    · rw [hlast] at hview
      obtain rfl := Option.some.inj hview
      rw [hledger, hlisting, hcall]
      exact ⟨List.mem_cons_self .., hparts⟩

/-- What is committed is what one answer said, and of its lines none is lost. -/
def CommitsKept (json : Json) (cfg : Config) (hist : History Op Resp) (m : Manifest) : Prop :=
  ∃ text parts, ⟨.env (.runQuery (activePartsQuery cfg)), .ok text⟩ ∈ hist ∧
    AllRows json text parts ∧
    m.parts.map (fun p => (p.database, p.tableName, p.partName, p.blobHash)) =
      parts.map fun p => (p.database, p.table, p.name, p.hashOfAllFiles)

/-- Every answer to the parts query is refused for a hash, or all rows. -/
def AnswersFit (json : Json) (cfg : Config) (hist : History Op Resp) : Prop :=
  ∀ text, ⟨.env (.runQuery (activePartsQuery cfg)), .ok text⟩ ∈ hist →
    HasBadHash json text ∨ OnlyRows json text

end

/-- **The lines of an answer are all accounted for exactly if they are rows, or
the answer is refused for a hash; a backup that is given such answers commits a
manifest of all the parts of one of them.** -/
theorem answers_kept_iff {W : Type} {answers : (op : Op) → W → Resp op → W → Prop}
    {beside : W → W → Prop} (json : Json) (cfg : Config) (name : Option String) :
    (∀ text, PartsKept json text ↔ HasBadHash json text ∨ OnlyRows json text) ∧
    (∀ text, TablesKept json text ↔ OnlyTables json text) ∧
    ∀ tr p w w', Proc.Trace answers beside ⟨createSnapshot json cfg name, []⟩ w tr p w' →
      ∀ x ∈ tr, AnswersFit json cfg x.hist → ∀ m, Writes x m → CommitsKept json cfg x.hist m := by
  refine ⟨fun text => partsKept_iff, fun text => tablesKept_iff, ?_⟩
  intro tr p w w' hrun x hx hfit m hm
  obtain ⟨-, hledger⟩ := hrun.follows (follows_ledger json cfg name)
  obtain ⟨-, hanswer⟩ := hrun.follows (follows_answers json cfg name)
  have haccurate := hledger x hx
  have hanswered := hanswer x hx
  obtain ⟨hist, before, ⟨op, r⟩, after⟩ := x
  obtain ⟨key, ifMatch, ifNoneMatch, rfl⟩ := hm
  obtain ⟨text, htext⟩ := Option.isSome_iff_exists.mp hanswered
  obtain ⟨hmem, hparts⟩ := lastAnswer_spec htext
  exact ⟨text, _, hmem, partsKept_iff.mpr (hfit text hmem) _ hparts, haccurate.parts⟩

/-- JSON of an answer with a row and a row whose hash is null. -/
def skipJson : Json where
  fromStr line :=
    if line = "skip" then
      some (.object [("database", .string "db"), ("table", .string "t"),
        ("name", .string "all_2_2_0"), ("path", .string "/ch/t/all_2_2_0/"),
        ("hash_of_all_files", .null), ("bytes_on_disk", .string "1"), ("rows", .string "1")])
    else siteJson.fromStr line
  toStr _ := ""

def skipAnswer : String := "row\nskip\n"

/-- The site, where the server answers so. -/
def skipEnv : (o : EnvOp) → Option (EnvResp o)
  | .runQuery _ => some (.ok skipAnswer)
  | o => siteEnv o

/-- What a call answers is this answer, or no answer to a query. -/
def answersSkip (c : Called Op Resp) : Bool :=
  match c with
  | ⟨.env (.runQuery _), .ok text⟩ => text = skipAnswer
  | _ => true

theorem onlyRows_skipAnswer : OnlyRows skipJson skipAnswer := by
  have hlines : lines skipAnswer = ["row", "skip"] := by decide +kernel
  have hrow : ∀ line ∈ ["row", "skip"], ∃ row, IsPartRow skipJson line row := by
    intro line hline
    rcases List.mem_pair.mp hline with rfl | rfl
    · refine ⟨_, rfl, ?_, ?_⟩
      · simp [Value.HasColumn]
      · simp [Value.index, List.lookup]
    · refine ⟨_, rfl, ?_, ?_⟩
      · simp [Value.HasColumn]
      · simp [Value.index, List.lookup]
  intro line hline _
  rw [hlines] at hline
  exact hrow line hline

/-- A backup that is given it. -/
theorem answers_kept_iff_skipAnswer : ∃ tr p w,
    Proc.Trace Answers Eq ⟨createSnapshot skipJson siteConfig (some "snap1"), []⟩ {} tr p w ∧
    ∃ x ∈ tr, ∃ m, Writes x m ∧ m.parts.length = 1 ∧ CommitsKept skipJson siteConfig x.hist m := by
  have hans : ∀ a ∈ List.replicate 25 (⟨skipEnv, none⟩ : Answer), ∀ op w r w',
      a.answer op w = some (r, w') → Answers op w r w' := by
    intro a ha op w r w' h
    exact Answer.answers_answer op w r w' h
  obtain ⟨tr, p, w, hrun, hcheck⟩ := @exists_trace_of_answers _ _ Eq _ hans
    ⟨createSnapshot skipJson siteConfig (some "snap1"), []⟩ {}
    (fun x => x.1.any fun x =>
      (match x.call.1 with
        | .s3 (.putObject _ (.manifest m) _ _) => m.parts.length = 1
        | _ => false) && x.hist.all answersSkip) (by decide +kernel)
  obtain ⟨x, hx, hcheck⟩ := List.any_eq_true.mp hcheck
  obtain ⟨hput, hall⟩ := Bool.and_eq_true_iff.mp hcheck
  have hwrites : ∃ m, Writes x m ∧ m.parts.length = 1 := by
    split at hput
    · rename_i key m ifMatch ifNoneMatch heq
      exact ⟨m, ⟨key, ifMatch, ifNoneMatch, heq⟩, of_decide_eq_true hput⟩
    · cases hput
  obtain ⟨m, hm, hlength⟩ := hwrites
  have hfit : AnswersFit skipJson siteConfig x.hist := by
    intro text htext
    have hthis : answersSkip ⟨.env (.runQuery (activePartsQuery siteConfig)), .ok text⟩ = true :=
      List.all_eq_true.mp hall _ htext
    obtain rfl : text = skipAnswer := of_decide_eq_true hthis
    exact .inr onlyRows_skipAnswer
  exact ⟨tr, p, w, hrun, x, hx, m, hm, hlength,
    (answers_kept_iff skipJson siteConfig (some "snap1")).2.2 tr p {} w hrun x hx hfit m hm⟩

/-- JSON of a server that answers with the text of an error: no line parses. -/
def errorJson : Json where
  fromStr _ := none
  toStr _ := ""

/-- The text of an error in place of the rows. -/
def errorText : String :=
  "Code: 241. DB::Exception: Memory limit (total) exceeded. (MEMORY_LIMIT_EXCEEDED)\n"

/-- It is an answer without parts and without tables. -/
theorem errorText_lost : queryActiveParts errorJson (.ok errorText) = .ok [] ∧
    ¬ PartsKept errorJson errorText ∧ ¬ TablesKept errorJson errorText := by
  have hline : ∃ line ∈ lines errorText, Filled line :=
    ⟨"Code: 241. DB::Exception: Memory limit (total) exceeded. (MEMORY_LIMIT_EXCEEDED)",
      by decide +kernel, by unfold Filled; decide +kernel⟩
  obtain ⟨line, hline, hfilled⟩ := hline
  have hnone : ∀ ls, partsOfLines errorJson ls = .ok [] := by
    intro ls
    induction ls with
    | nil => rfl
    | cons l ls ih => exact ih
  refine ⟨hnone _, ?_, ?_⟩
  · intro h
    obtain ⟨hrows, -⟩ := h [] (hnone _)
    obtain ⟨part, row, hrow, -⟩ := hrows line hline hfilled
    cases hrow.parses
  · intro h
    obtain ⟨row, pair, hrow, -⟩ := h _ rfl line hline hfilled
    cases hrow.parses

end Chbk
