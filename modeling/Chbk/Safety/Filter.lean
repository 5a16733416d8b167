import Mathlib.Data.List.TakeWhile
import Mathlib.Data.Prod.Lex
import Mathlib.Data.String.Basic
import Chbk.Model.Restore
import Chbk.Safety.Bucket

/-!
# What a restore selects

`filter_restore_items` selects the parts by their fields, and the files by
taking their paths apart.

* `splitOnce_eq_some`, `tableOfFile_eq_some` — a path is taken apart into the
  table it was put together from, unless the database has a slash in its name.
* `Selection` — what the items should be: parts and files, in terms of tables.
* `filter_exact` — they are, or no part is of the table that was asked for.
-/

namespace Chbk

-- ---------------------------------------------------------------------------
-- Paths of metadata files
-- ---------------------------------------------------------------------------

def dbSql (db : String) : String := "metadata/" ++ db ++ ".sql"

def tableSql (t : String × String) : String := "metadata/" ++ t.1 ++ "/" ++ t.2 ++ ".sql"

theorem splitOnce_eq_some {c : Char} {s a b : String} :
    splitOnce c s = some (a, b) ↔ c ∉ a.toList ∧ s.toList = a.toList ++ c :: b.toList := by
  unfold splitOnce
  dsimp only
  constructor
  · intro h
    split at h
    · cases h
    · rename_i x after hdrop
      obtain ⟨rfl, rfl⟩ := Prod.mk.inj (Option.some.inj h)
      -- the first character that is dropped is the separator
      have hx : x = c := by
        have hhead := List.head_dropWhile_not (fun y => decide (y ≠ c)) (l := s.toList)
          (by rw [hdrop]; simp)
        simp only [hdrop, List.head_cons] at hhead
        simpa using hhead
      constructor
      · intro hc
        rw [String.toList_ofList] at hc
        simpa using List.mem_takeWhile_imp hc
      · rw [String.toList_ofList, String.toList_ofList, ← hx, ← hdrop, hx]
        exact List.takeWhile_append_dropWhile.symm
  · rintro ⟨hc, hs⟩
    have hpre : ∀ x ∈ a.toList, decide (x ≠ c) = true := by
      intro x hx
      exact decide_eq_true fun he => hc (he ▸ hx)
    rw [hs, List.dropWhile_append_of_pos hpre, List.takeWhile_append_of_pos hpre]
    simp

/-- The file is taken for the one of this table. -/
theorem tableOfFile_eq_some {f : ManifestFile} {t : String × String} :
    tableOfFile f = some t ↔ '/' ∉ t.1.toList ∧ f.path = tableSql t := by
  have hslash : ∀ inner : String, inner.toList = t.1.toList ++ '/' :: t.2.toList ↔
      inner = t.1 ++ "/" ++ t.2 := by
    intro inner
    rw [← String.toList_inj]
    simp
  simp only [tableOfFile, Option.bind_eq_bind, Option.bind_eq_some_iff, stripPrefix?_eq_some,
    stripSuffix?_eq_some]
  constructor
  · rintro ⟨rest, hrest, inner, rfl, hinner⟩
    obtain ⟨hdb, hsplit⟩ := splitOnce_eq_some.mp hinner
    refine ⟨hdb, ?_⟩
    rw [hrest, (hslash inner).mp hsplit, tableSql]
    simp only [String.append_assoc]
  · rintro ⟨hdb, hpath⟩
    refine ⟨t.1 ++ "/" ++ t.2 ++ ".sql", ?_, _, rfl, ?_⟩
    · rw [hpath, tableSql]
      simp only [String.append_assoc]
    · exact splitOnce_eq_some.mpr ⟨hdb, (hslash _).mpr rfl⟩

/-- The file of a database is not taken for one of a table. -/
theorem dbSql_ne_tableSql {db : String} {t : String × String} (hdb : '/' ∉ db.toList) :
    dbSql db ≠ tableSql t := by
  intro h
  have hlist := congrArg String.toList h
  simp only [dbSql, tableSql, String.toList_append, List.append_assoc,
    List.append_cancel_left_eq] at hlist
  have hmem : '/' ∈ db.toList ++ ".sql".toList := by
    rw [hlist]
    simp
  rcases List.mem_append.mp hmem with hmem | hmem
  · exact hdb hmem
  · revert hmem
    decide

/-- Two slash-free databases with one path have one table. -/
theorem tableSql_inj {t u : String × String} (ht : '/' ∉ t.1.toList) (hu : '/' ∉ u.1.toList)
    (h : tableSql t = tableSql u) : t = u := by
  have hfile : tableOfFile ⟨tableSql t, []⟩ = some t := tableOfFile_eq_some.mpr ⟨ht, rfl⟩
  rw [tableOfFile_eq_some.mpr ⟨hu, h⟩] at hfile
  exact (Option.some.inj hfile).symm

-- ---------------------------------------------------------------------------
-- The order of tables
-- ---------------------------------------------------------------------------

theorem pairLe_iff {x y : String × String} : pairLe x y = true ↔ toLex x ≤ toLex y := by
  rw [Prod.Lex.toLex_le_toLex]
  exact decide_eq_true_iff

theorem pairwise_pairLe (l : List (String × String)) :
    (l.mergeSort pairLe).Pairwise fun x y => toLex x ≤ toLex y := by
  have hsorted : (l.mergeSort pairLe).Pairwise fun x y => pairLe x y = true := by
    apply List.pairwise_mergeSort
    · intro a b c hab hbc
      exact pairLe_iff.mpr (le_trans (pairLe_iff.mp hab) (pairLe_iff.mp hbc))
    · intro a b
      rw [Bool.or_eq_true, pairLe_iff, pairLe_iff]
      exact le_total _ _
  exact hsorted.imp pairLe_iff.mp

/-- Sorted without duplicates: strictly ascending. -/
theorem pairwise_lt_dedup (l : List (String × String)) :
    (l.dedup.mergeSort pairLe).Pairwise fun x y => toLex x < toLex y := by
  have hnodup : (l.dedup.mergeSort pairLe).Nodup :=
    (List.mergeSort_perm _ _).nodup_iff.mpr (List.nodup_dedup l)
  refine (pairwise_pairLe l.dedup).imp₂ ?_ hnodup
  intro x y hle hne
  exact lt_of_le_of_ne hle fun he => hne (toLex_inj.mp he)

-- ---------------------------------------------------------------------------
-- The selection
-- ---------------------------------------------------------------------------

def ManifestPart.tableKey (p : ManifestPart) : String × String := (p.database, p.tableName)

/-- The part is of the table that was asked for, if one was. -/
def ManifestPart.Matches (p : ManifestPart) (tableFilter : Option (String × String)) : Prop :=
  ∀ t ∈ tableFilter, p.tableKey = t

instance (p : ManifestPart) (tableFilter : Option (String × String)) :
    Decidable (p.Matches tableFilter) :=
  inferInstanceAs (Decidable (∀ t ∈ tableFilter, p.tableKey = t))

/-- With a table asked for, its two files; and none of an excluded table. -/
def KeptPath (tableFilter : Option (String × String)) (excluded : List (String × String))
    (path : String) : Prop :=
  (∀ t ∈ tableFilter, path = dbSql t.1 ∨ path = tableSql t) ∧
    ∀ t ∈ excluded, '/' ∉ t.1.toList → path ≠ tableSql t

instance (tableFilter : Option (String × String)) (excluded : List (String × String))
    (path : String) : Decidable (KeptPath tableFilter excluded path) :=
  inferInstanceAs (Decidable (_ ∧ _))

/-- What the items of a restore should be. -/
structure Selection (parts : List ManifestPart) (files : List ManifestFile)
    (tableFilter : Option (String × String)) (excluded : List (String × String))
    (items : FilteredRestoreItems) : Prop where
  parts_eq : items.parts = parts.filter fun p => p.Matches tableFilter ∧ p.tableKey ∉ excluded
  files_eq : items.files = files.filter fun f => KeptPath tableFilter excluded f.path
  /-- The files of every part that is kept are. -/
  keepsDdl : ∀ p ∈ items.parts, '/' ∉ p.database.toList → ∀ f ∈ files,
    f.path = dbSql p.database ∨ f.path = tableSql p.tableKey → f ∈ items.files
  skipped_sorted : items.skipped.Pairwise fun x y => toLex x < toLex y
  mem_skipped : ∀ t, t ∈ items.skipped ↔
    t ∈ excluded ∧ ∃ p ∈ parts, p.Matches tableFilter ∧ p.tableKey = t

/-- The files of a table that is kept. -/
theorem keptPath_of_part {p : ManifestPart} {tableFilter : Option (String × String)}
    {excluded : List (String × String)} {path : String} (hmatches : p.Matches tableFilter)
    (hin : p.tableKey ∉ excluded) (hdb : '/' ∉ p.database.toList)
    (hpath : path = dbSql p.database ∨ path = tableSql p.tableKey) :
    KeptPath tableFilter excluded path := by
  constructor
  · intro t ht
    rw [← hmatches t ht]
    exact hpath
  · rintro t ht hslash rfl
    rcases hpath with hpath | hpath
    · exact dbSql_ne_tableSql hdb hpath.symm
    · exact hin (tableSql_inj hslash hdb hpath ▸ ht)

/-- The test of the source on a file. -/
theorem all_tableOfFile {f : ManifestFile} {excluded : List (String × String)} :
    ((tableOfFile f).all (· ∉ excluded)) = true ↔
      ∀ t ∈ excluded, '/' ∉ t.1.toList → f.path ≠ tableSql t := by
  cases h : tableOfFile f with
  | none =>
    constructor
    · intro _ t _ hslash hpath
      rw [tableOfFile_eq_some.mpr ⟨hslash, hpath⟩] at h
      cases h
    · intro _
      rfl
  | some u =>
    obtain ⟨hslash, hpath⟩ := tableOfFile_eq_some.mp h
    rw [Option.all_some, decide_eq_true_iff]
    constructor
    · intro hu t ht hslash' hpath'
      exact hu (tableSql_inj hslash hslash' (hpath.symm.trans hpath') ▸ ht)
    · intro hall hu
      exact hall u hu hslash hpath

/-- The table that is asked for, as a filter of parts and files. -/
theorem filterTable_eq (parts : List ManifestPart) (files : List ManifestFile)
    (tableFilter : Option (String × String)) :
    match filterTable parts files tableFilter with
    | .error _ => ∃ t, tableFilter = some t ∧ ∀ p ∈ parts, ¬ p.Matches tableFilter
    | .ok x => (∀ t ∈ tableFilter, ∃ p ∈ parts, p.tableKey = t) ∧
        x.1 = parts.filter (fun p => p.Matches tableFilter) ∧
        x.2 = files.filter fun f => ∀ t ∈ tableFilter, f.path = dbSql t.1 ∨ f.path = tableSql t := by
  cases tableFilter with
  | none => simp [filterTable, ManifestPart.Matches]
  | some t =>
    have hparts : (parts.filter fun p => decide (p.database = t.1 ∧ p.tableName = t.2)) =
        parts.filter fun p => decide (p.Matches (some t)) := by
      refine List.filter_congr fun p _ => ?_
      simp [ManifestPart.Matches, ManifestPart.tableKey, Prod.ext_iff]
    unfold filterTable
    dsimp only
    rw [hparts]
    split
    · rename_i e he
      split at he
      · rename_i hnil
        refine ⟨t, rfl, fun p hp hm => ?_⟩
        exact List.filter_eq_nil_iff.mp hnil p hp (decide_eq_true hm)
      · cases he
    · rename_i x hx
      split at hx
      · cases hx
      · rename_i hne
        obtain rfl := Except.ok.inj hx
        obtain ⟨p, hp⟩ := List.exists_mem_of_ne_nil _ hne
        obtain ⟨hp, hm⟩ := List.mem_filter.mp hp
        have hkey := (of_decide_eq_true hm) t rfl
        refine ⟨?_, rfl, ?_⟩
        · intro u hu
          exact ⟨p, hp, hkey.trans (Option.mem_some_iff.mp hu)⟩
        · refine List.filter_congr fun f _ => ?_
          simp [dbSql, tableSql]

/-- `filter_restore_items` fails when no part is of the table that was asked
for; else it selects what it should. -/
theorem filter_exact (parts : List ManifestPart) (files : List ManifestFile)
    (tableFilter : Option (String × String)) (excludeTables : Option (List (String × String))) :
    match filterRestoreItems parts files tableFilter excludeTables with
    | .error _ => ∃ t, tableFilter = some t ∧ ∀ p ∈ parts, p.tableKey ≠ t
    | .ok items => (∀ t ∈ tableFilter, ∃ p ∈ parts, p.tableKey = t) ∧
        Selection parts files tableFilter (excludeTables.getD []) items := by
  have htable := filterTable_eq parts files tableFilter
  unfold filterRestoreItems
  cases hx : filterTable parts files tableFilter with
  | error e =>
    rw [hx] at htable
    obtain ⟨t, rfl, hnone⟩ := htable
    refine ⟨t, rfl, fun p hp he => hnone p hp ?_⟩
    intro u hu
    exact he.trans (Option.mem_some_iff.mp hu)
  | ok x =>
    rw [hx] at htable
    obtain ⟨parts', files'⟩ := x
    obtain ⟨hsome, rfl, rfl⟩ := htable
    -- a kept part's files, whichever tables are excluded
    have hkeeps : ∀ (excluded : List (String × String)),
        ∀ p ∈ parts.filter (fun p => p.Matches tableFilter ∧ p.tableKey ∉ excluded),
        '/' ∉ p.database.toList → ∀ f ∈ files,
        f.path = dbSql p.database ∨ f.path = tableSql p.tableKey →
        f ∈ files.filter fun f => KeptPath tableFilter excluded f.path := by
      intro excluded p hp hdb f hf hpath
      obtain ⟨-, hp⟩ := List.mem_filter.mp hp
      obtain ⟨hmatches, hin⟩ := of_decide_eq_true hp
      exact List.mem_filter.mpr ⟨hf, decide_eq_true (keptPath_of_part hmatches hin hdb hpath)⟩
    cases excludeTables with
    | none =>
      refine ⟨hsome, ?_⟩
      have hparts : parts.filter (fun p => decide (p.Matches tableFilter)) =
          parts.filter fun p => p.Matches tableFilter ∧ p.tableKey ∉ ([] : List (String × String)) := by
        refine List.filter_congr fun p _ => ?_
        simp
      have hfiles : files.filter (fun f => decide
            (∀ t ∈ tableFilter, f.path = dbSql t.1 ∨ f.path = tableSql t)) =
          files.filter fun f => KeptPath tableFilter [] f.path := by
        refine List.filter_congr fun f _ => ?_
        rw [decide_eq_decide, KeptPath]
        exact (and_iff_left fun t ht => absurd ht List.not_mem_nil).symm
      refine ⟨hparts, hfiles, ?_, List.Pairwise.nil, by simp⟩
      show ∀ p ∈ parts.filter (fun p => decide (p.Matches tableFilter)), _
      rw [hparts, hfiles]
      exact hkeeps []
    | some exclude =>
      refine ⟨hsome, ?_⟩
      have hparts : (parts.filter fun p => decide (p.Matches tableFilter)).filter
            (fun p => decide ((p.database, p.tableName) ∉ exclude)) =
          parts.filter fun p => p.Matches tableFilter ∧ p.tableKey ∉ exclude := by
        rw [List.filter_filter]
        refine List.filter_congr fun p _ => ?_
        rw [← Bool.decide_and, decide_eq_decide]
        exact and_comm
      have hfiles : (files.filter fun f => decide
            (∀ t ∈ tableFilter, f.path = dbSql t.1 ∨ f.path = tableSql t)).filter
            (fun f => (tableOfFile f).all (· ∉ exclude)) =
          files.filter fun f => KeptPath tableFilter exclude f.path := by
        rw [List.filter_filter]
        refine List.filter_congr fun f _ => ?_
        rw [Bool.eq_iff_iff, Bool.and_eq_true, all_tableOfFile, decide_eq_true_iff,
          decide_eq_true_iff]
        exact and_comm
      refine ⟨hparts, hfiles, ?_, pairwise_lt_dedup _, ?_⟩
      · show ∀ p ∈ (parts.filter fun p => decide (p.Matches tableFilter)).filter
            (fun p => decide ((p.database, p.tableName) ∉ exclude)), _
        rw [hparts]
        intro p hp hdb f hf hpath
        show f ∈ (files.filter _).filter _
        rw [hfiles]
        exact hkeeps exclude p hp hdb f hf hpath
      · intro t
        show t ∈ List.mergeSort _ pairLe ↔ _
        rw [(List.mergeSort_perm _ _).mem_iff, List.mem_dedup, List.mem_map]
        constructor
        · rintro ⟨p, hp, rfl⟩
          obtain ⟨hp, hin⟩ := List.mem_filter.mp hp
          obtain ⟨hp, hm⟩ := List.mem_filter.mp hp
          exact ⟨of_decide_eq_true hin, p, hp, of_decide_eq_true hm, rfl⟩
        · rintro ⟨hin, p, hp, hm, rfl⟩
          exact ⟨p, List.mem_filter.mpr ⟨List.mem_filter.mpr ⟨hp, decide_eq_true hm⟩,
            decide_eq_true hin⟩, rfl⟩

end Chbk
