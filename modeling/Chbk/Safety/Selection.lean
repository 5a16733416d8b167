import Chbk.Lib.Growth
import Chbk.Safety.Commands
import Chbk.Safety.Filter

/-!
# What a restore does, and for which tables

A restore with its command line: the manifest it reads, the tables the server names for
`--skip-existing`, the flags, and the calls that follow from them.

* `RestoreRule` — every file it writes, archive it extracts and part it attaches is of
  the manifest under the name that was asked for, of a table that was asked for, and of
  none that the server has; and no part is attached before all of them are extracted.
* `restore_accounted` — every run keeps to it, whatever the answers.
-/

namespace Chbk

open Lib Prog

-- ---------------------------------------------------------------------------
-- What a restore has learned
-- ---------------------------------------------------------------------------

structure RestoreView where
  /-- The tables the server has named. -/
  existing : Option (List (String × String)) := none
  /-- The objects it has downloaded. -/
  fetched : List (String × Body) := []
  /-- The archives it has extracted, with their directories. -/
  extracted : List (List Component × Body) := []
  written : List (List Component × Bytes) := []
  /-- The statements the server has answered with nothing. -/
  attached : List String := []

/-- The answer `attach_part` takes for success. -/
def blankAnswer : Except AnyError String → Bool
  | .ok text => trim text = ""
  | .error _ => false

namespace RestoreView

/-- The later view has learned what the earlier one has. -/
structure Le (v v' : RestoreView) : Prop where
  existing : ∀ ts, v.existing = some ts → v'.existing = some ts
  fetched : ∀ x ∈ v.fetched, x ∈ v'.fetched
  extracted : ∀ x ∈ v.extracted, x ∈ v'.extracted
  written : ∀ x ∈ v.written, x ∈ v'.written
  attached : ∀ x ∈ v.attached, x ∈ v'.attached

instance : Preorder RestoreView where
  le v v' := v.Le v'
  le_refl v := ⟨fun _ h => h, fun _ h => h, fun _ h => h, fun _ h => h, fun _ h => h⟩
  le_trans v v' v'' h h' := ⟨fun ts hts => h'.existing ts (h.existing ts hts),
    fun x hx => h'.fetched x (h.fetched x hx), fun x hx => h'.extracted x (h.extracted x hx),
    fun x hx => h'.written x (h.written x hx), fun x hx => h'.attached x (h.attached x hx)⟩

/-- The first answer to the tables query counts. -/
def observe (json : Json) (v : RestoreView) : (op : Op) → Resp op → RestoreView
  | .env (.runQuery sql), answer =>
    { v with
      existing := if sql = existingTablesQuery ∧ v.existing = none then
        (queryExistingTables json answer).toOption else v.existing
      attached := if blankAnswer answer then sql :: v.attached else v.attached }
  | .s3 (.getObject key), .ok body => { v with fetched := (key, body) :: v.fetched }
  | .env (.extractZip dest archive), .ok _ =>
    { v with extracted := (dest, archive) :: v.extracted }
  | .env (.writeFile path content), .ok _ => { v with written := (path, content) :: v.written }
  | _, _ => v

end RestoreView

def restoreWatch (json : Json) : Watch Op Resp RestoreView := ⟨{}, RestoreView.observe json⟩

theorem RestoreView.le_observe (json : Json) (v : RestoreView) (op : Op) (r : Resp op) :
    v ≤ (restoreWatch json).observe v op r := by
  have hself : v ≤ v := le_rfl
  show v ≤ RestoreView.observe json v op r
  unfold RestoreView.observe
  split
  · refine { hself with existing := ?_, attached := ?_ }
    · intro ts hts
      simp [hts]
    · intro x hx
      dsimp only
      split
      · exact List.mem_cons_of_mem _ hx
      · exact hx
  · exact { hself with fetched := fun _ h => List.mem_cons_of_mem _ h }
  · exact { hself with extracted := fun _ h => List.mem_cons_of_mem _ h }
  · exact { hself with written := fun _ h => List.mem_cons_of_mem _ h }
  · exact hself

-- ---------------------------------------------------------------------------
-- What it may do
-- ---------------------------------------------------------------------------

/-- The manifest it is to restore: read under the name, with a header as expected. -/
structure Restorable (args : RestoreArgs) (v : RestoreView) (m : Manifest) : Prop where
  fetched : ∃ m₀, (manifestKey args.name, Body.manifest m₀) ∈ v.fetched ∧
    m = { m₀ with name := args.name }
  shard : ∀ s, args.shard = some s → m.shard = s
  replica : ∀ r, args.replica = some r → m.replica = r

/-- With `--skip-existing` this holds of the tables the server has named. -/
def Skipping (args : RestoreArgs) (v : RestoreView) (Q : List (String × String) → Prop) : Prop :=
  args.skipExisting = true → ∃ ts, v.existing = some ts ∧ Q ts

/-- A table it is to restore: the one that was asked for, if one was, and none that the
server has, if these are to be skipped. -/
def WantedTable (args : RestoreArgs) (v : RestoreView) (t : String × String) : Prop :=
  (∀ text, args.table = some text → parseTableArg text = .ok t) ∧ Skipping args v fun ts => t ∉ ts

/-- A metadata file it is to restore. -/
def WantedFile (args : RestoreArgs) (v : RestoreView) (path : String) : Prop :=
  (∀ text, args.table = some text → ∃ t, parseTableArg text = .ok t ∧
      (path = dbSql t.1 ∨ path = tableSql t)) ∧
    Skipping args v fun ts => ∀ t ∈ ts, '/' ∉ t.1.toList → path ≠ tableSql t

/-- The archive of the part, downloaded and extracted in its place. -/
def PartExtracted (args : RestoreArgs) (v : RestoreView) (p : ManifestPart) : Prop :=
  ∃ archive, (blobRemoteKey p.blobHash, archive) ∈ v.fetched ∧
    (components (partDir args.toDir args.attach p), archive) ∈ v.extracted

/-- The file, written in its place. -/
def FileWritten (decodeContent : ManifestFile → Except AnyError Bytes) (args : RestoreArgs)
    (v : RestoreView) (f : ManifestFile) : Prop :=
  ∃ content, decodeContent f = .ok content ∧
    (components (pathJoin args.toDir f.path), content) ∈ v.written

/-- The server has taken the part. -/
def PartAttached (v : RestoreView) (p : ManifestPart) : Prop :=
  attachPartQuery p.database p.tableName p.partName ∈ v.attached

/-- What a restore may do. -/
def RestoreRule (decodeContent : ManifestFile → Except AnyError Bytes) (args : RestoreArgs)
    (v : RestoreView) : Op → Prop
  | .env .order | .env (.println _) | .env (.panic _) => True
  | .env (.createDirAll path) => ∃ m, Restorable args v m ∧
      (path = components args.toDir ∨
        (∃ f ∈ m.files, WantedFile args v f.path ∧
          parentComponents (components (pathJoin args.toDir f.path)) = some path) ∨
        ∃ p ∈ m.parts, WantedTable args v p.tableKey ∧
          path = components (partDir args.toDir args.attach p))
  | .env (.writeFile path content) => ∃ m, Restorable args v m ∧ ∃ f ∈ m.files,
      WantedFile args v f.path ∧ path = components (pathJoin args.toDir f.path) ∧
        decodeContent f = .ok content
  | .env (.extractZip dest archive) => ∃ m, Restorable args v m ∧ ∃ p ∈ m.parts,
      WantedTable args v p.tableKey ∧ dest = components (partDir args.toDir args.attach p) ∧
        (blobRemoteKey p.blobHash, archive) ∈ v.fetched
  | .env (.runQuery sql) => (sql = existingTablesQuery ∧ args.skipExisting = true) ∨
      (args.attach = true ∧ ∃ m, Restorable args v m ∧
        (∃ p ∈ m.parts, WantedTable args v p.tableKey ∧
          sql = attachPartQuery p.database p.tableName p.partName) ∧
        ∀ p ∈ m.parts, WantedTable args v p.tableKey → PartExtracted args v p)
  | .s3 (.getObject key) => key = manifestKey args.name ∨ ∃ m, Restorable args v m ∧
      ∃ p ∈ m.parts, WantedTable args v p.tableKey ∧ key = blobRemoteKey p.blobHash
  | _ => False

-- ---------------------------------------------------------------------------
-- What it has chosen
-- ---------------------------------------------------------------------------

/-- The items of a restore are those of the manifest that are wanted. -/
structure Chosen (args : RestoreArgs) (v : RestoreView) (m : Manifest)
    (items : FilteredRestoreItems) : Prop where
  restorable : Restorable args v m
  asked : args.skipExisting = true → ∃ ts, v.existing = some ts
  mem_parts : ∀ p, p ∈ items.parts ↔ p ∈ m.parts ∧ WantedTable args v p.tableKey
  mem_files : ∀ f, f ∈ items.files ↔ f ∈ m.files ∧ WantedFile args v f.path

section

variable {args : RestoreArgs} {v v' : RestoreView} {m : Manifest} {items : FilteredRestoreItems}

theorem Restorable.mono (h : Restorable args v m) (hle : v ≤ v') : Restorable args v' m :=
  ⟨h.fetched.imp fun _ hm => ⟨hle.fetched _ hm.1, hm.2⟩, h.shard, h.replica⟩

theorem Skipping.mono {Q : List (String × String) → Prop} (h : Skipping args v Q) (hle : v ≤ v') :
    Skipping args v' Q := fun hskip =>
  (h hskip).imp fun ts hts => ⟨hle.existing ts hts.1, hts.2⟩

/-- The server is asked once. -/
theorem Skipping.iff {Q : List (String × String) → Prop}
    (hasked : args.skipExisting = true → ∃ ts, v.existing = some ts) (hle : v ≤ v') :
    Skipping args v' Q ↔ Skipping args v Q := by
  refine ⟨fun h hskip => ?_, fun h => h.mono hle⟩
  obtain ⟨ts, hts⟩ := hasked hskip
  obtain ⟨ts', hts', hQ⟩ := h hskip
  obtain rfl := Option.some.inj ((hle.existing ts hts).symm.trans hts')
  exact ⟨ts, hts, hQ⟩

theorem WantedTable.mono {t : String × String} (h : WantedTable args v t) (hle : v ≤ v') :
    WantedTable args v' t := ⟨h.1, h.2.mono hle⟩

theorem WantedFile.mono {path : String} (h : WantedFile args v path) (hle : v ≤ v') :
    WantedFile args v' path := ⟨h.1, h.2.mono hle⟩

theorem FileWritten.mono {decodeContent : ManifestFile → Except AnyError Bytes} {f : ManifestFile}
    (h : FileWritten decodeContent args v f) (hle : v ≤ v') : FileWritten decodeContent args v' f :=
  h.imp fun _ hf => ⟨hf.1, hle.written _ hf.2⟩

theorem PartAttached.mono {p : ManifestPart} (h : PartAttached v p) (hle : v ≤ v') : PartAttached v' p :=
  hle.attached _ h

theorem PartExtracted.mono {p : ManifestPart} (h : PartExtracted args v p) (hle : v ≤ v') :
    PartExtracted args v' p :=
  h.imp fun _ hp => ⟨hle.fetched _ hp.1, hle.extracted _ hp.2⟩

/-- What was chosen stays chosen. -/
theorem Chosen.mono (h : Chosen args v m items) (hle : v ≤ v') : Chosen args v' m items where
  restorable := h.restorable.mono hle
  asked := fun hskip => (h.asked hskip).imp fun ts hts => hle.existing ts hts
  mem_parts := fun p => (h.mem_parts p).trans
    (and_congr_right fun _ => and_congr_right fun _ => (Skipping.iff h.asked hle).symm)
  mem_files := fun f => (h.mem_files f).trans
    (and_congr_right fun _ => and_congr_right fun _ => (Skipping.iff h.asked hle).symm)

theorem checkExpected_ok {what field name actual : String} {expected : Option String}
    (h : checkExpected what field name actual expected = .ok ()) :
    ∀ s, expected = some s → actual = s := by
  rintro s rfl
  by_contra hne
  simp [checkExpected, hne] at h

/-- The table that was asked for, as it was given. -/
theorem tableFilter_iff {tableFilter : Option (String × String)}
    (htable : tableFilterOf args.table = .ok tableFilter) (Q : String × String → Prop) :
    (∀ t ∈ tableFilter, Q t) ↔ ∀ text, args.table = some text →
      ∃ t, parseTableArg text = .ok t ∧ Q t := by
  cases hargs : args.table with
  | none =>
    rw [hargs] at htable
    obtain rfl := Except.ok.inj htable
    simp
  | some text =>
    rw [hargs] at htable
    dsimp only [tableFilterOf] at htable
    cases hparse : parseTableArg text with
    | error e =>
      rw [hparse] at htable
      cases htable
    | ok t =>
      rw [hparse] at htable
      obtain rfl := Except.ok.inj htable
      constructor
      · rintro h _ ⟨⟩
        exact ⟨t, hparse, h t rfl⟩
      · rintro h _ ⟨⟩
        obtain ⟨t', ht', hQ⟩ := h text rfl
        exact Except.ok.inj (hparse.symm.trans ht') ▸ hQ

/-- The selection of `restore`, by its flags. -/
theorem chosen_of_selectItems {tableFilter : Option (String × String)}
    {exclude : Option (List (String × String))}
    (hfetched : ∃ m₀, (manifestKey args.name, Body.manifest m₀) ∈ v.fetched ∧
      m = { m₀ with name := args.name })
    (htable : tableFilterOf args.table = .ok tableFilter)
    (hexclude : if args.skipExisting then v.existing = exclude ∧ exclude.isSome = true
      else exclude = none)
    (h : selectItems args.name ⟨tableFilter, args.shard, args.replica, exclude, args.attach⟩ m
      = .ok items) : Chosen args v m items := by
  obtain ⟨_, hshard, h⟩ := except_bind_eq_ok h
  obtain ⟨_, hreplica, h⟩ := except_bind_eq_ok h
  obtain ⟨⟨parts, files⟩, hfilter, h⟩ := except_bind_eq_ok h
  have hmatch := filterTable_eq m.parts m.files tableFilter
  rw [hfilter] at hmatch
  obtain ⟨-, rfl, rfl⟩ := hmatch
  -- what `--skip-existing` excludes
  have hskip : ∀ Q : List (String × String) → Prop,
      Skipping args v Q ↔ ∀ ts, exclude = some ts → Q ts := by
    intro Q
    unfold Skipping
    split at hexclude
    · rename_i hon
      obtain ⟨hv, hsome⟩ := hexclude
      obtain ⟨ts, rfl⟩ := Option.isSome_iff_exists.mp hsome
      simp [hon, hv]
    · rename_i hoff
      simp [hoff, hexclude]
  have hparts : ∀ p : ManifestPart, WantedTable args v p.tableKey ↔
      p.Matches tableFilter ∧ ∀ ts, exclude = some ts → p.tableKey ∉ ts := by
    intro p
    unfold WantedTable ManifestPart.Matches
    rw [hskip fun ts => p.tableKey ∉ ts, tableFilter_iff htable fun t => p.tableKey = t]
    refine and_congr_left fun _ => forall₂_congr fun text _ => ?_
    exact ⟨fun hp => ⟨_, hp, rfl⟩, fun ⟨t, hp, ht⟩ => ht ▸ hp⟩
  have hfiles : ∀ f : ManifestFile, WantedFile args v f.path ↔
      (∀ t ∈ tableFilter, f.path = dbSql t.1 ∨ f.path = tableSql t) ∧
        ∀ ts, exclude = some ts → ((tableOfFile f).all (· ∉ ts)) = true := by
    intro f
    unfold WantedFile
    rw [hskip, tableFilter_iff htable fun t => f.path = dbSql t.1 ∨ f.path = tableSql t]
    simp only [all_tableOfFile]
  refine ⟨⟨hfetched, checkExpected_ok hshard, checkExpected_ok hreplica⟩, ?_, ?_, ?_⟩
  · intro hon
    rw [if_pos hon] at hexclude
    exact Option.isSome_iff_exists.mp (hexclude.1 ▸ hexclude.2)
  · intro p
    rw [hparts p]
    cases exclude with
    | none =>
      obtain rfl := Except.ok.inj h
      simp
    | some ts =>
      obtain rfl := Except.ok.inj h
      rw [List.mem_filter, List.mem_filter, and_assoc, decide_eq_true_iff, decide_eq_true_iff]
      simp [ManifestPart.tableKey]
  · intro f
    rw [hfiles f]
    cases exclude with
    | none =>
      obtain rfl := Except.ok.inj h
      simp
    | some ts =>
      obtain rfl := Except.ok.inj h
      rw [List.mem_filter, List.mem_filter, and_assoc, decide_eq_true_iff]
      simp

end

-- ---------------------------------------------------------------------------
-- The pieces
-- ---------------------------------------------------------------------------

variable {json : Json} {decodeContent : ManifestFile → Except AnyError Bytes} {args : RestoreArgs}
  {v : RestoreView} {m : Manifest} {items : FilteredRestoreItems}

/-- A piece of a restore. -/
def Restores {α : Type} (json : Json) (decodeContent : ManifestFile → Except AnyError Bytes)
    (args : RestoreArgs) (p : P α) (v : RestoreView) (Q : α → RestoreView → Prop) : Prop :=
  Advances (restoreWatch json) (RestoreRule decodeContent args) p v Q

theorem restores_ask {o : EnvOp} (h : RestoreRule decodeContent args v (.env o)) :
    Restores json decodeContent args (askEnv o) v fun _ _ => True :=
  Advances.ask h fun _ => ⟨RestoreView.le_observe json v _ _, trivial⟩

theorem restores_liftP {α : Type} {x : Except AnyError α} {Q : α → RestoreView → Prop}
    (h : ∀ a, x = .ok a → Q a v) : Restores json decodeContent args (liftP x) v Q :=
  follows_liftP (fun a ha => ⟨le_rfl, h a ha⟩) fun _ _ => le_rfl

theorem restores_createDirAll {path : List Component}
    (h : RestoreRule decodeContent args v (.env (.createDirAll path))) :
    Restores json decodeContent args (createDirAll path) v fun _ _ => True :=
  (restores_ask h).bind fun _ _ _ _ => restores_liftP fun _ _ => trivial

theorem restores_println (text : String) (lines : List String) :
    Restores json decodeContent args (printEach text lines) v fun _ _ => True := by
  refine Advances.bind (Advances.forEach (Q := fun _ _ _ => True) (fun _ _ _ _ _ _ => trivial)
    fun line _ v' _ => restores_ask trivial) fun _ _ _ _ => Advances.pure trivial

theorem restores_getObject {key : String}
    (h : RestoreRule decodeContent args v (.s3 (.getObject key))) :
    Restores json decodeContent args (getObject key) v fun body v' => (key, body) ∈ v'.fetched := by
  refine Advances.bind (R := fun r v' => ∀ body, r = .ok body → (key, body) ∈ v'.fetched)
    (Advances.ask h fun r => ⟨RestoreView.le_observe json v _ r, ?_⟩) fun r v' _ hr => ?_
  · rintro body rfl
    exact List.mem_cons_self ..
  · cases r with
    | ok body => exact Advances.pure (hr body rfl)
    | error e => exact Advances.throw

theorem restores_restoreFile (hc : Chosen args v m items) {file : ManifestFile}
    (hfile : file ∈ items.files) : Restores json decodeContent args
      (restoreFile decodeContent args.toDir file) v fun _ v' =>
        FileWritten decodeContent args v' file := by
  obtain ⟨hmem, hwanted⟩ := (hc.mem_files file).mp hfile
  refine Advances.bind (R := fun content v' => v' = v ∧ decodeContent file = .ok content)
    (restores_liftP fun content hcontent => ⟨rfl, hcontent⟩) fun content v₁ _ hcontent => ?_
  obtain ⟨rfl, hcontent⟩ := hcontent
  refine Advances.bind (R := fun _ _ => True) ?_ fun _ v₂ hle _ => ?_
  · unfold createParents
    split
    · rename_i parent hparent
      exact restores_createDirAll ⟨m, hc.restorable, .inr (.inl ⟨file, hmem, hwanted, hparent⟩)⟩
    · exact Advances.pure trivial
  · refine Advances.bind (R := fun r v' => ∀ u, r = .ok u → FileWritten decodeContent args v' file)
      (Advances.ask ⟨m, hc.restorable.mono hle, file, hmem, hwanted.mono hle, rfl, hcontent⟩
        fun r => ⟨RestoreView.le_observe json v₂ _ r, ?_⟩) fun r v₃ _ hr => restores_liftP hr
    rintro u rfl
    exact ⟨content, hcontent, List.mem_cons_self ..⟩

theorem restores_keyOrPanic (hash : String) : Restores json decodeContent args
    (keyOrPanic hash) v fun key _ => key = blobRemoteKey hash := by
  unfold keyOrPanic
  split
  · exact Advances.bind (restores_ask trivial) fun r => r.elim
  · exact Advances.pure rfl

theorem restores_restorePart (hc : Chosen args v m items) {p : ManifestPart}
    (hp : p ∈ items.parts) : Restores json decodeContent args
      (restorePart args.toDir args.attach p) v
      fun x v' => x = (p.database, p.tableName, p.partName) ∧ PartExtracted args v' p := by
  obtain ⟨hmem, hwanted⟩ := (hc.mem_parts p).mp hp
  refine Advances.bind (restores_keyOrPanic _) fun remoteKey v₀ hle₀ hkey => ?_
  obtain rfl := hkey
  have hc := hc.mono hle₀
  have hwanted := hwanted.mono hle₀
  refine Advances.bind (Advances.mapFail (restores_createDirAll
    ⟨m, hc.restorable, .inr (.inr ⟨p, hmem, hwanted, rfl⟩)⟩)) fun _ v₁ hle₁ _ => ?_
  refine Advances.bind (Advances.mapFail (restores_getObject
    (.inr ⟨m, hc.restorable.mono hle₁, p, hmem, hwanted.mono hle₁, rfl⟩))) fun body v₂ hle₂ hbody => ?_
  refine Advances.bind (R := fun r v' => (blobRemoteKey p.blobHash, body) ∈ v'.fetched ∧
      ∀ u, r = .ok u → (components (partDir args.toDir args.attach p), body) ∈ v'.extracted)
    (Advances.ask ⟨m, hc.restorable.mono (hle₁.trans hle₂), p, hmem, hwanted.mono (hle₁.trans hle₂),
      rfl, hbody⟩ fun r => ⟨RestoreView.le_observe json v₂ _ r, ?_, ?_⟩) fun r v₃ _ hr => ?_
  · exact (RestoreView.le_observe json v₂ _ r).fetched _ hbody
  · rintro u rfl
    exact List.mem_cons_self ..
  · refine Advances.bind (R := fun _ v' => PartExtracted args v' p)
      (restores_liftP fun u hu => ⟨body, hr.1, hr.2 u hu⟩) fun _ v₄ _ hex => ?_
    exact Advances.pure ⟨rfl, hex⟩

theorem restores_attachRestored (hc : Chosen args v m items) (hattach : args.attach = true)
    (hall : ∀ p ∈ items.parts, PartExtracted args v p) {p : ManifestPart} (hp : p ∈ items.parts) :
    Restores json decodeContent args (attachRestored (p.database, p.tableName, p.partName)) v
      fun _ v' => PartAttached v' p := by
  obtain ⟨hmem, hwanted⟩ := (hc.mem_parts p).mp hp
  refine Advances.mapFail (Advances.bind (R := fun r v' => blankAnswer r = true → PartAttached v' p)
    (Advances.ask (.inr ⟨hattach, m, hc.restorable, ⟨p, hmem, hwanted, rfl⟩, fun q hq hqw => ?_⟩)
      fun r => ⟨RestoreView.le_observe json v _ r, fun hr => ?_⟩) fun r v₁ _ hr => ?_)
  · exact hall q ((hc.mem_parts q).mpr ⟨hq, hqw⟩)
  · simp [restoreWatch, RestoreView.observe, PartAttached, hr]
  · refine Advances.bind (R := fun text v' => trim text = "" → PartAttached v' p)
      (restores_liftP fun text htext hblank => hr (by simp [htext, blankAnswer, hblank]))
      fun text v₂ _ htext => ?_
    split
    · exact Advances.throw
    · rename_i hblank
      exact Advances.pure (htext (by simpa using hblank))

/-- A batch of attempts that all have succeeded. -/
theorem restores_succeeded {α : Type} {results : List (Except AnyError α)} :
    Restores json decodeContent args (Prog.collect liftP results) v fun as v' =>
      v' = v ∧ results = as.map Except.ok := by
  refine Advances.collect (fun pre as v' => v' = v ∧ pre = as.map Except.ok) ?_ ⟨rfl, rfl⟩
  rintro pre as r post v' - - ⟨rfl, rfl⟩
  refine restores_liftP fun a ha => ⟨rfl, ?_⟩
  simp [ha]

theorem mem_servedOrder {order : List Nat} {parts : List ManifestPart} {p : ManifestPart} :
    p ∈ servedOrder order parts ↔ p ∈ parts := by
  unfold servedOrder
  rw [List.mem_append, mem_reorder, ← List.mem_append, List.takeWhile_append_dropWhile]

/-- The parts, and behind all of them the attaching. -/
theorem restores_restoreParts (hc : Chosen args v m items) : Restores json decodeContent args
    (restoreParts args.toDir args.attach items.parts) v fun _ v' => ∀ p ∈ items.parts,
      PartExtracted args v' p ∧ (args.attach = true → PartAttached v' p) := by
  refine Advances.bind (restores_ask trivial) fun order v₁ hle₁ _ => ?_
  have hc₁ := hc.mono hle₁
  refine Advances.bind (Advances.forEach (Q := fun p r v' => ∀ x, r = .ok x →
      x = (p.database, p.tableName, p.partName) ∧ PartExtracted args v' p) ?_ ?_) fun results v₂ hle₂ hres => ?_
  · intro p r v' v'' hle h x hx
    exact ⟨(h x hx).1, (h x hx).2.mono hle⟩
  · intro p hp v' hle
    exact (restores_restorePart (hc₁.mono hle) (mem_servedOrder.mp hp)).attempt
  have hc₂ := hc₁.mono hle₂
  -- all of them have been extracted, or the first failure ends it
  refine Advances.bind restores_succeeded fun restored v₃ hle₃ h₃ => ?_
  obtain ⟨rfl, rfl⟩ := h₃
  have hall : ∀ p ∈ items.parts, PartExtracted args v₃ p ∧
      (p.database, p.tableName, p.partName) ∈ restored := by
    intro p hp
    obtain ⟨r, hr, hrp⟩ := exists_of_forall₂ hres p (mem_servedOrder.mpr hp)
    obtain ⟨x, hx, rfl⟩ := List.mem_map.mp hr
    obtain ⟨rfl, hex⟩ := hrp x rfl
    exact ⟨hex, hx⟩
  have hfrom : ∀ x ∈ restored, ∃ p ∈ items.parts, x = (p.database, p.tableName, p.partName) := by
    intro x hx
    obtain ⟨p, hp, hxp⟩ := exists_of_forall₂ hres.flip (.ok x) (List.mem_map_of_mem hx)
    exact ⟨p, mem_servedOrder.mp hp, (hxp x rfl).1⟩
  split
  · rename_i hattach
    refine Advances.bind (restores_ask trivial) fun order v₄ hle₄ _ => ?_
    refine Advances.bind (Advances.forEach (Q := fun x r v' => ∀ u : Unit, r = .ok u →
      attachPartQuery x.1 x.2.1 x.2.2 ∈ v'.attached) ?_ ?_) fun results v₅ hle₅ hres₅ => ?_
    · intro x r v' v'' hle h u hu
      exact hle.attached _ (h u hu)
    · intro x hx v' hle'
      obtain ⟨p, hp, rfl⟩ := hfrom x (mem_reorder.mp hx)
      have hle := hle₄.trans hle'
      exact (restores_attachRestored (hc₂.mono hle) hattach (fun q hq => (hall q hq).1.mono hle)
        hp).attempt
    · refine Advances.bind restores_succeeded fun us v₆ _ h₆ => Advances.pure fun p hp => ?_
      obtain ⟨rfl, rfl⟩ := h₆
      refine ⟨(hall p hp).1.mono (hle₄.trans hle₅), fun _ => ?_⟩
      obtain ⟨r, hr, hrp⟩ := exists_of_forall₂ hres₅ _ (mem_reorder.mpr (hall p hp).2)
      obtain ⟨u, -, rfl⟩ := List.mem_map.mp hr
      exact hrp u rfl
  · rename_i hattach
    exact Advances.pure fun p hp => ⟨(hall p hp).1, fun h => absurd h hattach⟩

/-- Everything that is wanted of the manifest has been restored. -/
structure RestoreDone (decodeContent : ManifestFile → Except AnyError Bytes) (args : RestoreArgs)
    (v : RestoreView) (m : Manifest) : Prop where
  restorable : Restorable args v m
  files : ∀ f ∈ m.files, WantedFile args v f.path → FileWritten decodeContent args v f
  parts : ∀ p ∈ m.parts, WantedTable args v p.tableKey → PartExtracted args v p
  attached : args.attach = true → ∀ p ∈ m.parts, WantedTable args v p.tableKey → PartAttached v p

theorem restores_restoreItems (hc : Chosen args v m items) : Restores json decodeContent args
    (restoreItems decodeContent args.toDir args.attach items) v fun _ v' =>
      RestoreDone decodeContent args v' m := by
  refine Advances.bind (restores_println _ _) fun _ v₁ hle₁ _ => ?_
  have hc₁ := hc.mono hle₁
  refine Advances.bind (Advances.mapFail (restores_createDirAll ⟨m, hc₁.restorable, .inl rfl⟩))
    fun _ v₂ hle₂ _ => ?_
  have hc₂ := hc₁.mono hle₂
  refine Advances.bind (Advances.forEach (Q := fun f _ v' => FileWritten decodeContent args v' f)
    (fun f _ v' v'' hle h => h.mono hle)
    fun file hfile v' hle' => restores_restoreFile (hc₂.mono hle') hfile) fun us v₃ hle₃ hfiles => ?_
  have hwritten : ∀ f ∈ items.files, FileWritten decodeContent args v₃ f := by
    intro f hf
    obtain ⟨_, -, h⟩ := exists_of_forall₂ hfiles f hf
    exact h
  have hc₃ := hc₂.mono hle₃
  -- from the items to what is wanted of the manifest
  have hdone : ∀ v', v₃ ≤ v' → (∀ p ∈ items.parts, PartExtracted args v' p ∧
      (args.attach = true → PartAttached v' p)) → RestoreDone decodeContent args v' m := by
    intro v' hle hparts
    have hc' := hc₃.mono hle
    refine ⟨hc'.restorable, fun f hf hw => ?_, fun p hp hw => ?_, fun hattach p hp hw => ?_⟩
    · exact (hwritten f ((hc'.mem_files f).mpr ⟨hf, hw⟩)).mono hle
    · exact (hparts p ((hc'.mem_parts p).mpr ⟨hp, hw⟩)).1
    · exact (hparts p ((hc'.mem_parts p).mpr ⟨hp, hw⟩)).2 hattach
  split
  · rename_i hnone
    exact Advances.pure (hdone v₃ le_rfl (by simp [hnone]))
  · exact (restores_restoreParts hc₃).mono fun _ v₄ hle₄ hparts => hdone v₄ hle₄ hparts

theorem restores_readManifest (name : String)
    (h : RestoreRule decodeContent args v (.s3 (.getObject (manifestKey name)))) :
    Restores json decodeContent args (readManifest name) v fun m v' =>
      ∃ m₀, (manifestKey name, Body.manifest m₀) ∈ v'.fetched ∧ m = { m₀ with name } := by
  refine Advances.bind (Advances.mapFail (restores_getObject h)) fun body v₁ _ hbody => ?_
  refine Advances.bind (R := fun m v' => (manifestKey name, Body.manifest m) ∈ v'.fetched)
    (restores_liftP fun m hm => decodeManifest_ok hm ▸ hbody) fun m v₂ _ hm => ?_
  exact Advances.pure ⟨m, hm, rfl⟩

/-- The whole command. -/
theorem restores_restoreCommand (cfg : Config) (occupied : Except AnyError Bool) :
    Restores json decodeContent args (restoreCommand json decodeContent cfg occupied args) {}
      fun _ v' => ∃ m, RestoreDone decodeContent args v' m := by
  refine Advances.bind (R := fun tableFilter v' => v' = {} ∧ tableFilterOf args.table = .ok tableFilter)
    (restores_liftP fun tableFilter h => ⟨rfl, h⟩) fun tableFilter v₁ _ h₁ => ?_
  obtain ⟨rfl, htable⟩ := h₁
  refine Advances.bind (R := fun _ v' => v' = {}) (restores_liftP fun _ _ => rfl) fun isOccupied v₂ _ h₂ => ?_
  subst h₂
  have hrest : Restores json decodeContent args (do
      let excludeTables ← excludedTables json args.skipExisting
      let _ ← liftP (initStorage cfg)
      restoreSnapshot decodeContent args.name args.toDir
        ⟨tableFilter, args.shard, args.replica, excludeTables, args.attach⟩) {} fun _ v' =>
          ∃ m, RestoreDone decodeContent args v' m := by
    refine Advances.bind (R := fun exclude v' => if args.skipExisting then
      v'.existing = exclude ∧ exclude.isSome = true else exclude = none) ?_ fun exclude v₃ _ h₃ => ?_
    · unfold excludedTables
      split
      · rename_i hon
        refine Advances.bind (R := fun r v' => v'.existing = (queryExistingTables json r).toOption)
          (Advances.ask (.inl ⟨rfl, hon⟩) fun r => ⟨RestoreView.le_observe json _ _ r, ?_⟩)
          fun r v₄ _ h₄ => ?_
        · simp [restoreWatch, RestoreView.observe]
        · refine Advances.bind (R := fun existing v' => v'.existing = some existing)
            (restores_liftP fun existing hex => ?_) fun existing v₅ _ h₅ => Advances.pure ?_
          · rw [h₄, hex]
            rfl
          · exact ⟨h₅, rfl⟩
      · exact Advances.pure rfl
    refine Advances.bind (R := fun _ v' => v' = v₃) (restores_liftP fun _ _ => rfl) fun _ v₄ _ h₄ => ?_
    subst h₄
    refine Advances.bind (Advances.mapFail (restores_readManifest args.name (.inl rfl)))
      fun m v₅ hle₅ hfetched => ?_
    refine Advances.bind (R := fun items v' => Chosen args v' m items)
      (restores_liftP fun items hitems => ?_) fun items v₆ _ hc =>
        (restores_restoreItems hc).mono fun _ _ _ h => ⟨m, h⟩
    refine chosen_of_selectItems hfetched htable ?_ hitems
    split
    · rename_i hon
      rw [if_pos hon] at h₃
      obtain ⟨ts, rfl⟩ := Option.isSome_iff_exists.mp h₃.2
      exact ⟨hle₅.existing ts h₃.1, rfl⟩
    · rename_i hoff
      rwa [if_neg hoff] at h₃
  split
  · exact Advances.bind (R := fun _ _ => False) Advances.throw fun _ _ _ h => h.elim
  · exact hrest

-- ---------------------------------------------------------------------------
-- Every run
-- ---------------------------------------------------------------------------

/-- The destination may be written to: nothing lies in it, or `--force` is given. -/
def MayOverwrite (occupied : Except AnyError Bool) (args : RestoreArgs) : Prop :=
  ∃ b, occupied = .ok b ∧ (b = true → args.force = true)

/-- Without leave for its destination a restore makes no call. -/
theorem only_restoreCommand_occupied {cfg : Config} {occupied : Except AnyError Bool}
    (h : ¬ MayOverwrite occupied args) :
    Only (fun _ => False) (restoreCommand json decodeContent cfg occupied args) := by
  refine Only.bind (only_liftP _) fun tableFilter => ?_
  cases occupied with
  | error e => exact only_throw e
  | ok b =>
    have hb : (b && !args.force) = true := by
      by_contra hno
      exact h ⟨b, rfl, fun hb => by simpa [hb] using hno⟩
    rw [liftP_ok_bind, if_pos hb]
    exact only_throw _

/-- **Every call of a restore is accounted for**, by its command line and by what it has
been told so far; and a restore that returns has restored all that it was to restore. -/
theorem restore_accounted {W : Type} {answers : (op : Op) → W → Resp op → W → Prop}
    {beside : W → W → Prop} {isAlphabetic : Char → Bool} {cfg : Config}
    {occupied : Except AnyError Bool} {tr : List (Event Op Resp W)}
    {p : Proc Op Resp AnyError Unit} {w w' : W}
    (hrun : Proc.Trace answers beside
      ⟨asyncMain json isAlphabetic decodeContent cfg occupied (.restore args), []⟩ w tr p w') :
    (∀ e ∈ tr, MayOverwrite occupied args ∧
      RestoreRule decodeContent args ((restoreWatch json).view e.hist) e.call.1) ∧
      (p.prog = .done () → ∃ m, RestoreDone decodeContent args ((restoreWatch json).view p.hist) m) := by
  obtain ⟨hend, hrule⟩ := hrun.follows (restores_restoreCommand cfg occupied)
  refine ⟨fun e he => ⟨?_, hrule e he⟩, fun hdone => ?_⟩
  · by_contra hno
    have hnone : Proc.Obeys (restoreWatch json) (fun _ _ => False)
        ⟨restoreCommand json decodeContent cfg occupied args, []⟩ :=
      Proc.obeys_of_only (only_restoreCommand_occupied hno)
    exact (hrun.follows hnone).2 e he
  · rw [hdone] at hend
    exact hend.2

/-- A snapshot of two tables, one of which the site has. -/
def twoTables : Manifest where
  name := "a"
  timestamp := 0
  shard := "s1"
  replica := "r1"
  createdBy := "host"
  parts := [⟨"db", "t", "p1", "h1", 1⟩, ⟨"db", "all_1_1_0", "p2", "h2", 1⟩]
  files := []

def twoTablesBucket : World where
  objects := [(manifestKey "a", ⟨.manifest twoTables, 0, 0⟩), (blobRemoteKey "h1", ⟨.data [], 1, 0⟩)]
  fresh := 2

def skipArgs : RestoreArgs where
  name := "a"
  toDir := "/out"
  table := none
  force := false
  shard := some "s1"
  replica := none
  skipExisting := true
  attach := false

/-- The blob of the other one is enough. -/
theorem restore_accounted_twoTables : ∃ tr p w', Proc.Trace Answers Eq
    ⟨(siteRuns (.restore skipArgs)).prog, []⟩ twoTablesBucket tr p w' ∧ p.prog = .done () ∧
    (∀ e ∈ tr, MayOverwrite (.ok false) skipArgs ∧
      RestoreRule (fun _ => .ok []) skipArgs ((restoreWatch siteJson).view e.hist) e.call.1) ∧
    ∃ m, RestoreDone (fun _ => .ok []) skipArgs ((restoreWatch siteJson).view p.hist) m := by
  have hend : (runAlone (List.replicate 8 served) [] ⟨(siteRuns (.restore skipArgs)).prog, []⟩
      twoTablesBucket).any (fun x => returned x.2.1) = true := by
    decide +kernel
  obtain ⟨tr, p, w', hrun, hdone⟩ := exists_trace_of_runAlone hend
  have haccounted := restore_accounted hrun
  exact ⟨tr, p, w', hrun, done_of_returned hdone, haccounted.1,
    haccounted.2 (done_of_returned hdone)⟩

end Chbk
