import Chbk.Lib.Team
import Chbk.Safety.Commands
import Chbk.Safety.Reading

/-!
# What `list-snapshots` shows

The command lists the names first and then reads the manifests one by one, while others
may change the bucket.

* `Shows` — the snapshots that are shown, against the bucket as it was meanwhile.
* `snapshots_shown` — a run that ends well prints one line for each of them, in the
  order of their times; a run that fails prints nothing.
-/

namespace Chbk

open Lib Prog

-- ---------------------------------------------------------------------------
-- What is printed
-- ---------------------------------------------------------------------------

/-- The lines printed by the calls behind a program, the first one first. -/
def printed : History Op Resp → List String
  | [] => []
  | ⟨.env (.println line), _⟩ :: h => printed h ++ [line]
  | _ :: h => printed h

/-- What a listing shows of a bucket that others may change meanwhile. -/
structure Shows (shard replica : Option String) (tr : List (Event Op Resp World))
    (shown : List Manifest) : Prop where
  /-- The snapshots are shown in the order of their times, -/
  sorted : shown.Pairwise fun a b => a.timestamp ≤ b.timestamp
  /-- each once. -/
  nodup : (shown.map Manifest.name).Nodup
  /-- Each of them matches the flags and was there at some time, -/
  was : ∀ m ∈ shown, matchesFlags shard replica m = true ∧
    ∃ e ∈ tr, ∃ m₀, e.before.Holds m.name m₀ ∧ m = { m₀ with name := m.name }
  /-- and what matches them and was there all the time is shown. -/
  all : ∀ name m, (∀ e ∈ tr, e.before.Holds name m) → matchesFlags shard replica m = true →
    { m with name } ∈ shown

-- ---------------------------------------------------------------------------
-- One call after the other
-- ---------------------------------------------------------------------------

/-- The program returns with `Q` of the calls behind it; before it fails it prints
nothing. -/
def Records {α : Type} (p : P α) (h : History Op Resp) (Q : α → History Op Resp → Prop) : Prop :=
  Follows (Watch.record Op Resp) (fun _ _ => True) p h Q fun _ h' => printed h' = []

/-- The manifest was read under the name. -/
def WasRead (h : History Op Resp) (name : String) (m : Manifest) : Prop :=
  ⟨.s3 (.getObject (manifestKey name)), .ok (.manifest m)⟩ ∈ h

/-- The listing of the manifests that was answered. -/
def NamesListed (h : History Op Resp) (entries : List ListEntry) : Prop :=
  ⟨.s3 (.listObjectsV2 MANIFEST_PREFIX), .ok entries⟩ ∈ h

theorem records_listManifestNames :
    Records listManifestNames [] fun names h => printed h = [] ∧
      ∃ entries, NamesListed h entries ∧ names = manifestNames entries := by
  refine Follows.bind (R := fun entries h => printed h = [] ∧ NamesListed h entries)
    (Follows.bind (R := fun r h => h = [⟨.s3 (.listObjectsV2 MANIFEST_PREFIX), r⟩])
      (Follows.ask trivial fun r => rfl) ?_) ?_
  · rintro r h rfl
    cases r with
    | ok entries => exact Follows.pure ⟨rfl, List.mem_singleton_self _⟩
    | error e => exact Follows.throw rfl
  · rintro entries h ⟨hprint, hlisted⟩
    exact Follows.pure ⟨hprint, entries, hlisted, rfl⟩

theorem records_readManifest {name : String} {h : History Op Resp} (hprint : printed h = []) :
    Records (readManifest name) h fun m h' => printed h' = [] ∧ h ⊆ h' ∧
      ∃ m₀, WasRead h' name m₀ ∧ m = { m₀ with name } := by
  refine Follows.bind (R := fun body h' => printed h' = [] ∧ h ⊆ h' ∧
    ⟨.s3 (.getObject (manifestKey name)), .ok body⟩ ∈ h') ?_ ?_
  · refine Follows.mapFail (follows_getObject trivial (fun body => ?_) fun _ _ => hprint)
    exact ⟨hprint, List.subset_cons_self .., List.mem_cons_self ..⟩
  · rintro body h' ⟨hprint', hsub, hget⟩
    refine Follows.bind (R := fun m h'' => h'' = h' ∧ body = .manifest m)
      (follows_liftP (fun m hm => ⟨rfl, decodeManifest_ok hm⟩) fun _ _ => hprint') ?_
    rintro m h'' ⟨rfl, rfl⟩
    exact Follows.pure ⟨hprint', hsub, m, hget, rfl⟩

/-- The names of one listing are read, each once. -/
structure ReadAll (h : History Op Resp) (ms : List Manifest) : Prop where
  quiet : printed h = []
  listed : ∃ entries, NamesListed h entries ∧ (ms.map Manifest.name).Perm (manifestNames entries)
  read : ∀ m ∈ ms, ∃ m₀, WasRead h m.name m₀ ∧ m = { m₀ with name := m.name }

theorem records_readAllManifests : Records readAllManifests [] fun ms h => ReadAll h ms := by
  refine Follows.bind records_listManifestNames ?_
  rintro names h₁ ⟨hprint₁, entries, hlisted, rfl⟩
  refine Follows.bind (R := fun _ h => printed h = [] ∧ NamesListed h entries)
    (Follows.ask trivial fun order => ⟨hprint₁, List.mem_cons_of_mem _ hlisted⟩) ?_
  rintro order h₂ ⟨hprint₂, hlisted₂⟩
  refine Follows.mono (follows_collect (fun pre ms h => printed h = [] ∧ NamesListed h entries ∧
    ms.map Manifest.name = pre ∧ ∀ m ∈ ms, ∃ m₀, WasRead h m.name m₀ ∧
      m = { m₀ with name := m.name }) ?_ ⟨hprint₂, hlisted₂, rfl, by simp⟩) ?_ fun _ _ he => he
  · rintro pre ms name post h - ⟨hprint, hlist, hnames, hms⟩
    refine Follows.mono (records_readManifest hprint) ?_ fun _ _ he => he
    rintro m h' ⟨hprint', hsub, m₀, hread, rfl⟩
    refine ⟨hprint', hsub hlist, by simp [hnames], fun m hm => ?_⟩
    rcases List.mem_append.mp hm with hm | hm
    · obtain ⟨m₁, hm₁, heq⟩ := hms m hm
      exact ⟨m₁, hsub hm₁, heq⟩
    · obtain rfl := List.mem_singleton.mp hm
      exact ⟨m₀, hread, rfl⟩
  · rintro ms h ⟨hprint, hlist, hnames, hms⟩
    exact ⟨hprint, ⟨entries, hlist, hnames ▸ reorder_perm order _⟩, hms⟩

/-- The lines are printed one after the other. -/
theorem records_printEach {text : String} {items : List String} {h : History Op Resp}
    (hprint : printed h = []) :
    Follows (Watch.record Op Resp) (fun _ _ => True) (printEach text items) h
      (fun _ h' => printed h' = items.map (text ++ ·) ∧ h ⊆ h') fun _ _ => False := by
  refine Follows.bind (follows_collect (fun pre _ h' => printed h' = pre.map (text ++ ·) ∧ h ⊆ h')
    ?_ ⟨hprint, List.Subset.refl _⟩) ?_
  · rintro pre _ line post h' - ⟨hpre, hsub⟩
    refine Follows.ask trivial fun _ => ⟨?_, fun c hc => List.mem_cons_of_mem _ (hsub hc)⟩
    show printed h' ++ [text ++ line] = _
    rw [hpre, List.map_append]
    rfl
  · intro _ h' hp
    exact Follows.pure hp

-- ---------------------------------------------------------------------------
-- The command
-- ---------------------------------------------------------------------------

variable {cfg : Config} {shard replica : Option String}

/-- The snapshots that are shown, of those that were read. -/
def selected (shard replica : Option String) (ms : List Manifest) : List Manifest :=
  (ms.filter (matchesFlags shard replica)).insertionSort fun a b => a.timestamp ≤ b.timestamp

theorem perm_selected (ms : List Manifest) :
    (selected shard replica ms).Perm (ms.filter (matchesFlags shard replica)) :=
  List.perm_insertionSort ..

theorem mem_selected {ms : List Manifest} {m : Manifest} :
    m ∈ selected shard replica ms ↔ m ∈ ms ∧ matchesFlags shard replica m = true := by
  rw [(perm_selected ms).mem_iff, List.mem_filter]

theorem sorted_selected (ms : List Manifest) :
    (selected shard replica ms).Pairwise fun a b => a.timestamp ≤ b.timestamp := by
  have : Std.Total fun a b : Manifest => a.timestamp ≤ b.timestamp := ⟨fun a b => le_total _ _⟩
  have : IsTrans Manifest fun a b => a.timestamp ≤ b.timestamp := ⟨fun a b c => le_trans⟩
  exact List.pairwise_insertionSort ..

theorem records_listSnapshots :
    Records (listSnapshots cfg shard replica) [] fun _ h => ∃ ms h₁, h₁ ⊆ h ∧ ReadAll h₁ ms ∧
      printed h = (selected shard replica ms).map snapshotLine := by
  refine Follows.bind (R := fun _ h => h = []) (follows_liftP (fun _ _ => rfl) fun _ _ => rfl) ?_
  rintro - h rfl
  refine Follows.bind records_readAllManifests fun ms h₁ hread => ?_
  refine Follows.mono (records_printEach hread.quiet) ?_ fun _ _ h => h.elim
  rintro - h ⟨hprint, hsub⟩
  refine ⟨ms, h₁, hsub, hread, ?_⟩
  rw [hprint]
  exact List.map_id'' (fun line => String.empty_append) _

-- ---------------------------------------------------------------------------
-- Every run
-- ---------------------------------------------------------------------------

variable {tr : List (Event Op Resp World)} {p : Proc Op Resp AnyError Unit} {w w' : World}

/-- What was read under a name stood there at the time. -/
theorem WasRead.holds {beside : World → World → Prop} {q : P Unit} {name : String} {m : Manifest}
    (h : WasRead p.hist name m) (hrun : Proc.Trace Answers beside ⟨q, []⟩ w tr p w') :
    ∃ e ∈ tr, e.before.Holds name m := by
  obtain ⟨e, he, hcall⟩ := (hrun.mem_hist _ h).resolve_left List.not_mem_nil
  refine ⟨e, he, ?_⟩
  have hans := hrun.answered e he
  rw [hcall] at hans
  exact (get?_of_getObject hans).2

/-- A listing shows what is there at the time. -/
theorem NamesListed.listing {beside : World → World → Prop} {q : P Unit} {entries : List ListEntry}
    (h : NamesListed p.hist entries) (hrun : Proc.Trace Answers beside ⟨q, []⟩ w tr p w') :
    ∃ e ∈ tr, entries = S3Op.listing e.before MANIFEST_PREFIX := by
  obtain ⟨e, he, hcall⟩ := (hrun.mem_hist _ h).resolve_left List.not_mem_nil
  refine ⟨e, he, ?_⟩
  have hans := hrun.answered e he
  rw [hcall] at hans
  exact (Except.ok.inj (Prod.mk.inj hans).1).symm

/-- **What a listing shows.** Whatever becomes of the bucket meanwhile: a run that ends
well prints a line for each snapshot that it shows, and one that fails prints nothing. -/
theorem snapshots_shown {beside : World → World → Prop} {json : Json} {isAlphabetic : Char → Bool}
    {decodeContent : ManifestFile → Except AnyError Bytes} {occupied : Except AnyError Bool}
    (hrun : Proc.Trace Answers beside
      ⟨asyncMain json isAlphabetic decodeContent cfg occupied (.listSnapshots shard replica), []⟩
      w tr p w') :
    (p.prog = .done () → ∃ shown, Shows shard replica tr shown ∧
      printed p.hist = shown.map snapshotLine) ∧
    ∀ e, p.prog = .fail e → printed p.hist = [] := by
  have hend := (hrun.follows (M := Watch.record Op Resp) records_listSnapshots).1
  rw [Watch.view_record] at hend
  refine ⟨fun hdone => ?_, fun e hfail => ?_⟩
  · rw [hdone] at hend
    obtain ⟨ms, h₁, hsub, ⟨-, ⟨entries, hlisted, hperm⟩, hread⟩, hprint⟩ := hend
    obtain ⟨e, he, hentries⟩ := NamesListed.listing (hsub hlisted) hrun
    refine ⟨selected shard replica ms, ⟨sorted_selected ms, ?_, ?_, ?_⟩, hprint⟩
    · have hnodup : (ms.map Manifest.name).Nodup := by
        rw [hperm.nodup_iff, hentries]
        exact nodup_manifestNames _
      have hfilter := hnodup.sublist ((List.filter_sublist (p := matchesFlags shard replica)).map
        Manifest.name)
      exact ((perm_selected ms).map _).nodup_iff.mpr hfilter
    · intro m hm
      obtain ⟨hmem, hmatches⟩ := mem_selected.mp hm
      obtain ⟨m₀, hm₀, heq⟩ := hread m hmem
      obtain ⟨e', he', hholds⟩ := WasRead.holds (hsub hm₀) hrun
      exact ⟨hmatches, e', he', m₀, hholds, heq⟩
    · intro name m hthere hmatches
      -- its name was listed, so it was read, and it has not changed since
      have hname : name ∈ ms.map Manifest.name := by
        obtain ⟨o, ho, -⟩ := hthere e he
        rw [hperm.mem_iff, hentries]
        exact mem_manifestNames.mpr ⟨o, ho⟩
      obtain ⟨m', hm', rfl⟩ := List.mem_map.mp hname
      obtain ⟨m₀, hm₀, heq⟩ := hread m' hm'
      obtain ⟨e', he', hholds⟩ := WasRead.holds (hsub hm₀) hrun
      obtain rfl := hholds.unique (hthere e' he')
      refine mem_selected.mpr ⟨?_, hmatches⟩
      rw [← heq]
      exact hm'
  · rw [hfail] at hend
    exact hend

/-- A bucket with two snapshots. -/
def twoSnapshots : World where
  objects := [(manifestKey "a", ⟨.manifest ⟨"a", 5, "s1", "r1", "host", [], []⟩, 0, 0⟩),
    (manifestKey "b", ⟨.manifest ⟨"b", 3, "s1", "", "host", [], []⟩, 1, 0⟩)]
  fresh := 2

/-- The earlier one is shown first. -/
theorem snapshots_shown_twoSnapshots : ∃ tr p w' shown, Proc.Trace Answers Eq
    ⟨(siteRuns (.listSnapshots (some "s1") none)).prog, []⟩ twoSnapshots tr p w' ∧
    printed p.hist = ["b  1970-01-01 00:00:03 UTC  shard=s1  replica=-  tables=0",
      "a  1970-01-01 00:00:05 UTC  shard=s1  replica=r1  tables=0"] ∧
    Shows (some "s1") none tr shown ∧ printed p.hist = shown.map snapshotLine := by
  have hend : (runAlone (List.replicate 6 served) []
      ⟨(siteRuns (.listSnapshots (some "s1") none)).prog, []⟩ twoSnapshots).any (fun x =>
        returned x.2.1 && decide (printed x.2.1.hist =
          ["b  1970-01-01 00:00:03 UTC  shard=s1  replica=-  tables=0",
            "a  1970-01-01 00:00:05 UTC  shard=s1  replica=r1  tables=0"])) = true := by
    decide +kernel
  obtain ⟨tr, p, w', hrun, hend⟩ := exists_trace_of_runAlone hend
  obtain ⟨hdone, hlines⟩ := Bool.and_eq_true_iff.mp hend
  obtain ⟨shown, hshows, hprinted⟩ := (snapshots_shown hrun).1 (done_of_returned hdone)
  exact ⟨tr, p, w', shown, hrun, of_decide_eq_true hlines, hshows, hprinted⟩

end Chbk
