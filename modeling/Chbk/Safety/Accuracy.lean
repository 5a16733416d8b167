import Chbk.Safety.Listing
import Chbk.Safety.Schedule

/-!
# What a backup commits to

Runs of a backup, whatever it is answered, held against its ledger.

* `manifest_accurate` — the manifest is that of the last list of parts, with one
  source for each size.
* `all_staged_iff` — when the retries leave a part behind that is not staged.
-/

namespace Chbk

open Lib Prog

-- ---------------------------------------------------------------------------
-- Runs
-- ---------------------------------------------------------------------------

section

variable {W : Type} {answers : (op : Op) → W → Resp op → W → Prop} {beside : W → W → Prop}
  {json : Json} {cfg : Config} {name : Option String} {tr : List (Event Op Resp W)}
  {p : Proc Op Resp AnyError String} {w w' : W}

/-- What a backup was told up to here. -/
def ledgerOf (json : Json) (cfg : Config) (hist : History Op Resp) : Ledger :=
  (ledgerWatch json cfg).view hist

/-- The call writes this manifest. -/
def Writes (x : Event Op Resp W) (m : Manifest) : Prop :=
  ∃ key ifMatch ifNoneMatch, x.call.1 = .s3 (.putObject key (.manifest m) ifMatch ifNoneMatch)

/-- Whatever a backup is answered, a manifest that it writes is that of the last
list of parts, and no check of the sizes fails. -/
theorem manifest_accurate
    (hrun : Proc.Trace answers beside ⟨createSnapshot json cfg name, []⟩ w tr p w') :
    (∀ x ∈ tr, ∀ m, Writes x m → Accurate (ledgerOf json cfg x.hist) m) ∧
      ∀ e, p.prog = .fail e → SizeError e → e ∈ (ledgerOf json cfg p.hist).told := by
  obtain ⟨hend, hrule⟩ := hrun.follows (follows_ledger json cfg name)
  constructor
  · rintro ⟨hist, before, ⟨op, r⟩, after⟩ hx m ⟨key, ifMatch, ifNoneMatch, rfl⟩
    exact hrule _ hx
  · intro e he hsize
    rw [he] at hend
    rcases hend with htold | ⟨hnot, -⟩
    · exact htold (.inl hsize)
    · -- no error is of both kinds
      obtain ⟨hash, rfl⟩ := hnot
      obtain ⟨hash', h | ⟨prev, size, h⟩⟩ := hsize
      · have hhead := congrArg (fun e => (e.headD "").toList.head?) h
        simp only [List.headD_cons, String.toList_append] at hhead
        cases hhead
      · have hhead := congrArg (fun e => (e.headD "").toList.head?) h
        simp only [List.headD_cons, String.toList_append] at hhead
        cases hhead

/-- Both loops are behind the backup: it goes on to the uploads, or the check
that all is staged has failed. -/
def LeftLoops (json : Json) (cfg : Config) (p : Proc Op Resp AnyError String) : Prop :=
  p.next? = some (.env (.localStep "remove the staged parts not in use")) ∨
    ∃ e, p.prog = .fail e ∧ NotStaged e ∧ e ∉ (ledgerOf json cfg p.hist).told

theorem Ledger.AllStaged.settled {v : Ledger} (h : v.AllStaged) : v.Settled := by
  intro p hp
  by_cases hknown : p.hashOfAllFiles ∈ v.latest.map ManifestPart.blobHash
  · exact .inr (.inl hknown)
  · by_cases hfound : blobRemoteKey p.hashOfAllFiles ∈ v.found.map Prod.fst
    · exact .inr (.inr (.inl hfound))
    · exact .inr (.inr (.inr (h p hp hknown hfound)))

/-- Behind both loops all is staged, and the check passes, if and only if no
metadata retry has brought in a hash that nothing covers. -/
theorem all_staged_iff
    (hrun : Proc.Trace answers beside ⟨createSnapshot json cfg name, []⟩ w tr p w')
    (hleft : LeftLoops json cfg p) :
    ((ledgerOf json cfg p.hist).AllStaged ↔ (ledgerOf json cfg p.hist).Settled) ∧
      ((∃ e, p.prog = .fail e) ↔ ¬ (ledgerOf json cfg p.hist).Settled) := by
  obtain ⟨hend, -⟩ := hrun.follows (follows_ledger json cfg name)
  rcases hleft with hnext | ⟨e, he, hnot, htold⟩
  · obtain ⟨prog, hist⟩ := p
    cases prog with
    | done a => cases hnext
    | fail e => cases hnext
    | call op k =>
      obtain rfl := Option.some.inj (show some op = some _ from hnext)
      have hall : (ledgerOf json cfg hist).AllStaged := hend.1 rfl
      refine ⟨⟨fun h => h.settled, fun _ => hall⟩, ?_, fun h => absurd hall.settled h⟩
      rintro ⟨e, he⟩
      cases he
  · rw [he] at hend
    have hbad : ¬ (ledgerOf json cfg p.hist).Settled := by
      rcases hend with h | h
      · exact absurd (h (.inr hnot)) htold
      · exact h.2
    exact ⟨⟨fun h => h.settled, fun h => absurd h hbad⟩, fun _ => hbad, fun _ => ⟨e, he⟩⟩

end

-- ---------------------------------------------------------------------------
-- Runs of the site
-- ---------------------------------------------------------------------------

/-- A run that is computed, with what is checked at its end. -/
theorem exists_run (json : Json) (as : List Answer)
    (check : List (Event Op Resp World) × Proc Op Resp AnyError String × World → Bool)
    (h : (runAlone as [] ⟨createSnapshot json siteConfig none, []⟩ {}).any check = true) :
    ∃ tr p w', Proc.Trace Answers Eq ⟨createSnapshot json siteConfig none, []⟩ {} tr p w' ∧
      check (tr, p, w') = true := by
  cases hrun : runAlone as [] ⟨createSnapshot json siteConfig none, []⟩ {} with
  | none =>
    rw [hrun] at h
    cases h
  | some x =>
    rw [hrun] at h
    exact ⟨x.1, x.2.1, x.2.2, trace_of_runAlone .start hrun, h⟩

/-- The manifest a call writes. -/
def writtenManifest (x : Event Op Resp World) : Option Manifest :=
  match x.call.1 with
  | .s3 (.putObject _ (.manifest m) _ _) => some m
  | _ => none

theorem writes_of_writtenManifest {x : Event Op Resp World} {m : Manifest}
    (h : writtenManifest x = some m) : Writes x m := by
  unfold writtenManifest at h
  split at h
  · rename_i key m' ifMatch ifNoneMatch hcall
    obtain rfl := Option.some.inj h
    exact ⟨key, ifMatch, ifNoneMatch, hcall⟩
  · cases h

theorem exists_siteBackup : ∃ tr p w', Proc.Trace Answers Eq
    ⟨createSnapshot siteJson siteConfig none, []⟩ {} tr p w' ∧ ∃ x ∈ tr, ∃ m, Writes x m := by
  obtain ⟨tr, p, w', hrun, hcheck⟩ := exists_run siteJson (List.replicate 26 served)
    (fun x => x.1.any fun y => (writtenManifest y).isSome) (by decide +kernel)
  obtain ⟨x, hx, hm⟩ := List.any_eq_true.mp hcheck
  obtain ⟨m, hm⟩ := Option.isSome_iff_exists.mp hm
  exact ⟨tr, p, w', hrun, x, hx, m, writes_of_writtenManifest hm⟩

/-- A backup of the site writes its manifest. -/
theorem manifest_accurate_site : ∃ tr p w', Proc.Trace Answers Eq
      ⟨createSnapshot siteJson siteConfig none, []⟩ {} tr p w' ∧
    (∃ x ∈ tr, ∃ m, Writes x m) ∧
    (∀ x ∈ tr, ∀ m, Writes x m → Accurate (ledgerOf siteJson siteConfig x.hist) m) ∧
      ∀ e, p.prog = .fail e → SizeError e → e ∈ (ledgerOf siteJson siteConfig p.hist).told := by
  obtain ⟨tr, p, w', hrun, hwrites⟩ := exists_siteBackup
  exact ⟨tr, p, w', hrun, hwrites, manifest_accurate hrun⟩

/-- The backup stands before the removal of the parts not in use. -/
def atRemoval (p : Proc Op Resp AnyError String) : Bool :=
  match p.next? with
  | some (.env (.localStep what)) => what = "remove the staged parts not in use"
  | _ => false

theorem next_of_atRemoval {p : Proc Op Resp AnyError String} (h : atRemoval p = true) :
    p.next? = some (.env (.localStep "remove the staged parts not in use")) := by
  unfold atRemoval at h
  split at h
  · rename_i what hnext
    rw [hnext, of_decide_eq_true h]
  · cases h

/-- A backup of the site, with no metadata retry. -/
theorem all_staged_iff_site : ∃ tr p w', Proc.Trace Answers Eq
      ⟨createSnapshot siteJson siteConfig none, []⟩ {} tr p w' ∧ LeftLoops siteJson siteConfig p ∧
    ((ledgerOf siteJson siteConfig p.hist).AllStaged ↔
        (ledgerOf siteJson siteConfig p.hist).Settled) ∧
      ((∃ e, p.prog = .fail e) ↔ ¬ (ledgerOf siteJson siteConfig p.hist).Settled) := by
  obtain ⟨tr, p, w', hrun, hcheck⟩ := exists_run siteJson (List.replicate 12 served)
    (fun x => atRemoval x.2.1) (by decide +kernel)
  have hleft : LeftLoops siteJson siteConfig p := .inl (next_of_atRemoval hcheck)
  exact ⟨tr, p, w', hrun, hleft, all_staged_iff hrun hleft⟩

def newHash : String := "ffeeddccbbaa99887766554433221100"

/-- The JSON library of the site, with a row for a new part. -/
def retryJson : Json where
  fromStr line :=
    if line = "new" then
      some (.object [("database", .string "db"), ("table", .string "t"),
        ("name", .string "all_2_2_0"), ("path", .string "/ch/t/all_2_2_0/"),
        ("hash_of_all_files", .string newHash), ("bytes_on_disk", .string "1"),
        ("rows", .string "1")])
    else siteJson.fromStr line
  toStr := siteJson.toStr

/-- There is no DDL file. -/
def noDdl : Answer :=
  ⟨fun
    | .readFile _ => some (.error ["No such file or directory"])
    | o => siteEnv o, none⟩

/-- There is a new part in the list. -/
def newPart : Answer :=
  ⟨fun
    | .runQuery _ => some (.ok "row\nnew")
    | o => siteEnv o, none⟩

instance (v : Ledger) : Decidable v.AllStaged :=
  inferInstanceAs (Decidable (∀ p ∈ v.listing, _ → _ → _))

/-- The backup has failed on a part that is not staged. -/
def failsUnstaged (p : Proc Op Resp AnyError String) : Bool :=
  match p.prog with
  | .fail e => e = ["Need upload for " ++ newHash ++ " but not staged"] ∧
      e ∉ (ledgerOf retryJson siteConfig p.hist).told
  | _ => false

/-- A DDL file is missing, and the parts that are asked for again have a new one
among them: both loops end without an error, and the new part is not staged. -/
theorem retry_leaves_unstaged : ∃ tr p w', Proc.Trace Answers Eq
    ⟨createSnapshot retryJson siteConfig none, []⟩ {} tr p w' ∧ LeftLoops retryJson siteConfig p ∧
    p.prog = .fail ["Need upload for " ++ newHash ++ " but not staged"] ∧
    ¬ (ledgerOf retryJson siteConfig p.hist).AllStaged := by
  obtain ⟨tr, p, w', hrun, hcheck⟩ := exists_run retryJson
    (List.replicate 8 served ++ [noDdl, newPart] ++ List.replicate 4 served)
    (fun x => failsUnstaged x.2.1 && !decide (ledgerOf retryJson siteConfig x.2.1.hist).AllStaged)
    (by decide +kernel)
  obtain ⟨hfails, hbad⟩ := Bool.and_eq_true_iff.mp hcheck
  unfold failsUnstaged at hfails
  split at hfails
  · rename_i e he
    obtain ⟨rfl, htold⟩ := of_decide_eq_true hfails
    exact ⟨tr, p, w', hrun, .inr ⟨_, he, ⟨newHash, rfl⟩, htold⟩, he, by simpa using hbad⟩
  · cases hfails

end Chbk
