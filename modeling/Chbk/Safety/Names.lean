import Chbk.Safety.Commands

/-!
# Names of snapshots

Any number of commands of every kind on one bucket, in any interleaving, next to
heartbeats and the passing of time, with calls that fail with their effect or
without, and commands that stop at any point.

* `wrote` — the manifests a command knows it has written.
* `Named.keeps` — as long as no command may remove a name, its manifest stays as it
  is, and at most one command has written it.
* `snapshot_names` — with it: a backup that ends well is the only one of its name,
  and its manifest is in the bucket.
-/

namespace Chbk

open Lib Prog

-- ---------------------------------------------------------------------------
-- What a command has written
-- ---------------------------------------------------------------------------

/-- The manifests whose PUT has succeeded. -/
def wroteWatch : Watch Op Resp (List Manifest) where
  init := []
  observe ms
    | .s3 (.putObject _ (.manifest m) _ _), .ok _ => m :: ms
    | _, _ => ms

def wrote (p : Proc Op Resp AnyError Unit) : List Manifest := wroteWatch.view p.hist

theorem mem_observe_wrote {ms : List Manifest} {m : Manifest} {op : Op} {r : Resp op}
    (h : m ∈ wroteWatch.observe ms op r) :
    m ∈ ms ∨ ∃ key ifMatch ifNoneMatch etag, (⟨op, r⟩ : Called Op Resp) =
      ⟨.s3 (.putObject key (.manifest m) ifMatch ifNoneMatch), .ok etag⟩ := by
  simp only [wroteWatch] at h
  split at h
  · rcases List.mem_cons.mp h with rfl | h
    · exact .inr ⟨_, _, _, _, rfl⟩
    · exact .inl h
  · exact .inl h

theorem follows_anything {α : Type} (p : P α) (ms : List Manifest) :
    Follows wroteWatch (fun _ _ => True) p ms (fun _ _ => True) fun _ _ => True :=
  (only_true p).follows (I := fun _ => True) (fun _ _ _ _ => trivial) (fun _ _ _ _ _ => trivial)
    trivial

theorem follows_wroteManifest (m : Manifest) (ms : List Manifest) :
    Follows wroteWatch (fun _ _ => True) (writeManifest m) ms (fun _ ms' => m ∈ ms')
      fun _ _ => True := by
  refine Follows.bind (R := fun x ms' => x.2 = false → m ∈ ms') (Follows.mapFail
    (Follows.bind (R := fun r ms' => ∀ etag, r = .ok etag → m ∈ ms')
      (Follows.ask trivial fun r => ?_) fun r ms' hr => ?_)) fun x ms' hx => ?_
  · rintro etag rfl
    exact List.mem_cons_self ..
  · cases r with
    | ok etag => exact Follows.pure fun _ => hr etag rfl
    | error e =>
      dsimp only
      split
      · exact Follows.pure (by simp)
      · exact Follows.throw trivial
  · dsimp only
    split
    · exact Follows.throw trivial
    · rename_i hconflict
      exact Follows.pure (hx (by simpa using hconflict))

/-- A backup that returns has written a manifest of a name it may use. -/
theorem follows_wrote (x : Invocation) :
    Follows wroteWatch (fun _ _ => True) x.prog [] (fun _ ms => x.cmd.BacksUp →
      ∃ m ∈ ms, x.cmd.Creates m.name) fun _ _ => True := by
  obtain ⟨json, isAlphabetic, decodeContent, cfg, occupied, cmd⟩ := x
  cases cmd with
  | createSnapshot given =>
    refine Follows.bind (R := fun _ ms => ∃ m ∈ ms, (Commands.createSnapshot given).Creates m.name)
      ?_ fun n ms hms => Follows.ask trivial fun _ _ => hms
    refine (follows_anything _ _).bind fun timestamp _ _ => ?_
    refine (follows_anything _ _).bind fun storage _ _ => ?_
    refine (follows_anything _ _).bind fun parts _ _ => ?_
    refine (follows_anything _ _).bind fun ident _ _ => ?_
    refine Follows.bind (R := fun n _ => (Commands.createSnapshot given).Creates n) ?_
      fun name _ hname => ?_
    · cases given with
      | none => exact Follows.mono (follows_anything _ _) (fun _ _ _ => trivial) fun _ _ _ => trivial
      | some name => exact Follows.pure rfl
    refine (follows_anything _ _).bind fun known _ _ => ?_
    refine (follows_anything _ _).bind fun prep _ _ => ?_
    refine (follows_anything _ _).bind fun sizes _ _ => ?_
    refine (follows_anything _ _).bind fun manifestParts _ _ => ?_
    refine (follows_anything _ _).bind fun createdBy _ _ => ?_
    exact (follows_wroteManifest _ _).bind fun _ ms hm => Follows.pure ⟨_, hm, hname⟩
  | _ => exact Follows.mono (follows_anything _ _) (fun _ _ _ h => h.elim) fun _ _ _ => trivial

-- ---------------------------------------------------------------------------
-- A name that nobody removes
-- ---------------------------------------------------------------------------

variable {κ : Type} [DecidableEq κ] {runs : κ → Invocation} {name : String} {w₀ : World}

/-- No command may remove the manifest of this name. -/
def Kept (runs : κ → Invocation) (name : String) : Prop := ∀ k, ¬ (runs k).cmd.Removes name

/-- What is under the name since world `w₀`: what was there has stayed, and what a
command has written is there, and is its alone. -/
structure Named (name : String) (w₀ : World) (ws : κ → List Manifest) (w : World) : Prop where
  stays : ∀ o, w₀.get? (manifestKey name) = some o → w.get? (manifestKey name) = some o
  holds : ∀ k, ∀ m ∈ ws k, m.name = name → w₀.get? (manifestKey name) = none ∧ w.Holds name m
  one : ∀ k l, ∀ m ∈ ws k, ∀ m' ∈ ws l, m.name = name → m'.name = name → k = l

/-- What is under a name that is not removed changes only where nothing was. -/
theorem get?_manifestKey_of_may {cmd : Commands} {op : Op} {w w' : World} {r : Resp op}
    (hcmd : ¬ cmd.Removes name) (h : cmd.May op) (hans : Answers op w r w') :
    w'.get? (manifestKey name) = w.get? (manifestKey name) ∨
      w.get? (manifestKey name) = none := by
  by_cases hne : w'.get? (manifestKey name) = w.get? (manifestKey name)
  · exact .inl hne
  · right
    cases h.touches hans hne with
    | lock _ hkey => exact absurd hkey (manifestKey_ne_lock name)
    | wrote m o _ _ hbefore => exact hbefore
    | uploaded hash o bs _ hkey => exact absurd hkey (manifestKey_ne_blobRemoteKey name hash)
    | removed n hremoves hkey => exact absurd (manifestKey_inj hkey ▸ hremoves) hcmd
    | swept hash _ hkey => exact absurd hkey (manifestKey_ne_blobRemoteKey name hash)

theorem stays_of_may {cmd : Commands} {op : Op} {w w' : World} {r : Resp op} {o : Object}
    (hcmd : ¬ cmd.Removes name) (h : cmd.May op) (hans : Answers op w r w')
    (ho : w.get? (manifestKey name) = some o) : w'.get? (manifestKey name) = some o := by
  rcases get?_manifestKey_of_may hcmd h hans with hsame | hnone
  · exact hsame.trans ho
  · rw [hnone] at ho
    cases ho

/-- A manifest that is newly known to be written was not there, and now is. -/
theorem holds_of_put {cmd : Commands} {key : String} {m : Manifest} {ifMatch : Option ETag}
    {ifNoneMatch : Bool} {etag : ETag} {w w' : World}
    (h : cmd.May (.s3 (.putObject key (.manifest m) ifMatch ifNoneMatch)))
    (hans : S3Answers (.putObject key (.manifest m) ifMatch ifNoneMatch) w (.ok etag) w') :
    w.get? (manifestKey m.name) = none ∧ w'.Holds m.name m := by
  rcases h with ⟨-, -, info, hbody⟩ | ⟨m', -, rfl, hbody, rfl, rfl⟩
  · cases hbody
  · obtain rfl := Body.manifest.inj hbody
    simp only [S3Answers, S3Op.perform] at hans
    split at hans
    · rename_i hm _
      cases hm
    · rename_i hm _
      cases hm
    · simp at hans
    · rename_i hnone
      obtain ⟨-, rfl⟩ := Prod.mk.inj hans
      refine ⟨hnone, ⟨.manifest m, w.fresh, w.now⟩, ?_, rfl⟩
      rw [World.get?_putBody, if_pos rfl]

theorem keeps_true : Team.Keeps Answers SameButLock wroteWatch (fun k _ op => (runs k).cmd.May op)
    fun _ _ => True := ⟨fun _ _ _ => trivial, fun _ _ => trivial⟩

/-- An object under the name stays. -/
theorem keeps_object (hkept : Kept runs name) (o : Object) :
    Team.Keeps Answers SameButLock wroteWatch (fun k _ op => (runs k).cmd.May op)
      fun _ w => w.get? (manifestKey name) = some o where
  beside := fun ho hw => (hw _ (manifestKey_ne_lock name)).trans ho
  call := fun ho hmay hans => stays_of_may (hkept _) hmay hans ho

/-- One call, while no command may remove the name. -/
theorem Named.keeps (hkept : Kept runs name) :
    Team.Keeps Answers SameButLock wroteWatch (fun k _ op => (runs k).cmd.May op)
      (Named name w₀) where
  beside := by
    intro ws w w' hI hw
    have hsame := hw (manifestKey name) (manifestKey_ne_lock name)
    refine ⟨fun o ho => hsame.trans (hI.stays o ho), fun k m hm hname => ?_, hI.one⟩
    obtain ⟨hnone, hholds⟩ := hI.holds k m hm hname
    exact ⟨hnone, (SameButLock.holds hw).mpr hholds⟩
  call := by
    intro ws w w' i op r hI hmay hans
    have hstays : ∀ o, w.get? (manifestKey name) = some o → w'.get? (manifestKey name) = some o :=
      fun o ho => stays_of_may (hkept i) hmay hans ho
    -- who has written it now did so before, or by this call, where nothing was
    have hwho : ∀ k, ∀ m ∈ Function.update ws i (wroteWatch.observe (ws i) op r) k,
        m.name = name → m ∈ ws k ∨ (k = i ∧ w.get? (manifestKey name) = none ∧ w'.Holds name m) := by
      intro k m hm hname
      by_cases hk : k = i
      · subst hk
        rw [Function.update_self] at hm
        rcases mem_observe_wrote hm with hm | ⟨key, ifMatch, ifNoneMatch, etag, hcall⟩
        · exact .inl hm
        · cases hcall
          exact .inr ⟨rfl, hname ▸ holds_of_put hmay hans⟩
      · rw [Function.update_of_ne hk] at hm
        exact .inl hm
    refine ⟨fun o ho => hstays o (hI.stays o ho), fun k m hm hname => ?_, ?_⟩
    · rcases hwho k m hm hname with hm | ⟨-, hnone, hholds⟩
      · obtain ⟨hnone, o, ho, hb⟩ := hI.holds k m hm hname
        exact ⟨hnone, o, hstays o ho, hb⟩
      · refine ⟨?_, hholds⟩
        by_contra hsome
        obtain ⟨o, ho⟩ := Option.ne_none_iff_exists'.mp hsome
        rw [hI.stays o ho] at hnone
        cases hnone
    · intro k l m hm m' hm' hname hname'
      have hclash : ∀ k, ∀ m ∈ ws k, m.name = name → w.get? (manifestKey name) ≠ none := by
        intro k m hm hname hnone
        obtain ⟨-, o, ho, -⟩ := hI.holds k m hm hname
        rw [hnone] at ho
        cases ho
      rcases hwho k m hm hname with hold | ⟨rfl, hnone, -⟩
      · rcases hwho l m' hm' hname' with hold' | ⟨-, hnone', -⟩
        · exact hI.one k l m hold m' hold' hname hname'
        · exact absurd hnone' (hclash k m hold hname)
      · rcases hwho l m' hm' hname' with hold' | ⟨rfl, -, -⟩
        · exact absurd hnone (hclash l m' hold' hname')
        · rfl

-- ---------------------------------------------------------------------------
-- All commands together
-- ---------------------------------------------------------------------------

/-- What a bucket and its commands agree on from `x` to `y`, since `w`. -/
structure NamesAgree (runs : κ → Invocation) (w : World)
    (x y : (κ → Proc Op Resp AnyError Unit) × World) : Prop where
  /-- A manifest that no command may remove stays as it is. -/
  stays : ∀ name, Kept runs name → ∀ m, x.2.Holds name m → y.2.Holds name m
  /-- A backup that ends well has written its manifest, -/
  written : ∀ k, (runs k).cmd.BacksUp → (y.1 k).prog = .done () →
    ∃ m ∈ wrote (y.1 k), (runs k).cmd.Creates m.name
  /-- which was not there, and now is, -/
  holds : ∀ k, ∀ m ∈ wrote (y.1 k), Kept runs m.name →
    w.get? (manifestKey m.name) = none ∧ y.2.Holds m.name m
  /-- and nobody else has written one of its name. -/
  one : ∀ k l, ∀ m ∈ wrote (y.1 k), ∀ m' ∈ wrote (y.1 l), m.name = m'.name → Kept runs m.name →
    k = l ∧ m = m'

variable {w : World} {x y : (κ → Proc Op Resp AnyError Unit) × World}

omit [DecidableEq κ] in
theorem obeys_start (k : κ) :
    Proc.Obeys wroteWatch (fun _ op => (runs k).cmd.May op) ⟨(runs k).prog, []⟩ :=
  Proc.obeys_of_only (runs k).only

/-- Up to any point: who has written what under a name. -/
theorem named_of_moves (hkept : Kept runs name)
    (hrun : Team.Moves Answers SameButLock (fun k => ⟨(runs k).prog, []⟩, w) y) :
    Named name w (fun k => wrote (y.1 k)) y.2 := by
  refine ((Named.keeps hkept).moves hrun obeys_start ⟨fun o ho => ho, ?_, ?_⟩).2
  · intro k m hm
    cases hm
  · intro k l m hm
    cases hm

/-- **Snapshots of one name.** Any number of commands, of every kind and with any
arguments, run on one bucket: what may be removed is named by the arguments, all else
stays, and of several backups of one name one ends well at most. -/
theorem snapshot_names
    (hx : Team.Moves Answers SameButLock (fun k => ⟨(runs k).prog, []⟩, w) x)
    (hy : Team.Moves Answers SameButLock x y) : NamesAgree runs w x y where
  stays := by
    rintro name hkept m ⟨o, ho, hb⟩
    have hobeys := (keeps_true.moves hx obeys_start trivial).1
    exact ⟨o, ((keeps_object hkept o).moves hy hobeys ho).2, hb⟩
  written := by
    intro k hcmd hdone
    obtain ⟨tr, htrace⟩ := Team.trace_of_moves (hx.trans hy) k
    have hend := (htrace.follows (follows_wrote (runs k))).1
    rw [hdone] at hend
    exact hend hcmd
  holds := fun k m hm hkept => (named_of_moves hkept (hx.trans hy)).holds k m hm rfl
  one := by
    intro k l m hm m' hm' hname hkept
    have hnamed := named_of_moves hkept (hx.trans hy)
    obtain rfl := hnamed.one k l m hm m' hm' rfl hname.symm
    exact ⟨rfl, (hnamed.holds k m hm rfl).2.unique (hnamed.holds k m' hm' hname.symm).2⟩

/-- Two backups of one name. -/
def twoBackups : Bool → Invocation := fun _ => siteRuns (.createSnapshot (some "snap1"))

/-- One of them makes all its calls, and ends well. -/
theorem exists_twoBackupsRun : ∃ ps w',
    Team.Moves Answers SameButLock (fun k => ⟨(twoBackups k).prog, []⟩, {}) (ps, w') ∧
      (ps true).prog = .done () := by
  have hend : (runAlone (List.replicate 26 served) [] ⟨(twoBackups true).prog, []⟩ {}).any
      (fun x => returned x.2.1) = true := by
    decide +kernel
  obtain ⟨tr, p, w', hrun, hdone⟩ := exists_trace_of_runAlone hend
  refine ⟨Function.update (fun k => ⟨(twoBackups k).prog, []⟩) true p, w',
    Team.moves_of_trace hrun, ?_⟩
  rw [Function.update_self]
  exact done_of_returned hdone

/-- Its manifest is then in the bucket. -/
theorem snapshot_names_two : ∃ ps w', (ps true).prog = .done () ∧
    (∃ m, w'.Holds "snap1" m) ∧
    NamesAgree twoBackups {} (fun k => ⟨(twoBackups k).prog, []⟩, {}) (ps, w') := by
  obtain ⟨ps, w', hrun, hdone⟩ := exists_twoBackupsRun
  have hagree : NamesAgree twoBackups {} _ (ps, w') := snapshot_names .refl hrun
  obtain ⟨m, hm, hname⟩ := hagree.written true trivial hdone
  have hkept : Kept twoBackups m.name := fun k h => h
  have hname' : m.name = "snap1" := hname
  exact ⟨ps, w', hdone, ⟨m, hname' ▸ (hagree.holds true m hm hkept).2⟩, hagree⟩

end Chbk
