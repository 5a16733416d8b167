import Chbk.Model.Shared
import Chbk.Safety.Whole

/-!
# Archives beside another backup

A backup wipes the staging directory, stages a part, collects the files and archives them,
while another one with the same `BACKUP_DIR` wipes, links and cleans up there, one file at a
time. The second takes files away that the first has linked, before it has come to them.

* `SparedAnswers` — calls beside steps that take away nothing the run relies on.
* `steps_of_answer` — a call of a run is made of the steps that the other one sees.
* `archivePart_complete` — in a run that is spared, each file of the part is in the archive.
* `archivePart_incomplete` — without that, a file is taken away before the walk, and the
  archive is written without it.
-/

namespace Chbk

open Lib Prog

-- ---------------------------------------------------------------------------
-- What the run relies on
-- ---------------------------------------------------------------------------

/-- A pass begins with a look at the part. -/
def startsPass : StageOp → Bool
  | .pathExists .src => true
  | _ => false

/-- The calls since the last pass began. -/
def thisPass : StageHistory → StageHistory
  | [] => []
  | c :: h => if startsPass c.1 = true then [] else c :: thisPass h

/-- The run takes the file to be in the directory: in its last pass it has linked it, or has
found it there, or has walked over all of the directory. -/
def Relies (h : StageHistory) (p : RelPath) : Prop :=
  (⟨.hardLink p, .ok ()⟩ : Called StageOp StageResp) ∈ thisPass h ∨
    (⟨.hardLink p, .error .alreadyExists⟩ : Called StageOp StageResp) ∈ thisPass h ∨
      ∃ entries, (⟨.walkDir .dst, entries⟩ : Called StageOp StageResp) ∈ thisPass h

/-- The step takes away no file that the run relies on. -/
def SparesLinked (source : Tree) (h : StageHistory) (s s' : Staging) : Prop :=
  ∀ p bs, source.fileAt p = some bs → Relies h p → s.dst.lookup p ≠ none →
    s'.dst.lookup p ≠ none

/-- The calls of a pass that has found the part staged. -/
def foundStaged : StageHistory :=
  [⟨.pathExists .dst, true⟩, ⟨.pathExists .marker, true⟩, ⟨.pathExists .src, true⟩]

/-- What the run has found staged and walked over is the whole part. -/
def FindsWhole (source : Tree) (x : Staging × StageHistory) : Prop :=
  ∀ entries h, x.2 = ⟨.walkDir .dst, entries⟩ :: (foundStaged ++ h) → x.1.dst.HoldsAll source

/-- A call of a run that the other one spares. -/
def SparedAnswers (source : Tree) (op : StageOp) (x : Staging × StageHistory) (r : StageResp op)
    (x' : Staging × StageHistory) : Prop :=
  BesideAnswers source (SparesLinked source) op x r x' ∧ FindsWhole source x'

/-- The files are opened later on, each beside the steps of the other run. -/
def OpensBeside (source : Tree) (dir : String) (s : Staging)
    (openFile : String → Except AnyError Reader) : Prop :=
  ∀ p r, openFile (shown dir p) = .ok r →
    ∃ ss s', Passes (OtherStep source) s ss s' ∧ s'.dst.fileAt p = some r.rest

/-- If the archive of the files is written, each file of the part is in it. -/
def ArchivesAll (source : Tree) (openFile : String → Except AnyError Reader)
    (files : List ZipFileEntry) : Prop :=
  ∀ n bytes, zipOutput openFile files = (.ok n, bytes) →
    ∃ es, Written openFile 0 files es ∧ bytes = archiveBytes files es ∧
      ∀ p bs, source.fileAt p = some bs →
        ∃ e ∈ es, pathToZipName (joinWith "/" p) = .ok e.name ∧ e.data = bs

-- ---------------------------------------------------------------------------
-- Steps of the other run
-- ---------------------------------------------------------------------------

/-- What the steps keep holds of all states. -/
theorem Passes.all {σ : Type} {step : σ → σ → Prop} {P : σ → Prop}
    (hstep : ∀ s s', step s s' → P s → P s') {s s' : σ} {ss : List σ} (h : Passes step s ss s')
    (hs : P s) : (∀ t ∈ ss, P t) ∧ P s' := by
  induction h with
  | here s => exact ⟨fun t ht => List.mem_singleton.mp ht ▸ hs, hs⟩
  | next hfirst _ ih =>
    obtain ⟨hall, hend⟩ := ih (hstep _ _ hfirst hs)
    exact ⟨List.forall_mem_cons.mpr ⟨hs, hall⟩, hend⟩

/-- What is in the directory is from the part. -/
def SameAs (source : Tree) (s : Staging) : Prop :=
  ∀ y ∈ s.dst, source.lookup y.1 = some y.2

/-- What is in the directory is from the part, and what the run relies on is there. -/
structure InPlace (source : Tree) (x : Staging × StageHistory) : Prop where
  same : SameAs source x.1
  there : ∀ p bs, source.fileAt p = some bs → Relies x.2 p → x.1.dst.lookup p ≠ none

variable {source : Tree} {paths : StagePaths} {s : Staging} {x x' : Staging × StageHistory}

theorem SameAs.insertKey {s' : Staging} {p : RelPath} {node : Node} (h : SameAs source s)
    (hnode : source.lookup p = some node) (hdst : s'.dst = Chbk.insertKey p node s.dst) :
    SameAs source s' := by
  intro y hy
  rw [hdst] at hy
  rcases mem_insertKey hy with rfl | hy
  · exact hnode
  · exact h y hy

theorem SameAs.step {s' : Staging} (h : SameAs source s) (hstep : OtherStep source s s') :
    SameAs source s' := by
  cases hstep with
  | unlink l r y hdst =>
    intro z hz
    refine h z ?_
    rw [hdst]
    exact ((List.sublist_cons_self y r).append_left l).subset hz
  | makeDir p hdir hfree => exact h.insertKey hdir rfl
  | link p bs hfile hfree => exact h.insertKey (Tree.fileAt_eq_some.mp hfile) rfl
  | write bs => exact h
  | removeMarker => exact h

/-- Entries are taken away one after the other. -/
theorem unlinks {dst dst' : Tree} (h : dst'.Sublist dst) : ∀ (pre : Tree),
    Relation.ReflTransGen (OtherStep source) { s with dst := pre ++ dst }
      { s with dst := pre ++ dst' } := by
  induction h with
  | slnil => exact fun _ => .refl
  | cons y _ ih => exact fun pre => .head (.unlink _ pre _ y rfl) (ih pre)
  | cons_cons y _ ih =>
    intro pre
    have := ih (pre ++ [y])
    rwa [List.append_assoc, List.append_assoc] at this

theorem makesDirs : ∀ {made : List RelPath} (s : Staging),
    (∀ p ∈ made, source.lookup p = some .dir) →
      Relation.ReflTransGen (OtherStep source) s { s with dst := s.dst.makeDirs made }
  | [], _, _ => .refl
  | p :: made, s, hmade => by
    have hrest := makesDirs
      { s with dst := if s.dst.lookup p = none then insertKey p .dir s.dst else s.dst }
      fun q hq => hmade q (List.mem_cons_of_mem _ hq)
    refine .trans ?_ hrest
    split
    · rename_i hfree
      exact .single (.makeDir s p (hmade p (List.mem_cons_self ..)) hfree)
    · exact .refl

/-- The calls a run makes at the directory. -/
def CallOfRun (source : Tree) : StageOp → Prop
  | .removeDirAll site => site = .dst
  | .removeFile site => site = .marker
  | .createDirAll rel => source.lookup rel = some .dir
  | .write site _ => site = .marker
  | _ => True

/-- **What a call of a run does, the steps do**: a call, with its effect or without or with a
part of it, is nothing but some of them. -/
theorem steps_of_answer (hsrc : SourceTree source) {op : StageOp} {ss : List Staging}
    {r : StageResp op} {s' : Staging} (hop : CallOfRun source op)
    (hans : AnswersOver source op ss s r s') : Relation.ReflTransGen (OtherStep source) s s' := by
  cases op with
  | pathExists site => rw [show s' = s from hans.2]
  | walkDir site => rw [show s' = s from hans.2]
  | metadata site rel =>
    cases r with
    | ok n => rw [show s' = s from hans.1]
    | error e => rw [show s' = s from hans]
  | removeDirAll site =>
    obtain rfl : site = .dst := hop
    have hsub : ∃ dst' : Tree, dst'.Sublist s.dst ∧ s' = { s with dst := dst' } := by
      cases r with
      | ok u => exact ⟨[], List.nil_sublist _, hans⟩
      | error e =>
        obtain ⟨keep, heq⟩ := hans
        exact ⟨_, List.filter_sublist, heq⟩
    obtain ⟨dst', hsub, rfl⟩ := hsub
    exact unlinks hsub []
  | removeFile site =>
    obtain rfl : site = .marker := hop
    cases r with
    | ok u =>
      rw [show s' = s.set .marker [] from hans]
      exact .single (.removeMarker s)
    | error e =>
      rcases hans with rfl | rfl
      · exact .refl
      · exact .single (.removeMarker s)
  | createDirAll rel =>
    have hdirs := hsrc.dirs_inits hop
    cases r with
    | ok u =>
      rw [show s' = _ from hans.2]
      exact makesDirs s hdirs
    | error e =>
      obtain ⟨made, hmade, -, rfl⟩ := hans
      exact makesDirs s fun p hp => hdirs p (hmade.subset hp)
  | hardLink rel =>
    -- a link that fails may have put in what the source has there
    have hfailed : (s' = s ∨ ∃ node, source.lookup rel = some node ∧ s.dst.lookup rel = none ∧
        s' = { s with dst := insertKey rel node s.dst }) →
          Relation.ReflTransGen (OtherStep source) s s' := by
      rintro (rfl | ⟨node, hnode, hfree, rfl⟩)
      · exact .refl
      · rcases hsrc.plain _ (mem_of_lookup hnode) with hdir | ⟨bs, hfile⟩
        · obtain rfl : node = .dir := hdir
          exact .single (.makeDir s rel hnode hfree)
        · obtain rfl : node = .file bs := hfile
          exact .single (.link s rel bs (Tree.fileAt_eq_some.mpr hnode) hfree)
    cases r with
    | ok u =>
      obtain ⟨hfree, -, bs, hbs, rfl⟩ := hans
      exact .single (.link s rel bs hbs hfree)
    | error e =>
      cases e with
      | alreadyExists => rw [show s' = s from hans.2]
      | crossesDevices => exact hfailed hans
      | other e => exact hfailed hans
  | write site content =>
    obtain rfl : site = .marker := hop
    cases r with
    | ok u =>
      rw [show s' = s.set .marker [([], .file content)] from hans]
      exact .single (.write s content)
    | error e =>
      rcases hans with rfl | ⟨bs, rfl⟩
      · exact .refl
      · exact .single (.write s bs)

theorem SameAs.steps {s' : Staging} (h : SameAs source s)
    (hsteps : Relation.ReflTransGen (OtherStep source) s s') : SameAs source s' := by
  induction hsteps with
  | refl => exact h
  | tail _ hstep ih => exact ih.step hstep

/-- A file of the part that is there has its content. -/
theorem SameAs.fileAt {p : RelPath} {bs : Bytes} (h : SameAs source s)
    (hp : source.fileAt p = some bs) (hthere : s.dst.lookup p ≠ none) :
    s.dst.lookup p = some (.file bs) := by
  obtain ⟨node, hnode⟩ := Option.ne_none_iff_exists'.mp hthere
  have hsame := h _ (mem_of_lookup hnode)
  rw [Tree.fileAt_eq_some.mp hp] at hsame
  rw [hnode, ← hsame]

theorem InPlace.step {h : StageHistory} {s' : Staging} (hx : InPlace source (s, h))
    (hstep : OtherStep source s s' ∧ SparesLinked source h s s') : InPlace source (s', h) where
  same := hx.same.step hstep.1
  there p bs hp hrel := hstep.2 p bs hp hrel (hx.there p bs hp hrel)

-- ---------------------------------------------------------------------------
-- Calls
-- ---------------------------------------------------------------------------

/-- The call may add to what the run relies on. -/
def relying : StageOp → Bool
  | .hardLink _ => true
  | .walkDir .dst => true
  | _ => false

theorem thisPass_cons {h : StageHistory} {c : Called StageOp StageResp}
    (hc : startsPass c.1 = false) : thisPass (c :: h) = c :: thisPass h := by
  rw [thisPass, if_neg (by rw [hc]; exact Bool.false_ne_true)]

theorem Relies.cons {h : StageHistory} {p : RelPath} {c : Called StageOp StageResp}
    (hc : startsPass c.1 = false) (hp : Relies h p) : Relies (c :: h) p := by
  unfold Relies at hp ⊢
  rw [thisPass_cons hc]
  rcases hp with hp | hp | ⟨entries, hp⟩
  · exact .inl (List.mem_cons_of_mem _ hp)
  · exact .inr (.inl (List.mem_cons_of_mem _ hp))
  · exact .inr (.inr ⟨entries, List.mem_cons_of_mem _ hp⟩)

/-- Nothing is linked or walked over yet in this pass. -/
def Unlinked (h : StageHistory) : Prop := ∀ c ∈ thisPass h, relying c.1 = false

theorem Unlinked.not_relies {h : StageHistory} (hh : Unlinked h) (p : RelPath) : ¬ Relies h p := by
  rintro (hp | hp | ⟨entries, hp⟩)
  · exact Bool.noConfusion (hh _ hp)
  · exact Bool.noConfusion (hh _ hp)
  · exact Bool.noConfusion (hh _ hp)

theorem unlinked_start {h : StageHistory} {r : Bool} : Unlinked (⟨.pathExists .src, r⟩ :: h) :=
  fun _ hc => absurd hc List.not_mem_nil

theorem Unlinked.cons {h : StageHistory} {op : StageOp} {r : StageResp op} (hh : Unlinked h)
    (hop : relying op = false) : Unlinked (⟨op, r⟩ :: h) := by
  intro c hc
  unfold thisPass at hc
  split at hc
  · exact absurd hc List.not_mem_nil
  · rcases List.mem_cons.mp hc with rfl | hc
    · exact hop
    · exact hh c hc

/-- Behind a call, the run relies on what it has relied on, or this call is why. -/
theorem Relies.of_cons {h : StageHistory} {p : RelPath} {c : Called StageOp StageResp}
    (hp : Relies (c :: h) p) : Relies h p ∨ c = ⟨.hardLink p, .ok ()⟩ ∨
      c = ⟨.hardLink p, .error .alreadyExists⟩ ∨ ∃ entries, c = ⟨.walkDir .dst, entries⟩ := by
  unfold Relies thisPass at hp
  split at hp
  · simp at hp
  rcases hp with hp | hp | ⟨entries, hp⟩
  · rcases List.mem_cons.mp hp with heq | hp
    · exact .inr (.inl heq.symm)
    · exact .inl (.inl hp)
  · rcases List.mem_cons.mp hp with heq | hp
    · exact .inr (.inr (.inl heq.symm))
    · exact .inl (.inr (.inl hp))
  · rcases List.mem_cons.mp hp with heq | hp
    · exact .inr (.inr (.inr ⟨entries, heq.symm⟩))
    · exact .inl (.inr (.inr ⟨entries, hp⟩))

theorem Relies.of_not_relying {h : StageHistory} {p : RelPath} {c : Called StageOp StageResp}
    (hc : relying c.1 = false) (hp : Relies (c :: h) p) : Relies h p := by
  rcases hp.of_cons with hp | rfl | rfl | ⟨entries, rfl⟩
  · exact hp
  all_goals cases hc

/-- Before a call, and in the time of a walk. -/
theorem InPlace.before {op : StageOp} {r : StageResp op} (hx : InPlace source x)
    (hans : SparedAnswers source op x r x') : x'.2 = ⟨op, r⟩ :: x.2 ∧
      ∃ ss s, (∀ t ∈ ss, InPlace source (t, x.2)) ∧ InPlace source (s, x.2) ∧
        AnswersOver source op ss s r x'.1 := by
  obtain ⟨⟨hhist, ss, s, hpass, hover⟩, -⟩ := hans
  obtain ⟨hall, hs⟩ := hpass.all (P := fun t => InPlace source (t, x.2))
    (fun _ _ ht h => h.step ht) hx
  exact ⟨hhist, ss, s, hall, hs, hover⟩

/-- A call behind which nothing is missing that was there. -/
theorem InPlace.behind {op : StageOp} {r : StageResp op} (hop : relying op = false)
    (hs : InPlace source (s, x.2)) (hhist : x'.2 = ⟨op, r⟩ :: x.2) (hsame : SameAs source x'.1)
    (hkeep : ∀ p, s.dst.lookup p ≠ none → x'.1.dst.lookup p ≠ none) : InPlace source x' where
  same := hsame
  there p bs hp hrel := hkeep p (hs.there p bs hp (.of_not_relying hop (hhist ▸ hrel)))

/-- The invariant, and the history behind another. -/
structure Later (source : Tree) (x x' : Staging × StageHistory) : Prop where
  kept : InPlace source x'
  relies : ∀ p, Relies x.2 p → Relies x'.2 p

theorem Later.trans {x'' : Staging × StageHistory} (h : Later source x x')
    (h' : Later source x' x'') : Later source x x'' :=
  ⟨h'.kept, fun p hp => h'.relies p (h.relies p hp)⟩

theorem InPlace.later (h : InPlace source x) : Later source x x := ⟨h, fun _ hp => hp⟩

theorem Later.of_cons {c : Called StageOp StageResp} (hx : InPlace source x')
    (hc : startsPass c.1 = false) (hhist : x'.2 = c :: x.2) : Later source x x' :=
  ⟨hx, fun _ hp => hhist ▸ hp.cons hc⟩

theorem ensures_spared {op : StageOp} {Q : StageResp op → Staging × StageHistory → Prop}
    {E : AnyError → Staging × StageHistory → Prop}
    (h : ∀ r x', SparedAnswers source op x r x' → Q r x') :
    Ensures (SparedAnswers source) (fun _ => True) (fsCall op) x Q E :=
  Ensures.ask trivial h

theorem ensures_liftSpared {α : Type} {y : Except AnyError α}
    {Q : α → Staging × StageHistory → Prop} {E : AnyError → Staging × StageHistory → Prop}
    (h : ∀ a, y = .ok a → Q a x) (herr : ∀ e, y = .error e → E e x) :
    Ensures (SparedAnswers source) (fun _ => True) (liftStage y) x Q E := by
  cases y with
  | ok a => exact h a rfl
  | error e => exact herr e rfl

/-- What is in the directory before a call. -/
theorem SameAs.before {op : StageOp} {r : StageResp op} (hx : SameAs source x.1)
    (hans : SparedAnswers source op x r x') : x'.2 = ⟨op, r⟩ :: x.2 ∧
      ∃ ss s, SameAs source s ∧ AnswersOver source op ss s r x'.1 := by
  obtain ⟨⟨hhist, ss, s, hpass, hover⟩, -⟩ := hans
  exact ⟨hhist, ss, s, (hpass.all (P := SameAs source) (fun _ _ ht h => h.step ht.1) hx).2, hover⟩

theorem SameAs.behind {op : StageOp} {r : StageResp op} (hsrc : SourceTree source)
    (hx : SameAs source x.1) (hans : SparedAnswers source op x r x') (hop : CallOfRun source op) :
    SameAs source x'.1 := by
  obtain ⟨-, ss, s, hs, hover⟩ := hx.before hans
  exact hs.steps (steps_of_answer hsrc hop hover)

/-- A pass begins. -/
theorem spared_start (hx : SameAs source x.1) :
    Ensures (SparedAnswers source) (fun _ => True) (fsCall (.pathExists .src)) x
      (fun r x' => InPlace source x' ∧ x'.2 = ⟨.pathExists .src, r⟩ :: x.2)
      fun _ x' => SameAs source x'.1 := by
  refine ensures_spared fun r x' hans => ?_
  obtain ⟨hhist, ss, s, hs, -, heq⟩ := hx.before hans
  refine ⟨⟨heq ▸ hs, fun p bs _ hrel => ?_⟩, hhist⟩
  rw [hhist] at hrel
  exact absurd hrel (unlinked_start.not_relies p)

theorem spared_pathExists {site : Site} (hx : InPlace source x) :
    Ensures (SparedAnswers source) (fun _ => True) (fsCall (.pathExists site)) x
      (fun r x' => InPlace source x' ∧ x'.2 = ⟨.pathExists site, r⟩ :: x.2)
      fun _ x' => SameAs source x'.1 := by
  refine ensures_spared fun r x' hans => ?_
  obtain ⟨hhist, ss, s, -, hs, -, heq⟩ := hx.before hans
  exact ⟨hs.behind rfl hhist (heq ▸ hs.same) fun p hp => heq ▸ hp, hhist⟩

theorem spared_createStageDir {rel : RelPath} (hsrc : SourceTree source) (hx : InPlace source x)
    (hrel : source.lookup rel = some .dir) :
    Ensures (SparedAnswers source) (fun _ => True) (createStageDir rel) x
      (fun _ x' => Later source x x') fun _ x' => SameAs source x'.1 := by
  refine Ensures.bind (ensures_spared fun r x' hans => hans) fun r x' hans =>
    ensures_liftSpared ?_ ?_
  · rintro u rfl
    obtain ⟨hhist, ss, s, -, hs, -, heq⟩ := hx.before hans
    refine .of_cons (hs.behind rfl hhist (hx.same.behind hsrc hans hrel) fun p hp => ?_) rfl hhist
    rw [heq]
    exact Option.isSome_iff_ne_none.mp (isSome_makeDirs (Option.isSome_iff_ne_none.mpr hp))
  · exact fun e _ => hx.same.behind hsrc hans hrel

theorem spared_metadataLen {site : Site} {rel : RelPath} (hsrc : SourceTree source)
    (hx : InPlace source x) :
    Ensures (SparedAnswers source) (fun _ => True) (metadataLen site rel) x
      (fun n x' => Later source x x' ∧
        ∀ bs, (x'.1.at source site).fileAt rel = some bs → n = bs.length)
      fun _ x' => SameAs source x'.1 := by
  refine Ensures.bind (ensures_spared fun r x' hans => hans) fun r x' hans =>
    ensures_liftSpared ?_ ?_
  · rintro n rfl
    obtain ⟨hhist, ss, s, -, hs, heq, hlen⟩ := hx.before hans
    refine ⟨.of_cons (hs.behind rfl hhist (heq ▸ hs.same) fun p hp => heq ▸ hp) rfl hhist, ?_⟩
    rw [heq]
    exact hlen
  · exact fun e _ => hx.same.behind hsrc hans trivial

-- ---------------------------------------------------------------------------
-- Staging
-- ---------------------------------------------------------------------------

theorem Node.exists_file {node : Node} (h : node.fileType = .file) : ∃ bs, node = .file bs := by
  cases node with
  | file bs => exact ⟨bs, rfl⟩
  | _ => cases h

theorem Node.eq_dir {node : Node} (h : node.fileType = .dir) : node = .dir := by
  cases node with
  | dir => rfl
  | _ => cases h

/-- The directory above an entry of the source. -/
theorem SourceTree.parent (hsrc : SourceTree source) {rel : RelPath} {node : Node}
    (hrel : rel ≠ []) (hlook : source.lookup rel = some node) :
    source.lookup rel.dropLast = some .dir := by
  refine hsrc.closed rel (by rw [hlook]; rfl) _ (List.dropLast_prefix rel) ?_
  intro he
  have hlen := congrArg List.length he
  rw [List.length_dropLast] at hlen
  have hpos := List.length_pos_iff.mpr hrel
  omega

/-- No error is met with one more entry. -/
theorem healthy_snoc {pre : List (Except AnyError (RelPath × FileType))} {y : RelPath × FileType}
    (h : ∀ e, .error e ∉ pre) : ∀ e, .error e ∉ pre ++ [.ok y] := by
  intro e he
  rcases List.mem_append.mp he with he | he
  · exact h e he
  · cases List.mem_singleton.mp he

/-- The entries of the source that have been dealt with: the run relies on their files. -/
structure LinkedBeside (source : Tree) (pre : List (Except AnyError (RelPath × FileType)))
    (x : Staging × StageHistory) : Prop where
  kept : InPlace source x
  healthy : ∀ e, .error e ∉ pre
  linked : ∀ p, .ok (p, .file) ∈ pre → Relies x.2 p

theorem LinkedBeside.snoc {pre : List (Except AnyError (RelPath × FileType))} {rel : RelPath}
    {ft : FileType} (h : LinkedBeside source pre x) (hx : Later source x x')
    (hrel : ft = .file → Relies x'.2 rel) : LinkedBeside source (pre ++ [.ok (rel, ft)]) x' := by
  refine ⟨hx.kept, healthy_snoc h.healthy, fun p hp => ?_⟩
  rcases List.mem_append.mp hp with hp | hp
  · exact hx.relies p (h.linked p hp)
  · cases List.mem_singleton.mp hp
    exact hrel rfl

/-- A link that is made, or found there. -/
theorem InPlace.hardLink {rel : RelPath} {r : Except LinkError Unit} (hsrc : SourceTree source)
    (hx : InPlace source x) (hr : r = .ok () ∨ r = .error .alreadyExists)
    (hans : SparedAnswers source (.hardLink rel) x r x') :
    Later source x x' ∧ Relies x'.2 rel := by
  obtain ⟨hhist, ss, s, -, hs, hlink⟩ := hx.before hans
  -- what else the run relies on, it has relied on before
  have hrelies : ∀ p, Relies x'.2 p → p = rel ∨ Relies x.2 p := by
    intro p hp
    rw [hhist] at hp
    rcases hp.of_cons with hp | heq | heq | ⟨entries, heq⟩
    · exact .inr hp
    all_goals cases heq
    all_goals exact .inl rfl
  have hpass := thisPass_cons (h := x.2) (c := ⟨.hardLink rel, r⟩) rfl
  rcases hr with rfl | rfl
  · obtain ⟨hfree, -, bs, hbs, heq⟩ := hlink
    refine ⟨.of_cons ⟨hx.same.behind hsrc hans trivial, ?_⟩ rfl hhist, ?_⟩
    · intro p bs' hp hrel
      rw [heq, lookup_insertKey]
      split
      · simp
      · rename_i hne
        exact hs.there p bs' hp ((hrelies p hrel).resolve_left hne)
    · rw [hhist]
      unfold Relies
      rw [hpass]
      exact .inl (List.mem_cons_self ..)
  · obtain ⟨hthere, heq⟩ := hlink
    refine ⟨.of_cons ⟨hx.same.behind hsrc hans trivial, ?_⟩ rfl hhist, ?_⟩
    · intro p bs' hp hrel
      rw [heq]
      rcases hrelies p hrel with rfl | hold
      · exact hthere
      · exact hs.there p bs' hp hold
    · rw [hhist]
      unfold Relies
      rw [hpass]
      exact .inr (.inl (List.mem_cons_self ..))

/-- A walk that comes to nothing but what the part has, and if it meets no error, to all of
its files. -/
structure WalksPart (source : Tree) (entries : List (Except AnyError (RelPath × FileType))) :
    Prop where
  come : ∀ rel ft, .ok (rel, ft) ∈ entries →
    ∃ node, source.lookup rel = some node ∧ node.fileType = ft
  all : (∀ e, .error e ∉ entries) → ∀ p bs, source.fileAt p = some bs → .ok (p, .file) ∈ entries

/-- A walk over trees that have the files of the part all the time. -/
theorem WalkOver.walksPart {trees : List Tree}
    {entries : List (Except AnyError (RelPath × FileType))} (h : WalkOver trees entries)
    (hsame : ∀ t ∈ trees, ∀ p node, t.lookup p = some node → source.lookup p = some node)
    (hfiles : ∀ t ∈ trees, ∀ p bs, source.fileAt p = some bs → t.lookup p = some (.file bs)) :
    WalksPart source entries where
  come rel ft hmem := by
    obtain ⟨t, ht, node, hnode, hft⟩ := h.1 rel ft hmem
    exact ⟨node, hsame t ht rel node hnode, hft⟩
  all hhealthy p bs hp := h.2 hhealthy p (.file bs) fun t ht => hfiles t ht p bs hp

/-- One round of the loop. -/
theorem spared_stageEntry (hsrc : SourceTree source)
    {pre : List (Except AnyError (RelPath × FileType))} {fileCount : UInt32}
    {entry : Except AnyError (RelPath × FileType)} (h : LinkedBeside source pre x)
    (hentry : ∀ rel ft, entry = .ok (rel, ft) →
      ∃ node, source.lookup rel = some node ∧ node.fileType = ft) :
    Ensures (SparedAnswers source) (fun _ => True) (stageEntry paths fileCount entry) x
      (fun _ x' => LinkedBeside source (pre ++ [entry]) x') fun _ x' => SameAs source x'.1 := by
  unfold stageEntry
  refine Ensures.bind (ensures_liftSpared (Q := fun a x' => entry = .ok a ∧ x' = x)
    (fun a ha => ⟨ha, rfl⟩) fun _ _ => h.kept.same) ?_
  rintro ⟨rel, ft⟩ y ⟨rfl, rfl⟩
  obtain ⟨node, hlook, rfl⟩ := hentry rel ft rfl
  dsimp only
  split
  · exact Ensures.throw h.kept.same
  split
  · rename_i hroot
    subst hroot
    rw [hsrc.root] at hlook
    obtain rfl := Option.some.inj hlook
    exact Ensures.pure (h.snoc h.kept.later fun hfile => by cases hfile)
  rename_i hrel
  split
  · rename_i hdir
    obtain rfl := Node.eq_dir hdir
    refine Ensures.bind (Ensures.mapFail (spared_createStageDir hsrc h.kept hlook)) ?_
    intro _ y' hlater
    exact Ensures.pure (h.snoc hlater fun hfile => by cases hfile)
  split
  · rename_i hft
    exact Ensures.pure (h.snoc h.kept.later fun hfile => absurd hfile hft)
  rename_i hft
  refine Ensures.bind (spared_createStageDir hsrc h.kept (hsrc.parent hrel hlook)) ?_
  intro _ y₁ hmade
  refine Ensures.bind (ensures_spared fun r y' hans => hans) ?_
  intro r y₂ hans
  cases r with
  | ok u =>
    obtain ⟨hlinked, hrelies⟩ := hmade.kept.hardLink hsrc (.inl rfl) hans
    exact Ensures.pure (h.snoc (hmade.trans hlinked) fun _ => hrelies)
  | error e =>
    cases e with
    | alreadyExists =>
      obtain ⟨hfound, hrelies⟩ := hmade.kept.hardLink hsrc (.inr rfl) hans
      refine Ensures.bind (spared_metadataLen hsrc hfound.kept) ?_
      rintro srcLen y₃ ⟨hsize, -⟩
      refine Ensures.bind (spared_metadataLen hsrc hsize.kept) ?_
      rintro dstLen y₄ ⟨hsize', -⟩
      split
      · exact Ensures.throw hsize'.kept.same
      · exact Ensures.pure (h.snoc (((hmade.trans hfound).trans hsize).trans hsize') fun _ =>
          hsize'.relies _ (hsize.relies _ hrelies))
    | crossesDevices => exact Ensures.throw (hmade.kept.same.behind hsrc hans trivial)
    | other e => exact Ensures.throw (hmade.kept.same.behind hsrc hans trivial)

/-- The directory has all of the part, and the run relies on it. -/
structure AllInPlace (source : Tree) (x : Staging × StageHistory) : Prop where
  kept : InPlace source x
  relied : ∀ p bs, source.fileAt p = some bs → Relies x.2 p

theorem spared_linkPartDir (hsrc : SourceTree source) (hx : InPlace source x) :
    Ensures (SparedAnswers source) (fun _ => True) (linkPartDir paths) x
      (fun _ x' => AllInPlace source x') fun _ x' => SameAs source x'.1 := by
  unfold linkPartDir
  refine Ensures.bind (Ensures.mapFail (spared_createStageDir hsrc hx hsrc.root)) ?_
  intro _ x₁ hmade
  -- the part stays as it is while it is walked over
  refine Ensures.bind (ensures_spared (Q := fun entries x' => InPlace source x' ∧
    WalksPart source entries) fun entries x' hans => ?_) ?_
  · obtain ⟨hhist, ss, s, -, hs, hwalk, heq⟩ := hmade.kept.before hans
    have hconst : ∀ t ∈ ss.map (·.at source .src), t = source := by
      intro t ht
      obtain ⟨s', -, rfl⟩ := List.mem_map.mp ht
      rfl
    refine ⟨hs.behind rfl hhist (heq ▸ hs.same) fun p hp => heq ▸ hp, hwalk.walksPart ?_ ?_⟩
    · exact fun t ht p node hp => hconst t ht ▸ hp
    · exact fun t ht p bs hp => (hconst t ht).symm ▸ Tree.fileAt_eq_some.mp hp
  rintro entries x₂ ⟨hx₂, hwalk⟩
  have hstart : LinkedBeside source [] x₂ := ⟨hx₂, by simp, by simp⟩
  refine Ensures.bind (ensures_foldl (fun pre _ x => LinkedBeside source pre x) ?_ hstart) ?_
  · intro pre entry post n y hsplit hlinked
    refine spared_stageEntry hsrc hlinked ?_
    rintro rel ft rfl
    exact hwalk.come rel ft (by rw [hsplit]; simp)
  · intro n x₃ hlinked
    refine Ensures.bind (R := fun _ x' => Later source x₃ x') (Ensures.mapFail (Ensures.bind
      (ensures_spared fun r x' hans => hans) fun r x' hans => ensures_liftSpared ?_ ?_)) ?_
    · rintro u rfl
      obtain ⟨hhist, ss, s, -, hs, heq⟩ := hlinked.kept.before hans
      have hdst : x'.1.dst = s.dst := by rw [heq]; rfl
      exact .of_cons (hs.behind rfl hhist (hlinked.kept.same.behind hsrc hans rfl)
        fun p hp => hdst ▸ hp) rfl hhist
    · exact fun e _ => hlinked.kept.same.behind hsrc hans rfl
    · intro _ x₄ hlater
      exact Ensures.pure ⟨hlater.kept, fun p bs hp =>
        hlater.relies p (hlinked.linked p (hwalk.all hlinked.healthy p bs hp))⟩

theorem spared_clearStage (hsrc : SourceTree source) (hx : InPlace source x) (hh : Unlinked x.2) :
    Ensures (SparedAnswers source) (fun _ => True) (clearStage paths) x
      (fun _ x' => InPlace source x') fun _ x' => SameAs source x'.1 := by
  -- the marker is removed, or passed over
  have hmarker : ∀ y, InPlace source y → Ensures (SparedAnswers source) (fun _ => True) (do
      if ← fsCall (.pathExists .marker) then
        let _ ← fsCall (.removeFile .marker)) y (fun _ x' => InPlace source x')
      fun _ x' => SameAs source x'.1 := by
    intro y hy
    refine Ensures.bind (spared_pathExists hy) ?_
    rintro there y₁ ⟨hy₁, -⟩
    split
    · refine Ensures.bind (ensures_spared (Q := fun _ x' => InPlace source x')
        fun r x' hans => ?_) fun _ _ hy₂ => Ensures.pure hy₂
      obtain ⟨hhist, ss, s, -, hs, hremove⟩ := hy₁.before hans
      have hdst : x'.1.dst = s.dst := by
        cases r with
        | ok u => rw [show x'.1 = s.set .marker [] from hremove]; rfl
        | error e =>
          rcases hremove with heq | heq
          · rw [heq]
          · rw [heq]; rfl
      exact hs.behind rfl hhist (hy₁.same.behind hsrc hans rfl) fun p hp => hdst ▸ hp
    · exact Ensures.pure hy₁
  unfold clearStage
  refine Ensures.bind (spared_pathExists hx) ?_
  rintro there x₁ ⟨hx₁, hhist₁⟩
  split
  · refine Ensures.bind (R := fun _ x' => InPlace source x') (Ensures.mapFail (Ensures.bind
      (ensures_spared fun r x' hans => hans) fun r x' hans => ensures_liftSpared ?_ ?_)) ?_
    · rintro u rfl
      obtain ⟨hhist, -⟩ := hx₁.before hans
      refine ⟨hx₁.same.behind hsrc hans rfl, fun p bs _ hrel => ?_⟩
      rw [hhist, hhist₁] at hrel
      exact absurd hrel (((hh.cons rfl).cons rfl).not_relies p)
    · exact fun e _ => hx₁.same.behind hsrc hans rfl
    · intro _ x' hx'
      exact hmarker x' hx'
  · exact hmarker x₁ hx₁

/-- Behind a staging that is spared, the part is there. -/
theorem spared_stagePartDirSync (hsrc : SourceTree source) (hx : SameAs source x.1) :
    Ensures (SparedAnswers source) (fun _ => True) (stagePartDirSync paths) x
      (fun _ x' => AllInPlace source x') fun _ x' => SameAs source x'.1 := by
  have hslow : ∀ y, InPlace source y → Unlinked y.2 →
      Ensures (SparedAnswers source) (fun _ => True) (do clearStage paths; linkPartDir paths) y
        (fun _ x' => AllInPlace source x') fun _ x' => SameAs source x'.1 := by
    intro y hy hh
    exact Ensures.bind (spared_clearStage hsrc hy hh) fun _ _ hy' => spared_linkPartDir hsrc hy'
  unfold stagePartDirSync
  refine Ensures.bind (spared_start hx) ?_
  rintro there x₁ ⟨hx₁, hhist₁⟩
  split
  · exact Ensures.throw hx₁.same
  rename_i hsrcThere
  have hthere : there = true := by simpa using hsrcThere
  refine Ensures.bind (spared_pathExists hx₁) ?_
  rintro marked x₂ ⟨hx₂, hhist₂⟩
  split
  · rename_i hm
    refine Ensures.bind (spared_pathExists hx₂) ?_
    rintro staged x₃ ⟨hx₃, hhist₃⟩
    split
    · -- the part is found staged, and walked over
      rename_i hd
      refine Ensures.bind (ensures_spared fun entries x' hans => hans) ?_
      intro entries x₄ hans
      obtain ⟨hhist, ss, s₄, -, hs, -, heq⟩ := hx₃.before hans
      have hfound : x₄.2 = ⟨.walkDir .dst, entries⟩ :: (foundStaged ++ x.2) := by
        rw [hhist, hhist₃, hhist₂, hhist₁, hd, hm, hthere]
        rfl
      refine Ensures.pure ⟨⟨heq ▸ hs.same, fun p bs hp _ => ?_⟩, fun p bs _ => ?_⟩
      · rw [Tree.fileAt_eq_some.mp (hans.2 entries x.2 hfound p bs hp)]
        simp
      · rw [hhist]
        unfold Relies
        rw [thisPass_cons rfl]
        exact .inr (.inr ⟨entries, List.mem_cons_self ..⟩)
    · refine hslow x₃ hx₃ ?_
      rw [hhist₃, hhist₂, hhist₁]
      exact (unlinked_start.cons rfl).cons rfl
  · refine hslow x₂ hx₂ ?_
    rw [hhist₂, hhist₁]
    exact unlinked_start.cons rfl

/-- In one of the passes. -/
theorem spared_stageAgain (hsrc : SourceTree source) {missing : Nat} : ∀ (n : Nat)
    (x : Staging × StageHistory), SameAs source x.1 →
      Ensures (SparedAnswers source) (fun _ => True) (stageAgain paths missing n) x
        (fun _ x' => AllInPlace source x') fun _ x' => SameAs source x'.1
  | 0, _, hx => Ensures.throw hx
  | n + 1, x, hx => by
    have hpass : Ensures (SparedAnswers source) (fun _ => True) (stagePartCasSync paths) x
        (fun _ x' => AllInPlace source x') fun _ x' => SameAs source x'.1 := by
      refine Ensures.bind (spared_start hx) ?_
      rintro there x₁ ⟨hx₁, -⟩
      split
      · exact Ensures.throw hx₁.same
      · exact spared_stagePartDirSync hsrc hx₁.same
    refine Ensures.bind (R := fun r x' => (∀ n, r = .ok n → AllInPlace source x') ∧
      ∀ e, r = .error e → SameAs source x'.1) (Ensures.attempt (Ensures.mono hpass (fun _ h => h)
      (fun n x' hx' => ⟨fun _ _ => hx', fun e he => by cases he⟩)
      fun e x' hx' => ⟨fun n hn => (by cases hn), fun _ _ => hx'⟩)) ?_
    rintro r x' ⟨hok, herr⟩
    cases r with
    | ok n => exact Ensures.pure (hok n rfl)
    | error e => exact spared_stageAgain hsrc n x' (herr e rfl)

/-- Whatever has been in the directory, it is gone. -/
theorem spared_cleanupStagingDirsSync (hsrc : SourceTree source) {root : String} :
    Ensures (SparedAnswers source) (fun _ => True) (cleanupStagingDirsSync root) x
      (fun _ x' => SameAs source x'.1) fun _ _ => True := by
  unfold cleanupStagingDirsSync
  refine Ensures.mapFail (Ensures.bind (ensures_spared fun r x' hans => hans) fun r x' hans => ?_)
  refine Ensures.bind (R := fun _ x' => SameAs source x'.1)
    (ensures_liftSpared ?_ fun _ _ => trivial) ?_
  · rintro u rfl y hy
    obtain ⟨⟨-, ss, s, -, heq⟩, -⟩ := hans
    rw [show x'.1 = s.set .dst [] from heq] at hy
    cases hy
  intro _ x₁ hx₁
  refine Ensures.bind (ensures_spared fun r x' hans => hans) fun r x' hans =>
    ensures_liftSpared ?_ fun _ _ => trivial
  exact fun u _ => hx₁.behind hsrc hans rfl

-- ---------------------------------------------------------------------------
-- The archive
-- ---------------------------------------------------------------------------

/-- The entries of the walk that have been dealt with: their files are collected. -/
structure CollectedBeside (source : Tree) (dir : String)
    (pre : List (Except AnyError (RelPath × FileType))) (out : List (RelPath × ZipFileEntry))
    (x : Staging × StageHistory) : Prop where
  staged : AllInPlace source x
  healthy : ∀ e, .error e ∉ pre
  collected : ∀ p, .ok (p, .file) ∈ pre → (p, zipEntryOf dir source p) ∈ out

theorem CollectedBeside.snoc {dir : String} {pre : List (Except AnyError (RelPath × FileType))}
    {out out' : List (RelPath × ZipFileEntry)} {rel : RelPath} {ft : FileType}
    (h : CollectedBeside source dir pre out x) (hx : AllInPlace source x') (hout : out ⊆ out')
    (hrel : ft = .file → (rel, zipEntryOf dir source rel) ∈ out') :
    CollectedBeside source dir (pre ++ [.ok (rel, ft)]) out' x' := by
  refine ⟨hx, healthy_snoc h.healthy, fun p hp => ?_⟩
  rcases List.mem_append.mp hp with hp | hp
  · exact hout (h.collected p hp)
  · cases List.mem_singleton.mp hp
    exact hrel rfl

/-- One round of the loop over the walk. -/
theorem spared_collectEntry {dir : String} (hsrc : SourceTree source)
    {pre : List (Except AnyError (RelPath × FileType))}
    {out : List (RelPath × ZipFileEntry)} {entry : Except AnyError (RelPath × FileType)}
    (h : CollectedBeside source dir pre out x)
    (hentry : ∀ rel ft, entry = .ok (rel, ft) →
      ∃ node, source.lookup rel = some node ∧ node.fileType = ft) :
    Ensures (SparedAnswers source) (fun _ => True) (collectEntry dir out entry) x
      (fun out' x' => CollectedBeside source dir (pre ++ [entry]) out' x') fun _ _ => True := by
  unfold collectEntry
  refine Ensures.bind (ensures_liftSpared (Q := fun a x' => entry = .ok a ∧ x' = x)
    (fun a ha => ⟨ha, rfl⟩) fun _ _ => trivial) ?_
  rintro ⟨rel, ft⟩ y ⟨rfl, rfl⟩
  obtain ⟨node, hlook, rfl⟩ := hentry rel ft rfl
  dsimp only
  split
  · trivial
  split
  · rename_i hft
    exact Ensures.pure (h.snoc h.staged (List.Subset.refl _) fun hfile => absurd hfile hft)
  rename_i hft
  obtain ⟨bs, rfl⟩ := Node.exists_file (not_not.mp hft)
  have hat := Tree.fileAt_eq_some.mpr hlook
  refine Ensures.bind (ensures_liftSpared (Q := fun _ x' => x' = y) (fun _ _ => rfl)
    fun _ _ => trivial) ?_
  rintro _ y' rfl
  refine Ensures.bind (Ensures.mono (spared_metadataLen hsrc h.staged.kept) (fun _ h => h)
    (fun _ _ h => h) fun _ _ _ => trivial) ?_
  rintro size y₁ ⟨hlater, hlen⟩
  have hrelied : ∀ p bs, source.fileAt p = some bs → Relies y₁.2 p := fun p bs hp =>
    hlater.relies p (h.staged.relied p bs hp)
  -- the file is still there
  have hthere := hlater.kept.same.fileAt hat (hlater.kept.there rel bs hat (hrelied rel bs hat))
  have hsize := hlen bs (Tree.fileAt_eq_some.mpr hthere)
  have hnew : (⟨shown dir rel, joinWith "/" rel, UInt64.ofNat size⟩ : ZipFileEntry) =
      zipEntryOf dir source rel := by
    rw [zipEntryOf, hat, hsize]
    rfl
  refine Ensures.pure (h.snoc ⟨hlater.kept, hrelied⟩ (List.subset_append_left ..) fun _ => ?_)
  rw [hnew]
  exact List.mem_append_right _ (List.mem_singleton_self _)

/-- All files of the part are collected. -/
theorem spared_collectFiles {dir : String} (hsrc : SourceTree source) (hx : AllInPlace source x) :
    Ensures (SparedAnswers source) (fun _ => True) (collectFiles dir) x
      (fun files x' => SameAs source x'.1 ∧
        ∀ p bs, source.fileAt p = some bs → zipEntryOf dir source p ∈ files) fun _ _ => True := by
  unfold collectFiles
  refine Ensures.bind (ensures_spared (Q := fun entries x' => AllInPlace source x' ∧
    WalksPart source entries) fun entries x' hans => ?_) ?_
  · obtain ⟨hhist, ss, s, hall, hs, hwalk, heq⟩ := hx.kept.before hans
    -- the files have been there all the time
    have hfile : ∀ t, InPlace source (t, x.2) → ∀ p bs, source.fileAt p = some bs →
        t.dst.lookup p = some (.file bs) := fun t ht p bs hp =>
      ht.same.fileAt hp (ht.there p bs hp (hx.relied p bs hp))
    refine ⟨⟨⟨heq ▸ hs.same, fun p bs hp _ => ?_⟩, fun p bs hp => ?_⟩, hwalk.walksPart ?_ ?_⟩
    · rw [heq, hfile s hs p bs hp]
      simp
    · rw [hhist]
      exact (hx.relied p bs hp).cons rfl
    · intro t ht p node hp
      obtain ⟨s', hs', rfl⟩ := List.mem_map.mp ht
      exact (hall s' hs').same _ (mem_of_lookup hp)
    · intro t ht p bs hp
      obtain ⟨s', hs', rfl⟩ := List.mem_map.mp ht
      exact hfile s' (hall s' hs') p bs hp
  rintro entries x₁ ⟨hx₁, hwalk⟩
  have hstart : CollectedBeside source dir [] [] x₁ := ⟨hx₁, by simp, by simp⟩
  refine Ensures.bind (ensures_foldl (fun pre out x => CollectedBeside source dir pre out x) ?_
    hstart) ?_
  · intro pre entry post out y hsplit hcollected
    refine spared_collectEntry hsrc hcollected ?_
    rintro rel ft rfl
    exact hwalk.come rel ft (by rw [hsplit]; simp)
  · intro out x₂ hout
    refine Ensures.pure ⟨hout.staged.kept.same, fun p bs hp => ?_⟩
    exact List.mem_map.mpr ⟨_, (List.mem_insertionSort _).mpr
      (hout.collected p (hwalk.all hout.healthy p bs hp)), rfl⟩

/-- Each file that is archived has its entry. -/
theorem Written.exists_entry {openFile : String → Except AnyError Reader} :
    ∀ {files : List ZipFileEntry} {offset : UInt64} {es : List ArchiveEntry},
      Written openFile offset files es → ∀ f ∈ files, ∃ e ∈ es, ∃ offset',
        WrittenEntry openFile offset' f e
  | _ :: _, offset, e :: _, h, f, hf => by
    rcases List.mem_cons.mp hf with rfl | hf
    · exact ⟨e, List.mem_cons_self .., offset, h.1⟩
    · obtain ⟨e', he', hentry⟩ := h.2.exists_entry f hf
      exact ⟨e', List.mem_cons_of_mem _ he', hentry⟩

/-- Whatever the other run does while the files are opened, each is archived with the content
it has in the part. -/
theorem archivesAll_of {dir : String} {openFile : String → Except AnyError Reader}
    {files : List ZipFileEntry} (hsame : SameAs source s)
    (hsizes : ∀ p bs, source.fileAt p = some bs → bs.length < 2 ^ 64)
    (hfiles : ∀ p bs, source.fileAt p = some bs → zipEntryOf dir source p ∈ files)
    (hopen : OpensBeside source dir s openFile) : ArchivesAll source openFile files := by
  intro n bytes hzip
  obtain ⟨hwritten, hbytes⟩ := zipOutput_ok hzip
  refine ⟨_, hwritten, hbytes, fun p bs hp => ?_⟩
  obtain ⟨e, he, offset, hentry⟩ := hwritten.exists_entry _ (hfiles p bs hp)
  refine ⟨e, he, hentry.name, ?_⟩
  obtain ⟨r, hr, hdata⟩ := hentry.data
  obtain ⟨ss, s', hpass, hat⟩ := hopen p r hr
  have hsame' := (hpass.all (P := SameAs source) (fun _ _ hstep h => h.step hstep) hsame).2
  have hrest : r.rest = bs := by
    have hlook := hsame' _ (mem_of_lookup (Tree.fileAt_eq_some.mp hat))
    rw [Tree.fileAt_eq_some.mp hp] at hlook
    exact (Node.file.inj (Option.some.inj hlook)).symm
  have hsize : (zipEntryOf dir source p).size.toNat = bs.length := by
    rw [zipEntryOf, hp, Option.getD_some, UInt64.toNat_ofNat']
    exact Nat.mod_eq_of_lt (hsizes p bs hp)
  rw [hdata, hrest, hsize, List.take_length]

/-- At the end the directory holds nothing but files of the part, and all of them are listed. -/
theorem spared_archivePart (hsrc : SourceTree source) (root : String)
    (paths : StagePaths) (missing : Nat) (s : Staging) :
    Ensures (SparedAnswers source) (fun _ => True) (archivePart root paths missing) (s, [])
      (fun files x' => SameAs source x'.1 ∧
        ∀ p bs, source.fileAt p = some bs → zipEntryOf paths.dst source p ∈ files)
      fun _ _ => True := by
  refine Ensures.bind (spared_cleanupStagingDirsSync hsrc) fun _ x hx => ?_
  refine Ensures.bind (Ensures.mono (spared_stageAgain hsrc MAX_STAGING_ITERATIONS x hx)
    (fun _ h => h) (fun _ _ h => h) fun _ _ _ => trivial) fun _ x₁ hx₁ => ?_
  exact Ensures.mono (spared_collectFiles hsrc hx₁) (fun _ h => h) (fun _ _ h => h)
    fun _ _ h => h

/-- **An archive beside another backup.** Another run wipes, links and cleans up in the staging
directory of the part, at any time. Where it takes away nothing that the run relies on, and
what the run finds staged is whole, each file of the part is in the archive. -/
theorem archivePart_complete (hsrc : SourceTree source)
    (hsizes : ∀ p bs, source.fileAt p = some bs → bs.length < 2 ^ 64) (root : String)
    (paths : StagePaths) (missing : Nat) (s : Staging) :
    Ensures (SparedAnswers source) (fun _ => True) (archivePart root paths missing) (s, [])
      (fun files x' => ∀ openFile, OpensBeside source paths.dst x'.1 openFile →
        ArchivesAll source openFile files) fun _ _ => True := by
  exact Ensures.mono (spared_archivePart hsrc root paths missing s) (fun _ h => h)
    (fun files x' h openFile hopen => archivesAll_of h.1 hsizes h.2 hopen) fun _ _ h => h

theorem sizes_onePart : ∀ p bs, onePart.fileAt p = some bs → bs.length < 2 ^ 64 :=
  fun p bs hp => (archivable_onePart.sizes p bs hp).1

/-- A part of one file, where an earlier run has left the marker. -/
theorem archivePart_complete_onePart :
    Ensures (SparedAnswers onePart) (fun _ => True)
      (archivePart "/backup" onePaths 1) (markerLeft, [])
      (fun files x' => ∀ openFile, OpensBeside onePart onePaths.dst x'.1 openFile →
        ArchivesAll onePart openFile files) fun _ _ => True :=
  archivePart_complete sourceTree_onePart sizes_onePart "/backup" onePaths 1 markerLeft

/-- The other run's wipe takes the file away once it is linked. The run walks over an empty
directory, and archives nothing. -/
theorem archivePart_incomplete : ¬ ∀ (source : Tree), SourceTree source →
    (∀ p bs, source.fileAt p = some bs → bs.length < 2 ^ 64) →
    ∀ (root : String) (paths : StagePaths) (missing : Nat) (s : Staging),
      Ensures (BesideAnswers source fun _ _ _ => True) (fun _ => True)
        (archivePart root paths missing) (s, [])
        (fun files x' => ∀ openFile, OpensBeside source paths.dst x'.1 openFile →
          ArchivesAll source openFile files) fun _ _ => True := by
  intro hall
  have h := hall onePart sourceTree_onePart sizes_onePart "/backup" onePaths 1 ⟨[], []⟩
  have halone : ∀ (op : StageOp) (x : Staging × StageHistory) (r : StageResp op) (s' : Staging),
      AnswersOver onePart op [x.1] x.1 r s' →
      BesideAnswers onePart (fun _ _ _ => True) op x r (s', ⟨op, r⟩ :: x.2) :=
    fun op x r s' hr => ⟨rfl, _, _, .here _, hr⟩
  have hfree : Tree.freeFor [] ([] : RelPath).inits := fun p _ => .inl rfl
  have hdir : Tree.freeFor [([], .dir)] ([] : RelPath).inits := by
    intro p hp
    rw [List.mem_singleton.mp hp]
    exact .inr rfl
  -- there are no remains
  have h := h.2 (.ok ()) _ (halone _ _ _ ⟨[], []⟩ rfl)
  have h := h.2 (.ok ()) _ (halone _ _ _ ⟨[], []⟩ rfl)
  have h := h.2 true _ (halone _ _ _ _ ⟨fun _ => rfl, rfl⟩)
  have h := h.2 true _ (halone _ _ _ _ ⟨fun _ => rfl, rfl⟩)
  have h := h.2 false _ (halone _ _ _ _ ⟨fun hthere => (by cases hthere), rfl⟩)
  have h := h.2 false _ (halone _ _ _ _ ⟨fun hthere => (by cases hthere), rfl⟩)
  have h := h.2 false _ (halone _ _ _ _ ⟨fun hthere => (by cases hthere), rfl⟩)
  -- the file is linked
  have h := h.2 (.ok ()) _ (halone _ _ _ ⟨[([], .dir)], []⟩ ⟨hfree, rfl⟩)
  have hwalk : WalkOver [onePart] [.ok ([], .dir), .ok (["data.bin"], .file)] := by
    refine ⟨?_, fun _ rel node hnode => ?_⟩
    · intro rel ft hmem
      simp only [List.mem_cons, List.not_mem_nil, or_false, Except.ok.injEq, Prod.mk.injEq] at hmem
      rcases hmem with ⟨rfl, rfl⟩ | ⟨rfl, rfl⟩
      · exact ⟨_, List.mem_singleton_self _, .dir, rfl, rfl⟩
      · exact ⟨_, List.mem_singleton_self _, .file [1], rfl, rfl⟩
    · have hmem := mem_of_lookup (hnode onePart (List.mem_singleton_self _))
      simp only [onePart, List.mem_cons, List.not_mem_nil, or_false, Prod.mk.injEq] at hmem
      rcases hmem with ⟨rfl, rfl⟩ | ⟨rfl, rfl⟩
      · exact List.mem_cons_self ..
      · exact List.mem_cons_of_mem _ (List.mem_singleton_self _)
  have h := h.2 _ _ (halone _ _ _ _ ⟨hwalk, rfl⟩)
  have h := h.2 (.ok ()) _ (halone _ _ _ ⟨[([], .dir)], []⟩ ⟨hdir, rfl⟩)
  have h := h.2 (.ok ()) _ (halone _ _ _ ⟨[(["data.bin"], .file [1]), ([], .dir)], []⟩
    ⟨rfl, rfl, [1], rfl, rfl⟩)
  have h := h.2 (.ok ()) _ (halone _ _ _
    ⟨[(["data.bin"], .file [1]), ([], .dir)], [([], .file [0x6f, 0x6b])]⟩ rfl)
  -- it is taken away, and the walk finds the directory only
  have hwalk : WalkOver [[(["data.bin"], .file [1]), ([], .dir)], [([], .dir)]]
      [.ok ([], .dir)] := by
    refine ⟨?_, fun _ rel node hnode => ?_⟩
    · intro rel ft hmem
      cases List.mem_singleton.mp hmem
      exact ⟨_, List.mem_cons_self .., .dir, rfl, rfl⟩
    · have hmem := mem_of_lookup (hnode [([], .dir)] (by simp))
      cases List.mem_singleton.mp hmem
      exact List.mem_singleton_self _
  have h := h.2 [.ok ([], .dir)]
    (⟨[([], .dir)], [([], .file [0x6f, 0x6b])]⟩, _) ⟨rfl, _, _,
      .next ⟨OtherStep.unlink _ [] [([], .dir)] (["data.bin"], .file [1]) rfl, trivial⟩ (.here _),
      hwalk, rfl⟩
  -- the archive of no files
  have h : ArchivesAll onePart (fun _ => .error []) [] :=
    h (fun _ => .error []) fun p r hr => by cases hr
  have hzip : zipOutput (fun _ => .error []) [] =
      (.ok 22, (zipOutput (fun _ => .error []) []).2) := rfl
  obtain ⟨es, rfl, -, hes⟩ := h 22 _ hzip
  obtain ⟨e, he, -⟩ := hes ["data.bin"] [1] rfl
  cases he

end Chbk
