import Chbk.Safety.Listing
import Chbk.Safety.Shared
import Chbk.Safety.Uploads

/-!
# A backup at the directory of one hash

What `create_snapshot` does at the staging directory of a hash: it wipes it with all the
others, stages the part until a pass succeeds, and collects its files. These calls, carried
out file by file, are a run of `archivePart`.

* `atDir_createSnapshot` — the order of the calls.
* `createSnapshot_archivePart` — what they are together.
* `createSnapshot_archivesAll` — a backup that is spared archives each file of the part.
-/

namespace Chbk

open Lib Prog

-- ---------------------------------------------------------------------------
-- The order of the calls
-- ---------------------------------------------------------------------------

/-- What is done at the directory of a hash, and what comes of it. -/
inductive DirCall where
  | wipe (res : Except AnyError Unit)
  | stage (staged : Bool)
  | collect (res : Except AnyError (List ZipFileEntry))

/-- What a call is at the directory of the hash. -/
def dirCall (hash : String) : (op : Op) → Resp op → Option DirCall
  | .env (.localStep what), r =>
    if what = "remove earlier staging directories" then some (.wipe r) else none
  | .env (.stagePart part _), r =>
    if part.hashOfAllFiles = hash then some (.stage r.isOk) else none
  | .env (.collectFiles h _), r => if h = hash then some (.collect r) else none
  | _, _ => none

/-- The calls at the directory, the latest first. -/
def dirWatch (hash : String) : Watch Op Resp (List DirCall) where
  init := []
  observe v op r := (dirCall hash op r).toList ++ v

/-- The directory is wiped, and so many passes have failed to stage the part. -/
def Waiting (n : Nat) (v : List DirCall) : Prop :=
  ∃ failed ≤ n, v = List.replicate failed (.stage false) ++ [.wipe (.ok ())]

/-- The pass behind that has staged it. -/
def StagedAs (v : List DirCall) : Prop :=
  ∃ u, Waiting (MAX_STAGING_ITERATIONS - 1) u ∧ v = .stage true :: u

/-- The files are collected once, when the part is staged. -/
def DirRule (hash : String) (v : List DirCall) : Op → Prop
  | .env (.collectFiles h _) => h = hash → StagedAs v
  | _ => True

/-- Calls that are not at the directory. -/
def Away (hash : String) : Op → Prop
  | .env (.localStep what) => what ≠ "remove earlier staging directories"
  | .env (.stagePart part _) => part.hashOfAllFiles ≠ hash
  | .env (.collectFiles h _) => h ≠ hash
  | _ => True

variable {hash : String} {v : List DirCall} {α β : Type}

theorem Away.rule {op : Op} (h : Away hash op) : DirRule hash v op := by
  cases op with
  | env o =>
    cases o with
    | collectFiles h' dir => exact fun heq => absurd heq h
    | _ => trivial
  | s3 o => trivial

theorem Away.observe {op : Op} (h : Away hash op) (r : Resp op) :
    (dirWatch hash).observe v op r = v := by
  cases op with
  | env o =>
    cases o with
    | localStep what => simp only [dirWatch, dirCall, if_neg h, Option.toList, List.nil_append]
    | stagePart part dir => simp only [dirWatch, dirCall, if_neg h, Option.toList, List.nil_append]
    | collectFiles h' dir => simp only [dirWatch, dirCall, if_neg h, Option.toList, List.nil_append]
    | _ => rfl
  | s3 o => rfl

/-- The program keeps to the rule. -/
def AtDir (hash : String) (p : P α) (v : List DirCall) (Q : α → List DirCall → Prop) : Prop :=
  Follows (dirWatch hash) (DirRule hash) p v Q fun _ _ => True

namespace AtDir

theorem bind {p : P α} {f : α → P β} {R : α → List DirCall → Prop} {Q : β → List DirCall → Prop}
    (h : AtDir hash p v R) (hf : ∀ a v', R a v' → AtDir hash (f a) v' Q) :
    AtDir hash (p >>= f) v Q := Follows.bind h hf

theorem mono {p : P α} {Q Q' : α → List DirCall → Prop} (h : AtDir hash p v Q)
    (hQ : ∀ a v', Q a v' → Q' a v') : AtDir hash p v Q' := Follows.mono h hQ fun _ _ h => h

end AtDir

/-- The frame. -/
theorem follows_away {p : P α} (h : Only (Away hash) p) :
    Follows (dirWatch hash) (DirRule hash) p v (fun _ v' => v' = v) fun _ v' => v' = v :=
  h.follows (I := fun v' => v' = v) (fun _ _ hop _ => hop.rule)
    (fun _ _ r hop hv => (hop.observe r).trans hv) rfl

/-- What comes behind calls elsewhere. -/
theorem AtDir.afterAway {p : P α} {f : α → P β} {Q : β → List DirCall → Prop}
    (h : Only (Away hash) p) (hf : ∀ a, AtDir hash (f a) v Q) : AtDir hash (p >>= f) v Q :=
  AtDir.bind (Follows.mono (follows_away h) (fun _ _ hv => hv) fun _ _ _ => trivial)
    fun a _ hv => hv ▸ hf a

/-! ### Staging -/

theorem atDir_stagePart (cfg : Config) (part : PartInfo) :
    AtDir hash (stagePart cfg part) v fun x v' => x.1 = part.hashOfAllFiles ∧
      v' = if part.hashOfAllFiles = hash then .stage x.2 :: v else v := by
  refine AtDir.bind (R := fun r v' =>
    v' = if part.hashOfAllFiles = hash then .stage r.isOk :: v else v)
    (Follows.ask trivial fun r => ?_) fun r v' hv' => ?_
  · by_cases h : part.hashOfAllFiles = hash
    · simp only [dirWatch, dirCall, if_pos h, Option.toList, List.singleton_append]
    · simp only [dirWatch, dirCall, if_neg h, Option.toList, List.nil_append]
  · cases r with
    | ok u => exact Follows.pure ⟨rfl, hv'⟩
    | error e => exact Follows.pure ⟨rfl, hv'⟩

/-- One pass stages the part of the hash once, or has none. -/
theorem atDir_stagePass (cfg : Config) {parts : List PartInfo}
    (hnodup : (parts.map PartInfo.hashOfAllFiles).Nodup) :
    AtDir hash (Prog.collect (stagePart cfg) parts) v fun results v' =>
      results.map Prod.fst = parts.map PartInfo.hashOfAllFiles ∧
        (hash ∉ parts.map PartInfo.hashOfAllFiles → v' = v) ∧
        (hash ∈ parts.map PartInfo.hashOfAllFiles → ∃ b, (hash, b) ∈ results ∧
          v' = .stage b :: v) := by
  refine follows_collect (fun pre results v' => results.map Prod.fst =
    pre.map PartInfo.hashOfAllFiles ∧ (hash ∉ pre.map PartInfo.hashOfAllFiles → v' = v) ∧
      (hash ∈ pre.map PartInfo.hashOfAllFiles → ∃ b, (hash, b) ∈ results ∧ v' = .stage b :: v))
    ?_ ⟨rfl, fun _ => rfl, fun h => by cases h⟩
  rintro pre results part post v' rfl ⟨hfst, hout, hin⟩
  have hnew : part.hashOfAllFiles ∉ pre.map PartInfo.hashOfAllFiles := by
    rw [List.map_append, List.map_cons] at hnodup
    intro hmem
    exact (List.nodup_append.mp hnodup).2.2 _ hmem _ (List.mem_cons_self ..) rfl
  refine (atDir_stagePart cfg part).mono fun x v'' hx => ?_
  obtain ⟨hx1, rfl⟩ := hx
  rw [List.map_append, List.map_append, hfst, List.map_singleton, List.map_singleton, hx1]
  refine ⟨rfl, ?_, ?_⟩
  · intro hnot
    rw [List.mem_append, not_or, List.mem_singleton] at hnot
    rw [if_neg (fun h => hnot.2 h.symm)]
    exact hout hnot.1
  · intro hmem
    by_cases heq : part.hashOfAllFiles = hash
    · subst heq
      refine ⟨x.2, List.mem_append_right _ (List.mem_singleton.mpr (Prod.ext hx1.symm rfl)), ?_⟩
      rw [if_pos rfl, hout hnew]
    · rw [List.mem_append, List.mem_singleton] at hmem
      obtain ⟨b, hb, hv⟩ := hin (hmem.resolve_right fun h => heq h.symm)
      exact ⟨b, List.mem_append_left _ hb, by rw [if_neg heq, hv]⟩

theorem Waiting.mono {m n : Nat} (h : Waiting m v) (hmn : m ≤ n) : Waiting n v := by
  obtain ⟨failed, hle, rfl⟩ := h
  exact ⟨failed, hle.trans hmn, rfl⟩

theorem Waiting.fail {n : Nat} (h : Waiting n v) : Waiting (n + 1) (.stage false :: v) := by
  obtain ⟨failed, hle, rfl⟩ := h
  exact ⟨failed + 1, Nat.succ_le_succ hle, rfl⟩

/-- What the passes have come to with `left` of them to come. -/
structure Passed (hash : String) (left : Nat) (staged : List String) (v : List DirCall) : Prop where
  nodup : staged.Nodup
  done : hash ∈ staged → StagedAs v
  waits : hash ∉ staged → Waiting (MAX_STAGING_ITERATIONS - left) v

/-- One pass, of the parts that are not staged. -/
theorem Passed.pass {left : Nat} {staged : List String} {parts : List PartInfo}
    {results : List (String × Bool)} {v' : List DirCall} (h : Passed hash (left + 1) staged v)
    (hleft : left + 1 ≤ MAX_STAGING_ITERATIONS)
    (hparts : (parts.map PartInfo.hashOfAllFiles).Nodup)
    (hneed : ∀ k ∈ parts.map PartInfo.hashOfAllFiles, k ∉ staged)
    (hfst : results.map Prod.fst = parts.map PartInfo.hashOfAllFiles)
    (hout : hash ∉ parts.map PartInfo.hashOfAllFiles → v' = v)
    (hin : hash ∈ parts.map PartInfo.hashOfAllFiles → ∃ b, (hash, b) ∈ results ∧
      v' = .stage b :: v) :
    Passed hash left (staged ++ (results.filter Prod.snd).map Prod.fst) v' := by
  rw [← hfst] at hparts hneed hout hin
  have hnew : ∀ k, k ∈ (results.filter Prod.snd).map Prod.fst ↔ (k, true) ∈ results := by
    intro k
    constructor
    · intro hk
      obtain ⟨⟨k', b⟩, hx, rfl⟩ := List.mem_map.mp hk
      obtain ⟨hmem, hb⟩ := List.mem_filter.mp hx
      obtain rfl : b = true := hb
      exact hmem
    · intro hk
      exact List.mem_map.mpr ⟨_, List.mem_filter.mpr ⟨hk, rfl⟩, rfl⟩
  have hkey : ∀ {k b}, (k, b) ∈ results → k ∈ results.map Prod.fst := fun hk =>
    List.mem_map_of_mem (f := Prod.fst) hk
  refine ⟨?_, ?_, ?_⟩
  · rw [List.nodup_append]
    refine ⟨h.nodup, hparts.sublist (List.filter_sublist.map _), ?_⟩
    rintro k hk k' hk' rfl
    exact hneed k (hkey ((hnew k).mp hk')) hk
  · intro hmem
    rcases List.mem_append.mp hmem with hmem | hmem
    · rw [hout fun hk => hneed _ hk hmem]
      exact h.done hmem
    · have htrue := (hnew hash).mp hmem
      obtain ⟨b, hb, rfl⟩ := hin (hkey htrue)
      have hsame : (hash, b) = (hash, true) := List.inj_on_of_nodup_map hparts hb htrue rfl
      obtain rfl := (Prod.mk.inj hsame).2
      refine ⟨v, (h.waits (hneed _ (hkey htrue))).mono ?_, rfl⟩
      exact Nat.sub_le_sub_left (Nat.succ_pos left) _
  · intro hnot
    rw [List.mem_append, not_or] at hnot
    have hwaits := h.waits hnot.1
    by_cases hk : hash ∈ results.map Prod.fst
    · obtain ⟨b, hb, rfl⟩ := hin hk
      cases b with
      | true => exact absurd ((hnew hash).mpr hb) hnot.2
      | false => exact hwaits.fail.mono (by omega)
    · rw [hout hk]
      exact hwaits.mono (by omega)

theorem away_queryParts (json : Json) (cfg : Config) : Only (Away hash) (queryParts json cfg) :=
  only_queryParts (fun _ => trivial) json cfg

theorem atDir_stagePasses (json : Json) (cfg : Config) (known : List String) :
    ∀ {left : Nat} {staged : List String} {parts : List PartInfo} {v : List DirCall},
      left ≤ MAX_STAGING_ITERATIONS → Passed hash left staged v →
      AtDir hash (stagePasses json cfg known left staged parts) v fun x v' =>
        x.1.Nodup ∧ (hash ∈ x.1 → StagedAs v')
  | 0, _, _, _, _, h => Follows.pure ⟨h.nodup, h.done⟩
  | left + 1, staged, parts, v, hleft, h => by
    unfold stagePasses
    dsimp only
    split
    · exact Follows.pure ⟨h.nodup, h.done⟩
    · have hneed : (((partsToUpload parts known).filter fun p =>
          p.hashOfAllFiles ∉ staged).map PartInfo.hashOfAllFiles).Nodup :=
        (nodup_partsToUpload parts known).sublist (List.filter_sublist.map _)
      refine AtDir.bind (atDir_stagePass cfg hneed) fun results v₁ hres => ?_
      obtain ⟨hfst, hout, hin⟩ := hres
      have hpassed := h.pass hleft hneed (fun k hk => by
        obtain ⟨p, hp, rfl⟩ := List.mem_map.mp hk
        exact of_decide_eq_true (List.mem_filter.mp hp).2) hfst hout hin
      split
      · exact Follows.pure ⟨hpassed.nodup, hpassed.done⟩
      · split
        · exact Follows.throw trivial
        · refine AtDir.afterAway (away_queryParts json cfg) fun ps => ?_
          exact atDir_stagePasses json cfg known (Nat.le_of_succ_le hleft) hpassed

/-! ### The rest -/

theorem away_localStep {what : String} (h : what ≠ "remove earlier staging directories") :
    Only (Away hash) (localStep what) := only_localStep h

theorem atDir_prepareParts (json : Json) (cfg : Config) (known : List String)
    (parts : List PartInfo) : AtDir hash (prepareParts json cfg known parts) [] fun x v' =>
      x.2.1.Nodup ∧ (hash ∈ x.2.1 → StagedAs v') := by
  refine AtDir.afterAway (away_localStep (by decide)) fun _ => ?_
  refine AtDir.bind (R := fun _ v' => v' = [.wipe (.ok ())]) ?_ fun _ v₁ hv₁ => ?_
  · refine AtDir.bind (R := fun r v' => v' = [.wipe r]) (Follows.ask trivial fun r => rfl)
      fun r v' hv' => ?_
    exact follows_liftP (fun _ hr => hr ▸ hv') fun _ _ => trivial
  subst hv₁
  refine AtDir.afterAway (away_localStep (by decide)) fun _ => ?_
  refine AtDir.afterAway (only_headCheckExisting trivial (fun _ => trivial) _) fun head => ?_
  have hstart : Passed hash MAX_STAGING_ITERATIONS [] [.wipe (.ok ())] :=
    ⟨List.nodup_nil, fun h => absurd h List.not_mem_nil, fun _ => ⟨0, Nat.zero_le _, rfl⟩⟩
  refine AtDir.bind (atDir_stagePasses json cfg known le_rfl hstart) fun x v₂ hx => ?_
  refine AtDir.afterAway (only_metadataAttempts (fun _ => trivial) (fun _ => trivial)
    (fun _ => trivial) json cfg _ _) fun y => ?_
  exact Follows.pure hx

/-- An archive is made from the files of its own directory. -/
theorem atDir_uploadPartArchive (storage : Storage) (cfg : Config) (h : String)
    (hstaged : h = hash → StagedAs v) :
    Follows (dirWatch hash) (DirRule hash) (uploadPartArchive storage cfg h) v
      (fun _ v' => h ≠ hash → v' = v) fun _ v' => h ≠ hash → v' = v := by
  unfold uploadPartArchive
  refine Follows.bind (R := fun _ v' => h ≠ hash → v' = v)
    (Follows.ask hstaged fun r hne =>
      (show Away hash (.env (.collectFiles h (stagedDir cfg h))) from hne).observe r)
    fun r v₁ hv₁ => ?_
  refine Follows.mono (follows_away ?_) (fun _ _ hv hne => hv.trans (hv₁ hne))
    fun _ _ hv hne => hv.trans (hv₁ hne)
  have hclean : Only (Away hash) (Prog.mapFail
      (withContext ("Failed to clean up staged part " ++ h))
      (localStep ("remove " ++ stagedDir cfg h))) :=
    (away_localStep (remove_ne (by decide) cfg h)).mapFail
  refine (only_liftP r).bind fun files => ?_
  refine Only.bind (only_ask trivial) fun openFile => ?_
  refine Only.bind (only_ask trivial) fun cuts => ?_
  refine (only_putObjectMultipartReader trivial trivial (fun _ _ _ => trivial)
    (fun _ _ => trivial) (fun _ => trivial) storage _ _).mapFail.bind fun uploaded => ?_
  refine (only_liftP _).bind fun written => ?_
  split
  · exact (only_throw _).bind fun _ => hclean.bind fun _ => only_pure _
  · exact hclean.bind fun _ => only_pure _

theorem atDir_uploadPartArchives (storage : Storage) (cfg : Config) {hashes : List String}
    (hnodup : hashes.Nodup) (hstaged : hash ∈ hashes → StagedAs v) :
    AtDir hash (uploadPartArchives storage cfg hashes) v fun _ _ => True := by
  refine AtDir.afterAway (only_ask trivial) fun order => ?_
  have hperm := reorder_perm order hashes
  refine AtDir.bind (R := fun _ _ => True) ?_ fun results v' _ => ?_
  · refine Follows.mono (follows_collect (fun pre _ v' => hash ∉ pre → v' = v) ?_ fun _ => rfl)
      (fun _ _ _ => trivial) fun _ _ h => h
    intro pre cs h post v' hsplit hv'
    have hmem : h ∈ reorder order hashes := by
      rw [hsplit]
      exact List.mem_append_right _ (List.mem_cons_self ..)
    have hnew : h ∉ pre := by
      have hnodup' := hperm.nodup_iff.mpr hnodup
      rw [hsplit] at hnodup'
      intro hpre
      exact (List.nodup_append.mp hnodup').2.2 _ hpre _ (List.mem_cons_self ..) rfl
    refine Follows.attempt (Follows.mono (atDir_uploadPartArchive storage cfg h ?_) ?_
      ?_)
    · rintro rfl
      rw [hv' hnew]
      exact hstaged (hperm.mem_iff.mp hmem)
    · intro _ v'' hv'' hnot
      rw [List.mem_append, not_or, List.mem_singleton] at hnot
      rw [hv'' fun heq => hnot.2 heq.symm, hv' hnot.1]
    · intro _ v'' hv'' hnot
      rw [List.mem_append, not_or, List.mem_singleton] at hnot
      rw [hv'' fun heq => hnot.2 heq.symm, hv' hnot.1]
  · exact Follows.mono (follows_away (only_collect fun r _ => only_liftP r))
      (fun _ _ _ => trivial) fun _ _ _ => trivial


theorem atDir_uploadPhase (storage : Storage) (cfg : Config) (known : List (String × UInt64))
    (head : List (String × Nat)) {staged : List String} (parts : List PartInfo)
    (hnodup : staged.Nodup) (hstaged : hash ∈ staged → StagedAs v) :
    AtDir hash (uploadPhase storage cfg known head staged parts) v fun _ _ => True := by
  refine AtDir.bind (R := fun up v' => v' = v ∧ up.Nodup ∧ (hash ∈ up → hash ∈ staged))
    (follows_liftP (fun up hup => ?_) fun _ _ => trivial) fun up v₁ hup => ?_
  · rw [(uploadHashes_ok hup).1]
    exact ⟨rfl, hnodup.sublist List.filter_sublist, fun h => (List.mem_filter.mp h).1⟩
  obtain ⟨rfl, hupNodup, hsub⟩ := hup
  refine AtDir.afterAway (away_localStep (by decide)) fun _ => ?_
  refine AtDir.bind (atDir_uploadPartArchives storage cfg hupNodup fun h => hstaged (hsub h))
    fun new v₂ _ => ?_
  refine AtDir.afterAway (away_localStep (by decide)) fun _ => ?_
  refine AtDir.afterAway (only_ask trivial) fun order => ?_
  exact Follows.mono (follows_away (only_addSizes known _)) (fun _ _ _ => trivial)
    fun _ _ _ => trivial

/-- A backup wipes the directory of a hash, stages the part in at most so many passes, and
collects the files once. -/
theorem atDir_createSnapshot (json : Json) (cfg : Config) (name : Option String) (hash : String) :
    AtDir hash (createSnapshot json cfg name) [] fun _ _ => True := by
  refine AtDir.afterAway (only_ask trivial) fun timestamp => ?_
  refine AtDir.afterAway (only_liftP _) fun storage => ?_
  refine AtDir.afterAway (away_queryParts json cfg) fun parts => ?_
  refine AtDir.afterAway (only_resolveShardReplica (fun _ => trivial) json cfg) fun ident => ?_
  refine AtDir.afterAway (only_nameOrAuto trivial _ _ _ _) fun snapshotName => ?_
  refine AtDir.afterAway (only_loadKnown trivial fun _ => trivial) fun known => ?_
  refine AtDir.bind (atDir_prepareParts json cfg _ parts) fun prep v₁ hprep => ?_
  refine AtDir.bind (atDir_uploadPhase storage cfg known _ _ hprep.1 hprep.2)
    fun sizes v₂ _ => ?_
  refine AtDir.afterAway (only_liftP _) fun manifestParts => ?_
  refine AtDir.afterAway (only_ask trivial) fun createdBy => ?_
  refine AtDir.afterAway (only_writeManifest trivial) fun _ => ?_
  exact Follows.pure trivial

-- ---------------------------------------------------------------------------
-- File by file
-- ---------------------------------------------------------------------------

variable {W : Type} {answers : (op : StageOp) → W → StageResp op → W → Prop} {root : String}
  {paths : StagePaths} {w w₁ w' : W}

/-- A call at the directory is carried out file by file. -/
def Carried (answers : (op : StageOp) → W → StageResp op → W → Prop) (root : String)
    (paths : StagePaths) : DirCall → W → W → Prop
  | .wipe out, w, w' => Runs answers (cleanupStagingDirsSync root) w out w'
  | .stage staged, w, w' =>
    ∃ out, Runs answers (stagePartCasSync paths) w out w' ∧ out.isOk = staged
  | .collect out, w, w' => Runs answers (collectFiles paths.dst) w out w'

/-- Calls, the latest first, carried out one after the other. -/
def CarriedOut (answers : (op : StageOp) → W → StageResp op → W → Prop) (root : String)
    (paths : StagePaths) : List DirCall → W → W → Prop
  | [], w, w' => w' = w
  | c :: v, w, w' => ∃ w₁, CarriedOut answers root paths v w w₁ ∧ Carried answers root paths c w₁ w'

theorem carriedOut_concat {c : DirCall} : ∀ {v : List DirCall} {w w' : W},
    CarriedOut answers root paths (v ++ [c]) w w' →
      ∃ w₁, Carried answers root paths c w w₁ ∧ CarriedOut answers root paths v w₁ w'
  | [], w, w', ⟨_, rfl, hc⟩ => ⟨w', hc, rfl⟩
  | _ :: _, w, w', ⟨w₂, hrest, hlast⟩ => by
    obtain ⟨w₁, hc, hv⟩ := carriedOut_concat hrest
    exact ⟨w₁, hc, w₂, hv, hlast⟩

/-- Passes that fail, and one that does not. -/
theorem runs_stageAgain {missing : Nat} : ∀ {failed passes : Nat} {w : W}, failed < passes →
    CarriedOut answers root paths (List.replicate failed (.stage false)) w w₁ →
    Carried answers root paths (.stage true) w₁ w' →
    Runs answers (stageAgain paths missing passes) w (.ok ()) w'
  | 0, passes + 1, w, _, hfailed, ⟨out, hlast, hok⟩ => by
    obtain rfl : w₁ = w := hfailed
    refine hlast.attempt.bind ?_
    cases out with
    | ok n => exact ⟨rfl, rfl⟩
    | error e => cases hok
  | failed + 1, passes + 1, w, hlt, hfailed, hlast => by
    rw [List.replicate_succ'] at hfailed
    obtain ⟨w₂, ⟨out, hfirst, hbad⟩, hrest⟩ := carriedOut_concat hfailed
    refine hfirst.attempt.bind ?_
    cases out with
    | ok n => cases hbad
    | error e => exact runs_stageAgain (Nat.lt_of_succ_lt_succ hlt) hrest hlast

/-- Calls in the order of a backup are a run of `archivePart`. -/
theorem runs_archivePart {missing : Nat} {v : List DirCall}
    {out : Except AnyError (List ZipFileEntry)} (h : StagedAs v)
    (hv : CarriedOut answers root paths (.collect out :: v) w w') :
    Runs answers (archivePart root paths missing) w out w' := by
  obtain ⟨_, ⟨failed, hfailed, rfl⟩, rfl⟩ := h
  obtain ⟨w₃, ⟨w₂, hpasses, hstaged⟩, hcollect⟩ := hv
  obtain ⟨w₁, hwipe, hrest⟩ := carriedOut_concat hpasses
  refine Runs.bind hwipe (Runs.bind (runs_stageAgain ?_ hrest hstaged) hcollect)
  exact Nat.lt_of_le_pred (by decide) hfailed

/-- **A backup at the directory of one hash.** When a backup has collected the files of a hash,
what it has done at the directory, carried out file by file, is a run of `archivePart`. -/
theorem createSnapshot_archivePart {V : Type} {json : Json} {cfg : Config} {name : Option String}
    {site : (op : Op) → V → Resp op → V → Prop} {beside : V → V → Prop} {x x' : V}
    {tr : List (Event Op Resp V)} {p : Proc Op Resp AnyError String}
    (hrun : Proc.Trace site beside ⟨createSnapshot json cfg name, []⟩ x tr p x')
    {e : Event Op Resp V} (he : e ∈ tr) {hash dir : String}
    {out : Except AnyError (List ZipFileEntry)}
    (hcall : e.call = ⟨.env (.collectFiles hash dir), out⟩) (missing : Nat)
    (hcarried : CarriedOut answers root paths ((dirWatch hash).view (e.call :: e.hist)) w w') :
    Runs answers (archivePart root paths missing) w out w' := by
  have hrule := (hrun.follows (M := dirWatch hash)
    (atDir_createSnapshot json cfg name hash)).2 e he
  rw [hcall] at hrule hcarried
  simp only [Watch.view, dirWatch, dirCall, if_pos, Option.toList] at hcarried
  exact runs_archivePart (hrule rfl) hcarried

/-- Where the other run takes away nothing that the backup relies on, each file of the part is in
the archive it makes of what it has collected. -/
theorem createSnapshot_archivesAll {source : Tree} (hsrc : SourceTree source)
    (hsizes : ∀ p bs, source.fileAt p = some bs → bs.length < 2 ^ 64) {V : Type} {json : Json}
    {cfg : Config} {name : Option String} {site : (op : Op) → V → Resp op → V → Prop}
    {beside : V → V → Prop} {x x' : V} {tr : List (Event Op Resp V)}
    {p : Proc Op Resp AnyError String}
    (hrun : Proc.Trace site beside ⟨createSnapshot json cfg name, []⟩ x tr p x')
    {e : Event Op Resp V} (he : e ∈ tr) {hash dir : String} {files : List ZipFileEntry}
    (hcall : e.call = ⟨.env (.collectFiles hash dir), .ok files⟩) {s : Staging}
    {y : Staging × StageHistory}
    (hcarried : CarriedOut (SparedAnswers source) root paths
      ((dirWatch hash).view (e.call :: e.hist)) (s, []) y)
    (openFile : String → Except AnyError Reader)
    (hopen : OpensBeside source paths.dst y.1 openFile) : ArchivesAll source openFile files := by
  have hruns := createSnapshot_archivePart hrun he hcall 1 hcarried
  obtain ⟨hsame, hfiles⟩ := hruns.ensured (spared_archivePart hsrc root paths 1 s)
  exact archivesAll_of hsame hsizes hfiles hopen

end Chbk
