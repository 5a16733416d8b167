import Chbk.Lib.Hoare
import Chbk.Safety.Cleanup

/-!
# What a cleanup command finds in the bucket

The manifest functions and the lock as programs against the bucket, for one
command alone.

* `ensures_readAllManifests` — the manifests read are the ones in the bucket,
  each once (`ReadOf`).
* `ensures_withGcLock` — work under the lock, which may be dropped at any of its
  calls.
-/

namespace Chbk

open Lib Prog

-- ---------------------------------------------------------------------------
-- Calls that change nothing
-- ---------------------------------------------------------------------------

/-- Calls that only look. -/
def Reads : Op → Prop
  | .env _ => True
  | .s3 (.listObjectsV2 _) | .s3 (.headObject _) | .s3 (.getObject _) => True
  | _ => False

theorem Reads.unchanged {op : Op} (h : Reads op) {w w' : World} {r : Resp op}
    (hans : Answers op w r w') : w' = w := by
  cases op with
  | env o => exact hans.2
  | s3 o =>
    have hperform : (o.perform w).2 = w := by
      cases o with
      | listObjectsV2 pfx => rfl
      | headObject key =>
        simp only [S3Op.perform]
        split <;> rfl
      | getObject key =>
        simp only [S3Op.perform]
        split <;> rfl
      | _ => exact h.elim
    have hdone : ∀ r, o.perform w = (r, w') → w' = w := by
      intro r hr
      rw [hr] at hperform
      exact hperform
    cases r with
    | ok a =>
      cases o with
      | deleteObjects keys => exact h.elim
      | _ => exact hdone _ hans
    | error e =>
      rcases hans with hans | hans
      · exact hdone _ hans
      · cases o with
        | deleteObjects keys => exact h.elim
        | _ => exact hans.elim id fun hw => hw.trans hperform

/-- A program that only looks leaves the world as it is. -/
theorem ensures_of_reads {α : Type} {p : P α} (h : Only Reads p) (w : World) :
    Ensures Answers (fun w' => w' = w) p w (fun _ w' => w' = w) fun _ w' => w' = w :=
  h.ensures (fun _ _ _ _ ho hw hans => (ho.unchanged hans).trans hw) rfl

/-- The same, at a place where `J` holds. -/
theorem Ensures.reads {α : Type} {J : World → Prop} {p : P α} (h : Only Reads p) {w : World}
    (hJ : J w) : Ensures Answers J p w (fun _ w' => w' = w) fun _ w' => w' = w :=
  Ensures.mono (ensures_of_reads h w) (fun _ hw => hw ▸ hJ) (fun _ _ hw => hw) fun _ _ hw => hw

theorem reads_env (o : EnvOp) : Only Reads (askEnv o) := only_ask trivial

theorem reads_bailIfLockLost : Only Reads bailIfLockLost :=
  aside_bailIfLockLost.mono fun op h => by
    match op, h with
    | .env _, _ => trivial

theorem reads_printEach (text : String) (items : List String) :
    Only Reads (printEach text items) :=
  Only.bind (only_collect fun _ _ => reads_env _) fun _ => only_pure _

-- ---------------------------------------------------------------------------
-- Reading manifests
-- ---------------------------------------------------------------------------

variable {J : World → Prop} {w : World}

/-- The manifests are the ones in the bucket, each once, under the names of
their keys. -/
structure ReadOf (w : World) (ms : List Manifest) : Prop where
  nodup : (ms.map Manifest.name).Nodup
  mem_iff : ∀ m, m ∈ ms ↔ ∃ m₀, w.Holds m.name m₀ ∧ m = { m₀ with name := m.name }

theorem mem_manifestNames {name : String} :
    name ∈ manifestNames (S3Op.listing w MANIFEST_PREFIX) ↔ w.Has (manifestKey name) := by
  unfold manifestNames
  rw [List.mem_filterMap]
  constructor
  · rintro ⟨e, he, hname⟩
    obtain ⟨-, o, ho, -⟩ := mem_listing.mp he
    rw [manifestNameFromKey_eq_some.mp hname] at ho
    exact ⟨o, ho⟩
  · rintro ⟨o, ho⟩
    refine ⟨⟨manifestKey name, o.body.size, o.lastModified⟩, ?_, manifestNameFromKey_manifestKey name⟩
    exact mem_listing.mpr ⟨startsWith_manifestKey name, o, ho, rfl, rfl⟩

/-- The keys of a listing are apart. -/
theorem nodup_listing (pfx : String) : ((S3Op.listing w pfx).map ListEntry.key).Nodup := by
  have hsub : ((S3Op.listing w pfx).map ListEntry.key).Sublist
      (w.objects.map Prod.fst).dedup := by
    unfold S3Op.listing
    generalize (w.objects.map Prod.fst).dedup = keys
    induction keys with
    | nil => exact List.Sublist.slnil
    | cons key keys ih =>
      rw [List.filterMap_cons]
      split
      · exact ih.cons key
      · rename_i e he
        split at he
        · obtain ⟨o, -, rfl⟩ := Option.map_eq_some_iff.mp he
          exact ih.cons_cons key
        · cases he
  exact hsub.nodup (List.nodup_dedup _)

theorem nodup_manifestNames (pfx : String) : (manifestNames (S3Op.listing w pfx)).Nodup := by
  have hmap : manifestNames (S3Op.listing w pfx) =
      ((S3Op.listing w pfx).map ListEntry.key).filterMap manifestNameFromKey := by
    rw [List.filterMap_map]
    rfl
  rw [hmap]
  refine (nodup_listing pfx).filterMap ?_
  intro k k' name hk hk'
  rw [manifestNameFromKey_eq_some.mp hk, manifestNameFromKey_eq_some.mp hk']

theorem ensures_listManifestNames (hJ : J w) : Ensures Answers J listManifestNames w
    (fun names w' => w' = w ∧ names.Nodup ∧ ∀ n, n ∈ names ↔ w.Has (manifestKey n))
    fun _ w' => w' = w := by
  refine Ensures.bind (R := fun entries w' => w' = w ∧ entries = S3Op.listing w MANIFEST_PREFIX)
    (Ensures.bind (R := fun r w' => w' = w ∧ ∀ entries, r = .ok entries →
      entries = S3Op.listing w MANIFEST_PREFIX) (Ensures.ask hJ fun r w' hr => ?_) ?_) ?_
  · have hlook : Reads (.s3 (.listObjectsV2 MANIFEST_PREFIX)) := trivial
    refine ⟨hlook.unchanged hr, ?_⟩
    rintro entries rfl
    exact (entries_of_listObjectsV2 hr).2
  · rintro r w' ⟨hw, hr⟩
    cases r with
    | ok entries => exact Ensures.pure ⟨hw, hr entries rfl⟩
    | error e => exact Ensures.throw hw
  · rintro entries w' ⟨hw, rfl⟩
    exact Ensures.pure ⟨hw, nodup_manifestNames _, fun n => mem_manifestNames⟩

theorem ensures_readManifest (hJ : J w) (name : String) : Ensures Answers J (readManifest name) w
    (fun m w' => w' = w ∧ ∃ m₀, w.Holds name m₀ ∧ m = { m₀ with name })
    fun _ w' => w' = w := by
  refine Ensures.bind (R := fun body w' => w' = w ∧ ∃ o, w.get? (manifestKey name) = some o ∧
    o.body = body) (Ensures.mapFail (Ensures.bind (R := fun r w' => w' = w ∧ ∀ body, r = .ok body →
      ∃ o, w.get? (manifestKey name) = some o ∧ o.body = body)
      (Ensures.ask hJ fun r w' hr => ?_) ?_)) ?_
  · have hlook : Reads (.s3 (.getObject (manifestKey name))) := trivial
    refine ⟨hlook.unchanged hr, ?_⟩
    rintro body rfl
    exact (get?_of_getObject hr).2
  · rintro r w' ⟨hw, hr⟩
    cases r with
    | ok body => exact ⟨hw, hr body rfl⟩
    | error e => exact hw
  · rintro body w' ⟨hw, o, ho, rfl⟩
    cases hb : decodeManifest o.body with
    | ok m => exact ⟨hw, m, ⟨o, ho, decodeManifest_ok hb⟩, rfl⟩
    | error e => exact hw

/-- One more manifest has been read. -/
theorem holdAs_concat {ms : List Manifest} {name : String} {m₀ : Manifest}
    (hms : ∀ m ∈ ms, ∃ m₀, w.Holds m.name m₀ ∧ m = { m₀ with name := m.name })
    (hm₀ : w.Holds name m₀) : ∀ m ∈ ms ++ [{ m₀ with name }],
      ∃ m₀, w.Holds m.name m₀ ∧ m = { m₀ with name := m.name } := by
  intro m hm
  rcases List.mem_append.mp hm with hm | hm
  · exact hms m hm
  · obtain rfl := List.mem_singleton.mp hm
    exact ⟨m₀, hm₀, rfl⟩

/-- Manifests read for all the names there are. -/
theorem readOf_of_names {ms : List Manifest} (hnodup : (ms.map Manifest.name).Nodup)
    (hall : ∀ name, w.Has (manifestKey name) → name ∈ ms.map Manifest.name)
    (hms : ∀ m ∈ ms, ∃ m₀, w.Holds m.name m₀ ∧ m = { m₀ with name := m.name }) : ReadOf w ms := by
  refine ⟨hnodup, fun m => ⟨hms m, ?_⟩⟩
  rintro ⟨m₀, ⟨o, ho, hb⟩, hm⟩
  -- its name was listed, so it was read
  obtain ⟨m', hm', hname⟩ := List.mem_map.mp (hall m.name ⟨o, ho⟩)
  obtain ⟨m₁, hm₁, heq⟩ := hms m' hm'
  rw [hname] at hm₁ heq
  obtain rfl : m₁ = m₀ := hm₁.unique ⟨o, ho, hb⟩
  rw [hm, ← heq]
  exact hm'

/-- All or nothing: a result shows every manifest in the bucket. -/
theorem ensures_readAllManifests (hJ : J w) : Ensures Answers J readAllManifests w
    (fun ms w' => w' = w ∧ ReadOf w ms) fun _ w' => w' = w := by
  refine Ensures.bind (ensures_listManifestNames hJ) ?_
  rintro names w₁ ⟨rfl, hnodup, hnames⟩
  refine Ensures.bind (Ensures.reads (reads_env .order) hJ) ?_
  rintro order w₂ rfl
  have hperm := reorder_perm order names
  refine Ensures.mono (ensures_collect (fun pre ms w' => w' = w₂ ∧ ms.map Manifest.name = pre ∧
    ∀ m ∈ ms, ∃ m₀, w₂.Holds m.name m₀ ∧ m = { m₀ with name := m.name }) ?_ ⟨rfl, rfl, by simp⟩)
    (fun _ h => h) ?_ fun _ _ h => h
  · rintro pre ms name post w' - ⟨rfl, hpre, hms⟩
    refine Ensures.mono (ensures_readManifest hJ name) (fun _ h => h) ?_ fun _ _ h => h
    rintro m w'' ⟨rfl, m₀, hm₀, rfl⟩
    exact ⟨rfl, by simp [hpre], holdAs_concat hms hm₀⟩
  · rintro ms w' ⟨rfl, hpre, hms⟩
    refine ⟨rfl, readOf_of_names ?_ ?_ hms⟩
    · rw [hpre]
      exact hperm.nodup_iff.mpr hnodup
    · intro name hhas
      rw [hpre, hperm.mem_iff, hnames]
      exact hhas

-- ---------------------------------------------------------------------------
-- Work under the lock
-- ---------------------------------------------------------------------------

/-- Calls about the lock leave everything else as it is. -/
theorem AboutLock.get?_eq {op : Op} (h : AboutLock op) {w w' : World} {r : Resp op}
    (hans : Answers op w r w') {key : String} (hkey : key ≠ LOCK_KEY) :
    w'.get? key = w.get? key := by
  cases op with
  | env o => rw [hans.2]
  | s3 o =>
    cases (S3Answers.change hans).2 with
    | removes gone hsub hget =>
      have hno : key ∉ gone := by
        intro hg
        have hdel := hsub key hg
        cases o with
        | deleteObject key' =>
          obtain rfl := List.mem_singleton.mp hdel
          exact hkey h
        | deleteObjects keys => exact h.elim
        | _ => simp [S3Op.deletes] at hdel
      rw [hget, if_neg hno]
    | writes key' body hw hget =>
      have hne : key ≠ key' := by
        rintro rfl
        cases o with
        | putObject key' body' im inm =>
          obtain ⟨rfl, -⟩ := hw
          exact hkey h.1
        | _ => first | exact hw.elim | exact h.elim
      rw [hget, if_neg hne]

/-- But for the lock object, nothing has changed. -/
def SameButLock (w w' : World) : Prop := ∀ key, key ≠ LOCK_KEY → w'.get? key = w.get? key

theorem SameButLock.holds {w w' : World} (h : SameButLock w w') {name : String} {m : Manifest} :
    w'.Holds name m ↔ w.Holds name m := by
  unfold World.Holds
  rw [h _ (manifestKey_ne_lock name)]

theorem SameButLock.refl (w : World) : SameButLock w w := fun _ _ => rfl

theorem SameButLock.symm {w w' : World} (h : SameButLock w w') : SameButLock w' w :=
  fun key hkey => (h key hkey).symm

theorem SameButLock.trans {w w' w'' : World} (h : SameButLock w w') (h' : SameButLock w' w'') :
    SameButLock w w'' := fun key hkey => (h' key hkey).trans (h key hkey)

theorem AboutLock.same {op : Op} (h : AboutLock op) {w w' : World} {r : Resp op}
    (hans : Answers op w r w') : SameButLock w w' := fun _ hkey => h.get?_eq hans hkey

/-- Work that may be dropped at any of its calls. -/
theorem ensures_raceLockLost {α W : Type} {answers : (op : Op) → W → Resp op → W → Prop}
    (hlost : ∀ w lost w', answers (.env .lockLost) w lost w' → w' = w) {J : W → Prop} {p : P α}
    {w : W} {Q : α → W → Prop} {E : AnyError → W → Prop} (h : Ensures answers J p w Q E)
    (hdrop : ∀ w, J w → E [LOCK_LOST_MSG] w) : Ensures answers J (raceLockLost p) w Q E := by
  induction p generalizing w with
  | done a => exact h
  | fail e => exact h
  | call op k ih =>
    refine ⟨h.1, ?_⟩
    intro lost w' hans
    obtain rfl : w' = w := hlost w lost w' hans
    cases lost with
    | true => exact hdrop w' h.1
    | false => exact ⟨h.1, fun r w'' hr => ih r (h.2 r w'' hr)⟩

/-- Work under the lock. `I` holds until it is taken, `R` from the end of the
work on. -/
theorem ensures_withGcLock {W : Type} {answers : (op : Op) → W → Resp op → W → Prop}
    (hlost : ∀ w lost w', answers (.env .lockLost) w lost w' → w' = w) {I J : W → Prop}
    {R : Except AnyError Unit → W → Prop}
    (hlockI : ∀ op w r w', AboutLock op → I w → answers op w r w' → I w')
    (hlockR : ∀ x op w r w', AboutLock op → R x w → answers op w r w' → R x w')
    (hIJ : ∀ w, I w → J w) (hRJ : ∀ x w, R x w → J w) (hI : ∀ e w, I w → R (.error e) w)
    (hdrop : ∀ w, J w → R (.error [LOCK_LOST_MSG]) w) {f : P Unit}
    (hf : ∀ w, I w → Ensures answers J f w (fun u w' => R (.ok u) w') fun e w' => R (.error e) w')
    {w : W} (hw : I w) :
    Ensures answers J (withGcLock f) w (fun u w' => R (.ok u) w') fun e w' => R (.error e) w' := by
  refine Ensures.bind (R := fun _ w' => I w') (Ensures.ask (hIJ w hw) fun id w' hans => ?_)
    fun id w₁ hw₁ => ?_
  · exact hlockI (.env .newV4) w id w' trivial hw hans
  have htake : Ensures answers I (mapFail (withContext "Failed to acquire GC lock")
      (acquireWithRetry id 10)) w₁ (fun _ w' => I w') fun _ w' => I w' :=
    (aboutLock_acquireWithRetry id 10).mapFail.ensures
      (fun op w r w' ho hI hans => hlockI op w r w' ho hI hans) hw₁
  refine Ensures.bind (Ensures.mono htake hIJ (fun _ _ h => h) hI) fun etag w₂ hw₂ => ?_
  cases etag with
  | none => exact Ensures.throw (hI _ w₂ hw₂)
  | some etag =>
    refine Ensures.bind (R := fun x w' => R x w') (Ensures.attempt
      (ensures_raceLockLost hlost (hf w₂ hw₂) hdrop)) fun x w₃ hw₃ => ?_
    refine Ensures.bind (R := fun _ w' => R x w') (Ensures.ask (hRJ x w₃ hw₃)
      fun lost w' hans => hlockR x (.env .lockLost) w₃ lost w' trivial hw₃ hans)
      fun lost w₄ hw₄ => ?_
    have hend : ∀ w, R x w → Ensures answers J (liftP x) w (fun u w' => R (.ok u) w')
        fun e w' => R (.error e) w' := by
      intro w hw
      cases x with
      | ok u => exact hw
      | error e => exact hw
    dsimp only
    split
    · have hrelease : Ensures answers (R x) (release id) w₄ (fun _ w' => R x w')
          fun _ w' => R x w' :=
        (aboutLock_release id).ensures
          (fun op w r w' ho hR hans => hlockR x op w r w' ho hR hans) hw₄
      -- a failing release is dropped
      refine Ensures.bind (R := fun _ w' => R x w') (Ensures.attempt (Ensures.mono hrelease (hRJ x)
        (fun _ _ h => h) fun _ _ h => h)) fun _ w₅ hw₅ => hend w₅ hw₅
    · exact hend w₄ hw₄

end Chbk
