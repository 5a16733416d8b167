import Chbk.Safety.Filter
import Chbk.Safety.Snapshot

/-!
# What a backup is told

The ledger of a backup: the parts it was told of, the hashes that are known,
found or staged, the bytes that went into each blob, and the errors it was
answered. Each piece of the command in turn, with what it leaves in the ledger.

* `Ledger.AllStaged` — what the check behind the two loops asks for.
* `Ledger.Settled` — no metadata retry has brought in a hash that nothing covers.
* `Accurate` — a manifest that says what the ledger says.
* `tells_headCheckExisting`, `tells_stagePasses`, `tells_metadataAttempts` — what
  the loops leave in the ledger.
-/

namespace Chbk

open Lib Prog

-- ---------------------------------------------------------------------------
-- The ledger
-- ---------------------------------------------------------------------------

/-- What a backup was told. -/
structure Ledger where
  /-- The parts of the manifest it has read. -/
  latest : List ManifestPart := []
  /-- The last list of parts. -/
  listing : List PartInfo := []
  /-- The list of parts for which it first read metadata. -/
  settled : Option (List PartInfo) := none
  /-- The keys its HEAD checks have found, with the lengths of the objects. -/
  found : List (String × Nat) := []
  /-- The hashes that could be staged. -/
  staged : List String := []
  /-- The lengths of the parts it has uploaded. -/
  sent : List (UploadId × Nat) := []
  /-- The keys of its completed uploads, with the lengths of their parts. -/
  uploaded : List (String × Nat) := []
  /-- The errors it was answered. -/
  told : List AnyError := []

/-- The error in an answer of the surroundings. -/
def heard : (op : Op) → Resp op → List AnyError
  | .env (.runQuery _), .error e => [e]
  | .env (.localStep _), .error e => [e]
  | .env (.readFile _), .error e => [e]
  | .env (.walkFiles _), .error e => [e]
  | .env (.stagePart _ _), .error e => [e]
  | .env (.collectFiles _ _), .error e => [e]
  | _, _ => []

namespace Ledger

/-- Metadata is read for the list at hand. -/
def settle (v : Ledger) : Ledger := { v with settled := some (v.settled.getD v.listing) }

/-- The bytes an upload has been sent. -/
def sentTo (v : Ledger) (id : UploadId) : Nat :=
  ((v.sent.filter fun x => x.1 = id).map Prod.snd).sum

def learn (json : Json) (cfg : Config) (v : Ledger) : (op : Op) → Resp op → Ledger
  | .s3 (.getObject _), .ok (.manifest m) => { v with latest := m.parts }
  | .s3 (.headObject key), .ok size => { v with found := (key, size) :: v.found }
  | .s3 (.createMultipartUpload _), .ok id =>
    { v with sent := v.sent.filter fun x => x.1 ≠ id }
  | .s3 (.uploadPart _ id _ data), .ok _ => { v with sent := (id, data.length) :: v.sent }
  | .s3 (.completeMultipartUpload key id _), .ok _ =>
    { v with uploaded := (key, v.sentTo id) :: v.uploaded }
  | .env (.runQuery sql), r =>
    if sql = activePartsQuery cfg then
      match queryActiveParts json r with
      | .ok ps => { v with listing := ps }
      | .error _ => v
    else v
  | .env (.readFile _), _ => v.settle
  | .env (.walkFiles _), _ => v.settle
  | .env (.stagePart part _), .ok _ => { v with staged := part.hashOfAllFiles :: v.staged }
  | _, _ => v

def observe (json : Json) (cfg : Config) (v : Ledger) (op : Op) (r : Resp op) : Ledger :=
  { v.learn json cfg op r with told := heard op r ++ v.told }

/-- The size of a hash in the manifest that was read: of two the later one. -/
def knownSize (v : Ledger) (hash : String) : Option UInt64 :=
  (v.latest.map fun p => (p.blobHash, p.blobSize)).reverse.lookup hash

/-- Every hash the last list needs, neither known nor found, is staged. -/
def AllStaged (v : Ledger) : Prop :=
  ∀ p ∈ v.listing, p.hashOfAllFiles ∉ v.latest.map ManifestPart.blobHash →
    blobRemoteKey p.hashOfAllFiles ∉ v.found.map Prod.fst → p.hashOfAllFiles ∈ v.staged

/-- Every hash of the last list was in the list for which metadata was first
read, or is known, found or staged. -/
def Settled (v : Ledger) : Prop :=
  ∀ p ∈ v.listing, p.hashOfAllFiles ∈ (v.settled.getD v.listing).map PartInfo.hashOfAllFiles
    ∨ p.hashOfAllFiles ∈ v.latest.map ManifestPart.blobHash
    ∨ blobRemoteKey p.hashOfAllFiles ∈ v.found.map Prod.fst ∨ p.hashOfAllFiles ∈ v.staged

end Ledger

/-- Where the size of a blob is known from. -/
inductive SizeSource where
  | latestManifest
  | headCheck
  | upload
  deriving DecidableEq, Repr

/-- A source gives this size for a hash. -/
def Ledger.Gives (v : Ledger) (hash : String) (size : UInt64) : SizeSource → Prop
  | .latestManifest => v.knownSize hash = some size
  | .headCheck => ∃ n, (blobRemoteKey hash, n) ∈ v.found ∧ size = UInt64.ofNat n
  | .upload => ∃ n, (blobRemoteKey hash, n) ∈ v.uploaded ∧ size = UInt64.ofNat n

/-- The size of a hash is from one source, and no other source has one for it. -/
def Ledger.OneSource (v : Ledger) (hash : String) (size : UInt64) : Prop :=
  ∃ source, v.Gives hash size source ∧
    ∀ source' size', v.Gives hash size' source' → source' = source ∧ size' = size

/-- The DDL files of a list of parts are there, and no other metadata file. -/
structure Documented (listing : List PartInfo) (files : List ManifestFile) : Prop where
  database : ∀ p ∈ listing, dbSql p.database ∈ files.map ManifestFile.path
  table : ∀ p ∈ listing, startsWith p.table ".inner_id." = false →
    tableSql (p.database, p.table) ∈ files.map ManifestFile.path
  only : ∀ f ∈ files, startsWith f.path "metadata/" = true → ∃ p ∈ listing,
    f.path = dbSql p.database ∨
      startsWith p.table ".inner_id." = false ∧ f.path = tableSql (p.database, p.table)

/-- The manifest lists the parts of the last list, one for one, with their sizes
and the files of their tables. -/
structure Accurate (v : Ledger) (m : Manifest) : Prop where
  parts : m.parts.map (fun p => (p.database, p.tableName, p.partName, p.blobHash)) =
    v.listing.map fun p => (p.database, p.table, p.name, p.hashOfAllFiles)
  sizes : ∀ p ∈ m.parts, v.OneSource p.blobHash p.blobSize
  files : Documented v.listing m.files

/-- The watch over the ledger. -/
def ledgerWatch (json : Json) (cfg : Config) : Watch Op Resp Ledger :=
  ⟨{}, Ledger.observe json cfg⟩

/-- Every manifest is accurate; behind the check that all is staged, all is. -/
def LedgerRule (v : Ledger) : Op → Prop
  | .s3 (.putObject _ (.manifest m) _ _) => Accurate v m
  | .env (.localStep what) => what = "remove the staged parts not in use" → v.AllStaged
  | _ => True

-- ---------------------------------------------------------------------------
-- The errors of the checks
-- ---------------------------------------------------------------------------

/-- One of the two checks of the sizes fails. -/
def SizeError (e : AnyError) : Prop :=
  ∃ hash, e = ["Missing size for " ++ hash] ∨ ∃ prev size,
    e = ["Blob size mismatch for " ++ hash ++ ": manifest had " ++ formatBytes prev
      ++ " but uploaded " ++ formatBytes size]

/-- The check that all is staged fails. -/
def NotStaged (e : AnyError) : Prop :=
  ∃ hash, e = ["Need upload for " ++ hash ++ " but not staged"]

/-- The error of a check. -/
def CheckError (e : AnyError) : Prop := SizeError e ∨ NotStaged e

/-- The errors of the checks are told by their first two letters. -/
theorem CheckError.head {e : AnyError} (h : CheckError e) :
    ∃ msg, e = [msg] ∧ msg.toList.take 2 ∈ [['M', 'i'], ['B', 'l'], ['N', 'e']] := by
  rcases h with ⟨hash, h | ⟨prev, size, h⟩⟩ | ⟨hash, h⟩
  · refine ⟨_, h, ?_⟩
    rw [String.toList_append]
    exact List.mem_cons_self ..
  · refine ⟨_, h, ?_⟩
    simp only [String.toList_append]
    exact List.mem_cons_of_mem _ (List.mem_cons_self ..)
  · refine ⟨_, h, ?_⟩
    simp only [String.toList_append]
    exact List.mem_cons_of_mem _ (List.mem_cons_of_mem _ (List.mem_cons_self ..))

theorem not_checkError {msg : String} {rest : List String} {c d : Char}
    (h : ∃ cs, msg.toList = c :: d :: cs)
    (hcd : [c, d] ∉ [['M', 'i'], ['B', 'l'], ['N', 'e']]) : ¬ CheckError (msg :: rest) := by
  intro he
  obtain ⟨msg', hmsg, htake⟩ := he.head
  obtain ⟨cs, hcs⟩ := h
  obtain ⟨rfl, -⟩ := List.cons.inj hmsg
  rw [hcs] at htake
  exact hcd htake

/-- An error of a check was answered to the backup, or says that something new
has come in. -/
def Honest (e : AnyError) (v : Ledger) : Prop :=
  (CheckError e → e ∈ v.told) ∨ (NotStaged e ∧ ¬ v.Settled)

-- ---------------------------------------------------------------------------
-- Pieces of a backup
-- ---------------------------------------------------------------------------

/-- A piece of a backup: it keeps to the rule and its errors are honest. -/
def Tells {α : Type} (json : Json) (cfg : Config) (p : P α) (v : Ledger)
    (Q : α → Ledger → Prop) : Prop :=
  Follows (ledgerWatch json cfg) LedgerRule p v Q Honest

section

variable {json : Json} {cfg : Config} {v : Ledger}

theorem honest_fine {e : AnyError} (h : ¬ CheckError e) : Honest e v :=
  .inl fun he => absurd he h

theorem Tells.bind {α β : Type} {p : P α} {f : α → P β} {R : α → Ledger → Prop}
    {Q : β → Ledger → Prop} (h : Tells json cfg p v R)
    (hf : ∀ a v', R a v' → Tells json cfg (f a) v' Q) : Tells json cfg (p >>= f) v Q :=
  Follows.bind h hf

theorem Tells.mono {α : Type} {p : P α} {Q Q' : α → Ledger → Prop} (h : Tells json cfg p v Q)
    (hQ : ∀ a v', Q a v' → Q' a v') : Tells json cfg p v Q' :=
  Follows.mono h hQ fun _ _ he => he

theorem Tells.liftP {α : Type} {x : Except AnyError α} {Q : α → Ledger → Prop}
    (hok : ∀ a, x = .ok a → Q a v) (herr : ∀ e, x = .error e → Honest e v) :
    Tells json cfg (Chbk.liftP x) v Q :=
  follows_liftP hok herr

theorem tells_askEnv {o : EnvOp} {Q : EnvResp o → Ledger → Prop}
    (hrule : LedgerRule v (.env o)) (h : ∀ r, Q r (v.observe json cfg (.env o) r)) :
    Tells json cfg (askEnv o) v Q :=
  follows_askEnv hrule h

/-- A failing piece under a context: the context is told apart from the checks. -/
theorem Tells.mapFail {α : Type} {p : P α} {msg : String} {c d : Char} {Q : α → Ledger → Prop}
    {E : AnyError → Ledger → Prop} (h : Follows (ledgerWatch json cfg) LedgerRule p v Q E)
    (hmsg : ∃ cs, msg.toList = c :: d :: cs)
    (hcd : [c, d] ∉ [['M', 'i'], ['B', 'l'], ['N', 'e']]) :
    Tells json cfg (Prog.mapFail (withContext msg) p) v Q :=
  Follows.mapFail (Follows.mono h (fun _ _ h => h) fun _ _ _ =>
    honest_fine (not_checkError hmsg hcd))

/-- A step on the local disk, but for the one behind the check that all is
staged. -/
theorem follows_localStep {what : String} (h : what = "remove the staged parts not in use" →
    v.AllStaged) : Follows (ledgerWatch json cfg) LedgerRule (localStep what) v
      (fun _ v' => ∃ es, v' = { v with told := es })
      fun e v' => (∃ es, v' = { v with told := es }) ∧ e ∈ v'.told := by
  refine Follows.bind (R := fun r v' => (∃ es, v' = { v with told := es }) ∧
    ∀ e, r = .error e → e ∈ v'.told) (follows_askEnv h fun r => ⟨⟨_, rfl⟩, ?_⟩) fun r v' hr => ?_
  · rintro e rfl
    exact List.mem_cons_self ..
  · exact follows_liftP (fun _ _ => hr.1) fun e he => ⟨hr.1, hr.2 e he⟩

theorem tells_localStep {what : String} (h : what = "remove the staged parts not in use" →
    v.AllStaged) : Tells json cfg (localStep what) v fun _ v' => ∃ es, v' = { v with told := es } :=
  Follows.mono (follows_localStep h) (fun _ _ h => h) fun _ _ he => .inl fun _ => he.2

theorem hashOfText_error {s : String} {e : AnyError} (h : hashOfText s = .error e) :
    ¬ CheckError e := by
  unfold hashOfText at h
  dsimp only at h
  split at h
  · cases h
  · split at h
    · cases h
    · obtain rfl := Except.error.inj h
      exact not_checkError ⟨_, by rw [String.toList_append]; rfl⟩ (by decide)

theorem except_map_error {α β : Type} {f : α → β} {x : Except AnyError α} {e : AnyError}
    (h : x.map f = .error e) : x = .error e := by
  cases x with
  | ok a => cases h
  | error e' => exact congrArg Except.error (Except.error.inj h)

theorem partOfRow_error {row : Value} {e : AnyError} (h : partOfRow json row = .error e) :
    ¬ CheckError e := by
  unfold partOfRow at h
  split at h
  · rename_i e' hhash
    obtain rfl := Except.error.inj h
    unfold parseHashOfAllFilesHex at hhash
    split at hhash
    · cases hhash
    · exact hashOfText_error (except_map_error hhash)
    · exact hashOfText_error (except_map_error hhash)
    · obtain rfl := Except.error.inj hhash
      exact not_checkError ⟨_, by rw [String.toList_append]; rfl⟩ (by decide)
  · cases h
  · cases h

theorem partsOfLines_error {e : AnyError} : ∀ {ls : List String},
    partsOfLines json ls = .error e → ¬ CheckError e
  | [], h => by cases h
  | line :: ls, h => by
    unfold partsOfLines at h
    split at h
    · exact partsOfLines_error h
    · split at h
      · rename_i hrow
        obtain rfl := Except.error.inj h
        exact partOfRow_error hrow
      · exact partsOfLines_error (except_map_error h)

/-- The parts that are asked for are the list at hand. -/
theorem tells_queryParts : Tells json cfg (queryParts json cfg) v fun parts v' =>
    ∃ es, v' = { v with listing := parts, told := es } := by
  refine Tells.bind (R := fun r v' => (∀ parts, queryActiveParts json r = .ok parts →
    ∃ es, v' = { v with listing := parts, told := es }) ∧ ∀ e, r = .error e → e ∈ v'.told)
    (tells_askEnv trivial fun r => ⟨?_, ?_⟩) fun r v' hr => ?_
  · intro parts hparts
    refine ⟨heard (.env (.runQuery (activePartsQuery cfg))) r ++ v.told, ?_⟩
    simp only [Ledger.observe, Ledger.learn, if_pos, hparts]
  · rintro e rfl
    exact List.mem_cons_self ..
  · refine Tells.liftP hr.1 fun e he => ?_
    cases r with
    | error e' =>
      obtain rfl := Except.error.inj (show Except.error e' = Except.error e from he)
      exact .inl fun _ => hr.2 _ rfl
    | ok text => exact honest_fine (partsOfLines_error he)

/-- The macros query is not the one for the parts: the latter starts on a new
line. -/
theorem macrosQuery_ne (cfg : Config) : macrosQuery ≠ activePartsQuery cfg := by
  have hmacros : macrosQuery.toList.head? = some 'S' := rfl
  have hparts : (activePartsQuery cfg).toList.head? = some '\n' := by
    unfold activePartsQuery
    simp only [String.toList_append, List.append_assoc]
    rfl
  intro h
  rw [h, hparts] at hmacros
  cases hmacros

theorem tells_macrosFor : Tells json cfg (macrosFor json cfg) v fun _ v' =>
    ∃ es, v' = { v with told := es } := by
  unfold macrosFor
  split
  · refine Tells.bind (R := fun _ v' => ∃ es, v' = { v with told := es })
      (tells_askEnv trivial fun r => ⟨heard (.env (.runQuery macrosQuery)) r ++ v.told, ?_⟩)
      fun r v' hv' => Follows.pure hv'
    simp only [Ledger.observe, Ledger.learn, if_neg (macrosQuery_ne cfg)]
  · exact Follows.pure ⟨v.told, rfl⟩

theorem tells_resolveShardReplica : Tells json cfg (resolveShardReplica json cfg) v fun _ v' =>
    ∃ es, v' = { v with told := es } := by
  refine Tells.bind tells_macrosFor fun macros v' hv' => ?_
  split
  · exact Follows.throw (honest_fine (not_checkError ⟨_, rfl⟩ (by decide)))
  · split
    · exact Follows.throw (honest_fine (not_checkError ⟨_, rfl⟩ (by decide)))
    · exact Follows.pure hv'

theorem tells_nameOrAuto (name : Option String) (shard replica : String) (timestamp : Int) :
    Tells json cfg (nameOrAuto name shard replica timestamp) v fun _ v' => v' = v := by
  cases name with
  | some n => exact Follows.pure rfl
  | none =>
    exact Tells.bind (R := fun _ v' => v' = v) (tells_askEnv trivial fun r => rfl)
      fun uuid v' hv' => Follows.pure hv'

-- ---------------------------------------------------------------------------
-- Known hashes
-- ---------------------------------------------------------------------------

theorem sdkError_fine (e : SdkError) : ¬ CheckError (sdkAnyError e) := by
  cases e with
  | serviceError status code =>
    show ¬ CheckError ["service error"]
    exact not_checkError ⟨_, rfl⟩ (by decide)
  | _ => exact not_checkError ⟨_, rfl⟩ (by decide)

theorem tells_listManifestNames : Tells json cfg listManifestNames v fun _ v' => v' = v := by
  refine Tells.bind (R := fun _ v' => v' = v) ?_ fun es v' hv' => Follows.pure hv'
  refine Tells.bind (R := fun _ v' => v' = v) (Follows.ask trivial fun r => ?_) fun r v' hv' => ?_
  · cases r with
    | ok es => rfl
    | error e => rfl
  · cases r with
    | ok es => exact Follows.pure hv'
    | error e => exact Follows.throw (honest_fine (sdkError_fine e))

theorem tells_readManifest (name : String) : Tells json cfg (readManifest name) v fun m v' =>
    v' = { v with latest := m.parts } := by
  refine Tells.bind (R := fun body v' => ∀ m, body = .manifest m → v' = { v with latest := m.parts })
    (Tells.mapFail (E := fun _ _ => True) (follows_getObject trivial (fun body => ?_)
      fun _ _ => trivial) ⟨_, by rw [String.toList_append]; rfl⟩ (by decide)) fun body v' hbody => ?_
  · rintro m rfl
    rfl
  · refine Tells.bind (R := fun m v' => v' = { v with latest := m.parts })
      (Tells.liftP (fun m hm => hbody m (decodeManifest_ok hm)) fun e he => ?_)
      fun m v' hv' => Follows.pure hv'
    cases body with
    | manifest m => cases he
    | lock info =>
      obtain rfl := Except.error.inj he
      exact honest_fine (not_checkError ⟨_, rfl⟩ (by decide))
    | data bs =>
      obtain rfl := Except.error.inj he
      exact honest_fine (not_checkError ⟨_, rfl⟩ (by decide))

/-- The known hashes are those of the manifest that was read. -/
theorem tells_loadKnown (shard replica : String) (hv : v.latest = []) :
    Tells json cfg (loadKnownFromLatestManifest shard replica) v fun known v' =>
      ∃ parts, v' = { v with latest := parts } ∧
        known = (parts.map fun p => (p.blobHash, p.blobSize)).reverse := by
  refine Tells.bind tells_listManifestNames fun names v' hv' => ?_
  subst hv'
  split
  · exact Follows.pure ⟨[], by rw [← hv], rfl⟩
  · refine Tells.bind (tells_readManifest _) fun m v' hv' => ?_
    exact Follows.pure ⟨m.parts, hv', rfl⟩

-- ---------------------------------------------------------------------------
-- HEAD checks
-- ---------------------------------------------------------------------------

/-- The ledger with these hashes found. -/
def Ledger.find (v : Ledger) (found : List (String × Nat)) : Ledger :=
  { v with found := (found.map fun x => (blobRemoteKey x.1, x.2)).reverse ++ v.found }

theorem tells_headCheck (hash : String) : Tells json cfg (headCheck hash) v fun x v' =>
    x.1 = hash ∧ v' = v.find (x.2.map fun size => (x.1, size)).toList := by
  refine Tells.bind (R := fun x v' => v' = v.find (x.toOption.join.map fun size =>
    (hash, size)).toList) (Follows.attempt (follows_objectExists trivial (fun size => rfl)
      (fun e => rfl) fun e e' => rfl)) fun x v' hv' => ?_
  cases x with
  | ok size => exact Follows.pure ⟨rfl, hv'⟩
  | error e => exact Follows.pure ⟨rfl, hv'⟩

theorem map_fst_filterMap {results : List (String × Option Nat)} :
    ((results.filterMap fun x => x.2.map fun size => (x.1, size)).map Prod.fst).Sublist
      (results.map Prod.fst) := by
  induction results with
  | nil => exact List.Sublist.refl _
  | cons x xs ih =>
    obtain ⟨hash, size⟩ := x
    cases size with
    | none => exact ih.cons hash
    | some n => exact ih.cons_cons hash

/-- The hashes that are found are among those asked for, each once. -/
theorem tells_headCheckExisting {l : List (String × UInt64)} (hl : (l.map Prod.fst).Nodup) :
    Tells json cfg (headCheckExisting l) v fun found v' =>
      v' = v.find found ∧ (found.map Prod.fst).Nodup ∧
        ∀ h ∈ found.map Prod.fst, h ∈ l.map Prod.fst := by
  unfold headCheckExisting
  dsimp only
  split
  · exact Follows.pure ⟨rfl, List.nodup_nil, by simp⟩
  · refine Tells.bind (R := fun _ v' => v' = v) (tells_askEnv trivial fun r => rfl)
      fun order v₁ hv₁ => ?_
    subst hv₁
    have hsub : (((l.filter fun x => x.2 ≥ HEAD_CHECK_THRESHOLD)).map Prod.fst).Sublist
        (l.map Prod.fst) := List.filter_sublist.map _
    refine Tells.bind (follows_collect (fun pre results v' => results.map Prod.fst = pre ∧
      v' = v₁.find (results.filterMap fun x => x.2.map fun size => (x.1, size))) ?_ ⟨rfl, rfl⟩)
      fun results v₂ hresults => Follows.pure ⟨hresults.2, ?_, ?_⟩
    · rintro pre results hash post v' - ⟨hpre, rfl⟩
      refine (tells_headCheck hash).mono fun x v'' hx => ⟨?_, ?_⟩
      · rw [List.map_append, hpre, List.map_singleton, hx.1]
      · rw [hx.2]
        cases hsize : x.2 <;> simp [Ledger.find, List.filterMap_append, hsize]
    · refine List.Nodup.sublist map_fst_filterMap ?_
      rw [hresults.1, (reorder_perm _ _).nodup_iff]
      exact hl.sublist hsub
    · intro h hh
      have hmem := map_fst_filterMap.subset hh
      rw [hresults.1, mem_reorder] at hmem
      exact hsub.subset hmem

-- ---------------------------------------------------------------------------
-- Staging
-- ---------------------------------------------------------------------------

theorem nodup_firstOfEachHash : ∀ (seen : List String) (parts : List PartInfo),
    ((firstOfEachHash seen parts).map PartInfo.hashOfAllFiles).Nodup ∧
      ∀ h, h ∈ (firstOfEachHash seen parts).map PartInfo.hashOfAllFiles ↔
        h ∈ parts.map PartInfo.hashOfAllFiles ∧ h ∉ seen
  | seen, [] => by simp [firstOfEachHash]
  | seen, p :: ps => by
    unfold firstOfEachHash
    by_cases hseen : p.hashOfAllFiles ∈ seen
    · rw [if_pos hseen]
      obtain ⟨hnodup, hmem⟩ := nodup_firstOfEachHash seen ps
      refine ⟨hnodup, fun h => ?_⟩
      rw [hmem, List.map_cons, List.mem_cons]
      constructor
      · intro hh
        exact ⟨.inr hh.1, hh.2⟩
      · intro ⟨hh, hnot⟩
        exact ⟨hh.resolve_left fun heq => hnot (heq ▸ hseen), hnot⟩
    · rw [if_neg hseen]
      obtain ⟨hnodup, hmem⟩ := nodup_firstOfEachHash (p.hashOfAllFiles :: seen) ps
      refine ⟨?_, fun h => ?_⟩
      · rw [List.map_cons, List.nodup_cons]
        exact ⟨fun hp => ((hmem _).mp hp).2 (List.mem_cons_self ..), hnodup⟩
      · rw [List.map_cons, List.mem_cons, hmem, List.map_cons, List.mem_cons, List.mem_cons]
        constructor
        · rintro (rfl | ⟨hh, hnot⟩)
          · exact ⟨.inl rfl, hseen⟩
          · exact ⟨.inr hh, fun hs => hnot (.inr hs)⟩
        · rintro ⟨rfl | hh, hnot⟩
          · exact .inl rfl
          · by_cases heq : h = p.hashOfAllFiles
            · exact .inl heq
            · exact .inr ⟨hh, fun hs => hs.elim heq hnot⟩

/-- The hashes to upload, each once, are those of the list that are not known. -/
theorem mem_partsToUpload {parts : List PartInfo} {known : List String} {h : String} :
    h ∈ (partsToUpload parts known).map PartInfo.hashOfAllFiles ↔
      h ∈ parts.map PartInfo.hashOfAllFiles ∧ h ∉ known := by
  have hmem := (nodup_firstOfEachHash [] parts).2 h
  constructor
  · intro hh
    obtain ⟨p, hp, rfl⟩ := List.mem_map.mp hh
    obtain ⟨hp, hknown⟩ := List.mem_filter.mp hp
    exact ⟨(hmem.mp (List.mem_map_of_mem hp)).1, of_decide_eq_true hknown⟩
  · rintro ⟨hh, hknown⟩
    obtain ⟨p, hp, rfl⟩ := List.mem_map.mp (hmem.mpr ⟨hh, List.not_mem_nil⟩)
    exact List.mem_map_of_mem (List.mem_filter.mpr ⟨hp, decide_eq_true hknown⟩)

theorem nodup_partsToUpload (parts : List PartInfo) (known : List String) :
    ((partsToUpload parts known).map PartInfo.hashOfAllFiles).Nodup :=
  (nodup_firstOfEachHash [] parts).1.sublist (List.filter_sublist.map _)

/-- Parts are staged, and errors are heard. -/
def Staged (v v' : Ledger) (more : List String) : Prop :=
  ∃ staged es, v' = { v with staged := staged, told := es } ∧
    ∀ h, h ∈ staged ↔ h ∈ v.staged ∨ h ∈ more

theorem tells_stagePart (part : PartInfo) : Tells json cfg (stagePart cfg part) v fun x v' =>
    x.1 = part.hashOfAllFiles ∧ Staged v v' (if x.2 then [x.1] else []) := by
  refine Tells.bind (R := fun r v' => v' = v.observe json cfg (.env (.stagePart part _)) r)
    (tells_askEnv trivial fun r => rfl) fun r v' hv' => ?_
  subst hv'
  cases r with
  | ok u =>
    exact Follows.pure ⟨rfl, part.hashOfAllFiles :: v.staged, v.told, rfl,
      fun h => by simp [or_comm]⟩
  | error e => exact Follows.pure ⟨rfl, v.staged, _, rfl, fun h => by simp⟩

/-- One pass: what could be staged is staged. -/
theorem tells_stagePass (parts : List PartInfo) :
    Tells json cfg (Prog.collect (stagePart cfg) parts) v fun results v' =>
      results.map Prod.fst = parts.map PartInfo.hashOfAllFiles ∧
        Staged v v' ((results.filter Prod.snd).map Prod.fst) := by
  refine follows_collect (fun pre results v' => results.map Prod.fst =
    pre.map PartInfo.hashOfAllFiles ∧ Staged v v' ((results.filter Prod.snd).map Prod.fst)) ?_
    ⟨rfl, v.staged, v.told, rfl, by simp⟩
  rintro pre results part post v' - ⟨hpre, staged, es, rfl, hstaged⟩
  refine (tells_stagePart part).mono fun x v'' hx => ⟨?_, ?_⟩
  · rw [List.map_append, hpre, List.map_append, List.map_singleton, List.map_singleton, hx.1]
  · obtain ⟨staged', es', rfl, hstaged'⟩ := hx.2
    refine ⟨staged', es', rfl, fun h => ?_⟩
    rw [hstaged', hstaged, List.filter_append, List.map_append, List.mem_append, or_assoc]
    cases hx2 : x.2 <;> simp [hx2]

/-- The staging passes end with a list of parts whose hashes are known or
staged. -/
theorem tells_stagePasses {known : List String} : ∀ {left : Nat} {staged : List String} {v : Ledger},
    (∀ h, h ∈ v.staged ↔ h ∈ staged) → staged.Nodup → 0 < left →
    Tells json cfg (stagePasses json cfg known left staged v.listing) v fun x v' =>
      (∃ st es, v' = { v with staged := st, listing := x.2, told := es } ∧
        ∀ h, h ∈ st ↔ h ∈ x.1) ∧ x.1.Nodup ∧
      ∀ p ∈ x.2, p.hashOfAllFiles ∉ known → p.hashOfAllFiles ∈ x.1
  | 0, _, _, _, _, hpos => absurd hpos (Nat.lt_irrefl 0)
  | left + 1, staged, v, hv, hnodup, _ => by
    unfold stagePasses
    dsimp only
    -- what need not be staged again is known or staged
    have hneed : ∀ p ∈ v.listing, p.hashOfAllFiles ∉ known → p.hashOfAllFiles ∈ staged ∨
        p.hashOfAllFiles ∈ ((partsToUpload v.listing known).filter fun p =>
          p.hashOfAllFiles ∉ staged).map PartInfo.hashOfAllFiles := by
      intro p hp hknown
      by_cases hst : p.hashOfAllFiles ∈ staged
      · exact .inl hst
      · obtain ⟨q, hq, hqp⟩ := List.mem_map.mp
          (mem_partsToUpload.mpr ⟨List.mem_map_of_mem hp, hknown⟩)
        refine .inr (List.mem_map.mpr ⟨q, List.mem_filter.mpr ⟨hq, ?_⟩, hqp⟩)
        rw [hqp]
        exact decide_eq_true hst
    split
    · rename_i hnil
      refine Follows.pure ⟨⟨v.staged, v.told, rfl, hv⟩, hnodup, fun p hp hknown => ?_⟩
      exact (hneed p hp hknown).resolve_right (by rw [hnil]; exact List.not_mem_nil)
    · refine Tells.bind (tells_stagePass _) fun results v₁ hresults => ?_
      obtain ⟨hfst, staged₁, es, rfl, hstaged₁⟩ := hresults
      have hmem : ∀ h, h ∈ staged₁ ↔ h ∈ staged ++ (results.filter Prod.snd).map Prod.fst := by
        intro h
        rw [hstaged₁, hv, List.mem_append]
      have hnodup₁ : (staged ++ (results.filter Prod.snd).map Prod.fst).Nodup := by
        have hsub := (List.filter_sublist (p := Prod.snd) (l := results)).map Prod.fst
        rw [hfst] at hsub
        rw [List.nodup_append]
        refine ⟨hnodup, ?_, ?_⟩
        · exact ((nodup_partsToUpload v.listing known).sublist
            (List.filter_sublist.map _)).sublist hsub
        · rintro a ha b hb rfl
          obtain ⟨p, hp, rfl⟩ := List.mem_map.mp (hsub.subset hb)
          exact of_decide_eq_true (List.mem_filter.mp hp).2 ha
      split
      · rename_i hmissing
        refine Follows.pure ⟨⟨staged₁, es, rfl, hmem⟩, hnodup₁, fun p hp hknown => ?_⟩
        rcases hneed p hp hknown with hst | hst
        · exact List.mem_append_left _ hst
        · rw [← hfst] at hst
          obtain ⟨x, hx, hxp⟩ := List.mem_map.mp hst
          refine List.mem_append_right _ (List.mem_map.mpr ⟨x, List.mem_filter.mpr ⟨hx, ?_⟩, hxp⟩)
          by_contra hnot
          have hbad : x ∈ results.filter fun x => !x.2 :=
            List.mem_filter.mpr ⟨hx, by simpa using hnot⟩
          rw [hmissing] at hbad
          cases hbad
      · split
        · exact Follows.throw (honest_fine (not_checkError
            ⟨_, by simp only [String.toList_append]; rfl⟩ (by decide)))
        · rename_i hleft
          refine Tells.bind tells_queryParts fun parts v₂ hv₂ => ?_
          obtain ⟨es', rfl⟩ := hv₂
          refine (tells_stagePasses (v := { v with staged := staged₁, listing := parts, told := es' })
            hmem hnodup₁ (Nat.pos_of_ne_zero hleft)).mono fun x v' hx => ?_
          obtain ⟨⟨st, es'', rfl, hst⟩, hrest⟩ := hx
          exact ⟨⟨st, es'', rfl, hst⟩, hrest⟩

-- ---------------------------------------------------------------------------
-- Metadata
-- ---------------------------------------------------------------------------

/-- Metadata has been read for the list at hand. -/
def HasRead (v v' : Ledger) : Prop := ∃ es, v' = { v.settle with told := es }

/-- Metadata is being read, or about to be. -/
def Reading (v v' : Ledger) : Prop := (∃ es, v' = { v with told := es }) ∨ HasRead v v'

theorem Reading.settle {v v' : Ledger} (h : Reading v v') (es : List AnyError) :
    HasRead v { v'.settle with told := es } := by
  rcases h with ⟨es', rfl⟩ | ⟨es', rfl⟩
  · exact ⟨es, rfl⟩
  · exact ⟨es, rfl⟩

/-- The place of the DDL of a table, but for the inner table of a view. -/
def tablePaths (db table : String) : List String :=
  if startsWith table ".inner_id." then [] else [tableSql (db, table)]

/-- The places of the DDL of a database and its tables. -/
def ddlPaths (entry : String × List String) : List String :=
  dbSql entry.1 :: entry.2.flatMap (tablePaths entry.1)

/-- A piece that reads metadata, whether it fails or not. -/
def ReadsFiles {α : Type} (json : Json) (cfg : Config) (p : P α) (v : Ledger) (v₀ : Ledger)
    (Q : α → Ledger → Prop) : Prop :=
  Follows (ledgerWatch json cfg) LedgerRule p v₀ Q fun _ v' => HasRead v v'

variable {v₀ : Ledger}

theorem reads_readDdl {path place : String} (h : Reading v v₀) :
    ReadsFiles json cfg (readDdl path place) v v₀ fun f v' => f.path = place ∧ HasRead v v' := by
  refine Follows.bind (follows_askEnv trivial fun r => rfl)
    (R := fun r v' => v' = v₀.observe json cfg (.env (.readFile path)) r) fun r v' hv' => ?_
  subst hv'
  cases r with
  | ok content => exact Follows.pure ⟨rfl, h.settle _⟩
  | error e => exact Follows.throw (h.settle _)

theorem reads_collectTableFiles {dir db table : String} (h : Reading v v₀) :
    ReadsFiles json cfg (collectTableFiles dir db table) v v₀ fun fs v' =>
      fs.map ManifestFile.path = tablePaths db table ∧ Reading v v' := by
  unfold collectTableFiles tablePaths
  by_cases hinner : startsWith table ".inner_id." = true
  · rw [if_pos hinner, if_pos hinner]
    exact Follows.pure ⟨rfl, h⟩
  · rw [if_neg hinner, if_neg hinner]
    refine Follows.bind (reads_readDdl h) fun f v' hf => Follows.pure ⟨?_, .inr hf.2⟩
    rw [List.map_singleton, hf.1]
    rfl

theorem reads_collectDatabaseFiles {dir : String} {entry : String × List String}
    (h : Reading v v₀) : ReadsFiles json cfg (collectDatabaseFiles dir entry) v v₀ fun fs v' =>
      fs.map ManifestFile.path = ddlPaths entry ∧ Reading v v' := by
  refine Follows.bind (reads_readDdl h) fun f v₁ hf => ?_
  refine Follows.bind (follows_collect (fun pre fs v' => fs.flatten.map ManifestFile.path =
    pre.flatMap (tablePaths entry.1) ∧ Reading v v') ?_ ⟨rfl, .inr hf.2⟩) fun fs v₂ hfs => ?_
  · rintro pre fs table post v' - ⟨hpre, hread⟩
    refine Follows.mono (reads_collectTableFiles hread) (fun gs v'' hgs => ⟨?_, hgs.2⟩)
      fun _ _ h => h
    simp [hpre, hgs.1]
  · refine Follows.pure ⟨?_, hfs.2⟩
    rw [List.map_cons, hf.1, hfs.1]
    rfl

theorem reads_collectDirectoryFiles {dir pfx : String} (h : Reading v v₀) :
    ReadsFiles json cfg (collectDirectoryFiles dir pfx) v v₀ fun fs v' =>
      (∀ f ∈ fs, ∃ rel, f.path = pfx ++ "/" ++ rel) ∧ HasRead v v' := by
  refine Follows.bind (follows_askEnv trivial fun r => rfl)
    (R := fun r v' => v' = v₀.observe json cfg (.env (.walkFiles dir)) r) fun r v' hv' => ?_
  subst hv'
  refine Follows.bind (R := fun _ v' => HasRead v v') (follows_liftP (fun _ _ => h.settle _)
    fun _ _ => h.settle _) fun files v' hv' => Follows.pure ⟨?_, hv'⟩
  intro f hf
  obtain ⟨x, -, rfl⟩ := List.mem_map.mp hf
  exact ⟨x.1, rfl⟩

theorem mem_tableMapFromParts {parts : List PartInfo} {entry : String × List String}
    (h : entry ∈ tableMapFromParts parts) : (∃ p ∈ parts, p.database = entry.1) ∧
      ∀ t, t ∈ entry.2 ↔ ∃ p ∈ parts, p.database = entry.1 ∧ p.table = t := by
  unfold tableMapFromParts at h
  obtain ⟨db, hdb, rfl⟩ := List.mem_map.mp h
  rw [List.mem_insertionSort, List.mem_dedup] at hdb
  refine ⟨List.mem_map.mp hdb, fun t => ?_⟩
  rw [List.mem_insertionSort, List.mem_dedup, List.mem_map]
  simp [and_assoc]

theorem exists_tableMapFromParts {parts : List PartInfo} {p : PartInfo} (h : p ∈ parts) :
    ∃ entry ∈ tableMapFromParts parts, entry.1 = p.database := by
  refine ⟨_, List.mem_map.mpr ⟨p.database, ?_, rfl⟩, rfl⟩
  rw [List.mem_insertionSort, List.mem_dedup]
  exact List.mem_map_of_mem h

/-- The DDL files, and others that stand elsewhere. -/
theorem documented_of_paths {parts : List PartInfo} {files rest : List ManifestFile}
    (hpaths : files.map ManifestFile.path = (tableMapFromParts parts).flatMap ddlPaths)
    (hrest : ∀ f ∈ rest, startsWith f.path "metadata/" = false) :
    Documented parts (files ++ rest) := by
  have hmem : ∀ path, path ∈ files.map ManifestFile.path ↔
      ∃ p ∈ parts, path = dbSql p.database ∨
        startsWith p.table ".inner_id." = false ∧ path = tableSql (p.database, p.table) := by
    intro path
    rw [hpaths, List.mem_flatMap]
    constructor
    · rintro ⟨entry, hentry, hpath⟩
      obtain ⟨⟨p, hp, hdb⟩, htables⟩ := mem_tableMapFromParts hentry
      rcases List.mem_cons.mp hpath with rfl | hpath
      · exact ⟨p, hp, .inl (by rw [hdb])⟩
      · obtain ⟨t, ht, hpath⟩ := List.mem_flatMap.mp hpath
        obtain ⟨q, hq, hqdb, rfl⟩ := (htables t).mp ht
        unfold tablePaths at hpath
        split at hpath
        · cases hpath
        · rename_i hinner
          rw [← hqdb] at hpath
          exact ⟨q, hq, .inr ⟨Bool.eq_false_iff.mpr hinner, List.mem_singleton.mp hpath⟩⟩
    · rintro ⟨p, hp, hpath⟩
      obtain ⟨entry, hentry, hdb⟩ := exists_tableMapFromParts hp
      refine ⟨entry, hentry, ?_⟩
      rcases hpath with rfl | ⟨hinner, rfl⟩
      · rw [← hdb]
        exact List.mem_cons_self ..
      · refine List.mem_cons_of_mem _ (List.mem_flatMap.mpr ⟨p.table, ?_, ?_⟩)
        · exact ((mem_tableMapFromParts hentry).2 _).mpr ⟨p, hp, hdb.symm, rfl⟩
        · unfold tablePaths
          rw [hinner, hdb]
          exact List.mem_singleton.mpr rfl
  refine ⟨fun p hp => ?_, fun p hp hinner => ?_, fun f hf hstart => ?_⟩
  · rw [List.map_append, List.mem_append]
    exact .inl ((hmem _).mpr ⟨p, hp, .inl rfl⟩)
  · rw [List.map_append, List.mem_append]
    exact .inl ((hmem _).mpr ⟨p, hp, .inr ⟨hinner, rfl⟩⟩)
  · rcases List.mem_append.mp hf with hf | hf
    · exact (hmem _).mp (List.mem_map_of_mem hf)
    · rw [hrest f hf] at hstart
      cases hstart

theorem reads_collectMetadataFiles {parts : List PartInfo} :
    ReadsFiles json cfg (collectMetadataFiles cfg (tableMapFromParts parts)) v v fun files v' =>
      Documented parts files ∧ HasRead v v' := by
  refine Follows.bind (follows_collect (fun pre fs v' => fs.flatten.map ManifestFile.path =
    pre.flatMap ddlPaths ∧ Reading v v') ?_ ⟨rfl, .inl ⟨v.told, rfl⟩⟩) fun ddl v₁ hddl => ?_
  · rintro pre fs entry post v' - ⟨hpre, hread⟩
    refine Follows.mono (reads_collectDatabaseFiles hread) (fun gs v'' hgs => ⟨?_, hgs.2⟩)
      fun _ _ h => h
    simp [hpre, hgs.1]
  · refine Follows.bind (reads_collectDirectoryFiles hddl.2) fun functions v₂ hfunctions => ?_
    refine Follows.bind (reads_collectDirectoryFiles (.inr hfunctions.2)) fun scripts v₃ hscripts => ?_
    refine Follows.pure ⟨?_, hscripts.2⟩
    rw [List.append_assoc]
    refine documented_of_paths hddl.1 fun f hf => ?_
    rcases List.mem_append.mp hf with hf | hf
    · obtain ⟨rel, hrel⟩ := hfunctions.1 f hf
      rw [hrel, startsWith, String.toList_append, String.toList_append]
      rfl
    · obtain ⟨rel, hrel⟩ := hscripts.1 f hf
      rw [hrel, startsWith, String.toList_append, String.toList_append]
      rfl

/-- The metadata attempts end with the files of the list at hand. -/
theorem tells_metadataAttempts : ∀ {left : Nat} {v : Ledger},
    Tells json cfg (metadataAttempts json cfg left v.listing) v fun x v' =>
      (∃ es, v' = { v.settle with listing := x.2, told := es }) ∧ Documented x.2 x.1
  | 0, v => Follows.throw (honest_fine (not_checkError ⟨_, rfl⟩ (by decide)))
  | left + 1, v => by
    unfold metadataAttempts
    refine Tells.bind (R := fun r v' => HasRead v v' ∧ ∀ files, r = .ok files →
      Documented v.listing files) (Follows.attempt (Follows.mono reads_collectMetadataFiles
        (fun files v' h => ⟨h.2, ?_⟩) fun e v' h => ⟨h, by simp⟩)) fun r v' hr => ?_
    · rintro files' ⟨⟩
      exact h.1
    · obtain ⟨⟨es, rfl⟩, hfiles⟩ := hr
      cases r with
      | ok files => exact Follows.pure ⟨⟨es, rfl⟩, hfiles files rfl⟩
      | error e =>
        dsimp only
        split
        · exact Follows.throw (honest_fine (not_checkError ⟨_, rfl⟩ (by decide)))
        · refine Tells.bind tells_queryParts fun parts v₁ hv₁ => ?_
          obtain ⟨es', rfl⟩ := hv₁
          refine (tells_metadataAttempts (v := { v.settle with listing := parts, told := es' })).mono
            fun x v' hx => ?_
          obtain ⟨⟨es'', rfl⟩, hdoc⟩ := hx
          exact ⟨⟨es'', rfl⟩, hdoc⟩

end

end Chbk
