import Mathlib.Data.List.Count
import Chbk.Safety.Hashes
import Chbk.Safety.Replicas
import Chbk.Safety.Wrapping

/-!
# `gc-all` and the old orphans

A scan looks at a listed object by its key, and deletes the key it puts together
from the hash in it. The two keys differ where something stands behind the hash.
A hash is looked for among those the manifests refer to by its bytes, in
whatever case they are written.

* `parseUnreferencedBlob_iff` — the keys a hash is taken from.
* `ScanView` — what a run has been shown of the blobs, and what it has asked to
  delete.
* `Scanned` — the invariant of the scan: what is deleted, what is in the batch
  and what is still to be looked at are the orphans of the listings so far.
* `orphans_deleted_iff` — the deletes are those of the old orphans, each once,
  unless a listed key has one of these two forms.
-/

namespace Chbk

open Lib Prog

-- ---------------------------------------------------------------------------
-- The hash in a key
-- ---------------------------------------------------------------------------

theorem hexdigit_of_hexDigit {c : Char} {d : UInt8} (h : hexDigit c = some d) :
    isAsciiHexdigit c = true := by
  unfold hexDigit at h
  unfold isAsciiHexdigit
  split_ifs at h with h₁ h₂ h₃
  · have hdigit : c.isDigit = true := by
      simpa [Char.isDigit, Char.le_def] using h₁
    simp [hdigit]
  · simp [h₂.1, h₂.2]
  · simp [h₃.1, h₃.2]

theorem hexdigits_of_fromHexPairs : ∀ {l : List Char} {b : BlobHash}, fromHexPairs l = some b →
    ∀ c ∈ l, isAsciiHexdigit c = true
  | [], _, _ => by simp
  | [_], _, h => by cases h
  | hi :: lo :: cs, b, h => by
    unfold fromHexPairs at h
    obtain ⟨high, hhigh, h⟩ := Option.bind_eq_some_iff.mp h
    obtain ⟨low, hlow, h⟩ := Option.bind_eq_some_iff.mp h
    obtain ⟨rest, hrest, -⟩ := Option.bind_eq_some_iff.mp h
    intro c hc
    rcases List.mem_cons.mp hc with rfl | hc
    · exact hexdigit_of_hexDigit hhigh
    rcases List.mem_cons.mp hc with rfl | hc
    · exact hexdigit_of_hexDigit hlow
    · exact hexdigits_of_fromHexPairs hrest c hc

/-- What is decoded as a hash is one. -/
theorem isHex_of_fromHex {h : String} {b : BlobHash} (hb : fromHex h = some b) : IsHex h := by
  unfold fromHex at hb
  split_ifs at hb with hlen
  have hdigits := hexdigits_of_fromHexPairs hb
  refine ⟨?_, hdigits⟩
  rw [utf8_of_ascii fun c hc => toNat_lt_of_hexdigit (hdigits c hc), List.length_map] at hlen
  exact not_not.mp hlen

theorem utf8_blobShard {h : String} (hh : IsHex h) :
    utf8 ((blobShard h).getD "__") = (utf8 h).take 2 := by
  rw [shardOf_isHex hh, utf8_of_ascii fun c hc => toNat_lt_of_hexdigit (hh.digits c hc),
    utf8_of_ascii, String.toList_ofList, List.map_take]
  intro c hc
  rw [String.toList_ofList] at hc
  exact toNat_lt_of_hexdigit (hh.digits c (List.mem_of_mem_take hc))

/-- What may stand behind the hash in a key. -/
def Behind (key h : String) : Prop := ∃ rest, key = blobRemoteKey h ++ "/" ++ rest

/-- The keys a hash is taken from. -/
theorem parseUnreferencedBlob_iff {key h : String} {referenced : List BlobHash} :
    parseUnreferencedBlob key referenced = some h ↔
      (key = blobRemoteKey h ∨ Behind key h) ∧ ∃ b, fromHex h = some b ∧ b ∉ referenced := by
  have hcode : ∀ {shard hashStr : String},
      (if (utf8 shard).length ≠ 2 ∨ (utf8 hashStr).length ≠ 32 ∨
          (utf8 hashStr).take 2 ≠ utf8 shard then none
        else (fromHex hashStr).bind fun b => if b ∈ referenced then none else some hashStr) =
          some h ↔
        hashStr = h ∧ shard = (blobShard h).getD "__" ∧ ∃ b, fromHex h = some b ∧ b ∉ referenced := by
    intro shard hashStr
    constructor
    · intro hsome
      split_ifs at hsome with hbad
      obtain ⟨b, hb, hnot⟩ := Option.bind_eq_some_iff.mp hsome
      split_ifs at hnot with hmem
      obtain rfl := Option.some.inj hnot
      refine ⟨rfl, ?_, b, hb, hmem⟩
      apply utf8_injective
      rw [utf8_blobShard (isHex_of_fromHex hb)]
      by_contra hne
      exact hbad (.inr (.inr fun heq => hne heq.symm))
    · rintro ⟨rfl, rfl, b, hb, hnot⟩
      have hhex := isHex_of_fromHex hb
      have hkey := parseUnreferencedBlob_key hhex referenced
      unfold parseUnreferencedBlob at hkey
      rw [splitAt_blobRemoteKey hhex] at hkey
      refine hkey.trans ?_
      rw [hb, Option.bind_some, if_neg hnot]
  constructor
  · intro hsome
    unfold parseUnreferencedBlob at hsome
    split at hsome
    · rename_i shard hashStr tail hsplit
      obtain ⟨rfl, rfl, b, hb, hnot⟩ := hcode.mp hsome
      refine ⟨?_, b, hb, hnot⟩
      have hparts := splitAt_blobRemoteKey (isHex_of_fromHex hb)
      have hjoin : key = joinWith "/" (splitAt '/' (blobRemoteKey hashStr) ++ tail) := by
        rw [hparts, ← joinWith_splitAt key, hsplit]
        rfl
      cases tail with
      | nil =>
        left
        rw [hjoin, List.append_nil, joinWith_splitAt]
      | cons t ts =>
        right
        refine ⟨joinWith "/" (t :: ts), ?_⟩
        apply String.toList_injective
        rw [hjoin, hparts, String.toList_append, String.toList_append, toList_blobRemoteKey]
        simp [joinWith]
    · cases hsome
  · rintro ⟨hkey, b, hb, hnot⟩
    have hparts := splitAt_blobRemoteKey (isHex_of_fromHex hb)
    rcases hkey with rfl | ⟨rest, rfl⟩
    · unfold parseUnreferencedBlob
      rw [hparts]
      exact hcode.mpr ⟨rfl, rfl, b, hb, hnot⟩
    · unfold parseUnreferencedBlob
      rw [splitAt_append_slash, hparts]
      exact hcode.mpr ⟨rfl, rfl, b, hb, hnot⟩

theorem Behind.ne {key h : String} (hk : Behind key h) : key ≠ blobRemoteKey h := by
  obtain ⟨rest, rfl⟩ := hk
  intro heq
  have hlen := congrArg (fun s => s.toList.length) heq
  simp at hlen

-- ---------------------------------------------------------------------------
-- Old orphans
-- ---------------------------------------------------------------------------

/-- What a run has been shown of the blobs, and what it has asked to delete. -/
structure ScanView where
  listed : List ListEntry := []
  /-- A key that is asked for twice is in here twice. -/
  deleted : List String := []
  deriving DecidableEq, Repr

/-- The deletes of the lock object are left out. -/
def ScanView.observe (v : ScanView) : (op : Op) → Resp op → ScanView
  | .s3 (.listObjectsV2 pfx), .ok entries =>
    if startsWith pfx "base/data/blobs/" then { v with listed := v.listed ++ entries } else v
  | op, _ => { v with deleted := v.deleted ++ op.deletes.filter (· ≠ LOCK_KEY) }

def scanWatch : Watch Op Resp ScanView := ⟨{}, ScanView.observe⟩

/-- A manifest refers to the hash, in just these digits. -/
def World.Names (w : World) (h : String) : Prop :=
  ∃ name m, w.Holds name m ∧ h ∈ m.parts.map ManifestPart.blobHash

/-- A manifest refers to the hash, in digits of either case. -/
def World.RefersTo (w : World) (h : String) : Prop := ∃ h', w.Names h' ∧ fromHex h' = fromHex h

section

variable (referenced : String → Prop) (cutoff : Int)

/-- A listed blob that is not `referenced`, as old as the cutoff. -/
def OldOrphan (e : ListEntry) : Prop :=
  e.lastModified ≤ cutoff ∧ ∃ h, IsHex h ∧ e.key = blobRemoteKey h ∧ ¬ referenced h

/-- There is something behind the hash in the key, and all else is as for an old
orphan. -/
def Nested (e : ListEntry) : Prop :=
  e.lastModified ≤ cutoff ∧ ∃ h, IsHex h ∧ Behind e.key h ∧ ¬ referenced h

/-- An old orphan but for the case of its digits. -/
def Twin (named : String → Prop) (e : ListEntry) : Prop :=
  e.lastModified ≤ cutoff ∧ ∃ h, IsHex h ∧ e.key = blobRemoteKey h ∧ ¬ named h ∧ referenced h

/-- One delete for each old orphan that was listed, and none of anything else. -/
def DeletesOldOrphans (v : ScanView) : Prop :=
  (∀ e ∈ v.listed, OldOrphan referenced cutoff e → v.deleted.count e.key = 1) ∧
    ∀ key ∈ v.deleted, ∃ e ∈ v.listed, OldOrphan referenced cutoff e ∧ e.key = key

end

section

variable {named referenced : String → Prop} {cutoff : Int} {bytes : List BlobHash}

/-- The references as the scan has them. -/
def Decodes (referenced : String → Prop) (bytes : List BlobHash) : Prop :=
  ∀ h b, fromHex h = some b → (referenced h ↔ b ∈ bytes)

theorem orphanOf_eq_some (hbytes : Decodes referenced bytes) {e : ListEntry} {h : String} :
    orphanOf bytes cutoff e = some h ↔ e.lastModified ≤ cutoff ∧
      (e.key = blobRemoteKey h ∨ Behind e.key h) ∧ IsHex h ∧ ¬ referenced h := by
  have hrest : (∃ b, fromHex h = some b ∧ b ∉ bytes) ↔ IsHex h ∧ ¬ referenced h := by
    constructor
    · rintro ⟨b, hb, hnot⟩
      exact ⟨isHex_of_fromHex hb, fun href => hnot ((hbytes h b hb).mp href)⟩
    · rintro ⟨hhex, hnot⟩
      obtain ⟨b, hb, -⟩ := fromHex_of_isHex hhex
      exact ⟨b, hb, fun hmem => hnot ((hbytes h b hb).mpr hmem)⟩
  unfold orphanOf
  by_cases hage : e.lastModified > cutoff
  · rw [if_pos hage]
    constructor
    · intro hnone
      cases hnone
    · intro hold
      exact absurd hage (not_lt.mpr hold.1)
  · rw [if_neg hage, parseUnreferencedBlob_iff, hrest]
    exact ⟨fun hkey => ⟨not_lt.mp hage, hkey⟩, fun hkey => hkey.2⟩

/-- The keys the scan makes of listed objects. -/
def orphanKeys (bytes : List BlobHash) (cutoff : Int) (listed : List ListEntry) : List String :=
  (listed.filterMap (orphanOf bytes cutoff)).map blobRemoteKey

theorem count_orphanKeys (listed : List ListEntry) (key : String) :
    (orphanKeys bytes cutoff listed).count key =
      listed.countP fun e => (orphanOf bytes cutoff e).map blobRemoteKey == some key := by
  unfold orphanKeys
  induction listed with
  | nil => rfl
  | cons e es ih =>
    rw [List.filterMap_cons, List.countP_cons]
    cases horphan : orphanOf bytes cutoff e with
    | none => simpa using ih
    | some h =>
      rw [List.map_cons, List.count_cons, ih]
      simp

theorem mem_orphanKeys {listed : List ListEntry} {key : String} :
    key ∈ orphanKeys bytes cutoff listed ↔
      ∃ e ∈ listed, ∃ h, orphanOf bytes cutoff e = some h ∧ blobRemoteKey h = key := by
  unfold orphanKeys
  rw [List.mem_map]
  constructor
  · rintro ⟨h, hh, hkey⟩
    obtain ⟨e, he, horphan⟩ := List.mem_filterMap.mp hh
    exact ⟨e, he, h, horphan, hkey⟩
  · rintro ⟨e, he, h, horphan, hkey⟩
    exact ⟨h, List.mem_filterMap.mpr ⟨e, he, horphan⟩, hkey⟩

/-- Two members are counted as two. -/
theorem two_le_countP {α : Type} {p : α → Bool} {l : List α} {a b : α} (ha : a ∈ l) (hb : b ∈ l)
    (hne : a ≠ b) (hpa : p a = true) (hpb : p b = true) : 2 ≤ l.countP p := by
  have hsub : [a, b].Subperm l := List.subperm_of_subset (by simpa using hne) (by simp [ha, hb])
  have hle := hsub.countP_le p
  simpa [hpa, hpb] using hle

/-- The keys the scan makes are those of the old orphans, unless a listed key is
nested or a twin. -/
theorem deletesOldOrphans_iff (hbytes : Decodes referenced bytes)
    (hnamed : ∀ h, named h → referenced h) {v : ScanView}
    (hkeys : (v.listed.map ListEntry.key).Nodup)
    (hdeleted : v.deleted.Perm (orphanKeys bytes cutoff v.listed)) :
    DeletesOldOrphans named cutoff v ↔
      ∀ e ∈ v.listed, ¬ Nested referenced cutoff e ∧ ¬ Twin referenced cutoff named e := by
  have hmem : ∀ {key}, key ∈ v.deleted ↔
      ∃ e ∈ v.listed, ∃ h, orphanOf bytes cutoff e = some h ∧ blobRemoteKey h = key :=
    fun {key} => hdeleted.mem_iff.trans mem_orphanKeys
  constructor
  · rintro ⟨honce, honly⟩ e he
    constructor
    · -- the key without its end is asked for, for another listed object as well
      rintro ⟨hold, h, hhex, hbehind, hnot⟩
      have horphan := (orphanOf_eq_some hbytes).mpr ⟨hold, .inr hbehind, hhex, hnot⟩
      obtain ⟨e', he', horphan', hkey'⟩ := honly _ (hmem.mpr ⟨e, he, h, horphan, rfl⟩)
      have hone := honce e' he' horphan'
      obtain ⟨hold', h', hhex', heq, hnot'⟩ := horphan'
      obtain rfl := blobRemoteKey_inj (heq.symm.trans hkey')
      have hself := (orphanOf_eq_some hbytes).mpr ⟨hold', .inl heq, hhex', hnot⟩
      have hne : e ≠ e' := by
        rintro rfl
        exact hbehind.ne heq
      have htwo := two_le_countP (p := fun e => (orphanOf bytes cutoff e).map blobRemoteKey ==
        some e'.key) he he' hne (by simp [horphan, heq]) (by simp [hself, heq])
      rw [hdeleted.count_eq, count_orphanKeys] at hone
      omega
    · -- a twin is not asked for
      rintro ⟨hold, h, hhex, heq, hnot, href⟩
      have hone := honce e he ⟨hold, h, hhex, heq, hnot⟩
      have hin : e.key ∈ v.deleted := List.count_pos_iff.mp (by omega)
      obtain ⟨e', -, h', horphan, hkey⟩ := hmem.mp hin
      obtain rfl := blobRemoteKey_inj (hkey.trans heq)
      exact ((orphanOf_eq_some hbytes).mp horphan).2.2.2 href
  · intro hall
    -- each key is made of the object it is the key of
    have hself : ∀ e ∈ v.listed, ∀ h, orphanOf bytes cutoff e = some h →
        e.key = blobRemoteKey h ∧ OldOrphan named cutoff e := by
      intro e he h horphan
      obtain ⟨hold, hkey, hhex, hnot⟩ := (orphanOf_eq_some hbytes).mp horphan
      have heq := hkey.resolve_right fun hbehind => (hall e he).1 ⟨hold, h, hhex, hbehind, hnot⟩
      exact ⟨heq, hold, h, hhex, heq, fun hname => hnot (hnamed h hname)⟩
    constructor
    · intro e he horphan
      obtain ⟨hold, h, hhex, heq, hname⟩ := horphan
      have hnot : ¬ referenced h := fun href => (hall e he).2 ⟨hold, h, hhex, heq, hname, href⟩
      have hsome := (orphanOf_eq_some hbytes).mpr ⟨hold, .inl heq, hhex, hnot⟩
      rw [hdeleted.count_eq, count_orphanKeys]
      have hcongr : ∀ e' ∈ v.listed,
          (((orphanOf bytes cutoff e').map blobRemoteKey == some e.key) = true ↔
            (e' == e) = true) := by
        intro e' he'
        rw [beq_iff_eq, beq_iff_eq]
        constructor
        · intro hmade
          obtain ⟨h', horphan', hkey'⟩ := Option.map_eq_some_iff.mp hmade
          exact List.inj_on_of_nodup_map hkeys he' he ((hself e' he' h' horphan').1.trans hkey')
        · rintro rfl
          rw [hsome, Option.map_some, heq]
      rw [List.countP_congr hcongr]
      exact List.count_eq_one_of_mem hkeys.of_map he
    · intro key hkey
      obtain ⟨e, he, h, horphan, rfl⟩ := hmem.mp hkey
      obtain ⟨heq, hold⟩ := hself e he h horphan
      exact ⟨e, he, hold, heq⟩

end

-- ---------------------------------------------------------------------------
-- The scan
-- ---------------------------------------------------------------------------

/-- The requests for bulk deletes succeed. -/
def DeletesSucceed : (op : Op) → Resp op → Prop
  | .s3 (.deleteObjects _), r => ∃ errs, r = .ok errs
  | _, _ => True

/-- As S3 and the surroundings may answer, but for failing bulk deletes. -/
def ScanAnswers (op : Op) (w : World) (r : Resp op) (w' : World) : Prop :=
  Answers op w r w' ∧ DeletesSucceed op r

/-- Calls that are no listing of blobs, and delete nothing but the lock. -/
def Unseen : Op → Prop
  | .s3 (.listObjectsV2 pfx) => startsWith pfx "base/data/blobs/" = false
  | op => ∀ key ∈ op.deletes, key = LOCK_KEY

theorem Unseen.observe {op : Op} (h : Unseen op) (v : ScanView) (r : Resp op) :
    v.observe op r = v := by
  have hdeleted : (∀ key ∈ op.deletes, key = LOCK_KEY) →
      { v with deleted := v.deleted ++ op.deletes.filter (· ≠ LOCK_KEY) } = v := by
    intro hlock
    have hnil : op.deletes.filter (· ≠ LOCK_KEY) = [] :=
      List.filter_eq_nil_iff.mpr fun key hkey => by simpa using hlock key hkey
    rw [hnil, List.append_nil]
  cases op with
  | env o => exact hdeleted (by simp [Op.deletes])
  | s3 o =>
    cases o with
    | listObjectsV2 pfx =>
      have hpfx : startsWith pfx "base/data/blobs/" = false := h
      cases r with
      | error e => exact hdeleted (by simp [Op.deletes, S3Op.deletes])
      | ok entries =>
        show (if startsWith pfx "base/data/blobs/" then _ else v) = v
        rw [hpfx]
        rfl
    | _ => exact hdeleted h

theorem AboutLock.unseen {op : Op} (h : AboutLock op) : Unseen op := by
  match op, h with
  | .env _, _ => simp [Unseen, Op.deletes]
  | .s3 (.getObject _), _ => simp [Unseen, Op.deletes, S3Op.deletes]
  | .s3 (.putObject ..), _ => simp [Unseen, Op.deletes, S3Op.deletes]
  | .s3 (.deleteObject key), h =>
    have hkey : key = LOCK_KEY := h
    simpa [Unseen, Op.deletes, S3Op.deletes] using hkey

/-- The bucket, and what the run has seen of it. -/
abbrev Scanning : Type := World × ScanView

/-- From a state of the bucket and the view on, under these answers. -/
def Scans {α : Type} (p : P α) (x : Scanning) (Q : α → Scanning → Prop) : Prop :=
  Ensures (scanWatch.answers ScanAnswers) (fun _ => True) p x Q fun _ _ => True

section

variable {α β : Type} {x : Scanning} {bytes : List BlobHash} {cutoff : Int}

theorem Scans.bind {p : P α} {f : α → P β} {R : α → Scanning → Prop} {Q : β → Scanning → Prop}
    (h : Scans p x R) (hf : ∀ a x', R a x' → Scans (f a) x' Q) : Scans (p >>= f) x Q :=
  Ensures.bind h hf

theorem Scans.pure {a : α} {Q : α → Scanning → Prop} (h : Q a x) :
    Scans (Pure.pure a) x Q := h

theorem Scans.mono {p : P α} {Q Q' : α → Scanning → Prop} (h : Scans p x Q)
    (hQ : ∀ a x', Q a x' → Q' a x') : Scans p x Q' :=
  Ensures.mono h (fun _ h => h) hQ fun _ _ h => h

/-- What is known of a program from the bucket alone. -/
theorem Scans.of_ensures {p : P α} {Q : α → World → Prop} {E : AnyError → World → Prop}
    (h : Ensures Answers (fun _ => True) p x.1 Q E) (hp : Only Unseen p) :
    Scans p x fun a x' => Q a x'.1 ∧ x'.2 = x.2 :=
  Ensures.mono (Ensures.watched (M := scanWatch) (h.restrict fun _ _ _ _ hans => hans.1) hp
    fun v _ r ho => ho.observe v r) (fun _ h => h) (fun _ _ h => h) fun _ _ _ => trivial

theorem scans_unseen {p : P α} (hp : Only Unseen p) : Scans p x fun _ x' => x'.2 = x.2 :=
  Ensures.mono (hp.ensures (I := fun x' => x'.2 = x.2)
    (fun _ x₁ r _ ho hI hans => hans.2.trans ((ho.observe x₁.2 r).trans hI)) rfl)
    (fun _ _ => trivial) (fun _ _ h => h) fun _ _ _ => trivial

theorem unseen_env (o : EnvOp) : Only Unseen (askEnv o) :=
  only_ask fun key hkey => by simp [Op.deletes] at hkey

theorem scans_bailIfLockLost : Scans bailIfLockLost x fun _ x' => x'.2 = x.2 :=
  scans_unseen (aside_bailIfLockLost.mono fun op h => by
    match op, h with
    | .env _, _ => simp [Unseen, Op.deletes])

/-- Deletes of these keys have been asked for, each once. -/
structure Asked (v : ScanView) (keys : List String) (v' : ScanView) : Prop where
  listed : v'.listed = v.listed
  deleted : v'.deleted.Perm (v.deleted ++ keys)

theorem Asked.nil (v : ScanView) : Asked v [] v := ⟨rfl, by rw [List.append_nil]⟩

theorem Asked.append {v v' v'' : ScanView} {keys keys' : List String} (h : Asked v keys v')
    (h' : Asked v' keys' v'') : Asked v (keys ++ keys') v'' := by
  refine ⟨h'.listed.trans h.listed, h'.deleted.trans ?_⟩
  rw [← List.append_assoc]
  exact h.deleted.append_right keys'

/-- A batch is requested once, since the request succeeds. -/
theorem scans_deleteBatch {batch : List String} (hlock : LOCK_KEY ∉ batch) :
    Scans (deleteBatch batch) x fun _ x' => Asked x.2 batch x'.2 := by
  unfold deleteBatch
  split
  · rename_i hnil
    rw [hnil]
    exact Scans.pure (Asked.nil x.2)
  have honce : Scans (deleteBatchOnce batch) x
      fun r x' => (∃ errs, r = .ok errs) ∧ Asked x.2 batch x'.2 := by
    refine Scans.bind (R := fun r x' => (∃ errs, r = Except.ok errs) ∧ Asked x.2 batch x'.2)
      (Ensures.ask trivial fun r x' hans => ?_) ?_
    · refine ⟨hans.1.2, ?_⟩
      have hview : x'.2 = { x.2 with deleted := x.2.deleted ++ batch.filter (· ≠ LOCK_KEY) } :=
        hans.2
      have hall : batch.filter (· ≠ LOCK_KEY) = batch := by
        refine List.filter_eq_self.mpr fun key hkey => ?_
        have hne : key ≠ LOCK_KEY := fun heq => hlock (heq ▸ hkey)
        simpa using hne
      rw [hview, hall]
      exact ⟨rfl, List.Perm.refl _⟩
    · rintro r x' ⟨⟨errs, rfl⟩, hasked⟩
      exact Scans.pure ⟨⟨errs, rfl⟩, hasked⟩
  have hsend : Scans (withRetry ⟨5, by decide⟩ fun _ => deleteBatchOnce batch) x
      fun r x' => (∃ errs, r = .ok errs) ∧ Asked x.2 batch x'.2 := by
    show Scans (withRetryFrom (fun _ => deleteBatchOnce batch) 4 1) x _
    unfold withRetryFrom
    refine Scans.bind honce ?_
    rintro r x' ⟨⟨errs, rfl⟩, hasked⟩
    exact Scans.pure ⟨⟨errs, rfl⟩, hasked⟩
  refine Scans.bind hsend ?_
  rintro r x' ⟨⟨errs, rfl⟩, hasked⟩
  exact Scans.pure hasked

theorem scans_deleteObjectsBulk {keys : List String} (hlock : LOCK_KEY ∉ keys) :
    Scans (deleteObjectsBulk keys) x fun _ x' => Asked x.2 keys x'.2 := by
  unfold deleteObjectsBulk
  split
  · rename_i hnil
    rw [hnil]
    exact Scans.pure (Asked.nil x.2)
  refine Scans.bind (scans_unseen (unseen_env .order)) fun order x₁ hx₁ => ?_
  rw [← hx₁]
  have hperm := reorder_perm order (batchKeysByShard keys 1000)
  refine Scans.bind (ensures_collect (fun pre _ (x' : Scanning) => Asked x₁.2 pre.flatten x'.2) ?_
    (Asked.nil x₁.2)) fun stats x₂ hx₂ => Scans.pure ?_
  · intro pre _ batch post x' hsplit hpre
    have hbatch : batch ∈ batchKeysByShard keys 1000 :=
      hperm.mem_iff.mp (hsplit ▸ List.mem_append_right _ (List.mem_cons_self ..))
    have hno : LOCK_KEY ∉ batch := fun hin => hlock (mem_batchKeysByShard (by decide) hbatch hin)
    refine Scans.mono (scans_deleteBatch hno) fun _ x'' hx'' => ?_
    rw [List.flatten_append, List.flatten_singleton]
    exact hpre.append hx''
  · refine ⟨hx₂.listed, hx₂.deleted.trans ?_⟩
    exact (hperm.flatten.trans (perm_batchKeysByShard keys (by decide))).append_left _

theorem scans_deleteOrReportBatch (batch : List String) :
    Scans (deleteOrReportBatch batch false) x fun _ x' =>
      Asked x.2 (batch.map blobRemoteKey) x'.2 := by
  refine Scans.bind (scans_deleteObjectsBulk fun hin => ?_) fun _ x' hx' => Scans.pure hx'
  obtain ⟨h, -, heq⟩ := List.mem_map.mp hin
  exact blobRemoteKey_ne_lock h heq

/-- The scan, with these shards listed or passed over: what has been asked for,
what is in the batch and what is still to be looked at make up the orphans of the
listings. -/
structure Scanned (bytes : List BlobHash) (cutoff : Int) (shards : List Nat) (scan : Scan)
    (v : ScanView) : Prop where
  nodup : (v.listed.map ListEntry.key).Nodup
  sharded : ∀ e ∈ v.listed, ∃ shard ∈ shards, startsWith e.key (shardPrefix shard) = true
  orphans : (v.deleted ++ (scan.batch.map blobRemoteKey ++
    orphanKeys bytes cutoff scan.pending)).Perm (orphanKeys bytes cutoff v.listed)

theorem orphanKeys_append (es es' : List ListEntry) :
    orphanKeys bytes cutoff (es ++ es') =
      orphanKeys bytes cutoff es ++ orphanKeys bytes cutoff es' := by
  unfold orphanKeys
  rw [List.filterMap_append, List.map_append]

/-- One orphan goes from the stream to the batch, or is deleted with it. -/
theorem scans_pushOrphan (batch : List String) (hash : String) :
    Scans (pushOrphan false batch hash) x fun batch' x' =>
      ∃ keys, Asked x.2 keys x'.2 ∧
        (keys ++ batch'.map blobRemoteKey).Perm ((batch ++ [hash]).map blobRemoteKey) := by
  unfold pushOrphan
  dsimp only
  split
  · refine Scans.bind scans_bailIfLockLost fun _ x₁ hx₁ => ?_
    rw [← hx₁]
    refine Scans.bind (scans_deleteOrReportBatch _) fun _ x₂ hx₂ => Scans.pure ?_
    exact ⟨_, hx₂, by simp⟩
  · exact Scans.pure ⟨[], Asked.nil x.2, by simp⟩

theorem scans_consumePending {shards : List Nat} {scan : Scan} (n : Nat)
    (h : Scanned bytes cutoff shards scan x.2) :
    Scans (consumePending bytes cutoff false n scan) x fun scan' x' =>
      Scanned bytes cutoff shards scan' x'.2 ∧ scan'.pending = scan.pending.drop n := by
  refine Scans.bind (ensures_foldl (fun pre batch (x' : Scanning) => ∃ keys,
    Asked x.2 keys x'.2 ∧
      (keys ++ batch.map blobRemoteKey).Perm ((scan.batch ++ pre).map blobRemoteKey)) ?_
    ⟨[], Asked.nil x.2, by simp⟩) ?_
  · rintro pre hash post batch x' - ⟨keys, hasked, hperm⟩
    refine Scans.mono (scans_pushOrphan batch hash) ?_
    rintro batch' x'' ⟨keys', hasked', hperm'⟩
    refine ⟨keys ++ keys', hasked.append hasked', ?_⟩
    rw [List.append_assoc]
    refine (hperm'.append_left keys).trans ?_
    rw [List.map_append, ← List.append_assoc, ← List.append_assoc, List.map_append]
    exact hperm.append_right _
  · rintro batch x' ⟨keys, hasked, hperm⟩
    refine Scans.pure ⟨⟨?_, ?_, ?_⟩, rfl⟩
    · rw [hasked.listed]
      exact h.nodup
    · rw [hasked.listed]
      exact h.sharded
    · -- what was taken off the stream is in the batch, or has been asked for
      rw [hasked.listed]
      refine List.Perm.trans ?_ h.orphans
      have hsplit : orphanKeys bytes cutoff scan.pending =
          ((scan.pending.take n).filterMap (orphanOf bytes cutoff)).map blobRemoteKey ++
            orphanKeys bytes cutoff (scan.pending.drop n) := by
        rw [← orphanKeys, ← orphanKeys_append, List.take_append_drop]
      rw [hsplit]
      refine (hasked.deleted.append_right _).trans ?_
      rw [List.append_assoc]
      refine List.Perm.append_left _ ?_
      rw [← List.append_assoc, ← List.append_assoc, ← List.map_append]
      exact hperm.append_right _

theorem startsWith_shardPrefix (shard : Nat) :
    startsWith (shardPrefix shard) "base/data/blobs/" = true := by
  refine List.isPrefixOf_iff_prefix.mpr ?_
  unfold shardPrefix
  rw [String.toList_append, String.toList_append, List.append_assoc]
  exact List.prefix_append _ _

/-- A key lies under one shard at most. -/
theorem shard_unique {key : String} {s t : Nat} (hs : s < 256) (ht : t < 256)
    (hks : startsWith key (shardPrefix s) = true) (hkt : startsWith key (shardPrefix t) = true) :
    s = t := by
  obtain ⟨rest, hrest⟩ := List.isPrefixOf_iff_prefix.mp hks
  obtain ⟨rest', hrest'⟩ := List.isPrefixOf_iff_prefix.mp hkt
  have heq := hrest.trans hrest'.symm
  unfold shardPrefix at heq
  simp only [String.toList_append, List.append_assoc, List.append_right_inj,
    toList_formatHex] at heq
  have hdigits := (List.append_inj heq
    ((length_hexDigits 2 s).trans (length_hexDigits 2 t).symm)).1
  exact formatHex_inj (w := 2) hs ht (congrArg String.ofList hdigits)

/-- The listing of a shard, if it does not fail, is added to those before. -/
theorem scans_listShard (shard : Nat) :
    Scans (Prog.attempt (listObjects (shardPrefix shard))) x fun r x' =>
      (∀ entries, r = .ok entries → x'.2 = { x.2 with listed := x.2.listed ++ entries } ∧
        (entries.map ListEntry.key).Nodup ∧
          ∀ e ∈ entries, startsWith e.key (shardPrefix shard) = true) ∧
      ∀ e, r = .error e → x'.2 = x.2 := by
  refine Ensures.attempt (Ensures.bind (R := fun r (x' : Scanning) =>
    (∀ entries, r = Except.ok entries → x'.2 = { x.2 with listed := x.2.listed ++ entries } ∧
      (entries.map ListEntry.key).Nodup ∧
        ∀ e ∈ entries, startsWith e.key (shardPrefix shard) = true) ∧
      ∀ e, r = Except.error e → x'.2 = x.2) (Ensures.ask trivial fun r x' hans => ?_) ?_)
  · obtain ⟨⟨hans, -⟩, hview⟩ := hans
    constructor
    · rintro entries rfl
      obtain ⟨-, rfl⟩ := entries_of_listObjectsV2 hans
      refine ⟨?_, nodup_listing _, fun e he => (mem_listing.mp he).1⟩
      rw [hview]
      show (if startsWith (shardPrefix shard) "base/data/blobs/" then _ else _) = _
      rw [startsWith_shardPrefix]
      rfl
    · rintro e rfl
      rw [hview]
      show ({ x.2 with deleted := x.2.deleted ++ [] } : ScanView) = x.2
      rw [List.append_nil]
  · rintro r x' ⟨hok, herr⟩
    cases r with
    | ok entries =>
      refine ⟨?_, by simp⟩
      rintro _ ⟨⟩
      exact hok entries rfl
    | error e => exact Ensures.throw ⟨by simp, fun _ _ => herr e rfl⟩

theorem scans_scanShard {shards : List Nat} {shard : Nat} {scan : Scan} (hshard : shard < 256)
    (hshards : ∀ s ∈ shards, s < 256) (hnew : shard ∉ shards)
    (h : Scanned bytes cutoff shards scan x.2) :
    Scans (scanShard bytes cutoff false scan shard) x fun scan' x' =>
      Scanned bytes cutoff (shards ++ [shard]) scan' x'.2 := by
  refine Scans.bind (scans_unseen (unseen_env .ahead)) fun n x₁ hx₁ => ?_
  rw [← hx₁] at h
  refine Scans.bind (scans_consumePending n h) ?_
  rintro scan' x₂ ⟨h₂, -⟩
  refine Scans.bind (scans_listShard shard) fun r x₃ hr => ?_
  cases r with
  | error e =>
    refine Scans.pure ?_
    rw [hr.2 e rfl]
    exact ⟨h₂.nodup, fun e' he' => (h₂.sharded e' he').imp fun s hs =>
      ⟨List.mem_append_left _ hs.1, hs.2⟩, h₂.orphans⟩
  | ok entries =>
    obtain ⟨hview, hnodup, hunder⟩ := hr.1 entries rfl
    refine Scans.pure ⟨?_, ?_, ?_⟩
    · -- a key of this shard is not of another one
      rw [hview, List.map_append, List.nodup_append]
      refine ⟨h₂.nodup, hnodup, ?_⟩
      intro key hkey key' hkey' heq
      obtain ⟨e, he, rfl⟩ := List.mem_map.mp hkey
      obtain ⟨e', he', rfl⟩ := List.mem_map.mp hkey'
      obtain ⟨s, hs, hsk⟩ := h₂.sharded e he
      rw [heq] at hsk
      exact hnew (shard_unique (hshards s hs) hshard hsk (hunder e' he') ▸ hs)
    · rw [hview]
      intro e he
      rcases List.mem_append.mp he with he | he
      · obtain ⟨s, hs, hsk⟩ := h₂.sharded e he
        exact ⟨s, List.mem_append_left _ hs, hsk⟩
      · exact ⟨shard, List.mem_append_right _ (List.mem_singleton_self _), hunder e he⟩
    · rw [hview]
      show (x₂.2.deleted ++ (scan'.batch.map blobRemoteKey ++
        orphanKeys bytes cutoff (scan'.pending ++ entries))).Perm
          (orphanKeys bytes cutoff (x₂.2.listed ++ entries))
      rw [orphanKeys_append, orphanKeys_append, ← List.append_assoc, ← List.append_assoc,
        List.append_assoc x₂.2.deleted]
      exact h₂.orphans.append_right _

/-- What a scan that has ended has deleted. -/
structure ScanDone (bytes : List BlobHash) (cutoff : Int) (v : ScanView) : Prop where
  nodup : (v.listed.map ListEntry.key).Nodup
  deleted : v.deleted.Perm (orphanKeys bytes cutoff v.listed)

theorem scans_remoteScanAndDelete (hours : UInt64) (hstart : x.2 = {}) :
    Scans (remoteScanAndDelete bytes false hours) x fun _ x' =>
      ScanDone bytes (x.1.now - graceSecs hours) x'.2 := by
  have hcut : Only Unseen (graceCutoff hours) := by
    refine Only.bind (unseen_env .utcNow) fun now => ?_
    dsimp only
    split
    · exact Only.bind (unseen_env _) fun r => r.elim
    · split
      · exact Only.bind (unseen_env _) fun r => r.elim
      · exact only_pure _
  refine Scans.bind (Scans.of_ensures (ensures_graceCutoff hours x.1) hcut) ?_
  rintro cutoff x₁ ⟨⟨-, rfl, -⟩, hx₁⟩
  refine Scans.bind (scans_unseen (unseen_env .order)) fun order x₂ hx₂ => ?_
  have hempty : x₂.2 = {} := hx₂.trans (hx₁.trans hstart)
  have hperm := reorder_perm order (List.range 256)
  have hnodup : (reorder order (List.range 256)).Nodup := hperm.nodup_iff.mpr List.nodup_range
  refine Scans.bind (ensures_foldl (fun pre scan (x' : Scanning) =>
    Scanned bytes (x.1.now - graceSecs hours) pre scan x'.2) ?_ ?_) fun scan x₃ h₃ => ?_
  · intro pre shard post scan x' hsplit hI
    have hlt : ∀ s ∈ pre ++ shard :: post, s < 256 := by
      intro s hs
      exact List.mem_range.mp (hperm.mem_iff.mp (hsplit ▸ hs))
    rw [hsplit, List.nodup_append] at hnodup
    refine scans_scanShard (hlt shard (by simp)) (fun s hs => hlt s (List.mem_append_left _ hs)) ?_ hI
    intro hin
    exact hnodup.2.2 shard hin shard (List.mem_cons_self ..) rfl
  · rw [hempty]
    exact ⟨List.nodup_nil, by simp, List.Perm.refl _⟩
  refine Scans.bind (scans_consumePending scan.pending.length h₃) ?_
  rintro scan' x₄ ⟨h₄, hpending⟩
  rw [List.drop_length] at hpending
  have horphans := h₄.orphans
  rw [hpending] at horphans
  split
  · refine Scans.bind scans_bailIfLockLost fun _ x₅ hx₅ => ?_
    rw [← hx₅] at h₄ horphans
    refine Scans.mono (scans_deleteOrReportBatch _) fun _ x₆ hx₆ => ⟨?_, ?_⟩
    · rw [hx₆.listed]
      exact h₄.nodup
    · rw [hx₆.listed]
      exact hx₆.deleted.trans (by simpa [orphanKeys] using horphans)
  · rename_i hnil
    refine Scans.pure ⟨h₄.nodup, ?_⟩
    simpa [orphanKeys, not_not.mp hnil] using horphans

end

-- ---------------------------------------------------------------------------
-- The command
-- ---------------------------------------------------------------------------

theorem decodes_unionHashes {w : World} {ms : List Manifest} (hms : ReadOf w ms) :
    Decodes w.RefersTo ((unionHashes ms).filterMap fromHex) := by
  intro h b hb
  have hnames : ∀ h', h' ∈ unionHashes ms ↔ w.Names h' := by
    intro h'
    unfold unionHashes
    rw [List.mem_dedup, List.mem_flatMap]
    constructor
    · rintro ⟨m, hm, hin⟩
      obtain ⟨m₀, hm₀, heq⟩ := (hms.mem_iff m).mp hm
      refine ⟨m.name, m₀, hm₀, ?_⟩
      rw [heq] at hin
      exact hin
    · rintro ⟨name, m₀, hm₀, hin⟩
      exact ⟨{ m₀ with name }, (hms.mem_iff _).mpr ⟨m₀, hm₀, rfl⟩, hin⟩
  rw [List.mem_filterMap]
  constructor
  · rintro ⟨h', hname, heq⟩
    exact ⟨h', (hnames h').mpr hname, heq.trans hb⟩
  · rintro ⟨h', hin, heq⟩
    exact ⟨h', (hnames h').mp hin, heq.trans hb.symm⟩

theorem SameButLock.names {w w' : World} (h : SameButLock w w') {hash : String} :
    w'.Names hash ↔ w.Names hash := by
  unfold World.Names
  simp only [h.holds]

/-- The end of a run: the scan was over the references of the bucket at its start. -/
def Swept (w : World) (cutoff : Int) (v : ScanView) : Prop :=
  ∃ bytes, Decodes w.RefersTo bytes ∧ ScanDone bytes cutoff v

/-- The lock is all that has changed before the scan. -/
structure BeforeScan (w : World) (x : Scanning) : Prop where
  same : SameButLock w x.1
  now : x.1.now = w.now
  view : x.2 = {}

theorem scans_gcAllBlobs (hours : UInt64) (w : World) :
    Scans (gcAllBlobs false hours) (w, {}) fun _ x' =>
      Swept w (w.now - graceSecs hours) x'.2 := by
  have hview : ∀ op (x : Scanning) r (x' : Scanning), AboutLock op →
      scanWatch.answers ScanAnswers op x r x' → x'.2 = x.2 :=
    fun op x r x' ho hans => hans.2.trans (ho.unseen.observe x.2 r)
  refine Ensures.mono (ensures_withGcLock (I := BeforeScan w) (J := fun _ => True)
    (R := fun r x' => r = .ok () → Swept w (w.now - graceSecs hours) x'.2)
    ?_ ?_ ?_ (fun _ _ => trivial) (fun _ _ _ => trivial) ?_ ?_ (fun x₁ hx₁ => ?_) ?_)
    (fun _ h => h) (fun _ _ h => h rfl) fun _ _ _ => trivial
  · rintro x lost x' ⟨⟨hans, -⟩, hobs⟩
    refine Prod.ext hans.2 (hobs.trans ?_)
    show ({ x.2 with deleted := x.2.deleted ++ [] } : ScanView) = x.2
    rw [List.append_nil]
  · intro op x r x' ho hI hans
    refine ⟨hI.same.trans (ho.same hans.1.1), ?_, (hview op x r x' ho hans).trans hI.view⟩
    exact (now_of_answers hans.1.1).trans hI.now
  · intro res op x r x' ho hR hans hres
    rw [hview op x r x' ho hans]
    exact hR hres
  · rintro e x - ⟨⟩
  · rintro x - ⟨⟩
  · have hread : Only Unseen readAllManifests :=
      only_readAllManifests (show startsWith MANIFEST_PREFIX "base/data/blobs/" = false by
        decide +kernel) (fun name key hkey => by simp [Op.deletes, S3Op.deletes] at hkey)
        fun key hkey => by simp [Op.deletes] at hkey
    have hwork : Scans (do
        let referenced ← referencedBlobHashes
        remoteScanAndDelete (referenced.filterMap fromHex) false hours) x₁
        fun _ x' => Swept w (w.now - graceSecs hours) x'.2 := by
      refine Scans.bind (R := fun referenced x' => ∃ ms, referenced = unionHashes ms ∧
        x'.1 = x₁.1 ∧ ReadOf x₁.1 ms ∧ x'.2 = x₁.2) (Scans.bind (Scans.of_ensures
          (ensures_readAllManifests trivial) hread) fun ms x' hx' => Scans.pure ?_) ?_
      · exact ⟨ms, rfl, hx'.1.1, hx'.1.2, hx'.2⟩
      rintro _ x₂ ⟨ms, rfl, hworld, hms, hx₂⟩
      refine Scans.mono (scans_remoteScanAndDelete hours (hx₂.trans hx₁.view)) fun _ x₃ hx₃ => ?_
      rw [hworld, hx₁.now] at hx₃
      refine ⟨_, fun h b hb => ?_, hx₃⟩
      rw [← decodes_unionHashes hms h b hb]
      unfold World.RefersTo
      simp only [hx₁.same.names]
    exact Ensures.mono hwork (fun _ h => h) (fun _ _ h _ => h) fun _ _ _ h => by cases h
  · exact ⟨SameButLock.refl w, rfl, rfl⟩

/-- The grace period starts at this time. -/
def graceStart (hours : UInt64) (w : World) : Int := w.now - graceSecs hours

/-- A run of `gc-all` that has returned, its deletes having succeeded: exactly when
it has deleted the old orphans, each once, and nothing else. The first part
takes a hash as referenced only if a manifest has it in the same digits. -/
theorem orphans_deleted_iff {hours : UInt64} {w w' : World} {tr : List (Event Op Resp World)}
    {p : Proc Op Resp AnyError Unit}
    (hrun : Proc.Trace Answers Eq ⟨gcAllBlobs false hours, []⟩ w tr p w')
    (hsucceed : ∀ c ∈ p.hist, DeletesSucceed c.1 c.2) (hdone : p.prog = .done ()) :
    (DeletesOldOrphans w.Names (graceStart hours w) (scanWatch.view p.hist) ↔
      ∀ e ∈ (scanWatch.view p.hist).listed, ¬ Nested w.RefersTo (graceStart hours w) e ∧
        ¬ Twin w.RefersTo (graceStart hours w) w.Names e) ∧
    (DeletesOldOrphans w.RefersTo (graceStart hours w) (scanWatch.view p.hist) ↔
      ∀ e ∈ (scanWatch.view p.hist).listed, ¬ Nested w.RefersTo (graceStart hours w) e) := by
  obtain ⟨tr', hwatched⟩ := (hrun.guarded hsucceed).watched scanWatch
  obtain ⟨bytes, hbytes, hscan⟩ := hwatched.returns (scans_gcAllBlobs hours w) hdone
  refine ⟨deletesOldOrphans_iff hbytes (fun h hname => ⟨h, hname, rfl⟩) hscan.nodup hscan.deleted,
    (deletesOldOrphans_iff hbytes (fun _ href => href) hscan.nodup hscan.deleted).trans ?_⟩
  refine forall₂_congr fun e _ => and_iff_left ?_
  rintro ⟨-, h, -, -, hnot, href⟩
  exact hnot href

-- ---------------------------------------------------------------------------
-- A key with something behind the hash
-- ---------------------------------------------------------------------------

/-- An old object below the key of a blob, ten days after its upload. -/
def belowBlob : World where
  objects := [(blobRemoteKey siteHash ++ "/" ++ "part", ⟨.data [], 0, 0⟩)]
  fresh := 1
  now := 864000

def belowEntry : ListEntry := ⟨blobRemoteKey siteHash ++ "/" ++ "part", 0, 0⟩

/-- That bucket, with the lock taken. -/
def belowLocked : World := belowBlob.putBody LOCK_KEY (.lock ⟨"aaaaaaaa", "host", 864000, TTL_SECS⟩)

/-- A call that does not fail, and what is seen of it. -/
def scanAnswer (op : Op) (x : Scanning) : Option (Resp op × Scanning) :=
  (served.answer op x.1).map fun y => (y.1, (y.2, scanWatch.observe x.2 op y.1))

theorem answers_scanAnswer (op : Op) (x : Scanning) (r : Resp op) (x' : Scanning)
    (h : scanAnswer op x = some (r, x')) : scanWatch.answers ScanAnswers op x r x' := by
  obtain ⟨⟨r', w'⟩, hserved, heq⟩ := Option.map_eq_some_iff.mp h
  obtain ⟨rfl, rfl⟩ := Prod.mk.inj heq
  refine ⟨⟨Answer.answers_answer op x.1 r' w' hserved, ?_⟩, rfl⟩
  cases op with
  | env o => trivial
  | s3 o =>
    cases o with
    | deleteObjects keys =>
      obtain ⟨rfl, -⟩ := Prod.mk.inj (Option.some.inj hserved)
      exact ⟨[], rfl⟩
    | _ => trivial

/-- Some answers, with deletes that succeed, lead from `x` to a return with `Q`. -/
def Finds {α : Type} (p : P α) (x : Scanning) (Q : α → Scanning → Prop) : Prop :=
  Reaches (scanWatch.answers ScanAnswers) p x Q

theorem finds_of_serve {α : Type} {p : P α} {x x' : Scanning} {a : α}
    (h : p.serve scanAnswer x = some (a, x')) : Finds p x fun b y => b = a ∧ y = x' :=
  reaches_of_serve answers_scanAnswer h

theorem finds_env {o : EnvOp} {x : Scanning} {r : EnvResp o} (hr : EnvAnswers o x.1 r) :
    Finds (askEnv o) x fun r' y => r' = r ∧ y = x := by
  have hunseen : Unseen (.env o) := fun key hkey => by simp [Op.deletes] at hkey
  have hseen : scanWatch.observe x.2 (.env o) r = x.2 := hunseen.observe x.2 r
  exact ⟨r, x, ⟨⟨⟨hr, rfl⟩, trivial⟩, hseen.symm⟩, rfl, rfl⟩

/-- The lock need not be lost. -/
theorem finds_raceLockLost {α : Type} {p : P α} {x : Scanning} {Q : α → Scanning → Prop}
    (h : Finds p x Q) : Finds (raceLockLost p) x Q := by
  induction p generalizing x with
  | done a => exact h
  | fail e => exact h
  | call op k ih =>
    obtain ⟨r, x', hr, hrest⟩ := h
    refine Reaches.bind (finds_env (r := false) trivial) ?_
    rintro lost y ⟨rfl, rfl⟩
    exact ⟨r, x', hr, ih r hrest⟩

/-- A shard whose listing fails is passed over. -/
theorem finds_scanShard (shard : Nat) (scan : Scan) (w : World) (v : ScanView) :
    Finds (scanShard [] 777600 false scan shard) (w, v) fun scan' x =>
      scan' = scan ∧ x = (w, v) := by
  refine Reaches.bind (finds_env (r := 0) trivial) ?_
  rintro n x ⟨rfl, rfl⟩
  have hseen : scanWatch.observe v (.s3 (.listObjectsV2 (shardPrefix shard)))
      (.error .timeoutError) = v := by
    show ({ v with deleted := v.deleted ++ [] } : ScanView) = v
    rw [List.append_nil]
  exact ⟨.error .timeoutError, (w, v), ⟨⟨.inr (.inl rfl), trivial⟩, hseen.symm⟩, rfl, rfl⟩

/-- Behind the scan: the key above the object is asked to be deleted. -/
def belowScanned : Scanning :=
  (belowLocked.erase (blobRemoteKey siteHash), ⟨[belowEntry], [blobRemoteKey siteHash]⟩)

theorem finds_scanAndDelete : Finds (remoteScanAndDelete [] false 24) (belowLocked, {})
    fun _ x => x = belowScanned := by
  have hcut : (graceCutoff 24).serve scanAnswer (belowLocked, {}) =
      some (777600, (belowLocked, {})) := by decide +kernel
  have hfirst : (scanShard [] 777600 false ⟨[], []⟩ 0).serve scanAnswer (belowLocked, {}) =
      some (⟨[belowEntry], []⟩, (belowLocked, ⟨[belowEntry], []⟩)) := by decide +kernel
  refine Reaches.bind (finds_of_serve hcut) ?_
  rintro cutoff x ⟨rfl, rfl⟩
  obtain ⟨order, horder⟩ := reorder_surjective (List.range 256) _ (List.Perm.refl _)
  refine Reaches.bind (finds_env (r := order) trivial) ?_
  rintro order' x ⟨rfl, rfl⟩
  rw [horder, List.range_succ_eq_map]
  -- the first shard has the object, and the others fail
  refine Reaches.bind (R := fun scan x => scan = ⟨[belowEntry], []⟩ ∧
    x = (belowLocked, ⟨[belowEntry], []⟩)) ?_ ?_
  · refine Reaches.bind (finds_of_serve hfirst) ?_
    rintro scan x ⟨rfl, rfl⟩
    refine reaches_foldl ?_ ⟨rfl, rfl⟩
    rintro shard - scan x ⟨rfl, rfl⟩
    exact finds_scanShard shard _ _ _
  · rintro scan x ⟨rfl, rfl⟩
    refine Reaches.mono (Q := fun a y => a = () ∧ y = belowScanned) ?_ fun _ _ h => h.2
    exact finds_of_serve (by decide +kernel)

theorem finds_gcAllBlobs : Finds (gcAllBlobs false 24) (belowBlob, {})
    fun _ x => x.2.listed = [belowEntry] := by
  have hid : (askEnv .newV4).serve scanAnswer (belowBlob, {}) =
      some ("aaaaaaaa", (belowBlob, {})) := by decide +kernel
  have hlock : (Prog.mapFail (withContext "Failed to acquire GC lock")
      (acquireWithRetry "aaaaaaaa" 10)).serve scanAnswer (belowBlob, {}) =
      some (some 1, (belowLocked, {})) := by decide +kernel
  have hnames : referencedBlobHashes.serve scanAnswer (belowLocked, {}) =
      some ([], (belowLocked, {})) := by decide +kernel
  refine Reaches.bind (finds_of_serve hid) ?_
  rintro id x ⟨rfl, rfl⟩
  refine Reaches.bind (finds_of_serve hlock) ?_
  rintro lock x ⟨rfl, rfl⟩
  have hwork : Finds (do
      let referenced ← referencedBlobHashes
      remoteScanAndDelete (referenced.filterMap fromHex) false 24) (belowLocked, {})
      fun _ x => x = belowScanned := by
    refine Reaches.bind (finds_of_serve hnames) ?_
    rintro referenced x ⟨rfl, rfl⟩
    exact finds_scanAndDelete
  have hrelease : (release "aaaaaaaa").serve scanAnswer belowScanned =
      some ((), (belowScanned.1.erase LOCK_KEY, belowScanned.2)) := by decide +kernel
  refine Reaches.bind (R := fun r x => r = .ok () ∧ x = belowScanned) ?_ ?_
  · exact Reaches.attempt (Reaches.mono (finds_raceLockLost hwork) fun _ _ h => ⟨rfl, h⟩)
  rintro result x ⟨rfl, rfl⟩
  refine Reaches.bind (finds_env (r := false) trivial) ?_
  rintro lost x ⟨rfl, rfl⟩
  refine Reaches.bind (R := fun r x => r = .ok () ∧ x.2 = belowScanned.2) ?_ ?_
  · refine Reaches.attempt (Reaches.mono (finds_of_serve hrelease) ?_)
    rintro u x ⟨rfl, rfl⟩
    exact ⟨rfl, rfl⟩
  rintro released x ⟨rfl, hx⟩
  exact Reaches.pure (congrArg ScanView.listed hx)

theorem exists_belowBlobRun : ∃ tr p w', Proc.Trace Answers Eq ⟨gcAllBlobs false 24, []⟩ belowBlob
    tr p w' ∧ (∀ c ∈ p.hist, DeletesSucceed c.1 c.2) ∧ p.prog = .done () ∧
      (scanWatch.view p.hist).listed = [⟨blobRemoteKey siteHash ++ "/" ++ "part", 0, 0⟩] := by
  have hstart : Proc.Trace ScanAnswers Eq ⟨gcAllBlobs false 24, []⟩ belowBlob []
      ⟨gcAllBlobs false 24, []⟩ belowBlob := .start
  obtain ⟨tr, p, w', a, hrun, hdone, hlisted⟩ :=
    Reaches.trace (M := scanWatch) hstart finds_gcAllBlobs
  obtain ⟨hplain, hsucceed⟩ := Proc.Trace.unguarded hrun fun _ hc => absurd hc (List.not_mem_nil)
  exact ⟨tr, p, w', hplain, hsucceed, hdone, hlisted⟩

theorem orphans_deleted_iff_belowBlob : ∃ tr p w',
    Proc.Trace Answers Eq ⟨gcAllBlobs false 24, []⟩ belowBlob tr p w' ∧ p.prog = .done () ∧
    (DeletesOldOrphans belowBlob.Names (graceStart 24 belowBlob) (scanWatch.view p.hist) ↔
      ∀ e ∈ (scanWatch.view p.hist).listed,
        ¬ Nested belowBlob.RefersTo (graceStart 24 belowBlob) e ∧
        ¬ Twin belowBlob.RefersTo (graceStart 24 belowBlob) belowBlob.Names e) := by
  obtain ⟨tr, p, w', hrun, hsucceed, hdone, -⟩ := exists_belowBlobRun
  exact ⟨tr, p, w', hrun, hdone, (orphans_deleted_iff hrun hsucceed hdone).1⟩

theorem isHex_siteHash : IsHex siteHash := by
  have hdigits : (siteHash.toList.all isAsciiHexdigit) = true := by decide +kernel
  exact ⟨by decide +kernel, List.all_eq_true.mp hdigits⟩

theorem nested_belowBlob : Nested belowBlob.RefersTo (graceStart 24 belowBlob)
    ⟨blobRemoteKey siteHash ++ "/" ++ "part", 0, 0⟩ := by
  refine ⟨by decide +kernel, siteHash, isHex_siteHash, ⟨"part", rfl⟩, ?_⟩
  -- there is no manifest
  rintro ⟨h', ⟨name, m, ⟨o, ho, hbody⟩, -⟩, -⟩
  have hin := mem_of_lookup ho
  obtain rfl := (Prod.mk.inj (List.mem_singleton.mp hin)).2
  cases hbody

/-- The key above it is deleted, without having been listed. -/
theorem nested_key_deleted : ¬ ∀ (hours : UInt64) (w : World) tr (p : Proc Op Resp AnyError Unit) w',
    Proc.Trace Answers Eq ⟨gcAllBlobs false hours, []⟩ w tr p w' →
    (∀ c ∈ p.hist, DeletesSucceed c.1 c.2) → p.prog = .done () →
    DeletesOldOrphans w.RefersTo (graceStart hours w) (scanWatch.view p.hist) := by
  intro hall
  obtain ⟨tr, p, w', hrun, hsucceed, hdone, hlisted⟩ := exists_belowBlobRun
  obtain ⟨bytes, hbytes, hscan⟩ := ((hrun.guarded hsucceed).watched scanWatch).choose_spec.returns
    (scans_gcAllBlobs 24 belowBlob) hdone
  have hnone := (deletesOldOrphans_iff hbytes (fun _ href => href) hscan.nodup hscan.deleted).mp
    (hall 24 belowBlob tr p w' hrun hsucceed hdone)
  have hmem : (⟨blobRemoteKey siteHash ++ "/" ++ "part", 0, 0⟩ : ListEntry) ∈
      (scanWatch.view p.hist).listed := by
    rw [hlisted]
    exact List.mem_singleton_self _
  exact (hnone _ hmem).1 nested_belowBlob

end Chbk
