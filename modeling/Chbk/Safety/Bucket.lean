import Mathlib.Data.List.Dedup
import Chbk.Model.Lock
import Chbk.Model.Manifest

/-!
# The bucket under requests

What a request can do to the bucket, in one lemma, and the keys that keep
manifests, blobs and the lock apart.

* `S3Answers.get?` — behind any request, failed or not, each key holds what it
  held, or the request deletes it, or the request has just written it.
* `NoDangling` — every blob of every manifest in the bucket is there.
* `blobRemoteKey_inj`, `manifestKey_ne_blobRemoteKey` — the keys are apart.
-/

namespace Chbk

open Lib

/-! ## Lookups -/

theorem lookup_filter_ne {κ α : Type} [DecidableEq κ] [BEq κ] [LawfulBEq κ] (k k' : κ) :
    ∀ l : List (κ × α),
    (l.filter fun x => decide (x.1 ≠ k)).lookup k' = if k' = k then none else l.lookup k'
  | [] => by simp
  | (a, b) :: l => by
    have ih := lookup_filter_ne k k' l
    by_cases ha : a = k
    · have hout : decide ((a, b).1 ≠ k) = false := by simpa using ha
      rw [List.filter_cons_of_neg (by simpa using ha), ih]
      by_cases hk : k' = k
      · simp [hk]
      · have hne : (k' == a) = false := beq_false_of_ne (ha ▸ hk)
        simp only [hk, if_false, List.lookup_cons, hne]
    · rw [List.filter_cons_of_pos (by simpa using ha)]
      by_cases hk : k' = a
      · subst hk
        simp [ha]
      · have hne : (k' == a) = false := beq_false_of_ne hk
        simp only [List.lookup_cons, hne, ih]

theorem lookup_eraseKey {κ α : Type} [DecidableEq κ] [BEq κ] [LawfulBEq κ] (k k' : κ)
    (l : List (κ × α)) : (eraseKey k l).lookup k' = if k' = k then none else l.lookup k' :=
  lookup_filter_ne k k' l

theorem lookup_insertKey {κ α : Type} [DecidableEq κ] [BEq κ] [LawfulBEq κ] (k k' : κ) (a : α)
    (l : List (κ × α)) : (insertKey k a l).lookup k' = if k' = k then some a else l.lookup k' := by
  by_cases h : k' = k
  · simp [insertKey, h]
  · have hne : (k' == k) = false := beq_false_of_ne h
    have hrest := lookup_filter_ne k k' l
    simp only [h, if_false] at hrest ⊢
    rw [insertKey, List.lookup_cons, hne]
    exact hrest

namespace World

variable (w : World)

@[simp] theorem get?_erase (k k' : String) :
    (w.erase k).get? k' = if k' = k then none else w.get? k' :=
  lookup_filter_ne k k' w.objects

@[simp] theorem get?_putBody (k k' : String) (b : Body) :
    (w.putBody k b).get? k' = if k' = k then some ⟨b, w.fresh, w.now⟩ else w.get? k' := by
  have hrest := lookup_filter_ne k k' w.objects
  by_cases h : k' = k
  · simp [get?, putBody, insertKey, h]
  · have hne : (k' == k) = false := beq_false_of_ne h
    simp only [h, if_false] at hrest ⊢
    simp only [get?, putBody, insertKey, List.lookup_cons, hne, hrest]

@[simp] theorem get?_eraseAll (ks : List String) (k' : String) :
    (w.eraseAll ks).get? k' = if k' ∈ ks then none else w.get? k' := by
  induction ks generalizing w with
  | nil => simp [eraseAll]
  | cons k ks ih =>
    have h : w.eraseAll (k :: ks) = (w.erase k).eraseAll ks := rfl
    rw [h, ih, get?_erase]
    by_cases h₁ : k' ∈ ks <;> by_cases h₂ : k' = k <;> simp [h₁, h₂]

@[simp] theorem now_eraseAll (ks : List String) : (w.eraseAll ks).now = w.now := by
  induction ks generalizing w with
  | nil => rfl
  | cons k ks ih => exact ih (w.erase k)

@[simp] theorem fresh_eraseAll (ks : List String) : (w.eraseAll ks).fresh = w.fresh := by
  induction ks generalizing w with
  | nil => rfl
  | cons k ks ih => exact ih (w.erase k)

@[simp] theorem uploads_eraseAll (ks : List String) : (w.eraseAll ks).uploads = w.uploads := by
  induction ks generalizing w with
  | nil => rfl
  | cons k ks ih => exact ih (w.erase k)

/-- There is an object under the key. -/
def Has (key : String) : Prop := ∃ o, w.get? key = some o

end World

/-! ## What a request does -/

namespace S3Op

/-- The keys a request may delete. -/
def deletes : S3Op → List String
  | deleteObject key => [key]
  | deleteObjects keys => keys
  | _ => []

/-- The request writes `body` under `key`, its conditions being met. -/
def Writes (w : World) : S3Op → String → Body → Prop
  | putObject key body ifMatch ifNoneMatch, key', body' =>
    key' = key ∧ body' = body ∧ (∀ etag, ifMatch = some etag → ∃ o, w.get? key = some o ∧ o.etag = etag)
      ∧ (ifMatch = none → ifNoneMatch = true → w.get? key = none)
  | completeMultipartUpload key id parts, key', body' =>
    key' = key ∧ ∃ u bs, w.uploads.lookup id = some u ∧ u.key = key ∧ assemble u parts = some bs
      ∧ body' = .data bs
  | _, _, _ => False

/-- What a request can make of the bucket: some of the keys it names are gone, or
it has written one object. -/
inductive Change (o : S3Op) (w w' : World) : Prop where
  | removes (gone : List String) (hsub : ∀ k ∈ gone, k ∈ o.deletes)
      (hget : ∀ key, w'.get? key = if key ∈ gone then none else w.get? key)
  | writes (key : String) (body : Body) (hw : o.Writes w key body)
      (hget : ∀ key', w'.get? key' = if key' = key then some ⟨body, w.fresh, w.now⟩
        else w.get? key')

theorem Change.refl (o : S3Op) {w w' : World} (h : w'.objects = w.objects) : o.Change w w' :=
  .removes [] (by simp) fun key => by simp [World.get?, h]

/-- A request that reaches S3. -/
theorem perform_change (o : S3Op) (w : World) :
    (o.perform w).2.now = w.now ∧ o.Change w (o.perform w).2 := by
  cases o with
  | listObjectsV2 pfx => exact ⟨rfl, .refl _ rfl⟩
  | headObject key =>
    simp only [perform]
    split <;> exact ⟨rfl, .refl _ rfl⟩
  | getObject key =>
    simp only [perform]
    split <;> exact ⟨rfl, .refl _ rfl⟩
  | putObject key body ifMatch ifNoneMatch =>
    simp only [perform]
    split
    · split
      · exact ⟨rfl, .refl _ rfl⟩
      · rename_i etag o ho hne
        refine ⟨rfl, .writes key body ⟨rfl, rfl, ?_, by simp⟩ fun k => by simp⟩
        intro e he
        exact ⟨o, ho, by simp_all⟩
    · exact ⟨rfl, .refl _ rfl⟩
    · split
      · exact ⟨rfl, .refl _ rfl⟩
      · rename_i hif
        exact ⟨rfl, .writes key body ⟨rfl, rfl, by simp, fun _ h => absurd h hif⟩ fun k => by simp⟩
    · rename_i hnone
      exact ⟨rfl, .writes key body ⟨rfl, rfl, by simp, fun _ _ => hnone⟩ fun k => by simp⟩
  | deleteObject key => exact ⟨rfl, .removes [key] (by simp [deletes]) fun k => by simp [perform]⟩
  | deleteObjects keys =>
    exact ⟨by simp [perform], .removes keys (by simp [deletes]) fun k => by simp [perform]⟩
  | createMultipartUpload key => exact ⟨rfl, .refl _ rfl⟩
  | uploadPart key id pn data =>
    simp only [perform]
    split
    · split <;> exact ⟨rfl, .refl _ rfl⟩
    · exact ⟨rfl, .refl _ rfl⟩
  | completeMultipartUpload key id parts =>
    simp only [perform]
    split
    · rename_i u hu
      split
      · exact ⟨rfl, .refl _ rfl⟩
      · split
        · exact ⟨rfl, .refl _ rfl⟩
        · rename_i hkey _
          split
          · rename_i bs hbs
            refine ⟨rfl, .writes key (.data bs)
              ⟨rfl, u, bs, hu, by simpa using hkey, hbs, rfl⟩ fun k => ?_⟩
            exact World.get?_putBody w key k (.data bs)
          · exact ⟨rfl, .refl _ rfl⟩
    · exact ⟨rfl, .refl _ rfl⟩
  | abortMultipartUpload key id => exact ⟨rfl, .refl _ rfl⟩

end S3Op

/-- Any request, failed or not. -/
theorem S3Answers.change {o : S3Op} {w w' : World} {r : Except SdkError (S3Ok o)}
    (h : S3Answers o w r w') : w'.now = w.now ∧ o.Change w w' := by
  have hfail : ∀ e, S3Fails o w e w' → w'.now = w.now ∧ o.Change w w' := by
    intro e he
    cases o with
    | deleteObjects keys =>
      obtain ⟨gone, hsub, rfl⟩ := he
      exact ⟨by simp, .removes gone hsub fun k => by simp⟩
    | _ =>
      rcases he with he | he
      · rw [he]
        exact ⟨rfl, .refl _ rfl⟩
      · rw [he]
        exact S3Op.perform_change _ w
  have hdone : ∀ r, o.perform w = (r, w') → w'.now = w.now ∧ o.Change w w' := by
    intro r he
    have := S3Op.perform_change o w
    rwa [he] at this
  cases r with
  | error e => exact h.elim (hdone _) (hfail e)
  | ok a =>
    cases o with
    | deleteObjects keys =>
      obtain ⟨gone, hsub, -, rfl⟩ := h
      exact ⟨by simp, .removes gone hsub fun k => by simp⟩
    | _ => exact hdone _ h

/-! ### What an answer tells -/

theorem get?_of_getObject {w w' : World} {key : String} {body : Body}
    (h : S3Answers (.getObject key) w (.ok body) w') :
    w' = w ∧ ∃ o, w.get? key = some o ∧ o.body = body := by
  simp only [S3Answers, S3Op.perform] at h
  split at h
  · rename_i o ho
    obtain ⟨hb, rfl⟩ := Prod.mk.inj h
    exact ⟨rfl, o, ho, Except.ok.inj hb⟩
  · cases (Prod.mk.inj h).1

theorem has_of_headObject {w w' : World} {key : String} {size : Nat}
    (h : S3Answers (.headObject key) w (.ok size) w') : w' = w ∧ w.Has key := by
  simp only [S3Answers, S3Op.perform] at h
  split at h
  · rename_i o ho
    exact ⟨(Prod.mk.inj h).2.symm, o, ho⟩
  · cases (Prod.mk.inj h).1

theorem get?_of_deleteObject {w w' : World} {key : String} {u : Unit}
    (h : S3Answers (.deleteObject key) w (.ok u) w') : w'.get? key = none := by
  obtain ⟨-, rfl⟩ := Prod.mk.inj h
  simp

/-- A completed upload has put the data of the parts it names. -/
theorem get?_of_completeMultipartUpload {w w' : World} {key : String} {id : UploadId}
    {parts : List Nat} {x : Unit}
    (h : S3Answers (.completeMultipartUpload key id parts) w (.ok x) w') :
    ∃ u bs, w.uploads.lookup id = some u ∧ S3Op.assemble u parts = some bs ∧
      w'.get? key = some ⟨.data bs, w.fresh, w.now⟩ := by
  simp only [S3Answers, S3Op.perform] at h
  split at h
  · rename_i u hu
    split at h
    · cases (Prod.mk.inj h).1
    · split at h
      · cases (Prod.mk.inj h).1
      · split at h
        · rename_i bs hbs
          obtain ⟨-, rfl⟩ := Prod.mk.inj h
          refine ⟨u, bs, hu, hbs, ?_⟩
          have := World.get?_putBody w key key (.data bs)
          simpa [World.get?] using this
        · cases (Prod.mk.inj h).1
  · cases (Prod.mk.inj h).1

theorem entries_of_listObjectsV2 {w w' : World} {pfx : String} {entries : List ListEntry}
    (h : S3Answers (.listObjectsV2 pfx) w (.ok entries) w') :
    w' = w ∧ entries = S3Op.listing w pfx := by
  obtain ⟨he, rfl⟩ := Prod.mk.inj h
  exact ⟨rfl, (Except.ok.inj he).symm⟩

/-- A listing shows exactly the objects under the prefix. -/
theorem mem_listing {w : World} {pfx : String} {e : ListEntry} :
    e ∈ S3Op.listing w pfx ↔ startsWith e.key pfx = true ∧
      ∃ o, w.get? e.key = some o ∧ e.size = o.body.size ∧ e.lastModified = o.lastModified := by
  have hkey : ∀ key o, w.get? key = some o → key ∈ w.objects.map Prod.fst := by
    intro key o ho
    obtain ⟨x, hx, hk⟩ : ∃ x ∈ w.objects, (key == x.1) = true := by
      by_contra hno
      have : w.objects.lookup key = none := List.lookup_eq_none_iff.mpr fun p hp => by
        by_contra hc
        exact hno ⟨p, hp, by simpa using hc⟩
      exact absurd (ho.symm.trans this) (by simp)
    exact List.mem_map.mpr ⟨x, hx, (eq_of_beq hk).symm⟩
  simp only [S3Op.listing, List.mem_filterMap, List.mem_dedup]
  constructor
  · rintro ⟨key, -, he⟩
    split at he
    · rename_i hp
      obtain ⟨o, ho, rfl⟩ := Option.map_eq_some_iff.mp he
      exact ⟨hp, o, ho, rfl, rfl⟩
    · cases he
  · rintro ⟨hp, o, ho, hs, hl⟩
    refine ⟨e.key, hkey _ _ ho, ?_⟩
    obtain ⟨key, size, lastModified⟩ := e
    simp_all

/-! ## Keys -/

theorem stripPrefix?_eq_some {s p t : String} : stripPrefix? s p = some t ↔ s = p ++ t := by
  rw [stripPrefix?]
  constructor
  · intro h
    split at h
    · rename_i hp
      obtain ⟨r, hr⟩ := List.isPrefixOf_iff_prefix.mp hp
      obtain rfl := Option.some.inj h
      apply String.toList_injective
      simp [← hr]
    · cases h
  · rintro rfl
    simp [List.isPrefixOf_iff_prefix]

theorem stripSuffix?_eq_some {s p t : String} : stripSuffix? s p = some t ↔ s = t ++ p := by
  rw [stripSuffix?]
  constructor
  · intro h
    split at h
    · rename_i hp
      obtain ⟨r, hr⟩ := List.isSuffixOf_iff_suffix.mp hp
      obtain rfl := Option.some.inj h
      apply String.toList_injective
      simp [← hr]
    · cases h
  · rintro rfl
    simp [List.isSuffixOf_iff_suffix]

theorem startsWith_append (p s : String) : startsWith (p ++ s) p = true := by
  simp [startsWith, List.isPrefixOf_iff_prefix]

theorem manifestNameFromKey_eq_some {key name : String} :
    manifestNameFromKey key = some name ↔ key = manifestKey name := by
  simp only [manifestNameFromKey, manifestKey, Option.bind_eq_some_iff, stripPrefix?_eq_some,
    stripSuffix?_eq_some]
  constructor
  · rintro ⟨_, rfl, rfl⟩
    exact (String.append_assoc ..).symm
  · rintro rfl
    exact ⟨_, String.append_assoc .., rfl⟩

@[simp] theorem manifestNameFromKey_manifestKey (name : String) :
    manifestNameFromKey (manifestKey name) = some name :=
  manifestNameFromKey_eq_some.mpr rfl

theorem manifestKey_inj {n n' : String} (h : manifestKey n = manifestKey n') : n = n' := by
  have := manifestNameFromKey_manifestKey n
  rw [h, manifestNameFromKey_manifestKey] at this
  exact (Option.some.inj this).symm

theorem startsWith_manifestKey (name : String) :
    startsWith (manifestKey name) MANIFEST_PREFIX = true := by
  rw [manifestKey, String.append_assoc]
  exact startsWith_append ..

theorem head_manifestKey (name : String) : (manifestKey name).toList.head? = some 's' := by
  have h : MANIFEST_PREFIX.toList.head? = some 's' := by decide +kernel
  rw [manifestKey, String.append_assoc, String.toList_append, List.head?_append, h,
    Option.some_or]

theorem utf8_append (s t : String) : utf8 (s ++ t) = utf8 s ++ utf8 t := by
  unfold utf8
  rw [String.toUTF8_eq_toByteArray, String.toByteArray_append]
  simp

theorem length_utf8_ofList (cs : List Char) :
    (utf8 (String.ofList cs)).length = (cs.map Char.utf8Size).sum := by
  have hbytes : utf8 (String.ofList cs) = cs.flatMap String.utf8EncodeChar := by
    unfold utf8
    rw [String.toUTF8_eq_toByteArray, ← String.utf8Encode_toList, List.utf8Encode,
      String.toList_ofList]
    simp
  rw [hbytes, List.length_flatMap]
  simp only [String.length_utf8EncodeChar]

theorem length_firstTwoBytes {s t : String} (h : firstTwoBytes s = some t) :
    (utf8 t).length = 2 := by
  unfold firstTwoBytes at h
  split at h
  · cases h
  · split_ifs at h with hc
    obtain rfl := Option.some.inj h
    rw [length_utf8_ofList]
    simp [hc]
  · split_ifs at h with hc hd
    · obtain rfl := Option.some.inj h
      rw [length_utf8_ofList]
      simp [hc]
    · obtain rfl := Option.some.inj h
      rw [length_utf8_ofList]
      simp [hd.1, hd.2]

/-- With or without a shard, two bytes stand in its place. -/
theorem length_blobShard (hash : String) : (utf8 ((blobShard hash).getD "__")).length = 2 := by
  unfold blobShard
  split
  · cases htwo : firstTwoBytes hash with
    | none => decide +kernel
    | some t => exact length_firstTwoBytes htwo
  · decide +kernel

theorem toList_blobRemoteKey (hash : String) : (blobRemoteKey hash).toList =
    "base/data/blobs/".toList ++ (((blobShard hash).getD "__").toList ++
      ("/".toList ++ hash.toList)) := by
  unfold blobRemoteKey
  simp only [String.toList_append, List.append_assoc]

theorem head_blobRemoteKey (hash : String) : (blobRemoteKey hash).toList.head? = some 'b' := by
  have h : "base/data/blobs/".toList.head? = some 'b' := by decide +kernel
  rw [toList_blobRemoteKey, List.head?_append, h, Option.some_or]

theorem manifestKey_ne_blobRemoteKey (name hash : String) :
    manifestKey name ≠ blobRemoteKey hash := fun h => by
  have := head_manifestKey name
  rw [h, head_blobRemoteKey] at this
  exact absurd this (by decide)

theorem manifestKey_ne_lock (name : String) : manifestKey name ≠ LOCK_KEY := fun h => by
  have := head_manifestKey name
  rw [h] at this
  exact absurd this (by decide +kernel)

theorem blobRemoteKey_ne_lock (hash : String) : blobRemoteKey hash ≠ LOCK_KEY := fun h => by
  have := head_blobRemoteKey hash
  rw [h] at this
  exact absurd this (by decide +kernel)

theorem blobRemoteKey_inj {h h' : String} (he : blobRemoteKey h = blobRemoteKey h') : h = h' := by
  have hbytes := congrArg utf8 he
  unfold blobRemoteKey at hbytes
  simp only [utf8_append, List.append_assoc, List.append_right_inj] at hbytes
  have hlen := (length_blobShard h).trans (length_blobShard h').symm
  have hrest := (List.append_inj hbytes hlen).2
  rw [List.append_right_inj] at hrest
  exact utf8_injective hrest

/-! ## Manifests and their blobs -/

/-- The keys of the blobs of a manifest. -/
def Manifest.blobKeys (m : Manifest) : List String :=
  m.parts.map fun p => blobRemoteKey p.blobHash

/-- A manifest in the bucket, under a name. -/
def World.Holds (w : World) (name : String) (m : Manifest) : Prop :=
  ∃ o, w.get? (manifestKey name) = some o ∧ o.body = .manifest m

/-- Every blob a manifest in the bucket refers to is there. -/
def NoDangling (w : World) : Prop :=
  ∀ name m, w.Holds name m → ∀ key ∈ m.blobKeys, w.Has key

/-- One manifest under a name, at most. -/
theorem World.Holds.unique {w : World} {name : String} {m m' : Manifest} (h : w.Holds name m)
    (h' : w.Holds name m') : m = m' := by
  obtain ⟨o, ho, hb⟩ := h
  obtain ⟨o', ho', hb'⟩ := h'
  obtain rfl := Option.some.inj (ho.symm.trans ho')
  exact Body.manifest.inj (hb.symm.trans hb')

end Chbk
