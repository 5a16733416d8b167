import Chbk.Lib.Groups
import Chbk.Model.Prefix
import Chbk.Safety.Bucket

/-!
# Several tenants in one bucket

Any number of parties keep their backups in one bucket, each under a prefix of its
own. What one of them sees below its prefix is a bucket of its own: its requests act
on it as they would without a prefix, and the requests of the others leave it alone.

* `perform_under` — a prefixed request acts below the prefix as the plain request.
* `S3Answers.under`, `S3Answers.elsewhere` — the same of every answer, and the
  frame.
* `tenants` — with it the tenants are `Parties`.
* `tenants_apart` — all tenants' commands together are, to each tenant, its own
  commands in a bucket of its own.
-/

namespace Chbk

open Lib Prog

-- ---------------------------------------------------------------------------
-- Below a prefix
-- ---------------------------------------------------------------------------

/-- No key is below both prefixes. -/
def PrefixesApart (p q : String) : Prop :=
  startsWith (q ++ "/") (p ++ "/") = false ∧ startsWith (p ++ "/") (q ++ "/") = false

instance (p q : String) : Decidable (PrefixesApart p q) :=
  inferInstanceAs (Decidable (_ ∧ _))

variable {p q : String} {w w' : World}

theorem PrefixesApart.symm (h : PrefixesApart p q) : PrefixesApart q p := ⟨h.2, h.1⟩

theorem PrefixesApart.strip (h : PrefixesApart p q) (key : String) :
    stripPrefix? (prefixedKey (some q) key) (p ++ "/") = none := by
  cases hs : stripPrefix? (prefixedKey (some q) key) (p ++ "/") with
  | none => rfl
  | some key' =>
    -- a key below both: one of the prefixes begins with the other
    have heq : (q ++ "/").toList ++ key.toList = (p ++ "/").toList ++ key'.toList := by
      have h' := congrArg String.toList (stripPrefix?_eq_some.mp hs)
      simpa [prefixedKey] using h'
    have hq : (q ++ "/").toList <+: (p ++ "/").toList ++ key'.toList := ⟨key.toList, heq⟩
    have hp : (p ++ "/").toList <+: (p ++ "/").toList ++ key'.toList := List.prefix_append ..
    rcases List.prefix_or_prefix_of_prefix hp hq with hpre | hpre
    · have := List.isPrefixOf_iff_prefix.mpr hpre
      exact absurd (h.1.symm.trans this) (by simp)
    · have := List.isPrefixOf_iff_prefix.mpr hpre
      exact absurd (h.2.symm.trans this) (by simp)

@[simp] theorem strip_prefixedKey (key : String) :
    stripPrefix? (prefixedKey (some p) key) (p ++ "/") = some key :=
  stripPrefix?_eq_some.mpr rfl

@[simp] theorem relativeKey_prefixedKey (pfx : Option String) (key : String) :
    relativeKey pfx (prefixedKey pfx key) = key := by
  cases pfx with
  | none => rfl
  | some p =>
    show (stripPrefix? (prefixedKey (some p) key) (p ++ "/")).getD _ = key
    rw [strip_prefixedKey, Option.getD_some]

theorem prefixedKey_injective (pfx : Option String) : Function.Injective (prefixedKey pfx) :=
  Function.LeftInverse.injective (relativeKey_prefixedKey pfx)

theorem strip_eq_some {s key : String} :
    stripPrefix? s (p ++ "/") = some key ↔ s = prefixedKey (some p) key :=
  stripPrefix?_eq_some

theorem objectUnder_eq_some {x y : String × Object} :
    objectUnder p x = some y ↔ x = (prefixedKey (some p) y.1, y.2) := by
  obtain ⟨k, o⟩ := x
  obtain ⟨k', o'⟩ := y
  simp only [objectUnder, Option.map_eq_some_iff, strip_eq_some, Prod.mk.injEq]
  constructor
  · rintro ⟨key, rfl, rfl, rfl⟩
    exact ⟨rfl, rfl⟩
  · rintro ⟨rfl, rfl⟩
    exact ⟨k', rfl, rfl, rfl⟩

theorem uploadUnder_eq_some {x y : UploadId × Upload} :
    uploadUnder p x = some y ↔ x = (y.1, ⟨prefixedKey (some p) y.2.key, y.2.parts⟩) := by
  obtain ⟨id, k, parts⟩ := x
  obtain ⟨id', k', parts'⟩ := y
  simp only [uploadUnder, Option.map_eq_some_iff, strip_eq_some, Prod.mk.injEq, Upload.mk.injEq]
  constructor
  · rintro ⟨key, rfl, rfl, rfl, rfl⟩
    exact ⟨rfl, rfl, rfl⟩
  · rintro ⟨rfl, rfl, rfl⟩
    exact ⟨k', rfl, rfl, rfl, rfl⟩

/-- A filter that a map agrees with may be applied behind it. -/
theorem filterMap_filter_of_agree {α β : Type} {f : α → Option β} {P : α → Bool} {Q : β → Bool}
    (h : ∀ x y, f x = some y → Q y = P x) (l : List α) :
    (l.filter P).filterMap f = (l.filterMap f).filter Q := by
  induction l with
  | nil => rfl
  | cons x l ih =>
    cases hx : f x with
    | none =>
      rw [List.filterMap_cons_none hx, ← ih]
      cases hP : P x with
      | false => rw [List.filter_cons_of_neg (by simp [hP])]
      | true => rw [List.filter_cons_of_pos hP, List.filterMap_cons_none hx]
    | some y =>
      have hQ := h x y hx
      rw [List.filterMap_cons_some hx]
      cases hP : P x with
      | false =>
        rw [List.filter_cons_of_neg (by simp [hP]), List.filter_cons_of_neg (by simp [hQ, hP]), ih]
      | true =>
        rw [List.filter_cons_of_pos hP, List.filterMap_cons_some hx,
          List.filter_cons_of_pos (by simp [hQ, hP]), ih]

/-- Removing what a map drops is not seen behind it. -/
theorem filterMap_filter_of_none {α β : Type} {f : α → Option β} {P : α → Bool} {l : List α}
    (h : ∀ x ∈ l, P x = false → f x = none) : (l.filter P).filterMap f = l.filterMap f := by
  induction l with
  | nil => rfl
  | cons x l ih =>
    have hrest := ih fun y hy => h y (List.mem_cons_of_mem _ hy)
    cases hP : P x with
    | false =>
      rw [List.filter_cons_of_neg (by simp [hP]), hrest,
        List.filterMap_cons_none (h x (List.mem_cons_self ..) hP)]
    | true =>
      rw [List.filter_cons_of_pos hP, List.filterMap_cons, List.filterMap_cons, hrest]

theorem lookup_objectUnder (key : String) (l : List (String × Object)) :
    (l.filterMap (objectUnder p)).lookup key = l.lookup (prefixedKey (some p) key) := by
  induction l with
  | nil => rfl
  | cons x l ih =>
    cases hx : objectUnder p x with
    | none =>
      rw [List.filterMap_cons_none hx, ih]
      have hne : (prefixedKey (some p) key == x.1) = false := by
        refine beq_false_of_ne fun heq => ?_
        have hsome : objectUnder p x = some (key, x.2) :=
          objectUnder_eq_some.mpr (Prod.ext heq.symm rfl)
        exact absurd (hx.symm.trans hsome) (by simp)
      obtain ⟨k, o⟩ := x
      simp only [List.lookup_cons, hne]
    | some y =>
      rw [List.filterMap_cons_some hx]
      obtain rfl := objectUnder_eq_some.mp hx
      obtain ⟨key', o⟩ := y
      by_cases hk : key = key'
      · subst hk
        simp
      · have hne : (key == key') = false := beq_false_of_ne hk
        have hne' : (prefixedKey (some p) key == prefixedKey (some p) key') = false :=
          beq_false_of_ne fun heq => hk (prefixedKey_injective _ heq)
        simp only [List.lookup_cons, hne, hne', ih]

theorem get?_under (key : String) : (w.under p).get? key = w.get? (prefixedKey (some p) key) :=
  lookup_objectUnder key w.objects

-- ---------------------------------------------------------------------------
-- What requests do below the prefix
-- ---------------------------------------------------------------------------

/-- Every upload under way has an id of its own, and none of those to come. -/
structure World.Numbered (w : World) : Prop where
  nodup : (w.uploads.map Prod.fst).Nodup
  below : ∀ x ∈ w.uploads, x.1 < w.fresh

theorem lookup_uploadUnder (id : UploadId) : ∀ {l : List (UploadId × Upload)},
    (l.map Prod.fst).Nodup → (l.filterMap (uploadUnder p)).lookup id =
      (l.lookup id).bind fun u => (uploadUnder p (id, u)).map Prod.snd
  | [], _ => rfl
  | (id', u) :: l, h => by
    obtain ⟨hout, hnodup⟩ := List.nodup_cons.mp h
    have ih := lookup_uploadUnder id hnodup
    by_cases hid : id = id'
    · subst hid
      cases hu : uploadUnder p (id, u) with
      | none =>
        -- no other upload has the id
        have hnone : l.lookup id = none := by
          refine List.lookup_eq_none_iff.mpr fun x hx => ?_
          have hne : id ≠ x.1 := fun heq => hout (List.mem_map.mpr ⟨x, hx, heq.symm⟩)
          simpa using hne
        rw [List.filterMap_cons_none hu, ih, hnone]
        simp [hu]
      | some y =>
        have hy := uploadUnder_eq_some.mp hu
        obtain rfl : id = y.1 := congrArg Prod.fst hy
        obtain ⟨id, u'⟩ := y
        rw [List.filterMap_cons_some hu]
        simp [hu]
    · have hne : (id == id') = false := beq_false_of_ne hid
      cases hu : uploadUnder p (id', u) with
      | none =>
        rw [List.filterMap_cons_none hu, ih]
        simp only [List.lookup_cons, hne]
      | some y =>
        have hy := uploadUnder_eq_some.mp hu
        obtain rfl : id' = y.1 := congrArg Prod.fst hy
        obtain ⟨id', u'⟩ := y
        rw [List.filterMap_cons_some hu]
        simp only [List.lookup_cons, hne, ih]

theorem filterMap_eraseKey_object (key : String) (l : List (String × Object)) :
    (eraseKey (prefixedKey (some p) key) l).filterMap (objectUnder p) =
      eraseKey key (l.filterMap (objectUnder p)) := by
  refine filterMap_filter_of_agree ?_ l
  intro x y hy
  obtain rfl := objectUnder_eq_some.mp hy
  simp [(prefixedKey_injective (some p)).eq_iff]

theorem filterMap_eraseKey_upload (id : UploadId) (l : List (UploadId × Upload)) :
    (eraseKey id l).filterMap (uploadUnder p) = eraseKey id (l.filterMap (uploadUnder p)) := by
  refine filterMap_filter_of_agree ?_ l
  intro x y hy
  obtain rfl := uploadUnder_eq_some.mp hy
  rfl

theorem objectUnder_prefixed (key : String) (o : Object) :
    objectUnder p (prefixedKey (some p) key, o) = some (key, o) :=
  objectUnder_eq_some.mpr rfl

theorem uploadUnder_prefixed (id : UploadId) (key : String) (parts : List (Nat × Bytes)) :
    uploadUnder p (id, ⟨prefixedKey (some p) key, parts⟩) = some (id, ⟨key, parts⟩) :=
  uploadUnder_eq_some.mpr rfl

theorem under_putBody (key : String) (body : Body) :
    (w.putBody (prefixedKey (some p) key) body).under p = (w.under p).putBody key body := by
  unfold World.putBody World.under insertKey
  have herase := filterMap_eraseKey_object (p := p) key w.objects
  unfold eraseKey at herase
  simp only [List.filterMap_cons_some (objectUnder_prefixed key _), herase]

theorem under_erase (key : String) :
    (w.erase (prefixedKey (some p) key)).under p = (w.under p).erase key := by
  unfold World.erase World.under
  rw [filterMap_eraseKey_object]

theorem under_eraseAll (keys : List String) :
    (w.eraseAll (keys.map (prefixedKey (some p)))).under p = (w.under p).eraseAll keys := by
  induction keys generalizing w with
  | nil => rfl
  | cons key keys ih =>
    show ((w.erase (prefixedKey (some p) key)).eraseAll _).under p =
      ((w.under p).erase key).eraseAll keys
    rw [ih, under_erase]

theorem filterMap_insertKey_upload (id : UploadId) (key : String) (parts : List (Nat × Bytes))
    (l : List (UploadId × Upload)) :
    (insertKey id ⟨prefixedKey (some p) key, parts⟩ l).filterMap (uploadUnder p) =
      insertKey id ⟨key, parts⟩ (l.filterMap (uploadUnder p)) := by
  have herase := filterMap_eraseKey_upload (p := p) id l
  unfold eraseKey at herase
  unfold insertKey
  rw [List.filterMap_cons_some (uploadUnder_prefixed id key parts), herase]

/-- Below the prefix every key is listed as often as its key in the bucket. -/
theorem dedup_filterMap {α β : Type} [DecidableEq α] [DecidableEq β] {f : α → Option β}
    (hf : ∀ x x' y, f x = some y → f x' = some y → x = x') (l : List α) :
    (l.filterMap f).dedup = l.dedup.filterMap f := by
  induction l with
  | nil => rfl
  | cons x l ih =>
    cases hx : f x with
    | none =>
      rw [List.filterMap_cons_none hx, ih]
      by_cases hmem : x ∈ l
      · rw [List.dedup_cons_of_mem hmem]
      · rw [List.dedup_cons_of_notMem hmem, List.filterMap_cons_none hx]
    | some y =>
      rw [List.filterMap_cons_some hx]
      by_cases hmem : x ∈ l
      · have hy : y ∈ l.filterMap f := List.mem_filterMap.mpr ⟨x, hmem, hx⟩
        rw [List.dedup_cons_of_mem hmem, List.dedup_cons_of_mem hy, ih]
      · have hy : y ∉ l.filterMap f := by
          intro hy
          obtain ⟨x', hx', hfx'⟩ := List.mem_filterMap.mp hy
          exact hmem (hf x x' y hx hfx' ▸ hx')
        rw [List.dedup_cons_of_notMem hmem, List.dedup_cons_of_notMem hy,
          List.filterMap_cons_some hx, ih]

theorem startsWith_prefixedKey (pfx key : String) :
    startsWith (prefixedKey (some p) key) (prefixedKey (some p) pfx) = startsWith key pfx := by
  rw [Bool.eq_iff_iff]
  simp [startsWith, prefixedKey]

theorem listing_under (pfx : String) :
    S3Op.listing (w.under p) pfx = (S3Op.listing w (prefixedKey (some p) pfx)).map fun e =>
      { e with key := relativeKey (some p) e.key } := by
  have hkeys : (w.under p).objects.map Prod.fst =
      (w.objects.map Prod.fst).filterMap fun key => stripPrefix? key (p ++ "/") := by
    show (w.objects.filterMap (objectUnder p)).map Prod.fst = _
    rw [List.map_filterMap, List.filterMap_map]
    refine List.filterMap_congr fun x _ => ?_
    simp [objectUnder, Function.comp_def]
  have hinj : ∀ s s' key, stripPrefix? s (p ++ "/") = some key →
      stripPrefix? s' (p ++ "/") = some key → s = s' := by
    intro s s' key hs hs'
    rw [strip_eq_some.mp hs, strip_eq_some.mp hs']
  unfold S3Op.listing
  rw [hkeys, dedup_filterMap hinj, List.filterMap_filterMap, List.map_filterMap]
  refine List.filterMap_congr fun s _ => ?_
  cases hs : stripPrefix? s (p ++ "/") with
  | none =>
    -- what is not below the prefix does not begin with any key of the program
    have hno : startsWith s (prefixedKey (some p) pfx) = false := by
      refine Bool.eq_false_iff.mpr fun hpre => ?_
      obtain ⟨t, ht⟩ := List.isPrefixOf_iff_prefix.mp hpre
      have heq : s = prefixedKey (some p) (pfx ++ String.ofList t) := by
        apply String.toList_injective
        simp [← ht, prefixedKey]
      rw [heq, strip_prefixedKey] at hs
      cases hs
    simp [hno]
  | some key =>
    obtain rfl := strip_eq_some.mp hs
    rw [startsWith_prefixedKey, Option.bind_some, get?_under]
    split
    · rw [Option.map_map]
      simp [Function.comp_def]
    · rfl

theorem assemble_key (u : Upload) (key : String) (parts : List Nat) :
    S3Op.assemble { u with key } parts = S3Op.assemble u parts := rfl

/-- An upload is below the prefix under a key of the program, or under none. -/
theorem upload_cases (id : UploadId) (key : String) (u : Upload) :
    (uploadUnder p (id, u) = none ∧ u.key ≠ prefixedKey (some p) key) ∨
      ∃ k, uploadUnder p (id, u) = some (id, { u with key := k }) ∧
        u.key = prefixedKey (some p) k ∧ (u.key = prefixedKey (some p) key ↔ k = key) := by
  cases hs : stripPrefix? u.key (p ++ "/") with
  | none =>
    refine .inl ⟨by simp [uploadUnder, hs], fun heq => ?_⟩
    rw [heq, strip_prefixedKey] at hs
    cases hs
  | some k =>
    have hk := strip_eq_some.mp hs
    refine .inr ⟨k, by simp [uploadUnder, hs], hk, ?_⟩
    rw [hk, (prefixedKey_injective (some p)).eq_iff]

/-- A prefixed request acts below the prefix as the plain request, and is answered alike. -/
def ActsAlike (p : String) (w : World) (o : S3Op) : Prop :=
  ((o.prefixed (some p)).perform w).1.map (o.relative (some p)) = (o.perform (w.under p)).1 ∧
    ((o.prefixed (some p)).perform w).2.under p = (o.perform (w.under p)).2

theorem actsAlike_putObject (key : String) (body : Body) (ifMatch : Option ETag)
    (ifNoneMatch : Bool) : ActsAlike p w (.putObject key body ifMatch ifNoneMatch) := by
  simp only [ActsAlike, S3Op.prefixed, S3Op.perform, get?_under]
  have hput := under_putBody (p := p) (w := w) key body
  cases ifMatch with
  | none =>
    cases w.get? (prefixedKey (some p) key) with
    | none => exact ⟨rfl, hput⟩
    | some o => cases ifNoneMatch <;> first | exact ⟨rfl, rfl⟩ | exact ⟨rfl, hput⟩
  | some etag =>
    cases w.get? (prefixedKey (some p) key) with
    | none => exact ⟨rfl, rfl⟩
    | some o =>
      by_cases he : o.etag = etag
      · simp only [he, ne_eq, not_true_eq_false, if_false]
        exact ⟨rfl, hput⟩
      · simp only [he, ne_eq, not_false_eq_true, if_true]
        exact ⟨rfl, trivial⟩

theorem lookup_under_uploads (hw : w.Numbered) (id : UploadId) : (w.under p).uploads.lookup id =
    (w.uploads.lookup id).bind fun u => (uploadUnder p (id, u)).map Prod.snd :=
  lookup_uploadUnder id hw.nodup

theorem actsAlike_uploadPart (hw : w.Numbered) (key : String) (id : UploadId) (pn : Nat)
    (data : Bytes) : ActsAlike p w (.uploadPart key id pn data) := by
  simp only [ActsAlike, S3Op.prefixed, S3Op.perform, lookup_under_uploads hw]
  cases hu : w.uploads.lookup id with
  | none => exact ⟨rfl, rfl⟩
  | some u =>
    rcases upload_cases (p := p) id key u with ⟨hs, hne⟩ | ⟨k, hs, hk, hiff⟩
    · simp only [Option.bind_some, hs, hne, Option.map_none, ne_eq, not_false_eq_true, if_true]
      exact ⟨rfl, trivial⟩
    · simp only [Option.bind_some, hs, Option.map_some, ne_eq, hiff]
      split
      · exact ⟨rfl, rfl⟩
      · refine ⟨rfl, ?_⟩
        show World.under p { w with uploads := insertKey id _ _ } = _
        unfold World.under
        simp only [filterMap_insertKey_upload]

theorem actsAlike_completeMultipartUpload (hw : w.Numbered) (key : String) (id : UploadId)
    (parts : List Nat) : ActsAlike p w (.completeMultipartUpload key id parts) := by
  simp only [ActsAlike, S3Op.prefixed, S3Op.perform, lookup_under_uploads hw]
  cases hu : w.uploads.lookup id with
  | none => exact ⟨rfl, rfl⟩
  | some u =>
    rcases upload_cases (p := p) id key u with ⟨hs, hne⟩ | ⟨k, hs, hk, hiff⟩
    · simp only [Option.bind_some, hs, hne, Option.map_none, ne_eq, not_false_eq_true, if_true]
      exact ⟨rfl, trivial⟩
    · simp only [Option.bind_some, hs, Option.map_some, ne_eq, hiff, assemble_key]
      split
      · exact ⟨rfl, rfl⟩
      · split
        · exact ⟨rfl, rfl⟩
        · cases hbs : S3Op.assemble u parts with
          | none => exact ⟨rfl, rfl⟩
          | some bs =>
            refine ⟨rfl, ?_⟩
            have hput := under_putBody (p := p) (w := w) key (.data bs)
            show World.mk ((w.putBody _ _).objects.filterMap _)
              ((eraseKey id w.uploads).filterMap _) _ _ = _
            rw [filterMap_eraseKey_upload]
            exact congrArg (fun v : World =>
              { v with uploads := eraseKey id (w.under p).uploads }) hput

/-- **A prefixed request acts below the prefix as the plain request, and is answered alike.** -/
theorem perform_under (hw : w.Numbered) (o : S3Op) : ActsAlike p w o := by
  cases o with
  | listObjectsV2 pfx =>
    refine ⟨?_, rfl⟩
    show Except.ok _ = Except.ok _
    rw [listing_under]
    rfl
  | headObject key =>
    simp only [ActsAlike, S3Op.prefixed, S3Op.perform, get?_under]
    cases w.get? (prefixedKey (some p) key) <;> exact ⟨rfl, rfl⟩
  | getObject key =>
    simp only [ActsAlike, S3Op.prefixed, S3Op.perform, get?_under]
    cases w.get? (prefixedKey (some p) key) <;> exact ⟨rfl, rfl⟩
  | putObject key body ifMatch ifNoneMatch => exact actsAlike_putObject key body ifMatch ifNoneMatch
  | deleteObject key => exact ⟨rfl, under_erase key⟩
  | deleteObjects keys => exact ⟨rfl, under_eraseAll keys⟩
  | createMultipartUpload key =>
    refine ⟨rfl, ?_⟩
    show World.under p { w with uploads := insertKey _ _ _, fresh := _ } = _
    unfold World.under
    simp only [filterMap_insertKey_upload]
    rfl
  | uploadPart key id pn data => exact actsAlike_uploadPart hw key id pn data
  | completeMultipartUpload key id parts => exact actsAlike_completeMultipartUpload hw key id parts
  | abortMultipartUpload key id =>
    refine ⟨rfl, ?_⟩
    show World.under p { w with uploads := eraseKey id w.uploads } = _
    unfold World.under
    simp only [filterMap_eraseKey_upload]
    rfl

/-- Keys out of a prefixed request. -/
theorem exists_of_subset_prefixed {keys gone : List String}
    (h : ∀ k ∈ gone, k ∈ keys.map (prefixedKey (some p))) :
    ∃ gone' : List String, (∀ k ∈ gone', k ∈ keys) ∧ gone = gone'.map (prefixedKey (some p)) := by
  refine ⟨gone.map (relativeKey (some p)), ?_, ?_⟩
  · intro k hk
    obtain ⟨s, hs, rfl⟩ := List.mem_map.mp hk
    obtain ⟨k', hk', rfl⟩ := List.mem_map.mp (h s hs)
    rwa [relativeKey_prefixedKey]
  · have hsame : gone.map (prefixedKey (some p) ∘ relativeKey (some p)) = gone.map id := by
      refine List.map_congr_left fun s hs => ?_
      obtain ⟨k', -, rfl⟩ := List.mem_map.mp (h s hs)
      simp
    rw [List.map_map, hsame, List.map_id]

theorem S3Answers.under (hw : w.Numbered) {o : S3Op}
    {r : Except SdkError (S3Ok (o.prefixed (some p)))}
    (h : S3Answers (o.prefixed (some p)) w r w') :
    S3Answers o (w.under p) (r.map (o.relative (some p))) (w'.under p) := by
  have hperform : ActsAlike p w o := perform_under hw o
  unfold ActsAlike at hperform
  have hdone : ∀ r, (o.prefixed (some p)).perform w = (r, w') →
      o.perform (w.under p) = (r.map (o.relative (some p)), w'.under p) := by
    intro r hr
    rw [hr] at hperform
    exact Prod.ext hperform.1.symm hperform.2.symm
  cases r with
  | error e =>
    rcases h with h | h
    · exact .inl (hdone _ h)
    · refine .inr ?_
      cases o with
      | deleteObjects keys =>
        obtain ⟨gone, hsub, rfl⟩ := h
        obtain ⟨gone', hsub', rfl⟩ := exists_of_subset_prefixed hsub
        exact ⟨gone', hsub', under_eraseAll gone'⟩
      | _ =>
        rcases h with rfl | rfl
        · exact .inl rfl
        · exact .inr hperform.2
  | ok a =>
    cases o with
    | deleteObjects keys =>
      obtain ⟨gone, hsub, hall, rfl⟩ := h
      obtain ⟨gone', hsub', rfl⟩ := exists_of_subset_prefixed hsub
      refine ⟨gone', hsub', ?_, under_eraseAll gone'⟩
      intro k hk
      rcases hall _ (List.mem_map_of_mem hk) with hgone | herr
      · obtain ⟨k', hk', heq⟩ := List.mem_map.mp hgone
        exact .inl (prefixedKey_injective _ heq ▸ hk')
      · obtain ⟨e, he, heq⟩ := List.mem_map.mp herr
        refine .inr (List.mem_map.mpr ⟨_, List.mem_map_of_mem he, ?_⟩)
        show relativeKey (some p) e.key = k
        rw [heq, relativeKey_prefixedKey]
    | _ => exact hdone _ h

-- ---------------------------------------------------------------------------
-- What they leave alone
-- ---------------------------------------------------------------------------

theorem World.Beside.refl : w.Beside w := ⟨rfl, rfl, le_rfl, le_rfl⟩

theorem filterMap_eraseKey_other (h : PrefixesApart p q) (key : String)
    (l : List (String × Object)) :
    (eraseKey (prefixedKey (some q) key) l).filterMap (objectUnder p) =
      l.filterMap (objectUnder p) := by
  refine filterMap_filter_of_none fun x _ hx => ?_
  have hkey : x.1 = prefixedKey (some q) key := by simpa using hx
  simp [objectUnder, hkey, h.strip key]

theorem under_putBody_other (h : PrefixesApart p q) (key : String) (body : Body) :
    ((w.putBody (prefixedKey (some q) key) body).under p).objects = (w.under p).objects := by
  have hnone : objectUnder p (prefixedKey (some q) key, ⟨body, w.fresh, w.now⟩) = none := by
    simp [objectUnder, h.strip key]
  show (insertKey _ _ _).filterMap _ = _
  unfold insertKey
  rw [List.filterMap_cons_none hnone]
  exact filterMap_eraseKey_other h key w.objects

theorem under_eraseAll_other (h : PrefixesApart p q) (keys : List String) :
    (w.eraseAll (keys.map (prefixedKey (some q)))).under p = w.under p := by
  induction keys generalizing w with
  | nil => rfl
  | cons key keys ih =>
    show ((w.erase (prefixedKey (some q) key)).eraseAll _).under p = _
    rw [ih]
    unfold World.erase World.under
    rw [filterMap_eraseKey_other h]

/-- An upload of a key elsewhere may go or change. -/
theorem filterMap_eraseKey_upload_other (hw : w.Numbered) (h : PrefixesApart p q) {id : UploadId}
    (hkey : ∀ u, w.uploads.lookup id = some u → ∃ key, u.key = prefixedKey (some q) key) :
    (eraseKey id w.uploads).filterMap (uploadUnder p) = w.uploads.filterMap (uploadUnder p) := by
  refine filterMap_filter_of_none fun x hx hid => ?_
  obtain ⟨id', u⟩ := x
  obtain rfl : id' = id := by simpa using hid
  obtain ⟨key, hk⟩ := hkey u ((mem_iff_lookup hw.nodup).mp hx)
  simp [uploadUnder, hk, h.strip key]

/-- **A request below one prefix leaves what is below another alone.** -/
theorem perform_beside (h : PrefixesApart p q) (hw : w.Numbered) {o : S3Op}
    (hown : ¬ Op.AbortsForeign w (.s3 (o.prefixed (some q)))) :
    (w.under p).Beside (((o.prefixed (some q)).perform w).2.under p) := by
  cases o with
  | listObjectsV2 pfx => exact .refl
  | headObject key =>
    simp only [S3Op.prefixed, S3Op.perform]
    split <;> exact .refl
  | getObject key =>
    simp only [S3Op.prefixed, S3Op.perform]
    split <;> exact .refl
  | putObject key body ifMatch ifNoneMatch =>
    have hput : (w.under p).Beside ((w.putBody (prefixedKey (some q) key) body).under p) :=
      ⟨under_putBody_other h key body, rfl, Nat.le_succ _, le_rfl⟩
    simp only [S3Op.prefixed, S3Op.perform]
    split
    · split
      · exact .refl
      · exact hput
    · exact .refl
    · split
      · exact .refl
      · exact hput
    · exact hput
  | deleteObject key => exact ⟨filterMap_eraseKey_other h key _, rfl, le_rfl, le_rfl⟩
  | deleteObjects keys =>
    show (w.under p).Beside ((w.eraseAll _).under p)
    rw [under_eraseAll_other h]
    exact .refl
  | createMultipartUpload key =>
    refine ⟨rfl, ?_, Nat.le_succ _, le_rfl⟩
    -- no upload has the new id, and the new one is elsewhere
    have hnone : uploadUnder p (w.fresh, ⟨prefixedKey (some q) key, []⟩) = none := by
      simp [uploadUnder, h.strip key]
    show (insertKey _ _ _).filterMap _ = _
    unfold insertKey
    rw [List.filterMap_cons_none hnone]
    refine filterMap_filter_of_none fun x hx hid => ?_
    have hid : x.1 = w.fresh := by simpa using hid
    exact absurd (hw.below x hx) (hid ▸ lt_irrefl _)
  | uploadPart key id pn data =>
    simp only [S3Op.prefixed, S3Op.perform]
    split
    · rename_i u hu
      split
      · exact .refl
      · rename_i hkey
        have hkey : u.key = prefixedKey (some q) key := by simpa using hkey
        have hnone : ∀ parts, uploadUnder p (id, ⟨prefixedKey (some q) key, parts⟩) = none := by
          intro parts
          simp [uploadUnder, h.strip key]
        refine ⟨rfl, ?_, le_rfl, le_rfl⟩
        show (insertKey _ _ _).filterMap _ = _
        unfold insertKey
        rw [List.filterMap_cons_none (hnone _)]
        refine filterMap_eraseKey_upload_other hw h fun u' hu' => ?_
        obtain rfl := Option.some.inj (hu.symm.trans hu')
        exact ⟨key, hkey⟩
    · exact .refl
  | completeMultipartUpload key id parts =>
    simp only [S3Op.prefixed, S3Op.perform]
    split
    · rename_i u hu
      split
      · exact .refl
      · rename_i hkey
        have hkey : u.key = prefixedKey (some q) key := by simpa using hkey
        split
        · exact .refl
        · split
          · refine ⟨under_putBody_other h key _, ?_, Nat.le_succ _, le_rfl⟩
            refine filterMap_eraseKey_upload_other hw h fun u' hu' => ?_
            obtain rfl := Option.some.inj (hu.symm.trans hu')
            exact ⟨key, hkey⟩
          · exact .refl
    · exact .refl
  | abortMultipartUpload key id =>
    refine ⟨rfl, ?_, le_rfl, le_rfl⟩
    refine filterMap_eraseKey_upload_other hw h fun u hu => ⟨key, ?_⟩
    by_contra hne
    exact hown ⟨u, hu, hne⟩

theorem S3Answers.elsewhere (h : PrefixesApart p q) (hw : w.Numbered) {o : S3Op}
    (hown : ¬ Op.AbortsForeign w (.s3 (o.prefixed (some q))))
    {r : Except SdkError (S3Ok (o.prefixed (some q)))}
    (hans : S3Answers (o.prefixed (some q)) w r w') : (w.under p).Beside (w'.under p) := by
  have hperform := perform_beside h hw hown
  have hdone : ∀ r, (o.prefixed (some q)).perform w = (r, w') →
      (w.under p).Beside (w'.under p) := by
    intro r hr
    rwa [hr] at hperform
  have hgone : ∀ keys gone : List String, (∀ k ∈ gone, k ∈ keys.map (prefixedKey (some q))) →
      (w.under p).Beside ((w.eraseAll gone).under p) := by
    intro keys gone hsub
    obtain ⟨gone', -, rfl⟩ := exists_of_subset_prefixed hsub
    rw [under_eraseAll_other h]
    exact .refl
  cases r with
  | error e =>
    rcases hans with hans | hans
    · exact hdone _ hans
    · cases o with
      | deleteObjects keys =>
        obtain ⟨gone, hsub, rfl⟩ := hans
        exact hgone keys gone hsub
      | _ =>
        rcases hans with rfl | rfl
        · exact .refl
        · exact hperform
  | ok a =>
    cases o with
    | deleteObjects keys =>
      obtain ⟨gone, hsub, -, rfl⟩ := hans
      exact hgone keys gone hsub
    | _ => exact hdone _ hans

-- ---------------------------------------------------------------------------
-- Upload ids
-- ---------------------------------------------------------------------------

theorem World.Numbered.erase (hw : w.Numbered) (id : UploadId) {objects : List (String × Object)}
    {fresh : Nat} (hfresh : w.fresh ≤ fresh) {now : Int} :
    World.Numbered ⟨objects, eraseKey id w.uploads, fresh, now⟩ := by
  refine ⟨hw.nodup.sublist (List.filter_sublist.map _), fun x hx => ?_⟩
  exact lt_of_lt_of_le (hw.below x (List.mem_of_mem_filter hx)) hfresh

theorem World.Numbered.insert (hw : w.Numbered) {id : UploadId} (u : Upload)
    {objects : List (String × Object)} {fresh : Nat} (hid : id < fresh) (hfresh : w.fresh ≤ fresh)
    {now : Int} : World.Numbered ⟨objects, insertKey id u w.uploads, fresh, now⟩ := by
  have herase : World.Numbered ⟨objects, eraseKey id w.uploads, fresh, now⟩ := hw.erase id hfresh
  constructor
  · show (id :: (eraseKey id w.uploads).map Prod.fst).Nodup
    refine List.nodup_cons.mpr ⟨fun hmem => ?_, herase.nodup⟩
    obtain ⟨x, hx, rfl⟩ := List.mem_map.mp hmem
    simpa using List.of_mem_filter hx
  · intro x hx
    rcases List.mem_cons.mp hx with rfl | hx
    · exact hid
    · exact herase.below x hx

theorem World.Numbered.perform (hw : w.Numbered) (o : S3Op) : (o.perform w).2.Numbered := by
  have hsame : ∀ {objects : List (String × Object)} {fresh : Nat} {now : Int}, w.fresh ≤ fresh →
      World.Numbered ⟨objects, w.uploads, fresh, now⟩ :=
    fun hfresh => ⟨hw.nodup, fun x hx => lt_of_lt_of_le (hw.below x hx) hfresh⟩
  cases o with
  | listObjectsV2 pfx => exact hw
  | headObject key =>
    simp only [S3Op.perform]
    split <;> exact hw
  | getObject key =>
    simp only [S3Op.perform]
    split <;> exact hw
  | putObject key body ifMatch ifNoneMatch =>
    have hput : (w.putBody key body).Numbered := hsame (Nat.le_succ _)
    simp only [S3Op.perform]
    split
    · split
      · exact hw
      · exact hput
    · exact hw
    · split
      · exact hw
      · exact hput
    · exact hput
  | deleteObject key => exact hsame le_rfl
  | deleteObjects keys =>
    show (w.eraseAll keys).Numbered
    refine ⟨?_, ?_⟩
    · rw [World.uploads_eraseAll]
      exact hw.nodup
    · rw [World.uploads_eraseAll, World.fresh_eraseAll]
      exact hw.below
  | createMultipartUpload key => exact hw.insert _ (Nat.lt_succ_self _) (Nat.le_succ _)
  | uploadPart key id pn data =>
    simp only [S3Op.perform]
    split
    · rename_i u hu
      split
      · exact hw
      · exact hw.insert _ (hw.below _ (mem_of_lookup hu)) le_rfl
    · exact hw
  | completeMultipartUpload key id parts =>
    simp only [S3Op.perform]
    split
    · split
      · exact hw
      · split
        · exact hw
        · split
          · exact hw.erase id (Nat.le_succ _)
          · exact hw
    · exact hw
  | abortMultipartUpload key id => exact hw.erase id le_rfl

theorem World.Numbered.answers {op : Op} {r : Resp op} (hw : w.Numbered)
    (h : Answers op w r w') : w'.Numbered := by
  cases op with
  | env o => exact h.2 ▸ hw
  | s3 o =>
    have hdone : ∀ r, o.perform w = (r, w') → w'.Numbered := by
      intro r hr
      have := hw.perform o
      rwa [hr] at this
    have hgone : ∀ gone, (w.eraseAll gone).Numbered := fun gone => hw.perform (.deleteObjects gone)
    cases r with
    | error e =>
      rcases h with h | h
      · exact hdone _ h
      · cases o with
        | deleteObjects keys =>
          obtain ⟨gone, -, rfl⟩ := h
          exact hgone gone
        | _ =>
          rcases h with h | h
          · rw [h]
            exact hw
          · rw [h]
            exact hw.perform _
    | ok a =>
      cases o with
      | deleteObjects keys =>
        obtain ⟨gone, -, -, rfl⟩ := h
        exact hgone gone
      | _ => exact hdone _ h

-- ---------------------------------------------------------------------------
-- The tenants
-- ---------------------------------------------------------------------------

/-- The tenants of a bucket, as parties on one world: each sees what is below its
prefix. -/
def tenants {ι : Type} (pfx : ι → String)
    (hapart : ∀ i j, i ≠ j → PrefixesApart (pfx i) (pfx j)) :
    Parties ι SharedAnswers World.Ticks Answers World.Beside where
  layer i := prefixLayer (some (pfx i))
  view i w := w.under (pfx i)
  inv := World.Numbered
  keeps hw h := hw.answers h.1
  keepsBeside := by
    rintro w w' hw ⟨-, heq⟩
    rw [heq]
    exact ⟨hw.nodup, hw.below⟩
  sees := by
    intro i op w r w' hw h
    cases op with
    | s3 o => exact S3Answers.under hw h.1
    | env o =>
      obtain ⟨⟨henv, rfl⟩, -⟩ := h
      refine ⟨?_, rfl⟩
      cases o with
      | utcNow => exact henv
      | _ => trivial
  apart := by
    intro i j op w r w' hw hij h
    have hpq := hapart i j hij
    cases op with
    | s3 o =>
      by_cases hown : Op.AbortsForeign w (.s3 (o.prefixed (some (pfx j))))
      · rw [h.2 hown]
        exact .refl
      · exact S3Answers.elsewhere hpq hw hown h.1
    | env o =>
      rw [h.1.2]
      exact .refl
  besides := by
    rintro i w w' - ⟨hnow, heq⟩
    rw [heq] at hnow ⊢
    exact ⟨rfl, rfl, le_rfl, hnow⟩

/-- **Tenants of one bucket do not meet.** Whatever the commands of all tenants do
together in the bucket, in any interleaving and with any failures, each tenant's own
commands do in a bucket of their own, in which only time passes and ids are used up
beside them. -/
theorem tenants_apart {ι κ α : Type} [DecidableEq ι] [DecidableEq κ] {raw : ι → Option String}
    {pfx : ι → String} (hset : ∀ i, sanitizeS3Prefix (raw i) = some (pfx i))
    (hapart : ∀ i j, i ≠ j → PrefixesApart (pfx i) (pfx j)) {cmds : ι × κ → P α} {w : World}
    (hw : w.Numbered) {ps : ι × κ → P α} {w' : World}
    (hrun : Pool.Moves SharedAnswers World.Ticks
      (fun m => (cmds m).through (prefixLayer (sanitizeS3Prefix (raw m.1))), w) (ps, w')) :
    ∃ rest : ι × κ → P α,
      (ps = fun m => (rest m).through (prefixLayer (sanitizeS3Prefix (raw m.1)))) ∧
      ∀ i, Pool.Moves Answers World.Beside (fun k => cmds (i, k), w.under (pfx i))
        (fun k => rest (i, k), w'.under (pfx i)) := by
  have hlayer : ∀ cs : ι × κ → P α,
      (fun m => (cs m).through (prefixLayer (sanitizeS3Prefix (raw m.1)))) =
        (tenants pfx hapart).together cs := by
    intro cs
    funext m
    rw [hset]
    rfl
  rw [hlayer] at hrun
  obtain ⟨-, rest, hrest, hmoves⟩ := (tenants pfx hapart).project hw hrun
  refine ⟨rest, ?_, hmoves⟩
  rw [hlayer]
  exact hrest

-- ---------------------------------------------------------------------------
-- Two tenants
-- ---------------------------------------------------------------------------

/-- The settings of two tenants. -/
def twoSettings : Bool → Option String
  | true => some "/a/"
  | false => some "b"

def twoPrefixes : Bool → String
  | true => "a"
  | false => "b"

/-- Each of them holds its lock. -/
def bothLocked : World where
  objects := [("a/gc/.lock", ⟨.data [], 0, 0⟩), ("b/gc/.lock", ⟨.data [], 1, 0⟩)]
  fresh := 2

/-- Both are to remove it. -/
def bothRemove (m : Bool × Unit) : P Unit :=
  (deleteObject LOCK_KEY).through (prefixLayer (sanitizeS3Prefix (twoSettings m.1)))

/-- One of them does; the other's bucket is as it was. -/
theorem tenants_apart_two : ∃ rest : Bool × Unit → P Unit,
    (Function.update bothRemove (true, ()) (.done ()) =
      fun m => (rest m).through (prefixLayer (sanitizeS3Prefix (twoSettings m.1)))) ∧
    ∀ i, Pool.Moves Answers World.Beside
      (fun _ : Unit => deleteObject LOCK_KEY, bothLocked.under (twoPrefixes i))
      (fun k => rest (i, k), (bothLocked.erase "a/gc/.lock").under (twoPrefixes i)) := by
  have hset : ∀ i, sanitizeS3Prefix (twoSettings i) = some (twoPrefixes i) := by decide
  have hapart : ∀ i j, i ≠ j → PrefixesApart (twoPrefixes i) (twoPrefixes j) := by decide
  have hnumbered : bothLocked.Numbered := ⟨by decide, by decide⟩
  have hans : SharedAnswers (.s3 (.deleteObject "a/gc/.lock")) bothLocked (.ok ())
      (bothLocked.erase "a/gc/.lock") := ⟨rfl, fun h => h.elim⟩
  have hcall : bothRemove (true, ()) = .call (.s3 (.deleteObject "a/gc/.lock")) fun r =>
      ((orContext ("Failed to delete " ++ LOCK_KEY) (r.map id)).through
        (prefixLayer (some "a")) : P Unit) := by
    unfold bothRemove
    rw [hset]
    rfl
  have hstep : Pool.Step SharedAnswers (bothRemove, bothLocked)
      (Function.update bothRemove (true, ()) (.done ()), bothLocked.erase "a/gc/.lock") :=
    .call hcall hans
  exact tenants_apart hset hapart hnumbered (.single (.call hstep))

end Chbk
