import Chbk.Safety.Listing
import Chbk.Safety.Uploads

/-!
# What a backup uploads, and how often

The uploads of a backup against what it was told: it begins one for a blob that is
missing, once, and when it ends well it has completed one for each of them.

* `Ledger.Wants` — the blob at a key is missing.
* `EconomyRule` — what a backup may do about a key.
* `spends_uploadPartArchives` — the uploads keep to it, whatever fails.
* `uploads_once` — so does every run of the command.
-/

namespace Chbk

open Lib Prog

-- ---------------------------------------------------------------------------
-- The rule
-- ---------------------------------------------------------------------------

/-- The blob at a key is missing: a part of the last list has it, and neither the
manifest that was read nor a HEAD check knows it. -/
def Ledger.Wants (v : Ledger) (key : String) : Prop :=
  ∃ p ∈ v.listing, key = blobRemoteKey p.hashOfAllFiles ∧
    p.hashOfAllFiles ∉ v.latest.map ManifestPart.blobHash ∧ key ∉ v.found.map Prod.fst

/-- The keys of the completed uploads. -/
def Ledger.uploadedKeys (v : Ledger) : List String := v.uploaded.map Prod.fst

/-- What a backup was told, and the keys for which it has begun an upload. -/
structure Economy where
  ledger : Ledger := {}
  begun : List String := []

/-- The key of the upload that an answer begins. -/
def begins : (op : Op) → Resp op → List String
  | .s3 (.createMultipartUpload key), .ok _ => [key]
  | _, _ => []

/-- The watch over both. -/
def economyWatch (json : Json) (cfg : Config) : Watch Op Resp Economy where
  init := {}
  observe v op r := ⟨v.ledger.observe json cfg op r, begins op r ++ v.begun⟩

/-- An upload is begun for a missing blob, and for no key again; parts are sent, and
it is completed, where it was begun and none was completed. -/
def EconomyRule (v : Economy) : Op → Prop
  | .s3 (.createMultipartUpload key) =>
    v.ledger.Wants key ∧ key ∉ v.begun ∧ key ∉ v.ledger.uploadedKeys
  | .s3 (.uploadPart key _ _ _) => key ∈ v.begun ∧ key ∉ v.ledger.uploadedKeys
  | .s3 (.completeMultipartUpload key _ _) =>
    v.ledger.Wants key ∧ key ∈ v.begun ∧ key ∉ v.ledger.uploadedKeys
  | _ => True

/-- Calls that are free of the rule. -/
def Idle : Op → Prop
  | .s3 (.createMultipartUpload _) | .s3 (.uploadPart ..) | .s3 (.completeMultipartUpload ..) =>
    False
  | _ => True

theorem Idle.rule {op : Op} (h : Idle op) (v : Economy) : EconomyRule v op := by
  cases op with
  | env o => trivial
  | s3 o => cases o <;> trivial

theorem Idle.begins {op : Op} (h : Idle op) (r : Resp op) : begins op r = [] := by
  cases op with
  | env o => rfl
  | s3 o => cases o <;> first | rfl | exact h.elim

theorem Quiet.idle {op : Op} (h : Quiet op) : Idle op := by
  match op, h with
  | .env o, h => trivial
  | .s3 (.listObjectsV2 _), _ => trivial
  | .s3 (.abortMultipartUpload ..), _ => trivial

/-- A piece of a backup that keeps to the rule. -/
def Spends {α : Type} (json : Json) (cfg : Config) (p : P α) (v : Economy)
    (Q : α → Economy → Prop) : Prop :=
  Follows (economyWatch json cfg) EconomyRule p v Q fun _ _ => True

section

variable {json : Json} {cfg : Config} {v : Economy}

theorem Spends.bind {α β : Type} {p : P α} {f : α → P β} {R : α → Economy → Prop}
    {Q : β → Economy → Prop} (h : Spends json cfg p v R)
    (hf : ∀ a v', R a v' → Spends json cfg (f a) v' Q) : Spends json cfg (p >>= f) v Q :=
  Follows.bind h hf

/-- A piece that works on no upload leaves in the ledger what it tells. -/
theorem Spends.of_tells {α : Type} {p : P α} {Q : α → Ledger → Prop}
    (h : Tells json cfg p v.ledger Q) (hp : Only Idle p) :
    Spends json cfg p v fun a v' => Q a v'.ledger ∧ v'.begun = v.begun := by
  have htold : Follows (economyWatch json cfg) (fun v op => LedgerRule v.ledger op) p v
      (fun a v' => Q a v'.ledger) (fun e v' => Honest e v'.ledger) :=
    Follows.seen (fun _ _ _ => rfl) h
  have hidle : Spends json cfg p v fun _ v' => v'.begun = v.begun := by
    refine Follows.mono (hp.follows (I := fun v' => v'.begun = v.begun)
      (fun v' _ hop _ => hop.rule v') ?_ rfl) (fun _ _ h => h) fun _ _ _ => trivial
    intro v' op r hop hv'
    show Chbk.begins op r ++ v'.begun = v.begun
    rw [hop.begins r, hv']
    rfl
  exact Follows.mono ((htold.and hidle).weaken fun _ _ h => h.2) (fun _ _ h => h)
    fun _ _ _ => trivial

theorem Spends.liftP {α : Type} {x : Except AnyError α} {Q : α → Economy → Prop}
    (h : ∀ a, x = .ok a → Q a v) : Spends json cfg (Chbk.liftP x) v Q :=
  follows_liftP h fun _ _ => trivial

-- ---------------------------------------------------------------------------
-- One upload
-- ---------------------------------------------------------------------------

/-- Nothing is begun or completed in between. -/
structure Sending (v v' : Economy) : Prop where
  ledger : ∃ sent es, v'.ledger = { v.ledger with sent := sent, told := es }
  begun : v'.begun = v.begun

/-- Work on the blobs at these keys, whether it fails or not. -/
structure Worked (keys : List String) (v v' : Economy) : Prop where
  uploading : Uploading v.ledger v'.ledger
  begun : ∀ k ∈ v'.begun, k ∈ v.begun ∨ k ∈ keys
  uploaded : ∀ k ∈ v'.ledger.uploadedKeys, k ∈ v.ledger.uploadedKeys ∨ k ∈ keys

/-- An upload may be begun for this key. -/
structure Ready (key : String) (v : Economy) : Prop where
  wants : v.ledger.Wants key
  fresh : key ∉ v.begun
  missing : key ∉ v.ledger.uploadedKeys

theorem Sending.refl (v : Economy) : Sending v v := ⟨⟨_, _, rfl⟩, rfl⟩

theorem Sending.uploadedKeys {v' : Economy} (h : Sending v v') :
    v'.ledger.uploadedKeys = v.ledger.uploadedKeys := by
  obtain ⟨sent, es, hledger⟩ := h.ledger
  rw [hledger]
  rfl

theorem Sending.wants {v' : Economy} (h : Sending v v') (key : String) :
    v'.ledger.Wants key ↔ v.ledger.Wants key := by
  obtain ⟨sent, es, hledger⟩ := h.ledger
  rw [hledger]
  rfl

theorem Sending.ready {key : String} {v' : Economy} (h : Sending v v') (hv : Ready key v) :
    Ready key v' :=
  ⟨(h.wants key).mpr hv.wants, h.begun ▸ hv.fresh, h.uploadedKeys ▸ hv.missing⟩

theorem Sending.worked {keys : List String} {v₁ v₂ : Economy} (h : Sending v v₁)
    (h' : Worked keys v₁ v₂) : Worked keys v v₂ := by
  obtain ⟨⟨sent, es, hledger⟩, hbegun⟩ := h
  obtain ⟨⟨sent', uploaded, es', hledger'⟩, hbegun', huploaded⟩ := h'
  rw [hbegun] at hbegun'
  rw [hledger] at huploaded
  exact ⟨⟨sent', uploaded, es', by rw [hledger', hledger]⟩, hbegun', huploaded⟩

theorem Worked.sending {keys : List String} {v₁ v₂ : Economy} (h : Worked keys v v₁)
    (h' : Sending v₁ v₂) : Worked keys v v₂ := by
  obtain ⟨⟨sent, uploaded, es, hledger⟩, hbegun, huploaded⟩ := h
  obtain ⟨⟨sent', es', hledger'⟩, hbegun'⟩ := h'
  refine ⟨⟨sent', uploaded, es', by rw [hledger', hledger]⟩, ?_, ?_⟩
  · rw [hbegun']
    exact hbegun
  · rw [hledger']
    exact huploaded

theorem Worked.refl (keys : List String) (v : Economy) : Worked keys v v :=
  ⟨⟨_, _, _, rfl⟩, fun _ hk => .inl hk, fun _ hk => .inl hk⟩

theorem Worked.snoc {keys : List String} {key : String} {v₁ v₂ : Economy}
    (h : Worked keys v v₁) (h' : Worked [key] v₁ v₂) : Worked (keys ++ [key]) v v₂ := by
  obtain ⟨⟨sent, uploaded, es, hledger⟩, hbegun, huploaded⟩ := h
  obtain ⟨⟨sent', uploaded', es', hledger'⟩, hbegun', huploaded'⟩ := h'
  refine ⟨⟨sent', uploaded', es', by rw [hledger', hledger]⟩, fun k hk => ?_, fun k hk => ?_⟩
  · rcases hbegun' k hk with hk | hk
    · exact (hbegun k hk).imp_right (List.mem_append_left _)
    · exact .inr (List.mem_append_right _ hk)
  · rcases huploaded' k hk with hk | hk
    · exact (huploaded k hk).imp_right (List.mem_append_left _)
    · exact .inr (List.mem_append_right _ hk)

theorem Worked.wants {keys : List String} {v' : Economy} (h : Worked keys v v') (key : String) :
    v'.ledger.Wants key ↔ v.ledger.Wants key := by
  obtain ⟨sent, uploaded, es, hledger⟩ := h.uploading
  rw [hledger]
  rfl

/-- Work on other keys leaves this one as it was. -/
theorem Worked.ready {keys : List String} {key : String} {v' : Economy} (h : Worked keys v v')
    (hv : Ready key v) (hkey : key ∉ keys) : Ready key v' where
  wants := (h.wants key).mpr hv.wants
  fresh hin := (h.begun key hin).elim hv.fresh hkey
  missing hin := (h.uploaded key hin).elim hv.missing hkey

/-- The calls of a piece that neither begins nor ends an upload. -/
def Lesser : Op → Prop
  | .env (.runQuery _) | .env (.readFile _) | .env (.walkFiles _) | .env (.stagePart ..) => False
  | .env _ => True
  | .s3 (.abortMultipartUpload ..) => True
  | _ => False

theorem Lesser.idle {op : Op} (h : Lesser op) : Idle op := by
  match op, h with
  | .env _, _ => trivial
  | .s3 (.abortMultipartUpload ..), _ => trivial

theorem Lesser.sending {op : Op} (h : Lesser op) (r : Resp op) {v' : Economy}
    (hv : Sending v v') : Sending v ((economyWatch json cfg).observe v' op r) := by
  obtain ⟨⟨sent, es, hledger⟩, hbegun⟩ := hv
  refine ⟨⟨sent, heard op r ++ es, ?_⟩, ?_⟩
  · show Ledger.observe json cfg v'.ledger op r = _
    unfold Ledger.observe
    rw [hledger]
    match op, h with
    | .env o, h => cases o <;> first | rfl | exact h.elim
    | .s3 (.abortMultipartUpload ..), _ => rfl
  · show begins op r ++ v'.begun = v.begun
    rw [h.idle.begins r, hbegun]
    rfl

theorem sending_of_only {α : Type} {p : P α} (h : Only Lesser p) :
    Follows (economyWatch json cfg) EconomyRule p v (fun _ v' => Sending v v')
      fun _ v' => Sending v v' :=
  h.follows (fun v' _ hop _ => hop.idle.rule v') (fun _ _ r hop hv => hop.sending r hv)
    (Sending.refl v)

/-- A retried request: its failures are told, and so is the answer it ends with. -/
theorem spends_s3Retry {o : S3Op} {Q : S3Ok o → Economy → Prop}
    (hrule : ∀ v', Sending v v' → EconomyRule v' (.s3 o))
    (herr : ∀ v' e, Sending v v' → Sending v ((economyWatch json cfg).observe v' (.s3 o) (.error e)))
    (hok : ∀ v' a, Sending v v' → Q a ((economyWatch json cfg).observe v' (.s3 o) (.ok a))) :
    Follows (economyWatch json cfg) EconomyRule (s3Retry o) v Q fun _ v' => Sending v v' :=
  follows_s3Retry hrule herr hok (Sending.refl v)

theorem spends_uploadOnePart {key : String} {id : UploadId} {part : Nat × Bytes}
    (hbegun : key ∈ v.begun) (hmissing : key ∉ v.ledger.uploadedKeys) :
    Follows (economyWatch json cfg) EconomyRule (uploadOnePart key id part) v
      (fun _ v' => Sending v v') fun _ v' => Sending v v' := by
  refine Follows.bind (spends_s3Retry (Q := fun _ v' => Sending v v') ?_ ?_ ?_)
    fun _ _ hv => Follows.pure hv
  · intro v' hv
    exact ⟨hv.begun ▸ hbegun, hv.uploadedKeys ▸ hmissing⟩
  · rintro v' e ⟨⟨sent, es, hledger⟩, hv⟩
    exact ⟨⟨sent, es, by rw [← hledger]; rfl⟩, hv⟩
  · rintro v' a ⟨⟨sent, es, hledger⟩, hv⟩
    exact ⟨⟨(id, part.2.length) :: sent, es, by
      show Ledger.observe json cfg v'.ledger _ _ = _
      rw [hledger]
      rfl⟩, hv⟩

theorem Sending.trans {v₁ v₂ : Economy} (h : Sending v v₁) (h' : Sending v₁ v₂) :
    Sending v v₂ := by
  obtain ⟨⟨sent, es, hledger⟩, hbegun⟩ := h
  obtain ⟨⟨sent', es', hledger'⟩, hbegun'⟩ := h'
  exact ⟨⟨sent', es', by rw [hledger', hledger]⟩, hbegun'.trans hbegun⟩

/-- What goes on behind the begin of an upload. -/
theorem spends_putObjectMultipartReaderInner {storage : Storage} {key : String} {id : UploadId}
    {reader : Reader} {expectedSize : Nat} (hwants : v.ledger.Wants key) (hbegun : key ∈ v.begun)
    (hmissing : key ∉ v.ledger.uploadedKeys) :
    Follows (economyWatch json cfg) EconomyRule
      (putObjectMultipartReaderInner storage key id reader expectedSize) v
      (fun _ v' => Worked [key] v v') fun _ v' => Worked [key] v v' := by
  unfold putObjectMultipartReaderInner
  dsimp only
  refine Follows.bind (Follows.mono (sending_of_only (only_ask trivial)) (fun _ _ h => h)
    fun _ _ h => (Worked.refl [key] v).sending h) fun order v₁ hv₁ => ?_
  refine Follows.bind (follows_collect (fun _ _ v' => Sending v v') ?_ hv₁) fun done v₂ hv₂ => ?_
  · intro pre done part post v' _ hv
    refine Follows.mono (spends_uploadOnePart (hv.begun ▸ hbegun) (hv.uploadedKeys ▸ hmissing))
      (fun _ _ h => hv.trans h) fun _ _ h => (Worked.refl [key] v).sending (hv.trans h)
  · refine Follows.bind (R := fun _ v' => v' = v₂) (follows_liftP (fun _ _ => rfl)
      fun _ _ => (Worked.refl [key] v).sending hv₂) fun _ v₃ hv₃ => ?_
    subst hv₃
    refine Follows.bind (Follows.mapFail (Follows.mono
      (spends_s3Retry (Q := fun _ v' => Worked [key] v v') ?_ ?_ ?_) (fun _ _ h => h)
        fun _ _ h => (Worked.refl [key] v).sending (hv₂.trans h))) fun _ _ hv => Follows.pure hv
    · intro v' hv
      have hv' := hv₂.trans hv
      exact ⟨(hv'.wants key).mpr hwants, hv'.begun ▸ hbegun, hv'.uploadedKeys ▸ hmissing⟩
    · rintro v' e ⟨⟨sent, es, hledger⟩, hv⟩
      exact ⟨⟨sent, es, by rw [← hledger]; rfl⟩, hv⟩
    · -- the upload is entered under its key
      intro v' a hv
      obtain ⟨⟨sent, es, hledger⟩, hv'⟩ := hv₂.trans hv
      refine ⟨⟨sent, (key, v'.ledger.sentTo id) :: v'.ledger.uploaded, es, ?_⟩, ?_, ?_⟩
      · show Ledger.observe json cfg v'.ledger _ _ = _
        rw [hledger]
        rfl
      · intro k hk
        exact .inl (hv' ▸ hk)
      · intro k hk
        rcases List.mem_cons.mp hk with rfl | hk
        · exact .inr (List.mem_singleton_self _)
        · rw [hledger] at hk
          exact .inl hk

theorem spends_putObjectMultipartReader {storage : Storage} {key : String} {reader : Reader}
    {expectedSize : Nat} (h : Ready key v) :
    Follows (economyWatch json cfg) EconomyRule
      (putObjectMultipartReader storage key reader expectedSize) v
      (fun _ v' => Worked [key] v v') fun _ v' => Worked [key] v v' := by
  unfold putObjectMultipartReader
  refine Follows.bind (R := fun _ v' => ∃ v₀, Sending v v₀ ∧ v'.begun = key :: v₀.begun ∧
    ∃ sent, v'.ledger = { v₀.ledger with sent := sent }) (Follows.mapFail (Follows.mono
      (spends_s3Retry ?_ ?_ ?_) (fun _ _ h => h)
        fun _ _ h => (Worked.refl [key] v).sending h)) fun id v₁ hv₁ => ?_
  · intro v' hv
    have hready := hv.ready h
    exact ⟨hready.wants, hready.fresh, hready.missing⟩
  · rintro v' e ⟨⟨sent, es, hledger⟩, hv⟩
    exact ⟨⟨sent, es, by rw [← hledger]; rfl⟩, hv⟩
  · intro v' id hv
    exact ⟨v', hv, rfl, _, rfl⟩
  · obtain ⟨v₀, hv₀, hbegun, sent, hledger⟩ := hv₁
    have hready := hv₀.ready h
    -- from here on the key is among those begun
    have hworked : ∀ v', Worked [key] v₁ v' → Worked [key] v v' := by
      rintro v' ⟨⟨sent', uploaded, es, hup⟩, hbegun', huploaded⟩
      refine hv₀.worked ⟨⟨sent', uploaded, es, by rw [hup, hledger]⟩, ?_, ?_⟩
      · intro k hk
        rcases hbegun' k hk with hk | hk
        · rw [hbegun] at hk
          exact (List.mem_cons.mp hk).symm.imp_right List.mem_singleton.mpr
        · exact .inr hk
      · rw [hledger] at huploaded
        exact huploaded
    have hwants : v₁.ledger.Wants key := by
      rw [hledger]
      exact hready.wants
    have hmissing : key ∉ v₁.ledger.uploadedKeys := by
      rw [hledger]
      exact hready.missing
    have hin : key ∈ v₁.begun := hbegun ▸ List.mem_cons_self ..
    refine Follows.bind (R := fun _ v' => Worked [key] v₁ v') (Follows.attempt
      (spends_putObjectMultipartReaderInner hwants hin hmissing)) fun r v₂ hv₂ => ?_
    cases r with
    | ok total => exact Follows.pure (hworked v₂ hv₂)
    | error e =>
      refine Follows.bind (Follows.mono (sending_of_only (only_ask trivial)) (fun _ _ h => h)
        fun _ v' h => hworked v' (hv₂.sending h)) fun _ v' hv => ?_
      exact Follows.throw (hworked v' (hv₂.sending hv))

theorem spends_uploadPartArchive (storage : Storage) {hash : String}
    (h : Ready (blobRemoteKey hash) v) :
    Follows (economyWatch json cfg) EconomyRule (uploadPartArchive storage cfg hash) v
      (fun _ v' => Worked [blobRemoteKey hash] v v')
      fun _ v' => Worked [blobRemoteKey hash] v v' := by
  have hfail : ∀ {v'}, Sending v v' → Worked [blobRemoteKey hash] v v' :=
    fun hv => (Worked.refl _ v).sending hv
  have hquiet : ∀ {α : Type} {p : P α} {v'}, Only Lesser p → Sending v v' →
      Follows (economyWatch json cfg) EconomyRule p v' (fun _ v'' => Sending v v'')
        fun _ v'' => Worked [blobRemoteKey hash] v v'' := fun hp hv =>
    Follows.mono (sending_of_only hp) (fun _ _ h => hv.trans h) fun _ _ h => hfail (hv.trans h)
  have hdone : ∀ {α : Type} {p : P α} {v'}, Only Lesser p → Worked [blobRemoteKey hash] v v' →
      Follows (economyWatch json cfg) EconomyRule p v'
        (fun _ v'' => Worked [blobRemoteKey hash] v v'')
        fun _ v'' => Worked [blobRemoteKey hash] v v'' := fun hp hv =>
    Follows.mono (sending_of_only hp) (fun _ _ h => hv.sending h) fun _ _ h => hv.sending h
  unfold uploadPartArchive
  refine Follows.bind (hquiet (only_ask trivial) (Sending.refl v)) fun r v₁ hv₁ => ?_
  refine Follows.bind (hquiet (only_liftP r) hv₁) fun files v₂ hv₂ => ?_
  refine Follows.bind (hquiet (only_ask trivial) hv₂) fun openFile v₃ hv₃ => ?_
  refine Follows.bind (hquiet (only_ask trivial) hv₃) fun cuts v₄ hv₄ => ?_
  refine Follows.bind (Follows.mapFail (Follows.mono
    (spends_putObjectMultipartReader (hv₄.ready h)) (fun _ _ h => hv₄.worked h)
      fun _ _ h => hv₄.worked h)) fun uploaded v₅ hv₅ => ?_
  refine Follows.bind (hdone (only_liftP _) hv₅) fun written v₆ hv₆ => ?_
  have hclean : Only Lesser (Prog.mapFail
      (withContext ("Failed to clean up staged part " ++ hash))
      (localStep ("remove " ++ stagedDir cfg hash))) :=
    Only.mapFail (Only.bind (only_ask trivial) fun _ => only_liftP _)
  split
  · exact Follows.bind (hdone (only_throw _) hv₆) fun _ _ hv =>
      Follows.bind (hdone hclean hv) fun _ _ hv => Follows.pure hv
  · exact Follows.bind (hdone hclean hv₆) fun _ _ hv => Follows.pure hv

-- ---------------------------------------------------------------------------
-- All uploads
-- ---------------------------------------------------------------------------

/-- **The uploads, in any order and whatever fails**: each of the hashes is ready when
its turn comes, as work on the others leaves it so. -/
theorem spends_uploadPartArchives (storage : Storage) {hashes : List String}
    (hnodup : hashes.Nodup) (hready : ∀ h ∈ hashes, Ready (blobRemoteKey h) v) :
    Spends json cfg (uploadPartArchives storage cfg hashes) v
      fun _ v' => ∀ key, v'.ledger.Wants key ↔ v.ledger.Wants key := by
  unfold uploadPartArchives
  refine Spends.bind (Follows.mono (sending_of_only (only_ask trivial)) (fun _ _ h => h)
    fun _ _ _ => trivial) fun order v₁ hv₁ => ?_
  refine Spends.bind (R := fun _ v' => Worked (hashes.map blobRemoteKey) v v')
    (Follows.mono (follows_collect (E := fun _ _ => False)
      (fun pre _ v' => Worked (pre.map blobRemoteKey) v v') ?_ ((Worked.refl _ v).sending hv₁))
      (fun _ _ h => ?_) fun _ _ h => h.elim) fun results v₂ hv₂ => ?_
  · intro pre results hash post v' hsplit hv
    have hmem : hash ∈ reorder order hashes := by
      rw [hsplit]
      exact List.mem_append_right _ (List.mem_cons_self ..)
    have hother : hash ∉ pre := by
      have hnodup' : (pre ++ hash :: post).Nodup := hsplit ▸ (reorder_perm _ _).nodup_iff.mpr hnodup
      exact fun hin => List.disjoint_of_nodup_append hnodup' hin (List.mem_cons_self ..)
    have hkey : blobRemoteKey hash ∉ pre.map blobRemoteKey := by
      intro hin
      obtain ⟨h, hh, heq⟩ := List.mem_map.mp hin
      exact hother (blobRemoteKey_inj heq ▸ hh)
    have hnext : ∀ v'', Worked [blobRemoteKey hash] v' v'' →
        Worked ((pre ++ [hash]).map blobRemoteKey) v v'' := by
      intro v'' h
      rw [List.map_append]
      exact hv.snoc h
    exact Follows.attempt (Follows.mono (spends_uploadPartArchive storage
      (hv.ready (hready hash (mem_reorder.mp hmem)) hkey)) (fun _ => hnext) fun _ => hnext)
  · obtain ⟨hup, hbegun, huploaded⟩ := h
    have hkeys : ∀ k, k ∈ (reorder order hashes).map blobRemoteKey →
        k ∈ hashes.map blobRemoteKey := fun k hk =>
      (((reorder_perm _ _).map blobRemoteKey).mem_iff).mp hk
    exact ⟨hup, fun k hk => (hbegun k hk).imp_right (hkeys k),
      fun k hk => (huploaded k hk).imp_right (hkeys k)⟩
  · refine Follows.mono ((only_collect fun r _ => only_liftP r).follows (S := fun _ => False)
      (I := fun v' => v' = v₂) (fun _ _ h => h.elim) (fun _ _ _ h => h.elim) rfl) ?_
      fun _ _ _ => trivial
    rintro _ v' rfl key
    exact hv₂.wants key

-- ---------------------------------------------------------------------------
-- The command
-- ---------------------------------------------------------------------------

/-- The uploads that pass the check are those of the missing blobs. -/
theorem Prepared.wants_iff {known : List (String × UInt64)} {head : List (String × Nat)}
    {staged up : List String} {v : Ledger} (h : Prepared known head staged v)
    (hup : uploadHashes (needUpload known v) staged (head.map Prod.fst) = .ok up) (key : String) :
    v.Wants key ↔ key ∈ up.map blobRemoteKey := by
  obtain ⟨rfl, hcover⟩ := uploadHashes_ok hup
  constructor
  · rintro ⟨p, hp, rfl, hknown, hfound⟩
    have hneed := mem_needUpload.mpr ⟨List.mem_map_of_mem hp,
      fun hk => hknown (h.mem_known.mp hk)⟩
    rcases hcover _ hneed with hhead | hin
    · obtain ⟨x, hx, hxp⟩ := List.mem_map.mp hhead
      refine absurd (List.mem_map.mpr ⟨_, h.mem_found.mpr hx, ?_⟩) hfound
      rw [← hxp]
    · exact List.mem_map_of_mem hin
  · intro hkey
    obtain ⟨hash, hin, rfl⟩ := List.mem_map.mp hkey
    obtain ⟨hneed, hhead⟩ := of_decide_eq_true (List.mem_filter.mp hin).2
    obtain ⟨hlist, hknown⟩ := mem_needUpload.mp hneed
    obtain ⟨p, hp, rfl⟩ := List.mem_map.mp hlist
    refine ⟨p, hp, rfl, fun hk => hknown (h.mem_known.mpr hk), fun hfound => ?_⟩
    obtain ⟨x, hx, hxp⟩ := List.mem_map.mp hfound
    rw [h.found, List.mem_reverse] at hx
    obtain ⟨y, hy, rfl⟩ := List.mem_map.mp hx
    exact hhead (List.mem_map.mpr ⟨y, hy, blobRemoteKey_inj hxp⟩)

/-- What is missing has been uploaded, and nothing else. -/
def Balanced (v : Economy) : Prop := ∀ key, key ∈ v.ledger.uploadedKeys ↔ v.ledger.Wants key

theorem Balanced.sending {v' : Economy} (h : Balanced v) (hv : Sending v v') : Balanced v' := by
  intro key
  rw [hv.uploadedKeys, hv.wants]
  exact h key

theorem Spends.balanced {α : Type} {p : P α} (h : Balanced v) (hp : Only Lesser p) :
    Spends json cfg p v fun _ v' => Balanced v' :=
  Follows.mono (sending_of_only hp) (fun _ _ hv => h.sending hv) fun _ _ _ => trivial

theorem spends_uploadPhase {storage : Storage} {known : List (String × UInt64)}
    {head : List (String × Nat)} {staged : List String} (h : Prepared known head staged v.ledger)
    (hbegun : v.begun = []) :
    Spends json cfg (uploadPhase storage cfg known head staged v.ledger.listing) v
      fun _ v' => Balanced v' := by
  unfold uploadPhase
  dsimp only
  refine Spends.bind (R := fun up v' => v' = v ∧
    uploadHashes (needUpload known v.ledger) staged (head.map Prod.fst) = .ok up)
    (Spends.liftP fun up hup => ⟨rfl, hup⟩) fun up v₁ hv₁ => ?_
  obtain ⟨rfl, hup⟩ := hv₁
  have hlocal : ∀ what, Only Lesser (localStep what) := fun what =>
    Only.bind (only_ask trivial) fun _ => only_liftP _
  refine Spends.bind (Follows.mono (sending_of_only (hlocal _)) (fun _ _ h => h)
    fun _ _ _ => trivial) fun _ v₂ hv₂ => ?_
  have hnodup : up.Nodup := by
    rw [(uploadHashes_ok hup).1]
    exact h.stagedNodup.sublist List.filter_sublist
  have hready : ∀ hash ∈ up, Ready (blobRemoteKey hash) v₂ := by
    intro hash hhash
    refine hv₂.ready ⟨(h.wants_iff hup _).mpr (List.mem_map_of_mem hhash), ?_, ?_⟩
    · rw [hbegun]
      exact List.not_mem_nil
    · rw [Ledger.uploadedKeys, h.fresh]
      exact List.not_mem_nil
  have hfresh : v₂.ledger.uploaded = [] := by
    obtain ⟨sent, es, hledger⟩ := hv₂.ledger
    rw [hledger]
    exact h.fresh
  refine Spends.bind (R := fun _ v' => Balanced v') ?_ fun new v₃ hv₃ => ?_
  · have htells : Tells json cfg (uploadPartArchives storage cfg up) v₂.ledger _ :=
      tells_uploadPartArchives storage up
    have htold : Follows (economyWatch json cfg) (fun v op => LedgerRule v.ledger op)
        (uploadPartArchives storage cfg up) v₂ _ _ :=
      Follows.seen (fun _ _ _ => rfl) htells
    have hspends : Spends json cfg (uploadPartArchives storage cfg up) v₂ _ :=
      spends_uploadPartArchives storage hnodup hready
    refine Follows.mono ((htold.and hspends).weaken fun _ _ h => h.2) ?_ fun _ _ _ => trivial
    rintro _ v' ⟨⟨ns, sent, es, -, hperm, hledger⟩, hwants⟩ key
    rw [hwants, hv₂.wants, h.wants_iff hup, Ledger.uploadedKeys, hledger]
    simp only [hfresh, List.append_nil, List.map_reverse, List.mem_reverse, List.map_map]
    rw [← (hperm.map blobRemoteKey).mem_iff, List.map_map]
    rfl
  · refine Spends.bind (Spends.balanced hv₃ (hlocal _)) fun _ v₄ hv₄ => ?_
    refine Spends.bind (Spends.balanced hv₄ (only_ask trivial)) fun order v₅ hv₅ => ?_
    exact Spends.balanced hv₅ (only_addSizes known _)

theorem idle_prepareParts (json : Json) (cfg : Config) (known : List String)
    (parts : List PartInfo) : Only Idle (prepareParts json cfg known parts) := by
  have hlocal : ∀ what, Only Idle (localStep what) := fun what =>
    (quiet_localStep what).mono fun _ h => h.idle
  refine (hlocal _).bind fun _ => (hlocal _).bind fun _ => (hlocal _).bind fun _ => ?_
  refine (only_headCheckExisting trivial (fun _ => trivial) _).bind fun head => ?_
  refine ((quiet_stagePasses json cfg _ _ _ _).mono fun _ h => h.idle).bind fun x => ?_
  exact ((quiet_metadataAttempts json cfg _ _).mono fun _ h => h.idle).bind fun _ => only_pure _

/-- A backup keeps to the rule, and ends well with all that is missing uploaded. -/
theorem spends_createSnapshot (json : Json) (cfg : Config) (name : Option String) :
    Spends json cfg (createSnapshot json cfg name) {} fun _ v' => Balanced v' := by
  have htells : ∀ {α : Type} {p : P α} {v : Economy} {Q : α → Ledger → Prop},
      Tells json cfg p v.ledger Q → Only Quiet p → Spends json cfg p v
        fun a v' => Q a v'.ledger ∧ v'.begun = v.begun := fun h hp =>
    Spends.of_tells h (hp.mono fun _ hop => hop.idle)
  refine Spends.bind (R := fun _ v' => v' = {}) (Follows.ask trivial fun _ => rfl)
    fun timestamp v₀ hv₀ => ?_
  subst hv₀
  refine Spends.bind (R := fun _ v' => v' = {}) (Spends.liftP fun _ _ => rfl)
    fun storage v₁ hv₁ => ?_
  subst hv₁
  refine Spends.bind (htells tells_queryParts (quiet_queryParts json cfg)) fun parts v₂ hv₂ => ?_
  obtain ⟨⟨es₂, hledger₂⟩, hbegun₂⟩ := hv₂
  refine Spends.bind (htells tells_resolveShardReplica (quiet_resolveShardReplica json cfg))
    fun ident v₃ hv₃ => ?_
  obtain ⟨⟨es₃, hledger₃⟩, hbegun₃⟩ := hv₃
  refine Spends.bind (htells (tells_nameOrAuto name ident.1 ident.2 timestamp)
    (quiet_nameOrAuto _ _ _ _)) fun snapshotName v₄ hv₄ => ?_
  obtain ⟨hledger₄, hbegun₄⟩ := hv₄
  have hbare : v₄.ledger = { listing := parts, told := es₃ } := by
    rw [hledger₄, hledger₃, hledger₂]
  refine Spends.bind (Spends.of_tells (tells_loadKnown ident.1 ident.2 (by rw [hbare]))
    (only_loadKnown trivial fun _ => trivial)) fun known v₅ hv₅ => ?_
  obtain ⟨⟨latest, hledger₅, hknown⟩, hbegun₅⟩ := hv₅
  rw [hbare] at hledger₅
  have hlisting : v₅.ledger.listing = parts := by rw [hledger₅]
  have hbegun : Begun known v₅.ledger := by
    rw [hledger₅]
    exact ⟨hknown, rfl, rfl, rfl, rfl⟩
  refine Spends.bind (Spends.of_tells (hlisting ▸ tells_prepareParts hbegun)
    (idle_prepareParts json cfg _ parts)) fun prep v₆ hv₆ => ?_
  obtain ⟨⟨hprep, hlist, -⟩, hbegun₆⟩ := hv₆
  have hnone : v₆.begun = [] := by
    rw [hbegun₆, hbegun₅, hbegun₄, hbegun₃, hbegun₂]
  have hphase : Spends json cfg (uploadPhase storage cfg known prep.1 prep.2.1 v₆.ledger.listing)
      v₆ fun _ v' => Balanced v' := spends_uploadPhase hprep hnone
  rw [hlist] at hphase
  refine Spends.bind hphase fun sizes v₇ hv₇ => ?_
  refine Spends.bind (Spends.balanced hv₇ (only_liftP _)) fun manifestParts v₈ hv₈ => ?_
  refine Spends.bind (Spends.balanced hv₈ (only_ask trivial)) fun createdBy v₉ hv₉ => ?_
  refine Spends.bind (R := fun _ v' => Balanced v') ?_ fun _ _ h => Follows.pure h
  refine Follows.mono ((only_writeManifest (S := fun op => op = .s3 (.putObject _ _ none true))
    rfl).follows (I := Balanced) ?_ ?_ hv₉) (fun _ _ h => h) fun _ _ _ => trivial
  · rintro v' op rfl -
    trivial
  · rintro v' op r rfl h key
    cases r <;> exact h key

end

-- ---------------------------------------------------------------------------
-- Runs
-- ---------------------------------------------------------------------------

def economyOf (json : Json) (cfg : Config) (hist : History Op Resp) : Economy :=
  (economyWatch json cfg).view hist

/-- No key twice. -/
structure Frugal (v : Economy) : Prop where
  begun : v.begun.Nodup
  uploaded : v.ledger.uploadedKeys.Nodup

/-- The keys of the uploads that an answer completes. -/
def completes : (op : Op) → Resp op → List String
  | .s3 (.completeMultipartUpload key _ _), .ok _ => [key]
  | _, _ => []

theorem uploadedKeys_observe {json : Json} {cfg : Config} (v : Ledger) (op : Op) (r : Resp op) :
    (v.observe json cfg op r).uploadedKeys = completes op r ++ v.uploadedKeys := by
  cases op with
  | s3 o =>
    cases o with
    | getObject key =>
      match r with
      | .ok (.manifest m) => rfl
      | .ok (.lock _) | .ok (.data _) | .error _ => rfl
    | _ => cases r <;> rfl
  | env o =>
    cases o with
    | runQuery sql =>
      show (Ledger.learn json cfg v (.env (.runQuery sql)) r).uploadedKeys = _
      unfold Ledger.learn
      dsimp only
      split
      · split <;> rfl
      · rfl
    | stagePart part tables => cases r <;> rfl
    | _ => rfl

theorem Frugal.observe {json : Json} {cfg : Config} (v : Economy) (op : Op) (r : Resp op)
    (hrule : EconomyRule v op) (h : Frugal v) :
    Frugal ((economyWatch json cfg).observe v op r) := by
  constructor
  · show (begins op r ++ v.begun).Nodup
    match op, r with
    | .s3 (.createMultipartUpload key), .ok id => exact List.nodup_cons.mpr ⟨hrule.2.1, h.begun⟩
    | .s3 (.createMultipartUpload key), .error e => exact h.begun
    | .s3 (.completeMultipartUpload ..), r | .s3 (.uploadPart ..), r => exact h.begun
    | .env o, r => exact h.begun
    | .s3 (.getObject _), r | .s3 (.headObject _), r | .s3 (.putObject ..), r
    | .s3 (.deleteObject _), r | .s3 (.deleteObjects _), r | .s3 (.listObjectsV2 _), r
    | .s3 (.abortMultipartUpload ..), r => exact h.begun
  · show (Ledger.observe json cfg v.ledger op r).uploadedKeys.Nodup
    rw [uploadedKeys_observe]
    match op, r with
    | .s3 (.completeMultipartUpload key _ _), .ok a =>
      exact List.nodup_cons.mpr ⟨hrule.2.2, h.uploaded⟩
    | .s3 (.completeMultipartUpload ..), .error e => exact h.uploaded
    | .s3 (.createMultipartUpload _), r | .s3 (.uploadPart ..), r => exact h.uploaded
    | .env o, r => exact h.uploaded
    | .s3 (.getObject _), r | .s3 (.headObject _), r | .s3 (.putObject ..), r
    | .s3 (.deleteObject _), r | .s3 (.deleteObjects _), r | .s3 (.listObjectsV2 _), r
    | .s3 (.abortMultipartUpload ..), r => exact h.uploaded

/-- **A backup uploads what is missing, and once**: in every run, whatever is answered
and whatever changes beside it, an upload is begun only for a missing blob, no key has two,
and a run that ends well has completed one for each missing blob and for no other. -/
theorem uploads_once {json : Json} {cfg : Config} {name : Option String}
    {answers : (op : Op) → World → Resp op → World → Prop} {beside : World → World → Prop}
    {w w' : World} {tr : List (Event Op Resp World)} {p : Proc Op Resp AnyError String}
    (hrun : Proc.Trace answers beside ⟨createSnapshot json cfg name, []⟩ w tr p w') :
    (∀ x ∈ tr, EconomyRule (economyOf json cfg x.hist) x.call.1) ∧
    Frugal (economyOf json cfg p.hist) ∧
    ∀ id, p.prog = .done id → Balanced (economyOf json cfg p.hist) := by
  obtain ⟨hrest, hrule⟩ := hrun.follows (M := economyWatch json cfg)
    (spends_createSnapshot json cfg name)
  refine ⟨hrule, hrun.keepsView Frugal.observe hrule ⟨List.nodup_nil, List.nodup_nil⟩, ?_⟩
  intro id hdone
  rw [hdone] at hrest
  exact hrest

/-- The first answer to the begin of the upload is lost: it is begun again, and the key
is there once. -/
theorem uploads_once_lostAnswer : ∃ tr p w', Proc.Trace Answers Eq
      ⟨createSnapshot siteJson siteConfig none, []⟩ {} tr p w' ∧
    (economyOf siteJson siteConfig p.hist).begun = [blobRemoteKey siteHash] ∧
    Frugal (economyOf siteJson siteConfig p.hist) ∧
    (economyOf siteJson siteConfig p.hist).ledger.Wants (blobRemoteKey siteHash) := by
  have hend : (runAlone (List.replicate 17 served ++ lost true :: List.replicate 9 served) []
      ⟨createSnapshot siteJson siteConfig none, []⟩ {}).any
      (fun x => (x.2.1.outcome?.bind Except.toOption).isSome &&
        decide ((economyOf siteJson siteConfig x.2.1.hist).begun = [blobRemoteKey siteHash] ∧
          (economyOf siteJson siteConfig x.2.1.hist).ledger.uploadedKeys =
            [blobRemoteKey siteHash])) = true := by
    decide +kernel
  obtain ⟨tr, p, w', hrun, hcheck⟩ := exists_trace_of_runAlone hend
  obtain ⟨hdone, hkeys⟩ := Bool.and_eq_true_iff.mp hcheck
  obtain ⟨hbegun, huploaded⟩ := of_decide_eq_true hkeys
  obtain ⟨-, hfrugal, hbalanced⟩ := uploads_once hrun
  refine ⟨tr, p, w', hrun, hbegun, hfrugal, ?_⟩
  cases hprog : p.prog with
  | done id =>
    refine (hbalanced id hprog _).mp ?_
    rw [huploaded]
    exact List.mem_singleton_self _
  | _ => simp [Proc.outcome?, hprog, Except.toOption] at hdone

end Chbk
