import Chbk.Model.Pipeline
import Chbk.Safety.Upload

/-!
# A multipart upload reassembles its stream

Along every run of the tasks of an upload.

* `Producer.toSend` — the parts the reader task has still to send; no step of
  the task changes what is sent in the end.
* `Moving` — each part is on its way in one place: in the reader task, in the
  channel, in flight, or done.
* `Inv`, `inv_step`, `inv_run` — the invariant by phase.
* `Pipeline.rank`, `rank_lt` — each step uses something up, so each run ends.
* `multipart_reassembles` — the object of an upload that returns is its stream.
-/

namespace Chbk

open Lib

-- ---------------------------------------------------------------------------
-- What S3 makes of the requests
-- ---------------------------------------------------------------------------

def S3Op.isBulk : S3Op → Bool
  | deleteObjects _ => true
  | _ => false

/-- A request other than a bulk delete: done and answered so, or failed with its
effect or without. -/
theorem S3Answers.effect {o : S3Op} {w w' : World} {r : Except SdkError (S3Ok o)}
    (ho : o.isBulk = false) (h : S3Answers o w r w') :
    o.perform w = (r, w') ∨ (∃ e, r = .error e) ∧ (w' = w ∨ w' = (o.perform w).2) := by
  cases r with
  | ok a =>
    cases o with
    | deleteObjects keys => cases ho
    | _ => exact .inl h
  | error e =>
    rcases h with h | h
    · exact .inl h
    · cases o with
      | deleteObjects keys => cases ho
      | _ => exact .inr ⟨⟨e, rfl⟩, h⟩

/-- A request that does not touch the objects, failed or not. -/
theorem S3Answers.objects_eq {o : S3Op} {w w' : World} {r : Except SdkError (S3Ok o)}
    (ho : o.isBulk = false) (hperform : (o.perform w).2.objects = w.objects)
    (h : S3Answers o w r w') : w'.objects = w.objects := by
  rcases h.effect ho with h | ⟨-, rfl | rfl⟩
  · rw [h] at hperform
    exact hperform
  · rfl
  · exact hperform

theorem objects_of_uploadPart {key : String} {id : UploadId} {pn : Nat} {data : Bytes}
    {w w' : World} {r : Except SdkError Unit}
    (h : S3Answers (.uploadPart key id pn data) w r w') : w'.objects = w.objects := by
  refine h.objects_eq (by rfl) ?_
  simp only [S3Op.perform]
  split
  · split <;> rfl
  · rfl

/-- A part of an upload under way is stored, or the request has failed. -/
theorem uploads_of_uploadPart {key : String} {id : UploadId} {part : Part}
    {stored : List Part} {w w' : World} {r : Except SdkError Unit}
    (hu : w.uploads.lookup id = some ⟨key, stored⟩)
    (h : S3Answers (.uploadPart key id part.1 part.2) w r w') :
    (∃ e, r = .error e) ∧ w'.uploads.lookup id = some ⟨key, stored⟩ ∨
      w'.uploads.lookup id = some ⟨key, insertKey part.1 part.2 stored⟩ := by
  have hperform : (S3Op.uploadPart key id part.1 part.2).perform w = (.ok (), { w with
      uploads := insertKey id ⟨key, insertKey part.1 part.2 stored⟩ w.uploads }) := by
    simp only [S3Op.perform, hu, ne_eq, not_true_eq_false, if_false]
  have hstored : ((S3Op.uploadPart key id part.1 part.2).perform w).2.uploads.lookup id =
      some ⟨key, insertKey part.1 part.2 stored⟩ := by
    rw [hperform]
    exact (lookup_insertKey ..).trans (if_pos rfl)
  rcases h.effect (by rfl) with h | ⟨he, rfl | rfl⟩
  · rw [h] at hstored
    exact .inr hstored
  · exact .inl ⟨he, hu⟩
  · exact .inr hstored

/-- An upload that is completed is gone, and its object there. -/
theorem uploads_of_complete {key : String} {id : UploadId} {parts : List Nat} {stored : List Part}
    {bs : Bytes} {w w' : World} {r : Except SdkError Unit}
    (hu : w.uploads.lookup id = some ⟨key, stored⟩) (hparts : parts ≠ [])
    (hbs : S3Op.assemble ⟨key, stored⟩ parts = some bs)
    (h : S3Answers (.completeMultipartUpload key id parts) w r w') :
    w' = w ∨ w'.uploads.lookup id = none := by
  have hgone : ((S3Op.completeMultipartUpload key id parts).perform w).2.uploads.lookup id =
      none := by
    simp only [S3Op.perform, hu, ne_eq, not_true_eq_false, if_false, hparts, hbs]
    exact (lookup_eraseKey ..).trans (if_pos rfl)
  rcases h.effect (by rfl) with h | ⟨-, rfl | rfl⟩
  · rw [h] at hgone
    exact .inr hgone
  · exact .inl rfl
  · exact .inr hgone

/-- An upload that is gone is not completed again. -/
theorem complete_of_gone {key : String} {id : UploadId} {parts : List Nat} {w w' : World}
    {r : Except SdkError Unit} (hu : w.uploads.lookup id = none)
    (h : S3Answers (.completeMultipartUpload key id parts) w r w') :
    (∃ e, r = .error e) ∧ w' = w := by
  have hperform : (S3Op.completeMultipartUpload key id parts).perform w =
      (.error (refused 404 "NoSuchUpload"), w) := by
    simp only [S3Op.perform, hu]
  rcases h.effect (by rfl) with h | ⟨he, rfl | rfl⟩
  · rw [hperform] at h
    obtain ⟨hr, hw⟩ := Prod.mk.inj h
    exact ⟨⟨_, hr.symm⟩, hw.symm⟩
  · exact ⟨he, rfl⟩
  · rw [hperform]
    exact ⟨he, rfl⟩

/-- A list of no parts is refused. -/
theorem complete_of_nil {key : String} {id : UploadId} {w w' : World} {r : Except SdkError Unit}
    (h : S3Answers (.completeMultipartUpload key id []) w r w') :
    (∃ e, r = .error e) ∧ w' = w := by
  have hperform : ∃ e, (S3Op.completeMultipartUpload key id []).perform w = (.error e, w) := by
    simp only [S3Op.perform]
    split
    · split
      · exact ⟨_, rfl⟩
      · exact ⟨_, rfl⟩
    · exact ⟨_, rfl⟩
  obtain ⟨e, hperform⟩ := hperform
  rcases h.effect (by rfl) with h | ⟨he, rfl | rfl⟩
  · rw [hperform] at h
    obtain ⟨hr, hw⟩ := Prod.mk.inj h
    exact ⟨⟨_, hr.symm⟩, hw.symm⟩
  · exact ⟨he, rfl⟩
  · rw [hperform]
    exact ⟨he, rfl⟩

-- ---------------------------------------------------------------------------
-- The reader task
-- ---------------------------------------------------------------------------

theorem length_fillBuffer {fuel k : Nat} {r r' : Reader} {buf : Bytes}
    (h : fillBuffer fuel k r = (.ok buf, r')) (hk : k ≤ fuel) :
    r.rest.length = buf.length + r'.rest.length := by
  rw [(fillBuffer_ok h hk).1, List.length_append]

/-- More fuel than the stream is long makes no difference. -/
theorem readChunks_fuel {chunkSize : Nat} : ∀ {fuel : Nat} {r : Reader}, r.rest.length < fuel →
    readChunks chunkSize fuel r = readChunks chunkSize (r.rest.length + 1) r
  | 0, r, h => absurd h (Nat.not_lt_zero _)
  | fuel + 1, r, h => by
    unfold readChunks
    cases hfill : fillBuffer chunkSize chunkSize r with
    | mk res r' =>
      cases res with
      | error e => rfl
      | ok buf =>
        dsimp only
        by_cases hemp : buf.isEmpty = true
        · rw [if_pos hemp, if_pos hemp]
        · rw [if_neg hemp, if_neg hemp]
          by_cases hshort : buf.length < chunkSize
          · rw [if_pos hshort, if_pos hshort]
          · have hlen := length_fillBuffer hfill le_rfl
            have hpos : 0 < buf.length := List.length_pos_iff.mpr (by simpa using hemp)
            rw [if_neg hshort, if_neg hshort, readChunks_fuel (by omega),
              @readChunks_fuel _ r.rest.length _ (by omega)]

/-- The parts the reader task has still to send, and how it will end. -/
def Producer.toSend (chunkSize : Nat) : Producer → List Part × Except AnyError Unit
  | .reading reader n =>
    let x := readChunks chunkSize (reader.rest.length + 1) reader
    (numberChunks (n + 1) x.1, x.2)
  | .sending reader part =>
    if part.2.length < chunkSize then ([part], .ok ())
    else
      let x := readChunks chunkSize (reader.rest.length + 1) reader
      (part :: numberChunks (part.1 + 1) x.1, x.2)
  | .ended res => ([], res)

theorem toSend_filled (chunkSize n : Nat) (reader : Reader) :
    (Producer.filled n (fillBuffer chunkSize chunkSize reader)).toSend chunkSize =
      (Producer.reading reader n).toSend chunkSize := by
  cases hfill : fillBuffer chunkSize chunkSize reader with
  | mk res reader' =>
    cases res with
    | error e => simp only [Producer.filled, Producer.toSend, readChunks, hfill, numberChunks]
    | ok buf =>
      by_cases hemp : buf.isEmpty = true
      · simp only [Producer.filled, Producer.toSend, readChunks, hfill, hemp, if_true, numberChunks]
      · by_cases hshort : buf.length < chunkSize
        · simp only [Producer.filled, Producer.toSend, readChunks, hfill, hemp, hshort, if_true,
            Bool.false_eq_true, if_false, numberChunks]
        · have hlen := length_fillBuffer hfill le_rfl
          have hpos : 0 < buf.length := List.length_pos_iff.mpr (by simpa using hemp)
          have hfuel := @readChunks_fuel chunkSize reader.rest.length reader' (by omega)
          simp only [Producer.filled, Producer.toSend, readChunks, hfill, hemp, hshort,
            Bool.false_eq_true, if_false, numberChunks, hfuel]

theorem toSend_sent (chunkSize : Nat) (reader : Reader) (part : Part) :
    (Producer.sending reader part).toSend chunkSize =
      (part :: ((Producer.sent chunkSize reader part).toSend chunkSize).1,
        ((Producer.sent chunkSize reader part).toSend chunkSize).2) := by
  unfold Producer.sent
  by_cases hshort : part.2.length < chunkSize
  · rw [if_pos hshort, Producer.toSend, if_pos hshort]
    rfl
  · rw [if_neg hshort]
    simp only [Producer.toSend, if_neg hshort]

-- ---------------------------------------------------------------------------
-- Where each part is
-- ---------------------------------------------------------------------------

/-- The running totals behind `n` bytes. -/
def totals : Nat → List Part → List Nat
  | _, [] => []
  | n, x :: xs => (n + x.2.length) :: totals (n + x.2.length) xs

def totalOf (parts : List Part) : Nat := (parts.map fun x => x.2.length).sum

theorem totals_concat (x : Part) : ∀ (n : Nat) (xs : List Part),
    totals n (xs ++ [x]) = totals n xs ++ [n + totalOf xs + x.2.length]
  | n, [] => by simp [totals, totalOf]
  | n, y :: ys => by
    have ih := totals_concat x (n + y.2.length) ys
    simp only [List.cons_append, totals, ih, totalOf, List.map_cons, List.sum_cons]
    rw [Nat.add_assoc n]

/-- The request for a part, answered. -/
def partCall (key : String) (id : UploadId) (part : Part) : Called Op Resp :=
  ⟨.s3 (.uploadPart key id part.1 part.2), .ok ()⟩

/-- A request to complete an upload. -/
def Completes (c : Called Op Resp) : Prop :=
  ∃ key id parts, c.1 = .s3 (.completeMultipartUpload key id parts)

namespace Pipeline

/-- The part is uploaded: it is done, or its task has ended well. -/
def Uploaded (p : Pipeline) (done : List Part) (part : Part) : Prop :=
  part ∈ done ∨ ⟨part, .finished (.ok ())⟩ ∈ p.tasks

/-- Everything is sent, received and joined. -/
structure AllJoined (p : Pipeline) : Prop where
  channel : p.channel = []
  producer : p.producer = .ended (.ok ())
  tasks : p.tasks = []

/-- What a phase says about the tasks. -/
def Settled (p : Pipeline) : Phase → Prop
  | .awaitingReader => p.channel = [] ∧ ∃ res, p.producer = .ended res
  | .draining => p.channel = [] ∧ p.producer = .ended (.ok ())
  | .completing _ | .returned _ => p.AllJoined
  | _ => True

end Pipeline

section

variable (key : String) (chunkSize : Nat) (reader : Reader) (w₀ : World)

/-- All parts of the stream, and how its reader task ends. -/
def partsOf : List Part × Except AnyError Unit := (Producer.reading reader 0).toSend chunkSize

/-- Each part is in one place: done, in flight, in the channel or with the reader
task. -/
structure Moving (p : Pipeline) (done : List Part) : Prop where
  places : (done ++ p.tasks.map Task.part ++ p.channel ++ (p.producer.toSend chunkSize).1).Perm
    (partsOf chunkSize reader).1
  ends : (p.producer.toSend chunkSize).2 = (partsOf chunkSize reader).2
  numbers : p.completedParts = done.map Prod.fst
  uploaded : p.uploaded = totalOf done
  reported : p.reported = totals 0 done
  sent : ∀ x, p.Uploaded done x → partCall key p.id x ∈ p.hist

/-- S3 has the upload, with the parts that are uploaded. -/
def Stored (p : Pipeline) (w : World) (done : List Part) : Prop :=
  ∃ stored, w.uploads.lookup p.id = some ⟨key, stored⟩ ∧
    ∀ x, p.Uploaded done x → stored.lookup x.1 = some x.2

/-- No object is there through this upload. -/
structure Untouched (p : Pipeline) (w : World) : Prop where
  calls : ∀ c ∈ p.hist, ¬ Completes c
  objects : w.objects = w₀.objects

/-- The upload has returned `n`, with its object in the bucket. -/
structure Done (p : Pipeline) (w : World) (done : List Part) (n : Nat) : Prop where
  total : n = p.uploaded
  object : ∃ o bs, w.get? key = some o ∧ o.body = .data bs ∧
    bs = (((partsOf chunkSize reader).1).map Prod.snd).flatten
  call : ⟨.s3 (.completeMultipartUpload key p.id ((partsOf chunkSize reader).1.map Prod.fst)),
    .ok ()⟩ ∈ p.hist
  ne_nil : (partsOf chunkSize reader).1 ≠ []

/-- What has become of the parts and of the upload, by phase. -/
def Account (p : Pipeline) (w : World) : Phase → Prop
  | .creating left => p = { Pipeline.start reader with phase := .creating left, hist := p.hist } ∧
      Untouched w₀ p w
  | .receiving | .awaitingReader | .draining =>
    ∃ done, Moving key chunkSize reader p done ∧ Stored key p w done ∧ Untouched w₀ p w
  | .completing _ =>
    ∃ done, Moving key chunkSize reader p done ∧
      (Stored key p w done ∨ w.uploads.lookup p.id = none)
  | .returned n => ∃ done, Moving key chunkSize reader p done ∧ Done key chunkSize reader p w done n
  | .aborting _ | .failed _ => Untouched w₀ p w ∨ p.AllJoined

structure Inv (p : Pipeline) (w : World) : Prop where
  settled : p.Settled p.phase
  account : Account key chunkSize reader w₀ p w p.phase

end

-- ---------------------------------------------------------------------------
-- The steps keep the account
-- ---------------------------------------------------------------------------

section

variable {storage : Storage} {key : String} {chunkSize : Nat} {reader : Reader} {w₀ : World}
  {p : Pipeline} {w w' : World}

theorem inv_iff {phase : Phase} (h : p.phase = phase) :
    Inv key chunkSize reader w₀ p w ↔
      p.Settled phase ∧ Account key chunkSize reader w₀ p w phase := by
  rw [← h]
  exact ⟨fun hinv => ⟨hinv.settled, hinv.account⟩, fun hinv => ⟨hinv.1, hinv.2⟩⟩

theorem Untouched.congr {p' : Pipeline} (h : Untouched w₀ p w) (hhist : p'.hist = p.hist) :
    Untouched w₀ p' w :=
  ⟨fun c hc => h.calls c (hhist ▸ hc), h.objects⟩

/-- A request that completes nothing. -/
theorem Untouched.call {p' : Pipeline} {o : S3Op} {r : Except SdkError (S3Ok o)}
    (h : Untouched w₀ p w) (hhist : p'.hist = ⟨.s3 o, r⟩ :: p.hist)
    (ho : ∀ key id parts, o ≠ .completeMultipartUpload key id parts)
    (hobjects : w'.objects = w.objects) : Untouched w₀ p' w' := by
  refine ⟨fun c hc => ?_, hobjects.trans h.objects⟩
  rw [hhist] at hc
  rcases List.mem_cons.mp hc with rfl | hc
  · intro ⟨key, id, parts, heq⟩
    exact ho key id parts (Op.s3.inj heq)
  · exact h.calls c hc

theorem attempted_error {T : Type} (left : Nat) (e : SdkError) :
    (∃ e', attempted (T := T) left (.error e) = .ended (.error e')) ∨
      ∃ left', attempted (T := T) left (.error e) = .again left' := by
  unfold attempted classifyS3
  dsimp only
  split
  · rename_i v hv
    split at hv <;> cases hv
  · exact .inl ⟨_, rfl⟩
  · split
    · exact .inl ⟨_, rfl⟩
    · exact .inr ⟨_, rfl⟩

theorem objects_of_create {r : Except SdkError UploadId}
    (h : S3Answers (.createMultipartUpload key) w r w') : w'.objects = w.objects :=
  h.objects_eq rfl rfl

theorem inv_create {left : Nat} {r : Except SdkError UploadId} (hinv : Inv key chunkSize reader w₀ p w)
    (hphase : p.phase = .creating left) (hans : S3Answers (.createMultipartUpload key) w r w') :
    Inv key chunkSize reader w₀
      ((p.created key left r).called (.createMultipartUpload key) r) w' := by
  obtain ⟨-, hstart, huntouched⟩ := (inv_iff hphase).mp hinv
  have hcall : ∀ {p' : Pipeline}, p'.hist = ⟨.s3 (.createMultipartUpload key), r⟩ :: p.hist →
      Untouched w₀ p' w' := fun hhist =>
    huntouched.call (o := .createMultipartUpload key) hhist (fun _ _ _ => nofun)
      (objects_of_create hans)
  unfold Pipeline.created
  cases r with
  | ok id =>
    -- the upload is there, with no parts
    have hu : w'.uploads.lookup id = some ⟨key, []⟩ := by
      obtain ⟨hid, rfl⟩ := Prod.mk.inj hans
      rw [← Except.ok.inj hid]
      exact (lookup_insertKey ..).trans (if_pos rfl)
    refine (inv_iff rfl).mpr ⟨trivial, [], ?_, ⟨[], hu, ?_⟩, hcall rfl⟩
    · rw [hstart]
      refine ⟨List.Perm.refl _, rfl, rfl, rfl, rfl, ?_⟩
      rintro x (hx | hx) <;> cases hx
    · rw [hstart]
      rintro x (hx | hx) <;> cases hx
  | error e =>
    rcases attempted_error (T := UploadId) left e with ⟨e', hatt⟩ | ⟨left', hatt⟩
    · rw [hatt]
      exact (inv_iff rfl).mpr ⟨trivial, .inl (hcall rfl)⟩
    · rw [hatt]
      refine (inv_iff rfl).mpr ⟨trivial, ?_, hcall rfl⟩
      rw [hstart]
      rfl

/-- The upload has given up. -/
def Stopped (p : Pipeline) : Prop := (∃ e, p.phase = .aborting e) ∨ ∃ e, p.phase = .failed e

theorem Stopped.inv (h : Stopped p) (hu : Untouched w₀ p w) : Inv key chunkSize reader w₀ p w := by
  rcases h with ⟨e, h⟩ | ⟨e, h⟩
  · exact (inv_iff h).mpr ⟨trivial, .inl hu⟩
  · exact (inv_iff h).mpr ⟨trivial, .inl hu⟩

/-- Before all parts are joined. -/
structure Underway (key : String) (chunkSize : Nat) (reader : Reader) (w₀ : World) (p : Pipeline)
    (w : World) (done : List Part) : Prop where
  moving : Moving key chunkSize reader p done
  stored : Stored key p w done
  untouched : Untouched w₀ p w

/-- The phases before all parts are joined. -/
def Phase.isUnderway : Phase → Bool
  | .receiving | .awaitingReader | .draining => true
  | _ => false

theorem Underway.inv {d : List Part} (h : Underway key chunkSize reader w₀ p w d)
    (hphase : p.phase.isUnderway = true) (hs : p.Settled p.phase) :
    Inv key chunkSize reader w₀ p w := by
  refine ⟨hs, ?_⟩
  cases hp : p.phase with
  | receiving => exact ⟨d, h.moving, h.stored, h.untouched⟩
  | awaitingReader => exact ⟨d, h.moving, h.stored, h.untouched⟩
  | draining => exact ⟨d, h.moving, h.stored, h.untouched⟩
  | _ =>
    rw [hp] at hphase
    cases hphase

theorem Underway.receiving {d : List Part} (h : Underway key chunkSize reader w₀ p w d)
    (hphase : p.phase = .receiving) : Inv key chunkSize reader w₀ p w :=
  h.inv (by rw [hphase]; rfl) (by rw [hphase]; trivial)

/-- While the reader task is not at its end. -/
theorem Inv.reading (hinv : Inv key chunkSize reader w₀ p w)
    (hproducer : ∀ res, p.producer ≠ .ended res) :
    p.phase.isCreating = true ∨
      (p.phase = .receiving ∧ ∃ done, Underway key chunkSize reader w₀ p w done) ∨
      (Stopped p ∧ Untouched w₀ p w) := by
  cases hphase : p.phase with
  | creating left => exact .inl rfl
  | receiving =>
    obtain ⟨-, done, hm, hst, hu⟩ := (inv_iff hphase).mp hinv
    exact .inr (.inl ⟨rfl, done, hm, hst, hu⟩)
  | awaitingReader =>
    obtain ⟨⟨-, res, hres⟩, -⟩ := (inv_iff hphase).mp hinv
    exact absurd hres (hproducer res)
  | draining => exact absurd ((inv_iff hphase).mp hinv).1.2 (hproducer _)
  | completing left => exact absurd ((inv_iff hphase).mp hinv).1.producer (hproducer _)
  | returned n => exact absurd ((inv_iff hphase).mp hinv).1.producer (hproducer _)
  | aborting e =>
    rcases ((inv_iff hphase).mp hinv).2 with hu | hj
    · exact .inr (.inr ⟨.inl ⟨e, hphase⟩, hu⟩)
    · exact absurd hj.producer (hproducer _)
  | failed e =>
    rcases ((inv_iff hphase).mp hinv).2 with hu | hj
    · exact .inr (.inr ⟨.inr ⟨e, hphase⟩, hu⟩)
    · exact absurd hj.producer (hproducer _)

/-- While there are part uploads to join. -/
theorem Inv.busy (hinv : Inv key chunkSize reader w₀ p w) (htasks : p.tasks ≠ []) :
    (p.phase.isUnderway = true ∧ ∃ done, Underway key chunkSize reader w₀ p w done) ∨
      (Stopped p ∧ Untouched w₀ p w) := by
  cases hphase : p.phase with
  | creating left =>
    obtain ⟨-, hstart, -⟩ := (inv_iff hphase).mp hinv
    rw [hstart] at htasks
    exact absurd rfl htasks
  | receiving =>
    obtain ⟨-, done, hm, hst, hu⟩ := (inv_iff hphase).mp hinv
    exact .inl ⟨rfl, done, hm, hst, hu⟩
  | awaitingReader =>
    obtain ⟨-, done, hm, hst, hu⟩ := (inv_iff hphase).mp hinv
    exact .inl ⟨rfl, done, hm, hst, hu⟩
  | draining =>
    obtain ⟨-, done, hm, hst, hu⟩ := (inv_iff hphase).mp hinv
    exact .inl ⟨rfl, done, hm, hst, hu⟩
  | completing left => exact absurd ((inv_iff hphase).mp hinv).1.tasks htasks
  | returned n => exact absurd ((inv_iff hphase).mp hinv).1.tasks htasks
  | aborting e =>
    rcases ((inv_iff hphase).mp hinv).2 with hu | hj
    · exact .inr ⟨.inl ⟨e, hphase⟩, hu⟩
    · exact absurd hj.tasks htasks
  | failed e =>
    rcases ((inv_iff hphase).mp hinv).2 with hu | hj
    · exact .inr ⟨.inr ⟨e, hphase⟩, hu⟩
    · exact absurd hj.tasks htasks

/-- The reader task fills its buffer; what it sends in the end stays the same. -/
theorem inv_fill {r : Reader} {n : Nat} (hinv : Inv key chunkSize reader w₀ p w)
    (hcreated : p.phase.isCreating = false) (hproducer : p.producer = .reading r n) :
    Inv key chunkSize reader w₀
      { p with producer := .filled n (fillBuffer chunkSize chunkSize r) } w := by
  rcases hinv.reading (by simp [hproducer]) with h | ⟨hphase, done, hd⟩ | ⟨hs, hu⟩
  · rw [hcreated] at h
    cases h
  · have hsame := toSend_filled chunkSize n r
    rw [← hproducer] at hsame
    refine Underway.receiving (d := done) ⟨?_, hd.stored, hd.untouched.congr rfl⟩ hphase
    exact { hd.moving with
      places := by rw [hsame]; exact hd.moving.places
      ends := by rw [hsame]; exact hd.moving.ends }
  · exact Stopped.inv hs (hu.congr rfl)

/-- A part goes from the reader task into the channel. -/
theorem inv_send {r : Reader} {part : Part} (hinv : Inv key chunkSize reader w₀ p w)
    (hopen : p.phase.isOpen = true) (hproducer : p.producer = .sending r part) :
    Inv key chunkSize reader w₀
      { p with channel := p.channel ++ [part], producer := .sent chunkSize r part } w := by
  rcases hinv.reading (by simp [hproducer]) with h | ⟨hphase, done, hd⟩ | ⟨hs, hu⟩
  · cases hphase : p.phase with
    | creating left =>
      rw [hphase] at hopen
      cases hopen
    | _ =>
      rw [hphase] at h
      cases h
  · have hmove := toSend_sent chunkSize r part
    rw [← hproducer] at hmove
    refine Underway.receiving (d := done) ⟨?_, hd.stored, hd.untouched.congr rfl⟩ hphase
    refine { hd.moving with places := ?_, ends := ?_ }
    · have hplaces := hd.moving.places
      rw [hmove] at hplaces
      simpa only [List.append_assoc, List.singleton_append] using hplaces
    · have hends := hd.moving.ends
      rw [hmove] at hends
      exact hends
  · exact Stopped.inv hs (hu.congr rfl)

theorem inv_sendClosed {r : Reader} {part : Part} (hinv : Inv key chunkSize reader w₀ p w)
    (hclosed : p.phase.isOpen = false) (hcreated : p.phase.isCreating = false)
    (hproducer : p.producer = .sending r part) :
    Inv key chunkSize reader w₀ { p with producer := .ended (.ok ()) } w := by
  rcases hinv.reading (by simp [hproducer]) with h | ⟨hphase, -⟩ | ⟨hs, hu⟩
  · rw [hcreated] at h
    cases h
  · rw [hphase] at hclosed
    cases hclosed
  · exact Stopped.inv hs (hu.congr rfl)

/-- A part goes from the channel into a task of its own. -/
theorem inv_recv {part : Part} {rest : List Part} {left : Nat}
    (hinv : Inv key chunkSize reader w₀ p w)
    (hphase : p.phase = .receiving) (hchannel : p.channel = part :: rest) :
    Inv key chunkSize reader w₀
      { p with channel := rest, tasks := p.tasks ++ [⟨part, .running left⟩] } w := by
  obtain ⟨-, done, hm, ⟨stored, hu, hst⟩, huntouched⟩ := (inv_iff hphase).mp hinv
  have huploaded : ∀ {x : Part}, Pipeline.Uploaded
      { p with channel := rest, tasks := p.tasks ++ [⟨part, .running left⟩] } done x →
      p.Uploaded done x := by
    rintro x (hx | hx)
    · exact .inl hx
    · rcases List.mem_append.mp hx with hx | hx
      · exact .inr hx
      · cases List.mem_singleton.mp hx
  refine Underway.receiving (d := done) ⟨?_, ⟨stored, hu, fun x hx => hst x (huploaded hx)⟩,
    huntouched.congr rfl⟩ hphase
  refine { hm with places := ?_, sent := fun x hx => hm.sent x (huploaded hx) }
  have hplaces := hm.places
  rw [hchannel] at hplaces
  simpa only [List.map_append, List.map_cons, List.map_nil, List.append_assoc,
    List.singleton_append] using hplaces

/-- The channel is empty and its sender gone. -/
theorem inv_closed {res : Except AnyError Unit} (hinv : Inv key chunkSize reader w₀ p w)
    (hphase : p.phase = .receiving) (hchannel : p.channel = [])
    (hproducer : p.producer = .ended res) :
    Inv key chunkSize reader w₀ { p with phase := .awaitingReader } w := by
  obtain ⟨-, done, hm, hst, hu⟩ := (inv_iff hphase).mp hinv
  exact (inv_iff rfl).mpr ⟨⟨hchannel, res, hproducer⟩, done, { hm with }, hst, hu.congr rfl⟩

/-- The numbers of the parts are apart. -/
theorem eq_of_number {x y : Part} (hx : x ∈ (partsOf chunkSize reader).1)
    (hy : y ∈ (partsOf chunkSize reader).1) (h : x.1 = y.1) : x = y := by
  have hnodup : ((partsOf chunkSize reader).1.map Prod.fst).Nodup := by
    unfold partsOf Producer.toSend
    rw [map_fst_numberChunks]
    exact List.nodup_range'
  exact List.inj_on_of_nodup_map hnodup hx hy h

theorem Moving.mem_of_uploaded {done : List Part} {x : Part}
    (hm : Moving key chunkSize reader p done) (hx : p.Uploaded done x) :
    x ∈ (partsOf chunkSize reader).1 := by
  refine hm.places.mem_iff.mp ?_
  rcases hx with hx | hx
  · simp [hx]
  · have : x ∈ p.tasks.map Task.part := List.mem_map.mpr ⟨_, hx, rfl⟩
    simp [this]

theorem Moving.mem_of_task {done : List Part} {t : Task} (hm : Moving key chunkSize reader p done)
    (ht : t ∈ p.tasks) : t.part ∈ (partsOf chunkSize reader).1 := by
  refine hm.places.mem_iff.mp ?_
  have : t.part ∈ p.tasks.map Task.part := List.mem_map.mpr ⟨_, ht, rfl⟩
  simp [this]

theorem attempted_finished {left : Nat} {r : Except SdkError Unit}
    (h : TaskState.attempted left r = .finished (.ok ())) : r = .ok () := by
  cases r with
  | ok u => rfl
  | error e =>
    unfold TaskState.attempted at h
    rcases attempted_error (T := Unit) left e with ⟨e', hatt⟩ | ⟨left', hatt⟩
    · rw [hatt] at h
      cases h
    · rw [hatt] at h
      cases h

/-- An attempt at a part: it is stored when it is answered so. -/
theorem inv_attempt {before after : List Task} {part : Part} {left : Nat}
    {r : Except SdkError Unit} (hinv : Inv key chunkSize reader w₀ p w)
    (htasks : p.tasks = before ++ ⟨part, .running left⟩ :: after)
    (hans : S3Answers (.uploadPart key p.id part.1 part.2) w r w') :
    Inv key chunkSize reader w₀
      (Pipeline.called { p with tasks := before ++ ⟨part, .attempted left r⟩ :: after }
        (.uploadPart key p.id part.1 part.2) r) w' := by
  have hcall : ∀ {p' : Pipeline}, Untouched w₀ p w →
      p'.hist = ⟨.s3 (.uploadPart key p.id part.1 part.2), r⟩ :: p.hist → Untouched w₀ p' w' :=
    fun hu hhist => hu.call (o := .uploadPart key p.id part.1 part.2) hhist
      (fun _ _ _ => nofun) (objects_of_uploadPart hans)
  rcases hinv.busy (by simp [htasks]) with ⟨hphase, done, hd⟩ | ⟨hs, hu⟩
  · obtain ⟨stored, hu, hst⟩ := hd.stored
    have hm := hd.moving
    have hpart : part ∈ (partsOf chunkSize reader).1 :=
      hm.mem_of_task (t := ⟨part, .running left⟩) (by simp [htasks])
    -- what is uploaded now was so before, or is this part
    have huploaded : ∀ {x : Part}, Pipeline.Uploaded
        (Pipeline.called { p with tasks := before ++ ⟨part, .attempted left r⟩ :: after }
          (.uploadPart key p.id part.1 part.2) r) done x →
        p.Uploaded done x ∨ (x = part ∧ r = .ok ()) := by
      rintro x (hx | hx)
      · exact .inl (.inl hx)
      · rcases List.mem_append.mp hx with hx | hx
        · exact .inl (.inr (by simp [htasks, hx]))
        · rcases List.mem_cons.mp hx with hx | hx
          · obtain ⟨hxp, hres⟩ := Task.mk.inj hx
            exact .inr ⟨hxp, attempted_finished hres.symm⟩
          · exact .inl (.inr (by simp [htasks, hx]))
    refine Underway.inv (d := done) ⟨?_, ?_, hcall hd.untouched rfl⟩ hphase ?_
    · refine { hm with places := ?_, sent := fun x hx => ?_ }
      · have hplaces := hm.places
        rw [htasks, List.map_append, List.map_cons] at hplaces
        show (done ++ (before ++ ⟨part, TaskState.attempted left r⟩ :: after).map Task.part ++
          p.channel ++ _).Perm _
        rw [List.map_append, List.map_cons]
        exact hplaces
      · rcases huploaded hx with hx | ⟨rfl, rfl⟩
        · exact List.mem_cons_of_mem _ (hm.sent x hx)
        · exact List.mem_cons_self ..
    · rcases uploads_of_uploadPart hu hans with ⟨⟨e, rfl⟩, hu'⟩ | hu'
      · refine ⟨stored, hu', fun x hx => ?_⟩
        rcases huploaded hx with hx | ⟨-, hr⟩
        · exact hst x hx
        · cases hr
      · refine ⟨_, hu', fun x hx => ?_⟩
        rw [lookup_insertKey]
        rcases huploaded hx with hx | ⟨rfl, -⟩
        · split
          · rename_i hnumber
            rw [eq_of_number (hm.mem_of_uploaded hx) hpart hnumber]
          · exact hst x hx
        · exact if_pos rfl
    · have hs := hinv.settled
      cases hp : p.phase with
      | receiving => trivial
      | awaitingReader => rwa [hp] at hs
      | draining => rwa [hp] at hs
      | _ =>
        rw [hp] at hphase
        cases hphase
  · exact Stopped.inv hs (hcall hu rfl)

/-- A part upload that ended well is joined: its part is done. -/
theorem inv_joined {before after : List Task} {part : Part} {res : Except AnyError Unit}
    (hinv : Inv key chunkSize reader w₀ p w) (hjoins : p.Joins storage)
    (htasks : p.tasks = before ++ ⟨part, .finished res⟩ :: after) :
    Inv key chunkSize reader w₀ (Pipeline.joined { p with tasks := before ++ after } part res) w := by
  rcases hinv.busy (by simp [htasks]) with ⟨hphase, done, hd⟩ | ⟨hs, -⟩
  · cases res with
    | error e => exact Stopped.inv (.inl ⟨e, rfl⟩) (hd.untouched.congr rfl)
    | ok u =>
      obtain ⟨stored, hu, hst⟩ := hd.stored
      have hm := hd.moving
      have huploaded : ∀ {x : Part}, Pipeline.Uploaded
          (Pipeline.handleCompletedPart { p with tasks := before ++ after } part)
          (done ++ [part]) x → p.Uploaded done x := by
        rintro x (hx | hx)
        · rcases List.mem_append.mp hx with hx | hx
          · exact .inl hx
          · rw [List.mem_singleton.mp hx]
            exact .inr (by simp [htasks])
        · rcases List.mem_append.mp hx with hx | hx
          · exact .inr (by simp [htasks, hx])
          · exact .inr (by simp [htasks, hx])
      refine Underway.inv (d := done ++ [part]) ⟨?_, ⟨stored, hu, fun x hx => hst x (huploaded hx)⟩,
        hd.untouched.congr rfl⟩ hphase ?_
      · refine { hm with places := ?_, numbers := ?_, uploaded := ?_, reported := ?_, sent := ?_ }
        · have hplaces := hm.places
          rw [htasks, List.map_append, List.map_cons] at hplaces
          refine List.Perm.trans ?_ hplaces
          show (done ++ [part] ++ (before ++ after).map Task.part ++ p.channel ++ _).Perm _
          rw [List.map_append]
          refine (List.Perm.append_right _ ?_).append_right _
          rw [List.append_assoc]
          have hmiddle : (part :: (before.map Task.part ++ after.map Task.part)).Perm
              (before.map Task.part ++ part :: after.map Task.part) := List.perm_middle.symm
          exact List.Perm.append_left _ hmiddle
        · show p.completedParts ++ [part.1] = (done ++ [part]).map Prod.fst
          rw [hm.numbers, List.map_append]
          rfl
        · show p.uploaded + part.2.length = totalOf (done ++ [part])
          rw [hm.uploaded]
          simp [totalOf]
        · show p.reported ++ [p.uploaded + part.2.length] = totals 0 (done ++ [part])
          rw [totals_concat, hm.reported, hm.uploaded, Nat.zero_add]
        · intro x hx
          exact hm.sent x (huploaded hx)
      · have hs := hinv.settled
        cases hp : p.phase with
        | receiving => trivial
        | awaitingReader => rwa [hp] at hs
        | draining => rwa [hp] at hs
        | _ =>
          rw [hp] at hphase
          cases hphase
  · unfold Pipeline.Joins at hjoins
    rcases hs with ⟨e, hp⟩ | ⟨e, hp⟩
    · rw [hp] at hjoins
      exact hjoins.elim
    · rw [hp] at hjoins
      exact hjoins.elim

theorem inv_readerJoined {res : Except AnyError Unit} (hinv : Inv key chunkSize reader w₀ p w)
    (hphase : p.phase = .awaitingReader) (hproducer : p.producer = .ended res) :
    Inv key chunkSize reader w₀ (p.readerJoined key res) w := by
  obtain ⟨⟨hchannel, -⟩, done, hm, hst, hu⟩ := (inv_iff hphase).mp hinv
  cases res with
  | ok u => exact (inv_iff rfl).mpr ⟨⟨hchannel, hproducer⟩, done, { hm with }, hst, hu.congr rfl⟩
  | error e => exact Stopped.inv (.inl ⟨_, rfl⟩) (hu.congr rfl)

theorem inv_drained {left : Nat} (hinv : Inv key chunkSize reader w₀ p w)
    (hphase : p.phase = .draining) (htasks : p.tasks = []) :
    Inv key chunkSize reader w₀ { p with phase := .completing left } w := by
  obtain ⟨⟨hchannel, hproducer⟩, done, hm, hst, -⟩ := (inv_iff hphase).mp hinv
  exact (inv_iff rfl).mpr ⟨⟨hchannel, hproducer, htasks⟩, done, { hm with }, .inl hst⟩

theorem inv_abort {e : AnyError} {r : Except SdkError Unit}
    (hinv : Inv key chunkSize reader w₀ p w) (hphase : p.phase = .aborting e)
    (hans : S3Answers (.abortMultipartUpload key p.id) w r w') :
    Inv key chunkSize reader w₀
      (Pipeline.called { p with phase := .failed e } (.abortMultipartUpload key p.id) r) w' := by
  have hobjects : w'.objects = w.objects := hans.objects_eq rfl rfl
  rcases ((inv_iff hphase).mp hinv).2 with hu | hj
  · exact Stopped.inv (.inr ⟨e, rfl⟩)
      (hu.call (o := .abortMultipartUpload key p.id) rfl (fun _ _ _ => nofun) hobjects)
  · exact (inv_iff rfl).mpr ⟨trivial, .inr ⟨hj.channel, hj.producer, hj.tasks⟩⟩

theorem assemble_of_lookup {stored : List Part} : ∀ {parts : List Part},
    (∀ x ∈ parts, stored.lookup x.1 = some x.2) →
      S3Op.assemble ⟨key, stored⟩ (parts.map Prod.fst) = some (parts.map Prod.snd).flatten := by
  have hmap : ∀ {parts : List Part}, (∀ x ∈ parts, stored.lookup x.1 = some x.2) →
      (parts.map Prod.fst).mapM (fun pn => stored.lookup pn) = some (parts.map Prod.snd) := by
    intro parts
    induction parts with
    | nil => exact fun _ => rfl
    | cons x xs ih =>
      intro h
      rw [List.map_cons, List.mapM_cons, h x (List.mem_cons_self ..),
        ih fun y hy => h y (List.mem_cons_of_mem _ hy)]
      rfl
  intro parts h
  unfold S3Op.assemble
  rw [hmap h]
  rfl

/-- With all tasks joined, what is done is all there is. -/
theorem Moving.perm {done : List Part} (hm : Moving key chunkSize reader p done)
    (hj : p.AllJoined) : done.Perm (partsOf chunkSize reader).1 ∧
      (partsOf chunkSize reader).2 = .ok () := by
  have hplaces := hm.places
  have hends := hm.ends
  rw [hj.tasks, hj.channel, hj.producer] at hplaces
  rw [hj.producer] at hends
  refine ⟨?_, hends.symm⟩
  simpa only [List.map_nil, List.append_nil, Producer.toSend] using hplaces

/-- The last request lists all parts, in order. -/
theorem Moving.listed_eq {done : List Part} (hm : Moving key chunkSize reader p done)
    (hj : p.AllJoined) : p.listed = (partsOf chunkSize reader).1.map Prod.fst := by
  unfold Pipeline.listed
  rw [hm.numbers]
  exact insertionSort_of_perm (hm.perm hj).1

/-- An attempt to complete the upload. -/
theorem inv_completed {left : Nat} {r : Except SdkError Unit}
    (hinv : Inv key chunkSize reader w₀ p w) (hphase : p.phase = .completing left)
    (hans : S3Answers (.completeMultipartUpload key p.id p.listed) w r w') :
    Inv key chunkSize reader w₀
      ((p.completed key left r).called (.completeMultipartUpload key p.id p.listed) r) w' := by
  obtain ⟨hj, done, hm, hs3⟩ := (inv_iff hphase).mp hinv
  have hlisted := hm.listed_eq hj
  -- a failed attempt leaves the upload as it was, or completed
  have hfailed : ∀ e, r = .error e → (Stored key p w' done ∨ w'.uploads.lookup p.id = none) →
      Inv key chunkSize reader w₀
        ((p.completed key left r).called (.completeMultipartUpload key p.id p.listed) r) w' := by
    intro e hr hs3'
    unfold Pipeline.completed
    rw [hr]
    rcases attempted_error (T := Unit) left e with ⟨e', hatt⟩ | ⟨left', hatt⟩
    · rw [hatt]
      exact (inv_iff rfl).mpr ⟨trivial, .inr ⟨hj.channel, hj.producer, hj.tasks⟩⟩
    · rw [hatt]
      refine (inv_iff rfl).mpr ⟨⟨hj.channel, hj.producer, hj.tasks⟩, done, ?_, hs3'⟩
      exact { hm with sent := fun x hx => List.mem_cons_of_mem _ (hm.sent x hx) }
  rcases hs3 with ⟨stored, hu, hst⟩ | hgone
  · by_cases hnil : (partsOf chunkSize reader).1 = []
    · have hans' := hans
      rw [hlisted, hnil] at hans'
      obtain ⟨⟨e, he⟩, hw⟩ := complete_of_nil hans'
      rw [hw] at hfailed ⊢
      exact hfailed e he (.inl ⟨stored, hu, hst⟩)
    · have hassemble : S3Op.assemble ⟨key, stored⟩ p.listed =
          some (((partsOf chunkSize reader).1.map Prod.snd).flatten) := by
        rw [hlisted]
        exact assemble_of_lookup fun x hx => hst x (.inl ((hm.perm hj).1.mem_iff.mpr hx))
      cases r with
      | ok u =>
        obtain ⟨u', bs, hu', hbs, hget⟩ := get?_of_completeMultipartUpload hans
        rw [hu] at hu'
        rw [← Option.some.inj hu', hassemble] at hbs
        refine (inv_iff rfl).mpr ⟨⟨hj.channel, hj.producer, hj.tasks⟩, done, ?_, ?_⟩
        · exact { hm with sent := fun x hx => List.mem_cons_of_mem _ (hm.sent x hx) }
        · refine ⟨rfl, ⟨_, bs, hget, rfl, (Option.some.inj hbs).symm⟩, ?_, hnil⟩
          rw [← hlisted]
          exact List.mem_cons_self ..
      | error e =>
        have hne : p.listed ≠ [] := by
          rw [hlisted]
          exact fun h => hnil (List.map_eq_nil_iff.mp h)
        rcases uploads_of_complete hu hne hassemble hans with hw | hgone
        · rw [hw] at hfailed ⊢
          exact hfailed e rfl (.inl ⟨stored, hu, hst⟩)
        · exact hfailed e rfl (.inr hgone)
  · obtain ⟨⟨e, he⟩, hw⟩ := complete_of_gone hgone hans
    rw [hw] at hfailed ⊢
    exact hfailed e he (.inr hgone)

theorem inv_step {p' : Pipeline} (hinv : Inv key chunkSize reader w₀ p w)
    (h : Pipeline.Step storage key chunkSize p w p' w') : Inv key chunkSize reader w₀ p' w' := by
  cases h with
  | create hphase hans => exact inv_create hinv hphase hans
  | fill hcreated hproducer => exact inv_fill hinv hcreated hproducer
  | send hopen hproducer _ => exact inv_send hinv hopen hproducer
  | sendClosed hclosed hcreated hproducer => exact inv_sendClosed hinv hclosed hcreated hproducer
  | recv hphase _ hchannel => exact inv_recv hinv hphase hchannel
  | closed hphase _ hchannel hproducer => exact inv_closed hinv hphase hchannel hproducer
  | attempt htasks hans => exact inv_attempt hinv htasks hans
  | join hjoins htasks => exact inv_joined hinv hjoins htasks
  | joinReader hphase hproducer => exact inv_readerJoined hinv hphase hproducer
  | drained hphase htasks => exact inv_drained hinv hphase htasks
  | complete hphase hans => exact inv_completed hinv hphase hans
  | abort hphase hans => exact inv_abort hinv hphase hans

theorem inv_start : Inv key chunkSize reader w₀ (Pipeline.start reader) w₀ := by
  refine (inv_iff rfl).mpr ⟨trivial, rfl, ?_, rfl⟩
  intro c hc
  cases hc

theorem inv_run {s s' : Pipeline × World} (hinv : Inv key chunkSize reader w₀ s.1 s.2)
    (h : Pipeline.Run storage key chunkSize s s') : Inv key chunkSize reader w₀ s'.1 s'.2 := by
  refine invariant_of_step (I := fun s => Inv key chunkSize reader w₀ s.1 s.2) ?_ hinv h
  intro s s' hi hstep
  exact inv_step hi hstep

-- ---------------------------------------------------------------------------
-- An upload that returns
-- ---------------------------------------------------------------------------

/-- A stream that is cut into parts has a chunk size above 0. -/
theorem partsOf_ne_nil (h : (partsOf chunkSize reader).1 ≠ []) : 0 < chunkSize := by
  rcases Nat.eq_zero_or_pos chunkSize with h₀ | hpos
  · refine absurd ?_ h
    rw [h₀]
    rfl
  · exact hpos

/-- All chunks but the last are full. -/
theorem readChunks_full {chunkSize : Nat} : ∀ {fuel : Nat} {r : Reader},
    ∀ c ∈ (readChunks chunkSize fuel r).1.dropLast, chunkSize ≤ c.length
  | 0, r => by simp [readChunks]
  | fuel + 1, r => by
    unfold readChunks
    split
    · simp
    · split
      · simp
      · split
        · simp
        · rename_i buf r' _ _ hfull
          have ih : ∀ c ∈ (readChunks chunkSize fuel r').1.dropLast, chunkSize ≤ c.length :=
            readChunks_full
          intro c hc
          have hc : c ∈ (buf :: (readChunks chunkSize fuel r').1).dropLast := hc
          cases hrest : (readChunks chunkSize fuel r').1 with
          | nil =>
            rw [hrest] at hc
            cases hc
          | cons d ds =>
            rw [hrest, List.dropLast_cons_cons] at hc
            rcases List.mem_cons.mp hc with rfl | hc
            · exact Nat.le_of_not_lt hfull
            · rw [hrest] at ih
              exact ih c hc

theorem totalOf_numberChunks : ∀ (n : Nat) (cs : List Bytes),
    totalOf (numberChunks n cs) = cs.flatten.length
  | _, [] => rfl
  | n, c :: cs => by
    have ih := totalOf_numberChunks (n + 1) cs
    simp only [numberChunks, totalOf, List.map_cons, List.sum_cons, List.flatten_cons,
      List.length_append] at ih ⊢
    rw [ih]

theorem pairwise_totals : ∀ (n : Nat) (xs : List Part),
    (totals n xs).Pairwise (· ≤ ·) ∧ ∀ t ∈ totals n xs, n ≤ t
  | _, [] => ⟨List.Pairwise.nil, by simp [totals]⟩
  | n, x :: xs => by
    obtain ⟨hpair, hle⟩ := pairwise_totals (n + x.2.length) xs
    refine ⟨List.pairwise_cons.mpr ⟨hle, hpair⟩, ?_⟩
    intro t ht
    rcases List.mem_cons.mp ht with rfl | ht
    · exact Nat.le_add_right ..
    · exact (Nat.le_add_right ..).trans (hle t ht)

theorem getLast?_totals : ∀ {xs : List Part} (n : Nat), xs ≠ [] →
    (totals n xs).getLast? = some (n + totalOf xs) := by
  intro xs n hne
  obtain ⟨ys, x, rfl⟩ : ∃ ys x, xs = ys ++ [x] := ⟨_, _, (List.dropLast_concat_getLast hne).symm⟩
  rw [totals_concat, List.getLast?_concat, Nat.add_assoc]
  simp [totalOf]

/-- What an upload that has returned `n` has done with its stream. -/
structure Reassembled (key : String) (chunkSize : Nat) (reader : Reader) (p : Pipeline) (w : World)
    (n : Nat) : Prop where
  /-- The object is the stream. -/
  object : ∃ o, w.get? key = some o ∧ o.body = .data reader.rest
  total : n = reader.rest.length
  /-- The parts: numbered from 1 on, each uploaded, listed in order, and full but
  for the last. -/
  parts : ∃ chunks : List Bytes, chunks.flatten = reader.rest ∧
    (∀ c ∈ chunks.dropLast, chunkSize ≤ c.length) ∧
    (∀ x ∈ numberChunks 1 chunks, partCall key p.id x ∈ p.hist) ∧
    ⟨.s3 (.completeMultipartUpload key p.id (List.range' 1 chunks.length)), .ok ()⟩ ∈ p.hist
  monotone : p.reported.Pairwise (· ≤ ·)
  reported : p.reported.getLast? = some n

theorem Inv.reassembled {n : Nat} (hinv : Inv key chunkSize reader w₀ p w)
    (hphase : p.phase = .returned n) : Reassembled key chunkSize reader p w n := by
  obtain ⟨hj, done, hm, hd⟩ := (inv_iff hphase).mp hinv
  obtain ⟨hperm, hend⟩ := hm.perm hj
  obtain ⟨o, bs, hget, hbody, hbs⟩ := hd.object
  have hpos := partsOf_ne_nil hd.ne_nil
  obtain ⟨chunks, hchunks⟩ : ∃ chunks, chunks =
      (readChunks chunkSize (reader.rest.length + 1) reader).1 := ⟨_, rfl⟩
  have hparts : (partsOf chunkSize reader).1 = numberChunks 1 chunks := by
    rw [hchunks]
    rfl
  have hflat : chunks.flatten = reader.rest :=
    readChunks_flatten hpos (Prod.ext hchunks.symm hend) (Nat.lt_succ_self _)
  have htotal : totalOf done = reader.rest.length := by
    have hsum : totalOf done = totalOf (partsOf chunkSize reader).1 :=
      (hperm.map fun x : Part => x.2.length).sum_nat
    rw [hsum, hparts, totalOf_numberChunks, hflat]
  have hdone : done ≠ [] := fun h => hd.ne_nil (by simpa [h] using hperm)
  refine ⟨⟨o, hget, ?_⟩, ?_, ⟨chunks, hflat, ?_, ?_, ?_⟩, ?_, ?_⟩
  · rw [hbody, hbs, hparts, map_snd_numberChunks, hflat]
  · rw [hd.total, hm.uploaded, htotal]
  · rw [hchunks]
    exact readChunks_full
  · intro x hx
    exact hm.sent x (.inl (hperm.mem_iff.mpr (hparts ▸ hx)))
  · have hcall := hd.call
    rw [hparts, map_fst_numberChunks] at hcall
    exact hcall
  · rw [hm.reported]
    exact (pairwise_totals 0 done).1
  · rw [hm.reported, getLast?_totals 0 hdone, hd.total, hm.uploaded, Nat.zero_add]

-- ---------------------------------------------------------------------------
-- An upload whose reader or one of whose parts fails
-- ---------------------------------------------------------------------------

/-- The reader task or a part upload has failed for good. -/
def Failing (p : Pipeline) : Prop :=
  (∃ e, p.producer = .ended (.error e)) ∨ ∃ part e, ⟨part, .finished (.error e)⟩ ∈ p.tasks

/-- It will not return, and has no object there. -/
structure Doomed (w₀ : World) (p : Pipeline) (w : World) : Prop where
  phase : (p.phase.isUnderway = true ∧ Failing p) ∨ Stopped p
  untouched : Untouched w₀ p w

theorem Inv.doomed (hinv : Inv key chunkSize reader w₀ p w) (hf : Failing p) : Doomed w₀ p w := by
  have hjoined : ¬ p.AllJoined := by
    intro hj
    rcases hf with ⟨e, he⟩ | ⟨part, e, ht⟩
    · cases he.symm.trans hj.producer
    · rw [hj.tasks] at ht
      cases ht
  cases hphase : p.phase with
  | creating left =>
    obtain ⟨-, hstart, -⟩ := (inv_iff hphase).mp hinv
    rw [hstart] at hf
    rcases hf with ⟨e, he⟩ | ⟨part, e, ht⟩
    · cases he
    · cases ht
  | receiving =>
    obtain ⟨-, done, -, -, hu⟩ := (inv_iff hphase).mp hinv
    exact ⟨.inl ⟨by rw [hphase]; rfl, hf⟩, hu⟩
  | awaitingReader =>
    obtain ⟨-, done, -, -, hu⟩ := (inv_iff hphase).mp hinv
    exact ⟨.inl ⟨by rw [hphase]; rfl, hf⟩, hu⟩
  | draining =>
    obtain ⟨-, done, -, -, hu⟩ := (inv_iff hphase).mp hinv
    exact ⟨.inl ⟨by rw [hphase]; rfl, hf⟩, hu⟩
  | completing left => exact absurd ((inv_iff hphase).mp hinv).1 hjoined
  | returned n => exact absurd ((inv_iff hphase).mp hinv).1 hjoined
  | aborting e =>
    rcases ((inv_iff hphase).mp hinv).2 with hu | hj
    · exact ⟨.inr (.inl ⟨e, hphase⟩), hu⟩
    · exact absurd hj hjoined
  | failed e =>
    rcases ((inv_iff hphase).mp hinv).2 with hu | hj
    · exact ⟨.inr (.inr ⟨e, hphase⟩), hu⟩
    · exact absurd hj hjoined

theorem Stopped.not_underway (h : Stopped p) : p.phase.isUnderway = false := by
  rcases h with ⟨e, h⟩ | ⟨e, h⟩
  · rw [h]
    rfl
  · rw [h]
    rfl

/-- The reader task or a part goes on, in the same phase. -/
theorem Doomed.same {p' : Pipeline} (hd : Doomed w₀ p w) (hphase : p'.phase = p.phase)
    (hfailing : Failing p → Failing p') (hu : Untouched w₀ p' w') : Doomed w₀ p' w' := by
  refine ⟨?_, hu⟩
  unfold Stopped
  rw [hphase]
  exact hd.phase.imp_left fun h => ⟨h.1, hfailing h.2⟩

/-- A failure is not forgotten. -/
theorem Doomed.step {p' : Pipeline} (hd : Doomed w₀ p w) (hinv : Inv key chunkSize reader w₀ p w)
    (h : Pipeline.Step storage key chunkSize p w p' w') : Doomed w₀ p' w' := by
  have hu := hd.untouched
  -- the phases it is in
  have hnot : ∀ {q : Phase}, p.phase = q → q.isUnderway = false → ¬ Stopped p → False := by
    intro q hq hq' hs
    rcases hd.phase with ⟨hw, -⟩ | hst
    · rw [hq, hq'] at hw
      cases hw
    · exact hs hst
  have hfailing : ∀ {q : Phase}, p.phase = q → q.isUnderway = true → Failing p := by
    intro q hq hq'
    rcases hd.phase with ⟨-, hf⟩ | hst
    · exact hf
    · have hno := hst.not_underway
      rw [hq, hq'] at hno
      cases hno
  cases h with
  | create hphase _ =>
    refine (hnot hphase rfl ?_).elim
    rintro (⟨e, he⟩ | ⟨e, he⟩) <;> cases hphase.symm.trans he
  | fill _ hproducer =>
    refine hd.same rfl ?_ (hu.congr rfl)
    rintro (⟨e, he⟩ | ht)
    · cases hproducer.symm.trans he
    · exact .inr ht
  | send _ hproducer _ =>
    refine hd.same rfl ?_ (hu.congr rfl)
    rintro (⟨e, he⟩ | ht)
    · cases hproducer.symm.trans he
    · exact .inr ht
  | sendClosed _ _ hproducer =>
    refine hd.same rfl ?_ (hu.congr rfl)
    rintro (⟨e, he⟩ | ht)
    · cases hproducer.symm.trans he
    · exact .inr ht
  | recv _ _ _ =>
    refine hd.same rfl ?_ (hu.congr rfl)
    rintro (he | ⟨x, e, ht⟩)
    · exact .inl he
    · exact .inr ⟨x, e, List.mem_append_left _ ht⟩
  | closed hphase _ _ _ => exact ⟨.inl ⟨rfl, hfailing hphase rfl⟩, hu.congr rfl⟩
  | attempt htasks hans =>
    refine hd.same rfl ?_ (hu.call rfl (fun _ _ _ => nofun) (objects_of_uploadPart hans))
    rintro (he | ⟨x, e, ht⟩)
    · exact .inl he
    · refine .inr ⟨x, e, ?_⟩
      rw [htasks] at ht
      rcases List.mem_append.mp ht with ht | ht
      · exact List.mem_append_left _ ht
      · rcases List.mem_cons.mp ht with ht | ht
        · cases ht
        · exact List.mem_append_right _ (List.mem_cons_of_mem _ ht)
  | join hjoins htasks =>
    rename_i res
    cases res with
    | error e => exact ⟨.inr (.inl ⟨e, rfl⟩), hu.congr rfl⟩
    | ok u =>
      refine hd.same rfl ?_ (hu.congr rfl)
      rintro (he | ⟨x, e, ht⟩)
      · exact .inl he
      · refine .inr ⟨x, e, ?_⟩
        rw [htasks] at ht
        rcases List.mem_append.mp ht with ht | ht
        · exact List.mem_append_left _ ht
        · rcases List.mem_cons.mp ht with ht | ht
          · cases ht
          · exact List.mem_append_right _ ht
  | joinReader hphase _ =>
    rename_i res _
    cases res with
    | error e => exact ⟨.inr (.inl ⟨_, rfl⟩), hu.congr rfl⟩
    | ok u => exact ⟨.inl ⟨rfl, hfailing hphase rfl⟩, hu.congr rfl⟩
  | drained hphase htasks =>
    -- all parts are joined, and the reader task was before
    obtain ⟨⟨-, hproducer⟩, -⟩ := (inv_iff hphase).mp hinv
    rcases hfailing hphase rfl with ⟨e, he⟩ | ⟨x, e, ht⟩
    · cases hproducer.symm.trans he
    · rw [htasks] at ht
      cases ht
  | complete hphase _ =>
    refine (hnot hphase rfl ?_).elim
    rintro (⟨e, he⟩ | ⟨e, he⟩) <;> cases hphase.symm.trans he
  | abort hphase hans =>
    exact ⟨.inr (.inr ⟨_, rfl⟩), hu.call rfl (fun _ _ _ => nofun) (hans.objects_eq rfl rfl)⟩

theorem Doomed.run {s s' : Pipeline × World} (hd : Doomed w₀ s.1 s.2)
    (hinv : Inv key chunkSize reader w₀ s.1 s.2)
    (h : Pipeline.Run storage key chunkSize s s') : Doomed w₀ s'.1 s'.2 := by
  refine (invariant_of_step (I := fun s => Inv key chunkSize reader w₀ s.1 s.2 ∧
    Doomed w₀ s.1 s.2) ?_ ⟨hinv, hd⟩ h).2
  intro s s' hi hstep
  exact ⟨inv_step hi.1 hstep, hi.2.step hi.1 hstep⟩

-- ---------------------------------------------------------------------------
-- Every run ends
-- ---------------------------------------------------------------------------

theorem exists_answer {o : S3Op} (ho : o.isBulk = false) (w : World) :
    ∃ r w', S3Answers o w r w' := by
  refine ⟨(o.perform w).1, (o.perform w).2, ?_⟩
  cases hr : (o.perform w).1 with
  | error e => exact .inl (Prod.ext hr rfl)
  | ok a =>
    cases o with
    | deleteObjects keys => cases ho
    | _ => exact Prod.ext hr rfl

/-- A task that is next in line moves, or can be joined. -/
theorem exists_step_of_task {t : Task} {ts : List Task} (htasks : p.tasks = t :: ts)
    (hjoins : p.Joins storage) : ∃ p' w', Pipeline.Step storage key chunkSize p w p' w' := by
  obtain ⟨part, state⟩ := t
  cases state with
  | running left =>
    obtain ⟨r, w', hans⟩ := exists_answer (o := .uploadPart key p.id part.1 part.2) rfl w
    exact ⟨_, w', .attempt (show p.tasks = [] ++ _ from htasks) hans⟩
  | finished res => exact ⟨_, w, .join hjoins (show p.tasks = [] ++ _ from htasks)⟩

/-- An upload that has not ended goes on. -/
theorem Inv.exists_step (hinv : Inv key chunkSize reader w₀ p w)
    (hcap : 1 ≤ storage.multipartPartConcurrency) (hreturned : ∀ n, p.phase ≠ .returned n)
    (hfailed : ∀ e, p.phase ≠ .failed e) :
    ∃ p' w', Pipeline.Step storage key chunkSize p w p' w' := by
  cases hphase : p.phase with
  | creating left =>
    obtain ⟨r, w', hans⟩ := exists_answer (o := .createMultipartUpload key) rfl w
    exact ⟨_, w', .create hphase hans⟩
  | receiving =>
    by_cases hfull : storage.multipartPartConcurrency ≤ p.tasks.length
    · obtain ⟨t, ts, htasks⟩ : ∃ t ts, p.tasks = t :: ts :=
        List.exists_cons_of_length_pos (by omega)
      refine exists_step_of_task htasks ?_
      unfold Pipeline.Joins
      rw [hphase]
      exact hfull
    · have hroom := Nat.lt_of_not_le hfull
      cases hchannel : p.channel with
      | cons part rest => exact ⟨_, w, .recv hphase hroom hchannel⟩
      | nil =>
        cases hproducer : p.producer with
        | reading r n => exact ⟨_, w, .fill (by rw [hphase]; rfl) hproducer⟩
        | sending r part =>
          exact ⟨_, w, .send (by rw [hphase]; rfl) hproducer (by rw [hchannel]; decide)⟩
        | ended res => exact ⟨_, w, .closed hphase hroom hchannel hproducer⟩
  | awaitingReader =>
    obtain ⟨⟨-, res, hproducer⟩, -⟩ := (inv_iff hphase).mp hinv
    exact ⟨_, w, .joinReader hphase hproducer⟩
  | draining =>
    cases htasks : p.tasks with
    | nil => exact ⟨_, w, .drained hphase htasks⟩
    | cons t ts =>
      refine exists_step_of_task htasks ?_
      unfold Pipeline.Joins
      rw [hphase]
      trivial
  | completing left =>
    obtain ⟨r, w', hans⟩ := exists_answer (o := .completeMultipartUpload key p.id p.listed) rfl w
    exact ⟨_, w', .complete hphase hans⟩
  | aborting e =>
    obtain ⟨r, w', hans⟩ := exists_answer (o := .abortMultipartUpload key p.id) rfl w
    exact ⟨_, w', .abort hphase hans⟩
  | returned n => exact absurd hphase (hreturned n)
  | failed e => exact absurd hphase (hfailed e)

end

/-- What is left to do before the upload has ended. -/
def Phase.rank : Phase → Nat
  | .creating left => left + 20
  | .receiving => 15
  | .awaitingReader => 14
  | .draining => 13
  | .completing left => left + 5
  | .aborting _ => 1
  | .returned _ | .failed _ => 0

def TaskState.rank : TaskState → Nat
  | .running left => left + 2
  | .finished _ => 1

/-- A byte that is still to be read counts for the way of the part it may begin. -/
def Producer.rank : Producer → Nat
  | .reading reader _ => 10 * reader.rest.length + 1
  | .sending reader _ => 10 * reader.rest.length + 10
  | .ended _ => 0

def Pipeline.rank (p : Pipeline) : Nat :=
  p.phase.rank + p.producer.rank + 7 * p.channel.length + (p.tasks.map fun t => t.state.rank).sum

section

variable {storage : Storage} {key : String} {chunkSize : Nat} {reader : Reader} {w₀ : World}
  {p p' : Pipeline} {w w' : World}

theorem attempted_again {T : Type} {left left' : Nat} {r : Except SdkError T}
    (h : attempted left r = .again left') : left' < left := by
  unfold attempted at h
  split at h
  · cases h
  · cases h
  · split at h
    · cases h
    · cases h
      exact Nat.lt_succ_self _

theorem rank_running (left : Nat) : (TaskState.running left).rank = left + 2 := rfl

theorem rank_attempted (left : Nat) (r : Except SdkError Unit) :
    (TaskState.attempted left r).rank < left + 2 := by
  unfold TaskState.attempted
  cases hatt : attempted left r with
  | ended res => exact Nat.lt_add_left left (Nat.lt_succ_self 1)
  | again left' => exact Nat.add_lt_add_right (attempted_again hatt) 2

theorem rank_filled {n : Nat} {r : Reader} :
    (Producer.filled n (fillBuffer chunkSize chunkSize r)).rank < (Producer.reading r n).rank := by
  cases hfill : fillBuffer chunkSize chunkSize r with
  | mk res r' =>
    cases res with
    | error e => exact Nat.succ_pos _
    | ok buf =>
      unfold Producer.filled
      dsimp only
      split
      · exact Nat.succ_pos _
      · rename_i hemp
        have hlen := length_fillBuffer hfill le_rfl
        have hpos : 0 < buf.length := List.length_pos_iff.mpr (by simpa using hemp)
        show 10 * r'.rest.length + 10 < 10 * r.rest.length + 1
        omega

theorem rank_sent (r : Reader) (part : Part) :
    (Producer.sent chunkSize r part).rank + 9 ≤ (Producer.sending r part).rank := by
  unfold Producer.sent
  split
  · show 0 + 9 ≤ 10 * r.rest.length + 10
    omega
  · show 10 * r.rest.length + 1 + 9 ≤ 10 * r.rest.length + 10
    omega

/-- A move of the upload alone. -/
theorem rank_of_phase (hproducer : p'.producer = p.producer) (hchannel : p'.channel = p.channel)
    (htasks : p'.tasks = p.tasks) (hphase : p'.phase.rank < p.phase.rank) : p'.rank < p.rank := by
  unfold Pipeline.rank
  rw [hproducer, hchannel, htasks]
  omega

theorem rank_created {left : Nat} {r : Except SdkError UploadId} (hphase : p.phase = .creating left) :
    (p.created key left r).rank < p.rank := by
  unfold Pipeline.created
  cases hatt : attempted left r with
  | ended res =>
    cases res with
    | ok id =>
      refine rank_of_phase rfl rfl rfl ?_
      rw [hphase]
      show 15 < left + 20
      omega
    | error e =>
      refine rank_of_phase rfl rfl rfl ?_
      rw [hphase]
      exact Nat.succ_pos _
  | again left' =>
    refine rank_of_phase rfl rfl rfl ?_
    rw [hphase]
    exact Nat.add_lt_add_right (attempted_again hatt) 20

theorem rank_completed {left : Nat} {r : Except SdkError Unit} (hphase : p.phase = .completing left) :
    (p.completed key left r).rank < p.rank := by
  unfold Pipeline.completed
  cases hatt : attempted left r with
  | ended res =>
    cases res with
    | ok u =>
      refine rank_of_phase rfl rfl rfl ?_
      rw [hphase]
      exact Nat.succ_pos _
    | error e =>
      refine rank_of_phase rfl rfl rfl ?_
      rw [hphase]
      show 1 < left + 5
      omega
  | again left' =>
    refine rank_of_phase rfl rfl rfl ?_
    rw [hphase]
    exact Nat.add_lt_add_right (attempted_again hatt) 5

theorem rank_readerJoined {res : Except AnyError Unit} (hphase : p.phase = .awaitingReader) :
    (p.readerJoined key res).rank < p.rank := by
  cases res with
  | ok u =>
    refine rank_of_phase rfl rfl rfl ?_
    rw [hphase]
    exact Nat.lt_succ_self 13
  | error e =>
    refine rank_of_phase rfl rfl rfl ?_
    rw [hphase]
    exact Nat.lt_add_left 12 (Nat.lt_succ_self 1)

/-- A joined part is no longer counted; a failed one ends the loops. -/
theorem rank_joined {before after : List Task} {part : Part} {res : Except AnyError Unit}
    (hjoins : p.Joins storage) (htasks : p.tasks = before ++ ⟨part, .finished res⟩ :: after) :
    (Pipeline.joined { p with tasks := before ++ after } part res).rank < p.rank := by
  have hsum : ((before ++ after).map fun t => t.state.rank).sum + 1 =
      (p.tasks.map fun t => t.state.rank).sum := by
    rw [htasks]
    simp only [List.map_append, List.map_cons, List.sum_append, List.sum_cons, TaskState.rank]
    omega
  have hphase : 1 ≤ p.phase.rank := by
    unfold Pipeline.Joins at hjoins
    split at hjoins
    · rename_i hp
      rw [hp]
      decide
    · rename_i hp
      rw [hp]
      decide
    · exact hjoins.elim
  unfold Pipeline.rank
  cases res with
  | ok u =>
    show p.phase.rank + p.producer.rank + 7 * p.channel.length +
      ((before ++ after).map fun t => t.state.rank).sum < _
    omega
  | error e =>
    show 1 + p.producer.rank + 7 * p.channel.length +
      ((before ++ after).map fun t => t.state.rank).sum < _
    omega

/-- Each step uses something up. -/
theorem rank_lt (h : Pipeline.Step storage key chunkSize p w p' w') : p'.rank < p.rank := by
  cases h with
  | create hphase _ => exact rank_created hphase
  | fill _ hproducer =>
    unfold Pipeline.rank
    rw [hproducer]
    exact Nat.add_lt_add_right (Nat.add_lt_add_right (Nat.add_lt_add_left rank_filled _) _) _
  | send _ hproducer _ =>
    rename_i r part _ _
    have hsent := @rank_sent chunkSize r part
    unfold Pipeline.rank
    rw [hproducer]
    simp only [List.length_append, List.length_singleton]
    omega
  | sendClosed _ _ hproducer =>
    unfold Pipeline.rank
    rw [hproducer]
    simp only [Producer.rank]
    omega
  | recv _ _ hchannel =>
    unfold Pipeline.rank
    rw [hchannel]
    simp only [List.length_cons, List.map_append, List.map_cons, List.map_nil, List.sum_append,
      List.sum_cons, List.sum_nil, TaskState.rank, s3RetryConfig]
    omega
  | closed hphase _ _ _ =>
    refine rank_of_phase rfl rfl rfl ?_
    rw [hphase]
    exact Nat.lt_succ_self 14
  | attempt htasks _ =>
    rename_i before after part left r _
    have hatt := rank_attempted left r
    unfold Pipeline.rank Pipeline.called
    rw [htasks]
    simp only [List.map_append, List.map_cons, List.sum_append, List.sum_cons, rank_running]
    omega
  | join hjoins htasks => exact rank_joined hjoins htasks
  | joinReader hphase _ => exact rank_readerJoined hphase
  | drained hphase _ =>
    refine rank_of_phase rfl rfl rfl ?_
    rw [hphase]
    show s3RetryConfig.maxAttempts - 1 + 5 < 13
    decide
  | complete hphase _ => exact rank_completed hphase
  | abort hphase _ =>
    refine rank_of_phase rfl rfl rfl ?_
    rw [hphase]
    exact Nat.lt_succ_self 0

theorem wellFounded_step : WellFounded fun s' s : Pipeline × World =>
    Pipeline.Step storage key chunkSize s.1 s.2 s'.1 s'.2 :=
  Subrelation.wf rank_lt (measure fun s : Pipeline × World => s.1.rank).wf

/-- A multipart upload, with any of its requests failing and its tasks moving in
any order: when it returns, its object is the stream; when the reader or a part
fails for good, it fails, and makes no object; and each run of it ends. -/
theorem multipart_reassembles (storage : Storage) (hcap : 1 ≤ storage.multipartPartConcurrency)
    (key : String) (chunkSize : Nat) (reader : Reader) (w₀ : World) :
    (∀ s n, Pipeline.Run storage key chunkSize (.start reader, w₀) s → s.1.phase = .returned n →
      Reassembled key chunkSize reader s.1 s.2 n) ∧
    (∀ s s', Pipeline.Run storage key chunkSize (.start reader, w₀) s → Failing s.1 →
      Pipeline.Run storage key chunkSize s s' →
      (∀ n, s'.1.phase ≠ .returned n) ∧ Untouched w₀ s'.1 s'.2 ∧
      ((∀ p w, ¬ Pipeline.Step storage key chunkSize s'.1 s'.2 p w) →
        ∃ e, s'.1.phase = .failed e)) ∧
    WellFounded fun s' s : Pipeline × World =>
      Pipeline.Step storage key chunkSize s.1 s.2 s'.1 s'.2 := by
  refine ⟨?_, ?_, wellFounded_step⟩
  · intro s n hrun hphase
    exact (inv_run inv_start hrun).reassembled hphase
  · intro s s' hrun hfailing hrun'
    have hinv := inv_run inv_start hrun
    have hd := (hinv.doomed hfailing).run hinv hrun'
    have hnot : ∀ n, s'.1.phase ≠ .returned n := by
      intro n hn
      rcases hd.phase with ⟨hw, -⟩ | hst
      · rw [hn] at hw
        cases hw
      · rcases hst with ⟨e, he⟩ | ⟨e, he⟩ <;> cases hn.symm.trans he
    refine ⟨hnot, hd.untouched, ?_⟩
    intro hstuck
    by_contra hno
    obtain ⟨p, w, hstep⟩ := (inv_run hinv hrun').exists_step hcap hnot
      fun e he => hno ⟨e, he⟩
    exact hstuck p w hstep

theorem multipart_reassembles_threeBytes :
    (∀ s n, Pipeline.Run ⟨2, 2, 1, 1⟩ "k" 2 (.start ⟨[1, 2, 3], []⟩, {}) s →
      s.1.phase = .returned n → Reassembled "k" 2 ⟨[1, 2, 3], []⟩ s.1 s.2 n) ∧
    WellFounded fun s' s : Pipeline × World =>
      Pipeline.Step ⟨2, 2, 1, 1⟩ "k" 2 s.1 s.2 s'.1 s'.2 := by
  have h := multipart_reassembles ⟨2, 2, 1, 1⟩ (by decide) "k" 2 ⟨[1, 2, 3], []⟩ {}
  exact ⟨h.1, h.2.2⟩

-- ---------------------------------------------------------------------------
-- One part upload after the other
-- ---------------------------------------------------------------------------

theorem canReturn_withRetryFrom {T E : Type} {f : Nat → P (RetryResult T E)} {v : T}
    {left attempt : Nat} (h : Prog.CanReturn (f attempt) (.ok v)) :
    Prog.CanReturn (withRetryFrom f left attempt) (.ok v) := by
  unfold withRetryFrom
  exact Prog.canReturn_bind.mpr ⟨.ok v, h, Prog.canReturn_pure.mpr rfl⟩

theorem canReturn_s3Retry {o : S3Op} (v : S3Ok o) : Prog.CanReturn (s3Retry o) v := by
  have hattempt : Prog.CanReturn (do return classifyS3 (← send o) : P (RetryResult (S3Ok o) AnyError))
      (.ok v) := Prog.canReturn_bind.mpr ⟨Except.ok v, Prog.canReturn_ask _, rfl⟩
  exact Prog.canReturn_bind.mpr
    ⟨Except.ok v, canReturn_withRetryFrom hattempt, Prog.canReturn_pure.mpr rfl⟩

theorem canReturn_uploadOnePart (key : String) (id : UploadId) (part : Part) :
    Prog.CanReturn (uploadOnePart key id part) (part.1, part.2.length) :=
  Prog.canReturn_bind.mpr ⟨(), canReturn_s3Retry _, rfl⟩

/-- What the tasks return the program with its uploads in a row can return. -/
theorem Inv.canReturn {n expectedSize : Nat} (hinv : Inv key (computeChunkSize (max expectedSize 1)
      storage.minChunkSize storage.maxChunkSize storage.targetParts) reader w₀ p w)
    (hphase : p.phase = .returned n) :
    Prog.CanReturn (putObjectMultipartReader storage key reader expectedSize) n := by
  obtain ⟨hj, done, hm, hd⟩ := (inv_iff hphase).mp hinv
  obtain ⟨hperm, hend⟩ := hm.perm hj
  rcases hread : readChunks (computeChunkSize (max expectedSize 1) storage.minChunkSize
    storage.maxChunkSize storage.targetParts) (reader.rest.length + 1) reader with ⟨chunks, res⟩
  unfold partsOf Producer.toSend at hperm hend
  simp only [hread] at hperm hend
  have htotal : totalOf (reorder [] (numberChunks 1 chunks)) = n := by
    rw [hd.total, hm.uploaded]
    exact ((reorder_perm [] _).trans hperm.symm |>.map fun x : Part => x.2.length).sum_nat
  have hinner : Prog.CanReturn (putObjectMultipartReaderInner storage key 0 reader expectedSize) n := by
    simp only [putObjectMultipartReaderInner, hread, hend]
    refine Prog.canReturn_bind.mpr ⟨[], Prog.canReturn_ask _, ?_⟩
    refine Prog.canReturn_bind.mpr ⟨_, Prog.canReturn_collect_map
      fun part _ => canReturn_uploadOnePart key 0 part, ?_⟩
    refine Prog.canReturn_bind.mpr ⟨(), Prog.canReturn_pure.mpr rfl, ?_⟩
    refine Prog.canReturn_bind.mpr
      ⟨(), (canReturn_s3Retry (o := .completeMultipartUpload _ _ _) ()).mapFail, ?_⟩
    refine Prog.canReturn_pure.mpr ?_
    rw [List.map_map]
    exact htotal
  unfold putObjectMultipartReader
  refine Prog.canReturn_bind.mpr ⟨0, (canReturn_s3Retry (o := .createMultipartUpload _) 0).mapFail, ?_⟩
  exact Prog.canReturn_bind.mpr ⟨_, hinner.attempt, rfl⟩

end

end Chbk
