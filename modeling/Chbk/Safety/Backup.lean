import Chbk.Model.Snapshots
import Chbk.Safety.Bucket
import Chbk.Safety.Requests

/-!
# The rule a backup follows

What a backup has learned so far (`BackupView`), and what it may do
(`BackupRule`): it deletes nothing, writes blobs only, and puts its one manifest
only when it has learned of every blob that the blob is there. A blob is written
from parts that make up the whole of a ZIP stream.
-/

namespace Chbk

open Lib Prog

/-- What a backup has learned from the answers to its calls. -/
structure BackupView where
  /-- Keys of the blobs of the manifests it has read. -/
  known : List String := []
  /-- Keys its HEAD checks have found. -/
  head : List String := []
  /-- Keys it has uploaded. -/
  uploaded : List String := []
  /-- The blob keys of the manifest it has tried to write. -/
  put : Option (List String) := none
  /-- The files collected for a hash. -/
  files : List (String × List ZipFileEntry) := []
  /-- What opening the files of a hash gives. -/
  opened : List (String × (String → Except AnyError Reader)) := []
  /-- The parts it has uploaded, by upload and number. -/
  sent : List (UploadId × Nat × Bytes) := []

namespace BackupView

/-- The blobs it takes to be in the bucket. -/
def relied (v : BackupView) : List String := v.known ++ v.head ++ v.uploaded

/-- The blobs its manifest needs, or will need. -/
def needs (v : BackupView) : List String := v.put.getD v.relied

def observe (v : BackupView) : (op : Op) → Resp op → BackupView
  | .s3 (.getObject _), .ok (.manifest m) => { v with known := m.blobKeys ++ v.known }
  | .s3 (.headObject key), .ok _ => { v with head := key :: v.head }
  | .s3 (.putObject _ (.manifest m) _ _), _ => { v with put := some m.blobKeys }
  | .s3 (.createMultipartUpload _), .ok id =>
    { v with sent := v.sent.filter fun x => x.1 ≠ id }
  | .s3 (.uploadPart _ id pn data), .ok _ => { v with sent := (id, pn, data) :: v.sent }
  | .s3 (.completeMultipartUpload key _ _), .ok _ => { v with uploaded := key :: v.uploaded }
  | .env (.collectFiles hash _), .ok files => { v with files := (hash, files) :: v.files }
  | .env (.openFiles hash _), openFile => { v with opened := (hash, openFile) :: v.opened }
  | _, _ => v

/-- The later view has learned what the earlier one has, and has not put a
manifest since. -/
structure Le (v v' : BackupView) : Prop where
  known : ∀ k ∈ v.known, k ∈ v'.known
  head : ∀ k ∈ v.head, k ∈ v'.head
  uploaded : ∀ k ∈ v.uploaded, k ∈ v'.uploaded
  put : v'.put = v.put
  files : ∀ x ∈ v.files, x ∈ v'.files
  opened : ∀ x ∈ v.opened, x ∈ v'.opened

theorem Le.refl (v : BackupView) : v.Le v :=
  ⟨fun _ h => h, fun _ h => h, fun _ h => h, rfl, fun _ h => h, fun _ h => h⟩

theorem Le.trans {v v' v'' : BackupView} (h : v.Le v') (h' : v'.Le v'') : v.Le v'' :=
  ⟨fun k hk => h'.known k (h.known k hk), fun k hk => h'.head k (h.head k hk),
    fun k hk => h'.uploaded k (h.uploaded k hk), h'.put.trans h.put,
    fun k hk => h'.files k (h.files k hk), fun k hk => h'.opened k (h.opened k hk)⟩

theorem mem_relied {v : BackupView} {k : String} :
    k ∈ v.relied ↔ k ∈ v.known ∨ k ∈ v.head ∨ k ∈ v.uploaded := by
  simp [relied]

theorem Le.relied {v v' : BackupView} (h : v.Le v') {k : String} (hk : k ∈ v.relied) :
    k ∈ v'.relied := by
  rw [mem_relied] at hk ⊢
  exact hk.imp (h.known k) (Or.imp (h.head k) (h.uploaded k))

end BackupView

/-- The watch over a backup. -/
def backupWatch : Watch Op Resp BackupView := ⟨{}, BackupView.observe⟩

/-- What a backup may do. -/
def BackupRule (v : BackupView) : Op → Prop
  | .env _ => True
  | .s3 (.listObjectsV2 _) | .s3 (.headObject _) | .s3 (.abortMultipartUpload ..) => True
  | .s3 (.getObject key) => ∃ name, key = manifestKey name
  | .s3 (.putObject key body ifMatch ifNoneMatch) =>
    v.put = none ∧ ∃ m, key = manifestKey m.name ∧ body = .manifest m ∧ ifMatch = none
      ∧ ifNoneMatch = true ∧ ∀ k ∈ m.blobKeys, k ∈ v.relied
  | .s3 (.createMultipartUpload key) => ∃ hash, key = blobRemoteKey hash
  | .s3 (.uploadPart key id pn _) =>
    (∃ hash, key = blobRemoteKey hash) ∧ ∀ data, (id, pn, data) ∉ v.sent
  | .s3 (.completeMultipartUpload key id pns) =>
    ∃ hash files openFile, key = blobRemoteKey hash ∧ (hash, files) ∈ v.files
      ∧ (hash, openFile) ∈ v.opened ∧ ∃ datas : List Bytes,
        List.Forall₂ (fun pn data => (id, pn, data) ∈ v.sent) pns datas
          ∧ datas.flatten = (zipOutput openFile files).2
  | .s3 (.deleteObject _) | .s3 (.deleteObjects _) => False

/-! ## Pieces of a backup -/

/-- A piece of a backup before its manifest: it follows the rule, forgets
nothing, and returns with `Q`. -/
def Backs {α : Type} (p : P α) (v : BackupView) (Q : α → BackupView → Prop) : Prop :=
  Follows backupWatch BackupRule p v (fun a v' => v.Le v' ∧ Q a v') (fun _ v' => v.Le v')

namespace Backs

variable {α β : Type} {v : BackupView}

theorem pure {a : α} {Q : α → BackupView → Prop} (h : Q a v) : Backs (Pure.pure a) v Q :=
  Follows.pure ⟨.refl v, h⟩

theorem throw {e : AnyError} {Q : α → BackupView → Prop} :
    Backs (MonadExcept.throw e : P α) v Q :=
  Follows.throw (.refl v)

theorem bind {p : P α} {f : α → P β} {R : α → BackupView → Prop} {Q : β → BackupView → Prop}
    (h : Backs p v R) (hf : ∀ a v', v.Le v' → R a v' → Backs (f a) v' Q) :
    Backs (p >>= f) v Q := by
  refine Follows.bind (Follows.mono h (fun a v' ha => ha) fun e v' he => he) fun a v' ha => ?_
  exact Follows.mono (hf a v' ha.1 ha.2) (fun b v'' hb => ⟨ha.1.trans hb.1, hb.2⟩)
    fun e v'' he => ha.1.trans he

theorem mono {p : P α} {Q Q' : α → BackupView → Prop} (h : Backs p v Q)
    (hQ : ∀ a v', v.Le v' → Q a v' → Q' a v') : Backs p v Q' :=
  Follows.mono h (fun a v' ha => ⟨ha.1, hQ a v' ha.1 ha.2⟩) fun _ _ he => he

theorem attempt {p : P α} {Q : α → BackupView → Prop} (h : Backs p v Q) :
    Backs (Prog.attempt p) v fun x v' => ∀ a, x = .ok a → Q a v' :=
  Follows.attempt <| Follows.mono h (fun a v' ha => ⟨ha.1, fun b hb => Except.ok.inj hb ▸ ha.2⟩)
    fun e v' he => ⟨he, by simp⟩

theorem mapFail {p : P α} {g : AnyError → AnyError} {Q : α → BackupView → Prop}
    (h : Backs p v Q) : Backs (Prog.mapFail g p) v Q :=
  Follows.mapFail h

theorem liftP {x : Except AnyError α} {Q : α → BackupView → Prop} (h : ∀ a, x = .ok a → Q a v) :
    Backs (Chbk.liftP x) v Q :=
  follows_liftP (fun a ha => ⟨.refl v, h a ha⟩) fun _ _ => .refl v

/-- A loop, with an invariant that later calls keep. -/
theorem collect {f : α → P β} {l : List α} (I : List α → List β → BackupView → Prop)
    (hf : ∀ pre bs a post v', v.Le v' → l = pre ++ a :: post → I pre bs v' →
      Backs (f a) v' fun b v'' => I (pre ++ [a]) (bs ++ [b]) v'') (hI : I [] [] v) :
    Backs (Prog.collect f l) v fun bs v' => I l bs v' := by
  refine follows_collect (fun pre bs v' => v.Le v' ∧ I pre bs v') ?_ ⟨.refl v, hI⟩
  intro pre bs a post v' hl hI'
  exact Follows.mono (hf pre bs a post v' hI'.1 hl hI'.2)
    (fun b v'' hb => ⟨hI'.1.trans hb.1, hb.2⟩) fun e v'' he => hI'.1.trans he

end Backs

/-- Calls a backup may make at any time, and learns nothing from: the
surroundings (but for the files of a hash) and listings. -/
def Quiet : Op → Prop
  | .env (.collectFiles _ _) | .env (.openFiles _ _) => False
  | .env _ => True
  | .s3 (.listObjectsV2 _) | .s3 (.abortMultipartUpload ..) => True
  | _ => False

theorem Quiet.rule {op : Op} (h : Quiet op) (v : BackupView) : BackupRule v op := by
  match op, h with
  | .env _, _ => trivial
  | .s3 (.listObjectsV2 _), _ => trivial
  | .s3 (.abortMultipartUpload ..), _ => trivial

theorem Quiet.observe {op : Op} (h : Quiet op) (v : BackupView) (r : Resp op) :
    v.observe op r = v := by
  match op, h, r with
  | .s3 (.listObjectsV2 _), _, _ => rfl
  | .s3 (.abortMultipartUpload ..), _, _ => rfl
  | .env o, h, r => cases o <;> first | rfl | exact h.elim

theorem Backs.quiet {α : Type} {p : P α} (h : Only Quiet p) (v : BackupView) :
    Backs p v fun _ v' => v' = v :=
  Follows.mono (h.follows (I := fun v' => v' = v) (fun v' _ ho _ => ho.rule v')
    (fun v' _ r ho hv => (ho.observe v' r).trans hv) rfl)
    (fun _ _ hv => ⟨hv ▸ .refl v, hv⟩) fun _ _ hv => hv ▸ .refl v

theorem Backs.ask (o : EnvOp) (h : Quiet (.env o)) (v : BackupView) :
    Backs (askEnv o) v fun _ v' => v' = v :=
  Backs.quiet (only_ask h) v

theorem Backs.send (o : S3Op) (h : Quiet (.s3 o)) (v : BackupView) :
    Backs (Chbk.send o) v fun _ v' => v' = v :=
  Backs.quiet (only_ask h) v

end Chbk
