import Chbk.Lib.Run
import Chbk.Model.Collect
import Chbk.Model.Snapshots

/-!
# Two runs in one staging directory

Two backups with one `BACKUP_DIR` stage and collect the parts in the same directories. What
one of them does at the directory of a hash, it does beside the file-level steps of the other.

* `archivePart` — a backup at the directory of one hash, up to the list of its files.
* `OtherStep` — what the other one does there in one step.
* `BesideAnswers` — the calls of the one, with steps of the other before them, and beside
  them in a walk.
-/

namespace Chbk

open Lib

-- ---------------------------------------------------------------------------
-- A run at the directory of a hash
-- ---------------------------------------------------------------------------

/-- `cleanup_staging_dirs_sync`, as far as it concerns the directory of the hash. What is
missing is passed over. -/
def cleanupStagingDirsSync (root : String) : StageP Unit :=
  Prog.mapFail (withContext ("Failed to remove " ++ root)) (do
    liftStage (← fsCall (.removeDirAll .dst))
    liftStage (← fsCall (.removeFile .marker)))

/-- The part in a pass of `stage_parts_cas_sync`. -/
def stagePartCasSync (paths : StagePaths) : StageP UInt32 := do
  if !(← fsCall (.pathExists .src)) then throw ["missing"]
  stagePartDirSync paths

/-- The passes of the first phase: whatever fails, the part is staged again in the next. -/
def stageAgain (paths : StagePaths) (missing : Nat) : Nat → StageP Unit
  | 0 => throw ["Some parts disappeared during staging after " ++ toString MAX_STAGING_ITERATIONS
      ++ " passes (" ++ toString missing ++ " missing)"]
  | n + 1 => do
    match ← Prog.attempt (stagePartCasSync paths) with
    | .ok _ => return ()
    | .error _ => stageAgain paths missing n

/-- A backup at the directory of one hash: it wipes what is there, stages the part, and later
collects the files for the archive. -/
def archivePart (root : String) (paths : StagePaths) (missing : Nat) :
    StageP (List ZipFileEntry) := do
  cleanupStagingDirsSync root
  stageAgain paths missing MAX_STAGING_ITERATIONS
  collectFiles paths.dst

-- ---------------------------------------------------------------------------
-- Beside another run
-- ---------------------------------------------------------------------------

/-- The calls of a run at the directory of a hash, the latest first. -/
abbrev StageHistory := History StageOp StageResp

/-- A step of the other run: a directory is made, a file linked, the marker written or
removed; a wipe and a cleanup take away one entry after the other. -/
inductive OtherStep (source : Tree) : Staging → Staging → Prop where
  | unlink (s : Staging) (l r : Tree) (y : RelPath × Node) (hdst : s.dst = l ++ y :: r) :
    OtherStep source s { s with dst := l ++ r }
  | makeDir (s : Staging) (p : RelPath) (hdir : source.lookup p = some .dir)
    (hfree : s.dst.lookup p = none) : OtherStep source s { s with dst := insertKey p .dir s.dst }
  | link (s : Staging) (p : RelPath) (bs : Bytes) (hfile : source.fileAt p = some bs)
    (hfree : s.dst.lookup p = none) :
    OtherStep source s { s with dst := insertKey p (.file bs) s.dst }
  | write (s : Staging) (bs : Bytes) : OtherStep source s { s with marker := [([], .file bs)] }
  | removeMarker (s : Staging) : OtherStep source s { s with marker := [] }

/-- Steps one after the other, with the states they pass. -/
inductive Passes {σ : Type} (step : σ → σ → Prop) : σ → List σ → σ → Prop where
  | here (s : σ) : Passes step s [s] s
  | next {s s₁ s₂ : σ} {ss : List σ} (hstep : step s s₁) (hrest : Passes step s₁ ss s₂) :
    Passes step s (s :: ss) s₂

/-- A walk over a tree that changes comes to what was there at some time; if it meets no
error, it comes to all that was there all the time. -/
def WalkOver (trees : List Tree) (entries : List (Except AnyError (RelPath × FileType))) : Prop :=
  (∀ rel ft, .ok (rel, ft) ∈ entries →
    ∃ t ∈ trees, ∃ node, t.lookup rel = some node ∧ node.fileType = ft) ∧
  ((∀ e, .error e ∉ entries) → ∀ rel node, (∀ t ∈ trees, t.lookup rel = some node) →
    .ok (rel, node.fileType) ∈ entries)

/-- How a call is answered behind these states: a walk takes the time of all of them. -/
def AnswersOver (source : Tree) :
    (op : StageOp) → List Staging → Staging → StageResp op → Staging → Prop
  | .walkDir site, ss, s, entries, s' => WalkOver (ss.map (·.at source site)) entries ∧ s' = s
  | op, _, s, r, s' => StageAnswers source op s r s'

/-- A call of a run beside another one, whose steps are all `ok`. -/
def BesideAnswers (source : Tree) (ok : StageHistory → Staging → Staging → Prop) (op : StageOp)
    (x : Staging × StageHistory) (r : StageResp op) (x' : Staging × StageHistory) : Prop :=
  x'.2 = ⟨op, r⟩ :: x.2 ∧ ∃ ss s,
    Passes (fun t t' => OtherStep source t t' ∧ ok x.2 t t') x.1 ss s ∧
      AnswersOver source op ss s r x'.1

end Chbk
