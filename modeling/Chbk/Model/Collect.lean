import Mathlib.Data.List.Lex
import Mathlib.Data.List.Sort
import Mathlib.Data.String.Basic
import Chbk.Model.Staging

/-!
# Collecting the files of a staged directory

`collect_files` of `part_zip.rs`: the regular files below a directory, in an order
that does not depend on the walk.

* `collectEntry` — one round of the loop over the walk.
* `collectFiles` — the loop, and the sort behind it.

Paths are compared name by name, as `Path` does. The walk gives the paths below the
directory, so the prefix is never missing.
-/

namespace Chbk

open Lib

/-- One entry of the walk: a file is kept with its path below the directory and its
size. -/
def collectEntry (dir : String) (out : List (RelPath × ZipFileEntry))
    (entry : Except AnyError (RelPath × FileType)) : StageP (List (RelPath × ZipFileEntry)) := do
  let (rel, ft) ← liftStage entry
  if ft = .symlink then
    throw ["Symlinks are not supported in part zips: " ++ shown dir rel]
  if ft ≠ .file then return out
  let relPath := joinWith "/" rel
  liftStage (validateRelPath relPath)
  let size ← metadataLen .dst rel
  return out ++ [(rel, ⟨shown dir rel, relPath, UInt64.ofNat size⟩)]

def collectFiles (dir : String) : StageP (List ZipFileEntry) := do
  let entries ← fsCall (.walkDir .dst)
  let out ← Prog.foldl (collectEntry dir) [] entries
  return (out.insertionSort fun x y => x.1 ≤ y.1).map Prod.snd

end Chbk
