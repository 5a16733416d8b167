import Chbk.Zip.Calls
import Chbk.Zip.Tree

/-!
# Extractions that keep apart

Extractions into directories that are apart share one tree. What each sees of it
is the tree at and below its own directory.

* `Fs.below` — that part of a tree, with directories everywhere above.
* `perform_below` — a call of an extraction acts there as on the whole tree.
* `below_apart` — the calls of the others change nothing there.
* `treeShares` — so the extractions of a pool keep to their shares.
-/

namespace Chbk

open Lib

-- ---------------------------------------------------------------------------
-- The tree below a directory
-- ---------------------------------------------------------------------------

/-- The tree at and below a place; above it there are directories alone. -/
def Fs.below (fs : Fs) (dest : AbsPath) : Fs where
  files q := if dest <+: q then fs.files q else none
  dirs q := if dest <+: q then fs.dirs q else true

section

variable {dest p : AbsPath} {fs fs' : Fs}

theorem Fs.below_files (h : dest <+: p) : (fs.below dest).files p = fs.files p := if_pos h

theorem Fs.below_dirs (h : dest <+: p) : (fs.below dest).dirs p = fs.dirs p := if_pos h

theorem Fs.below_dirs_above (h : ¬ dest <+: p) : (fs.below dest).dirs p = true := if_neg h

theorem Fs.below_setFile (h : dest <+: p) (bs : Bytes) :
    (fs.setFile p bs).below dest = (fs.below dest).setFile p bs := by
  have hfiles : ((fs.setFile p bs).below dest).files = ((fs.below dest).setFile p bs).files := by
    funext q
    simp only [below, setFile]
    by_cases hq : q = p
    · rw [hq, if_pos h, if_pos rfl, if_pos rfl]
    · rw [if_neg hq, if_neg hq]
  exact Fs.mk.injEq .. ▸ ⟨hfiles, rfl⟩

theorem Fs.below_setFile_apart (h : ¬ dest <+: p) (bs : Bytes) :
    (fs.setFile p bs).below dest = fs.below dest := by
  have hfiles : ((fs.setFile p bs).below dest).files = (fs.below dest).files := by
    funext q
    simp only [below, setFile]
    by_cases hq : dest <+: q
    · have hne : q ≠ p := fun he => h (he ▸ hq)
      rw [if_neg hne]
    · rw [if_neg hq, if_neg hq]
  exact Fs.mk.injEq .. ▸ ⟨hfiles, rfl⟩

theorem Fs.below_setDir (dest p : AbsPath) (fs : Fs) :
    (fs.setDir p).below dest = (fs.below dest).setDir p := by
  have hdirs : ((fs.setDir p).below dest).dirs = ((fs.below dest).setDir p).dirs := by
    funext q
    simp only [below, setDir]
    by_cases hq : dest <+: q
    · rw [if_pos hq, if_pos hq]
    · rw [if_neg hq, if_neg hq, Bool.or_true]
  exact Fs.mk.injEq .. ▸ ⟨rfl, hdirs⟩

theorem Fs.below_setDir_apart (h : ¬ dest <+: p) : (fs.setDir p).below dest = fs.below dest := by
  have hdirs : ((fs.setDir p).below dest).dirs = (fs.below dest).dirs := by
    funext q
    simp only [below, setDir]
    by_cases hq : dest <+: q
    · have hne : q ≠ p := fun he => h (he ▸ hq)
      rw [if_pos hq, if_pos hq, decide_eq_false hne, Bool.false_or]
    · rw [if_neg hq, if_neg hq]
  exact Fs.mk.injEq .. ▸ ⟨rfl, hdirs⟩

-- ---------------------------------------------------------------------------
-- Directories
-- ---------------------------------------------------------------------------

/-- A directory that is made or there is so below, too. -/
theorem Fs.mkdirStep_below (h : fs.mkdirStep p = .ok fs') :
    (fs.below dest).mkdirStep p = .ok (fs'.below dest) := by
  unfold mkdirStep at h ⊢
  by_cases hp : dest <+: p
  · rw [below_dirs hp, below_files hp, ← below_setDir]
    split_ifs at h ⊢ with hd hf
    · rw [Except.ok.inj h]
    · rw [Except.ok.inj h]
  · rw [below_dirs_above hp, if_pos rfl]
    split_ifs at h with hd hf
    · rw [Except.ok.inj h]
    · rw [← Except.ok.inj h, below_setDir_apart hp]

theorem Fs.foldlM_mkdirStep_below : ∀ {ps : List AbsPath} {fs fs' : Fs},
    ps.foldlM mkdirStep fs = .ok fs' →
      ps.foldlM mkdirStep (fs.below dest) = .ok (fs'.below dest)
  | [], fs, fs', h => by
    obtain rfl := Except.ok.inj h
    rfl
  | p :: ps, fs, fs', h => by
    rw [List.foldlM_cons] at h ⊢
    obtain ⟨fs₁, h₁, h₂⟩ := except_bind_eq_ok h
    rw [mkdirStep_below h₁]
    exact foldlM_mkdirStep_below h₂

theorem Fs.createDirAll_below (h : fs.createDirAll p = .ok fs') :
    (fs.below dest).createDirAll p = .ok (fs'.below dest) := foldlM_mkdirStep_below h

/-- Directories made elsewhere are not seen. -/
theorem Fs.foldlM_mkdirStep_apart : ∀ {ps : List AbsPath} {fs fs' : Fs},
    ps.foldlM mkdirStep fs = .ok fs' → (∀ q ∈ ps, ¬ dest <+: q) →
      fs'.below dest = fs.below dest
  | [], fs, fs', h, _ => by
    obtain rfl := Except.ok.inj h
    rfl
  | p :: ps, fs, fs', h, hps => by
    rw [List.foldlM_cons] at h
    obtain ⟨fs₁, h₁, h₂⟩ := except_bind_eq_ok h
    rw [foldlM_mkdirStep_apart h₂ fun q hq => hps q (List.mem_cons_of_mem _ hq)]
    unfold mkdirStep at h₁
    split_ifs at h₁ with hd hf
    · rw [Except.ok.inj h₁]
    · rw [← Except.ok.inj h₁, below_setDir_apart (hps p (List.mem_cons_self ..))]

theorem Fs.createDirAll_apart (h : fs.createDirAll p = .ok fs') (hp : ¬ dest <+: p) :
    fs'.below dest = fs.below dest :=
  foldlM_mkdirStep_apart h fun q hq hd => hp (hd.trans ((List.mem_inits q p).mp hq))

-- ---------------------------------------------------------------------------
-- Files
-- ---------------------------------------------------------------------------

theorem Fs.createFile_below (hp : dest <+: p) (h : fs.createFile p = .ok fs') :
    (fs.below dest).createFile p = .ok (fs'.below dest) := by
  obtain rfl := createFile_ok h
  unfold createFile at h ⊢
  rw [below_dirs hp, ← below_setFile hp]
  split_ifs at h with hd hparent
  by_cases hdrop : dest <+: p.dropLast
  · rw [if_neg hd, below_dirs hdrop, if_pos hparent]
  · rw [if_neg hd, below_dirs_above hdrop, if_pos rfl]

theorem createOut_below {dest' : AbsPath} {rel : String} (hp : dest <+: join dest' rel)
    (h : createOut fs dest' rel = .ok fs') :
    createOut (fs.below dest) dest' rel = .ok (fs'.below dest) := by
  rw [createOut] at h ⊢
  split_ifs at h ⊢ with hdot
  cases hc : fs.createFile (join dest' rel) with
  | error e =>
    rw [hc] at h
    cases h
  | ok fs₁ =>
    rw [hc] at h
    obtain rfl := Except.ok.inj h
    rw [Fs.createFile_below hp hc]

theorem Fs.appendFile_below (hp : dest <+: p) (bs : Bytes) :
    (fs.appendFile p bs).below dest = (fs.below dest).appendFile p bs := by
  unfold appendFile
  rw [below_files hp]
  cases fs.files p with
  | none => rfl
  | some old => exact below_setFile hp _

theorem Fs.appendFile_apart (hp : ¬ dest <+: p) (bs : Bytes) :
    (fs.appendFile p bs).below dest = fs.below dest := by
  unfold appendFile
  cases fs.files p with
  | none => rfl
  | some old => exact below_setFile_apart hp _

end

-- ---------------------------------------------------------------------------
-- Calls
-- ---------------------------------------------------------------------------

theorem Fs.answer_ok {fs fs' : Fs} {x : Except AnyError Fs} {u : Unit}
    (h : fs.answer x = (.ok u, fs')) : x = .ok fs' := by
  cases x with
  | ok fs₁ => rw [(Prod.mk.inj h).2]
  | error e => cases (Prod.mk.inj h).1

/-- A call that succeeds acts below its destination as on the whole tree. -/
theorem perform_below {dest : AbsPath} {op : TreeOp} (hop : Inside dest op) {fs fs' : Fs} {u : Unit}
    (h : op.perform fs = (.ok u, fs')) :
    op.perform (fs.below dest) = (.ok u, fs'.below dest) := by
  cases op with
  | createDest dest' =>
    have hdir := Fs.answer_ok h
    simp only [TreeOp.perform, Fs.createDirAll_below hdir, Fs.answer]
  | createDir dest' rel =>
    unfold TreeOp.perform at h ⊢
    have hdirs : (fs.below dest).dirs (join dest' rel) = fs.dirs (join dest' rel) :=
      Fs.below_dirs hop
    simp only [hdirs] at h ⊢
    by_cases hdot : (endsInDot rel && !fs.dirs (join dest' rel)) = true
    · rw [if_pos hdot] at h
      split at h
      · cases (Prod.mk.inj h).1
      · cases (Prod.mk.inj h).1
    · rw [if_neg hdot] at h ⊢
      simp only [Fs.createDirAll_below (Fs.answer_ok h), Fs.answer]
  | createParent dest' rel =>
    have hdir : fs.createDirAll (join dest' rel).dropLast = .ok fs' := Fs.answer_ok h
    simp only [TreeOp.perform, createParentFor, Fs.createDirAll_below hdir, Fs.answer]
  | createFile dest' rel =>
    have hfile : createOut fs dest' rel = .ok fs' := Fs.answer_ok h
    simp only [TreeOp.perform, createOut_below hop hfile, Fs.answer]
  | writeAll out bs =>
    obtain ⟨-, rfl⟩ := Prod.mk.inj h
    simp only [TreeOp.perform, Fs.appendFile_below hop]

/-- Neither place is at or below the other. -/
def Unrelated (p q : AbsPath) : Prop := ¬ p <+: q ∧ ¬ q <+: p

instance (p q : AbsPath) : Decidable (Unrelated p q) := inferInstanceAs (Decidable (_ ∧ _))

/-- A call of another extraction is not seen. -/
theorem below_apart {dest dest' : AbsPath} (hd : Unrelated dest dest') {op : TreeOp}
    (hop : Inside dest' op) {fs fs' : Fs} {r : TreeResp op} (h : op.perform fs = (r, fs')) :
    fs'.below dest = fs.below dest := by
  -- nothing in the other directory is in this one, nor is what leads to it
  have hfar : ∀ {p}, dest' <+: p → ¬ dest <+: p := by
    intro p hp hdp
    exact (List.prefix_or_prefix_of_prefix hdp hp).elim hd.1 hd.2
  have hfar' : ∀ {p}, dest' <+: p → ¬ dest <+: p.dropLast := fun hp hdp =>
    hfar hp (hdp.trans (List.dropLast_prefix _))
  have hanswer : ∀ {x : Except AnyError Fs}, fs.answer x = (r, fs') →
      (∀ fs₁, x = .ok fs₁ → fs₁.below dest = fs.below dest) → fs'.below dest = fs.below dest := by
    intro x hx hok
    cases x with
    | ok fs₁ => rw [← (Prod.mk.inj hx).2, hok fs₁ rfl]
    | error e => rw [← (Prod.mk.inj hx).2]
  cases op with
  | createDest d =>
    obtain rfl : d = dest' := hop
    exact hanswer h fun fs₁ h₁ => Fs.createDirAll_apart h₁ hd.1
  | createDir d rel =>
    unfold TreeOp.perform at h
    dsimp only at h
    by_cases hdot : (endsInDot rel && !fs.dirs (join d rel)) = true
    · rw [if_pos hdot] at h
      cases hdir : fs.createDirAll (join d rel).dropLast with
      | ok fs₁ =>
        rw [hdir] at h
        rw [← (Prod.mk.inj h).2, Fs.createDirAll_apart hdir (hfar' hop)]
      | error e =>
        rw [hdir] at h
        rw [← (Prod.mk.inj h).2]
    · rw [if_neg hdot] at h
      exact hanswer h fun fs₁ h₁ => Fs.createDirAll_apart h₁ (hfar hop)
  | createParent d rel =>
    exact hanswer h fun fs₁ h₁ => Fs.createDirAll_apart h₁ (hfar' hop)
  | createFile d rel =>
    refine hanswer h fun fs₁ h₁ => ?_
    rw [createOut_ok h₁, Fs.below_setFile_apart (hfar hop)]
  | writeAll out bs =>
    rw [← (Prod.mk.inj h).2, Fs.appendFile_apart (hfar hop)]

-- ---------------------------------------------------------------------------
-- The pool
-- ---------------------------------------------------------------------------

/-- How the calls of the extractions are answered. -/
def TreeAnswers (op : TreeOp) (fs : Fs) (r : TreeResp op) (fs' : Fs) : Prop :=
  op.perform fs = (r, fs')

theorem treeAnswers_perform (op : TreeOp) (fs : Fs) :
    TreeAnswers op fs (op.perform fs).1 (op.perform fs).2 := rfl

/-- In its share a call acts as on a tree of its own. It may be refused for what
is outside. -/
def ShareActs (op : TreeOp) (fs : Fs) (r : TreeResp op) (fs' : Fs) : Prop :=
  Refused op r ∨ op.perform fs = (r, fs')

/-- The shares of extractions into directories that are apart. -/
def treeShares {ι : Type} (dests : ι → AbsPath)
    (hapart : ∀ i j, i ≠ j → Unrelated (dests i) (dests j)) : Shares TreeAnswers ShareActs ι where
  view i fs := fs.below (dests i)
  calls i := Inside (dests i)
  sees {i op fs r fs'} hop h := by
    cases r with
    | error e => exact .inl ⟨e, rfl⟩
    | ok u => exact .inr (perform_below hop h)
  apart {i j op fs r fs'} hij hop h := below_apart (hapart i j hij) hop h

end Chbk
