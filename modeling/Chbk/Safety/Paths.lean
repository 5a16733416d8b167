import Chbk.Model.Restore
import Chbk.Zip.Names

/-!
# Joined paths

`Path::join` on texts, and the places a path leads through. A path is read from
the directory the program runs in (`cwd`), component by component.

* `components_pathJoin`, `pathJoin_assoc` — the components of joined texts, and
  their grouping.
* `trail` — the places of a path, any of which `create_dir_all` may create.
* `Within`, `StaysInside` — a directory with the way to it; texts that do not
  lead out of it.
* `trail_pathJoin` — a joined path stays inside when its second text does.
-/

namespace Chbk

-- ---------------------------------------------------------------------------
-- Joined paths
-- ---------------------------------------------------------------------------

theorem startsWith_slash {s : String} : startsWith s "/" = true ↔ s.toList.head? = some '/' := by
  have hsep : "/".toList = ['/'] := rfl
  unfold startsWith
  rw [hsep]
  cases s.toList with
  | nil => simp
  | cons c cs =>
    show ('/' == c && List.isPrefixOf [] cs) = true ↔ some c = some '/'
    rw [List.isPrefixOf_nil_left, Bool.and_true, beq_iff_eq, Option.some.injEq]
    exact eq_comm

theorem stripSuffix?_slash {s : String} :
    (stripSuffix? s "/").isSome = true ↔ s.toList.getLast? = some '/' := by
  have hsep : "/".toList = ['/'] := rfl
  unfold stripSuffix?
  rw [hsep]
  constructor
  · intro h
    split at h
    · rename_i hsuf
      obtain ⟨l, hl⟩ := List.isSuffixOf_iff_suffix.mp hsuf
      rw [← hl, List.getLast?_concat]
    · cases h
  · intro h
    obtain ⟨l, hl⟩ := List.getLast?_eq_some_iff.mp h
    rw [if_pos (List.isSuffixOf_iff_suffix.mpr ⟨l, hl.symm⟩)]
    rfl

/-- A relative path joined to a path that is not empty. -/
theorem pathJoin_rel {a b : String} (ha : a ≠ "") (hb : startsWith b "/" = false) :
    pathJoin a b = if (stripSuffix? a "/").isSome then a ++ b else a ++ "/" ++ b := by
  unfold pathJoin
  rw [if_neg (by simp [ha, hb])]

theorem pathJoin_abs {a b : String} (h : startsWith b "/" = true ∨ a = "") : pathJoin a b = b := by
  unfold pathJoin
  rw [if_pos (h.imp_left fun hb => hb)]

theorem toList_ne_nil {s : String} (h : s ≠ "") : s.toList ≠ [] :=
  fun hnil => h (String.toList_inj.mp hnil)

theorem head?_pathJoin {a b : String} (ha : a ≠ "") (hb : startsWith b "/" = false) :
    (pathJoin a b).toList.head? = a.toList.head? := by
  rw [pathJoin_rel ha hb]
  split
  · rw [String.toList_append, List.head?_append_of_ne_nil _ (toList_ne_nil ha)]
  · rw [String.toList_append, String.toList_append, List.append_assoc,
      List.head?_append_of_ne_nil _ (toList_ne_nil ha)]

theorem pathJoin_ne_empty {a b : String} (ha : a ≠ "") (hb : startsWith b "/" = false) :
    pathJoin a b ≠ "" := by
  intro h
  have hhead := head?_pathJoin ha hb
  rw [h] at hhead
  exact toList_ne_nil ha (List.head?_eq_none_iff.mp hhead.symm)

/-- The lead of a path: its root, or the dot it begins with. -/
def leadComponent (path : String) : List Component :=
  if startsWith path "/" then [.rootDir]
  else if (splitAt '/' path).head? = some "." then [.curDir]
  else []

theorem components_eq_lead (path : String) :
    components path = leadComponent path ++ (splitAt '/' path).filterMap pieceComponent := by
  unfold components leadComponent
  cases hsplit : splitAt '/' path with
  | nil => exact absurd hsplit (splitAt_ne_nil path)
  | cons first rest =>
    dsimp only
    by_cases hroot : startsWith path "/" = true
    · rw [if_pos hroot, if_pos hroot]
      -- the piece before the root's slash is empty
      have hfirst : first = "" := by
        obtain ⟨cs, hcs⟩ := List.head?_eq_some_iff.mp (startsWith_slash.mp hroot)
        unfold splitAt at hsplit
        rw [hcs, show '/' :: cs = [] ++ '/' :: cs from rfl, List.splitOn_append_cons_self] at hsplit
        simpa using (List.cons.inj hsplit).1.symm
      rw [hfirst, List.filterMap_cons_none (by rfl)]
    · rw [if_neg hroot, if_neg hroot]
      by_cases hdot : first = "."
      · rw [if_pos hdot, if_pos (by rw [hdot]; rfl), hdot, List.filterMap_cons_none (by rfl)]
      · rw [if_neg hdot, if_neg (by simpa using hdot)]
        cases hp : pieceComponent first with
        | none => rw [List.filterMap_cons_none hp]; rfl
        | some c => rw [List.filterMap_cons_some hp]; rfl

/-- A path that ends in its root is the root. -/
theorem dropLast_components_of_root {path : String}
    (h : (components path).getLast? = some .rootDir) : (components path).dropLast = [] := by
  rw [components_eq_lead] at h ⊢
  have hpieces : Component.rootDir ∉ (splitAt '/' path).filterMap pieceComponent := by
    intro hc
    obtain ⟨p, -, hp⟩ := List.mem_filterMap.mp hc
    unfold pieceComponent at hp
    split at hp
    · cases hp
    · split at hp <;> cases hp
  cases hl : (splitAt '/' path).filterMap pieceComponent with
  | nil =>
    unfold leadComponent
    split
    · rfl
    · split <;> rfl
  | cons c cs =>
    rw [hl] at h hpieces
    rw [List.getLast?_append_of_ne_nil _ (List.cons_ne_nil c cs)] at h
    exact absurd (List.mem_of_getLast? h) hpieces

theorem pieceComponent_ne_curDir (p : String) : pieceComponent p ≠ some .curDir := by
  unfold pieceComponent
  split
  · simp
  · split <;> simp

/-- Without its lead a relative path is its components but for the dot. -/
theorem filterMap_splitAt_rel {b : String} (hb : startsWith b "/" = false) :
    (splitAt '/' b).filterMap pieceComponent = (components b).filter (· ≠ .curDir) := by
  have hkeep : ∀ c ∈ (splitAt '/' b).filterMap pieceComponent, decide (c ≠ .curDir) = true := by
    intro c hc
    obtain ⟨p, -, hp⟩ := List.mem_filterMap.mp hc
    exact decide_eq_true fun h => pieceComponent_ne_curDir p (h ▸ hp)
  rw [components_eq_lead, List.filter_append, List.filter_eq_self.mpr hkeep]
  unfold leadComponent
  rw [if_neg (by simp [hb])]
  split <;> rfl

/-- A relative path goes on where the first one ends. -/
theorem components_pathJoin {a b : String} (ha : a ≠ "") (hb : startsWith b "/" = false) :
    components (pathJoin a b) = components a ++ (components b).filter (· ≠ .curDir) := by
  have hroot : startsWith (pathJoin a b) "/" = startsWith a "/" := by
    rw [Bool.eq_iff_iff, startsWith_slash, startsWith_slash, head?_pathJoin ha hb]
  -- the pieces, but for an empty one at the end of `a`
  obtain ⟨hhead, hpieces⟩ :
      (splitAt '/' (pathJoin a b)).head? = (splitAt '/' a).head? ∧
      (splitAt '/' (pathJoin a b)).filterMap pieceComponent =
        (splitAt '/' a ++ splitAt '/' b).filterMap pieceComponent := by
    rw [pathJoin_rel ha hb]
    split
    · rename_i hslash
      obtain ⟨l, hl⟩ := List.getLast?_eq_some_iff.mp (stripSuffix?_slash.mp hslash)
      have hl' : a = String.ofList l ++ "/" ++ "" := by
        rw [← String.toList_inj, hl]
        simp
      have hab : a ++ b = String.ofList l ++ "/" ++ b := by
        conv_lhs => rw [hl']
        simp
      have hne := splitAt_ne_nil (String.ofList l)
      rw [hab, splitAt_append_slash, hl', splitAt_append_slash]
      refine ⟨?_, ?_⟩
      · rw [List.head?_append_of_ne_nil _ hne, List.head?_append_of_ne_nil _ hne]
      · have hempty : (splitAt '/' "").filterMap pieceComponent = [] := by decide
        rw [List.filterMap_append, List.filterMap_append, List.filterMap_append, hempty,
          List.append_nil]
    · rw [splitAt_append_slash]
      exact ⟨List.head?_append_of_ne_nil _ (splitAt_ne_nil a), rfl⟩
  rw [components_eq_lead, components_eq_lead a, hpieces, List.filterMap_append,
    filterMap_splitAt_rel hb, List.append_assoc]
  unfold leadComponent
  rw [hroot, hhead]

/-- Texts are joined in any grouping. -/
theorem pathJoin_assoc (a b c : String) :
    pathJoin (pathJoin a b) c = pathJoin a (pathJoin b c) := by
  by_cases hc : startsWith c "/" = true
  · rw [pathJoin_abs (.inl hc), pathJoin_abs (a := b) (.inl hc), pathJoin_abs (.inl hc)]
  have hc := Bool.eq_false_iff.mpr hc
  by_cases hb : b = ""
  · rw [pathJoin_abs (a := b) (.inr hb), hb]
    by_cases ha : a = ""
    · rw [ha, pathJoin_abs (a := "") (b := "") (.inr rfl)]
    · have hnil : startsWith "" "/" = false := rfl
      rw [pathJoin_rel ha hnil]
      split
      · rw [String.append_empty]
      · rename_i hslash
        rw [String.append_empty, pathJoin_rel (by simp [ha]) hc, pathJoin_rel ha hc, if_neg hslash,
          if_pos (stripSuffix?_slash.mpr (by simp))]
  have hbc : startsWith (pathJoin b c) "/" = startsWith b "/" := by
    rw [Bool.eq_iff_iff, startsWith_slash, startsWith_slash, head?_pathJoin hb hc]
  by_cases habs : startsWith b "/" = true ∨ a = ""
  · rw [pathJoin_abs habs, pathJoin_abs (a := a) (habs.imp_left hbc.trans)]
  rw [not_or, Bool.not_eq_true] at habs
  obtain ⟨hbrel, ha⟩ := habs
  -- the joined path ends as its second part does
  have hlast : (pathJoin a b).toList.getLast? = b.toList.getLast? := by
    rw [pathJoin_rel ha hbrel]
    split
    · rw [String.toList_append, List.getLast?_append_of_ne_nil _ (toList_ne_nil hb)]
    · rw [String.toList_append, List.getLast?_append_of_ne_nil _ (toList_ne_nil hb)]
  have hends : (stripSuffix? (pathJoin a b) "/").isSome = (stripSuffix? b "/").isSome := by
    rw [Bool.eq_iff_iff, stripSuffix?_slash, stripSuffix?_slash, hlast]
  rw [pathJoin_rel (pathJoin_ne_empty ha hbrel) hc, hends, pathJoin_rel ha (hbc.trans hbrel),
    pathJoin_rel hb hc, pathJoin_rel ha hbrel]
  split <;> split <;> simp only [String.append_assoc]

-- ---------------------------------------------------------------------------
-- The places of a path
-- ---------------------------------------------------------------------------

/-- The places a path leads through, from `o` on. -/
def trail : AbsPath → List Component → List AbsPath
  | o, [] => [o]
  | o, c :: cs => o :: trail (stepTo o c) cs

theorem mem_trail_start (o : AbsPath) (cs : List Component) : o ∈ trail o cs := by
  cases cs with
  | nil => exact List.mem_singleton_self o
  | cons c cs => exact List.mem_cons_self ..

theorem mem_trail_end : ∀ (o : AbsPath) (cs : List Component), cs.foldl stepTo o ∈ trail o cs
  | o, [] => List.mem_singleton_self o
  | o, c :: cs => List.mem_cons_of_mem _ (mem_trail_end (stepTo o c) cs)

theorem mem_trail_append {q : AbsPath} : ∀ {o : AbsPath} {l r : List Component},
    q ∈ trail o (l ++ r) ↔ q ∈ trail o l ∨ q ∈ trail (l.foldl stepTo o) r
  | o, [], r => by
    constructor
    · exact Or.inr
    · rintro (h | h)
      · rw [List.mem_singleton.mp h]
        exact mem_trail_start o _
      · exact h
  | o, c :: l, r => by
    show q ∈ o :: trail (stepTo o c) (l ++ r) ↔ q ∈ o :: trail (stepTo o c) l ∨ _
    rw [List.mem_cons, List.mem_cons, mem_trail_append, or_assoc]
    rfl

/-- Dots do not move. -/
theorem trail_filter_curDir {q : AbsPath} : ∀ {o : AbsPath} {cs : List Component},
    (q ∈ trail o (cs.filter (· ≠ .curDir)) ↔ q ∈ trail o cs) ∧
      (cs.filter (· ≠ .curDir)).foldl stepTo o = cs.foldl stepTo o
  | o, [] => ⟨Iff.rfl, rfl⟩
  | o, c :: cs => by
    have ih := @trail_filter_curDir q (stepTo o c) cs
    by_cases hc : c = .curDir
    · rw [List.filter_cons_of_neg (by simp [hc])]
      rw [hc] at ih ⊢
      refine ⟨?_, ih.2⟩
      constructor
      · intro h
        exact List.mem_cons_of_mem _ (ih.1.mp h)
      · intro h
        rcases List.mem_cons.mp h with rfl | h
        · exact mem_trail_start _ _
        · exact ih.1.mpr h
    · rw [List.filter_cons_of_pos (by simp [hc])]
      refine ⟨?_, ih.2⟩
      rw [trail, trail, List.mem_cons, List.mem_cons, ih.1]

/-- The path without its last component leads through the same places but for
the last. -/
theorem mem_trail_dropLast {q : AbsPath} {o : AbsPath} {cs : List Component} (h : cs ≠ []) :
    q ∈ trail o cs ↔ q ∈ trail o cs.dropLast ∨ q = cs.foldl stepTo o := by
  obtain ⟨l, c, rfl⟩ : ∃ l c, cs = l ++ [c] := ⟨_, _, (List.dropLast_concat_getLast h).symm⟩
  rw [mem_trail_append, List.dropLast_concat, List.foldl_append]
  show _ ∨ q ∈ [l.foldl stepTo o, stepTo (l.foldl stepTo o) c] ↔ _ ∨ q = stepTo (l.foldl stepTo o) c
  rw [List.mem_cons, List.mem_singleton, ← or_assoc]
  refine or_congr_left ?_
  constructor
  · rintro (h | rfl)
    · exact h
    · exact mem_trail_end o l
  · exact Or.inl

-- ---------------------------------------------------------------------------
-- Staying inside
-- ---------------------------------------------------------------------------

/-- A place in a directory, or on the way to it. -/
def Within (cwd : AbsPath) (dir : String) (q : AbsPath) : Prop :=
  join cwd dir <+: q ∨ q ∈ trail cwd (components dir)

/-- The text, followed from the directory, ends in it and leads through no place
that is neither in it nor on the way to it. -/
def StaysInside (cwd : AbsPath) (dir rel : String) : Prop :=
  (∀ q ∈ trail (join cwd dir) (components rel), Within cwd dir q) ∧
    join cwd dir <+: join (join cwd dir) rel

/-- A joined path is followed from where the first one leads. -/
theorem join_pathJoin (cwd : AbsPath) (a b : String) :
    join cwd (pathJoin a b) = join (join cwd a) b := by
  by_cases hb : startsWith b "/" = true
  · obtain ⟨cs, hcs⟩ : ∃ cs, components b = .rootDir :: cs := by
      rw [components_eq_lead, leadComponent, if_pos hb]
      exact ⟨_, rfl⟩
    rw [pathJoin_abs (.inl hb), join, join, hcs]
    rfl
  by_cases ha : a = ""
  · rw [pathJoin_abs (.inr ha), ha]
    rfl
  rw [join, components_pathJoin ha (Bool.eq_false_iff.mpr hb), List.foldl_append,
    (trail_filter_curDir (q := cwd)).2]
  rfl

/-- A joined path stays within its first part when the second, followed from
there, does. -/
theorem trail_pathJoin (cwd : AbsPath) (a b : String) :
    (∀ q ∈ trail cwd (components (pathJoin a b)), Within cwd a q) ↔
      ∀ q ∈ trail (join cwd a) (components b), Within cwd a q := by
  have hcwd : Within cwd a cwd := .inr (mem_trail_start cwd _)
  have hdir : Within cwd a (join cwd a) := .inr (mem_trail_end cwd _)
  by_cases hb : startsWith b "/" = true
  · -- an absolute path starts over at the root
    obtain ⟨cs, hcs⟩ : ∃ cs, components b = .rootDir :: cs := by
      rw [components_eq_lead, leadComponent, if_pos hb]
      exact ⟨_, rfl⟩
    rw [pathJoin_abs (.inl hb), hcs, trail, trail, List.forall_mem_cons, List.forall_mem_cons]
    exact ⟨fun h => ⟨hdir, h.2⟩, fun h => ⟨hcwd, h.2⟩⟩
  by_cases ha : a = ""
  · rw [pathJoin_abs (.inr ha), ha]
    rfl
  have hmem : ∀ q, q ∈ trail cwd (components (pathJoin a b)) ↔
      q ∈ trail cwd (components a) ∨ q ∈ trail (join cwd a) (components b) := by
    intro q
    rw [components_pathJoin ha (Bool.eq_false_iff.mpr hb), mem_trail_append]
    exact or_congr_right trail_filter_curDir.1
  constructor
  · intro h q hq
    exact h q ((hmem q).mpr (.inr hq))
  · intro h q hq
    rcases (hmem q).mp hq with hq | hq
    · exact .inr hq
    · exact h q hq

theorem staysInside_iff {cwd : AbsPath} {dir rel : String} :
    StaysInside cwd dir rel ↔
      (∀ q ∈ trail cwd (components (pathJoin dir rel)), Within cwd dir q) ∧
        join cwd dir <+: join cwd (pathJoin dir rel) := by
  rw [trail_pathJoin, join_pathJoin]
  rfl

/-- Names alone lead down. -/
theorem staysInside_of_names {rel : String}
    (h : ∀ c ∈ components rel, c ≠ .rootDir ∧ c ≠ .parentDir) (cwd : AbsPath) (dir : String) :
    StaysInside cwd dir rel := by
  have hdown : ∀ {cs : List Component} {o : AbsPath}, (∀ c ∈ cs, c ≠ .rootDir ∧ c ≠ .parentDir) →
      ∀ q ∈ trail o cs, o <+: q := by
    intro cs
    induction cs with
    | nil =>
      intro o _ q hq
      obtain rfl := List.mem_singleton.mp hq
      exact List.prefix_refl q
    | cons c cs ih =>
      intro o hcs q hq
      rcases List.mem_cons.mp hq with rfl | hq
      · exact List.prefix_refl _
      have hrest := ih (fun d hd => hcs d (List.mem_cons_of_mem _ hd)) q hq
      have hstep : o <+: stepTo o c := by
        have hc := hcs c (List.mem_cons_self ..)
        cases c with
        | rootDir => exact absurd rfl hc.1
        | parentDir => exact absurd rfl hc.2
        | curDir => exact List.prefix_refl o
        | normal s => exact List.prefix_append o [s]
      exact hstep.trans hrest
  exact ⟨fun q hq => .inl (hdown h q hq), hdown h _ (mem_trail_end _ _)⟩

end Chbk
