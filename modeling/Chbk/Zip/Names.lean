import Chbk.Model.ExtractZip

/-!
# Entry names

`path_to_zip_name` writes the names of a path with slashes between them, and
the reader takes them apart again: the entry lands at the place of the path.

* `pathToZipName_ok` — a name that is accepted consists of proper names.
* `components_joinWith` — taking the joined names apart gives them back.
* `ZipName.join_eq` — where the reader puts the entry.
-/

namespace Chbk

/-- A proper name: what stands between two slashes and is not a dot or two. -/
structure ProperName (s : String) : Prop where
  ne_empty : s ≠ ""
  ne_dot : s ≠ "."
  ne_dotdot : s ≠ ".."
  no_slash : '/' ∉ s.toList

theorem not_mem_of_mem_splitOn {c : Char} : ∀ {l p : List Char}, p ∈ l.splitOn c → c ∉ p
  | [], p, hp => by
    simp only [List.splitOn_nil, List.mem_singleton] at hp
    simp [hp]
  | x :: l, p, hp => by
    rw [List.splitOn_cons_eq_if_modifyHead] at hp
    have ih : ∀ q ∈ l.splitOn c, c ∉ q := fun q hq => not_mem_of_mem_splitOn hq
    split_ifs at hp with hx
    · rcases List.mem_cons.mp hp with rfl | hp
      · simp
      · exact ih p hp
    · cases hs : l.splitOn c with
      | nil => simp [hs] at hp
      | cons q qs =>
        rw [hs, List.modifyHead_cons] at hp
        rcases List.mem_cons.mp hp with rfl | hp
        · have hcx : c ≠ x := fun h => hx (by simp [h])
          simp [hcx, ih q (by simp [hs])]
        · exact ih p (by simp [hs, hp])

theorem no_slash_of_mem_splitAt {s p : String} (h : p ∈ splitAt '/' s) : '/' ∉ p.toList := by
  obtain ⟨q, hq, rfl⟩ := List.mem_map.mp h
  rw [String.toList_ofList]
  exact not_mem_of_mem_splitOn hq

theorem pieceComponent_normal {p s : String} (h : pieceComponent p = some (.normal s)) :
    p = s ∧ s ≠ "" ∧ s ≠ "." ∧ s ≠ ".." := by
  rw [pieceComponent] at h
  split_ifs at h with h₁ h₂
  · simp at h
  · obtain rfl := Component.normal.inj (Option.some.inj h)
    exact ⟨rfl, fun h => h₁ (Or.inl h), fun h => h₁ (Or.inr h), h₂⟩

theorem properName_of_mem_components {path s : String}
    (h : Component.normal s ∈ components path) : ProperName s := by
  -- a name comes from a piece, the first one or another
  obtain ⟨p, hp, hs⟩ : ∃ p ∈ splitAt '/' path, pieceComponent p = some (.normal s) := by
    rw [components] at h
    cases hsplit : splitAt '/' path with
    | nil => simp [hsplit] at h
    | cons first rest =>
      simp only [hsplit, List.mem_append] at h
      rcases h with h | h
      · split_ifs at h with h₁ h₂
        · simp at h
        · simp at h
        · exact ⟨first, by simp, by simpa using h⟩
      · obtain ⟨p, hp, hs⟩ := List.mem_filterMap.mp h
        exact ⟨p, by simp [hp], hs⟩
  obtain ⟨rfl, h₁, h₂, h₃⟩ := pieceComponent_normal hs
  exact ⟨h₁, h₂, h₃, no_slash_of_mem_splitAt hp⟩

theorem ProperName.pieceComponent_eq {s : String} (h : ProperName s) :
    pieceComponent s = some (.normal s) := by
  rw [pieceComponent, if_neg (by simp [h.ne_empty, h.ne_dot]), if_neg h.ne_dotdot]

/-- The first character of joined proper names is no slash. -/
theorem startsWith_joinWith {ss : List String} (h : ∀ s ∈ ss, ProperName s) :
    startsWith (joinWith "/" ss) "/" = false := by
  cases ss with
  | nil => decide
  | cons s ss =>
    have hs := h s (List.mem_cons_self ..)
    obtain ⟨c, cs, hcs⟩ : ∃ c cs, s.toList = c :: cs := by
      cases hl : s.toList with
      | nil => exact absurd (String.toList_inj.mp (hl.trans rfl)) hs.ne_empty
      | cons c cs => exact ⟨c, cs, rfl⟩
    have hc : c ≠ '/' := fun hc => hs.no_slash (by simp [hcs, hc])
    have hhead : ∃ tl, (joinWith "/" (s :: ss)).toList = c :: tl := by
      cases ss with
      | nil => exact ⟨cs, hcs⟩
      | cons t ts => exact ⟨_, by simp [joinWith, String.toList_append, hcs]; rfl⟩
    obtain ⟨tl, htl⟩ := hhead
    have hsep : "/".toList = ['/'] := rfl
    rw [startsWith, htl, hsep]
    simp [List.isPrefixOf, Ne.symm hc]

/-- Taking joined names apart gives them back. -/
theorem components_joinWith {ss : List String} (hne : ss ≠ []) (h : ∀ s ∈ ss, ProperName s) :
    components (joinWith "/" ss) = ss.map Component.normal := by
  rw [components, splitAt_joinWith hne fun s hs => (h s hs).no_slash]
  cases ss with
  | nil => exact absurd rfl hne
  | cons s ss =>
    have hs := h s (List.mem_cons_self ..)
    have hrest : ss.filterMap pieceComponent = ss.map Component.normal := by
      rw [← List.filterMap_eq_map]
      exact List.filterMap_congr fun t ht => (h t (List.mem_cons_of_mem _ ht)).pieceComponent_eq
    simp [startsWith_joinWith h, hs.ne_dot, hs.pieceComponent_eq, hrest]

/-! ## Accepted paths -/

theorem validateRelPath_ok {path : String} (h : validateRelPath path = .ok ()) :
    ∀ c ∈ components path, c ≠ .rootDir ∧ c ≠ .parentDir := by
  rw [validateRelPath] at h
  split_ifs at h
  intro c hc
  have hcheck := forM_eq_ok.mp h c hc
  constructor
  · rintro rfl
    exact absurd hcheck (by simp [checkComponent])
  · rintro rfl
    exact absurd hcheck (by simp [checkComponent])

/-- Without a root or a parent among the components, a path leads down its
names. -/
theorem foldl_stepTo : ∀ {comps : List Component} (dest : AbsPath),
    (∀ c ∈ comps, c ≠ .rootDir ∧ c ≠ .parentDir) → comps.foldl stepTo dest = dest ++ normals comps
  | [], dest, _ => (List.append_nil dest).symm
  | c :: comps, dest, h => by
    have ih := fun dest => foldl_stepTo dest fun d hd => h d (List.mem_cons_of_mem _ hd)
    cases c with
    | rootDir => exact absurd rfl (h _ (List.mem_cons_self ..)).1
    | parentDir => exact absurd rfl (h _ (List.mem_cons_self ..)).2
    | curDir => exact ih dest
    | normal s =>
      rw [List.foldl_cons, stepTo, ih, List.append_assoc]
      rfl

/-! ## Accepted names -/

/-- `name` is the entry name made of the proper names `ns`. -/
structure ZipName (ns : List String) (name : String) : Prop where
  ne_nil : ns ≠ []
  proper : ∀ s ∈ ns, ProperName s
  name_eq : name = joinWith "/" ns

theorem pathToZipName_valid {path name : String} (h : pathToZipName path = .ok name) :
    validateRelPath path = .ok () := by
  rw [pathToZipName] at h
  cases hv : validateRelPath path with
  | ok _ => rfl
  | error e => simp [hv, bind, Except.bind] at h

theorem pathToZipName_ok {path name : String} (h : pathToZipName path = .ok name) :
    ZipName (normals (components path)) name := by
  have hv := pathToZipName_valid h
  simp only [pathToZipName, hv, bind, Except.bind, pure, Except.pure, throw, throwThe,
    MonadExceptOf.throw] at h
  split_ifs at h with h₁ h₂
  obtain rfl := Except.ok.inj h
  refine ⟨fun hnil => h₁ (by rw [hnil]; rfl), fun s hs => ?_, rfl⟩
  obtain ⟨c, hc, hcs⟩ := List.mem_filterMap.mp hs
  cases c with
  | normal t =>
    obtain rfl := Option.some.inj hcs
    exact properName_of_mem_components hc
  | rootDir => simp at hcs
  | curDir => simp at hcs
  | parentDir => simp at hcs

namespace ZipName

variable {ns : List String} {name : String}

theorem components_eq (h : ZipName ns name) : components name = ns.map Component.normal := by
  rw [h.name_eq, components_joinWith h.ne_nil h.proper]

/-- Where the reader puts an entry. -/
theorem join_eq (h : ZipName ns name) (dest : AbsPath) : join dest name = dest ++ ns := by
  have hnormals : normals (ns.map Component.normal) = ns := by
    simp [normals, List.filterMap_map]
  rw [join, h.components_eq, foldl_stepTo, hnormals]
  intro c hc
  obtain ⟨s, -, rfl⟩ := List.mem_map.mp hc
  simp

theorem ne_empty (h : ZipName ns name) : name ≠ "" := by
  rintro rfl
  have := h.components_eq
  rw [show components "" = [] by decide +kernel] at this
  exact h.ne_nil (List.map_eq_nil_iff.mp this.symm)

/-- The reader finds the name safe. -/
theorem validateRelPath_eq (h : ZipName ns name) : validateRelPath name = .ok () := by
  rw [validateRelPath, if_neg h.ne_empty, h.components_eq, forM_eq_ok]
  intro c hc
  obtain ⟨s, -, rfl⟩ := List.mem_map.mp hc
  rfl

theorem getLast?_splitAt (h : ZipName ns name) : (splitAt '/' name).getLast? = ns.getLast? := by
  rw [h.name_eq, splitAt_joinWith h.ne_nil fun s hs => (h.proper s hs).no_slash]

/-- The name does not end in a dot piece. -/
theorem endsInDot_eq (h : ZipName ns name) : endsInDot name = false := by
  rw [endsInDot, h.getLast?_splitAt, decide_eq_false_iff_not]
  intro hlast
  exact (h.proper "." (List.mem_of_getLast? hlast)).ne_dot rfl

/-- The reader does not take the entry for a directory. -/
theorem getLast?_ne_slash (h : ZipName ns name) : name.toList.getLast? ≠ some '/' := by
  intro hlast
  obtain ⟨l, hl⟩ := List.getLast?_eq_some_iff.mp hlast
  have hsplit : (splitAt '/' name).getLast? = some "" := by
    rw [splitAt, hl, List.splitOn_append_cons_self]
    simp
  rw [h.getLast?_splitAt] at hsplit
  exact (h.proper "" (List.mem_of_getLast? hsplit)).ne_empty rfl

end ZipName

theorem join_relPath {path name : String} (h : pathToZipName path = .ok name) (dest : AbsPath) :
    join dest path = dest ++ normals (components path) :=
  foldl_stepTo dest (validateRelPath_ok (pathToZipName_valid h))

/-- The reader puts an entry at the place of its file. -/
theorem join_entry {path name : String} (h : pathToZipName path = .ok name) (dest : AbsPath) :
    join dest name = join dest path := by
  rw [join_relPath h, (pathToZipName_ok h).join_eq]

end Chbk
