import Chbk.Safety.Paths

/-!
# Where a part is looked for

The server reports the paths of its parts. Where such a path is not there
locally, the program looks below its own data path for what stands behind the
server's root, which it takes to end at the first `store` or `data`.

* `components_collectPath` — components collected into a path are its
  components.
* `resolved_iff` — exactly for which roots the part is found below the data path.
-/

namespace Chbk

-- ---------------------------------------------------------------------------
-- Components collected into a path
-- ---------------------------------------------------------------------------

/-- The name of a directory, or the way up. -/
def Component.Plain (c : Component) : Prop :=
  match c with
  | .normal s => ProperName s
  | .parentDir => True
  | _ => False

theorem plain_of_pieceComponent {path piece : String} {c : Component}
    (hin : piece ∈ splitAt '/' path) (hc : pieceComponent piece = some c) : c.Plain := by
  cases c with
  | normal s =>
    obtain ⟨rfl, h₁, h₂, h₃⟩ := pieceComponent_normal hc
    exact ⟨h₁, h₂, h₃, no_slash_of_mem_splitAt hin⟩
  | parentDir => trivial
  | rootDir =>
    unfold pieceComponent at hc
    split_ifs at hc
    · cases hc
    · cases hc
  | curDir => exact absurd hc (pieceComponent_ne_curDir piece)

namespace Component.Plain

variable {c : Component} (h : c.Plain)
include h

theorem startsWith_asOsStr : startsWith c.asOsStr "/" = false := by
  cases c with
  | normal s =>
    have hs : ∀ t ∈ [s], ProperName t := fun t ht => List.mem_singleton.mp ht ▸ h
    exact startsWith_joinWith hs
  | parentDir => rfl
  | rootDir => cases h
  | curDir => cases h

theorem components_asOsStr : components c.asOsStr = [c] := by
  cases c with
  | normal s =>
    have hs : ∀ t ∈ [s], ProperName t := fun t ht => List.mem_singleton.mp ht ▸ h
    exact components_joinWith (List.cons_ne_nil _ _) hs
  | parentDir => decide
  | rootDir => cases h
  | curDir => cases h

theorem asOsStr_ne_empty : c.asOsStr ≠ "" := by
  cases c with
  | normal s => exact ProperName.ne_empty h
  | parentDir => decide
  | rootDir => cases h
  | curDir => cases h

theorem ne_curDir : c ≠ .curDir := by
  rintro rfl
  exact h

end Component.Plain

theorem filter_plain {cs : List Component} (h : ∀ c ∈ cs, c.Plain) :
    cs.filter (· ≠ .curDir) = cs :=
  List.filter_eq_self.mpr fun c hc => decide_eq_true (h c hc).ne_curDir

theorem collectPath_concat (cs : List Component) (c : Component) :
    collectPath (cs ++ [c]) = pathJoin (collectPath cs) c.asOsStr := by
  unfold collectPath
  rw [List.map_append, List.foldl_append]
  rfl

/-- The collected path: it is relative, and has these components. -/
theorem components_collectPath {cs : List Component} (hne : cs ≠ []) (h : ∀ c ∈ cs, c.Plain) :
    collectPath cs ≠ "" ∧ startsWith (collectPath cs) "/" = false ∧
      components (collectPath cs) = cs := by
  induction cs using List.reverseRecOn with
  | nil => exact absurd rfl hne
  | append_singleton cs c ih =>
    have hc := h c (by simp)
    rw [collectPath_concat]
    by_cases hnil : cs = []
    · -- the first component is the path
      rw [hnil, show collectPath [] = "" from rfl, pathJoin_abs (.inr rfl)]
      exact ⟨hc.asOsStr_ne_empty, hc.startsWith_asOsStr, hc.components_asOsStr⟩
    obtain ⟨hempty, hrel, heq⟩ := ih hnil fun d hd => h d (by simp [hd])
    refine ⟨pathJoin_ne_empty hempty hc.startsWith_asOsStr, ?_, ?_⟩
    · rw [Bool.eq_false_iff, Ne, startsWith_slash, head?_pathJoin hempty hc.startsWith_asOsStr,
        ← startsWith_slash, hrel]
      simp
    · rw [components_pathJoin hempty hc.startsWith_asOsStr, heq, hc.components_asOsStr,
        filter_plain (by simpa using hc)]

-- ---------------------------------------------------------------------------
-- Behind the server's root
-- ---------------------------------------------------------------------------

/-- One of the two directories the server keeps its parts in. -/
def Component.IsPartsDir (c : Component) : Prop := c = .normal "store" ∨ c = .normal "data"

instance (c : Component) : Decidable c.IsPartsDir :=
  inferInstanceAs (Decidable (c = .normal "store" ∨ c = .normal "data"))

theorem isPartsDir_iff {c : Component} :
    c.IsPartsDir ↔ c.asOsStr = "store" ∨ c.asOsStr = "data" := by
  cases c with
  | normal s => simp [Component.IsPartsDir, Component.asOsStr]
  | rootDir => simp [Component.IsPartsDir, Component.asOsStr]
  | curDir => simp [Component.IsPartsDir, Component.asOsStr]
  | parentDir => simp [Component.IsPartsDir, Component.asOsStr]

/-- Behind its root an absolute path has plain components only. -/
theorem components_abs {path : String} (h : startsWith path "/" = true) :
    ∃ cs, components path = .rootDir :: cs ∧ (splitAt '/' path).filterMap pieceComponent = cs ∧
      ∀ c ∈ cs, c.Plain := by
  refine ⟨_, ?_, rfl, ?_⟩
  · rw [components_eq_lead, leadComponent, if_pos h]
    rfl
  · intro c hc
    obtain ⟨piece, hin, hpiece⟩ := List.mem_filterMap.mp hc
    exact plain_of_pieceComponent hin hpiece

/-- A path that begins with a name has plain components only. -/
theorem components_named {path s : String} (h : (components path).head? = some (.normal s)) :
    startsWith path "/" = false ∧ (splitAt '/' path).filterMap pieceComponent = components path ∧
      ∀ c ∈ components path, c.Plain := by
  have hlead : leadComponent path = [] := by
    rw [components_eq_lead] at h
    unfold leadComponent at h ⊢
    split_ifs at h ⊢
    · cases h
    · cases h
    · rfl
  have hpieces : components path = (splitAt '/' path).filterMap pieceComponent := by
    rw [components_eq_lead, hlead]
    rfl
  refine ⟨?_, hpieces.symm, ?_⟩
  · rw [Bool.eq_false_iff]
    intro habs
    rw [leadComponent, if_pos habs] at hlead
    cases hlead
  · rw [hpieces]
    intro c hc
    obtain ⟨piece, hin, hpiece⟩ := List.mem_filterMap.mp hc
    exact plain_of_pieceComponent hin hpiece

/-- What stands below the data path. -/
theorem components_below (chDataPath : String) {rel : String}
    (hrel : startsWith rel "/" = false) (hplain : ∀ c ∈ components rel, c.Plain) :
    components (pathJoin chDataPath rel) =
      (if chDataPath = "" then [] else components chDataPath) ++ components rel := by
  split
  · rename_i hempty
    rw [pathJoin_abs (.inr hempty)]
    rfl
  · rename_i hne
    rw [components_pathJoin hne hrel, filter_plain hplain]

/-- An absolute path that is not there is cut before its first parts directory. -/
theorem resolvePartPathSync_abs {metadata : String → Bool} {part : PartInfo}
    {pre post : List Component} {c : Component} (chDataPath : String)
    (habs : startsWith part.path "/" = true) (habsent : metadata part.path = false)
    (hcomps : components part.path = pre ++ c :: post) (hpre : ∀ d ∈ pre, ¬ d.IsPartsDir)
    (hc : c.IsPartsDir) :
    resolvePartPathSync metadata part chDataPath =
      pathJoin chDataPath (collectPath (c :: post)) := by
  have hnone : pre.findIdx? (fun d => d.asOsStr = "store" ∨ d.asOsStr = "data") = none := by
    rw [List.findIdx?_eq_none_iff]
    intro d hd
    exact decide_eq_false fun h => hpre d hd (isPartsDir_iff.mpr h)
  have hfirst : (pre ++ c :: post).findIdx? (fun d => d.asOsStr = "store" ∨ d.asOsStr = "data") =
      some pre.length := by
    rw [List.findIdx?_append, hnone, List.findIdx?_cons, if_pos (by simpa using isPartsDir_iff.mp hc)]
    simp
  unfold resolvePartPathSync
  rw [if_pos habs, if_neg (by simp [habsent])]
  simp only [hcomps, hfirst, List.drop_left]

/-- The place a cut path leads to. -/
theorem components_cut {chDataPath : String} {cs : List Component} (hne : cs ≠ [])
    (hplain : ∀ c ∈ cs, c.Plain) :
    components (pathJoin chDataPath (collectPath cs)) =
      (if chDataPath = "" then [] else components chDataPath) ++ cs := by
  obtain ⟨-, hrel, heq⟩ := components_collectPath hne hplain
  rw [components_below chDataPath hrel (by rwa [heq]), heq]

/-- A part whose path is not there locally, below a root that is not there
either. It is looked for below the data path, at its place behind the root,
exactly if no directory of the root itself is named `store` or `data`. -/
theorem resolved_iff {metadata : String → Bool} {root rel chDataPath : String} {part : PartInfo}
    (hdown : ∀ a b, a ≠ "" → metadata (a ++ "/" ++ b) = true → metadata a = true)
    (habs : startsWith root "/" = true) (habsent : metadata root = false)
    (hrel : ∃ c, (components rel).head? = some c ∧ c.IsPartsDir)
    (hpath : part.path = root ++ "/" ++ rel) :
    components (resolvePartPathSync metadata part chDataPath) =
        components (pathJoin chDataPath rel) ↔
      ∀ c ∈ components root, ¬ c.IsPartsDir := by
  obtain ⟨c, hhead, hc⟩ := hrel
  obtain ⟨name, rfl⟩ : ∃ name, c = .normal name := by
    rcases hc with rfl | rfl
    · exact ⟨_, rfl⟩
    · exact ⟨_, rfl⟩
  obtain ⟨hrelative, hpieces, hplain⟩ := components_named hhead
  obtain ⟨post, hpost⟩ := List.head?_eq_some_iff.mp hhead
  obtain ⟨rs, hroot, hrs, hrsplain⟩ := components_abs habs
  have hroothead : root.toList.head? = some '/' := startsWith_slash.mp habs
  have hrootne : root ≠ "" := by
    rintro rfl
    cases hroothead
  have hpartabs : startsWith part.path "/" = true := by
    rw [startsWith_slash, hpath, String.toList_append, String.toList_append, List.append_assoc,
      List.head?_append_of_ne_nil _ (toList_ne_nil hrootne)]
    exact hroothead
  have hpartabsent : metadata part.path = false := by
    rw [Bool.eq_false_iff, hpath]
    intro hthere
    rw [hdown root rel hrootne hthere] at habsent
    cases habsent
  have hcomps : components part.path = components root ++ components rel := by
    rw [components_eq_lead, leadComponent, if_pos hpartabs, hpath, splitAt_append_slash,
      List.filterMap_append, hrs, hpieces, hroot]
    rfl
  rw [components_below chDataPath hrelative hplain]
  constructor
  · intro heq c' hin hc'
    -- the first parts directory is one of the root's
    have hsome : ((components root).find? fun e => decide e.IsPartsDir).isSome = true :=
      List.find?_isSome.mpr ⟨c', hin, decide_eq_true hc'⟩
    obtain ⟨d, hfind⟩ := Option.isSome_iff_exists.mp hsome
    obtain ⟨hd, pre, tail, hsplit, hpre⟩ := List.find?_eq_some_iff_append.mp hfind
    have hfirst : ∀ e ∈ pre, ¬ e.IsPartsDir := fun e he => by simpa using hpre e he
    have hbehind : ∀ e ∈ d :: tail, e ∈ rs := by
      intro e he
      rw [hroot] at hsplit
      cases pre with
      | nil =>
        obtain ⟨rfl, -⟩ := List.cons.inj hsplit
        cases hd
      | cons x pre =>
        obtain ⟨-, hrs'⟩ := List.cons.inj hsplit
        exact hrs' ▸ List.mem_append_right _ he
    have htail : ∀ e ∈ d :: (tail ++ components rel), e.Plain := by
      intro e he
      rw [← List.cons_append, List.mem_append] at he
      rcases he with he | he
      · exact hrsplain e (hbehind e he)
      · exact hplain e he
    rw [hsplit, List.append_assoc, List.cons_append] at hcomps
    rw [resolvePartPathSync_abs chDataPath hpartabs hpartabsent hcomps hfirst (of_decide_eq_true hd),
      components_cut (List.cons_ne_nil _ _) htail] at heq
    have hlen := congrArg List.length (List.append_cancel_left heq)
    simp only [List.length_cons, List.length_append] at hlen
    omega
  · intro hclean
    rw [hpost] at hcomps hplain ⊢
    rw [resolvePartPathSync_abs chDataPath hpartabs hpartabsent hcomps hclean hc,
      components_cut (List.cons_ne_nil _ _) hplain]

/-- A part under this path. -/
def partAt (path : String) : PartInfo := ⟨"db", "t", "all_1_1_0", path, "", 0, 0⟩

theorem resolved_iff_container :
    components (resolvePartPathSync (fun _ => false)
        (partAt ("/var/lib/clickhouse" ++ "/" ++ "store/abc/all_1_1_0/")) "/mnt/ch") =
        components (pathJoin "/mnt/ch" "store/abc/all_1_1_0/") ↔
      ∀ c ∈ components "/var/lib/clickhouse", ¬ c.IsPartsDir :=
  resolved_iff (fun _ _ _ h => nomatch h) (by decide +kernel) rfl
    ⟨.normal "store", by decide +kernel, .inl rfl⟩ rfl

/-- Below `/data` the root is taken for a part of the path. -/
theorem data_root_not_resolved :
    ¬ ∀ (metadata : String → Bool) (root rel chDataPath : String) (part : PartInfo),
      (∀ a b, a ≠ "" → metadata (a ++ "/" ++ b) = true → metadata a = true) →
      startsWith root "/" = true → metadata root = false →
      (∃ c, (components rel).head? = some c ∧ c.IsPartsDir) → part.path = root ++ "/" ++ rel →
      components (resolvePartPathSync metadata part chDataPath) =
        components (pathJoin chDataPath rel) := by
  intro hall
  have hfound := hall (fun _ => false) "/data/clickhouse" "store/abc/all_1_1_0/" "/mnt/ch"
    (partAt ("/data/clickhouse" ++ "/" ++ "store/abc/all_1_1_0/")) (fun _ _ _ h => nomatch h)
    (by decide +kernel) rfl ⟨.normal "store", by decide +kernel, .inl rfl⟩ rfl
  have hdata : components (resolvePartPathSync (fun _ => false)
      (partAt ("/data/clickhouse" ++ "/" ++ "store/abc/all_1_1_0/")) "/mnt/ch") ≠
      components (pathJoin "/mnt/ch" "store/abc/all_1_1_0/") := by decide +kernel
  exact hdata hfound

end Chbk
