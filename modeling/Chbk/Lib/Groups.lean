import Mathlib.Data.List.Induction
import Mathlib.Data.List.Sort

/-!
# Groups of a list

A list put into groups by a key, one element after the other, and the best
element of a group.

* `grouped_foldl` — the groups are the parts of the list with one key each, and
  no key is missing.
* `perm_foldl_pushGroup` — the groups hold each element as often as the list.
* `exists_best` — sorted from the best on, the first is the best, and the rest
  is all others.
-/

namespace Lib

variable {κ α : Type} [DecidableEq κ]

/-- Put an element with the others of its key. -/
def pushGroup (key : α → κ) (groups : List (κ × List α)) (x : α) : List (κ × List α) :=
  match groups.lookup (key x) with
  | some _ => groups.map fun g => if g.1 = key x then (key x, g.2 ++ [x]) else g
  | none => groups ++ [(key x, [x])]

/-- The groups of `l`. -/
structure GroupedBy (key : α → κ) (l : List α) (groups : List (κ × List α)) : Prop where
  nodup : (groups.map Prod.fst).Nodup
  filter : ∀ g ∈ groups, g.2 = l.filter fun x => key x = g.1
  covers : ∀ k, k ∈ groups.map Prod.fst ↔ ∃ x ∈ l, key x = k

theorem lookup_isSome_iff {l : List (κ × List α)} {k : κ} :
    (l.lookup k).isSome = true ↔ k ∈ l.map Prod.fst := by
  induction l with
  | nil => simp
  | cons x l ih =>
    obtain ⟨k', a⟩ := x
    rw [List.lookup_cons]
    by_cases hk : k = k'
    · simp [hk]
    · have hne : (k == k') = false := beq_false_of_ne hk
      simp only [hne, ih, List.map_cons, List.mem_cons, hk, false_or]

/-- What is found under a key is in the list. -/
theorem mem_of_lookup {κ α : Type} [BEq κ] [LawfulBEq κ] {l : List (κ × α)} {k : κ} {a : α}
    (h : l.lookup k = some a) : (k, a) ∈ l := by
  obtain ⟨l₁, l₂, rfl, -⟩ := List.lookup_eq_some_iff.mp h
  simp

/-- With one entry a key, what is in the list is found under its key. -/
theorem mem_iff_lookup {κ α : Type} [BEq κ] [LawfulBEq κ] {l : List (κ × α)}
    (hnodup : (l.map Prod.fst).Nodup) {k : κ} {a : α} :
    (k, a) ∈ l ↔ l.lookup k = some a := by
  constructor
  · intro h
    cases hl : l.lookup k with
    | none =>
      rw [List.lookup_eq_none_iff] at hl
      simpa using hl _ h
    | some a' =>
      have hmem := mem_of_lookup hl
      have := List.inj_on_of_nodup_map hnodup h hmem rfl
      rw [(Prod.mk.inj this).2]
  · exact mem_of_lookup

theorem lookup_eq_none {κ α : Type} [BEq κ] [LawfulBEq κ] {l : List (κ × α)} {k : κ} :
    l.lookup k = none ↔ k ∉ l.map Prod.fst := by
  rw [List.lookup_eq_none_iff, List.mem_map]
  constructor
  · rintro h ⟨x, hx, rfl⟩
    simpa using h x hx
  · intro h x hx
    rw [bne_iff_ne]
    rintro rfl
    exact h ⟨x, hx, rfl⟩

theorem GroupedBy.push {key : α → κ} {l : List α} {groups : List (κ × List α)}
    (h : GroupedBy key l groups) (x : α) : GroupedBy key (l ++ [x]) (pushGroup key groups x) := by
  unfold pushGroup
  split
  · -- the group is there already
    rename_i g₀ hlook
    have hkeys : (groups.map fun g => if g.1 = key x then (key x, g.2 ++ [x]) else g).map Prod.fst =
        groups.map Prod.fst := by
      rw [List.map_map]
      apply List.map_congr_left
      intro g _
      by_cases hg : g.1 = key x
      · simp [hg]
      · simp [hg]
    have hmem : key x ∈ groups.map Prod.fst := by
      rw [← lookup_isSome_iff, hlook]
      rfl
    refine ⟨hkeys ▸ h.nodup, ?_, ?_⟩
    · intro g hg
      obtain ⟨g', hg', rfl⟩ := List.mem_map.mp hg
      by_cases hk : g'.1 = key x
      · simp [hk, h.filter g' hg', List.filter_append]
      · simp [hk, h.filter g' hg', List.filter_append, Ne.symm hk]
    · intro k
      rw [hkeys, h.covers]
      constructor
      · rintro ⟨y, hy, rfl⟩
        exact ⟨y, List.mem_append_left _ hy, rfl⟩
      · rintro ⟨y, hy, rfl⟩
        rcases List.mem_append.mp hy with hy | hy
        · exact ⟨y, hy, rfl⟩
        · obtain rfl := List.mem_singleton.mp hy
          exact (h.covers _).mp hmem
  · -- a new group
    rename_i hlook
    have hnew : key x ∉ groups.map Prod.fst := by
      rw [← lookup_isSome_iff, hlook]
      simp
    refine ⟨?_, ?_, ?_⟩
    · rw [List.map_append, List.nodup_append]
      refine ⟨h.nodup, by simp, ?_⟩
      intro k hk k' hk' he
      obtain rfl : k' = key x := by simpa using hk'
      exact hnew (he ▸ hk)
    · intro g hg
      rcases List.mem_append.mp hg with hg | hg
      · have hne : key x ≠ g.1 := by
          intro he
          exact hnew (he ▸ List.mem_map.mpr ⟨g, hg, rfl⟩)
        rw [h.filter g hg, List.filter_append]
        simp [hne]
      · obtain rfl := List.mem_singleton.mp hg
        -- no earlier element has this key
        have hnone : l.filter (fun y => key y = key x) = [] := by
          rw [List.filter_eq_nil_iff]
          intro y hy he
          exact hnew ((h.covers _).mpr ⟨y, hy, by simpa using he⟩)
        rw [List.filter_append, hnone]
        simp
    · intro k
      rw [List.map_append, List.mem_append, h.covers]
      constructor
      · rintro (⟨y, hy, rfl⟩ | hk)
        · exact ⟨y, List.mem_append_left _ hy, rfl⟩
        · obtain rfl : k = key x := by simpa using hk
          exact ⟨x, by simp, rfl⟩
      · rintro ⟨y, hy, rfl⟩
        rcases List.mem_append.mp hy with hy | hy
        · exact .inl ⟨y, hy, rfl⟩
        · obtain rfl := List.mem_singleton.mp hy
          exact .inr (by simp)

/-- Pushing every element makes the groups of the list. -/
theorem grouped_foldl (key : α → κ) (l : List α) : GroupedBy key l (l.foldl (pushGroup key) []) := by
  induction l using List.reverseRecOn with
  | nil => exact ⟨List.nodup_nil, by simp, by simp⟩
  | append_singleton l x ih =>
    rw [List.foldl_append]
    exact ih.push x

/-- A pushed element joins what the groups hold. -/
theorem perm_pushGroup {key : α → κ} {groups : List (κ × List α)}
    (hnodup : (groups.map Prod.fst).Nodup) (x : α) :
    ((pushGroup key groups x).flatMap Prod.snd).Perm (groups.flatMap Prod.snd ++ [x]) := by
  unfold pushGroup
  split
  · rename_i g hlook
    obtain ⟨pre, post, rfl, -⟩ := List.lookup_eq_some_iff.mp hlook
    rw [List.map_append, List.map_cons, List.nodup_append, List.nodup_cons] at hnodup
    obtain ⟨-, ⟨hpost, -⟩, hpre⟩ := hnodup
    -- only the group of the key is changed
    have hsame : ∀ l : List (κ × List α), (∀ y ∈ l, y.1 ≠ key x) →
        l.map (fun y => if y.1 = key x then (key x, y.2 ++ [x]) else y) = l := by
      intro l hl
      refine (List.map_congr_left fun y hy => ?_).trans (List.map_id l)
      rw [if_neg (hl y hy)]
      rfl
    rw [List.map_append, List.map_cons, if_pos rfl,
      hsame pre fun y hy he => hpre y.1 (List.mem_map.mpr ⟨y, hy, rfl⟩) _ (List.mem_cons_self ..) he,
      hsame post fun y hy he => hpost (List.mem_map.mpr ⟨y, hy, he⟩)]
    simp only [List.flatMap_append, List.flatMap_cons, List.append_assoc]
    exact ((@List.perm_append_comm _ [x] _).append_left g).append_left _
  · rw [List.flatMap_append]
    exact List.Perm.refl _

/-- The groups hold the elements of the list, each as often. -/
theorem perm_foldl_pushGroup (key : α → κ) (l : List α) :
    ((l.foldl (pushGroup key) []).flatMap Prod.snd).Perm l := by
  induction l using List.reverseRecOn with
  | nil => exact List.Perm.refl _
  | append_singleton l x ih =>
    rw [List.foldl_append]
    exact (perm_pushGroup (grouped_foldl key l).nodup x).trans (ih.append_right [x])

/-- The first of a list sorted from the largest value on is a largest one. -/
theorem exists_best {α : Type} (f : α → Int) {l : List α} (hne : l ≠ []) :
    ∃ x, (x :: (l.insertionSort fun a b => f a ≥ f b).drop 1).Perm l ∧ ∀ y ∈ l, f y ≤ f x := by
  have hperm := List.perm_insertionSort (fun a b => f a ≥ f b) l
  cases hsort : l.insertionSort fun a b => f a ≥ f b with
  | nil =>
    rw [hsort] at hperm
    exact absurd hperm.nil_eq.symm hne
  | cons x xs =>
    rw [hsort] at hperm
    refine ⟨x, hperm, ?_⟩
    have : Std.Total fun a b : α => f a ≥ f b := ⟨fun a b => le_total (f b) (f a)⟩
    have : IsTrans α fun a b => f a ≥ f b := ⟨fun a b c hab hbc => le_trans hbc hab⟩
    have hsorted := List.pairwise_insertionSort (fun a b => f a ≥ f b) l
    rw [hsort, List.pairwise_cons] at hsorted
    intro y hy
    rcases List.mem_cons.mp (hperm.mem_iff.mpr hy) with rfl | hy
    · exact le_refl _
    · exact hsorted.1 y hy

end Lib
