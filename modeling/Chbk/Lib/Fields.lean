import Chbk.Lib.Bytes

/-!
# Records of numbers

A record of little-endian numbers of given widths, written one after the other.

* `decodeFields_encodeFields` — numbers that fit their widths are read back.
* `decodeFields_lt` — what is read fits its width.
-/

namespace Lib

/-- Numbers with their widths, as bytes. -/
def encodeFields : List (Nat × Nat) → Bytes
  | [] => []
  | (w, v) :: fs => leBytes w v ++ encodeFields fs

/-- Read numbers of the given widths; also what is left of the bytes. -/
def decodeFields : List Nat → Bytes → Option (List Nat × Bytes)
  | [], bs => some ([], bs)
  | w :: ws, bs =>
    if bs.length < w then none
    else (decodeFields ws (bs.drop w)).map fun x => (leNat (bs.take w) :: x.1, x.2)

theorem length_encodeFields (fs : List (Nat × Nat)) :
    (encodeFields fs).length = (fs.map Prod.fst).sum := by
  induction fs with
  | nil => rfl
  | cons f fs ih =>
    rw [encodeFields, List.length_append, length_leBytes, ih, List.map_cons, List.sum_cons]

theorem decodeFields_encodeFields : ∀ {fs : List (Nat × Nat)} (rest : Bytes),
    (∀ f ∈ fs, f.2 < 256 ^ f.1) →
    decodeFields (fs.map Prod.fst) (encodeFields fs ++ rest) = some (fs.map Prod.snd, rest)
  | [], _, _ => rfl
  | (w, v) :: fs, rest, h => by
    have ih := @decodeFields_encodeFields fs rest fun f hf =>
      h f (List.mem_cons_of_mem _ hf)
    have hv : leNat (leBytes w v) = v := leNat_leBytes (h (w, v) (List.mem_cons_self ..))
    have hlen : (leBytes w v).length = w := length_leBytes w v
    have hlong : ¬ (leBytes w v ++ (encodeFields fs ++ rest)).length < w := by
      simp only [List.length_append, hlen]
      omega
    have hdrop : (leBytes w v ++ (encodeFields fs ++ rest)).drop w = encodeFields fs ++ rest :=
      List.drop_left' hlen
    have htake : (leBytes w v ++ (encodeFields fs ++ rest)).take w = leBytes w v :=
      List.take_left' hlen
    simp only [encodeFields, List.map_cons, decodeFields, List.append_assoc, if_neg hlong, hdrop,
      htake, hv, ih, Option.map_some]

/-- The first number of a record, and what is behind it. -/
theorem decodeFields_append {as : Bytes} {w : Nat} (hw : as.length = w) (ws : List Nat)
    (bs : Bytes) : decodeFields (w :: ws) (as ++ bs) =
      (decodeFields ws bs).map fun x => (leNat as :: x.1, x.2) := by
  have hlong : ¬ (as ++ bs).length < w := by
    rw [List.length_append]
    omega
  rw [decodeFields, if_neg hlong, List.drop_left' hw, List.take_left' hw]

/-- Two numbers of `w` bytes at a place of a record. -/
theorem decodeFields_two {bs : Bytes} {i w : Nat} (h : i + 2 * w ≤ bs.length) :
    decodeFields [w, w] (bs.drop i) =
      some ([leNat ((bs.drop i).take w), leNat ((bs.drop (i + w)).take w)],
        bs.drop (i + w + w)) := by
  have hfirst : ¬ (bs.drop i).length < w := by
    rw [List.length_drop]
    omega
  have hsecond : ¬ (bs.drop (i + w)).length < w := by
    rw [List.length_drop]
    omega
  simp only [decodeFields, if_neg hfirst, List.drop_drop, if_neg hsecond, Option.map_some]

/-- Too few bytes are no record. -/
theorem decodeFields_short : ∀ {ws : List Nat} {bs : Bytes}, bs.length < ws.sum →
    decodeFields ws bs = none
  | [], bs, h => absurd h (Nat.not_lt_zero _)
  | w :: ws, bs, h => by
    unfold decodeFields
    split_ifs with hlen
    · rfl
    · rw [decodeFields_short, Option.map_none]
      rw [List.sum_cons] at h
      rw [List.length_drop]
      omega

/-- Every number that is read is below the bound of its width. -/
theorem decodeFields_lt : ∀ {ws : List Nat} {bs rest : Bytes} {vs : List Nat},
    decodeFields ws bs = some (vs, rest) → List.Forall₂ (fun w v => v < 256 ^ w) ws vs
  | [], bs, rest, vs, h => by
    obtain ⟨rfl, -⟩ := Prod.mk.inj (Option.some.inj h)
    exact .nil
  | w :: ws, bs, rest, vs, h => by
    unfold decodeFields at h
    split_ifs at h with hlen
    obtain ⟨x, hx, hvs⟩ := Option.map_eq_some_iff.mp h
    obtain ⟨rfl, -⟩ := Prod.mk.inj hvs
    refine .cons ?_ (@decodeFields_lt _ _ x.2 _ hx)
    have hlt := leNat_lt (bs.take w)
    rw [List.length_take, min_eq_left (not_lt.mp hlen)] at hlt
    exact hlt

end Lib
