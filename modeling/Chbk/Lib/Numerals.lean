import Mathlib.Data.Nat.Digits.Lemmas

/-!
# Numerals

Digits with the highest one first, as numbers are written.

* `numeral_append_singleton` — one more digit at the end.
* `numeral_inj` — numerals of one length are one if their values are.
* `numeral_pairs` — two digits at a time are digits of the squared base.
* `numeral_toDigits` — the digits of a number have its value.
* `field_lt` — decimal numbers of one width are in the order of their texts.
-/

namespace Lib

/-- The value of digits, the highest one first. -/
def numeral (b : Nat) (ds : List Nat) : Nat := Nat.ofDigits b ds.reverse

theorem numeral_nil (b : Nat) : numeral b [] = 0 := rfl

theorem numeral_append_singleton (b : Nat) (ds : List Nat) (d : Nat) :
    numeral b (ds ++ [d]) = d + b * numeral b ds := by
  unfold numeral
  rw [List.reverse_append, List.reverse_singleton, List.singleton_append, Nat.ofDigits_cons]

theorem numeral_append (b : Nat) (ds es : List Nat) :
    numeral b (ds ++ es) = numeral b ds * b ^ es.length + numeral b es := by
  unfold numeral
  rw [List.reverse_append, Nat.ofDigits_append, List.length_reverse]
  ring

theorem numeral_cons (b d : Nat) (ds : List Nat) :
    numeral b (d :: ds) = d * b ^ ds.length + numeral b ds := by
  rw [← List.singleton_append, numeral_append]
  congr 2

theorem numeral_lt {b : Nat} {ds : List Nat} (hb : 1 < b) (h : ∀ d ∈ ds, d < b) :
    numeral b ds < b ^ ds.length := by
  unfold numeral
  rw [← List.length_reverse]
  exact Nat.ofDigits_lt_base_pow_length hb fun d hd => h d (List.mem_reverse.mp hd)

theorem numeral_inj {b : Nat} {ds es : List Nat} (hb : 1 < b) (hlen : ds.length = es.length)
    (hds : ∀ d ∈ ds, d < b) (hes : ∀ e ∈ es, e < b) (h : numeral b ds = numeral b es) :
    ds = es := by
  apply List.reverse_injective
  refine Nat.ofDigits_inj_of_len_eq hb ?_ ?_ ?_ h
  · rw [List.length_reverse, List.length_reverse, hlen]
  · intro d hd
    exact hds d (List.mem_reverse.mp hd)
  · intro e he
    exact hes e (List.mem_reverse.mp he)

/-- Two digits at a time. -/
def pairs (b : Nat) : List Nat → List Nat
  | d :: e :: ds => (b * d + e) :: pairs b ds
  | _ => []

theorem length_pairs (b : Nat) : ∀ (ds : List Nat), ds.length % 2 = 0 →
    (pairs b ds).length * 2 = ds.length
  | [], _ => rfl
  | [_], h => by simp at h
  | d :: e :: ds, h => by
    simp only [pairs, List.length_cons] at h ⊢
    have := length_pairs b ds (by omega)
    omega

theorem numeral_pairs (b : Nat) : ∀ (ds : List Nat), ds.length % 2 = 0 →
    numeral (b * b) (pairs b ds) = numeral b ds
  | [], _ => rfl
  | [_], h => by simp at h
  | d :: e :: ds, h => by
    have heven : ds.length % 2 = 0 := by
      simp only [List.length_cons] at h
      omega
    have hpow : (b * b) ^ (pairs b ds).length = b ^ ds.length := by
      rw [mul_pow, ← pow_add]
      congr 1
      have := length_pairs b ds heven
      omega
    rw [pairs, numeral_cons, numeral_pairs b ds heven, hpow, numeral_cons, numeral_cons,
      List.length_cons, pow_succ]
    ring

-- ---------------------------------------------------------------------------
-- Decimal numbers
-- ---------------------------------------------------------------------------

/-- The value of a decimal digit. -/
def decimalDigit (c : Char) : Nat := c.toNat - '0'.toNat

theorem decimalDigit_digitChar {d : Nat} (h : d < 10) : decimalDigit d.digitChar = d :=
  Nat.toNat_digitChar_sub_48_of_lt_ten h

theorem numeral_toDigits (n : Nat) : numeral 10 ((Nat.toDigits 10 n).map decimalDigit) = n := by
  induction n using Nat.strong_induction_on with
  | _ n ih =>
    rw [Nat.toDigits_eq_if (by decide)]
    split
    · rename_i hlt
      rw [List.map_singleton, decimalDigit_digitChar hlt]
      show Nat.ofDigits 10 [n] = n
      simp
    · have hlow := decimalDigit_digitChar (Nat.mod_lt n (show 10 > 0 by decide))
      rw [List.map_append, List.map_singleton, numeral_append_singleton, ih (n / 10) (by omega), hlow]
      omega

/-- A number that is not zero does not begin with a zero. -/
theorem head_toDigits {n : Nat} (hn : 0 < n) : (Nat.toDigits 10 n).head? ≠ some '0' := by
  induction n using Nat.strong_induction_on with
  | _ n ih =>
    rw [Nat.toDigits_eq_if (by decide)]
    split
    · rw [List.head?_singleton, ne_eq, Option.some.injEq, Nat.digitChar_eq_zero]
      omega
    · rw [List.head?_append_of_ne_nil _ Nat.toDigits_ne_nil]
      exact ih (n / 10) (by omega) (by omega)

/-- The text is the `w` decimal digits of `n`. -/
structure DecimalOf (w n : Nat) (cs : List Char) : Prop where
  length : cs.length = w
  digits : ∀ c ∈ cs, c.isDigit = true
  value : numeral 10 (cs.map decimalDigit) = n

theorem decimalDigit_lt {c : Char} (h : c.isDigit = true) : decimalDigit c < 10 := by
  have hrange : 48 ≤ c.toNat ∧ c.toNat ≤ 57 := by
    simpa [Char.isDigit, UInt32.le_iff_toNat_le] using h
  show c.toNat - 48 < 10
  omega

theorem char_lt_of_decimalDigit {c d : Char} (h : decimalDigit c < decimalDigit d) : c < d := by
  have hlt : c.toNat - 48 < d.toNat - 48 := h
  show c.val < d.val
  rw [UInt32.lt_iff_toNat_lt]
  show c.toNat < d.toNat
  omega

theorem digit_inj {c d : Char} (hc : c.isDigit = true) (hd : d.isDigit = true)
    (h : decimalDigit c = decimalDigit d) : c = d := by
  have hrange : ∀ e : Char, e.isDigit = true → 48 ≤ e.toNat := fun e he =>
    (show 48 ≤ e.toNat ∧ e.toNat ≤ 57 by simpa [Char.isDigit, UInt32.le_iff_toNat_le] using he).1
  have hlow := hrange c hc
  have hlow' := hrange d hd
  have heq : c.toNat - 48 = d.toNat - 48 := h
  rw [← Char.ofNat_toNat c, ← Char.ofNat_toNat d, show c.toNat = d.toNat by omega]

/-- The values of all digits are below the base. -/
theorem digits_lt {cs : List Char} (h : ∀ c ∈ cs, c.isDigit = true) :
    ∀ d ∈ cs.map decimalDigit, d < 10 := by
  intro d hd
  obtain ⟨c, hc, rfl⟩ := List.mem_map.mp hd
  exact decimalDigit_lt (h c hc)

/-- Digits with the same values are the same. -/
theorem digits_inj : ∀ {cs ds : List Char}, (∀ c ∈ cs, c.isDigit = true) →
    (∀ d ∈ ds, d.isDigit = true) → cs.map decimalDigit = ds.map decimalDigit → cs = ds
  | [], [], _, _, _ => rfl
  | [], _ :: _, _, _, h => by cases h
  | _ :: _, [], _, _, h => by cases h
  | c :: cs, d :: ds, hcs, hds, h => by
    obtain ⟨hcd, hrest⟩ := List.cons.inj h
    rw [digit_inj (hcs c (List.mem_cons_self ..)) (hds d (List.mem_cons_self ..)) hcd,
      digits_inj (fun e he => hcs e (List.mem_cons_of_mem _ he))
        (fun e he => hds e (List.mem_cons_of_mem _ he)) hrest]

/-- The texts of two numbers of one width, with anything behind them. -/
theorem DecimalOf.lt {x y : List Char} : ∀ {cs ds : List Char} {w m n : Nat}, DecimalOf w m cs →
    DecimalOf w n ds → m < n → cs ++ x < ds ++ y
  | [], ds, w, m, n, h, h', hlt => by
    have hnil : ds = [] := List.length_eq_zero_iff.mp (h'.length.trans h.length.symm)
    rw [← h.value, ← h'.value, hnil] at hlt
    exact absurd hlt (Nat.lt_irrefl _)
  | c :: cs, [], w, m, n, h, h', hlt => by
    have hlen := h.length.trans h'.length.symm
    cases hlen
  | c :: cs, d :: ds, w, m, n, h, h', hlt => by
    have hlen : cs.length = ds.length := Nat.succ.inj (h.length.trans h'.length.symm)
    have hc := h.digits c (List.mem_cons_self ..)
    have hd := h'.digits d (List.mem_cons_self ..)
    have hcs : DecimalOf cs.length (numeral 10 (cs.map decimalDigit)) cs :=
      ⟨rfl, fun e he => h.digits e (List.mem_cons_of_mem _ he), rfl⟩
    have hds : DecimalOf cs.length (numeral 10 (ds.map decimalDigit)) ds :=
      ⟨hlen.symm, fun e he => h'.digits e (List.mem_cons_of_mem _ he), rfl⟩
    have hm := h.value
    have hn := h'.value
    rw [List.map_cons, numeral_cons, List.length_map] at hm hn
    have hsmall := numeral_lt (by decide) (digits_lt hcs.digits)
    have hsmall' := numeral_lt (by decide) (digits_lt hds.digits)
    rw [List.length_map] at hsmall hsmall'
    rw [← hlen] at hn hsmall'
    rw [List.cons_append, List.cons_append, List.cons_lt_cons_iff]
    rcases Nat.lt_trichotomy (decimalDigit c) (decimalDigit d) with hcd | hcd | hcd
    · exact .inl (char_lt_of_decimalDigit hcd)
    · refine .inr ⟨digit_inj hc hd hcd, DecimalOf.lt hcs hds ?_⟩
      rw [hcd] at hm
      omega
    · -- the higher digit would make the number the greater one
      have hmul := Nat.mul_le_mul_right (10 ^ cs.length) (Nat.succ_le_of_lt hcd)
      rw [Nat.succ_mul] at hmul
      omega

theorem DecimalOf.inj {cs ds : List Char} {w n : Nat} (h : DecimalOf w n cs)
    (h' : DecimalOf w n ds) : cs = ds := by
  have hlen : (cs.map decimalDigit).length = (ds.map decimalDigit).length := by
    rw [List.length_map, List.length_map, h.length, h'.length]
  refine digits_inj h.digits h'.digits (numeral_inj (by decide) hlen (digits_lt h.digits)
    (digits_lt h'.digits) (h.value.trans h'.value.symm))

/-- A field behind a separator: the order is that of the numbers, and of what
stands behind them where they are equal. -/
theorem field_lt {sep cs ds x y : List Char} {w m n : Nat} (h : DecimalOf w m cs)
    (h' : DecimalOf w n ds) (hlex : m < n ∨ m = n ∧ x < y) :
    sep ++ (cs ++ x) < sep ++ (ds ++ y) := by
  apply List.append_left_lt
  rcases hlex with hlt | ⟨rfl, hlt⟩
  · exact h.lt h' hlt
  · rw [h.inj h']
    exact List.append_left_lt hlt

end Lib
