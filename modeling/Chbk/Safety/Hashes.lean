import Mathlib
import Chbk.Lib.Numerals
import Chbk.Model.Clickhouse
import Chbk.Model.Gc
import Chbk.Safety.Bucket

/-!
# Hashes: from the server's text to a key, and back

Four pieces of code deal with the text of a hash: the one that reads it from a
query, the one that makes a key, the one that lists shards, and the one that
takes a key apart. All of them come down to the value of 32 hex digits.

* `IsHex`, `hexValue` — 32 hex digits, and the number they stand for.
* `hashOfText_hex`, `hashOfText_decimal`, `hashOfText_long` — what is made of
  the two renderings of a number; a decimal one of 32 digits is taken for hex.
* `faithful_iff` — when the same hash, and only that, gives the same key.
* `fromHex_formatHex` — the sixteen bytes have the value of the digits.
* `keys_agree` — the writers' key is the one `gc-all` looks for.
-/

namespace Chbk

open Lib

-- ---------------------------------------------------------------------------
-- Hex digits
-- ---------------------------------------------------------------------------

/-- The value of a hex digit of either case. -/
def hexVal (c : Char) : Nat := ((hexDigit c).getD 0).toNat

def asciiLower (c : Char) : Char :=
  if 'A' ≤ c ∧ c ≤ 'Z' then Char.ofNat (c.toNat + 32) else c

theorem toAsciiLowercase_eq (s : String) :
    toAsciiLowercase s = String.ofList (s.toList.map asciiLower) := rfl

theorem toNat_lt_of_hexdigit {c : Char} (h : isAsciiHexdigit c = true) : c.toNat < 128 := by
  simp only [isAsciiHexdigit, Char.isDigit, Bool.or_eq_true, Bool.and_eq_true, decide_eq_true_eq,
    Char.le_def, UInt32.le_iff_toNat_le, ge_iff_le] at h
  show c.val.toNat < 128
  have h9 : '9'.val.toNat = 57 := rfl
  have hf : 'f'.val.toNat = 102 := rfl
  have hF : 'F'.val.toNat = 70 := rfl
  omega

/-- What a hex digit is, and is not. -/
structure HexChar (c : Char) : Prop where
  digit : hexDigit c = some (UInt8.ofNat (hexVal c))
  val_lt : hexVal c < 16
  not_space : isWhitespace c = false
  not_slash : c ≠ '/'
  lower : asciiLower c = hexChar (hexVal c)

theorem hexChar_of_hexdigit {c : Char} (h : isAsciiHexdigit c = true) : HexChar c := by
  have htable : ∀ n < 128, isAsciiHexdigit (Char.ofNat n) = true →
      hexDigit (Char.ofNat n) = some (UInt8.ofNat (hexVal (Char.ofNat n))) ∧
      hexVal (Char.ofNat n) < 16 ∧ isWhitespace (Char.ofNat n) = false ∧ Char.ofNat n ≠ '/' ∧
      asciiLower (Char.ofNat n) = hexChar (hexVal (Char.ofNat n)) := by decide +kernel
  have hc := htable c.toNat (toNat_lt_of_hexdigit h)
  rw [Char.ofNat_toNat] at hc
  obtain ⟨h₁, h₂, h₃, h₄, h₅⟩ := hc h
  exact ⟨h₁, h₂, h₃, h₄, h₅⟩

theorem hexdigit_hexChar : ∀ n < 16, isAsciiHexdigit (hexChar n) = true := by decide +kernel

theorem hexVal_hexChar : ∀ n < 16, hexVal (hexChar n) = n := by decide +kernel

-- ---------------------------------------------------------------------------
-- Numbers in hex
-- ---------------------------------------------------------------------------

theorem length_hexDigits (w n : Nat) : (hexDigits w n).length = w := by
  induction w generalizing n with
  | zero => rfl
  | succ w ih => rw [hexDigits, List.length_append, ih, List.length_singleton]

theorem hexdigit_of_mem {w n : Nat} {c : Char} (h : c ∈ hexDigits w n) :
    isAsciiHexdigit c = true := by
  induction w generalizing n with
  | zero => cases h
  | succ w ih =>
    rcases List.mem_append.mp h with h | h
    · exact ih h
    · rw [List.mem_singleton.mp h]
      exact hexdigit_hexChar _ (Nat.mod_lt n (by decide))

theorem numeral_hexDigits (w n : Nat) : numeral 16 ((hexDigits w n).map hexVal) = n % 16 ^ w := by
  induction w generalizing n with
  | zero => simp [hexDigits, numeral_nil, Nat.mod_one]
  | succ w ih =>
    have hlow := hexVal_hexChar _ (Nat.mod_lt n (by decide))
    rw [hexDigits, List.map_append, List.map_singleton, numeral_append_singleton, ih, hlow,
      pow_succ', Nat.mod_mul]

theorem hexDigits_append (a b n : Nat) :
    hexDigits (a + b) n = hexDigits a (n / 16 ^ b) ++ hexDigits b n := by
  induction b generalizing n with
  | zero => simp [hexDigits]
  | succ b ih =>
    rw [← Nat.add_assoc, hexDigits, ih, hexDigits, Nat.div_div_eq_div_mul, ← pow_succ',
      List.append_assoc]

/-- Hex digits of either case, made lowercase, are the digits of their value. -/
theorem map_asciiLower {l : List Char} (h : ∀ c ∈ l, isAsciiHexdigit c = true) :
    l.map asciiLower = hexDigits l.length (numeral 16 (l.map hexVal)) := by
  induction l using List.reverseRecOn with
  | nil => rfl
  | append_singleton l c ih =>
    have hc := hexChar_of_hexdigit (h c (by simp))
    have hl := ih fun d hd => h d (by simp [hd])
    have hlt := hc.val_lt
    rw [List.map_append, List.map_append, List.map_singleton, List.map_singleton,
      numeral_append_singleton, List.length_append, List.length_singleton, hexDigits,
      show (hexVal c + 16 * numeral 16 (l.map hexVal)) / 16 = numeral 16 (l.map hexVal) by omega,
      show (hexVal c + 16 * numeral 16 (l.map hexVal)) % 16 = hexVal c by omega, hl, hc.lower]

/-- 32 hex digits, of either case. -/
structure IsHex (s : String) : Prop where
  length : s.toList.length = 32
  digits : ∀ c ∈ s.toList, isAsciiHexdigit c = true

/-- The number hex digits stand for. -/
def hexValue (s : String) : Nat := numeral 16 (s.toList.map hexVal)

theorem toList_formatHex (w n : Nat) : (formatHex w n).toList = hexDigits w n :=
  String.toList_ofList

theorem isHex_formatHex (n : Nat) : IsHex (formatHex 32 n) := by
  constructor
  · rw [toList_formatHex, length_hexDigits]
  · intro c hc
    rw [toList_formatHex] at hc
    exact hexdigit_of_mem hc

theorem hexValue_formatHex {w n : Nat} (h : n < 16 ^ w) : hexValue (formatHex w n) = n := by
  rw [hexValue, toList_formatHex, numeral_hexDigits, Nat.mod_eq_of_lt h]

theorem formatHex_inj {w m n : Nat} (hm : m < 16 ^ w) (hn : n < 16 ^ w)
    (h : formatHex w m = formatHex w n) : m = n := by
  rw [← hexValue_formatHex hm, h, hexValue_formatHex hn]

theorem hexValue_lt {s : String} (h : IsHex s) : hexValue s < 2 ^ 128 := by
  have hlt := @numeral_lt 16 (s.toList.map hexVal) (by decide) <| by
    intro d hd
    obtain ⟨c, hc, rfl⟩ := List.mem_map.mp hd
    exact (hexChar_of_hexdigit (h.digits c hc)).val_lt
  rw [List.length_map, h.length] at hlt
  exact hlt

-- ---------------------------------------------------------------------------
-- Reading a number
-- ---------------------------------------------------------------------------

theorem trim_eq_self {s : String} (h : ∀ c ∈ s.toList, isWhitespace c = false) : trim s = s := by
  have hdrop : ∀ l : List Char, (∀ c ∈ l, isWhitespace c = false) →
      l.dropWhile isWhitespace = l := by
    intro l hl
    cases l with
    | nil => rfl
    | cons c l => rw [List.dropWhile_cons_of_neg (by simp [hl c])]
  unfold trim
  rw [hdrop _ h, hdrop _ fun c hc => h c (List.mem_reverse.mp hc), List.reverse_reverse,
    String.ofList_toList]

/-- 32 hex digits are read as what they stand for. -/
theorem hashOfText_hex {s : String} (h : IsHex s) :
    hashOfText s = .ok (formatHex 32 (hexValue s)) := by
  have htrim := trim_eq_self fun c hc => (hexChar_of_hexdigit (h.digits c hc)).not_space
  have hlen : (utf8 s).length = 32 := by
    rw [utf8_of_ascii fun c hc => toNat_lt_of_hexdigit (h.digits c hc), List.length_map, h.length]
  have hall : s.toList.all isAsciiHexdigit = true := List.all_eq_true.mpr h.digits
  unfold hashOfText
  dsimp only
  rw [htrim, if_pos ⟨hlen, hall⟩, toAsciiLowercase_eq, map_asciiLower h.digits, h.length]
  rfl

theorem hexdigit_of_isDigit {c : Char} (h : c.isDigit = true) : isAsciiHexdigit c = true := by
  simp [isAsciiHexdigit, h]

theorem toList_toString (n : Nat) : (toString n).toList = Nat.toDigits 10 n := by
  rw [Nat.toString_eq_repr, Nat.toList_repr]

theorem isDigit_of_mem {n : Nat} {c : Char} (h : c ∈ (toString n).toList) : c.isDigit = true := by
  rw [toList_toString] at h
  exact Nat.isDigit_of_mem_toDigits (by decide) (by decide) h

/-- The loop of the parser over the digits of a number in its range. -/
theorem parseDigits_of_digits {bound : Nat} : ∀ {acc : Nat} {cs : List Char},
    (∀ c ∈ cs, c.isDigit = true) →
    acc * 10 ^ cs.length + numeral 10 (cs.map decimalDigit) < bound →
    parseDigits bound acc cs = .ok (acc * 10 ^ cs.length + numeral 10 (cs.map decimalDigit))
  | acc, [], _, _ => by simp [parseDigits, numeral_nil]
  | acc, c :: cs, hdigits, hlt => by
    have hvalue : acc * 10 ^ (c :: cs).length + numeral 10 ((c :: cs).map decimalDigit) =
        (acc * 10 + decimalDigit c) * 10 ^ cs.length + numeral 10 (cs.map decimalDigit) := by
      rw [List.map_cons, numeral_cons, List.length_map, List.length_cons, pow_succ']
      ring
    rw [hvalue] at hlt ⊢
    have hsmall : acc * 10 + decimalDigit c < bound := by
      have hpos : 1 ≤ 10 ^ cs.length := Nat.one_le_pow _ _ (by decide)
      have := Nat.le_mul_of_pos_right (acc * 10 + decimalDigit c) hpos
      omega
    have ih := @parseDigits_of_digits bound (acc * 10 + decimalDigit c) cs
      (fun d hd => hdigits d (List.mem_cons_of_mem _ hd)) hlt
    rw [parseDigits, if_pos (hdigits c (List.mem_cons_self ..))]
    exact (if_pos hsmall).trans ih

theorem parseUnsigned_toString {bound n : Nat} (h : n < bound) :
    parseUnsigned bound (toString n) = .ok n := by
  have hdigits : ∀ c ∈ Nat.toDigits 10 n, c.isDigit = true := by
    intro c hc
    exact Nat.isDigit_of_mem_toDigits (by decide) (by decide) hc
  have hparse := @parseDigits_of_digits bound 0 _ hdigits (by
    rw [numeral_toDigits]
    omega)
  rw [numeral_toDigits, Nat.zero_mul, Nat.zero_add] at hparse
  unfold parseUnsigned
  rw [toList_toString]
  -- there is a first digit, and it is no plus sign
  cases hcs : Nat.toDigits 10 n with
  | nil => exact absurd hcs Nat.toDigits_ne_nil
  | cons c cs =>
    rw [hcs] at hparse
    have hc : c ≠ '+' := by
      rintro rfl
      have := hdigits '+' (hcs ▸ List.mem_cons_self ..)
      revert this
      decide
    split
    · rename_i heq
      cases heq
    · rename_i heq
      exact absurd (List.cons.inj heq).1 hc
    · rename_i heq
      exact absurd (List.cons.inj heq).1 hc
    · exact hparse

/-- A number is written with 32 digits. -/
def LongDecimal (n : Nat) : Prop := 10 ^ 31 ≤ n ∧ n < 10 ^ 32

instance (n : Nat) : Decidable (LongDecimal n) := inferInstanceAs (Decidable (_ ∧ _))

theorem length_toString_iff {n : Nat} : (toString n).toList.length = 32 ↔ LongDecimal n := by
  rw [toList_toString, LongDecimal]
  have hle : ∀ k, 0 < k → ((Nat.toDigits 10 n).length ≤ k ↔ n < 10 ^ k) := fun k hk =>
    Nat.length_toDigits_le_iff (by decide) hk
  have h31 := hle 31 (by decide)
  have h32 := hle 32 (by decide)
  omega

theorem trim_toString (n : Nat) : trim (toString n) = toString n :=
  trim_eq_self fun _ hc => (hexChar_of_hexdigit (hexdigit_of_isDigit (isDigit_of_mem hc))).not_space

/-- Decimal digits, but not 32 of them, are read as what they stand for. -/
theorem hashOfText_decimal {n : Nat} (hn : n < 2 ^ 128) (hshort : ¬ LongDecimal n) :
    hashOfText (toString n) = .ok (formatHex 32 n) := by
  have hlen : (utf8 (toString n)).length ≠ 32 := by
    rw [utf8_of_ascii fun c hc => toNat_lt_of_hexdigit (hexdigit_of_isDigit (isDigit_of_mem hc)),
      List.length_map]
    exact fun h => hshort (length_toString_iff.mp h)
  unfold hashOfText
  dsimp only
  rw [trim_toString, if_neg fun h => hlen h.1, parseUnsigned_toString hn]

/-- 32 decimal digits are taken for hex digits, which stand for more. -/
theorem hashOfText_long {n : Nat} (hlong : LongDecimal n) :
    IsHex (toString n) ∧ n < hexValue (toString n) := by
  have hlen := length_toString_iff.mpr hlong
  refine ⟨⟨hlen, fun c hc => hexdigit_of_isDigit (isDigit_of_mem hc)⟩, ?_⟩
  have hhead := head_toDigits (n := n) (by have := hlong.1; omega)
  rw [hexValue]
  rw [← toList_toString] at hhead
  -- the first digit is not zero, so the value is at least 16 ^ 31
  cases hcs : (toString n).toList with
  | nil =>
    rw [hcs] at hlen
    cases hlen
  | cons c cs =>
    rw [hcs] at hhead hlen
    have hpos : 1 ≤ hexVal c := by
      have hdigit := isDigit_of_mem (n := n) (hcs ▸ List.mem_cons_self ..)
      have htable : ∀ m < 128, (Char.ofNat m).isDigit = true → Char.ofNat m ≠ '0' →
          1 ≤ hexVal (Char.ofNat m) := by decide +kernel
      have hc := htable c.toNat (toNat_lt_of_hexdigit (hexdigit_of_isDigit hdigit))
      rw [Char.ofNat_toNat] at hc
      exact hc hdigit fun h0 => hhead (by rw [h0]; rfl)
    have hrest : cs.length = 31 := by
      rw [List.length_cons] at hlen
      omega
    rw [List.map_cons, numeral_cons, List.length_map, hrest]
    have hlt := hlong.2
    omega

/-- One of the two texts of a number: in decimal, or as 32 hex digits. -/
def Renders (n : Nat) (s : String) : Prop := s = toString n ∨ IsHex s ∧ hexValue s = n

theorem hashOfText_renders {n : Nat} {s : String} (hn : n < 2 ^ 128) (hshort : ¬ LongDecimal n)
    (h : Renders n s) : hashOfText s = .ok (formatHex 32 n) := by
  rcases h with rfl | ⟨hhex, rfl⟩
  · exact hashOfText_decimal hn hshort
  · exact hashOfText_hex hhex

theorem parseHash_string {json : Json} {s h : String} (hs : hashOfText s = .ok h) :
    parseHashOfAllFilesHex json (.string s) = .ok (some h) := by
  rw [parseHashOfAllFilesHex, hs]
  rfl

/-- The texts of each hash give its 32 digits, and two texts give one key only
if they are of one hash. -/
def Faithful (json : Json) (hashes : List (BitVec 128)) : Prop :=
  (∀ n ∈ hashes, ∀ s, Renders n.toNat s →
    parseHashOfAllFilesHex json (.string s) = .ok (some (formatHex 32 n.toNat))) ∧
  ∀ m ∈ hashes, ∀ n ∈ hashes, ∀ s t h k, Renders m.toNat s → Renders n.toNat t →
    parseHashOfAllFilesHex json (.string s) = .ok (some h) →
    parseHashOfAllFilesHex json (.string t) = .ok (some k) →
    (blobRemoteKey h = blobRemoteKey k ↔ m = n)

/-- Hashes are told apart, and each is given its digits, exactly if none of them
is written with 32 decimal digits. -/
theorem faithful_iff (json : Json) (hashes : List (BitVec 128)) :
    Faithful json hashes ↔ ∀ n ∈ hashes, ¬ LongDecimal n.toNat := by
  constructor
  · intro ⟨htext, _⟩ n hn hlong
    obtain ⟨hhex, hmore⟩ := hashOfText_long hlong
    have hdec := htext n hn (toString n.toNat) (.inl rfl)
    rw [parseHash_string (hashOfText_hex hhex)] at hdec
    have hsame := formatHex_inj (hexValue_lt hhex) n.isLt (Option.some.inj (Except.ok.inj hdec))
    omega
  · intro hshort
    have htext : ∀ n ∈ hashes, ∀ s, Renders n.toNat s →
        parseHashOfAllFilesHex json (.string s) = .ok (some (formatHex 32 n.toNat)) :=
      fun n hn s hs => parseHash_string (hashOfText_renders n.isLt (hshort n hn) hs)
    refine ⟨htext, ?_⟩
    intro m hm n hn s t h k hs ht hparse hparse'
    rw [htext m hm s hs] at hparse
    rw [htext n hn t ht] at hparse'
    obtain rfl := Option.some.inj (Except.ok.inj hparse)
    obtain rfl := Option.some.inj (Except.ok.inj hparse')
    constructor
    · intro hkey
      exact BitVec.eq_of_toNat_eq (formatHex_inj m.isLt n.isLt (blobRemoteKey_inj hkey))
    · rintro rfl
      rfl

/-- A library that reads nothing. -/
def blankJson : Json := ⟨fun _ => none, fun _ => ""⟩

/-- Two hashes in decimal, and one key. -/
theorem not_faithful : ¬ Faithful blankJson [10 ^ 31, 16 ^ 31] := by
  intro ⟨_, hkeys⟩
  have hdec : Renders (10 ^ 31 : BitVec 128).toNat "10000000000000000000000000000000" :=
    .inl (by decide +kernel)
  have hdec' : Renders (16 ^ 31 : BitVec 128).toNat "21267647932558653966460912964485513216" :=
    .inl (by decide +kernel)
  have hkey : parseHashOfAllFilesHex blankJson (.string "10000000000000000000000000000000") =
      .ok (some "10000000000000000000000000000000") := by decide +kernel
  have hkey' : parseHashOfAllFilesHex blankJson
      (.string "21267647932558653966460912964485513216") =
      .ok (some "10000000000000000000000000000000") := by decide +kernel
  have hne : (10 ^ 31 : BitVec 128) ≠ 16 ^ 31 := by decide +kernel
  exact hne ((hkeys _ (by simp) _ (by simp) _ _ _ _ hdec hdec' hkey hkey').mp rfl)

-- ---------------------------------------------------------------------------
-- Keys of blobs
-- ---------------------------------------------------------------------------

/-- What the parser of numbers returns is in its range. -/
theorem parseDigits_lt {bound : Nat} : ∀ {acc n : Nat} {cs : List Char},
    acc < bound → parseDigits bound acc cs = .ok n → n < bound
  | acc, n, [], hacc, h => by
    rw [parseDigits] at h
    exact Except.ok.inj h ▸ hacc
  | acc, n, c :: cs, hacc, h => by
    rw [parseDigits] at h
    split at h
    · dsimp only at h
      split at h
      · rename_i hlt
        exact parseDigits_lt hlt h
      · cases h
    · cases h

theorem parseUnsigned_lt {bound n : Nat} {s : String} (hb : 0 < bound)
    (h : parseUnsigned bound s = .ok n) : n < bound := by
  unfold parseUnsigned at h
  split at h
  · cases h
  · cases h
  · exact parseDigits_lt hb h
  · exact parseDigits_lt hb h

/-- Every hash that is read is the 32 digits of a number. -/
theorem exists_of_hashOfText {raw h : String} (hraw : hashOfText raw = .ok h) :
    ∃ n < 2 ^ 128, h = formatHex 32 n := by
  unfold hashOfText at hraw
  dsimp only at hraw
  split at hraw
  · rename_i hshape
    have hdigits := List.all_eq_true.mp hshape.2
    have hlen := hshape.1
    rw [utf8_of_ascii fun c hc => toNat_lt_of_hexdigit (hdigits c hc), List.length_map] at hlen
    have hhex : IsHex (trim raw) := ⟨hlen, hdigits⟩
    refine ⟨hexValue (trim raw), hexValue_lt hhex, ?_⟩
    rw [← Except.ok.inj hraw, toAsciiLowercase_eq, map_asciiLower hdigits, hlen]
    rfl
  · split at hraw
    · rename_i n hn
      exact ⟨n, parseUnsigned_lt (by decide) hn, (Except.ok.inj hraw).symm⟩
    · cases hraw

theorem exists_of_parseHash {json : Json} {v : Value} {h : String}
    (hv : parseHashOfAllFilesHex json v = .ok (some h)) : ∃ n < 2 ^ 128, h = formatHex 32 n := by
  have hmap : ∀ raw, (hashOfText raw).map some = .ok (some h) →
      ∃ n < 2 ^ 128, h = formatHex 32 n := by
    intro raw hraw
    cases hh : hashOfText raw with
    | ok k =>
      rw [hh] at hraw
      obtain rfl := Option.some.inj (Except.ok.inj hraw)
      exact exists_of_hashOfText hh
    | error e =>
      rw [hh] at hraw
      cases hraw
  unfold parseHashOfAllFilesHex at hv
  split at hv
  · cases hv
  · exact hmap _ hv
  · exact hmap _ hv
  · cases hv

/-- The bytes of an even number of hex digits. -/
theorem fromHexPairs_of_hexdigits : ∀ (l : List Char), (∀ c ∈ l, isAsciiHexdigit c = true) →
    l.length % 2 = 0 →
    ∃ bs, fromHexPairs l = some bs ∧ bs.map UInt8.toNat = pairs 16 (l.map hexVal)
  | [], _, _ => ⟨[], rfl, rfl⟩
  | [_], _, h => by simp at h
  | hi :: lo :: cs, hdigits, heven => by
    have hhi := hexChar_of_hexdigit (hdigits hi (by simp))
    have hlo := hexChar_of_hexdigit (hdigits lo (by simp))
    have hnibbles : ∀ a < 16, ∀ b < 16,
        (((UInt8.ofNat a) <<< 4) ||| UInt8.ofNat b).toNat = 16 * a + b := by decide +kernel
    obtain ⟨bs, hbs, hval⟩ := fromHexPairs_of_hexdigits cs
      (fun c hc => hdigits c (by simp [hc])) (by simp only [List.length_cons] at heven; omega)
    refine ⟨((UInt8.ofNat (hexVal hi)) <<< 4 ||| UInt8.ofNat (hexVal lo)) :: bs, ?_, ?_⟩
    · rw [fromHexPairs, hhi.digit, hlo.digit, hbs]
      rfl
    · rw [List.map_cons, hnibbles _ hhi.val_lt _ hlo.val_lt, hval]
      rfl

/-- The sixteen bytes of a hash have the value of its digits. -/
theorem fromHex_of_isHex {h : String} (hh : IsHex h) :
    ∃ b, fromHex h = some b ∧ numeral 256 (b.map UInt8.toNat) = hexValue h := by
  obtain ⟨b, hb, hval⟩ := fromHexPairs_of_hexdigits h.toList hh.digits (by rw [hh.length])
  have hlen : (utf8 h).length = 32 := by
    rw [utf8_of_ascii fun c hc => toNat_lt_of_hexdigit (hh.digits c hc), List.length_map, hh.length]
  refine ⟨b, ?_, ?_⟩
  · rw [fromHex, if_neg (not_not.mpr hlen), hb]
  · rw [hval, show 256 = 16 * 16 from rfl, numeral_pairs]
    · rfl
    · rw [List.length_map, hh.length]

/-- Two hashes in lowercase digits with the same bytes are the same. -/
theorem fromHex_inj {m n : Nat} (hm : m < 2 ^ 128) (hn : n < 2 ^ 128)
    (h : fromHex (formatHex 32 m) = fromHex (formatHex 32 n)) : m = n := by
  obtain ⟨b, hb, hbm⟩ := fromHex_of_isHex (isHex_formatHex m)
  obtain ⟨b', hb', hbn⟩ := fromHex_of_isHex (isHex_formatHex n)
  rw [hb, hb'] at h
  obtain rfl := Option.some.inj h
  rw [← hexValue_formatHex (w := 32) hm, ← hexValue_formatHex (w := 32) hn, ← hbm, hbn]

theorem not_slash_of_isHex {h : String} (hh : IsHex h) : '/' ∉ h.toList :=
  fun hs => (hexChar_of_hexdigit (hh.digits _ hs)).not_slash rfl

theorem blobShard_of_isHex {h : String} (hh : IsHex h) :
    blobShard h = some (String.ofList (h.toList.take 2)) := by
  have hbyte : ∀ c ∈ h.toList, c.utf8Size = 1 := fun c hc =>
    Char.utf8Size_eq_one_iff.mpr (by
      have := toNat_lt_of_hexdigit (hh.digits c hc)
      exact UInt32.le_iff_toNat_le.mpr (Nat.le_of_lt_succ this))
  have hlen := hh.length
  have hbytes := utf8_of_ascii fun c hc => toNat_lt_of_hexdigit (hh.digits c hc)
  rw [blobShard, if_pos (by rw [hbytes, List.length_map, hlen]; decide), firstTwoBytes]
  match hchars : h.toList, hlen with
  | c :: d :: cs, _ =>
    rw [hchars] at hbyte
    have hc := hbyte c (List.mem_cons_self ..)
    have hd := hbyte d (List.mem_cons_of_mem _ (List.mem_cons_self ..))
    simp [hc, hd]

/-- The shard of a hash, as it stands in its key. -/
theorem shardOf_isHex {h : String} (hh : IsHex h) :
    (blobShard h).getD "__" = String.ofList (h.toList.take 2) := by
  rw [blobShard_of_isHex hh, Option.getD_some]

theorem splitAt_blobRemoteKey {h : String} (hh : IsHex h) :
    splitAt '/' (blobRemoteKey h) = ["base", "data", "blobs", (blobShard h).getD "__", h] := by
  have hkey : blobRemoteKey h = joinWith "/" ["base", "data", "blobs", (blobShard h).getD "__", h] := by
    apply String.toList_injective
    rw [toList_blobRemoteKey]
    simp [joinWith]
  rw [hkey]
  refine splitAt_joinWith (by simp) ?_
  have hshard : '/' ∉ ((blobShard h).getD "__").toList := by
    rw [shardOf_isHex hh, String.toList_ofList]
    exact fun hs => not_slash_of_isHex hh (List.mem_of_mem_take hs)
  intro s hs
  simp only [List.mem_cons, List.not_mem_nil, or_false] at hs
  rcases hs with rfl | rfl | rfl | rfl | rfl
  · decide
  · decide
  · decide
  · exact hshard
  · exact not_slash_of_isHex hh

/-- The key of a blob is taken apart into its hash. -/
theorem parseUnreferencedBlob_key {h : String} (hh : IsHex h) (referenced : List BlobHash) :
    parseUnreferencedBlob (blobRemoteKey h) referenced =
      (fromHex h).bind fun hash => if hash ∈ referenced then none else some h := by
  have hbytes := utf8_of_ascii fun c hc => toNat_lt_of_hexdigit (hh.digits c hc)
  have hshard : utf8 ((blobShard h).getD "__") = (utf8 h).take 2 := by
    rw [shardOf_isHex hh, hbytes, utf8_of_ascii, String.toList_ofList, List.map_take]
    intro c hc
    rw [String.toList_ofList] at hc
    exact toNat_lt_of_hexdigit (hh.digits c (List.mem_of_mem_take hc))
  have hlen : (utf8 h).length = 32 := by
    rw [hbytes, List.length_map, hh.length]
  unfold parseUnreferencedBlob
  rw [splitAt_blobRemoteKey hh]
  refine if_neg ?_
  rw [hshard, List.length_take, hlen]
  simp

/-- The key of a blob lies under the shard of its first two digits. -/
theorem blobRemoteKey_formatHex (n : Nat) :
    blobRemoteKey (formatHex 32 n) = shardPrefix (n / 16 ^ 30) ++ formatHex 32 n := by
  apply String.toList_injective
  have hshard : ((blobShard (formatHex 32 n)).getD "__").toList =
      hexDigits 2 (n / 16 ^ 30) := by
    rw [shardOf_isHex (isHex_formatHex n), String.toList_ofList, toList_formatHex,
      hexDigits_append 2 30, List.take_left' (length_hexDigits ..)]
  rw [toList_blobRemoteKey, hshard, String.toList_append, shardPrefix, String.toList_append,
    String.toList_append, toList_formatHex, toList_formatHex]
  simp only [List.append_assoc]

theorem shardPrefix_of_startsWith {n shard : Nat} (hn : n < 2 ^ 128) (hs : shard < 256)
    (h : startsWith (blobRemoteKey (formatHex 32 n)) (shardPrefix shard) = true) :
    shard = n / 16 ^ 30 := by
  obtain ⟨rest, hrest⟩ := List.isPrefixOf_iff_prefix.mp h
  rw [blobRemoteKey_formatHex, String.toList_append, shardPrefix, shardPrefix] at hrest
  simp only [String.toList_append, List.append_assoc, List.append_right_inj,
    toList_formatHex] at hrest
  have hdigits := (List.append_inj hrest
    ((length_hexDigits 2 shard).trans (length_hexDigits 2 (n / 16 ^ 30)).symm)).1
  refine formatHex_inj (w := 2) hs ?_ (congrArg String.ofList hdigits)
  omega

/-- A hash the writers use is, in its key, found by `gc-all`: under one shard,
and as unreferenced exactly if no manifest has it. -/
theorem keys_agree {json : Json} {v : Value} {h : String} {hashes : List String}
    (hv : parseHashOfAllFilesHex json v = .ok (some h))
    (hhashes : ∀ r ∈ hashes, ∃ u, parseHashOfAllFilesHex json u = .ok (some r)) :
    (∃! shard, shard < 256 ∧ startsWith (blobRemoteKey h) (shardPrefix shard) = true) ∧
      parseUnreferencedBlob (blobRemoteKey h) (hashes.filterMap fromHex) =
        (if h ∈ hashes then none else some h) ∧
      ∀ k, parseUnreferencedBlob (blobRemoteKey h) (hashes.filterMap fromHex) = some k →
        blobRemoteKey k = blobRemoteKey h := by
  obtain ⟨n, hn, rfl⟩ := exists_of_parseHash hv
  obtain ⟨b, hb, -⟩ := fromHex_of_isHex (isHex_formatHex n)
  -- its bytes are referenced exactly if it is
  have hmem : b ∈ hashes.filterMap fromHex ↔ formatHex 32 n ∈ hashes := by
    rw [List.mem_filterMap]
    constructor
    · rintro ⟨r, hr, hrb⟩
      obtain ⟨u, hu⟩ := hhashes r hr
      obtain ⟨m, hm, rfl⟩ := exists_of_parseHash hu
      rw [fromHex_inj hn hm (hb.trans hrb.symm)]
      exact hr
    · intro hr
      exact ⟨_, hr, hb⟩
  have hparse : parseUnreferencedBlob (blobRemoteKey (formatHex 32 n)) (hashes.filterMap fromHex) =
      if formatHex 32 n ∈ hashes then none else some (formatHex 32 n) := by
    rw [parseUnreferencedBlob_key (isHex_formatHex n), hb, Option.bind_some]
    simp only [hmem]
  refine ⟨⟨n / 16 ^ 30, ⟨by omega, ?_⟩, ?_⟩, hparse, ?_⟩
  · rw [blobRemoteKey_formatHex]
    exact startsWith_append ..
  · rintro shard ⟨hs, hstarts⟩
    exact shardPrefix_of_startsWith hn hs hstarts
  · intro k hk
    rw [hparse] at hk
    split at hk
    · cases hk
    · rw [Option.some.inj hk]

/-- A hash in decimal, and one in hex that a manifest has. -/
theorem keys_agree_decimal :
    parseUnreferencedBlob (blobRemoteKey (formatHex 32 12345678901234567890))
      (["ffffffffffffffffffffffffffffffff"].filterMap fromHex) =
        some (formatHex 32 12345678901234567890) := by
  have hv : parseHashOfAllFilesHex blankJson (.string "12345678901234567890") =
      .ok (some (formatHex 32 12345678901234567890)) := by decide +kernel
  have hhashes : ∀ r ∈ ["ffffffffffffffffffffffffffffffff"], ∃ u,
      parseHashOfAllFilesHex blankJson u = .ok (some r) := by
    intro r hr
    obtain rfl := List.mem_singleton.mp hr
    exact ⟨.string "FFFFFFFFFFFFFFFFffffffffffffffff", by decide +kernel⟩
  have hagree := (keys_agree hv hhashes).2.1
  rw [hagree]
  exact if_neg (by decide +kernel)

end Chbk
