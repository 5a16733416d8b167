import Mathlib.Tactic.Ring
import Mathlib.Data.List.Basic

/-!
# Byte streams

Little-endian numbers, CRC-32, and readers that hand out a stream in pieces.

* `leNat_leBytes` — a number that fits its width survives the encoding.
* `crcUpdate_append` — feeding a hasher piecewise is feeding it once.
* `Reader.readExact_serves`, `Reader.readExact_short` — on a reader that does
  not fail, `readExact` depends on the bytes alone, never on how the stream is
  cut into short reads.
* `Reader.healed` — the reader without its failing reads; what comes to an end
  with them does so without them.
-/

namespace Lib

abbrev Bytes := List UInt8

/-! ## Little-endian numbers -/

/-- The `w` low bytes of `n`, least significant first. -/
def leBytes : Nat → Nat → Bytes
  | 0, _ => []
  | w + 1, n => UInt8.ofNat n :: leBytes w (n / 256)

/-- The number a little-endian byte string stands for. -/
def leNat : Bytes → Nat
  | [] => 0
  | b :: bs => b.toNat + 256 * leNat bs

@[simp] theorem length_leBytes (w n : Nat) : (leBytes w n).length = w := by
  induction w generalizing n with
  | zero => rfl
  | succ w ih => simp [leBytes, ih]

theorem leNat_leBytes {w n : Nat} (h : n < 256 ^ w) : leNat (leBytes w n) = n := by
  induction w generalizing n with
  | zero =>
    have : n = 0 := by simpa using h
    simp [leBytes, leNat, this]
  | succ w ih =>
    have hq : n / 256 < 256 ^ w := by
      rw [Nat.div_lt_iff_lt_mul (by decide)]
      calc n < 256 ^ (w + 1) := h
        _ = 256 ^ w * 256 := by ring
    simp only [leBytes, leNat, ih hq, UInt8.toNat_ofNat']
    omega

theorem leNat_lt (bs : Bytes) : leNat bs < 256 ^ bs.length := by
  induction bs with
  | nil => simp [leNat]
  | cons b bs ih =>
    have hb := b.toNat_lt
    simp only [leNat, List.length_cons, pow_succ]
    omega

/-! ## CRC-32 (reflected polynomial `0xEDB88320`) -/

/-- One bit of the CRC register. -/
def crcBit (c : UInt32) : UInt32 :=
  if c &&& 1 = 1 then (c >>> 1) ^^^ 0xEDB88320 else c >>> 1

def crcByte (c : UInt32) (b : UInt8) : UInt32 :=
  (List.range 8).foldl (fun c _ => crcBit c) (c ^^^ b.toUInt32)

/-- `Hasher::update`, from a register value. -/
def crcUpdate (c : UInt32) (bs : Bytes) : UInt32 := bs.foldl crcByte c

/-- The register of a new hasher. -/
def crcInit : UInt32 := 0xFFFFFFFF

/-- `Hasher::finalize`. -/
def crcFinalize (c : UInt32) : UInt32 := c ^^^ 0xFFFFFFFF

def crc32 (bs : Bytes) : UInt32 := crcFinalize (crcUpdate crcInit bs)

theorem crcUpdate_append (c : UInt32) (as bs : Bytes) :
    crcUpdate c (as ++ bs) = crcUpdate (crcUpdate c as) bs :=
  List.foldl_append ..

-- the check value of the CRC-32 catalogue: the digits "123456789"
example : crc32 [0x31, 0x32, 0x33, 0x34, 0x35, 0x36, 0x37, 0x38, 0x39] = 0xCBF43926 := by
  decide +kernel

/-! ## Readers -/

inductive IoError where
  | unexpectedEof
  | other
  deriving DecidableEq, Repr

/-- How one coming `read` behaves: it hands out at most so many bytes, or it
fails. -/
inductive Cut where
  | short (n : Nat)
  | fail
  deriving DecidableEq, Repr

/-- A source of bytes that may hand out less than it was asked for. Once the
cuts are used up every `read` is served in full. -/
structure Reader where
  rest : Bytes
  cuts : List Cut := []
  deriving DecidableEq, Repr

namespace Reader

/-- One `read` into a buffer of `k` bytes. It hands out nothing at the end of
the stream only. -/
def read (r : Reader) (k : Nat) : Except IoError Bytes × Reader :=
  match r.cuts with
  | [] => (.ok (r.rest.take k), { r with rest := r.rest.drop k })
  | .short n :: cuts => (.ok (r.rest.take (min k (max 1 n))), ⟨r.rest.drop (min k (max 1 n)), cuts⟩)
  | .fail :: cuts => (.error .other, { r with cuts := cuts })

/-- The loop of `read_exact`: `need` bytes are still missing. Each round hands
out a byte or ends the loop, so `need` rounds are enough. -/
def readExactLoop : Nat → Nat → Reader → Except IoError Bytes × Reader
  | 0, _, r => (.ok [], r)
  | fuel + 1, need, r =>
    if need = 0 then (.ok [], r)
    else
      match r.read need with
      | (.error e, r') => (.error e, r')
      | (.ok [], r') => (.error .unexpectedEof, r')
      | (.ok (b :: bs), r') =>
        match readExactLoop fuel (need - (bs.length + 1)) r' with
        | (.ok rest, r'') => (.ok (b :: bs ++ rest), r'')
        | (.error e, r'') => (.error e, r'')

/-- `read_exact` into a buffer of `n` bytes. -/
def readExact (r : Reader) (n : Nat) : Except IoError Bytes × Reader :=
  readExactLoop n n r

/-- The reader has exactly `bs` left to hand out, and none of its reads fails. -/
structure Serves (r : Reader) (bs : Bytes) : Prop where
  rest : r.rest = bs
  healthy : Cut.fail ∉ r.cuts

/-- A `read` that does not fail hands out the next bytes and leaves the rest. -/
theorem read_ok {r r' : Reader} {k : Nat} {bs : Bytes} (h : r.read k = (.ok bs, r')) :
    bs.length ≤ k ∧ r.rest = bs ++ r'.rest := by
  obtain ⟨rest, cuts⟩ := r
  match cuts with
  | [] =>
    obtain ⟨rfl, rfl⟩ := Prod.mk.inj h |>.imp Except.ok.inj id
    exact ⟨List.length_take_le .., (List.take_append_drop ..).symm⟩
  | .short n :: cuts =>
    obtain ⟨rfl, rfl⟩ := Prod.mk.inj h |>.imp Except.ok.inj id
    refine ⟨?_, (List.take_append_drop ..).symm⟩
    exact (List.length_take_le ..).trans (min_le_left ..)
  | .fail :: cuts => simp [read] at h

/-- A `read` hands out nothing at the end of the stream only. -/
theorem read_nil {r r' : Reader} {k : Nat} (hk : 0 < k) (h : r.read k = (.ok [], r')) :
    r.rest = [] := by
  obtain ⟨rest, cuts⟩ := r
  match cuts with
  | [] =>
    have hb := Except.ok.inj (Prod.mk.inj h).1
    simp only [List.take_eq_nil_iff] at hb
    exact hb.resolve_left (by omega)
  | .short n :: cuts =>
    have hb := Except.ok.inj (Prod.mk.inj h).1
    simp only [List.take_eq_nil_iff] at hb
    exact hb.resolve_left (by omega)
  | .fail :: cuts => simp [read] at h

/-- A `read` on a reader that serves `bs` hands out a first piece of it, empty
only when `bs` is. -/
theorem read_serves {r : Reader} {bs : Bytes} (h : r.Serves bs) {k : Nat} (hk : 0 < k) :
    ∃ n r', r.read k = (.ok (bs.take n), r') ∧ r'.Serves (bs.drop n) ∧ 0 < n ∧ n ≤ k := by
  obtain ⟨rest, cuts⟩ := r
  obtain ⟨rfl, hc⟩ := h
  match cuts with
  | [] => exact ⟨k, _, rfl, ⟨rfl, hc⟩, hk, le_refl k⟩
  | .short n :: cuts =>
    refine ⟨min k (max 1 n), _, rfl, ⟨rfl, fun hm => hc (List.mem_cons_of_mem _ hm)⟩, ?_, ?_⟩
    · omega
    · omega
  | .fail :: cuts => exact absurd (List.mem_cons_self ..) hc

theorem readExactLoop_serves {n : Nat} : ∀ {fuel : Nat} {as bs : Bytes} {r : Reader},
    as.length = n → n ≤ fuel → r.Serves (as ++ bs) →
    ∃ r', readExactLoop fuel n r = (.ok as, r') ∧ r'.Serves bs := by
  induction n using Nat.strong_induction_on with
  | _ n ih =>
    intro fuel as bs r hlen hfuel hr
    match fuel, n with
    | 0, 0 =>
      obtain rfl := List.length_eq_zero_iff.mp hlen
      exact ⟨r, rfl, hr⟩
    | fuel + 1, 0 =>
      obtain rfl := List.length_eq_zero_iff.mp hlen
      exact ⟨r, rfl, hr⟩
    | fuel + 1, n + 1 =>
      obtain ⟨k, r', hread, hr', hk, hkn⟩ := read_serves hr (Nat.succ_pos n)
      -- the piece handed out lies within the bytes asked for
      have hpiece : (as ++ bs).take k = as.take k := List.take_append_of_le_length (by omega)
      have hrest : (as ++ bs).drop k = as.drop k ++ bs := List.drop_append_of_le_length (by omega)
      obtain ⟨b, tl, hbt⟩ : ∃ b tl, as.take k = b :: tl := by
        cases has : as.take k with
        | nil =>
          have := congrArg List.length has
          simp only [List.length_take, List.length_nil] at this
          omega
        | cons b tl => exact ⟨b, tl, rfl⟩
      have htl : tl.length + 1 = k := by
        have := congrArg List.length hbt
        simp only [List.length_take, List.length_cons] at this
        omega
      obtain ⟨r'', hloop, hr''⟩ := @ih (n + 1 - k) (by omega) fuel (as.drop k) bs r'
        (by simp [hlen]) (by omega) (hrest ▸ hr')
      refine ⟨r'', ?_, hr''⟩
      rw [readExactLoop, if_neg (Nat.succ_ne_zero n), hread, hpiece, hbt]
      simp only [htl, hloop]
      rw [← hbt, List.take_append_drop]

/-- `read_exact` hands out the bytes asked for when the stream has them. -/
theorem readExact_serves {r : Reader} {as bs : Bytes} (h : r.Serves (as ++ bs)) {n : Nat}
    (hn : as.length = n) : ∃ r', r.readExact n = (.ok as, r') ∧ r'.Serves bs :=
  readExactLoop_serves hn le_rfl h

theorem readExactLoop_short {n : Nat} : ∀ {fuel : Nat} {as : Bytes} {r : Reader},
    as.length < n → n ≤ fuel → r.Serves as →
    ∃ r', readExactLoop fuel n r = (.error .unexpectedEof, r') ∧ r'.Serves [] := by
  induction n using Nat.strong_induction_on with
  | _ n ih =>
    intro fuel as r hlen hfuel hr
    match fuel, n with
    | _, 0 => exact absurd hlen (Nat.not_lt_zero _)
    | 0, n + 1 => exact absurd hfuel (by omega)
    | fuel + 1, n + 1 =>
      obtain ⟨k, r', hread, hr', hk, hkn⟩ := read_serves hr (Nat.succ_pos n)
      cases has : as.take k with
      | nil =>
        have hnil : as = [] := by
          have := congrArg List.length has
          simp only [List.length_take, List.length_nil] at this
          exact List.length_eq_zero_iff.mp (by omega)
        refine ⟨r', ?_, by simpa [hnil] using hr'⟩
        rw [readExactLoop, if_neg (Nat.succ_ne_zero n), hread, has]
      | cons b tl =>
        have htl : tl.length + 1 = min k as.length := by
          have := congrArg List.length has
          simpa only [List.length_take, List.length_cons] using this.symm
        obtain ⟨r'', hloop, hr''⟩ := @ih (n + 1 - (tl.length + 1)) (by omega) fuel
          (as.drop k) r' (by simp only [List.length_drop]; omega) (by omega) hr'
        refine ⟨r'', ?_, hr''⟩
        rw [readExactLoop, if_neg (Nat.succ_ne_zero n), hread, has]
        simp only [hloop]

/-- `read_exact` fails with an early end of stream when the bytes run out, and
it has then read all of them. -/
theorem readExact_short {r : Reader} {as : Bytes} (h : r.Serves as) {n : Nat}
    (hn : as.length < n) :
    ∃ r', r.readExact n = (.error .unexpectedEof, r') ∧ r'.Serves [] :=
  readExactLoop_short hn le_rfl h

/-! ### Reads that do not fail -/

/-- The reader without its failing reads. -/
def healed (r : Reader) : Reader := { r with cuts := r.cuts.filter (· ≠ .fail) }

theorem serves_healed (r : Reader) : r.healed.Serves r.rest where
  rest := rfl
  healthy h := by simp [healed] at h

theorem read_healed {r r' : Reader} {k : Nat} {bs : Bytes} (h : r.read k = (.ok bs, r')) :
    r.healed.read k = (.ok bs, r'.healed) := by
  obtain ⟨rest, cuts⟩ := r
  match cuts with
  | [] =>
    obtain ⟨hbs, rfl⟩ := Prod.mk.inj h
    rw [← hbs]
    rfl
  | .short n :: cuts =>
    obtain ⟨hbs, rfl⟩ := Prod.mk.inj h
    rw [← hbs]
    rfl
  | .fail :: cuts => simp [read] at h

/-- A read that comes to its end does so without the failing reads, too. -/
theorem readExactLoop_healed : ∀ {fuel need : Nat} {r r' : Reader} {x : Except IoError Bytes},
    readExactLoop fuel need r = (x, r') → x ≠ .error .other →
    readExactLoop fuel need r.healed = (x, r'.healed)
  | 0, _, r, r', x, h, _ => by
    obtain ⟨rfl, rfl⟩ := Prod.mk.inj h
    rfl
  | fuel + 1, need, r, r', x, h, hx => by
    unfold readExactLoop at h ⊢
    by_cases hneed : need = 0
    · rw [if_pos hneed] at h ⊢
      obtain ⟨rfl, rfl⟩ := Prod.mk.inj h
      rfl
    rw [if_neg hneed] at h ⊢
    cases hread : r.read need with
    | mk y r₁ =>
      rw [hread] at h
      match y with
      | .error e =>
        -- a failing read is the `other` error
        have he : e = .other := by
          unfold read at hread
          split at hread
          · cases (Prod.mk.inj hread).1
          · cases (Prod.mk.inj hread).1
          · exact (Except.error.inj (Prod.mk.inj hread).1).symm
        obtain ⟨rfl, -⟩ := Prod.mk.inj h
        exact absurd (congrArg Except.error he) hx
      | .ok [] =>
        obtain ⟨rfl, rfl⟩ := Prod.mk.inj h
        rw [read_healed hread]
      | .ok (b :: bs) =>
        rw [read_healed hread]
        cases hloop : readExactLoop fuel (need - (bs.length + 1)) r₁ with
        | mk z r₂ =>
          simp only [hloop] at h
          cases z with
          | ok rest =>
            obtain ⟨rfl, rfl⟩ := Prod.mk.inj h
            simp only [readExactLoop_healed hloop (by simp)]
          | error e =>
            obtain ⟨rfl, rfl⟩ := Prod.mk.inj h
            simp only [readExactLoop_healed hloop hx]

theorem readExact_healed {r r' : Reader} {n : Nat} {x : Except IoError Bytes}
    (h : r.readExact n = (x, r')) (hx : x ≠ .error .other) :
    r.healed.readExact n = (x, r'.healed) :=
  readExactLoop_healed h hx

/-- A `read_exact` that does not fail hands out the next `n` bytes. -/
theorem readExact_ok {r r' : Reader} {n : Nat} {bs : Bytes}
    (h : r.readExact n = (.ok bs, r')) : bs.length = n ∧ r.rest = bs ++ r'.rest := by
  have hserves := serves_healed r
  have hhealed := readExact_healed h (by rintro ⟨⟩)
  by_cases hlen : r.rest.length < n
  · obtain ⟨r₁, hshort, -⟩ := readExact_short hserves hlen
    rw [hshort] at hhealed
    cases hhealed
  · have htake : (r.rest.take n).length = n := by
      rw [List.length_take]
      omega
    rw [← List.take_append_drop n r.rest] at hserves
    obtain ⟨r₁, hfull, hr₁⟩ := readExact_serves hserves htake
    rw [hfull] at hhealed
    obtain ⟨hbs, rfl⟩ := Prod.mk.inj hhealed
    obtain rfl := Except.ok.inj hbs
    have hrest : r'.rest = r.rest.drop n := hr₁.rest
    refine ⟨htake, ?_⟩
    rw [hrest, List.take_append_drop]

/-- A `read_exact` that comes to the end had fewer bytes left. -/
theorem readExact_eof {r r' : Reader} {n : Nat}
    (h : r.readExact n = (.error .unexpectedEof, r')) : r.rest.length < n := by
  by_contra hlen
  have hhealed := readExact_healed h (by rintro ⟨⟩)
  have htake : (r.rest.take n).length = n := by
    rw [List.length_take]
    omega
  have hserves := serves_healed r
  rw [← List.take_append_drop n r.rest] at hserves
  obtain ⟨r₁, hfull, -⟩ := readExact_serves hserves htake
  rw [hfull] at hhealed
  cases hhealed

end Reader

end Lib
