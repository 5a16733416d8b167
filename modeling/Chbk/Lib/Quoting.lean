import Mathlib.Data.List.Basic

/-!
# Quoted tokens

The lexer of quoted tokens with two ways to escape: a quote is doubled, or it
stands behind a backslash, as other characters may. The other side is a writer
that doubles the quotes and leaves the backslashes alone.

* `Quotes.lexBody` — the token behind its opening quote: its value, and what
  stands behind its closing quote.
* `Quotes.Harmless` — every backslash stands before a character it does not
  escape.
* `Quotes.lexBody_doubled_iff` — what the writer puts between two quotes is read
  back exactly if it is harmless.
-/

namespace Lib

/-- A quote, a backslash, and what else stands for something behind a
backslash. -/
structure Quotes (α : Type) where
  quote : α
  backslash : α
  apart : backslash ≠ quote
  control : α → Option α

namespace Quotes

variable {α : Type}

/-- One more character in front of the value. -/
def push (c : α) (x : List α × List α) : List α × List α := (c :: x.1, x.2)

theorem map_push_eq_some {c : α} {x : Option (List α × List α)} {v rest : List α}
    (h : x.map (push c) = some (v, rest)) : ∃ v', x = some (v', rest) ∧ v = c :: v' := by
  obtain ⟨⟨v', rest'⟩, hx, heq⟩ := Option.map_eq_some_iff.mp h
  obtain ⟨rfl, rfl⟩ := Prod.mk.inj heq
  exact ⟨v', hx, rfl⟩

variable [DecidableEq α] (q : Quotes α)

/-- What a character stands for behind a backslash; `none` keeps both. -/
def escape (c : α) : Option α :=
  if c = q.quote ∨ c = q.backslash then some c else q.control c

/-- A token behind its opening quote. -/
def lexBody : List α → Option (List α × List α)
  | [] => none
  | [c] => if c = q.quote then some ([], []) else none
  | c :: d :: cs =>
    if c = q.quote then
      if d = q.quote then (lexBody cs).map (push q.quote) else some ([], d :: cs)
    else if c = q.backslash then
      match q.escape d with
      | some e => (lexBody cs).map (push e)
      | none => (lexBody cs).map (push c ∘ push d)
    else (lexBody (d :: cs)).map (push c)

/-- A token at the start of a text: its value, and the text behind it. -/
def lexQuoted : List α → Option (List α × List α)
  | [] => none
  | c :: cs => if c = q.quote then q.lexBody cs else none

/-- The writer: quotes are doubled. -/
def doubled (s : List α) : List α := s.flatMap fun c => if c = q.quote then [c, c] else [c]

-- ---------------------------------------------------------------------------
-- One step of the lexer
-- ---------------------------------------------------------------------------

theorem lexBody_end {after : List α} (h : after.head? ≠ some q.quote) :
    q.lexBody (q.quote :: after) = some ([], after) := by
  cases after with
  | nil => simp [lexBody]
  | cons d cs =>
    have hd : d ≠ q.quote := fun heq => h (congrArg some heq)
    simp [lexBody, hd]

theorem lexBody_twice (cs : List α) :
    q.lexBody (q.quote :: q.quote :: cs) = (q.lexBody cs).map (push q.quote) := by
  simp [lexBody]

theorem lexBody_plain {c : α} (hq : c ≠ q.quote) (hb : c ≠ q.backslash) (cs : List α) :
    q.lexBody (c :: cs) = (q.lexBody cs).map (push c) := by
  cases cs with
  | nil => simp [lexBody, hq]
  | cons d cs => simp [lexBody, hq, hb]

theorem lexBody_escape {d e : α} (h : q.escape d = some e) (cs : List α) :
    q.lexBody (q.backslash :: d :: cs) = (q.lexBody cs).map (push e) := by
  simp [lexBody, q.apart, h]

theorem lexBody_keep {d : α} (h : q.escape d = none) (cs : List α) :
    q.lexBody (q.backslash :: d :: cs) =
      (q.lexBody cs).map (push q.backslash ∘ push d) := by
  simp [lexBody, q.apart, h]

theorem escape_quote : q.escape q.quote = some q.quote := by simp [escape]

theorem escape_backslash : q.escape q.backslash = some q.backslash := by simp [escape]

/-- A character that is not escaped is neither of the two. -/
theorem ne_of_escape_eq_none {d : α} (h : q.escape d = none) : d ≠ q.quote ∧ d ≠ q.backslash := by
  constructor
  · rintro rfl
    rw [escape_quote] at h
    cases h
  · rintro rfl
    rw [escape_backslash] at h
    cases h

/-- A token takes a quote at least. -/
theorem length_lexBody : ∀ {cs v rest : List α}, q.lexBody cs = some (v, rest) →
    rest.length < cs.length
  | [], v, rest, h => by simp [lexBody] at h
  | [c], v, rest, h => by
    simp only [lexBody] at h
    split_ifs at h
    obtain ⟨-, rfl⟩ := Prod.mk.inj (Option.some.inj h)
    exact Nat.one_pos
  | c :: d :: cs, v, rest, h => by
    simp only [List.length_cons]
    simp only [lexBody] at h
    split_ifs at h
    · obtain ⟨v', hx, -⟩ := map_push_eq_some h
      have hlt := length_lexBody hx
      omega
    · obtain ⟨-, rfl⟩ := Prod.mk.inj (Option.some.inj h)
      simp
    · split at h
      · obtain ⟨v', hx, -⟩ := map_push_eq_some h
        have hlt := length_lexBody hx
        omega
      · rw [← Option.map_map] at h
        obtain ⟨v', hx, -⟩ := map_push_eq_some h
        obtain ⟨v'', hx', -⟩ := map_push_eq_some hx
        have hlt := length_lexBody hx'
        omega
    · obtain ⟨v', hx, -⟩ := map_push_eq_some h
      have hlt := length_lexBody hx
      simp only [List.length_cons] at hlt
      omega

-- ---------------------------------------------------------------------------
-- What was doubled
-- ---------------------------------------------------------------------------

@[simp] theorem doubled_nil : q.doubled [] = [] := rfl

theorem doubled_quote (s : List α) :
    q.doubled (q.quote :: s) = q.quote :: q.quote :: q.doubled s := by
  simp [doubled]

theorem doubled_cons {c : α} (h : c ≠ q.quote) (s : List α) :
    q.doubled (c :: s) = c :: q.doubled s := by
  simp [doubled, h]

/-- Every backslash stands before a character it does not escape. -/
def Harmless (s : List α) : Prop :=
  ∀ pre post, s = pre ++ q.backslash :: post → ∃ d rest, post = d :: rest ∧ q.escape d = none

theorem harmless_nil : q.Harmless [] := by
  intro pre post h
  cases pre <;> cases h

theorem harmless_cons {c : α} {s : List α} : q.Harmless (c :: s) ↔
    (c = q.backslash → ∃ d rest, s = d :: rest ∧ q.escape d = none) ∧ q.Harmless s := by
  constructor
  · intro h
    constructor
    · rintro rfl
      exact h [] s rfl
    · intro pre post hs
      exact h (c :: pre) post (by rw [hs]; rfl)
  · rintro ⟨hc, hs⟩ pre post heq
    cases pre with
    | nil =>
      obtain ⟨rfl, rfl⟩ := List.cons.inj heq
      exact hc rfl
    | cons a pre =>
      obtain ⟨-, heq⟩ := List.cons.inj heq
      exact hs pre post heq

instance decidableKept : ∀ s : List α,
    Decidable (∃ d rest, s = d :: rest ∧ q.escape d = none)
  | [] => isFalse fun ⟨_, _, h, _⟩ => nomatch h
  | d :: rest => decidable_of_iff (q.escape d = none)
      ⟨fun h => ⟨d, rest, rfl, h⟩, fun ⟨_, _, heq, h⟩ => (List.cons.inj heq).1 ▸ h⟩

instance decidableHarmless : ∀ s : List α, Decidable (q.Harmless s)
  | [] => isTrue q.harmless_nil
  | _ :: s =>
    have := decidableHarmless s
    decidable_of_iff _ q.harmless_cons.symm

variable {q} {after : List α}

/-- What is harmless is read back. -/
theorem Harmless.lexBody (hafter : after.head? ≠ some q.quote) : ∀ {s : List α}, q.Harmless s →
    q.lexBody (q.doubled s ++ q.quote :: after) = some (s, after)
  | [], _ => q.lexBody_end hafter
  | [c], h => by
    obtain ⟨hc, -⟩ := q.harmless_cons.mp h
    have hb : c ≠ q.backslash := by
      intro heq
      obtain ⟨d, rest, hnil, -⟩ := hc heq
      cases hnil
    by_cases hq : c = q.quote
    · rw [hq, doubled_quote]
      show q.lexBody (q.quote :: q.quote :: (q.quote :: after)) = _
      rw [lexBody_twice, lexBody_end q hafter]
      rfl
    · rw [doubled_cons q hq]
      show q.lexBody (c :: (q.quote :: after)) = _
      rw [lexBody_plain q hq hb, lexBody_end q hafter]
      rfl
  | c :: d :: s, h => by
    obtain ⟨hc, hds⟩ := q.harmless_cons.mp h
    by_cases hb : c = q.backslash
    · -- the pair is kept as it is
      obtain ⟨d', rest, heq, hd⟩ := hc hb
      obtain ⟨rfl, rfl⟩ := List.cons.inj heq
      obtain ⟨hdq, -⟩ := q.ne_of_escape_eq_none hd
      have ih := Harmless.lexBody hafter (q.harmless_cons.mp hds).2
      rw [hb, doubled_cons q q.apart, doubled_cons q hdq]
      show q.lexBody (q.backslash :: d :: (q.doubled s ++ q.quote :: after)) = _
      rw [lexBody_keep q hd, ih]
      rfl
    · have ih := Harmless.lexBody hafter hds
      by_cases hq : c = q.quote
      · rw [hq, doubled_quote]
        show q.lexBody (q.quote :: q.quote :: (q.doubled (d :: s) ++ q.quote :: after)) = _
        rw [lexBody_twice, ih]
        rfl
      · rw [doubled_cons q hq]
        show q.lexBody (c :: (q.doubled (d :: s) ++ q.quote :: after)) = _
        rw [lexBody_plain q hq hb, ih]
        rfl

/-- With one quote too many in front the token does not end where it should. -/
theorem rest_ne_of_quote : ∀ {s v rest : List α},
    q.lexBody (q.quote :: (q.doubled s ++ q.quote :: after)) = some (v, rest) → rest ≠ after
  | [], v, rest, h => by
    -- the closing quote is the second of two
    have htwice : q.lexBody (q.quote :: q.quote :: after) = some (v, rest) := h
    rw [lexBody_twice] at htwice
    obtain ⟨v', hx, -⟩ := map_push_eq_some htwice
    have hlen := q.length_lexBody hx
    rintro rfl
    exact Nat.lt_irrefl _ hlen
  | c :: s, v, rest, h => by
    by_cases hq : c = q.quote
    · rw [hq, doubled_quote] at h
      have htwice : q.lexBody (q.quote :: q.quote ::
          (q.quote :: (q.doubled s ++ q.quote :: after))) = some (v, rest) := h
      rw [lexBody_twice] at htwice
      obtain ⟨v', hx, -⟩ := map_push_eq_some htwice
      exact rest_ne_of_quote hx
    · -- it ends here, too early
      rw [doubled_cons q hq] at h
      have hhead : (c :: (q.doubled s ++ q.quote :: after)).head? ≠ some q.quote :=
        fun hhead => hq (Option.some.inj hhead)
      obtain ⟨-, rfl⟩ := Prod.mk.inj (Option.some.inj ((q.lexBody_end hhead).symm.trans h))
      intro hrest
      have hlen := congrArg List.length hrest
      simp only [List.length_cons, List.length_append] at hlen
      omega

/-- A token that ends where it should is not longer than what was written, and
shorter if that was not harmless. -/
theorem length_value (hafter : after.head? ≠ some q.quote) : ∀ {s v : List α},
    q.lexBody (q.doubled s ++ q.quote :: after) = some (v, after) →
    v.length ≤ s.length ∧ (v.length = s.length → q.Harmless s)
  | [], v, h => by
    obtain ⟨rfl, -⟩ := Prod.mk.inj (Option.some.inj ((q.lexBody_end hafter).symm.trans h))
    exact ⟨Nat.le_refl _, fun _ => q.harmless_nil⟩
  | c :: s, v, h => by
    by_cases hq : c = q.quote
    · rw [hq, doubled_quote] at h
      have htwice : q.lexBody (q.quote :: q.quote :: (q.doubled s ++ q.quote :: after)) =
          some (v, after) := h
      rw [lexBody_twice] at htwice
      obtain ⟨v', hx, rfl⟩ := map_push_eq_some htwice
      obtain ⟨hle, hall⟩ := length_value hafter hx
      refine ⟨Nat.succ_le_succ hle, fun heq => q.harmless_cons.mpr ⟨?_, hall (Nat.succ.inj heq)⟩⟩
      intro hb
      exact absurd (hb.symm.trans hq) q.apart
    rw [doubled_cons q hq] at h
    by_cases hb : c = q.backslash
    swap
    · have hplain : q.lexBody (c :: (q.doubled s ++ q.quote :: after)) = some (v, after) := h
      rw [lexBody_plain q hq hb] at hplain
      obtain ⟨v', hx, rfl⟩ := map_push_eq_some hplain
      obtain ⟨hle, hall⟩ := length_value hafter hx
      exact ⟨Nat.succ_le_succ hle, fun heq => q.harmless_cons.mpr
        ⟨fun heq' => absurd heq' hb, hall (Nat.succ.inj heq)⟩⟩
    subst hb
    cases s with
    | nil =>
      -- the closing quote is escaped
      have hescape : q.lexBody (q.backslash :: q.quote :: after) = some (v, after) := h
      rw [lexBody_escape q q.escape_quote] at hescape
      obtain ⟨v', hx, -⟩ := map_push_eq_some hescape
      exact absurd (q.length_lexBody hx) (Nat.lt_irrefl _)
    | cons d s =>
      by_cases hdq : d = q.quote
      · -- the first of the two quotes is escaped
        rw [hdq, doubled_quote] at h
        have hescape : q.lexBody (q.backslash :: q.quote ::
            (q.quote :: (q.doubled s ++ q.quote :: after))) = some (v, after) := h
        rw [lexBody_escape q q.escape_quote] at hescape
        obtain ⟨v', hx, -⟩ := map_push_eq_some hescape
        exact absurd rfl (rest_ne_of_quote hx)
      rw [doubled_cons q hdq] at h
      have hpair : q.lexBody (q.backslash :: d :: (q.doubled s ++ q.quote :: after)) =
          some (v, after) := h
      cases hd : q.escape d with
      | some e =>
        rw [lexBody_escape q hd] at hpair
        obtain ⟨v', hx, rfl⟩ := map_push_eq_some hpair
        obtain ⟨hle, -⟩ := length_value hafter hx
        simp only [List.length_cons]
        exact ⟨by omega, fun heq => by omega⟩
      | none =>
        rw [lexBody_keep q hd, ← Option.map_map] at hpair
        obtain ⟨v', hx, rfl⟩ := map_push_eq_some hpair
        obtain ⟨v'', hx', rfl⟩ := map_push_eq_some hx
        obtain ⟨hle, hall⟩ := length_value hafter hx'
        simp only [List.length_cons]
        refine ⟨by omega, fun heq => q.harmless_cons.mpr ⟨fun _ => ⟨d, s, rfl, hd⟩, ?_⟩⟩
        exact q.harmless_cons.mpr ⟨fun hb => absurd hb (q.ne_of_escape_eq_none hd).2,
          hall (by omega)⟩

/-- What the writer puts between two quotes is read back, as a token that ends at
the second one, exactly if it is harmless. -/
theorem lexBody_doubled_iff (hafter : after.head? ≠ some q.quote) {s : List α} :
    q.lexBody (q.doubled s ++ q.quote :: after) = some (s, after) ↔ q.Harmless s :=
  ⟨fun h => (length_value hafter h).2 rfl, Harmless.lexBody hafter⟩

end Quotes

end Lib
