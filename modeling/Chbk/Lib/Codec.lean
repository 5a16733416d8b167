import Mathlib
import Chbk.Lib.Bytes

/-!
# Writers and readers of byte streams

A writer is a state program over the bytes emitted so far; a reader is a state
program over a `Reader` and whatever else it changes on the way (`Input`).

* `Emits` — from any state, the writer ends well and has added exactly these
  bytes. `Emits.bind` glues two of them together.
* `Consumes` — the reader takes exactly these bytes off the stream, however the
  stream is cut into reads, and changes its environment by a given step; on a
  stream that ends inside them it fails. `Consumes.bind` glues two of them
  together, so a parser for a record is verified field by field, for the whole
  record and for all its truncations at once.
-/

namespace Lib

/-! ## State programs -/

section StateProgram

variable {ε σ α β : Type} {m : EStateM ε σ α} {f : α → EStateM ε σ β} {s s' : σ}

theorem bind_ok {a : α} (h : m s = .ok a s') : (m >>= f) s = f a s' := by
  simp only [bind, EStateM.bind, h]

theorem bind_error {e : ε} (h : m s = .error e s') : (m >>= f) s = .error e s' := by
  simp only [bind, EStateM.bind, h]

/-- A sequence ends well when both of its parts do. -/
theorem bind_eq_ok {b : β} :
    (m >>= f) s = .ok b s' ↔ ∃ a s₁, m s = .ok a s₁ ∧ f a s₁ = .ok b s' := by
  cases h : m s with
  | ok a s₁ => simp [bind_ok h]
  | error e s₁ => simp [bind_error h]

theorem pure_eq_ok {a a' : α} :
    (pure a : EStateM ε σ α) s = .ok a' s' ↔ a = a' ∧ s = s' := by
  simp [pure, EStateM.pure]

theorem throw_ne_ok {e : ε} {a : α} : (throw e : EStateM ε σ α) s ≠ .ok a s' := by
  simp [throw, throwThe, MonadExceptOf.throw, EStateM.throw]

end StateProgram

/-! ## Writers -/

section Writer

variable {ε α β : Type}

/-- From any state, `m` ends with `a` and has added exactly `bs`. -/
def Emits (m : EStateM ε Bytes α) (bs : Bytes) (a : α) : Prop := ∀ s, m s = .ok a (s ++ bs)

theorem Emits.pure (a : α) : Emits (pure a : EStateM ε Bytes α) [] a := fun s => by
  simp [Pure.pure, EStateM.pure]

theorem Emits.bind {m : EStateM ε Bytes α} {f : α → EStateM ε Bytes β} {as bs : Bytes} {a : α}
    {b : β} (hm : Emits m as a) (hf : Emits (f a) bs b) : Emits (m >>= f) (as ++ bs) b := by
  intro s
  rw [bind_ok (hm s), hf (s ++ as), List.append_assoc]

theorem Emits.andThen {m : EStateM ε Bytes α} {m' : EStateM ε Bytes β} {as bs : Bytes} {a : α}
    {b : β} (hm : Emits m as a) (hm' : Emits m' bs b) : Emits (m >>= fun _ => m') (as ++ bs) b := by
  intro s
  rw [bind_ok (hm s), hm' (s ++ as), List.append_assoc]

/-- A last write, with what is returned behind it. -/
theorem Emits.andReturn {m : EStateM ε Bytes α} {bs : Bytes} {a : α} (hm : Emits m bs a) (b : β) :
    Emits (m >>= fun _ => Pure.pure b) bs b := by
  intro s
  rw [bind_ok (hm s)]
  rfl

/-- A writer that ends from one state ends alike from all. -/
theorem Emits.eq_of_ok {m : EStateM ε Bytes α} {bs s s' : Bytes} {a a' : α} (hm : Emits m bs a)
    (h : m s = .ok a' s') : a' = a ∧ s' = s ++ bs := by
  rw [hm s] at h
  cases h
  exact ⟨rfl, rfl⟩

end Writer

/-! ## Readers -/

/-- What a reader works on: the stream, and the environment it changes. -/
structure Input (σ : Type) where
  reader : Reader
  env : σ

section Reader

variable {φ σ α β : Type}

/-- The reader fails, in a way counted as fair. -/
def FailsFair (fair : φ → Prop) (m : EStateM φ (Input σ) α) (i : Input σ) : Prop :=
  ∃ x i', m i = .error x i' ∧ fair x

theorem FailsFair.bind {fair : φ → Prop} {m : EStateM φ (Input σ) α} {i : Input σ}
    (h : FailsFair fair m i) (f : α → EStateM φ (Input σ) β) : FailsFair fair (m >>= f) i := by
  obtain ⟨x, i', hm, hx⟩ := h
  exact ⟨x, i', bind_error hm, hx⟩

theorem FailsFair.of_ok {fair : φ → Prop} {m : EStateM φ (Input σ) α}
    {f : α → EStateM φ (Input σ) β} {i i' : Input σ} {a : α} (hm : m i = .ok a i')
    (h : FailsFair fair (f a) i') : FailsFair fair (m >>= f) i := by
  rw [FailsFair, bind_ok hm]
  exact h

/-- `m` takes exactly `as` off the stream, returns `a` and changes the
environment by `step`; it fails where `step` has no outcome, and on a stream
that ends within `as`. -/
structure Consumes (fair : φ → Prop) (m : EStateM φ (Input σ) α) (as : Bytes)
    (step : σ → Option σ) (a : α) : Prop where
  full : ∀ {r : Reader} {bs : Bytes} {e e' : σ}, r.Serves (as ++ bs) → step e = some e' →
    ∃ r', m ⟨r, e⟩ = .ok a ⟨r', e'⟩ ∧ r'.Serves bs
  stops : ∀ {r : Reader} {bs : Bytes} {e : σ}, r.Serves (as ++ bs) → step e = none →
    FailsFair fair m ⟨r, e⟩
  cut : ∀ {r : Reader} {p : Bytes} {e : σ}, p <+: as → p ≠ as → r.Serves p →
    FailsFair fair m ⟨r, e⟩

/-- A prefix of `as ++ bs` that is not all of it ends within `as`, or goes on
with a part of `bs` that is not all of `bs`. -/
theorem prefix_append_cases {α : Type} {p as bs : List α} (hp : p <+: as ++ bs)
    (hne : p ≠ as ++ bs) : (p <+: as ∧ p ≠ as) ∨ ∃ q, p = as ++ q ∧ q <+: bs ∧ q ≠ bs := by
  rcases List.prefix_or_prefix_of_prefix hp (List.prefix_append as bs) with hin | ⟨q, rfl⟩
  · by_cases hpa : p = as
    · refine Or.inr ⟨[], by simp [hpa], List.nil_prefix, ?_⟩
      rintro rfl
      exact hne (by simp [hpa])
    · exact Or.inl ⟨hin, hpa⟩
  · refine Or.inr ⟨q, rfl, (List.prefix_append_right_inj as).mp hp, ?_⟩
    rintro rfl
    exact hne rfl

namespace Consumes

variable {fair : φ → Prop}

theorem bind {m : EStateM φ (Input σ) α} {f : α → EStateM φ (Input σ) β} {as bs : Bytes}
    {step step' : σ → Option σ} {a : α} {b : β} (hm : Consumes fair m as step a)
    (hf : Consumes fair (f a) bs step' b) :
    Consumes fair (m >>= f) (as ++ bs) (fun e => (step e).bind step') b where
  full := by
    intro r cs e e' hr hstep
    obtain ⟨e₁, h₁, h₂⟩ := Option.bind_eq_some_iff.mp hstep
    rw [List.append_assoc] at hr
    obtain ⟨r₁, hm₁, hr₁⟩ := hm.full hr h₁
    obtain ⟨r₂, hf₂, hr₂⟩ := hf.full hr₁ h₂
    exact ⟨r₂, (bind_ok hm₁).trans hf₂, hr₂⟩
  stops := by
    intro r cs e hr hstep
    rw [List.append_assoc] at hr
    cases h₁ : step e with
    | none => exact (hm.stops hr h₁).bind f
    | some e₁ =>
      obtain ⟨r₁, hm₁, hr₁⟩ := hm.full hr h₁
      exact .of_ok hm₁ (hf.stops hr₁ (by simpa [h₁] using hstep))
  cut := by
    intro r p e hp hne hr
    rcases prefix_append_cases hp hne with ⟨hin, hina⟩ | ⟨q, rfl, hq, hqne⟩
    · exact (hm.cut hin hina hr).bind f
    · cases h₁ : step e with
      | none => exact (hm.stops hr h₁).bind f
      | some e₁ =>
        obtain ⟨r₁, hm₁, hr₁⟩ := hm.full hr h₁
        exact .of_ok hm₁ (hf.cut hq hqne hr₁)

theorem pure (a : α) : Consumes fair (pure a : EStateM φ (Input σ) α) [] some a where
  full := by
    rintro r bs e e' hr ⟨⟩
    exact ⟨r, rfl, hr⟩
  stops := by rintro r bs e hr ⟨⟩
  cut := by
    intro r p e hp hne
    exact absurd (List.prefix_nil.mp hp) hne

/-- A reader that changes only its environment. -/
theorem ofStep {m : EStateM φ (Input σ) α} {step : σ → Option σ} {a : α}
    (hok : ∀ r e e', step e = some e' → m ⟨r, e⟩ = .ok a ⟨r, e'⟩)
    (herr : ∀ r e, step e = none → FailsFair fair m ⟨r, e⟩) : Consumes fair m [] step a where
  full := by
    intro r bs e e' hr hstep
    exact ⟨r, hok r e e' hstep, hr⟩
  stops := by
    intro r bs e _ hstep
    exact herr r e hstep
  cut := by
    intro r p e hp hne
    exact absurd (List.prefix_nil.mp hp) hne

/-- A reader that fails whatever it is given. -/
theorem ofFail {m : EStateM φ (Input σ) α} (a : α) (h : ∀ i, FailsFair fair m i) :
    Consumes fair m [] (fun _ => none) a :=
  ofStep (by rintro _ _ _ ⟨⟩) fun _ _ _ => h _

/-- The same reader under an equal description. -/
theorem congr {m : EStateM φ (Input σ) α} {as as' : Bytes} {step step' : σ → Option σ} {a : α}
    (h : Consumes fair m as step a) (has : as = as') (hstep : ∀ e, step e = step' e) :
    Consumes fair m as' step' a := by
  obtain rfl : step = step' := funext hstep
  exact has ▸ h

end Consumes

end Reader

end Lib
