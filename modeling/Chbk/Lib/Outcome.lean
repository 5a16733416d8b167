import Mathlib.Order.Defs.Unbundled
import Chbk.Lib.Codec

/-!
# Outcomes of state programs

What is left behind by a state program, whether it ends well or fails.

* `Meets` — from one state: this at a good end, that at a failure.
* `Keeps` — from every state: the state behind either end is related to the one
  before it, and a failure is of a given kind.

A relation that is kept is a preorder, so it is kept by a sequence when it is
kept by its parts.
-/

namespace Lib

section

variable {ε σ α β : Type}

/-- From `s`, `m` ends well with `Q` or fails with `E`. -/
def Meets (m : EStateM ε σ α) (s : σ) (Q : α → σ → Prop) (E : ε → σ → Prop) : Prop :=
  match m s with
  | .ok a s' => Q a s'
  | .error e s' => E e s'

namespace Meets

variable {m : EStateM ε σ α} {f : α → EStateM ε σ β} {s : σ} {E : ε → σ → Prop}

/-- Consequence. -/
theorem mono {Q Q' : α → σ → Prop} {E' : ε → σ → Prop} (h : Meets m s Q E)
    (hQ : ∀ a s', Q a s' → Q' a s') (hE : ∀ e s', E e s' → E' e s') : Meets m s Q' E' := by
  unfold Meets at h ⊢
  cases hm : m s with
  | ok a s' =>
    rw [hm] at h
    exact hQ a s' h
  | error e s' =>
    rw [hm] at h
    exact hE e s' h

/-- Sequencing. -/
theorem bind {R : α → σ → Prop} {Q : β → σ → Prop} (h : Meets m s R E)
    (hf : ∀ a s', R a s' → Meets (f a) s' Q E) : Meets (m >>= f) s Q E := by
  unfold Meets at h
  unfold Meets
  cases hm : m s with
  | ok a s' =>
    rw [hm] at h
    rw [bind_ok hm]
    exact hf a s' h
  | error e s' =>
    rw [hm] at h
    rw [bind_error hm]
    exact h

end Meets

/-- From every state, `m` leaves one that is related to it, and fails only with
an error that is `fine`. -/
def Keeps (R : σ → σ → Prop) (fine : ε → Prop) (m : EStateM ε σ α) : Prop :=
  ∀ s, Meets m s (fun _ s' => R s s') fun e s' => R s s' ∧ fine e

namespace Keeps

variable {R : σ → σ → Prop} {fine : ε → Prop} {m : EStateM ε σ α} {f : α → EStateM ε σ β}

theorem pure [Std.Refl R] (a : α) : Keeps R fine (pure a : EStateM ε σ α) :=
  fun s => Std.Refl.refl s

theorem throw [Std.Refl R] {e : ε} (h : fine e) : Keeps R fine (throw e : EStateM ε σ α) :=
  fun s => ⟨Std.Refl.refl s, h⟩

/-- Behind a failure nothing is run. -/
theorem throw_bind [Std.Refl R] {e : ε} (h : fine e) :
    Keeps R fine ((MonadExcept.throw e : EStateM ε σ α) >>= f) :=
  fun s => ⟨Std.Refl.refl s, h⟩

theorem get [Std.Refl R] : Keeps R fine (MonadState.get : EStateM ε σ σ) :=
  fun s => Std.Refl.refl s

theorem bind [IsTrans σ R] (h : Keeps R fine m) (hf : ∀ a, Keeps R fine (f a)) :
    Keeps R fine (m >>= f) := by
  intro s
  have hs := h s
  unfold Meets at hs ⊢
  cases hm : m s with
  | ok a s' =>
    rw [hm] at hs
    rw [bind_ok hm]
    exact (hf a s').mono (fun b s'' hb => Trans.trans hs hb) fun e s'' he =>
      ⟨Trans.trans hs he.1, he.2⟩
  | error e s' =>
    rw [hm] at hs
    rw [bind_error hm]
    exact hs

/-- A sequence, from one state on: what is behind the first part starts the
second. -/
theorem meets_bind [IsTrans σ R] {s : σ} {Q : α → σ → Prop}
    (h : Meets m s (fun a s' => R s s' ∧ Q a s') fun e s' => R s s' ∧ fine e)
    (hf : ∀ a s', Q a s' → Meets (f a) s' (fun _ s'' => R s' s'') fun e s'' => R s' s'' ∧ fine e) :
    Meets (m >>= f) s (fun _ s' => R s s') fun e s' => R s s' ∧ fine e := by
  refine Meets.bind h fun a s' ha => ?_
  exact (hf a s' ha.2).mono (fun b s'' hb => Trans.trans ha.1 hb) fun e s'' he =>
    ⟨Trans.trans ha.1 he.1, he.2⟩

end Keeps

end

end Lib
