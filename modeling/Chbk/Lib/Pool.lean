import Mathlib.Logic.Function.Basic
import Chbk.Lib.Hoare

/-!
# Programs side by side

A pool of programs in one world. Any of them may make the next call; what it
reads and changes may be no more than a share of the world.

* `Prog.alone` — a program run where each call has one answer.
* `Prog.Strict.ensures` — a program that gives up on bad answers returns what it
  returns alone, when all other answers are the ones it gets alone.
* `Shares.returns` — members that keep to their shares return as if each were
  alone with its share, in every interleaving.
* `Pool.run_alone` — a member run alone is a run of the pool.
-/

namespace Lib

namespace Prog

variable {Op : Type} {Resp : Op → Type} {ε α β V : Type}

-- ---------------------------------------------------------------------------
-- Alone
-- ---------------------------------------------------------------------------

/-- The outcome of a program whose calls are performed, and the world behind it. -/
def alone (perform : (op : Op) → V → Resp op × V) : Prog Op Resp ε α → V → Except ε α × V
  | done a, v => (.ok a, v)
  | fail e, v => (.error e, v)
  | call op k, v => alone perform (k (perform op v).1) (perform op v).2

section

variable {perform : (op : Op) → V → Resp op × V}

theorem alone_bind {p : Prog Op Resp ε α} {f : α → Prog Op Resp ε β} {v : V} :
    alone perform (p >>= f) v =
      match alone perform p v with
      | (.ok a, v') => alone perform (f a) v'
      | (.error e, v') => (.error e, v') := by
  induction p generalizing v with
  | done a => rfl
  | fail e => rfl
  | call op k ih => exact ih _

theorem alone_bind_ok {p : Prog Op Resp ε α} {f : α → Prog Op Resp ε β} {v v' : V} {a : α}
    (h : alone perform p v = (.ok a, v')) :
    alone perform (p >>= f) v = alone perform (f a) v' := by
  rw [alone_bind, h]

/-- A sequence ends well when both of its parts do. -/
theorem alone_bind_eq_ok {p : Prog Op Resp ε α} {f : α → Prog Op Resp ε β} {v v' : V} {b : β} :
    alone perform (p >>= f) v = (.ok b, v') ↔
      ∃ a v₁, alone perform p v = (.ok a, v₁) ∧ alone perform (f a) v₁ = (.ok b, v') := by
  rw [alone_bind]
  rcases alone perform p v with ⟨e | a, v₁⟩
  · simp
  · simp

theorem alone_bind_error {p : Prog Op Resp ε α} {f : α → Prog Op Resp ε β} {v v' : V} {e : ε}
    (h : alone perform p v = (.error e, v')) :
    alone perform (p >>= f) v = (.error e, v') := by
  rw [alone_bind, h]

end

/-- A bad answer is the last one: the program fails on it. -/
def Strict (bad : (op : Op) → Resp op → Prop) : Prog Op Resp ε α → Prop
  | done _ => True
  | fail _ => True
  | call op k => ∀ r, (bad op r → ∃ e, k r = fail e) ∧ Strict bad (k r)

section

variable {bad : (op : Op) → Resp op → Prop}

theorem Strict.bind {p : Prog Op Resp ε α} {f : α → Prog Op Resp ε β} (h : Strict bad p)
    (hf : ∀ a, Strict bad (f a)) : Strict bad (p >>= f) := by
  induction p with
  | done a => exact hf a
  | fail e => trivial
  | call op k ih =>
    intro r
    refine ⟨fun hr => ?_, ih r (h r).2⟩
    obtain ⟨e, he⟩ := (h r).1 hr
    exact ⟨e, congrArg (· >>= f) he⟩

/-- Whatever the bad answers, the program returns nothing else than alone. -/
theorem Strict.ensures {perform : (op : Op) → V → Resp op × V}
    {acts : (op : Op) → V → Resp op → V → Prop}
    (hacts : ∀ op v r v', acts op v r v' → bad op r ∨ perform op v = (r, v'))
    {p : Prog Op Resp ε α} (h : Strict bad p) {v : V} :
    Ensures acts (fun _ => True) p v (fun a v' => alone perform p v = (.ok a, v'))
      fun _ _ => True := by
  induction p generalizing v with
  | done a => rfl
  | fail e => trivial
  | call op k ih =>
    refine ⟨trivial, ?_⟩
    intro r v' hr
    rcases hacts op v r v' hr with hbad | hgood
    · obtain ⟨e, he⟩ := (h r).1 hbad
      rw [he]
      trivial
    · unfold alone
      rw [hgood]
      exact ih r (h r).2

end

end Prog

-- ---------------------------------------------------------------------------
-- Pools
-- ---------------------------------------------------------------------------

open Prog

variable {ι Op : Type} {Resp : Op → Type} {ε α V W : Type}

/-- One of the programs makes its next call. -/
inductive Pool.Step [DecidableEq ι] (answers : (op : Op) → W → Resp op → W → Prop) :
    (ι → Prog Op Resp ε α) × W → (ι → Prog Op Resp ε α) × W → Prop
  | call {ps : ι → Prog Op Resp ε α} {w w' : W} {i : ι} {op : Op}
      {k : Resp op → Prog Op Resp ε α} {r : Resp op} (hi : ps i = .call op k)
      (h : answers op w r w') : Step answers (ps, w) (Function.update ps i (k r), w')

/-- The programs of a pool under way, in any interleaving. -/
abbrev Pool.Run [DecidableEq ι] (answers : (op : Op) → W → Resp op → W → Prop) :
    (ι → Prog Op Resp ε α) × W → (ι → Prog Op Resp ε α) × W → Prop :=
  Relation.ReflTransGen (Pool.Step answers)

/-- Each member of a pool has a view of the world. Its own calls act on its view,
and the calls of the others leave it as it is. -/
structure Shares (answers : (op : Op) → W → Resp op → W → Prop)
    (acts : (op : Op) → V → Resp op → V → Prop) (ι : Type) where
  view : ι → W → V
  calls : ι → Op → Prop
  sees : ∀ {i op w r w'}, calls i op → answers op w r w' → acts op (view i w) r (view i w')
  apart : ∀ {i j op w r w'}, i ≠ j → calls j op → answers op w r w' → view i w' = view i w

namespace Shares

variable {answers : (op : Op) → W → Resp op → W → Prop}
  {acts : (op : Op) → V → Resp op → V → Prop}

/-- The member keeps to its share, where it is ensured to return with `Q`. -/
structure Kept (S : Shares answers acts ι) (i : ι) (p : Prog Op Resp ε α) (w : W)
    (Q : α → V → Prop) : Prop where
  only : Only (S.calls i) p
  ensures : Ensures acts (fun _ => True) p (S.view i w) Q fun _ _ => True

variable [DecidableEq ι] {S : Shares answers acts ι} {Q : ι → α → V → Prop}
  {x y : (ι → Prog Op Resp ε α) × W}

theorem kept_step (h : ∀ i, S.Kept i (x.1 i) x.2 (Q i)) (hstep : Pool.Step answers x y) :
    ∀ i, S.Kept i (y.1 i) y.2 (Q i) := by
  obtain @⟨ps, w, w', i, op, k, r, hi, hr⟩ := hstep
  have hmine : S.Kept i (.call op k) w (Q i) := hi ▸ h i
  intro j
  by_cases hj : j = i
  · subst hj
    show S.Kept j (Function.update ps j (k r) j) w' (Q j)
    rw [Function.update_self]
    exact ⟨hmine.only.2 r, hmine.ensures.2 r _ (S.sees hmine.only.1 hr)⟩
  · show S.Kept j (Function.update ps i (k r) j) w' (Q j)
    rw [Function.update_of_ne hj]
    refine ⟨(h j).only, ?_⟩
    rw [S.apart hj hmine.only.1 hr]
    exact (h j).ensures

/-- **However the members are interleaved, each returns what its share ensures.** -/
theorem returns (h : ∀ i, S.Kept i (x.1 i) x.2 (Q i)) (hrun : Pool.Run answers x y) {i : ι}
    {a : α} (hdone : y.1 i = .done a) : Q i a (S.view i y.2) := by
  have hkept := invariant_of_step (I := fun z => ∀ i, S.Kept i (z.1 i) z.2 (Q i))
    (fun _ _ hz hstep => kept_step hz hstep) h hrun i
  have hens := hkept.ensures
  rw [hdone] at hens
  exact hens

end Shares

/-- A member makes all its calls before any other makes one. -/
theorem Pool.run_alone [DecidableEq ι] {perform : (op : Op) → W → Resp op × W}
    {answers : (op : Op) → W → Resp op → W → Prop}
    (hans : ∀ op w, answers op w (perform op w).1 (perform op w).2) {i : ι} {a : α} {w' : W} :
    ∀ {p : Prog Op Resp ε α} {ps : ι → Prog Op Resp ε α} {w : W}, ps i = p →
      p.alone perform w = (.ok a, w') →
      Pool.Run answers (ps, w) (Function.update ps i (.done a), w')
  | .done b, ps, w, hi, h => by
    obtain ⟨hb, rfl⟩ := Prod.mk.inj h
    rw [← Except.ok.inj hb, ← hi, Function.update_eq_self]
  | .fail e, ps, w, hi, h => nomatch (Prod.mk.inj h).1
  | .call op k, ps, w, hi, h => by
    have hnext : Function.update ps i (k (perform op w).1) i = k (perform op w).1 :=
      Function.update_self ..
    have hrest := Pool.run_alone hans hnext h
    rw [Function.update_idem] at hrest
    exact .head (.call hi (hans op w)) hrest

end Lib
