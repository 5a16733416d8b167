import Chbk.Lib.Pool

/-!
# Parties on one world

Several parties share a world. Each has a pool of programs, written for a world of
its own; a layer turns their calls into calls of the shared world, and the answers
back.

* `Prog.through` — a program on top of a layer.
* `Pool.Moves` — the programs of a pool under way, next to other changes of their
  world.
* `Parties.project` — where each party's calls act on its own view and leave the
  views of the others alone, every run of all parties on the shared world is, for
  each of them, a run of its own programs on its view.
-/

namespace Lib

/-- Calls turned into calls of the world below, and their answers turned back. -/
structure Layer (Op : Type) (Resp : Op → Type) (Op' : Type) (Resp' : Op' → Type) where
  call : Op → Op'
  back : (op : Op) → Resp' (call op) → Resp op

variable {Op Op' : Type} {Resp : Op → Type} {Resp' : Op' → Type} {ε α ι κ V W : Type}

/-- The program, with its calls made through the layer. -/
def Prog.through (L : Layer Op Resp Op' Resp') : Prog Op Resp ε α → Prog Op' Resp' ε α
  | done a => done a
  | fail e => fail e
  | call op k => call (L.call op) fun r => through L (k (L.back op r))

/-- A program on top of a layer makes the calls of the program. -/
theorem Prog.through_eq_call {L : Layer Op Resp Op' Resp'} {p : Prog Op Resp ε α} {op' : Op'}
    {k' : Resp' op' → Prog Op' Resp' ε α} (h : p.through L = .call op' k') :
    ∃ op k, ∃ hop : op' = L.call op, p = .call op k ∧
      ∀ r, k' r = (k (L.back op (hop ▸ r))).through L := by
  cases p with
  | done a => cases h
  | fail e => cases h
  | call op k =>
    cases h
    exact ⟨op, k, rfl, rfl, fun r => rfl⟩

/-- A member makes its next call, or the world changes beside them. -/
inductive Pool.Move [DecidableEq κ] (answers : (op : Op) → W → Resp op → W → Prop)
    (beside : W → W → Prop) :
    (κ → Prog Op Resp ε α) × W → (κ → Prog Op Resp ε α) × W → Prop
  | call {x y : (κ → Prog Op Resp ε α) × W} (h : Pool.Step answers x y) : Move answers beside x y
  | beside {ps : κ → Prog Op Resp ε α} {w w' : W} (h : beside w w') :
      Move answers beside (ps, w) (ps, w')

/-- The programs of a pool under way, in any interleaving, next to other changes. -/
abbrev Pool.Moves [DecidableEq κ] (answers : (op : Op) → W → Resp op → W → Prop)
    (beside : W → W → Prop) :
    (κ → Prog Op Resp ε α) × W → (κ → Prog Op Resp ε α) × W → Prop :=
  Relation.ReflTransGen (Pool.Move answers beside)

/-- Parties with a view each of a world they share. -/
structure Parties (ι : Type) (answers' : (op : Op') → W → Resp' op → W → Prop)
    (beside' : W → W → Prop) (answers : (op : Op) → V → Resp op → V → Prop)
    (beside : V → V → Prop) where
  layer : ι → Layer Op Resp Op' Resp'
  view : ι → W → V
  /-- What holds of the shared world all along. -/
  inv : W → Prop
  keeps : ∀ {op w r w'}, inv w → answers' op w r w' → inv w'
  keepsBeside : ∀ {w w'}, inv w → beside' w w' → inv w'
  sees : ∀ {i op w r w'}, inv w → answers' ((layer i).call op) w r w' →
    answers op (view i w) ((layer i).back op r) (view i w')
  apart : ∀ {i j op w r w'}, inv w → i ≠ j → answers' ((layer j).call op) w r w' →
    beside (view i w) (view i w')
  besides : ∀ {i w w'}, inv w → beside' w w' → beside (view i w) (view i w')

namespace Parties

variable [DecidableEq ι] [DecidableEq κ] {answers' : (op : Op') → W → Resp' op → W → Prop}
  {beside' : W → W → Prop} {answers : (op : Op) → V → Resp op → V → Prop} {beside : V → V → Prop}
  (S : Parties ι answers' beside' answers beside)

/-- The programs of all parties, on the shared world. -/
def together (ps : ι × κ → Prog Op Resp ε α) (m : ι × κ) : Prog Op' Resp' ε α :=
  (ps m).through (S.layer m.1)

/-- The programs of one party. -/
def programs (i : ι) (ps : ι × κ → Prog Op Resp ε α) (k : κ) : Prog Op Resp ε α := ps (i, k)

theorem programs_update {ps : ι × κ → Prog Op Resp ε α} {i j : ι} {k : κ} {p : Prog Op Resp ε α} :
    programs i (Function.update ps (j, k) p) =
      if i = j then Function.update (programs i ps) k p else programs i ps := by
  funext k'
  by_cases hi : i = j
  · subst hi
    rw [if_pos rfl]
    by_cases hk : k' = k
    · subst hk
      simp [programs]
    · have hne : (i, k') ≠ (i, k) := fun h => hk (Prod.mk.inj h).2
      simp [programs, Function.update_of_ne hk, Function.update_of_ne hne]
  · rw [if_neg hi]
    have hne : (i, k') ≠ (j, k) := fun h => hi (Prod.mk.inj h).1
    simp [programs, Function.update_of_ne hne]

theorem together_update {ps : ι × κ → Prog Op Resp ε α} {m : ι × κ} {p : Prog Op Resp ε α} :
    Function.update (S.together ps) m (p.through (S.layer m.1)) =
      S.together (Function.update ps m p) := by
  funext m'
  by_cases hm : m' = m
  · subst hm
    simp [together]
  · simp [together, Function.update_of_ne hm]

/-- A step on the shared world is a step of one party, and to the others a change beside. -/
theorem project_step {ps : ι × κ → Prog Op Resp ε α} {w : W}
    {y : (ι × κ → Prog Op' Resp' ε α) × W} (hinv : S.inv w)
    (hstep : Pool.Move answers' beside' (S.together ps, w) y) :
    S.inv y.2 ∧ ∃ ps', y.1 = S.together ps' ∧
      ∀ i, Pool.Move answers beside (programs i ps, S.view i w) (programs i ps', S.view i y.2) := by
  cases hstep with
  | beside h =>
    refine ⟨S.keepsBeside hinv h, ps, rfl, ?_⟩
    intro i
    exact .beside (S.besides hinv h)
  | call h =>
    obtain @⟨_, _, w', m, op', k', r, hm, hr⟩ := h
    obtain ⟨op, k, rfl, hop, hk⟩ := Prog.through_eq_call hm
    refine ⟨S.keeps hinv hr, Function.update ps m (k ((S.layer m.1).back op r)), ?_, ?_⟩
    · rw [← together_update, ← hk r]
    · intro i
      rw [programs_update]
      by_cases hi : i = m.1
      · subst hi
        rw [if_pos rfl]
        exact .call (.call hop (S.sees hinv hr))
      · rw [if_neg hi]
        exact .beside (S.apart hinv hi hr)

/-- **What the parties do together is, to each of them, what its own programs do alone on
its view**, next to changes beside. -/
theorem project {ps : ι × κ → Prog Op Resp ε α} {w : W}
    {y : (ι × κ → Prog Op' Resp' ε α) × W} (hinv : S.inv w)
    (hrun : Pool.Moves answers' beside' (S.together ps, w) y) :
    S.inv y.2 ∧ ∃ ps', y.1 = S.together ps' ∧
      ∀ i, Pool.Moves answers beside (programs i ps, S.view i w)
        (programs i ps', S.view i y.2) := by
  induction hrun with
  | refl => exact ⟨hinv, ps, rfl, fun i => .refl⟩
  | tail _ hstep ih =>
    rename_i y₁ y₂ _
    obtain ⟨hinv₁, ps₁, hps₁, hrun₁⟩ := ih
    obtain ⟨qs, w₁⟩ := y₁
    obtain rfl : qs = S.together ps₁ := hps₁
    obtain ⟨hinv₂, ps₂, hps₂, hstep₂⟩ := S.project_step hinv₁ hstep
    exact ⟨hinv₂, ps₂, hps₂, fun i => (hrun₁ i).tail (hstep₂ i)⟩

end Parties

end Lib
