import Mathlib.Order.Basic
import Chbk.Lib.Prog

/-!
# Views that only grow

Where a watch never forgets, its views are ordered, and what a program has learned is
there for good. `Advances` is `Follows` for such a watch: the view grows, whether the
program returns or fails, and facts that later calls keep pass along a sequence and
along a loop.
-/

namespace Lib

namespace Prog

variable {Op : Type} {Resp : Op → Type} {ε α β V : Type} [Preorder V]

/-- The program follows the rule, the view grows, and it returns with `Q`. -/
def Advances (M : Watch Op Resp V) (rule : V → Op → Prop) (p : Prog Op Resp ε α) (v : V)
    (Q : α → V → Prop) : Prop :=
  Follows M rule p v (fun a v' => v ≤ v' ∧ Q a v') fun _ v' => v ≤ v'

namespace Advances

variable {M : Watch Op Resp V} {rule : V → Op → Prop} {v : V}

theorem pure {a : α} {Q : α → V → Prop} (h : Q a v) :
    Advances M rule (Pure.pure a : Prog Op Resp ε α) v Q :=
  Follows.pure ⟨le_rfl, h⟩

theorem throw {e : ε} {Q : α → V → Prop} :
    Advances M rule (MonadExcept.throw e : Prog Op Resp ε α) v Q :=
  Follows.throw le_rfl

theorem ask {op : Op} {Q : Resp op → V → Prop} (ha : rule v op)
    (h : ∀ r, v ≤ M.observe v op r ∧ Q r (M.observe v op r)) :
    Advances M rule (Prog.ask op : Prog Op Resp ε (Resp op)) v Q :=
  Follows.ask ha h

theorem bind {p : Prog Op Resp ε α} {f : α → Prog Op Resp ε β} {R : α → V → Prop}
    {Q : β → V → Prop} (h : Advances M rule p v R)
    (hf : ∀ a v', v ≤ v' → R a v' → Advances M rule (f a) v' Q) :
    Advances M rule (p >>= f) v Q := by
  refine Follows.bind h ?_
  rintro a v' ⟨hle, hR⟩
  refine Follows.mono (hf a v' hle hR) ?_ fun e v'' hle' => hle.trans hle'
  rintro b v'' ⟨hle', hQ⟩
  exact ⟨hle.trans hle', hQ⟩

theorem mono {p : Prog Op Resp ε α} {Q Q' : α → V → Prop} (h : Advances M rule p v Q)
    (hQ : ∀ a v', v ≤ v' → Q a v' → Q' a v') : Advances M rule p v Q' :=
  Follows.mono h (fun a v' ha => ⟨ha.1, hQ a v' ha.1 ha.2⟩) fun _ _ hle => hle

theorem attempt {p : Prog Op Resp ε α} {Q : α → V → Prop} (h : Advances M rule p v Q) :
    Advances M rule (Prog.attempt p) v fun r v' => ∀ a, r = .ok a → Q a v' := by
  refine Follows.attempt (Follows.mono h ?_ ?_)
  · rintro a v' ⟨hle, hQ⟩
    refine ⟨hle, ?_⟩
    rintro _ ⟨⟩
    exact hQ
  · intro e v' hle
    exact ⟨hle, by simp⟩

theorem mapFail {p : Prog Op Resp ε α} {g : ε → ε} {Q : α → V → Prop}
    (h : Advances M rule p v Q) : Advances M rule (Prog.mapFail g p) v Q :=
  Follows.mapFail h

/-- A loop, with an invariant over what is done. -/
theorem collect {f : α → Prog Op Resp ε β} {l : List α} (I : List α → List β → V → Prop)
    (hf : ∀ pre bs a post v', v ≤ v' → l = pre ++ a :: post → I pre bs v' →
      Advances M rule (f a) v' fun b v'' => I (pre ++ [a]) (bs ++ [b]) v'')
    (hI : I [] [] v) : Advances M rule (Prog.collect f l) v fun bs v' => I l bs v' := by
  refine follows_collect (fun pre bs v' => v ≤ v' ∧ I pre bs v') ?_ ⟨le_rfl, hI⟩
  rintro pre bs a post v' hl ⟨hle, hI'⟩
  refine Follows.mono (hf pre bs a post v' hle hl hI') ?_ fun e v'' hle' => hle.trans hle'
  rintro b v'' ⟨hle', hI''⟩
  exact ⟨hle.trans hle', hI''⟩

/-- A loop whose rounds each teach something of their own: what is learned stays. -/
theorem forEach {f : α → Prog Op Resp ε β} {l : List α} {Q : α → β → V → Prop}
    (hup : ∀ a b v' v'', v' ≤ v'' → Q a b v' → Q a b v'')
    (hf : ∀ a ∈ l, ∀ v', v ≤ v' → Advances M rule (f a) v' (Q a)) :
    Advances M rule (Prog.collect f l) v fun bs v' => List.Forall₂ (fun a b => Q a b v') l bs := by
  refine collect (fun pre bs v' => List.Forall₂ (fun a b => Q a b v') pre bs) ?_ .nil
  intro pre bs a post v' hle hl hI
  have ha : a ∈ l := hl ▸ List.mem_append_right _ (List.mem_cons_self ..)
  refine (hf a ha v' hle).mono fun b v'' hle' hQ => ?_
  exact List.rel_append (hI.imp fun x y hxy => hup x y v' v'' hle' hxy) (.cons hQ .nil)

/-- Calls of one kind. -/
theorem only {S : Op → Prop} {p : Prog Op Resp ε α} (h : Only S p)
    (hrule : ∀ v' op, S op → rule v' op) (hup : ∀ v' op r, S op → v' ≤ M.observe v' op r) :
    Advances M rule p v fun _ _ => True :=
  Follows.mono (h.follows (I := fun v' => v ≤ v') (fun v' op hop _ => hrule v' op hop)
    (fun v' op r hop hle => hle.trans (hup v' op r hop)) le_rfl)
    (fun _ _ hle => ⟨hle, trivial⟩) fun _ _ hle => hle

end Advances

end Prog

end Lib
