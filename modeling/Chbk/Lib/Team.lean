import Mathlib.Logic.Function.Basic
import Chbk.Lib.Run

/-!
# A team of programs

Programs side by side in one world, each with its calls behind it, in any
interleaving and next to other changes of the world.

* `Team.Moves` — a team under way.
* `Team.Keeps` — every call that a member may make keeps an invariant of the world
  and of what a watch has seen of each member, and so does every other change.
* `Team.Keeps.moves` — then a team whose members follow their rules keeps it.
-/

namespace Lib

variable {ι Op : Type} {Resp : Op → Type} {ε α V W : Type}

/-- The watch that forgets nothing. -/
def Watch.record (Op : Type) (Resp : Op → Type) : Watch Op Resp (History Op Resp) :=
  ⟨[], fun h op r => ⟨op, r⟩ :: h⟩

@[simp] theorem Watch.view_record (h : History Op Resp) : (Watch.record Op Resp).view h = h := by
  induction h with
  | nil => rfl
  | cons c h ih => exact congrArg (c :: ·) ih

-- ---------------------------------------------------------------------------
-- Rules of one program
-- ---------------------------------------------------------------------------

namespace Prog

variable {M : Watch Op Resp V} {rule : V → Op → Prop}

/-- A program that follows two rules follows both. -/
theorem Follows.and {rule' : V → Op → Prop} {p : Prog Op Resp ε α} {v : V} {Q Q' : α → V → Prop}
    {E E' : ε → V → Prop} (h : Follows M rule p v Q E) (h' : Follows M rule' p v Q' E') :
    Follows M (fun v op => rule v op ∧ rule' v op) p v (fun a v => Q a v ∧ Q' a v)
      fun e v => E e v ∧ E' e v := by
  induction p generalizing v with
  | done a => exact ⟨h, h'⟩
  | fail e => exact ⟨h, h'⟩
  | call op k ih => exact ⟨⟨h.1, h'.1⟩, fun r => ih r (h.2 r) (h'.2 r)⟩

/-- What a watch sees can be read off what another one sees. -/
theorem Follows.seen {V' : Type} {M' : Watch Op Resp V'} {f : V' → V}
    (hf : ∀ v op r, f (M'.observe v op r) = M.observe (f v) op r) {p : Prog Op Resp ε α} {v : V'}
    {Q : α → V → Prop} {E : ε → V → Prop} (hp : Follows M rule p (f v) Q E) :
    Follows M' (fun v op => rule (f v) op) p v (fun a v => Q a (f v)) fun e v => E e (f v) := by
  induction p generalizing v with
  | done a => exact hp
  | fail e => exact hp
  | call op k ih => exact ⟨hp.1, fun r => ih r (hf v op r ▸ hp.2 r)⟩

/-- What a watch sees can be read off the record. -/
theorem Follows.record {p : Prog Op Resp ε α} {h : History Op Resp} {Q : α → V → Prop}
    {E : ε → V → Prop} (hp : Follows M rule p (M.view h) Q E) :
    Follows (Watch.record Op Resp) (fun h op => rule (M.view h) op) p h
      (fun a h => Q a (M.view h)) fun e h => E e (M.view h) :=
  hp.seen fun _ _ _ => rfl

end Prog

namespace Proc

/-- Each call of a run was answered in the world before it. -/
theorem Trace.answered {answers : (op : Op) → W → Resp op → W → Prop} {beside : W → W → Prop}
    {p p' : Proc Op Resp ε α} {w w' : W} {tr : List (Event Op Resp W)}
    (h : Trace answers beside p w tr p' w') :
    ∀ x ∈ tr, answers x.call.1 x.before x.call.2 x.after := by
  induction h with
  | start => simp
  | beside _ _ ih => exact ih
  | call _ hstep hc ih =>
    intro x hx
    rcases List.mem_append.mp hx with hx | hx
    · exact ih x hx
    · obtain ⟨hans⟩ := hstep
      obtain ⟨rfl, -⟩ := List.cons.inj hc
      rw [List.mem_singleton.mp hx]
      exact hans

/-- Each call behind a program was there at the start, or was answered in the run. -/
theorem Trace.mem_hist {answers : (op : Op) → W → Resp op → W → Prop} {beside : W → W → Prop}
    {p p' : Proc Op Resp ε α} {w w' : W} {tr : List (Event Op Resp W)}
    (h : Trace answers beside p w tr p' w') :
    ∀ c ∈ p'.hist, c ∈ p.hist ∨ ∃ x ∈ tr, x.call = c := by
  induction h with
  | start => exact fun c hc => .inl hc
  | beside _ _ ih => exact ih
  | call _ _ hc ih =>
    intro c hmem
    rw [hc, List.mem_cons] at hmem
    rcases hmem with rfl | hmem
    · exact .inr ⟨_, List.mem_append_right _ (List.mem_singleton_self _), rfl⟩
    · refine (ih c hmem).imp_right ?_
      rintro ⟨x, hx, rfl⟩
      exact ⟨x, List.mem_append_left _ hx, rfl⟩

/-- What every allowed call keeps of the view is kept along a run. -/
theorem Trace.keepsView {answers : (op : Op) → W → Resp op → W → Prop} {beside : W → W → Prop}
    {M : Watch Op Resp V} {rule : V → Op → Prop} {I : V → Prop}
    (hI : ∀ v op r, rule v op → I v → I (M.observe v op r))
    {p p' : Proc Op Resp ε α} {w w' : W} {tr : List (Event Op Resp W)}
    (h : Trace answers beside p w tr p' w') (hrule : ∀ x ∈ tr, rule (M.view x.hist) x.call.1)
    (hp : I (M.view p.hist)) : I (M.view p'.hist) := by
  induction h with
  | start => exact hp
  | beside _ _ ih => exact ih hrule
  | @call tr p₁ _ _ _ c _ _ hc ih =>
    have hbefore := ih fun x hx => hrule x (List.mem_append_left _ hx)
    have hcall := hrule _ (List.mem_append_right tr (List.mem_singleton_self _))
    rw [hc]
    exact hI _ _ c.2 hcall hbefore

theorem obeys_of_only {M : Watch Op Resp V} {S : Op → Prop} {p : Proc Op Resp ε α}
    (h : p.prog.Only S) : p.Obeys M fun _ op => S op :=
  (h.follows (I := fun _ => True) (fun _ _ hop _ => hop) (fun _ _ _ _ _ => trivial) trivial).mono
    (fun _ _ _ => trivial) fun _ _ _ => trivial

end Proc

-- ---------------------------------------------------------------------------
-- Teams
-- ---------------------------------------------------------------------------

/-- A member makes its next call, or the world changes beside them. -/
inductive Team.Move [DecidableEq ι] (answers : (op : Op) → W → Resp op → W → Prop)
    (beside : W → W → Prop) :
    (ι → Proc Op Resp ε α) × W → (ι → Proc Op Resp ε α) × W → Prop
  | call {ps : ι → Proc Op Resp ε α} {w w' : W} {i : ι} {p : Proc Op Resp ε α}
      (h : (ps i).Step answers w p w') : Move answers beside (ps, w) (Function.update ps i p, w')
  | beside {ps : ι → Proc Op Resp ε α} {w w' : W} (h : beside w w') :
      Move answers beside (ps, w) (ps, w')

/-- The team under way. -/
abbrev Team.Moves [DecidableEq ι] (answers : (op : Op) → W → Resp op → W → Prop)
    (beside : W → W → Prop) :
    (ι → Proc Op Resp ε α) × W → (ι → Proc Op Resp ε α) × W → Prop :=
  Relation.ReflTransGen (Team.Move answers beside)

/-- What a watch has seen of each member. -/
def Team.views (M : Watch Op Resp V) (ps : ι → Proc Op Resp ε α) (i : ι) : V := M.view (ps i).hist

/-- What the allowed calls of all members keep, and all other changes. -/
structure Team.Keeps [DecidableEq ι] (answers : (op : Op) → W → Resp op → W → Prop)
    (beside : W → W → Prop) (M : Watch Op Resp V) (rule : ι → V → Op → Prop)
    (I : (ι → V) → W → Prop) : Prop where
  call : ∀ {vs : ι → V} {w w' : W} {i : ι} {op : Op} {r : Resp op}, I vs w → rule i (vs i) op →
    answers op w r w' → I (Function.update vs i (M.observe (vs i) op r)) w'
  beside : ∀ {vs : ι → V} {w w' : W}, I vs w → beside w w' → I vs w'

namespace Team

variable [DecidableEq ι] {answers : (op : Op) → W → Resp op → W → Prop} {beside : W → W → Prop}
  {M : Watch Op Resp V} {rule : ι → V → Op → Prop} {I : (ι → V) → W → Prop}
  {x y : (ι → Proc Op Resp ε α) × W}

theorem views_update {ps : ι → Proc Op Resp ε α} {i : ι} {p : Proc Op Resp ε α} {op : Op}
    {r : Resp op} (hp : p.hist = ⟨op, r⟩ :: (ps i).hist) :
    views M (Function.update ps i p) =
      Function.update (views M ps) i (M.observe (views M ps i) op r) := by
  funext j
  by_cases hj : j = i
  · subst hj
    simp [views, hp, Watch.view]
  · simp [views, Function.update_of_ne hj]

theorem Keeps.move (hI : Keeps answers beside M rule I) (hstep : Move answers beside x y)
    (h : (∀ i, (x.1 i).Obeys M (rule i)) ∧ I (views M x.1) x.2) :
    (∀ i, (y.1 i).Obeys M (rule i)) ∧ I (views M y.1) y.2 := by
  obtain ⟨hobeys, hinv⟩ := h
  cases hstep with
  | beside hw => exact ⟨hobeys, hI.beside hinv hw⟩
  | call hcall =>
    rename_i i p
    obtain ⟨op, r, -, hhist, hans, hobey⟩ := hcall.cases
    obtain ⟨hrule, hrest⟩ := hobey (hobeys i)
    constructor
    · intro j
      by_cases hj : j = i
      · subst hj
        simpa using hrest
      · simpa [Function.update_of_ne hj] using hobeys j
    · show I (views M (Function.update _ i p)) _
      rw [views_update hhist]
      exact hI.call hinv hrule hans

/-- **What the allowed calls keep, the team keeps**, in every interleaving. -/
theorem Keeps.moves (hI : Keeps answers beside M rule I) (hrun : Moves answers beside x y)
    (hobeys : ∀ i, (x.1 i).Obeys M (rule i)) (hx : I (views M x.1) x.2) :
    (∀ i, (y.1 i).Obeys M (rule i)) ∧ I (views M y.1) y.2 :=
  invariant_of_step (I := fun z => (∀ i, (z.1 i).Obeys M (rule i)) ∧ I (views M z.1) z.2)
    (fun _ _ h hstep => hI.move hstep h) ⟨hobeys, hx⟩ hrun

/-- To a member, what the others do is what happens beside its calls. -/
theorem trace_of_moves (hrun : Moves answers beside x y) (i : ι) :
    ∃ tr, Proc.Trace answers (fun _ _ => True) (x.1 i) x.2 tr (y.1 i) y.2 := by
  induction hrun with
  | refl => exact ⟨[], .start⟩
  | tail _ hstep ih =>
    obtain ⟨tr, h⟩ := ih
    cases hstep with
    | beside hw => exact ⟨tr, h.beside trivial⟩
    | call hcall =>
      rename_i ps w w' j p _
      by_cases hi : i = j
      · subst hi
        obtain ⟨op, r, -, hhist, -⟩ := hcall.cases
        have hnext := h.call hcall hhist
        exact ⟨_, by simpa using hnext⟩
      · have hbeside : Proc.Trace answers (fun _ _ => True) (x.1 i) x.2 tr (ps i) w' :=
          h.beside trivial
        exact ⟨tr, by simpa [Function.update_of_ne hi] using hbeside⟩

/-- A run of one member alone is a run of the team. -/
theorem moves_of_trace {i : ι} {ps : ι → Proc Op Resp ε α} {w w' : W}
    {tr : List (Event Op Resp W)} {p : Proc Op Resp ε α}
    (h : Proc.Trace answers Eq (ps i) w tr p w') :
    Moves answers beside (ps, w) (Function.update ps i p, w') := by
  induction h with
  | start => rw [Function.update_eq_self]
  | beside _ hw ih => exact hw ▸ ih
  | call _ hstep _ ih =>
    rename_i p₁ p₂ w₁ w₂ c _ _
    have hnext : Proc.Step answers (Function.update ps i p₁ i) w₁ p₂ w₂ := by
      simpa using hstep
    have hmove : Move answers beside _ _ := .call hnext
    rw [Function.update_idem] at hmove
    exact ih.tail hmove

end Team

end Lib
