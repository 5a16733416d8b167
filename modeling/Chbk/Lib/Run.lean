import Mathlib.Logic.Relation
import Chbk.Lib.Prog

/-!
# Programs under way

A program that runs in a world, one answered call after the other, with the
history of its calls and answers. A watch reads its view off the history.

* `Proc.Step.cases` — a step of a program that follows a rule: the call was
  allowed in the view before it, and the rest follows the rule in the view
  behind it. Everything an invariant needs of a program is in there.
* `Proc.exec_step` — a step whose answer is computed.
* `invariant_of_step` — an invariant of the steps holds along every run.
* `Proc.Trace` — a program run alone, with the worlds before and behind each of
  its calls.
* `Proc.Trace.follows` — along it, a rule that the program follows is kept.
-/

namespace Lib

/-- An answered call. -/
abbrev Called (Op : Type) (Resp : Op → Type) := Σ op : Op, Resp op

/-- Answered calls, the latest first. -/
abbrev History (Op : Type) (Resp : Op → Type) := List (Called Op Resp)

/-- What a watch has seen in a history. -/
def Watch.view {Op : Type} {Resp : Op → Type} {V : Type} (M : Watch Op Resp V) :
    History Op Resp → V
  | [] => M.init
  | c :: h => M.observe (M.view h) c.1 c.2

/-- A program with the calls it has behind it. -/
structure Proc (Op : Type) (Resp : Op → Type) (ε α : Type) where
  prog : Prog Op Resp ε α
  hist : History Op Resp := []

namespace Proc

variable {Op : Type} {Resp : Op → Type} {ε α V W : Type}

/-- The call to come. -/
def next? (p : Proc Op Resp ε α) : Option Op :=
  match p.prog with
  | .call op _ => some op
  | _ => none

/-- What the program has come to, at its end. -/
def outcome? (p : Proc Op Resp ε α) : Option (Except ε α) :=
  match p.prog with
  | .done a => some (.ok a)
  | .fail e => some (.error e)
  | .call _ _ => none

/-- There is a call to come. -/
def Running (p : Proc Op Resp ε α) : Prop := p.next?.isSome = true

/-- One call, answered in world `w`. -/
inductive Step (answers : (op : Op) → W → Resp op → W → Prop) :
    Proc Op Resp ε α → W → Proc Op Resp ε α → W → Prop
  | call {op : Op} {k : Resp op → Prog Op Resp ε α} {hist : History Op Resp} {w w' : W}
      {r : Resp op} (h : answers op w r w') :
      Step answers ⟨.call op k, hist⟩ w ⟨k r, ⟨op, r⟩ :: hist⟩ w'

/-- What is left to run follows the rule. -/
def Obeys (M : Watch Op Resp V) (rule : V → Op → Prop) (p : Proc Op Resp ε α) : Prop :=
  p.prog.Follows M rule (M.view p.hist) (fun _ _ => True) (fun _ _ => True)

theorem Step.cases {answers : (op : Op) → W → Resp op → W → Prop} {p p' : Proc Op Resp ε α}
    {w w' : W} (h : p.Step answers w p' w') :
    ∃ op r, p.next? = some op ∧ p'.hist = ⟨op, r⟩ :: p.hist ∧ answers op w r w' ∧
      ∀ {V : Type} {M : Watch Op Resp V} {rule : V → Op → Prop}, p.Obeys M rule →
        rule (M.view p.hist) op ∧ p'.Obeys M rule := by
  obtain ⟨h⟩ := h
  exact ⟨_, _, rfl, rfl, h, fun ho => ⟨ho.1, ho.2 _⟩⟩

/-- A step of the part of a program that runs first is a step of the program. -/
theorem Step.within {β : Type} {answers : (op : Op) → W → Resp op → W → Prop}
    {p p' : Proc Op Resp ε α} {w w' : W} {c : Called Op Resp} (h : p.Step answers w p' w')
    (hc : p'.hist = c :: p.hist) {g : Prog Op Resp ε α → Prog Op Resp ε β}
    (hg : ∀ op k, g (.call op k) = .call op fun r => g (k r)) (hist : History Op Resp) :
    Proc.Step answers ⟨g p.prog, hist⟩ w ⟨g p'.prog, c :: hist⟩ w' := by
  obtain ⟨h⟩ := h
  obtain ⟨rfl, -⟩ := List.cons.inj hc
  simp only [hg]
  exact .call h

theorem Step.mono {answers answers' : (op : Op) → W → Resp op → W → Prop}
    {p p' : Proc Op Resp ε α} {w w' : W} (h : p.Step answers w p' w')
    (hans : ∀ op w r w', answers op w r w' → answers' op w r w') : p.Step answers' w p' w' := by
  obtain ⟨h⟩ := h
  exact .call (hans _ _ _ _ h)

/-- Make the next call with a computed answer. -/
def exec (answer : (op : Op) → W → Option (Resp op × W)) (p : Proc Op Resp ε α) (w : W) :
    Option (Proc Op Resp ε α × W) :=
  match p with
  | ⟨.call op k, hist⟩ => (answer op w).map fun x => (⟨k x.1, ⟨op, x.1⟩ :: hist⟩, x.2)
  | _ => none

theorem exec_step {answers : (op : Op) → W → Resp op → W → Prop}
    {answer : (op : Op) → W → Option (Resp op × W)}
    (hans : ∀ op w r w', answer op w = some (r, w') → answers op w r w')
    {p p' : Proc Op Resp ε α} {w w' : W} (h : p.exec answer w = some (p', w')) :
    p.Step answers w p' w' := by
  obtain ⟨prog, hist⟩ := p
  cases prog with
  | done a => simp [exec] at h
  | fail e => simp [exec] at h
  | call op k =>
    obtain ⟨⟨r, w₁⟩, hr, he⟩ := Option.map_eq_some_iff.mp h
    obtain ⟨rfl, rfl⟩ := Prod.mk.inj he
    exact .call (hans op w r _ hr)

end Proc

/-! ## Traces -/

/-- A call of a program: what was behind it, and the worlds around it. -/
structure Event (Op : Type) (Resp : Op → Type) (W : Type) where
  hist : History Op Resp
  before : W
  call : Called Op Resp
  after : W

/-- A program run from `p` in world `w`. Between its calls the world may change
as `beside` says. -/
inductive Proc.Trace {Op : Type} {Resp : Op → Type} {ε α W : Type}
    (answers : (op : Op) → W → Resp op → W → Prop) (beside : W → W → Prop)
    (p : Proc Op Resp ε α) (w : W) :
    List (Event Op Resp W) → Proc Op Resp ε α → W → Prop
  | start : Trace answers beside p w [] p w
  | call {tr : List (Event Op Resp W)} {p' p'' : Proc Op Resp ε α} {w' w'' : W}
      {c : Called Op Resp} (h : Trace answers beside p w tr p' w')
      (hstep : p'.Step answers w' p'' w'') (hc : p''.hist = c :: p'.hist) :
      Trace answers beside p w (tr ++ [⟨p'.hist, w', c, w''⟩]) p'' w''
  | beside {tr : List (Event Op Resp W)} {p' : Proc Op Resp ε α} {w' w'' : W}
      (h : Trace answers beside p w tr p' w') (hw : beside w' w'') :
      Trace answers beside p w tr p' w''

/-- In every run of a program that follows a rule, each call is allowed in the view
before it, and what is left follows the rule in the view behind. -/
theorem Proc.Trace.follows {Op : Type} {Resp : Op → Type} {ε α V W : Type}
    {answers : (op : Op) → W → Resp op → W → Prop} {beside : W → W → Prop}
    {M : Watch Op Resp V} {rule : V → Op → Prop} {Q : α → V → Prop} {E : ε → V → Prop}
    {p p' : Proc Op Resp ε α} {w w' : W} {tr : List (Event Op Resp W)}
    (h : Proc.Trace answers beside p w tr p' w')
    (hp : p.prog.Follows M rule (M.view p.hist) Q E) :
    p'.prog.Follows M rule (M.view p'.hist) Q E ∧
      ∀ x ∈ tr, rule (M.view x.hist) x.call.1 := by
  induction h with
  | start => exact ⟨hp, by simp⟩
  | call _ hstep hc ih =>
    obtain ⟨hrest, hrule⟩ := ih
    obtain ⟨hr⟩ := hstep
    obtain ⟨rfl, -⟩ := List.cons.inj hc
    refine ⟨hrest.2 _, fun x hx => ?_⟩
    rcases List.mem_append.mp hx with hx | hx
    · exact hrule x hx
    · rw [List.mem_singleton.mp hx]
      exact hrest.1
  | beside _ _ ih => exact ih

/-- What holds at the start and is kept by every step holds along a run. -/
theorem invariant_of_step {S : Type} {step : S → S → Prop} {I : S → Prop}
    (hstep : ∀ s s', I s → step s s' → I s') {s s' : S} (hs : I s)
    (hrun : Relation.ReflTransGen step s s') : I s' := by
  induction hrun with
  | refl => exact hs
  | tail _ h ih => exact hstep _ _ ih h

end Lib
