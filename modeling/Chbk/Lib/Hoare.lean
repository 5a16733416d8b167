import Chbk.Lib.Run

/-!
# Pre- and postconditions over a world

A program whose calls are answered in a world that changes with the answers.
`Ensures J p w Q E` says that, started in `w`, the program issues every call in
a world with `J`, returns with `Q` and fails with `E`, whatever the answers. It
is computed by recursion on the tree, so every run of the program ends.

* `Wp.bind`, `Wp.mono`, `wp_collect` — the rules, for a condition on the calls.
* `Returns` — a program that is never left without an answer.
* `Ensures.bind`, `Ensures.mono`, `Ensures.ask` — sequencing, consequence, calls.
* `ensures_collect`, `ensures_foldl` — loops, with an invariant.
* `Only.ensures` — calls of one kind, which keep an invariant.
* `Ensures.watched`, `Trace.watched` — the world together with what a watch sees.
* `Trace.returns`, `Trace.meets` — what holds at the end of a run, and at its
  calls.
* `Reaches` — some answers lead to a return with `Q`; `Reaches.trace` is the run.
* `Runs` — some answers lead to this outcome, a return or a failure.
-/

namespace Lib

/-- Answers, with what a watch sees of them. -/
def Watch.answers {Op : Type} {Resp : Op → Type} {V W : Type} (M : Watch Op Resp V)
    (answers : (op : Op) → W → Resp op → W → Prop) (op : Op) (x : W × V) (r : Resp op)
    (x' : W × V) : Prop :=
  answers op x.1 r x'.1 ∧ x'.2 = M.observe x.2 op r

namespace Prog

variable {Op : Type} {Resp : Op → Type} {ε α β γ W : Type}

/-- From world `w` on: `C` of every call, `Q` at a return, `E` at a failure. -/
def Wp (answers : (op : Op) → W → Resp op → W → Prop) (C : Op → W → Prop) :
    Prog Op Resp ε α → W → (α → W → Prop) → (ε → W → Prop) → Prop
  | done a, w, Q, _ => Q a w
  | fail e, w, _, E => E e w
  | call op k, w, Q, E => C op w ∧ ∀ r w', answers op w r w' → Wp answers C (k r) w' Q E

/-- From world `w` on: `J` at every call, `Q` at a return, `E` at a failure. -/
def Ensures (answers : (op : Op) → W → Resp op → W → Prop) (J : W → Prop)
    (p : Prog Op Resp ε α) (w : W) (Q : α → W → Prop) (E : ε → W → Prop) : Prop :=
  Wp answers (fun _ => J) p w Q E

/-- The program is never left without an answer; it returns with `Q` or fails
with `E`. -/
abbrev Returns (answers : (op : Op) → W → Resp op → W → Prop) (p : Prog Op Resp ε α) (w : W)
    (Q : α → W → Prop) (E : ε → W → Prop) : Prop :=
  Wp answers (fun op w => ∃ r w', answers op w r w') p w Q E

section

variable {answers : (op : Op) → W → Resp op → W → Prop} {C : Op → W → Prop} {w : W}

/-- Consequence. -/
theorem Wp.mono {p : Prog Op Resp ε α} {C' : Op → W → Prop} {Q Q' : α → W → Prop}
    {E E' : ε → W → Prop} (h : Wp answers C p w Q E) (hC : ∀ op w, C op w → C' op w)
    (hQ : ∀ a w, Q a w → Q' a w) (hE : ∀ e w, E e w → E' e w) : Wp answers C' p w Q' E' := by
  induction p generalizing w with
  | done a => exact hQ a w h
  | fail e => exact hE e w h
  | call op k ih =>
    refine ⟨hC op w h.1, ?_⟩
    intro r w' hr
    exact ih r (h.2 r w' hr)

/-- Sequencing: the rest is run on what the first part returns. -/
theorem Wp.bind {p : Prog Op Resp ε α} {f : α → Prog Op Resp ε β} {R : α → W → Prop}
    {Q : β → W → Prop} {E : ε → W → Prop} (h : Wp answers C p w R E)
    (hf : ∀ a w', R a w' → Wp answers C (f a) w' Q E) : Wp answers C (p >>= f) w Q E := by
  induction p generalizing w with
  | done a => exact hf a w h
  | fail e => exact h
  | call op k ih =>
    refine ⟨h.1, ?_⟩
    intro r w' hr
    exact ih r (h.2 r w' hr)

/-- An attempt hands on either outcome as a value. -/
theorem Wp.attempt {p : Prog Op Resp ε α} {Q : Except ε α → W → Prop} {E : ε → W → Prop}
    (h : Wp answers C p w (fun a w' => Q (.ok a) w') (fun e w' => Q (.error e) w')) :
    Wp answers C (attempt p) w Q E := by
  induction p generalizing w with
  | done a => exact h
  | fail e => exact h
  | call op k ih =>
    refine ⟨h.1, ?_⟩
    intro r w' hr
    exact ih r (h.2 r w' hr)

theorem Wp.mapFail {p : Prog Op Resp ε α} {g : ε → ε} {Q : α → W → Prop} {E : ε → W → Prop}
    (h : Wp answers C p w Q (fun e w' => E (g e) w')) : Wp answers C (mapFail g p) w Q E := by
  induction p generalizing w with
  | done a => exact h
  | fail e => exact h
  | call op k ih =>
    refine ⟨h.1, ?_⟩
    intro r w' hr
    exact ih r (h.2 r w' hr)

/-- A loop that collects results, with an invariant over the elements already
done and their results. -/
theorem wp_collect {f : β → Prog Op Resp ε γ} {E : ε → W → Prop}
    (I : List β → List γ → W → Prop) {bs : List β}
    (hf : ∀ pre cs b post w, bs = pre ++ b :: post → I pre cs w →
      Wp answers C (f b) w (fun c w' => I (pre ++ [b]) (cs ++ [c]) w') E)
    {w : W} (hI : I [] [] w) : Wp answers C (collect f bs) w (fun cs w' => I bs cs w') E := by
  suffices h : ∀ post pre cs w, bs = pre ++ post → I pre cs w →
      Wp answers C (collect f post) w (fun cs' w' => I bs (cs ++ cs') w') E by
    simpa using h bs [] [] w rfl hI
  intro post
  induction post with
  | nil =>
    intro pre cs w hbs hI
    simpa [collect, Wp, hbs] using hI
  | cons b post ih =>
    intro pre cs w hbs hI
    refine Wp.bind (hf pre cs b post w hbs hI) fun c w' hI' => ?_
    refine Wp.bind (ih (pre ++ [b]) (cs ++ [c]) w' (by simpa using hbs) hI') ?_
    intro cs' w'' hI''
    show I bs (cs ++ c :: cs') w''
    simpa using hI''

end

section

variable {answers : (op : Op) → W → Resp op → W → Prop} {J : W → Prop} {w : W}

theorem Ensures.pure {a : α} {Q : α → W → Prop} {E : ε → W → Prop} (h : Q a w) :
    Ensures answers J (Pure.pure a : Prog Op Resp ε α) w Q E := h

theorem Ensures.throw {e : ε} {Q : α → W → Prop} {E : ε → W → Prop} (h : E e w) :
    Ensures answers J (throw e : Prog Op Resp ε α) w Q E := h

theorem Ensures.mono {p : Prog Op Resp ε α} {J' : W → Prop} {Q Q' : α → W → Prop}
    {E E' : ε → W → Prop} (h : Ensures answers J p w Q E) (hJ : ∀ w, J w → J' w)
    (hQ : ∀ a w, Q a w → Q' a w) (hE : ∀ e w, E e w → E' e w) :
    Ensures answers J' p w Q' E' :=
  Wp.mono h (fun _ => hJ) hQ hE

/-- Fewer answers, more is ensured. -/
theorem Ensures.restrict {answers' : (op : Op) → W → Resp op → W → Prop} {p : Prog Op Resp ε α}
    {Q : α → W → Prop} {E : ε → W → Prop} (h : Ensures answers J p w Q E)
    (hsub : ∀ op w r w', answers' op w r w' → answers op w r w') :
    Ensures answers' J p w Q E := by
  induction p generalizing w with
  | done a => exact h
  | fail e => exact h
  | call op k ih =>
    refine ⟨h.1, ?_⟩
    intro r w' hr
    exact ih r (h.2 r w' (hsub op w r w' hr))

theorem Ensures.bind {p : Prog Op Resp ε α} {f : α → Prog Op Resp ε β} {R : α → W → Prop}
    {Q : β → W → Prop} {E : ε → W → Prop} (h : Ensures answers J p w R E)
    (hf : ∀ a w', R a w' → Ensures answers J (f a) w' Q E) :
    Ensures answers J (p >>= f) w Q E :=
  Wp.bind h hf

theorem Ensures.ask {op : Op} {Q : Resp op → W → Prop} {E : ε → W → Prop} (hJ : J w)
    (h : ∀ r w', answers op w r w' → Q r w') :
    Ensures answers J (ask op : Prog Op Resp ε (Resp op)) w Q E :=
  ⟨hJ, h⟩

theorem Ensures.attempt {p : Prog Op Resp ε α} {Q : Except ε α → W → Prop} {E : ε → W → Prop}
    (h : Ensures answers J p w (fun a w' => Q (.ok a) w') (fun e w' => Q (.error e) w')) :
    Ensures answers J (attempt p) w Q E :=
  Wp.attempt h

theorem Ensures.mapFail {p : Prog Op Resp ε α} {g : ε → ε} {Q : α → W → Prop} {E : ε → W → Prop}
    (h : Ensures answers J p w Q (fun e w' => E (g e) w')) :
    Ensures answers J (mapFail g p) w Q E :=
  Wp.mapFail h

theorem ensures_collect {f : β → Prog Op Resp ε γ} {E : ε → W → Prop}
    (I : List β → List γ → W → Prop) {bs : List β}
    (hf : ∀ pre cs b post w, bs = pre ++ b :: post → I pre cs w →
      Ensures answers J (f b) w (fun c w' => I (pre ++ [b]) (cs ++ [c]) w') E)
    {w : W} (hI : I [] [] w) :
    Ensures answers J (collect f bs) w (fun cs w' => I bs cs w') E :=
  wp_collect I hf hI

/-- A loop that carries a value, with an invariant over the elements already
done. -/
theorem ensures_foldl {f : α → β → Prog Op Resp ε α} {E : ε → W → Prop}
    (I : List β → α → W → Prop) {bs : List β}
    (hf : ∀ pre b post a w, bs = pre ++ b :: post → I pre a w →
      Ensures answers J (f a b) w (fun a' w' => I (pre ++ [b]) a' w') E)
    {a : α} {w : W} (hI : I [] a w) :
    Ensures answers J (foldl f a bs) w (fun a' w' => I bs a' w') E := by
  suffices h : ∀ post pre a w, bs = pre ++ post → I pre a w →
      Ensures answers J (foldl f a post) w (fun a' w' => I bs a' w') E from h bs [] a w rfl hI
  intro post
  induction post with
  | nil =>
    intro pre a w hbs hI
    rw [List.append_nil] at hbs
    rw [hbs]
    exact hI
  | cons b post ih =>
    intro pre a w hbs hI
    refine Ensures.bind (hf pre b post a w hbs hI) fun a' w' hI' => ?_
    exact ih (pre ++ [b]) a' w' (by simpa using hbs) hI'

/-- Calls that keep an invariant. -/
theorem Only.ensures {S : Op → Prop} {I : W → Prop} {p : Prog Op Resp ε α} (h : Only S p)
    (hkeep : ∀ op w r w', S op → I w → answers op w r w' → I w') (hI : I w) :
    Ensures answers I p w (fun _ w' => I w') (fun _ w' => I w') := by
  induction p generalizing w with
  | done a => exact hI
  | fail e => exact hI
  | call op k ih =>
    refine ⟨hI, ?_⟩
    intro r w' hr
    exact ih r (h.2 r) (hkeep op w r w' h.1 hI hr)

/-- What a program ensures, seen by a watch that does not notice its calls. -/
theorem Ensures.watched {V : Type} {M : Watch Op Resp V} {S : Op → Prop}
    {p : Prog Op Resp ε α} {Q : α → W → Prop} {E : ε → W → Prop}
    (h : Ensures answers J p w Q E) (hS : Only S p)
    (hobs : ∀ v op r, S op → M.observe v op r = v) {v : V} :
    Ensures (M.answers answers) (fun x => J x.1) p (w, v) (fun a x => Q a x.1 ∧ x.2 = v)
      fun e x => E e x.1 ∧ x.2 = v := by
  induction p generalizing w with
  | done a => exact ⟨h, rfl⟩
  | fail e => exact ⟨h, rfl⟩
  | call op k ih =>
    refine ⟨h.1, ?_⟩
    rintro r ⟨w', v'⟩ ⟨hr, hv⟩
    obtain rfl : v' = v := hv.trans (hobs v op r hS.1)
    exact ih r (h.2 r w' hr) (hS.2 r)

end

end Prog

/-! ## Runs -/

namespace Proc

variable {Op : Type} {Resp : Op → Type} {ε α W : Type}
  {answers : (op : Op) → W → Resp op → W → Prop} {J : W → Prop} {Q : α → W → Prop}
  {E : ε → W → Prop}

/-- What is ensured of a program is ensured of what is left of it. -/
theorem Trace.ensures {p p' : Proc Op Resp ε α} {w w' : W} {tr : List (Event Op Resp W)}
    (h : Trace answers Eq p w tr p' w') (he : p.prog.Ensures answers J w Q E) :
    p'.prog.Ensures answers J w' Q E := by
  induction h with
  | start => exact he
  | call _ hstep _ ih =>
    obtain ⟨hr⟩ := hstep
    exact ih.2 _ _ hr
  | beside _ hw ih => exact hw ▸ ih

/-- A run, with what a watch sees of it. -/
theorem Trace.watched {V : Type} (M : Watch Op Resp V) {p p' : Proc Op Resp ε α} {w w' : W}
    {tr : List (Event Op Resp W)} (h : Trace answers Eq p w tr p' w') :
    ∃ tr', Trace (M.answers answers) Eq p (w, M.view p.hist) tr' p' (w', M.view p'.hist) := by
  induction h with
  | start => exact ⟨[], .start⟩
  | call _ hstep _ ih =>
    obtain ⟨tr', h'⟩ := ih
    obtain ⟨hr⟩ := hstep
    exact ⟨_, h'.call (.call ⟨hr, rfl⟩) rfl⟩
  | beside _ hw ih => exact hw ▸ ih

/-- A run, with what is known of its answers. -/
theorem Trace.guarded {G : (op : Op) → Resp op → Prop} {p p' : Proc Op Resp ε α} {w w' : W}
    {tr : List (Event Op Resp W)} (h : Trace answers Eq p w tr p' w')
    (hG : ∀ c ∈ p'.hist, G c.1 c.2) :
    Trace (fun op w r w' => answers op w r w' ∧ G op r) Eq p w tr p' w' := by
  induction h with
  | start => exact .start
  | call _ hstep hc ih =>
    rw [hc] at hG
    have hrest := ih fun c hin => hG c (List.mem_cons_of_mem _ hin)
    obtain ⟨hans⟩ := hstep
    obtain ⟨rfl, -⟩ := List.cons.inj hc
    exact hrest.call (.call ⟨hans, hG _ (List.mem_cons_self ..)⟩) rfl
  | beside _ hw ih => exact hw ▸ ih hG

/-- A run whose answers are guarded. -/
theorem Trace.unguarded {G : (op : Op) → Resp op → Prop} {p p' : Proc Op Resp ε α} {w w' : W}
    {tr : List (Event Op Resp W)}
    (h : Trace (fun op w r w' => answers op w r w' ∧ G op r) Eq p w tr p' w')
    (hp : ∀ c ∈ p.hist, G c.1 c.2) :
    Trace answers Eq p w tr p' w' ∧ ∀ c ∈ p'.hist, G c.1 c.2 := by
  induction h with
  | start => exact ⟨.start, hp⟩
  | call _ hstep hc ih =>
    obtain ⟨hans, hG⟩ := hstep
    obtain ⟨rfl, -⟩ := List.cons.inj hc
    refine ⟨ih.1.call (.call hans) rfl, fun c hin => ?_⟩
    rcases List.mem_cons.mp hin with rfl | hin
    · exact hG
    · exact ih.2 c hin
  | beside _ hw ih => exact hw ▸ ih

/-- A run that has returned did so with `Q`. -/
theorem Trace.returns {p p' : Proc Op Resp ε α} {w w' : W} {tr : List (Event Op Resp W)} {a : α}
    (h : Trace answers Eq p w tr p' w') (he : p.prog.Ensures answers J w Q E)
    (hdone : p'.prog = .done a) : Q a w' := by
  have hend := h.ensures he
  rw [hdone] at hend
  exact hend

/-- At every point of a run: `J`, unless it has ended. -/
theorem Trace.meets {p p' : Proc Op Resp ε α} {w w' : W} {tr : List (Event Op Resp W)}
    (h : Trace answers Eq p w tr p' w') (he : p.prog.Ensures answers J w Q E)
    (hQ : ∀ a w, Q a w → J w) (hE : ∀ e w, E e w → J w) : J w' := by
  have hend := h.ensures he
  cases hprog : p'.prog with
  | done a =>
    rw [hprog] at hend
    exact hQ a w' hend
  | fail e =>
    rw [hprog] at hend
    exact hE e w' hend
  | call op k =>
    rw [hprog] at hend
    exact hend.1

end Proc

-- ---------------------------------------------------------------------------
-- Runs that some answers lead to
-- ---------------------------------------------------------------------------

namespace Prog

variable {Op : Type} {Resp : Op → Type} {ε α β W : Type}

/-- From world `w` on some answers lead to a return with `Q`. -/
def Reaches (answers : (op : Op) → W → Resp op → W → Prop) :
    Prog Op Resp ε α → W → (α → W → Prop) → Prop
  | done a, w, Q => Q a w
  | fail _, _, _ => False
  | call op k, w, Q => ∃ r w', answers op w r w' ∧ Reaches answers (k r) w' Q

/-- The program run on computed answers: what it returns, and the world then. -/
def serve (answer : (op : Op) → W → Option (Resp op × W)) : Prog Op Resp ε α → W → Option (α × W)
  | done a, w => some (a, w)
  | fail _, _ => none
  | call op k, w => (answer op w).bind fun x => serve answer (k x.1) x.2

variable {answers : (op : Op) → W → Resp op → W → Prop} {w w' : W}

theorem Reaches.pure {a : α} {Q : α → W → Prop} (h : Q a w) :
    Reaches answers (Pure.pure a : Prog Op Resp ε α) w Q := h

theorem Reaches.mono {p : Prog Op Resp ε α} {Q Q' : α → W → Prop} (h : Reaches answers p w Q)
    (hQ : ∀ a w, Q a w → Q' a w) : Reaches answers p w Q' := by
  induction p generalizing w with
  | done a => exact hQ a w h
  | fail e => exact h
  | call op k ih =>
    obtain ⟨r, w', hr, hrest⟩ := h
    exact ⟨r, w', hr, ih r hrest⟩

theorem Reaches.bind {p : Prog Op Resp ε α} {f : α → Prog Op Resp ε β} {R : α → W → Prop}
    {Q : β → W → Prop} (h : Reaches answers p w R)
    (hf : ∀ a w', R a w' → Reaches answers (f a) w' Q) : Reaches answers (p >>= f) w Q := by
  induction p generalizing w with
  | done a => exact hf a w h
  | fail e => exact h.elim
  | call op k ih =>
    obtain ⟨r, w', hr, hrest⟩ := h
    exact ⟨r, w', hr, ih r hrest⟩

theorem Reaches.attempt {p : Prog Op Resp ε α} {Q : Except ε α → W → Prop}
    (h : Reaches answers p w fun a w' => Q (.ok a) w') : Reaches answers (attempt p) w Q := by
  induction p generalizing w with
  | done a => exact h
  | fail e => exact h.elim
  | call op k ih =>
    obtain ⟨r, w', hr, hrest⟩ := h
    exact ⟨r, w', hr, ih r hrest⟩

/-- A loop with an invariant over what it carries. -/
theorem reaches_foldl {f : α → β → Prog Op Resp ε α} {I : α → W → Prop} :
    ∀ {bs : List β} {a : α} {w : W}, (∀ b ∈ bs, ∀ a w, I a w → Reaches answers (f a b) w I) →
      I a w → Reaches answers (foldl f a bs) w I
  | [], _, _, _, hI => hI
  | b :: _, a, w, hf, hI =>
    (hf b (List.mem_cons_self ..) a w hI).bind fun _ _ hI' =>
      reaches_foldl (fun b' hb' => hf b' (List.mem_cons_of_mem _ hb')) hI'

theorem reaches_of_serve {answer : (op : Op) → W → Option (Resp op × W)}
    (hans : ∀ op w r w', answer op w = some (r, w') → answers op w r w')
    {p : Prog Op Resp ε α} {a : α} (h : serve answer p w = some (a, w')) :
    Reaches answers p w fun b x => b = a ∧ x = w' := by
  induction p generalizing w with
  | done b =>
    obtain ⟨rfl, rfl⟩ := Prod.mk.inj (Option.some.inj h)
    exact ⟨rfl, rfl⟩
  | fail e => cases h
  | call op k ih =>
    obtain ⟨⟨r, w₁⟩, hr, hrest⟩ := Option.bind_eq_some_iff.mp h
    exact ⟨r, w₁, hans op w r w₁ hr, ih r hrest⟩

/-- A return that some answers lead to is one that all answers lead to `Q` at. -/
theorem Reaches.ensured {J : W → Prop} {p : Prog Op Resp ε α} {Q R : α → W → Prop}
    {E : ε → W → Prop} (h : Reaches answers p w R) (he : Ensures answers J p w Q E) :
    ∃ a w', R a w' ∧ Q a w' := by
  induction p generalizing w with
  | done a => exact ⟨a, w, h, he⟩
  | fail e => exact h.elim
  | call op k ih =>
    obtain ⟨r, w', hr, hrest⟩ := h
    exact ih r hrest (he.2 r w' hr)

/-- The run, in a world with what a watch sees. -/
theorem Reaches.trace {V : Type} {M : Watch Op Resp V} {Q : α → W × V → Prop}
    {p₀ : Proc Op Resp ε α} {w₀ : W} {p : Prog Op Resp ε α} :
    ∀ {hist : History Op Resp} {w : W} {tr : List (Event Op Resp W)},
      Proc.Trace answers Eq p₀ w₀ tr ⟨p, hist⟩ w →
      Reaches (M.answers answers) p (w, M.view hist) Q →
      ∃ tr' p' w' a, Proc.Trace answers Eq p₀ w₀ tr' p' w' ∧ p'.prog = .done a ∧
        Q a (w', M.view p'.hist) := by
  induction p with
  | done a =>
    intro hist w tr h hQ
    exact ⟨tr, ⟨.done a, hist⟩, w, a, h, rfl, hQ⟩
  | fail e =>
    intro hist w tr h hQ
    exact hQ.elim
  | call op k ih =>
    rintro hist w tr h ⟨r, ⟨w', v⟩, ⟨hr, hv⟩, hrest⟩
    obtain rfl : v = M.view (⟨op, r⟩ :: hist) := hv
    exact ih r (h.call (.call hr) rfl) hrest

/-- Some answers lead from `w` to this outcome in `w'`. -/
def Runs (answers : (op : Op) → W → Resp op → W → Prop) :
    Prog Op Resp ε α → W → Except ε α → W → Prop
  | done a, w, out, w' => out = .ok a ∧ w' = w
  | fail e, w, out, w' => out = .error e ∧ w' = w
  | call op k, w, out, w' => ∃ r w₁, answers op w r w₁ ∧ Runs answers (k r) w₁ out w'

theorem Runs.bind {p : Prog Op Resp ε α} {f : α → Prog Op Resp ε β} {a : α} {out : Except ε β}
    {w₁ : W} (h : Runs answers p w (.ok a) w₁) (hf : Runs answers (f a) w₁ out w') :
    Runs answers (p >>= f) w out w' := by
  induction p generalizing w with
  | done b =>
    obtain ⟨hb, rfl⟩ := h
    obtain rfl := Except.ok.inj hb
    exact hf
  | fail e => cases h.1
  | call op k ih =>
    obtain ⟨r, w₂, hr, hrest⟩ := h
    exact ⟨r, w₂, hr, ih r hrest⟩

/-- An attempt hands on either outcome as a value. -/
theorem Runs.attempt {p : Prog Op Resp ε α} {out : Except ε α} (h : Runs answers p w out w') :
    Runs answers (attempt p) w (.ok out) w' := by
  induction p generalizing w with
  | done a => exact ⟨congrArg _ h.1, h.2⟩
  | fail e => exact ⟨congrArg _ h.1, h.2⟩
  | call op k ih =>
    obtain ⟨r, w₂, hr, hrest⟩ := h
    exact ⟨r, w₂, hr, ih r hrest⟩

/-- The outcome of one run is as that of every run. -/
theorem Runs.ensured {J : W → Prop} {p : Prog Op Resp ε α} {a : α} {Q : α → W → Prop}
    {E : ε → W → Prop} (h : Runs answers p w (.ok a) w') (he : Ensures answers J p w Q E) :
    Q a w' := by
  induction p generalizing w with
  | done b =>
    obtain ⟨hb, rfl⟩ := h
    obtain rfl := Except.ok.inj hb
    exact he
  | fail e => cases h.1
  | call op k ih =>
    obtain ⟨r, w₁, hr, hrest⟩ := h
    exact ih r hrest (he.2 r w₁ hr)

end Prog

end Lib
