import Mathlib.Data.List.InsertIdx
import Mathlib.Data.List.Permutation

/-!
# Programs over calls, and the rules they follow

A command that talks to the outside world is a tree: it is done, it has
failed, or it issues a call and goes on from the answer. `Prog` is that tree;
its `bind` is the `?` of the source language (a failure skips the rest).

What a program may do is stated over a `Watch`, which sees the calls and their
answers, and a rule which calls are allowed in which view. `Follows` says that a
program only ever issues allowed calls, whatever the answers; it is a weakest
precondition over views, computed by recursion on the tree, so it composes along
`bind` and along loops.

* `Prog.Follows.bind`, `Prog.Follows.mono` — sequencing and consequence.
* `Prog.Only.follows` — calls of one kind, which the view does not notice.
* `Prog.Follows.keeps` — the frame rule: what the calls keep of the view.
* `Prog.follows_collect`, `Prog.follows_foldl` — loops, with an invariant over
  the part of the list already done.
* `Prog.CanReturn` — what a program can return; with it, exactly when a sequence
  or a loop issues calls of one kind only.
* `reorder` — the order in which the members of a concurrent batch are served;
  every permutation is one (`reorder_surjective`), and nothing else is
  (`reorder_perm`).
-/

namespace Lib

/-! ## Programs -/

/-- A program that issues calls `op`, each answered by a `Resp op`, fails with
an `ε` or returns an `α`. -/
inductive Prog (Op : Type) (Resp : Op → Type) (ε α : Type) : Type where
  | done (a : α)
  | fail (e : ε)
  | call (op : Op) (k : Resp op → Prog Op Resp ε α)

namespace Prog

variable {Op : Type} {Resp : Op → Type} {ε α β γ : Type}

/-- Run the rest on the result; a failure skips it. -/
def bind : Prog Op Resp ε α → (α → Prog Op Resp ε β) → Prog Op Resp ε β
  | done a, f => f a
  | fail e, _ => fail e
  | call op k, f => call op fun r => bind (k r) f

instance : Monad (Prog Op Resp ε) where
  pure := done
  bind := bind

/-- Issue one call and return its answer. -/
def ask (op : Op) : Prog Op Resp ε (Resp op) := call op done

/-- Run a program and return its outcome; the result never fails. -/
def attempt : Prog Op Resp ε α → Prog Op Resp ε (Except ε α)
  | done a => done (.ok a)
  | fail e => done (.error e)
  | call op k => call op fun r => attempt (k r)

instance : MonadExcept ε (Prog Op Resp ε) where
  throw := fail
  tryCatch p h := bind (attempt p) fun
    | .ok a => done a
    | .error e => h e

/-- Replace the failure of a program (`with_context`). -/
def mapFail (g : ε → ε) : Prog Op Resp ε α → Prog Op Resp ε α
  | done a => done a
  | fail e => fail (g e)
  | call op k => call op fun r => mapFail g (k r)

/-- Run `f` on each element in order and return the results in order. -/
def collect (f : β → Prog Op Resp ε γ) : List β → Prog Op Resp ε (List γ)
  | [] => done []
  | b :: bs => do
    let c ← f b
    let cs ← collect f bs
    return c :: cs

/-- A loop over a list that carries a value from one round to the next. -/
def foldl (f : α → β → Prog Op Resp ε α) : α → List β → Prog Op Resp ε α
  | a, [] => done a
  | a, b :: bs => do
    let a' ← f a b
    foldl f a' bs

theorem bind_bind {p : Prog Op Resp ε α} {f : α → Prog Op Resp ε β} {g : β → Prog Op Resp ε γ} :
    p >>= f >>= g = p >>= fun a => f a >>= g := by
  induction p with
  | done a => rfl
  | fail e => rfl
  | call op k ih => exact congrArg (call op) (funext ih)

end Prog

/-! ## Watches and rules -/

/-- A watcher of a program's calls: what it has seen before the first call, and
what each answered call adds. -/
structure Watch (Op : Type) (Resp : Op → Type) (V : Type) where
  init : V
  observe : V → (op : Op) → Resp op → V

namespace Prog

variable {Op : Type} {Resp : Op → Type} {ε α β γ V : Type}

/-- From view `v` on, `p` issues only calls the rule allows, returns with `Q` and
fails with `E`, whatever the answers. -/
def Follows (M : Watch Op Resp V) (rule : V → Op → Prop) :
    Prog Op Resp ε α → V → (α → V → Prop) → (ε → V → Prop) → Prop
  | done a, v, Q, _ => Q a v
  | fail e, v, _, E => E e v
  | call op k, v, Q, E => rule v op ∧ ∀ r, Follows M rule (k r) (M.observe v op r) Q E

section

variable {M : Watch Op Resp V} {rule : V → Op → Prop} {v : V}

theorem Follows.done {a : α} {Q : α → V → Prop} {E : ε → V → Prop} (h : Q a v) :
    Follows M rule (Prog.done a : Prog Op Resp ε α) v Q E := h

theorem Follows.pure {a : α} {Q : α → V → Prop} {E : ε → V → Prop} (h : Q a v) :
    Follows M rule (Pure.pure a : Prog Op Resp ε α) v Q E := h

theorem Follows.throw {e : ε} {Q : α → V → Prop} {E : ε → V → Prop} (h : E e v) :
    Follows M rule (throw e : Prog Op Resp ε α) v Q E := h

/-- Consequence. -/
theorem Follows.mono {p : Prog Op Resp ε α} {Q Q' : α → V → Prop} {E E' : ε → V → Prop}
    (h : Follows M rule p v Q E) (hQ : ∀ a v', Q a v' → Q' a v') (hE : ∀ e v', E e v' → E' e v') :
    Follows M rule p v Q' E' := by
  induction p generalizing v with
  | done a => exact hQ a v h
  | fail e => exact hE e v h
  | call op k ih => exact ⟨h.1, fun r => ih r (h.2 r)⟩

/-- A program that follows a rule follows every weaker one. -/
theorem Follows.weaken {rule' : V → Op → Prop} {p : Prog Op Resp ε α} {Q : α → V → Prop}
    {E : ε → V → Prop} (h : Follows M rule p v Q E) (hr : ∀ v op, rule v op → rule' v op) :
    Follows M rule' p v Q E := by
  induction p generalizing v with
  | done a => exact h
  | fail e => exact h
  | call op k ih => exact ⟨hr v op h.1, fun r => ih r (h.2 r)⟩

/-- Sequencing: the rest is run on what the first part returns. -/
theorem Follows.bind {p : Prog Op Resp ε α} {f : α → Prog Op Resp ε β}
    {R : α → V → Prop} {Q : β → V → Prop} {E : ε → V → Prop}
    (h : Follows M rule p v R E) (hf : ∀ a v', R a v' → Follows M rule (f a) v' Q E) :
    Follows M rule (p >>= f) v Q E := by
  induction p generalizing v with
  | done a => exact hf a v h
  | fail e => exact h
  | call op k ih => exact ⟨h.1, fun r => ih r (h.2 r)⟩

theorem Follows.ask {op : Op} {Q : Resp op → V → Prop} {E : ε → V → Prop}
    (ha : rule v op) (h : ∀ r, Q r (M.observe v op r)) :
    Follows M rule (ask op : Prog Op Resp ε (Resp op)) v Q E :=
  ⟨ha, h⟩

/-- An attempt follows the rule when the program does, with either outcome
handed on as a value. -/
theorem Follows.attempt {p : Prog Op Resp ε α} {Q : Except ε α → V → Prop} {E : ε → V → Prop}
    (h : Follows M rule p v (fun a v' => Q (.ok a) v') (fun e v' => Q (.error e) v')) :
    Follows M rule (attempt p) v Q E := by
  induction p generalizing v with
  | done a => exact h
  | fail e => exact h
  | call op k ih => exact ⟨h.1, fun r => ih r (h.2 r)⟩

theorem Follows.mapFail {p : Prog Op Resp ε α} {g : ε → ε} {Q : α → V → Prop}
    {E : ε → V → Prop} (h : Follows M rule p v Q (fun e v' => E (g e) v')) :
    Follows M rule (mapFail g p) v Q E := by
  induction p generalizing v with
  | done a => exact h
  | fail e => exact h
  | call op k ih => exact ⟨h.1, fun r => ih r (h.2 r)⟩

/-- A loop that collects results, with an invariant over the elements already
done and their results. -/
theorem follows_collect {f : β → Prog Op Resp ε γ} {E : ε → V → Prop}
    (I : List β → List γ → V → Prop) {bs : List β}
    (hf : ∀ pre cs b post v, bs = pre ++ b :: post → I pre cs v →
      Follows M rule (f b) v (fun c v' => I (pre ++ [b]) (cs ++ [c]) v') E)
    {v : V} (hI : I [] [] v) :
    Follows M rule (collect f bs) v (fun cs v' => I bs cs v') E := by
  suffices h : ∀ post pre cs v, bs = pre ++ post → I pre cs v →
      Follows M rule (collect f post) v (fun cs' v' => I bs (cs ++ cs') v') E by
    simpa using h bs [] [] v rfl hI
  intro post
  induction post with
  | nil =>
    intro pre cs v hbs hI
    simpa [collect, Follows, hbs] using hI
  | cons b post ih =>
    intro pre cs v hbs hI
    refine Follows.bind (hf pre cs b post v hbs hI) fun c v' hI' => ?_
    refine Follows.bind (ih (pre ++ [b]) (cs ++ [c]) v' (by simpa using hbs) hI') ?_
    intro cs' v'' hI''
    exact Follows.pure (by simpa using hI'')

/-- A loop that carries a value, with an invariant of the value. -/
theorem follows_foldl {f : α → β → Prog Op Resp ε α} {E : ε → V → Prop} (I : α → V → Prop) :
    ∀ (bs : List β) (a : α) (v : V),
      (∀ a b v, b ∈ bs → I a v → Follows M rule (f a b) v I E) →
      I a v →
      Follows M rule (foldl f a bs) v I E
  | [], _, _, _, hI => hI
  | b :: bs, a, v, hf, hI =>
    Follows.bind (hf a b v (List.mem_cons_self ..) hI) fun a' v' hI' =>
      follows_foldl I bs a' v' (fun a b v hb => hf a b v (List.mem_cons_of_mem _ hb)) hI'

end

/-! ### Calls of one kind -/

/-- Every call `p` can come to is one of `S`. -/
def Only (S : Op → Prop) : Prog Op Resp ε α → Prop
  | done _ => True
  | fail _ => True
  | call op k => S op ∧ ∀ r, Only S (k r)

section

variable {S : Op → Prop}

theorem only_done (a : α) : Only S (Prog.done a : Prog Op Resp ε α) := trivial

theorem only_pure (a : α) : Only S (Pure.pure a : Prog Op Resp ε α) := trivial

theorem only_throw (e : ε) : Only S (throw e : Prog Op Resp ε α) := trivial

theorem only_ask {op : Op} (h : S op) : Only S (ask op : Prog Op Resp ε (Resp op)) :=
  ⟨h, fun _ => trivial⟩

theorem Only.bind {p : Prog Op Resp ε α} {f : α → Prog Op Resp ε β} (h : Only S p)
    (hf : ∀ a, Only S (f a)) : Only S (p >>= f) := by
  induction p with
  | done a => exact hf a
  | fail e => trivial
  | call op k ih => exact ⟨h.1, fun r => ih r (h.2 r)⟩

theorem Only.attempt {p : Prog Op Resp ε α} (h : Only S p) : Only S (attempt p) := by
  induction p with
  | done a => trivial
  | fail e => trivial
  | call op k ih => exact ⟨h.1, fun r => ih r (h.2 r)⟩

theorem Only.mapFail {p : Prog Op Resp ε α} {g : ε → ε} (h : Only S p) :
    Only S (mapFail g p) := by
  induction p with
  | done a => trivial
  | fail e => trivial
  | call op k ih => exact ⟨h.1, fun r => ih r (h.2 r)⟩

theorem only_collect {f : β → Prog Op Resp ε γ} :
    ∀ {bs : List β}, (∀ b ∈ bs, Only S (f b)) → Only S (collect f bs)
  | [], _ => trivial
  | b :: _, h => (h b (List.mem_cons_self ..)).bind fun _ =>
    (only_collect fun b hb => h b (List.mem_cons_of_mem _ hb)).bind fun _ => only_pure _

theorem only_foldl {f : α → β → Prog Op Resp ε α} : ∀ {bs : List β} {a : α},
    (∀ a, ∀ b ∈ bs, Only S (f a b)) → Only S (foldl f a bs)
  | [], _, _ => trivial
  | b :: _, a, h => (h a b (List.mem_cons_self ..)).bind fun _ =>
    only_foldl fun a' b' hb => h a' b' (List.mem_cons_of_mem _ hb)

theorem Only.mono {S' : Op → Prop} {p : Prog Op Resp ε α} (h : Only S p)
    (hS : ∀ op, S op → S' op) : Only S' p := by
  induction p with
  | done a => trivial
  | fail e => trivial
  | call op k ih => exact ⟨hS op h.1, fun r => ih r (h.2 r)⟩

theorem only_true (p : Prog Op Resp ε α) : Only (fun _ => True) p := by
  induction p with
  | done a => trivial
  | fail e => trivial
  | call op k ih => exact ⟨trivial, ih⟩

/-- Calls that are always allowed and keep a property of the view. -/
theorem Only.follows {M : Watch Op Resp V} {rule : V → Op → Prop} {I : V → Prop}
    {p : Prog Op Resp ε α} (h : Only S p) (hrule : ∀ v op, S op → I v → rule v op)
    (hobs : ∀ v op r, S op → I v → I (M.observe v op r)) {v : V} (hI : I v) :
    Follows M rule p v (fun _ v' => I v') (fun _ v' => I v') := by
  induction p generalizing v with
  | done a => exact hI
  | fail e => exact hI
  | call op k ih => exact ⟨hrule v op h.1 hI, fun r => ih r (h.2 r) (hobs v op r h.1 hI)⟩

/-- The frame of a program: what its calls keep of the view is kept by it. -/
theorem Follows.keeps {M : Watch Op Resp V} {rule : V → Op → Prop} {I : V → Prop}
    {p : Prog Op Resp ε α} {v : V} {Q : α → V → Prop} {E : ε → V → Prop}
    (h : Follows M rule p v Q E) (hS : Only S p)
    (hobs : ∀ v op r, S op → I v → I (M.observe v op r)) (hI : I v) :
    Follows M rule p v (fun a v' => Q a v' ∧ I v') (fun e v' => E e v' ∧ I v') := by
  induction p generalizing v with
  | done a => exact ⟨h, hI⟩
  | fail e => exact ⟨h, hI⟩
  | call op k ih => exact ⟨h.1, fun r => ih r (h.2 r) (hS.2 r) (hobs v op r hS.1 hI)⟩

end

-- ---------------------------------------------------------------------------
-- What a program can return
-- ---------------------------------------------------------------------------

/-- Some answers make `p` return `a`. -/
def CanReturn : Prog Op Resp ε α → α → Prop
  | done b, a => b = a
  | fail _, _ => False
  | call _ k, a => ∃ r, CanReturn (k r) a

section

variable {S : Op → Prop}

/-- The rest of a sequence is come to with each value the first part can return. -/
theorem only_bind_iff {p : Prog Op Resp ε α} {f : α → Prog Op Resp ε β} :
    Only S (p >>= f) ↔ Only S p ∧ ∀ a, CanReturn p a → Only S (f a) := by
  induction p with
  | done a =>
    constructor
    · intro h
      exact ⟨trivial, fun b hb => hb ▸ h⟩
    · intro h
      exact h.2 a rfl
  | fail e => exact ⟨fun _ => ⟨trivial, fun _ hb => hb.elim⟩, fun _ => trivial⟩
  | call op k ih =>
    constructor
    · intro h
      refine ⟨⟨h.1, fun r => ((ih r).mp (h.2 r)).1⟩, ?_⟩
      intro a ⟨r, hr⟩
      exact ((ih r).mp (h.2 r)).2 a hr
    · intro h
      exact ⟨h.1.1, fun r => (ih r).mpr ⟨h.1.2 r, fun a ha => h.2 a ⟨r, ha⟩⟩⟩

theorem canReturn_bind {p : Prog Op Resp ε α} {f : α → Prog Op Resp ε β} {b : β} :
    CanReturn (p >>= f) b ↔ ∃ a, CanReturn p a ∧ CanReturn (f a) b := by
  induction p with
  | done a =>
    constructor
    · intro h
      exact ⟨a, rfl, h⟩
    · intro ⟨a', ha, h⟩
      exact ha ▸ h
  | fail e => exact ⟨fun h => h.elim, fun h => h.elim fun _ h => h.1.elim⟩
  | call op k ih =>
    constructor
    · intro ⟨r, hr⟩
      obtain ⟨a, ha, hb⟩ := (ih r).mp hr
      exact ⟨a, ⟨r, ha⟩, hb⟩
    · intro ⟨a, ⟨r, ha⟩, hb⟩
      exact ⟨r, (ih r).mpr ⟨a, ha, hb⟩⟩

theorem canReturn_pure {a b : α} :
    CanReturn (Pure.pure a : Prog Op Resp ε α) b ↔ a = b := Iff.rfl

theorem canReturn_ask {op : Op} (r : Resp op) :
    CanReturn (ask op : Prog Op Resp ε (Resp op)) r := ⟨r, rfl⟩

theorem CanReturn.mapFail {p : Prog Op Resp ε α} {g : ε → ε} {a : α} (h : CanReturn p a) :
    CanReturn (mapFail g p) a := by
  induction p with
  | done b => exact h
  | fail e => exact h.elim
  | call op k ih =>
    obtain ⟨r, hr⟩ := h
    exact ⟨r, ih r hr⟩

theorem CanReturn.attempt {p : Prog Op Resp ε α} {a : α} (h : CanReturn p a) :
    CanReturn (attempt p) (.ok a) := by
  induction p with
  | done b => exact congrArg Except.ok h
  | fail e => exact h.elim
  | call op k ih =>
    obtain ⟨r, hr⟩ := h
    exact ⟨r, ih r hr⟩

theorem only_attempt_iff {p : Prog Op Resp ε α} : Only S (attempt p) ↔ Only S p := by
  induction p with
  | done a => exact Iff.rfl
  | fail e => exact Iff.rfl
  | call op k ih => exact and_congr_right fun _ => forall_congr' ih

theorem only_mapFail_iff {p : Prog Op Resp ε α} {g : ε → ε} : Only S (mapFail g p) ↔ Only S p := by
  induction p with
  | done a => exact Iff.rfl
  | fail e => exact Iff.rfl
  | call op k ih => exact and_congr_right fun _ => forall_congr' ih

/-- A loop comes to an element when it can get past the ones before it. -/
theorem only_collect_iff {f : β → Prog Op Resp ε γ} : ∀ {bs : List β},
    Only S (collect f bs) ↔ ∀ pre b post, bs = pre ++ b :: post →
      (∀ x ∈ pre, ∃ c, CanReturn (f x) c) → Only S (f b)
  | [] => by simp [collect, Only]
  | b :: bs => by
    unfold collect
    rw [only_bind_iff]
    constructor
    · intro ⟨hb, hrest⟩ pre x post hsplit hpre
      cases pre with
      | nil =>
        rw [List.nil_append, List.cons.injEq] at hsplit
        rw [← hsplit.1]
        exact hb
      | cons y pre =>
        rw [List.cons_append, List.cons.injEq] at hsplit
        obtain ⟨c, hc⟩ := hpre y (List.mem_cons_self ..)
        have hcs := (only_bind_iff.mp (hrest c (hsplit.1 ▸ hc))).1
        exact only_collect_iff.mp hcs pre x post hsplit.2
          fun z hz => hpre z (List.mem_cons_of_mem _ hz)
    · intro h
      refine ⟨h [] b bs rfl (by simp), fun c hc => Only.bind ?_ fun _ => only_pure _⟩
      refine only_collect_iff.mpr fun pre x post hsplit hpre => ?_
      refine h (b :: pre) x post (congrArg (b :: ·) hsplit) fun z hz => ?_
      rcases List.mem_cons.mp hz with rfl | hz
      · exact ⟨c, hc⟩
      · exact hpre z hz

theorem canReturn_collect_map {f : β → Prog Op Resp ε γ} {g : β → γ} {bs : List β}
    (h : ∀ b ∈ bs, CanReturn (f b) (g b)) : CanReturn (collect f bs) (bs.map g) := by
  induction bs with
  | nil => rfl
  | cons b bs ih =>
    have hrest := ih fun x hx => h x (List.mem_cons_of_mem _ hx)
    exact canReturn_bind.mpr ⟨g b, h b (List.mem_cons_self ..),
      canReturn_bind.mpr ⟨bs.map g, hrest, rfl⟩⟩

theorem canReturn_collect {f : β → Prog Op Resp ε γ} {bs : List β} :
    (∃ cs, CanReturn (collect f bs) cs) ↔ ∀ b ∈ bs, ∃ c, CanReturn (f b) c := by
  induction bs with
  | nil =>
    constructor
    · intro _ b hb
      cases hb
    · intro _
      exact ⟨[], rfl⟩
  | cons b bs ih =>
    rw [List.forall_mem_cons, ← ih, collect]
    constructor
    · intro ⟨cs, h⟩
      obtain ⟨c, hc, h⟩ := canReturn_bind.mp h
      obtain ⟨cs', hcs, -⟩ := canReturn_bind.mp h
      exact ⟨⟨c, hc⟩, cs', hcs⟩
    · intro ⟨⟨c, hc⟩, cs, hcs⟩
      exact ⟨c :: cs, canReturn_bind.mpr ⟨c, hc, canReturn_bind.mpr ⟨cs, hcs, rfl⟩⟩⟩

end

end Prog

/-! ## Concurrent batches

A batch of futures that are polled together finishes in some order. `reorder`
turns any list of numbers into such an order. -/

/-- The order in which a batch is served, picked by `idx`: each element is
put at some place among the ones after it. -/
def reorder {α : Type} : List Nat → List α → List α
  | _, [] => []
  | idx, x :: xs => (reorder idx.tail xs).insertIdx (idx.headD 0 % (xs.length + 1)) x

theorem reorder_perm {α : Type} : ∀ (idx : List Nat) (xs : List α), (reorder idx xs).Perm xs
  | _, [] => List.Perm.refl _
  | idx, x :: xs => by
    have ih := reorder_perm idx.tail xs
    have hlen : idx.headD 0 % (xs.length + 1) ≤ (reorder idx.tail xs).length := by
      rw [ih.length_eq]
      exact Nat.le_of_lt_succ (Nat.mod_lt _ (Nat.succ_pos _))
    exact (List.perm_insertIdx x _ hlen).trans (ih.cons x)

@[simp] theorem mem_reorder {α : Type} {idx : List Nat} {xs : List α} {x : α} :
    x ∈ reorder idx xs ↔ x ∈ xs :=
  (reorder_perm idx xs).mem_iff

private theorem insertIdx_length_append {α : Type} (l r : List α) (x : α) :
    (l ++ r).insertIdx l.length x = l ++ x :: r := by
  induction l with
  | nil => rfl
  | cons a l ih => simpa using ih

/-- Every order of the batch is picked by some numbers. -/
theorem reorder_surjective {α : Type} : ∀ (xs ys : List α), ys.Perm xs →
    ∃ idx, reorder idx xs = ys
  | [], ys, h => ⟨[], by rw [h.eq_nil]; rfl⟩
  | x :: xs, ys, h => by
    obtain ⟨l, r, rfl⟩ := List.append_of_mem (h.mem_iff.mpr (List.mem_cons_self ..))
    have hrest : (l ++ r).Perm xs :=
      (List.perm_cons x).mp (List.perm_middle.symm.trans h)
    obtain ⟨idx, hidx⟩ := reorder_surjective xs (l ++ r) hrest
    refine ⟨l.length :: idx, ?_⟩
    have hlt : l.length < xs.length + 1 := by
      have := hrest.length_eq
      simp only [List.length_append] at this
      omega
    simp only [reorder, List.tail_cons, List.headD_cons, hidx, Nat.mod_eq_of_lt hlt]
    exact insertIdx_length_append l r x

end Lib
