import Chbk.Safety.Schedule

/-!
# Giving the lock back

`release` reads the lock object and deletes it, unless it has read that the lock
is another's.

* `release_eq` — the two calls of `release`.
* `ReleaseState`, `releaseState_step` — what is left of it after each.
* `release_spares` — when the lock of another instance stays.
-/

namespace Chbk

open Lib

-- ---------------------------------------------------------------------------
-- The two calls
-- ---------------------------------------------------------------------------

/-- What `release` goes on with when the GET is answered. -/
def afterGet (id : String) : Except SdkError Body → P Unit
  | .ok (.lock existing) => if existing.instanceId ≠ id then .done () else dropLock
  | _ => dropLock

theorem release_eq (id : String) :
    release id = .call (.s3 (.getObject LOCK_KEY)) (afterGet id) := by
  show Prog.call _ _ = Prog.call _ _
  congr 1
  funext r
  cases r with
  | error e => rfl
  | ok body =>
    cases body with
    | lock info => rfl
    | manifest m => rfl
    | data bs => rfl

theorem dropLock_eq : dropLock = .call (.s3 (.deleteObject LOCK_KEY)) fun _ => .done () := by
  show Prog.call _ _ = Prog.call _ _
  congr 1
  funext r
  cases r with
  | error e => rfl
  | ok u => rfl

/-- The lock object is a record of another instance. -/
def Foreign (id : String) (w : World) : Prop :=
  ∃ o info, w.get? LOCK_KEY = some o ∧ o.body = .lock info ∧ info.instanceId ≠ id

/-- The call asks for the deletion of the lock object. -/
def DeletesLock (x : Event Op Resp World) : Prop := x.call.1 = .s3 (.deleteObject LOCK_KEY)

/-- The GET of the lock object fails. -/
def GetFails (x : Event Op Resp World) : Prop :=
  ∃ e, x.call = ⟨.s3 (.getObject LOCK_KEY), .error e⟩

/-- The call asks for the lock object. -/
def GetsLock (x : Event Op Resp World) : Prop := x.call.1 = .s3 (.getObject LOCK_KEY)

-- ---------------------------------------------------------------------------
-- Runs
-- ---------------------------------------------------------------------------

variable {id : String}

/-- A GET that does not fail on another's lock is followed by a DELETE only of a
lock that is not another's. -/
theorem afterGet_cases {r : Except SdkError Body} {w w' : World}
    (h : S3Answers (.getObject LOCK_KEY) w r w') (hfail : (∃ e, r = .error e) → ¬ Foreign id w) :
    afterGet id r = dropLock ∧ ¬ Foreign id w' ∨ afterGet id r = .done () := by
  -- the GET leaves the world as it is
  have hsame : ((S3Op.getObject LOCK_KEY).perform w).2 = w := by
    simp only [S3Op.perform]
    split <;> rfl
  have hworld : w' = w := by
    cases r with
    | ok body => exact (congrArg Prod.snd h).symm.trans hsame
    | error e =>
      rcases h with h | h
      · exact (congrArg Prod.snd h).symm.trans hsame
      · rcases h with rfl | rfl
        · rfl
        · exact hsame
  subst hworld
  cases r with
  | error e => exact .inl ⟨rfl, hfail ⟨e, rfl⟩⟩
  | ok body =>
    have hbody : ∃ o, w'.get? LOCK_KEY = some o ∧ o.body = body := by
      have hperform : (S3Op.getObject LOCK_KEY).perform w' = (.ok body, w') := h
      simp only [S3Op.perform] at hperform
      split at hperform
      · rename_i o ho
        exact ⟨o, ho, Except.ok.inj (Prod.mk.inj hperform).1⟩
      · cases (Prod.mk.inj hperform).1
    obtain ⟨o, ho, hbody⟩ := hbody
    -- a lock record with no other name in it is not another's
    have hown : (∀ info, body = .lock info → info.instanceId = id) → ¬ Foreign id w' := by
      rintro hname ⟨o', info, ho', hinfo, hne⟩
      rw [ho] at ho'
      obtain rfl := Option.some.inj ho'
      exact hne (hname info (hbody.symm.trans hinfo))
    cases body with
    | lock info =>
      by_cases hname : info.instanceId = id
      · refine .inl ⟨if_neg (not_not.mpr hname), hown ?_⟩
        rintro info' ⟨⟩
        exact hname
      · exact .inr (if_pos hname)
    | manifest m => exact .inl ⟨rfl, hown fun _ h => by cases h⟩
    | data bs => exact .inl ⟨rfl, hown fun _ h => by cases h⟩

/-- Where `release` is: before its GET, behind a GET of a lock that is not
another's, or at its end. -/
def ReleaseState (id : String) (p : Proc Op Resp AnyError Unit)
    (tr : List (Event Op Resp World)) : Prop :=
  p.prog = release id ∨
    p.prog = dropLock ∧ (∃ x ∈ tr, GetsLock x ∧ ¬ Foreign id x.after) ∨ p.prog = .done ()

/-- One call of `release`: it keeps to its states, and its DELETE comes behind
its GET. -/
theorem releaseState_step {p p' : Proc Op Resp AnyError Unit} {w w' : World} {c : Called Op Resp}
    {tr : List (Event Op Resp World)} (hstate : ReleaseState id p tr) (hstep : p.Step Answers w p' w')
    (hc : p'.hist = c :: p.hist) (hfail : GetFails ⟨p.hist, w, c, w'⟩ → ¬ Foreign id w) :
    ReleaseState id p' (tr ++ [⟨p.hist, w, c, w'⟩]) ∧
      (DeletesLock ⟨p.hist, w, c, w'⟩ → ∃ x ∈ tr, GetsLock x ∧ ¬ Foreign id x.after) := by
  obtain ⟨prog, hist⟩ := p
  rcases hstate with hprog | ⟨hprog, hget⟩ | hprog
  · rw [release_eq] at hprog
    subst hprog
    cases hstep with
    | call h =>
      obtain rfl := (List.cons.inj hc).1
      refine ⟨?_, fun hdel => by cases hdel⟩
      rcases afterGet_cases h (fun ⟨e, he⟩ => hfail ⟨e, he ▸ rfl⟩) with ⟨heq, hown⟩ | heq
      · exact .inr (.inl ⟨heq, _, List.mem_append_right _ (List.mem_singleton.mpr rfl), rfl, hown⟩)
      · exact .inr (.inr heq)
  · rw [dropLock_eq] at hprog
    subst hprog
    cases hstep with
    | call h => exact ⟨.inr (.inr rfl), fun _ => hget⟩
  · subst hprog
    cases hstep

/-- The lock of another instance stays: as long as the GET does not fail on it,
and it does not come in between the GET and the DELETE. -/
theorem release_spares {beside : World → World → Prop} {tr : List (Event Op Resp World)}
    {p : Proc Op Resp AnyError Unit} {w w' : World}
    (hrun : Proc.Trace Answers beside ⟨release id, []⟩ w tr p w')
    (hfail : ∀ x ∈ tr, GetFails x → ¬ Foreign id x.before)
    (hbetween : ∀ x ∈ tr, ∀ y ∈ tr, GetsLock x → DeletesLock y → Foreign id y.before →
      Foreign id x.after) :
    ∀ x ∈ tr, DeletesLock x → ¬ Foreign id x.before := by
  suffices h : ReleaseState id p tr ∧
      ∀ y ∈ tr, DeletesLock y → ∃ x ∈ tr, GetsLock x ∧ ¬ Foreign id x.after by
    intro y hy hdel hforeign
    obtain ⟨x, hx, hget, hown⟩ := h.2 y hy hdel
    exact hown (hbetween x hx y hy hget hdel hforeign)
  clear hbetween
  induction hrun with
  | start => exact ⟨.inl rfl, by simp⟩
  | call _ hstep hc ih =>
    obtain ⟨hstate, hbehind⟩ := ih fun x hx => hfail x (List.mem_append_left _ hx)
    obtain ⟨hstate', hdel⟩ := releaseState_step hstate hstep hc (hfail _ (by simp))
    refine ⟨hstate', fun y hy hy' => ?_⟩
    rcases List.mem_append.mp hy with hy | hy
    · obtain ⟨x, hx, hget⟩ := hbehind y hy hy'
      exact ⟨x, List.mem_append_left _ hx, hget⟩
    · rw [List.mem_singleton.mp hy] at hy'
      obtain ⟨x, hx, hget⟩ := hdel hy'
      exact ⟨x, List.mem_append_left _ hx, hget⟩
  | beside _ hw ih => exact ih hfail

/-- A bucket with the lock of an instance, and nothing else. -/
def lockedBy (owner : String) : World where
  objects := [(LOCK_KEY, ⟨.lock ⟨owner, "host", 0, 60⟩, 0, 0⟩)]
  fresh := 1

theorem foreign_lockedBy {owner : String} (h : owner ≠ id) : Foreign id (lockedBy owner) :=
  ⟨_, _, rfl, rfl, h⟩

/-- A GET of the lock object and a DELETE of it. -/
def getAndDrop (w : World) (r : Except SdkError Body) : List (Event Op Resp World) :=
  [⟨[], w, ⟨.s3 (.getObject LOCK_KEY), r⟩, w⟩,
    ⟨[⟨.s3 (.getObject LOCK_KEY), r⟩], w, ⟨.s3 (.deleteObject LOCK_KEY), .ok ()⟩, w.erase LOCK_KEY⟩]

theorem release_run {a : Answer} {w : World} {r : Except SdkError Body}
    (hrun : (runAlone [a, served] [] ⟨release id, []⟩ w).map (fun x => (x.1, x.2.2)) =
      some (getAndDrop w r, w.erase LOCK_KEY)) :
    ∃ p, Proc.Trace Answers Eq ⟨release id, []⟩ w (getAndDrop w r) p (w.erase LOCK_KEY) := by
  obtain ⟨⟨tr, p, w'⟩, hx, he⟩ := Option.map_eq_some_iff.mp hrun
  obtain ⟨rfl, rfl⟩ := Prod.mk.inj he
  exact ⟨p, trace_of_runAlone .start hx⟩

/-- An instance gives its own lock back. -/
theorem release_spares_own : ∃ p, Proc.Trace Answers Eq ⟨release "a", []⟩ (lockedBy "a")
      (getAndDrop (lockedBy "a") (.ok (.lock ⟨"a", "host", 0, 60⟩))) p
      ((lockedBy "a").erase LOCK_KEY) ∧
    ∀ x ∈ getAndDrop (lockedBy "a") (.ok (.lock ⟨"a", "host", 0, 60⟩)), DeletesLock x →
      ¬ Foreign "a" x.before := by
  obtain ⟨p, hrun⟩ := @release_run "a" served (lockedBy "a")
    (.ok (.lock ⟨"a", "host", 0, 60⟩)) rfl
  refine ⟨p, hrun, release_spares hrun ?_ ?_⟩
  · intro x hx ⟨e, he⟩
    rcases List.mem_cons.mp hx with rfl | hx
    · cases he
    · rw [List.mem_singleton.mp hx] at he
      cases he
  · intro x hx y hy hget hdel hforeign
    rcases List.mem_cons.mp hx with rfl | hx
    · rcases List.mem_cons.mp hy with rfl | hy
      · exact hforeign
      · rw [List.mem_singleton.mp hy] at hforeign
        exact hforeign
    · rw [List.mem_singleton.mp hx] at hget
      cases hget

/-- A GET that fails, and the lock of another instance is gone. -/
theorem release_removes_foreign : ∃ tr p w', Proc.Trace Answers Eq ⟨release "a", []⟩
      (lockedBy "b") tr p w' ∧
    (∃ x ∈ tr, DeletesLock x ∧ Foreign "a" x.before) ∧ w'.get? LOCK_KEY = none := by
  obtain ⟨p, hrun⟩ := @release_run "a" (lost false) (lockedBy "b")
    (.error .timeoutError) rfl
  exact ⟨_, p, _, hrun, ⟨_, List.mem_cons_of_mem _ (List.mem_cons_self ..), rfl,
    foreign_lockedBy (by decide)⟩, rfl⟩

end Chbk
