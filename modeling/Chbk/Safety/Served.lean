import Chbk.Safety.Reading

/-!
# Cleanup with no call failing

The commands in a bucket nobody else works on: every request does what it says,
and the lock is not lost. A session is the bucket with the lines printed so far.

* `Served` — how the calls are answered.
* `Surely` — a program returns, with a postcondition, where `E` does not hold.
* `surely_withGcLock` — work under a lock that is free is done, and the lock is
  given back.
-/

namespace Chbk

open Lib Prog

-- ---------------------------------------------------------------------------
-- Sessions
-- ---------------------------------------------------------------------------

structure Session where
  world : World
  printed : List String

/-- A call that does not fail. -/
def Served : (op : Op) → Session → Resp op → Session → Prop
  | .s3 o, s, r, s' => o.perform s.world = (r, s'.world) ∧ s'.printed = s.printed
  | .env (.println line), s, _, s' => s' = { s with printed := s.printed ++ [line] }
  | .env .lockLost, s, lost, s' => lost = false ∧ s' = s
  | .env o, s, r, s' => EnvAnswers o s.world r ∧ s' = s

/-- The program does not panic and returns with `Q`; it fails only where `E`
holds. -/
def Surely {α : Type} (p : P α) (s : Session) (Q : α → Session → Prop) (E : Prop) : Prop :=
  Returns Served p s Q fun _ _ => E

variable {α β : Type} {s : Session} {E : Prop}

namespace Surely

theorem pure {a : α} {Q : α → Session → Prop} (h : Q a s) : Surely (Pure.pure a) s Q E := h

theorem throw {e : AnyError} {Q : α → Session → Prop} (h : E) :
    Surely (MonadExcept.throw e : P α) s Q E := h

theorem bind {p : P α} {f : α → P β} {R : α → Session → Prop} {Q : β → Session → Prop}
    (h : Surely p s R E) (hf : ∀ a s', R a s' → Surely (f a) s' Q E) : Surely (p >>= f) s Q E :=
  Wp.bind h hf

theorem mono {p : P α} {Q Q' : α → Session → Prop} {E' : Prop} (h : Surely p s Q E)
    (hQ : ∀ a s', Q a s' → Q' a s') (hE : E → E') : Surely p s Q' E' :=
  Wp.mono h (fun _ _ h => h) hQ fun _ _ => hE

theorem mapFail {p : P α} {g : AnyError → AnyError} {Q : α → Session → Prop}
    (h : Surely p s Q E) : Surely (mapFail g p) s Q E :=
  Wp.mapFail h

/-- What surely returns, an attempt returns. -/
theorem attempt {p : P α} {Q : α → Session → Prop} (h : Surely p s Q False) :
    Surely (attempt p) s (fun x s' => ∃ a, x = .ok a ∧ Q a s') E :=
  Wp.attempt (Wp.mono h (fun _ _ h => h) (fun a _ hQ => ⟨a, rfl, hQ⟩) fun _ _ hf => hf.elim)

theorem collect {f : β → P α} (I : List β → List α → Session → Prop) {bs : List β}
    (hf : ∀ pre cs b post s, bs = pre ++ b :: post → I pre cs s →
      Surely (f b) s (fun c s' => I (pre ++ [b]) (cs ++ [c]) s') E) (hI : I [] [] s) :
    Surely (Prog.collect f bs) s (fun cs s' => I bs cs s') E :=
  wp_collect I hf hI

/-- A call that has an answer. -/
theorem ask {op : Op} {Q : Resp op → Session → Prop} (hans : ∃ r s', Served op s r s')
    (h : ∀ r s', Served op s r s' → Q r s') : Surely (Prog.ask op) s Q E :=
  ⟨hans, h⟩

/-- For runs. -/
theorem ensures {p : P α} {Q : α → Session → Prop} (h : Surely p s Q E) :
    Ensures Served (fun _ => True) p s Q fun _ _ => E :=
  Wp.mono h (fun _ _ _ => trivial) (fun _ _ h => h) fun _ _ h => h

/-- A request does what it says. -/
theorem send {o : S3Op} {Q : Except SdkError (S3Ok o) → Session → Prop}
    (h : Q (o.perform s.world).1 ⟨(o.perform s.world).2, s.printed⟩) : Surely (Chbk.send o) s Q E := by
  refine Surely.ask ⟨(o.perform s.world).1, ⟨(o.perform s.world).2, s.printed⟩, rfl, rfl⟩ ?_
  intro r s' hans
  have hs' : s' = ⟨(o.perform s.world).2, s.printed⟩ := by
    obtain ⟨world, printed⟩ := s'
    rw [hans.1]
    exact congrArg (Session.mk _) hans.2
  rw [hs']
  have hr : r = (o.perform s.world).1 := by rw [hans.1]
  rw [hr]
  exact h

theorem orContext {msg : String} {x : Except SdkError α} {a : α} {Q : α → Session → Prop}
    (hx : x = .ok a) (h : Q a s) : Surely (orContext msg x) s Q E := by
  rw [hx]
  exact h

end Surely

theorem surely_utcNow {Q : Int → Session → Prop} (h : Q s.world.now s) :
    Surely (askEnv .utcNow) s Q E := by
  refine Surely.ask ⟨s.world.now, s, rfl, rfl⟩ ?_
  rintro t s' ⟨rfl, rfl⟩
  exact h

theorem surely_order {Q : List Nat → Session → Prop} (h : ∀ order, Q order s) :
    Surely (askEnv .order) s Q E := by
  refine Surely.ask ⟨[], s, trivial, rfl⟩ ?_
  rintro order s' ⟨-, rfl⟩
  exact h order

theorem surely_newV4 {Q : String → Session → Prop} (h : ∀ id, Q id s) :
    Surely (askEnv .newV4) s Q E := by
  refine Surely.ask ⟨"", s, trivial, rfl⟩ ?_
  rintro id s' ⟨-, rfl⟩
  exact h id

theorem surely_bailIfLockLost {Q : Unit → Session → Prop} (h : Q () s) :
    Surely bailIfLockLost s Q E := by
  refine Surely.bind (R := fun lost s' => lost = false ∧ s' = s)
    (Surely.ask ⟨false, s, rfl, rfl⟩ fun lost s' hans => hans) ?_
  rintro lost s' ⟨rfl, rfl⟩
  exact h

theorem surely_raceLockLost {p : P α} {Q : α → Session → Prop} (h : Surely p s Q E) :
    Surely (raceLockLost p) s Q E := by
  induction p generalizing s with
  | done a => exact h
  | fail e => exact h
  | call op k ih =>
    refine ⟨⟨false, s, rfl, rfl⟩, ?_⟩
    rintro lost s' ⟨rfl, rfl⟩
    refine ⟨h.1, ?_⟩
    intro r s'' hans
    exact ih r (h.2 r s'' hans)

/-- The lines are printed, in order. -/
theorem surely_printEach (text : String) (items : List String) :
    Surely (printEach text items) s
      (fun _ s' => s' = { s with printed := s.printed ++ items.map (text ++ ·) }) E := by
  refine Surely.bind (Surely.collect
    (fun pre _ s' => s' = { s with printed := s.printed ++ pre.map (text ++ ·) }) ?_ (by simp)) ?_
  · rintro pre cs item post s' - rfl
    refine Surely.ask ⟨(), _, rfl⟩ ?_
    rintro _ s'' rfl
    simp
  · rintro _ s' rfl
    exact Surely.pure rfl

-- ---------------------------------------------------------------------------
-- The lock
-- ---------------------------------------------------------------------------

/-- No other instance holds the lock: there is none, or a stale or broken one. -/
def LockFree (w : World) : Prop :=
  ∀ o info, w.get? LOCK_KEY = some o → o.body = .lock info → info.isExpired (max 0 w.now) = true

/-- The lock is this instance's; all else is as it was. -/
structure Took (id : String) (s s' : Session) : Prop where
  same : SameButLock s.world s'.world
  printed : s'.printed = s.printed
  lock : ∃ o info, s'.world.get? LOCK_KEY = some o ∧ o.body = .lock info ∧ info.instanceId = id

theorem surely_newInfo (id : String) {Q : LockInfo → Session → Prop}
    (h : ∀ info, info.instanceId = id → Q info s) : Surely (LockInfo.new id) s Q E := by
  refine Surely.bind (R := fun _ s' => s' = s) (Surely.ask ⟨"", s, trivial, rfl⟩ fun host s' hans => hans.2) ?_
  rintro host s' rfl
  refine Surely.bind (R := fun _ s'' => s'' = s') (Surely.bind (R := fun _ s'' => s'' = s')
    (surely_utcNow rfl) ?_) ?_
  · rintro t s'' rfl
    exact Surely.pure rfl
  · rintro t s'' rfl
    exact Surely.pure (h _ rfl)

/-- The lock object is created where there is none. -/
theorem surely_tryPut_none {id : String} (hnone : s.world.get? LOCK_KEY = none) :
    Surely (tryPut id) s (fun r s' => (∃ etag, r = some etag) ∧ Took id s s') E := by
  refine Surely.bind (surely_newInfo id (Q := fun info s' => info.instanceId = id ∧ s' = s)
    fun info hinfo => ⟨hinfo, rfl⟩) ?_
  rintro info s' ⟨hinfo, rfl⟩
  have hput : (S3Op.putObject LOCK_KEY (.lock info) none true).perform s'.world =
      (.ok s'.world.fresh, s'.world.putBody LOCK_KEY (.lock info)) := by
    simp only [S3Op.perform, hnone]
  refine Surely.bind (R := fun r s'' => (∃ etag, r = (etag, false)) ∧ Took id s' s'')
    (Surely.bind (R := fun r s'' => (∃ etag, r = .ok etag) ∧ Took id s' s'') (Surely.send ?_) ?_) ?_
  · rw [hput]
    refine ⟨⟨_, rfl⟩, fun key hkey => ?_, rfl, ⟨.lock info, s'.world.fresh, s'.world.now⟩, info, ?_,
      rfl, hinfo⟩
    · rw [World.get?_putBody, if_neg hkey]
    · rw [World.get?_putBody, if_pos rfl]
  · rintro r s'' ⟨⟨etag, rfl⟩, htook⟩
    exact Surely.pure ⟨⟨etag, rfl⟩, htook⟩
  · rintro r s'' ⟨⟨etag, rfl⟩, htook⟩
    exact Surely.pure ⟨⟨etag, rfl⟩, htook⟩

theorem surely_tryPut_some {id : String} {o : Object} (hsome : s.world.get? LOCK_KEY = some o) :
    Surely (tryPut id) s (fun r s' => r = none ∧ s' = s) E := by
  refine Surely.bind (surely_newInfo id (Q := fun info s' => s' = s) fun info _ => rfl) ?_
  rintro info s' rfl
  have hput : (S3Op.putObject LOCK_KEY (.lock info) none true).perform s'.world =
      (.error (refused 412 "PreconditionFailed"), s'.world) := by
    simp only [S3Op.perform, hsome, if_true]
  refine Surely.bind (R := fun r s'' => r.2 = true ∧ s'' = s')
    (Surely.bind (R := fun r s'' => r = .error (refused 412 "PreconditionFailed") ∧ s'' = s')
      (Surely.send ?_) ?_) ?_
  · rw [hput]
    exact ⟨rfl, rfl⟩
  · rintro r s'' ⟨rfl, rfl⟩
    exact Surely.pure ⟨rfl, rfl⟩
  · rintro ⟨etag, conflict⟩ s'' ⟨rfl, rfl⟩
    exact Surely.pure ⟨rfl, rfl⟩

theorem surely_deleteObject (key : String) :
    Surely (deleteObject key) s (fun _ s' => s' = ⟨s.world.erase key, s.printed⟩) E := by
  refine Surely.bind (R := fun r s' => r = .ok () ∧ s' = ⟨s.world.erase key, s.printed⟩)
    (Surely.send ⟨rfl, rfl⟩) ?_
  rintro r s' ⟨rfl, rfl⟩
  exact Surely.pure rfl

theorem surely_getObject {key : String} {o : Object} (h : s.world.get? key = some o) :
    Surely (getObject key) s (fun body s' => body = o.body ∧ s' = s) E := by
  have hget : (S3Op.getObject key).perform s.world = (.ok o.body, s.world) := by
    simp only [S3Op.perform, h]
  refine Surely.bind (R := fun r s' => r = .ok o.body ∧ s' = s) (Surely.send ?_) ?_
  · rw [hget]
    exact ⟨rfl, rfl⟩
  · rintro r s' ⟨rfl, rfl⟩
    exact Surely.pure ⟨rfl, rfl⟩

theorem surely_dropLock :
    Surely dropLock s (fun _ s' => s' = ⟨s.world.erase LOCK_KEY, s.printed⟩) E := by
  refine Surely.bind (surely_deleteObject LOCK_KEY).attempt ?_
  rintro x s' ⟨u, rfl, rfl⟩
  exact Surely.pure rfl

theorem surely_breakStale (id : String) :
    Surely (breakStale id) s (fun r s' => (∃ etag, r = some etag) ∧ Took id s s') E := by
  refine Surely.bind surely_dropLock ?_
  rintro u s' rfl
  refine Surely.mono (surely_tryPut_none (by simp)) ?_ fun h => h
  rintro r s'' ⟨hr, htook⟩
  refine ⟨hr, fun key hkey => ?_, htook.printed, htook.lock⟩
  rw [htook.same key hkey, World.get?_erase, if_neg hkey]

/-- A free lock is taken; otherwise nothing happens. -/
theorem surely_acquire (id : String) :
    Surely (acquire id) s (fun r s' => (∃ etag, r = some etag) ∧ Took id s s' ∨
      r = none ∧ s' = s ∧ ¬ LockFree s.world) E := by
  unfold acquire
  cases hlock : s.world.get? LOCK_KEY with
  | none =>
    refine Surely.bind (surely_tryPut_none hlock) ?_
    rintro r s' ⟨⟨etag, rfl⟩, htook⟩
    exact Surely.pure (.inl ⟨⟨etag, rfl⟩, htook⟩)
  | some o =>
    refine Surely.bind (surely_tryPut_some hlock) ?_
    rintro r s' ⟨rfl, rfl⟩
    refine Surely.bind (surely_getObject hlock).attempt ?_
    rintro x s'' ⟨body, rfl, rfl, rfl⟩
    have hbreak : Surely (breakStale id) s'' (fun r s' => (∃ etag, r = some etag) ∧ Took id s'' s' ∨
        r = none ∧ s' = s'' ∧ ¬ LockFree s''.world) E :=
      Surely.mono (surely_breakStale id) (fun r s' h => .inl h) fun h => h
    cases hbody : o.body with
    | lock existing =>
      refine Surely.bind (R := fun t s' => t = max 0 s''.world.now ∧ s' = s'')
        (Surely.bind (R := fun t s' => t = s''.world.now ∧ s' = s'') (surely_utcNow ⟨rfl, rfl⟩) ?_) ?_
      · rintro t s' ⟨rfl, rfl⟩
        exact Surely.pure ⟨rfl, rfl⟩
      · rintro t s' ⟨rfl, rfl⟩
        split
        · exact hbreak
        · rename_i hvalid
          exact Surely.pure (.inr ⟨rfl, rfl, fun hfree => hvalid (hfree o existing hlock hbody)⟩)
    | manifest m => exact hbreak
    | data bs => exact hbreak

theorem surely_acquireWithRetry (id : String) : ∀ left,
    Surely (acquireWithRetry id (left + 1)) s (fun r s' => (∃ etag, r = some etag) ∧ Took id s s' ∨
      r = none ∧ s' = s ∧ ¬ LockFree s.world) E := by
  intro left
  induction left with
  | zero =>
    refine Surely.bind (surely_acquire id).attempt ?_
    rintro x s' ⟨r, rfl, ⟨⟨etag, rfl⟩, htook⟩ | ⟨rfl, rfl, hheld⟩⟩
    · exact Surely.pure (.inl ⟨⟨etag, rfl⟩, htook⟩)
    · exact Surely.pure (.inr ⟨rfl, rfl, hheld⟩)
  | succ left ih =>
    refine Surely.bind (surely_acquire id).attempt ?_
    rintro x s' ⟨r, rfl, ⟨⟨etag, rfl⟩, htook⟩ | ⟨rfl, rfl, hheld⟩⟩
    · exact Surely.pure (.inl ⟨⟨etag, rfl⟩, htook⟩)
    · exact ih

/-- The own lock is given back. -/
theorem surely_release {id : String} {o : Object} {info : LockInfo}
    (hlock : s.world.get? LOCK_KEY = some o) (hbody : o.body = .lock info)
    (hid : info.instanceId = id) :
    Surely (release id) s (fun _ s' => s' = ⟨s.world.erase LOCK_KEY, s.printed⟩) E := by
  refine Surely.bind (surely_getObject hlock).attempt ?_
  rintro x s' ⟨body, rfl, rfl, rfl⟩
  rw [hbody]
  dsimp only
  rw [if_neg (by simp [hid])]
  exact surely_dropLock

/-- Work under a lock that is free, and that leaves the lock alone, is done; then
the lock is gone. -/
theorem surely_withGcLock {f : P Unit} {R : Session → Prop}
    (hf : ∀ s₁, SameButLock s.world s₁.world → s₁.printed = s.printed →
      Surely f s₁ (fun _ s₂ => R s₂ ∧ s₂.world.get? LOCK_KEY = s₁.world.get? LOCK_KEY) False) :
    Surely (withGcLock f) s (fun _ s' => ∃ s₂, R s₂ ∧ s' = ⟨s₂.world.erase LOCK_KEY, s₂.printed⟩)
      (¬ LockFree s.world) := by
  refine Surely.bind (surely_newV4 (Q := fun _ s' => s' = s) fun id => rfl) ?_
  rintro id s' rfl
  refine Surely.bind (Surely.mapFail (surely_acquireWithRetry id 9)) ?_
  rintro r s₁ (⟨⟨etag, rfl⟩, htook⟩ | ⟨rfl, rfl, hheld⟩)
  · refine Surely.bind (surely_raceLockLost (hf s₁ htook.same htook.printed)).attempt ?_
    rintro x s₂ ⟨u, rfl, hR, hkept⟩
    refine Surely.bind (R := fun lost s' => lost = false ∧ s' = s₂)
      (Surely.ask ⟨false, s₂, rfl, rfl⟩ fun lost s' hans => hans) ?_
    rintro lost s₃ ⟨rfl, rfl⟩
    obtain ⟨o, info, hlock, hbody, hid⟩ := htook.lock
    refine Surely.bind (surely_release (hkept.trans hlock) hbody hid).attempt ?_
    rintro x s₄ ⟨u', rfl, rfl⟩
    exact Surely.pure ⟨s₃, hR, rfl⟩
  · exact Surely.throw hheld

end Chbk
