import Chbk.Model.Heartbeat
import Chbk.Safety.Collector
import Chbk.Safety.Schedule

/-!
# The heartbeat and the lock object

What the heartbeat knows of the lock object, in a bucket where others put and
delete what they like, at any time.

* `S3Answers.renews` — no request gives an ETag twice.
* `GcInstance.Step.main` — the first task of an instance is `withGcLock`.
* `refreshAt_step`, `acquires_acquireWithRetry` — the calls of a refresh, and of
  the acquire.
* `Tracks.step`, `Tracks.renews` — the ETag the heartbeat holds is that of no lock
  object but the one the instance has last written.
-/

namespace Chbk

open Lib Prog

-- ---------------------------------------------------------------------------
-- ETags
-- ---------------------------------------------------------------------------

/-- The ETag of the lock object is one that has been given out. -/
def World.LockNumbered (w : World) : Prop := ∀ o, w.get? LOCK_KEY = some o → o.etag < w.fresh

/-- A request gives no ETag twice: an object that it writes has a new one. -/
structure Renews (w w' : World) : Prop where
  fresh : w.fresh ≤ w'.fresh
  get : ∀ key, w'.get? key = w.get? key ∨ w'.get? key = none ∨
    ∃ o, w'.get? key = some o ∧ o.etag = w.fresh ∧ w.fresh < w'.fresh

theorem Renews.refl (w : World) : Renews w w := ⟨le_refl _, fun _ => .inl rfl⟩

theorem renews_putBody (w : World) (key : String) (body : Body) :
    Renews w (w.putBody key body) := by
  refine ⟨Nat.le_succ _, fun key' => ?_⟩
  rw [World.get?_putBody]
  split
  · exact .inr (.inr ⟨_, rfl, rfl, Nat.lt_succ_self _⟩)
  · exact .inl rfl

theorem renews_eraseAll (w : World) (keys : List String) : Renews w (w.eraseAll keys) := by
  refine ⟨by simp, fun key => ?_⟩
  rw [World.get?_eraseAll]
  split
  · exact .inr (.inl rfl)
  · exact .inl rfl

theorem renews_perform (o : S3Op) (w : World) : Renews w (o.perform w).2 := by
  cases o with
  | listObjectsV2 pfx => exact .refl w
  | headObject key =>
    simp only [S3Op.perform]
    split <;> exact .refl w
  | getObject key =>
    simp only [S3Op.perform]
    split <;> exact .refl w
  | putObject key body ifMatch ifNoneMatch =>
    simp only [S3Op.perform]
    split
    · split
      · exact .refl w
      · exact renews_putBody w key body
    · exact .refl w
    · split
      · exact .refl w
      · exact renews_putBody w key body
    · exact renews_putBody w key body
  | deleteObject key => exact renews_eraseAll w [key]
  | deleteObjects keys => exact renews_eraseAll w keys
  | createMultipartUpload key => exact ⟨Nat.le_succ _, fun _ => .inl rfl⟩
  | uploadPart key id pn data =>
    simp only [S3Op.perform]
    split
    · split
      · exact .refl w
      · exact ⟨le_refl _, fun _ => .inl rfl⟩
    · exact .refl w
  | completeMultipartUpload key id parts =>
    simp only [S3Op.perform]
    split
    · split
      · exact .refl w
      · split
        · exact .refl w
        · split
          · rename_i bs _
            exact ⟨Nat.le_succ _, (renews_putBody w key (.data bs)).get⟩
          · exact .refl w
    · exact .refl w
  | abortMultipartUpload key id => exact ⟨le_refl _, fun _ => .inl rfl⟩

/-- Any request, failed or not. -/
theorem S3Answers.renews {o : S3Op} {w w' : World} {r : Except SdkError (S3Ok o)}
    (h : S3Answers o w r w') : Renews w w' := by
  have hdone : ∀ r, o.perform w = (r, w') → Renews w w' := by
    intro r he
    have hp := renews_perform o w
    rwa [he] at hp
  cases r with
  | error e =>
    rcases h with h | h
    · exact hdone _ h
    · cases o with
      | deleteObjects keys =>
        obtain ⟨gone, -, rfl⟩ := h
        exact renews_eraseAll w gone
      | _ =>
        rcases h with rfl | hw
        · exact .refl _
        · exact hw ▸ renews_perform _ w
  | ok a =>
    cases o with
    | deleteObjects keys =>
      obtain ⟨gone, -, -, rfl⟩ := h
      exact renews_eraseAll w gone
    | _ => exact hdone _ h

theorem Renews.lockNumbered {w w' : World} (h : Renews w w') (hw : w.LockNumbered) :
    w'.LockNumbered := by
  intro o ho
  rcases h.get LOCK_KEY with hget | hget | ⟨o', hget, hetag, hlt⟩
  · exact (hw o (hget ▸ ho)).trans_le h.fresh
  · cases hget.symm.trans ho
  · obtain rfl := Option.some.inj (hget.symm.trans ho)
    exact hetag.trans_lt hlt

/-- A PUT that reaches S3 is refused, or it puts the object. -/
theorem perform_put (key : String) (body : Body) (ifMatch : Option ETag) (ifNoneMatch : Bool)
    (w : World) :
    (∃ e, (S3Op.putObject key body ifMatch ifNoneMatch).perform w = (.error e, w)) ∨
      (S3Op.putObject key body ifMatch ifNoneMatch).perform w
          = (.ok w.fresh, w.putBody key body) ∧
        (S3Op.putObject key body ifMatch ifNoneMatch).Writes w key body := by
  simp only [S3Op.perform]
  split
  · rename_i etag o ho
    split
    · exact .inl ⟨_, rfl⟩
    · rename_i heq
      refine .inr ⟨rfl, rfl, rfl, ?_, by simp⟩
      intro etag' he
      exact ⟨o, ho, (not_not.mp heq).trans (Option.some.inj he)⟩
  · exact .inl ⟨_, rfl⟩
  · split
    · exact .inl ⟨_, rfl⟩
    · rename_i hif
      exact .inr ⟨rfl, rfl, rfl, by simp, fun _ hn => absurd hn hif⟩
  · rename_i hnone
    exact .inr ⟨rfl, rfl, rfl, by simp, fun _ _ => hnone⟩

/-- A PUT does nothing and fails, or it has put the object. -/
theorem put_cases {key : String} {body : Body} {ifMatch : Option ETag} {ifNoneMatch : Bool}
    {w w' : World} {r : Except SdkError ETag}
    (h : S3Answers (.putObject key body ifMatch ifNoneMatch) w r w') :
    w' = w ∧ (∃ e, r = .error e) ∨
      w' = w.putBody key body ∧ (∀ etag, r = .ok etag → etag = w.fresh) ∧
        (S3Op.putObject key body ifMatch ifNoneMatch).Writes w key body := by
  have hreached := perform_put key body ifMatch ifNoneMatch w
  cases r with
  | ok etag =>
    have hperform : (S3Op.putObject key body ifMatch ifNoneMatch).perform w = (.ok etag, w') := h
    rcases hreached with ⟨e, he⟩ | ⟨he, hwrites⟩
    · cases (Prod.mk.inj (he.symm.trans hperform)).1
    · obtain ⟨hetag, rfl⟩ := Prod.mk.inj (he.symm.trans hperform)
      refine .inr ⟨rfl, ?_, hwrites⟩
      intro etag' he'
      exact Except.ok.inj (he'.symm.trans hetag.symm)
  | error e =>
    have heffect : w' = w ∨ w' = ((S3Op.putObject key body ifMatch ifNoneMatch).perform w).2 := by
      rcases h with h | h
      · exact .inr (congrArg Prod.snd h).symm
      · exact h
    rcases heffect with rfl | rfl
    · exact .inl ⟨rfl, e, rfl⟩
    · rcases hreached with ⟨e', he⟩ | ⟨he, hwrites⟩
      · exact .inl ⟨by rw [he], e, rfl⟩
      · exact .inr ⟨by rw [he], by simp, hwrites⟩

-- ---------------------------------------------------------------------------
-- The first task is `with_gc_lock`
-- ---------------------------------------------------------------------------

variable {f : P Unit}

/-- What `with_gc_lock` goes on with behind the work. -/
def afterWork (id : String) (result : Except AnyError Unit) : P Unit := do
  if !(← askEnv .lockLost) then
    let _ ← Prog.attempt (release id)
  liftP result

/-- What it goes on with behind the acquire. -/
def afterAcquire (f : P Unit) (id : String) : Option ETag → P Unit
  | none => throw ["Could not acquire GC lock - another operation may be running"]
  | some _ => Prog.attempt (raceLockLost f) >>= afterWork id

/-- What is left of it. -/
def GcInstance.rest (f : P Unit) (i : GcInstance) : P Unit :=
  match i.stage with
  | .acquiring p =>
    Prog.mapFail (withContext "Failed to acquire GC lock") p.prog >>= afterAcquire f i.id
  | .holding work => Prog.attempt work.prog >>= afterWork i.id
  | .stopping result => afterWork i.id result
  | .releasing p result => Prog.attempt p.prog >>= fun _ => liftP result
  | .ended result => liftP result

theorem withGcLock_eq (f : P Unit) :
    withGcLock f = askEnv .newV4 >>= fun id => (GcInstance.start id).rest f := by
  rfl

theorem afterWork_eq (id : String) (result : Except AnyError Unit) :
    afterWork id result = .call (.env .lockLost) fun lost =>
      if lost then liftP result
      else Prog.attempt (release id) >>= fun _ => liftP result := by
  show Prog.call _ _ = Prog.call _ _
  congr 1
  funext lost
  cases lost with
  | true => rfl
  | false => rfl

/-- An answer to the work is one `with_gc_lock` may get. -/
theorem WorkAnswers.answers {lost : Bool} {op : Op} {w w' : World} {r : Resp op}
    (h : WorkAnswers lost op w r w') : Answers op w r w' := by
  cases op with
  | s3 o => exact h
  | env o =>
    cases o with
    | lockLost => exact ⟨trivial, h.2⟩
    | _ => exact h

/-- What `acquire_with_retry` returns is gone on with. -/
theorem rest_acquired (p : Proc Op Resp AnyError (Option ETag)) (now : Int) (i : GcInstance) :
    (i.acquired f p now).rest f =
      Prog.mapFail (withContext "Failed to acquire GC lock") p.prog >>= afterAcquire f i.id := by
  obtain ⟨prog, hist⟩ := p
  cases prog with
  | done a =>
    cases a with
    | none => rfl
    | some etag => rfl
  | fail e => rfl
  | call op k => rfl

theorem rest_released (p : Proc Op Resp AnyError Unit) (result : Except AnyError Unit)
    (i : GcInstance) :
    (i.released p result).rest f = Prog.attempt p.prog >>= fun _ => liftP result := by
  obtain ⟨prog, hist⟩ := p
  cases prog with
  | done a => rfl
  | fail e => rfl
  | call op k => rfl

@[simp] theorem GcInstance.note_id (op : Op) (w w' : World) (i : GcInstance) :
    (i.note op w w').id = i.id := by
  unfold note
  split
  · split <;> rfl
  · rfl

@[simp] theorem GcInstance.note_stage (op : Op) (w w' : World) (i : GcInstance) :
    (i.note op w w').stage = i.stage := by
  unfold note
  split
  · split <;> rfl
  · rfl

@[simp] theorem GcInstance.note_heartbeat (op : Op) (w w' : World) (i : GcInstance) :
    (i.note op w w').heartbeat = i.heartbeat := by
  unfold note
  split
  · split <;> rfl
  · rfl

@[simp] theorem GcInstance.note_lost (op : Op) (w w' : World) (i : GcInstance) :
    (i.note op w w').lost = i.lost := by
  unfold note
  split
  · split <;> rfl
  · rfl

/-- A refresh is no matter of the first task. -/
theorem refreshed_stage (etag : ETag) (since : Int) (p : Proc Op Resp AnyError (Option ETag))
    (now : Int) (i : GcInstance) :
    (i.refreshed etag since p now).stage = i.stage ∧
      (i.refreshed etag since p now).id = i.id := by
  obtain ⟨prog, hist⟩ := p
  cases prog with
  | done a =>
    cases a with
    | none => exact ⟨rfl, rfl⟩
    | some newEtag => exact ⟨rfl, rfl⟩
  | fail e => exact ⟨rfl, rfl⟩
  | call op k => exact ⟨rfl, rfl⟩

/-- A step is one call of `with_gc_lock`, or none. -/
theorem GcInstance.Step.main {i i' : GcInstance} {w w' : World} {m : Move}
    (h : i.Step f w m i' w') :
    i'.rest f = i.rest f ∨
      ∃ c, ∀ hist, Proc.Step Answers ⟨i.rest f, hist⟩ w ⟨i'.rest f, c :: hist⟩ w' := by
  cases h with
  | acquire hs hc hstep =>
    rename_i c
    refine .inr ⟨c, fun hist => ?_⟩
    rw [rest_acquired, rest, hs, note_id]
    exact hstep.within hc (g := fun q => Prog.mapFail _ q >>= afterAcquire f i.id)
      (fun _ _ => rfl) hist
  | work hs hc hstep =>
    rename_i c
    refine .inr ⟨c, fun hist => ?_⟩
    simp only [rest, hs]
    exact (hstep.mono fun _ _ _ _ h => h.answers).within hc
      (g := fun q => Prog.attempt q >>= afterWork i.id) (fun _ _ => rfl) hist
  | workEnds hs hresult =>
    rename_i p result
    left
    simp only [rest, hs]
    obtain ⟨prog, hist⟩ := p
    cases prog with
    | done a =>
      obtain rfl := Option.some.inj hresult
      rfl
    | fail e =>
      obtain rfl := Option.some.inj hresult
      rfl
    | call op k => cases hresult
  | stop hs hidle =>
    rename_i result
    refine .inr ⟨⟨.env .lockLost, i.lost⟩, fun hist => ?_⟩
    have hafter : (i.stopped result).rest f =
        if i.lost then liftP result else Prog.attempt (Chbk.release i.id) >>= fun _ => liftP result := by
      unfold stopped rest
      cases i.lost with
      | true => rfl
      | false => rfl
    rw [hafter]
    simp only [rest, hs, afterWork_eq]
    exact .call ⟨trivial, rfl⟩
  | release hs hc hstep =>
    rename_i c result
    refine .inr ⟨c, fun hist => ?_⟩
    rw [rest_released, rest, hs]
    exact hstep.within hc (g := fun q => Prog.attempt q >>= fun _ => liftP result)
      (fun _ _ => rfl) hist
  | wake hb hdue => exact .inl rfl
  | refresh hb hc hstep =>
    rename_i etag since p p' c
    left
    obtain ⟨hstage, hid⟩ := refreshed_stage etag since p' w'.now (i.note c.1 w w')
    simp only [rest, hstage, hid, note_stage, note_id]

-- ---------------------------------------------------------------------------
-- The calls of a refresh
-- ---------------------------------------------------------------------------

/-- The PUT of a refresh. -/
def refreshPut (info : LockInfo) (etag : ETag) : S3Op :=
  .putObject LOCK_KEY (.lock info) (some etag) false

/-- What a refresh makes of the answer to its PUT. -/
def refreshOutcome : Except SdkError ETag → Except AnyError (Option ETag)
  | .ok newEtag => .ok (some newEtag)
  | .error e =>
    if isPreconditionFailed e then .ok none else .error ["Failed to put " ++ LOCK_KEY, e.text]

/-- A refresh that has built its record. -/
def refreshEnd (info : LockInfo) (etag : ETag) : P (Option ETag) :=
  .call (.s3 (refreshPut info etag)) fun r => liftP (refreshOutcome r)

theorem refresh_eq (id : String) (etag : ETag) :
    refresh id etag = .call (.env .gethostname) fun hostname =>
      .call (.env .utcNow) fun now => refreshEnd ⟨id, hostname, max 0 now, TTL_SECS⟩ etag := by
  show Prog.call _ _ = Prog.call _ _
  congr 1
  funext hostname
  show Prog.call _ _ = Prog.call _ _
  congr 1
  funext now
  show Prog.call _ _ = Prog.call _ _
  congr 1
  funext r
  cases r with
  | ok newEtag => rfl
  | error e =>
    show Prog.bind (if isPreconditionFailed e = true then pure (0, true)
        else throw ["Failed to put " ++ LOCK_KEY, e.text] : P (ETag × Bool)) _ =
      liftP (if isPreconditionFailed e = true then .ok none else .error _)
    split
    · rfl
    · rfl

/-- Where the refresh with an ETag is: before one of its questions, or before its
PUT. -/
def RefreshAt (id : String) (etag : ETag) (p : Proc Op Resp AnyError (Option ETag)) : Prop :=
  p.prog = refresh id etag ∨
    (∃ hostname, p.prog = .call (.env .utcNow) fun now =>
      refreshEnd ⟨id, hostname, max 0 now, TTL_SECS⟩ etag) ∨
    ∃ info, info.instanceId = id ∧ p.prog = refreshEnd info etag

/-- A call of a refresh is a question, or it is the PUT, and the refresh is over. -/
theorem refreshAt_step {id : String} {etag : ETag} {p p' : Proc Op Resp AnyError (Option ETag)}
    {w w' : World} {c : Called Op Resp} (hat : RefreshAt id etag p)
    (hstep : p.Step Answers w p' w') (hc : p'.hist = c :: p.hist) :
    (w' = w ∧ RefreshAt id etag p' ∧ p'.outcome? = none ∧ ∃ o r, c = ⟨.env o, r⟩) ∨
      ∃ info r, info.instanceId = id ∧ c = ⟨.s3 (refreshPut info etag), r⟩ ∧
        S3Answers (refreshPut info etag) w r w' ∧ p'.outcome? = some (refreshOutcome r) := by
  obtain ⟨hr⟩ := hstep
  obtain ⟨rfl, -⟩ := List.cons.inj hc
  rcases hat with hat | ⟨hostname, hat⟩ | ⟨info, hid, hat⟩
  · rw [refresh_eq] at hat
    obtain ⟨rfl, hk⟩ := Prog.call.inj hat
    cases hk
    exact .inl ⟨hr.2, .inr (.inl ⟨_, rfl⟩), rfl, _, _, rfl⟩
  · obtain ⟨rfl, hk⟩ := Prog.call.inj hat
    cases hk
    exact .inl ⟨hr.2, .inr (.inr ⟨_, rfl, rfl⟩), rfl, _, _, rfl⟩
  · obtain ⟨rfl, hk⟩ := Prog.call.inj hat
    cases hk
    rename_i r
    refine .inr ⟨info, r, hid, rfl, hr, ?_⟩
    cases hout : refreshOutcome r with
    | ok a => simp only [Proc.outcome?, hout, liftP]
    | error e => simp only [Proc.outcome?, hout, liftP]

-- ---------------------------------------------------------------------------
-- The calls of an acquire
-- ---------------------------------------------------------------------------

/-- Calls that may take the lock for an instance. -/
def TakesLock (id : String) : Op → Prop
  | .env _ => True
  | .s3 (.getObject key) => key = LOCK_KEY
  | .s3 (.putObject key body ifMatch ifNoneMatch) =>
    key = LOCK_KEY ∧ (∃ info, body = .lock info ∧ info.instanceId = id) ∧ ifMatch = none ∧
      ifNoneMatch = true
  | .s3 (.deleteObject key) => key = LOCK_KEY
  | _ => False

/-- The ETag that the last call, a PUT, has got. -/
def putWatch : Watch Op Resp (Option ETag) where
  init := none
  observe _ op r :=
    match op, r with
    | .s3 (.putObject ..), .ok etag => some etag
    | _, _ => none

/-- A program that takes the lock with its last call, or does not take it. -/
def Acquires (id : String) (p : P (Option ETag)) (v : Option ETag) : Prop :=
  p.Follows putWatch (fun _ => TakesLock id) v (fun a v' => ∀ etag, a = some etag → v' = some etag)
    fun _ _ => True

section

variable {id : String}

theorem follows_takesLock {α : Type} {p : P α} (h : Only (TakesLock id) p) (v : Option ETag) :
    p.Follows putWatch (fun _ => TakesLock id) v (fun _ _ => True) fun _ _ => True :=
  h.follows (I := fun _ => True) (fun _ _ ho _ => ho) (fun _ _ _ _ _ => trivial) trivial

theorem acquires_none (v : Option ETag) : Acquires id (Pure.pure none) v :=
  Follows.pure fun _ he => by cases he

theorem follows_newInfo (v : Option ETag) :
    (LockInfo.new id).Follows putWatch (fun _ => TakesLock id) v
      (fun info _ => info.instanceId = id) fun _ _ => True :=
  ⟨trivial, fun _ => ⟨trivial, fun _ => rfl⟩⟩

theorem acquires_tryPut (v : Option ETag) : Acquires id (tryPut id) v := by
  refine Follows.bind (follows_newInfo v) fun info v₁ hid => ?_
  refine Follows.bind (R := fun x v' => x.2 = false → v' = some x.1) ?_ ?_
  · refine Follows.bind
      (R := fun r v' => v' = putWatch.observe v₁
        (.s3 (.putObject LOCK_KEY (.lock info) none true)) r)
      (follows_send ⟨rfl, ⟨info, rfl, hid⟩, rfl, rfl⟩ fun _ => rfl) fun r v₂ hv₂ => ?_
    cases r with
    | ok etag => exact Follows.pure fun _ => hv₂
    | error e =>
      dsimp only
      split
      · exact Follows.pure fun h => by cases h
      · exact Follows.throw trivial
  · intro x v₂ hx
    refine Follows.pure fun etag he => ?_
    obtain ⟨etag', conflict⟩ := x
    cases conflict with
    | true => cases he
    | false =>
      cases he
      exact hx rfl

theorem takesLock_dropLock : Only (TakesLock id) dropLock :=
  Only.bind (Only.attempt (Only.bind (only_ask rfl) fun _ => only_orContext _ _))
    fun _ => only_pure _

theorem takesLock_get : Only (TakesLock id) (getObject LOCK_KEY) :=
  Only.bind (only_ask rfl) fun _ => only_orContext _ _

theorem takesLock_now : Only (TakesLock id) nowEpochSecs :=
  Only.bind (only_ask trivial) fun _ => only_pure _

theorem acquires_breakStale (v : Option ETag) : Acquires id (breakStale id) v :=
  Follows.bind (follows_takesLock takesLock_dropLock v) fun _ v₁ _ => acquires_tryPut v₁

theorem acquires_acquire (v : Option ETag) : Acquires id (acquire id) v := by
  refine Follows.bind (acquires_tryPut v) fun r v₁ hr => ?_
  cases r with
  | some etag => exact Follows.pure hr
  | none =>
    refine Follows.bind (follows_takesLock takesLock_get.attempt v₁) fun r v₂ _ => ?_
    split
    · exact acquires_tryPut v₂
    · refine Follows.bind (follows_takesLock takesLock_now v₂) fun now v₃ _ => ?_
      split
      · exact acquires_breakStale v₃
      · exact acquires_none v₃
    · exact acquires_breakStale v₂

theorem acquires_acquireWithRetry : ∀ (left : Nat) (v : Option ETag),
    Acquires id (acquireWithRetry id left) v
  | 0, v => acquires_none v
  | left + 1, v => by
    refine Follows.bind
      (R := fun r v' => ∀ etag, r = .ok (some etag) → v' = some etag)
      (Follows.attempt (Follows.mono (acquires_acquire v) ?_ ?_)) fun r v₁ hr => ?_
    · intro a v' ha etag he
      exact ha etag (Except.ok.inj he)
    · intro e v' _ etag he
      cases he
    · split
      · rename_i etag
        refine Follows.pure fun etag' he => ?_
        cases he
        exact hr etag rfl
      · split
        · exact acquires_none v₁
        · exact acquires_acquireWithRetry left v₁
      · split
        · exact Follows.throw trivial
        · exact acquires_acquireWithRetry left v₁

end

-- ---------------------------------------------------------------------------
-- What the instance knows of the lock object
-- ---------------------------------------------------------------------------

/-- The ETag the heartbeat holds. -/
def Heartbeat.etag : Heartbeat → ETag
  | sleeping etag _ => etag
  | refreshing etag _ _ => etag

/-- What holds between an instance and the bucket, whatever others do to it. -/
structure Tracks (i : GcInstance) (w : World) : Prop where
  numbered : w.LockNumbered
  acquires : ∀ p, i.stage = .acquiring p → i.heartbeat = none ∧ i.lost = false ∧
    Acquires i.id p.prog (putWatch.view p.hist)
  releases : ∀ p result, i.stage = .releasing p result → Only AboutLock p.prog
  refreshes : ∀ etag since p, i.heartbeat = some (.refreshing etag since p) →
    RefreshAt i.id etag p
  beats : i.heartbeat ≠ none → i.lost = false
  written : ∀ etag, i.written = some etag → etag < w.fresh
  /-- The ETag that is held is the last one written, or no object has it. -/
  held : ∀ b, i.heartbeat = some b → ∃ etag, i.written = some etag ∧ b.etag ≤ etag ∧
    (b.etag ≠ etag → ∀ o, w.get? LOCK_KEY = some o → o.etag ≠ b.etag)

theorem tracks_start (id : String) {w : World} (hw : w.LockNumbered) :
    Tracks (.start id) w where
  numbered := hw
  acquires p hs := by
    cases hs
    exact ⟨rfl, rfl, acquires_acquireWithRetry 10 none⟩
  releases p result hs := by cases hs
  refreshes etag since p hb := by cases hb
  beats hb := (hb rfl).elim
  written etag he := by cases he
  held b hb := by cases hb

/-- A request of anyone. -/
theorem Tracks.renews {i : GcInstance} {w w' : World} (h : Tracks i w) (hw : Renews w w') :
    Tracks i w' where
  numbered := hw.lockNumbered h.numbered
  acquires := h.acquires
  releases := h.releases
  refreshes := h.refreshes
  beats := h.beats
  written etag he := (h.written etag he).trans_le hw.fresh
  held b hb := by
    obtain ⟨etag, hetag, hle, hno⟩ := h.held b hb
    refine ⟨etag, hetag, hle, fun hne o ho => ?_⟩
    rcases hw.get LOCK_KEY with hget | hget | ⟨o', hget, hnew, -⟩
    · exact hno hne o (hget ▸ ho)
    · cases hget.symm.trans ho
    · -- the object is newer than anything the instance has written
      obtain rfl := Option.some.inj (hget.symm.trans ho)
      rw [hnew]
      exact (hle.trans_lt (h.written etag hetag)).ne'

theorem answers_renews {op : Op} {w w' : World} {r : Resp op} (h : Answers op w r w') :
    Renews w w' := by
  cases op with
  | s3 o => exact S3Answers.renews h
  | env o => exact h.2 ▸ Renews.refl w

theorem answers_now {op : Op} {w w' : World} {r : Resp op} (h : Answers op w r w') :
    w'.now = w.now := by
  cases op with
  | s3 o => exact (S3Answers.change h).1
  | env o => rw [h.2]

/-- A PUT of the lock object by the instance itself. -/
theorem Tracks.put {i : GcInstance} {w w' : World} (h : Tracks i w) {info : LockInfo}
    {ifMatch : Option ETag} {ifNoneMatch : Bool} {r : Except SdkError ETag}
    (hans : S3Answers (.putObject LOCK_KEY (.lock info) ifMatch ifNoneMatch) w r w') :
    let i' := i.note (.s3 (.putObject LOCK_KEY (.lock info) ifMatch ifNoneMatch)) w w'
    Tracks i' w' ∧ ∀ etag, r = .ok etag → i'.written = some etag := by
  intro i'
  have hw := S3Answers.renews hans
  rcases put_cases hans with ⟨rfl, hr⟩ | ⟨hput, hr, -⟩
  · have hsame : i' = i := if_pos rfl
    rw [hsame]
    refine ⟨h, fun etag he => ?_⟩
    obtain ⟨e, hr⟩ := hr
    cases hr.symm.trans he
  · have hfresh : w'.fresh = w.fresh + 1 := by rw [hput]; rfl
    have hnew : i' = { i with written := some w.fresh } := if_neg (by omega)
    have hobj : w'.get? LOCK_KEY = some ⟨.lock info, w.fresh, w.now⟩ := by rw [hput]; simp
    rw [hnew]
    refine ⟨?_, fun etag he => congrArg some (hr etag he).symm⟩
    exact {
      numbered := hw.lockNumbered h.numbered
      acquires := h.acquires
      releases := h.releases
      refreshes := h.refreshes
      beats := h.beats
      written := fun etag he => by
        obtain rfl := Option.some.inj he
        exact hfresh ▸ Nat.lt_succ_self _
      held := fun b hb => by
        obtain ⟨etag, hetag, hle, -⟩ := h.held b hb
        have hlt := hle.trans_lt (h.written etag hetag)
        refine ⟨w.fresh, rfl, hlt.le, fun _ o ho => ?_⟩
        obtain rfl := Option.some.inj (hobj.symm.trans ho)
        exact hlt.ne' }

/-- A change of the instance that keeps the ETags it knows. -/
theorem Tracks.update {i i' : GcInstance} {w : World} (h : Tracks i w)
    (hwritten : i'.written = i.written)
    (hacq : ∀ p, i'.stage = .acquiring p →
      i'.heartbeat = none ∧ i'.lost = false ∧ Acquires i'.id p.prog (putWatch.view p.hist))
    (hrel : ∀ p result, i'.stage = .releasing p result → Only AboutLock p.prog)
    (hbeat : ∀ b, i'.heartbeat = some b → i'.lost = false ∧
      (∀ etag since p, b = .refreshing etag since p → RefreshAt i'.id etag p) ∧
      ((∃ b', i.heartbeat = some b' ∧ b.etag = b'.etag) ∨ i.written = some b.etag)) :
    Tracks i' w where
  numbered := h.numbered
  acquires := hacq
  releases := hrel
  refreshes etag since p hb := (hbeat _ hb).2.1 etag since p rfl
  beats hb := by
    obtain ⟨b, hb⟩ := Option.ne_none_iff_exists'.mp hb
    exact (hbeat b hb).1
  written etag he := h.written etag (hwritten ▸ he)
  held b hb := by
    rw [hwritten]
    rcases (hbeat b hb).2.2 with ⟨b', hb', heq⟩ | hw
    · rw [heq]
      exact h.held b' hb'
    · exact ⟨b.etag, hw, le_refl _, fun hne => (hne rfl).elim⟩

/-- A call of the acquire. -/
theorem Tracks.acquire {i : GcInstance} {w w' : World} (h : Tracks i w)
    {p p' : Proc Op Resp AnyError (Option ETag)} {c : Called Op Resp}
    (hs : i.stage = .acquiring p) (hc : p'.hist = c :: p.hist) (hstep : p.Step Answers w p' w') :
    Tracks ((i.note c.1 w w').acquired f p' w'.now) w' := by
  obtain ⟨hnone, hlost, hacq⟩ := h.acquires p hs
  obtain ⟨hans⟩ := hstep
  obtain ⟨rfl, -⟩ := List.cons.inj hc
  rename_i op k hist r
  obtain ⟨hrule, hrest⟩ := hacq
  have hnote : Tracks (i.note op w w') w' ∧ ∀ etag,
      putWatch.view (⟨op, r⟩ :: hist) = some etag → (i.note op w w').written = some etag := by
    match op, r, hrule, hans with
    | .env _, _, _, hans => exact ⟨h.renews (answers_renews hans), fun etag he => by cases he⟩
    | .s3 (.getObject _), _, _, hans =>
      exact ⟨h.renews (answers_renews hans), fun etag he => by cases he⟩
    | .s3 (.deleteObject _), _, _, hans =>
      exact ⟨h.renews (answers_renews hans), fun etag he => by cases he⟩
    | .s3 (.putObject ..), r, ⟨hkey, ⟨info, hbody, _⟩, _⟩, hans =>
      subst hkey hbody
      obtain ⟨hput, hok⟩ := h.put hans
      refine ⟨hput, fun etag he => hok etag ?_⟩
      cases r with
      | ok etag' => exact congrArg Except.ok (Option.some.inj he)
      | error e => cases he
  obtain ⟨htracks, hgot⟩ := hnote
  have hquiet : (i.note op w w').heartbeat = none := by rw [GcInstance.note_heartbeat, hnone]
  have hkept : (i.note op w w').lost = false := by rw [GcInstance.note_lost, hlost]
  -- an acquire that goes on or has not got the lock leaves the heartbeat alone
  have hwaits : ∀ stage, (∀ p', stage = Stage.acquiring p' →
      Acquires i.id p'.prog (putWatch.view p'.hist)) →
      (∀ p' result, stage ≠ .releasing p' result) →
      Tracks { i.note op w w' with stage } w' := by
    intro stage hstage hrel
    refine htracks.update rfl (fun p' hp => ⟨hquiet, hkept, ?_⟩) (fun p' result hp => ?_) fun b hb => ?_
    · rw [GcInstance.note_id]
      exact hstage p' hp
    · exact (hrel p' result hp).elim
    · cases hquiet.symm.trans hb
  have hend := hrest r
  cases hk : k r with
  | call op' k' =>
    refine hwaits _ (fun p' hp => ?_) fun _ _ hp => by cases hp
    obtain rfl := Stage.acquiring.inj hp
    exact hk ▸ hend
  | fail e => exact hwaits _ (fun _ hp => by cases hp) fun _ _ hp => by cases hp
  | done a =>
    cases a with
    | none => exact hwaits _ (fun _ hp => by cases hp) fun _ _ hp => by cases hp
    | some etag =>
      -- the lock is taken with the ETag that was answered last
      have hview : putWatch.view (⟨op, r⟩ :: hist) = some etag := by
        rw [hk] at hend
        exact hend etag rfl
      refine htracks.update rfl (fun _ hp => by cases hp) (fun _ _ hp => by cases hp) ?_
      intro b hb
      obtain rfl := Option.some.inj hb
      exact ⟨hkept, fun _ _ _ h => (by cases h), .inr (hgot etag hview)⟩

/-- A change of a heartbeat under way. -/
theorem Tracks.beat {i : GcInstance} {w : World} (h : Tracks i w) {b₀ : Heartbeat}
    (hb₀ : i.heartbeat = some b₀) {heartbeat : Option Heartbeat} {lost : Bool} {lastOk : Int}
    (hbeat : ∀ b, heartbeat = some b → lost = false ∧
      (∀ etag since p, b = .refreshing etag since p → RefreshAt i.id etag p) ∧
      (b.etag = b₀.etag ∨ i.written = some b.etag)) :
    Tracks { i with heartbeat, lost, lastOk } w := by
  refine h.update rfl (fun p hs => ?_) h.releases fun b hb => ?_
  · cases hb₀.symm.trans (h.acquires p hs).1
  · obtain ⟨hlost, hat, hetag⟩ := hbeat b hb
    exact ⟨hlost, hat, hetag.imp_left fun he => ⟨b₀, hb₀, he⟩⟩

/-- The arm of the loop for the answer to the PUT. -/
def GcInstance.answered (etag : ETag) (r : Except SdkError ETag) (now : Int) (i : GcInstance) :
    GcInstance :=
  match r with
  | .ok newEtag => { i with heartbeat := some (.sleeping newEtag now), lastOk := now }
  | .error e =>
    if isPreconditionFailed e then { i with heartbeat := none, lost := true }
    else { i with heartbeat := some (.sleeping etag now) }

theorem refreshed_put {p : Proc Op Resp AnyError (Option ETag)} {r : Except SdkError ETag}
    (hout : p.outcome? = some (refreshOutcome r)) (etag : ETag) (since now : Int)
    (i : GcInstance) : i.refreshed etag since p now = i.answered etag r now := by
  simp only [GcInstance.refreshed, hout]
  cases r with
  | ok newEtag => rfl
  | error e =>
    unfold refreshOutcome GcInstance.answered
    cases h : isPreconditionFailed e with
    | true => simp [h]
    | false => simp [h]

/-- A call of the refresh. -/
theorem Tracks.refresh {i : GcInstance} {w w' : World} (h : Tracks i w) {etag : ETag}
    {since : Int} {p p' : Proc Op Resp AnyError (Option ETag)} {c : Called Op Resp}
    (hb : i.heartbeat = some (.refreshing etag since p)) (hc : p'.hist = c :: p.hist)
    (hstep : p.Step Answers w p' w') :
    Tracks ((i.note c.1 w w').refreshed etag since p' w'.now) w' := by
  have hlost : i.lost = false := h.beats (by simp [hb])
  rcases refreshAt_step (h.refreshes etag since p hb) hstep hc with
    ⟨rfl, hat, hout, o, r, rfl⟩ | ⟨info, r, -, rfl, hans, hout⟩
  · -- a question
    simp only [GcInstance.refreshed, hout]
    refine h.beat hb fun b hb' => ?_
    obtain rfl := Option.some.inj hb'
    exact ⟨hlost, fun _ _ _ he => by cases he; exact hat, .inl rfl⟩
  · -- the PUT
    obtain ⟨hput, hok⟩ := h.put hans
    have hb' : (i.note (.s3 (refreshPut info etag)) w w').heartbeat
        = some (.refreshing etag since p) := by rw [GcInstance.note_heartbeat, hb]
    have hlost' : (i.note (.s3 (refreshPut info etag)) w w').lost = false := by
      rw [GcInstance.note_lost, hlost]
    rw [refreshed_put hout]
    cases r with
    | ok newEtag =>
      refine hput.beat hb' fun b hb'' => ?_
      obtain rfl := Option.some.inj hb''
      exact ⟨hlost', fun _ _ _ he => (by cases he), .inr (hok newEtag rfl)⟩
    | error e =>
      unfold GcInstance.answered
      dsimp only
      split
      · exact hput.beat hb' fun b hb'' => by cases hb''
      · refine hput.beat hb' fun b hb'' => ?_
        obtain rfl := Option.some.inj hb''
        exact ⟨hlost', fun _ _ _ he => (by cases he), .inl rfl⟩

/-- A change of the first task behind the acquire. -/
theorem Tracks.moved {i : GcInstance} {w : World} (h : Tracks i w) {stage : Stage}
    (hacq : ∀ p, stage ≠ .acquiring p)
    (hrel : ∀ p result, stage = .releasing p result → Only AboutLock p.prog) :
    Tracks { i with stage } w := by
  refine h.update rfl (fun p hs => (hacq p hs).elim) hrel fun b hb => ?_
  have hb : i.heartbeat = some b := hb
  exact ⟨h.beats (by simp [hb]), fun etag since p he => h.refreshes etag since p (he ▸ hb),
    .inl ⟨b, hb, rfl⟩⟩

/-- Every step of the instance. -/
theorem Tracks.step {f : P Unit} {i i' : GcInstance} {w w' : World} {m : Move} (h : Tracks i w)
    (hstep : i.Step f w m i' w') : Tracks i' w' := by
  cases hstep with
  | acquire hs hc hstep => exact h.acquire hs hc hstep
  | refresh hb hc hstep => exact h.refresh hb hc hstep
  | work hs hc hstep =>
    obtain ⟨hans⟩ := hstep
    exact (h.renews (answers_renews hans.answers)).moved (fun _ hp => by cases hp)
      fun _ _ hp => by cases hp
  | workEnds hs hresult => exact h.moved (fun _ hp => by cases hp) fun _ _ hp => by cases hp
  | stop hs hidle =>
    refine h.update rfl ?_ ?_ fun b hb => by cases hb
    · intro p hp
      unfold GcInstance.stopped at hp
      split at hp <;> cases hp
    · intro p result hp
      unfold GcInstance.stopped at hp
      split at hp
      · cases hp
      · cases hp
        exact aboutLock_release i.id
  | release hs hc hstep =>
    rename_i p p' c result
    obtain ⟨hans⟩ := hstep
    have honly := h.releases _ _ hs
    refine (h.renews (answers_renews hans)).moved (fun p hp => ?_) fun p result' hp => ?_
    · split at hp <;> cases hp
    · split at hp
      · cases hp
      · cases hp
        exact honly.2 _
  | wake hb hdue =>
    refine h.beat hb fun b hb' => ?_
    obtain rfl := Option.some.inj hb'
    exact ⟨h.beats (by simp [hb]), fun _ _ _ he => (by cases he; exact .inl rfl), .inl rfl⟩

-- ---------------------------------------------------------------------------
-- Steps that are computed
-- ---------------------------------------------------------------------------

/-- Who of an instance moves, and how its call is answered. -/
inductive Turn where
  | task (a : Answer)
  | beat (a : Answer)
  | wake
  | workEnds
  | stop

/-- Answers to the work, which sees no lost lock. -/
def Answer.work (a : Answer) : (op : Op) → World → Option (Resp op × World)
  | .env .lockLost, w => some (false, w)
  | op, w => a.answer op w

theorem Answer.answers_work {a : Answer} (lost : Bool) (op : Op) (w : World) (r : Resp op)
    (w' : World) (h : a.work op w = some (r, w')) : WorkAnswers lost op w r w' := by
  cases op with
  | s3 o => exact answers_answer (a := a) _ w r w' h
  | env o =>
    cases o with
    | lockLost =>
      obtain ⟨rfl, rfl⟩ := Prod.mk.inj (Option.some.inj h)
      exact ⟨nofun, rfl⟩
    | _ => exact answers_answer (a := a) _ w r w' h

/-- Make one call of a program, and keep it. -/
def callOnce {α : Type} (answer : (op : Op) → World → Option (Resp op × World))
    (p : Proc Op Resp AnyError α) (w : World) :
    Option (Called Op Resp × Proc Op Resp AnyError α × World) :=
  match p.exec answer w with
  | some (⟨prog, c :: hist⟩, w') => some (c, ⟨prog, c :: hist⟩, w')
  | _ => none

theorem step_of_callOnce {α : Type} {answers : (op : Op) → World → Resp op → World → Prop}
    {answer : (op : Op) → World → Option (Resp op × World)}
    (hans : ∀ op w r w', answer op w = some (r, w') → answers op w r w')
    {p p' : Proc Op Resp AnyError α} {w w' : World} {c : Called Op Resp}
    (h : callOnce answer p w = some (c, p', w')) :
    p.Step answers w p' w' ∧ p'.hist = c :: p.hist := by
  unfold callOnce at h
  split at h
  · rename_i prog c' hist w₁ hexec
    obtain ⟨rfl, hp⟩ := Prod.mk.inj (Option.some.inj h)
    obtain ⟨rfl, rfl⟩ := Prod.mk.inj hp
    have hstep := Proc.exec_step hans hexec
    obtain ⟨op, r, -, hhist, -⟩ := hstep.cases
    exact ⟨hstep, by rw [hhist]; exact congrArg (· :: p.hist) (List.cons.inj hhist).1.symm⟩
  · cases h

/-- The step a turn picks, if it can be made. -/
def GcInstance.next (f : P Unit) (i : GcInstance) (w : World) :
    Turn → Option (Move × GcInstance × World)
  | .task a =>
    match i.stage with
    | .acquiring p => (callOnce a.answer p w).map fun x =>
      (.task x.1, (i.note x.1.1 w x.2.2).acquired f x.2.1 x.2.2.now, x.2.2)
    | .holding p => (callOnce a.work p w).map fun x =>
      (.task x.1, { i with stage := .holding x.2.1 }, x.2.2)
    | .releasing p result => (callOnce a.answer p w).map fun x =>
      (.task x.1, i.released x.2.1 result, x.2.2)
    | _ => none
  | .beat a =>
    match i.heartbeat with
    | some (.refreshing etag since p) => (callOnce a.answer p w).map fun x =>
      (.heartbeat x.1, (i.note x.1.1 w x.2.2).refreshed etag since x.2.1 x.2.2.now, x.2.2)
    | _ => none
  | .wake =>
    match i.heartbeat with
    | some (.sleeping etag since) =>
      if since + HEARTBEAT_SECS.toNat ≤ w.now then
        some (.wake,
          { i with heartbeat := some (.refreshing etag w.now ⟨refresh i.id etag, []⟩) }, w)
      else none
    | _ => none
  | .workEnds =>
    match i.stage with
    | .holding p => p.outcome?.map fun result =>
      (.workEnds, { i with stage := .stopping result }, w)
    | _ => none
  | .stop =>
    match i.stage, i.heartbeat with
    | .stopping _, some (.refreshing ..) => none
    | .stopping result, _ => some (.stop, i.stopped result, w)
    | _, _ => none

theorem GcInstance.step_of_next {f : P Unit} {i i' : GcInstance} {w w' : World} {t : Turn}
    {m : Move} (h : i.next f w t = some (m, i', w')) : i.Step f w m i' w' := by
  cases t with
  | task a =>
    simp only [next] at h
    split at h
    · rename_i p hs
      obtain ⟨⟨c, p', w₁⟩, hcall, he⟩ := Option.map_eq_some_iff.mp h
      cases he
      obtain ⟨hstep, hc⟩ := step_of_callOnce Answer.answers_answer hcall
      exact .acquire hs hc hstep
    · rename_i p hs
      obtain ⟨⟨c, p', w₁⟩, hcall, he⟩ := Option.map_eq_some_iff.mp h
      cases he
      obtain ⟨hstep, hc⟩ := step_of_callOnce (Answer.answers_work i.lost) hcall
      exact .work hs hc hstep
    · rename_i p result hs
      obtain ⟨⟨c, p', w₁⟩, hcall, he⟩ := Option.map_eq_some_iff.mp h
      cases he
      obtain ⟨hstep, hc⟩ := step_of_callOnce Answer.answers_answer hcall
      exact .release hs hc hstep
    · cases h
  | beat a =>
    simp only [next] at h
    split at h
    · rename_i etag since p hb
      obtain ⟨⟨c, p', w₁⟩, hcall, he⟩ := Option.map_eq_some_iff.mp h
      cases he
      obtain ⟨hstep, hc⟩ := step_of_callOnce Answer.answers_answer hcall
      exact .refresh hb hc hstep
    · cases h
  | wake =>
    simp only [next] at h
    split at h
    · rename_i etag since hb
      split at h
      · rename_i hdue
        cases h
        exact .wake hb hdue
      · cases h
    · cases h
  | workEnds =>
    simp only [next] at h
    split at h
    · rename_i p hs
      obtain ⟨result, hresult, he⟩ := Option.map_eq_some_iff.mp h
      cases he
      exact .workEnds hs hresult
    · cases h
  | stop =>
    simp only [next] at h
    split at h
    · cases h
    · rename_i hs hidle
      cases h
      exact .stop hs fun ⟨etag, since, p, hb⟩ => hidle etag since p hb
    · cases h

end Chbk
