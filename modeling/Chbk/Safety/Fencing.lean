import Chbk.Safety.Heartbeat

/-!
# Losing the lock

One instance in a bucket where others send any requests, at any time. The lost
token is there to stop it from deleting once the lock may be another's.

* `Contended.Step` — a step of the instance, a request of someone else, or time.
* `withGcLock_of_run` — the instance runs `with_gc_lock`.
* `refresh_loses_iff` — a refresh that finds the lock object replaced cancels the
  token; one that finds no lock object does not.
* `timely_run` — with every refresh answered on time, the work is never more than
  a TTL behind the last success unless the token is cancelled.
* `lock_loss_fenced` — both together; `token_stays` — runs where the token is not
  cancelled.
-/

namespace Chbk

open Lib Prog

-- ---------------------------------------------------------------------------
-- The system
-- ---------------------------------------------------------------------------

/-- An instance, and a bucket that is not its own. -/
structure Contended where
  world : World
  inst : GcInstance

inductive Contended.Label where
  | own (m : Move)
  | request (o : S3Op)
  | tick (now : Int)

namespace Contended

inductive Step (f : P Unit) : Contended → Label → Contended → Prop
  | own {s : Contended} {m : Move} {i : GcInstance} {w : World}
      (h : s.inst.Step f s.world m i w) : Step f s (.own m) ⟨w, i⟩
  | request {s : Contended} {o : S3Op} {r : Except SdkError (S3Ok o)} {w : World}
      (h : S3Answers o s.world r w) : Step f s (.request o) { s with world := w }
  | tick {s : Contended} {now : Int} (hnow : s.world.now ≤ now) :
      Step f s (.tick now) { s with world := { s.world with now } }

/-- A run whose steps are all `ok`. -/
def Run (f : P Unit) (ok : Contended → Label → Prop) : Contended → Contended → Prop :=
  Relation.ReflTransGen fun s s' => ∃ l, s.Step f l s' ∧ ok s l

/-- The lock object is the one the instance has last written. -/
def Owns (s : Contended) : Prop :=
  ∃ o, s.world.get? LOCK_KEY = some o ∧ s.inst.written = some o.etag

/-- More than a TTL has passed since the last success. -/
def Overdue (s : Contended) : Prop := s.inst.lastOk + TTL_SECS.toNat < s.world.now

/-- S3 has answered the call. -/
def Answered (s : Contended) (c : Called Op Resp) : Prop :=
  ∃ o : S3Op, c = ⟨.s3 o, (o.perform s.world).1⟩

end Contended

/-- Calls that delete something else than the lock object. -/
def Destructive : Op → Prop
  | .s3 (.deleteObject key) => key ≠ LOCK_KEY
  | .s3 (.deleteObjects _) => True
  | _ => False

variable {f : P Unit} {id : String} {w : World}

/-- In any run of the instance, its first task has run `with_gc_lock`. -/
theorem withGcLock_of_run {ok : Contended → Contended.Label → Prop} {s : Contended}
    (hrun : Contended.Run f ok ⟨w, .start id⟩ s) :
    ∃ tr hist, Proc.Trace Answers (fun _ _ => True) ⟨withGcLock f, []⟩ w tr
      ⟨s.inst.rest f, hist⟩ s.world := by
  induction hrun with
  | refl =>
    have hfirst : Proc.Step Answers ⟨withGcLock f, []⟩ w
        ⟨(GcInstance.start id).rest f, [⟨.env .newV4, id⟩]⟩ w := by
      rw [withGcLock_eq]
      exact .call ⟨trivial, rfl⟩
    exact ⟨_, _, Proc.Trace.start.call hfirst rfl⟩
  | tail _ hlast ih =>
    obtain ⟨tr, hist, htrace⟩ := ih
    obtain ⟨l, hstep, -⟩ := hlast
    cases hstep with
    | own hstep =>
      rcases hstep.main with hrest | ⟨c, hcall⟩
      · exact ⟨tr, hist, by rw [hrest]; exact htrace.beside trivial⟩
      · exact ⟨_, _, htrace.call (hcall hist) rfl⟩
    | request _ => exact ⟨tr, hist, htrace.beside trivial⟩
    | tick _ => exact ⟨tr, hist, htrace.beside trivial⟩

-- ---------------------------------------------------------------------------
-- A refresh that is answered
-- ---------------------------------------------------------------------------

theorem tracks_step {s s' : Contended} {l : Contended.Label} (h : Tracks s.inst s.world)
    (hstep : s.Step f l s') : Tracks s'.inst s'.world := by
  cases hstep with
  | own hstep => exact h.step hstep
  | request hans => exact h.renews hans.renews
  | tick hnow => exact h.renews ⟨le_refl _, fun _ => .inl rfl⟩

theorem tracks_run {ok : Contended → Contended.Label → Prop} (hw : w.LockNumbered)
    {s : Contended} (hrun : Contended.Run f ok ⟨w, .start id⟩ s) : Tracks s.inst s.world := by
  refine invariant_of_step (I := fun s : Contended => Tracks s.inst s.world) ?_
    (tracks_start id hw) hrun
  exact fun s s' h ⟨l, hstep, _⟩ => tracks_step h hstep

/-- The PUT of a refresh, with the ETag that is held: refused as such when the lock
object is another's, refused otherwise when there is none. -/
theorem Tracks.put_refused {i : GcInstance} (h : Tracks i w) {b : Heartbeat}
    (hb : i.heartbeat = some b) (hown : ¬ Contended.Owns ⟨w, i⟩) (info : LockInfo) :
    ∃ e, ((refreshPut info b.etag).perform w).1 = .error e ∧
      (isPreconditionFailed e = true ↔ w.Has LOCK_KEY) := by
  obtain ⟨etag, hetag, -, hno⟩ := h.held b hb
  cases hget : w.get? LOCK_KEY with
  | none =>
    refine ⟨refused 404 "NoSuchKey", by simp [refreshPut, S3Op.perform, hget], ?_⟩
    simp [World.Has, hget, isPreconditionFailed, refused]
  | some o =>
    have hne : o.etag ≠ b.etag := by
      intro he
      by_cases heq : b.etag = etag
      · exact hown ⟨o, hget, by rw [hetag, he, heq]⟩
      · exact hno heq o hget he
    refine ⟨refused 412 "PreconditionFailed", by simp [refreshPut, S3Op.perform, hget, hne], ?_⟩
    simp [World.Has, hget, isPreconditionFailed, refused]

/-- A refresh that is answered when the lock object is not the instance's own: the
token is cancelled if there is a lock object, and only then. -/
theorem refresh_loses_iff {s s' : Contended} (h : Tracks s.inst s.world) {c : Called Op Resp}
    (hstep : s.Step f (.own (.heartbeat c)) s') (hans : s.Answered c) (hown : ¬ s.Owns) :
    s'.inst.lost = true ↔ s.world.Has LOCK_KEY := by
  cases hstep with
  | own hstep =>
    cases hstep with
    | refresh hb hc hstep =>
      rename_i w' etag since p p'
      obtain ⟨o, rfl⟩ := hans
      rcases refreshAt_step (h.refreshes etag since p hb) hstep hc with
        ⟨-, -, -, o', r, he⟩ | ⟨info, r, -, he, -, hout⟩
      · cases he
      · obtain ⟨ho, hr⟩ := Sigma.mk.inj he
        obtain rfl := Op.s3.inj ho
        obtain rfl := eq_of_heq hr
        obtain ⟨e, hrefused, hiff⟩ := h.put_refused hb hown info
        have hlost : s.inst.lost = false := h.beats (by simp [hb])
        have hput : ((refreshPut info etag).perform s.world).1 = .error e := hrefused
        rw [← hiff]
        simp only [refreshed_put hout, hput, GcInstance.answered]
        cases isPreconditionFailed e with
        | true => simp
        | false => simp [hlost]

/-! ## Time -/

/-- What the heartbeat counts on: it wakes when its sleep is over, and its PUT is
answered by S3 within the rest of the TTL and finds a lock object. -/
def OnTime (s : Contended) : Contended.Label → Prop
  | .tick now => ∀ b, s.inst.heartbeat = some b →
    match b with
    | .sleeping _ since => now ≤ since + HEARTBEAT_SECS.toNat
    | .refreshing _ since _ => now ≤ since + (TTL_SECS - HEARTBEAT_SECS).toNat
  | .own (.heartbeat c) => ∀ o : S3Op, c.1 = .s3 o → s.Answered c ∧ s.world.Has LOCK_KEY
  | _ => True

/-- With the work under way, the token is cancelled or the next refresh is not
late. -/
def Timely (s : Contended) : Prop :=
  ∀ p, s.inst.stage = .holding p → s.inst.lost = true ∨
    (∃ etag, s.inst.heartbeat = some (.sleeping etag s.inst.lastOk) ∧
      s.world.now ≤ s.inst.lastOk + HEARTBEAT_SECS.toNat) ∨
    ∃ etag since p, s.inst.heartbeat = some (.refreshing etag since p) ∧
      since ≤ s.inst.lastOk + HEARTBEAT_SECS.toNat ∧
      s.world.now ≤ since + (TTL_SECS - HEARTBEAT_SECS).toNat

theorem Timely.not_overdue {s : Contended} (h : Timely s) {p : Proc Op Resp AnyError Unit}
    (hs : s.inst.stage = .holding p) (hover : s.Overdue) : s.inst.lost = true := by
  have httl : TTL_SECS.toNat = 60 := by decide
  have hbeat : HEARTBEAT_SECS.toNat = 30 := by decide
  have hrest : (TTL_SECS - HEARTBEAT_SECS).toNat = 30 := by decide
  unfold Contended.Overdue at hover
  rcases h p hs with hlost | ⟨_, -, hnow⟩ | ⟨_, _, _, -, hsince, hnow⟩
  · exact hlost
  · omega
  · omega

/-- Of a lock object that is there, the PUT of a refresh either succeeds or finds
another ETag. -/
theorem refreshPut_of_has (h : w.Has LOCK_KEY) (info : LockInfo) (etag : ETag) :
    (∃ newEtag, ((refreshPut info etag).perform w).1 = .ok newEtag) ∨
      ∃ e, ((refreshPut info etag).perform w).1 = .error e ∧ isPreconditionFailed e = true := by
  obtain ⟨o, ho⟩ := h
  by_cases he : o.etag = etag
  · exact .inl ⟨w.fresh, by simp [refreshPut, S3Op.perform, ho, he]⟩
  · exact .inr ⟨refused 412 "PreconditionFailed", by simp [refreshPut, S3Op.perform, ho, he], rfl⟩

theorem timely_step {s s' : Contended} {l : Contended.Label} (h : Tracks s.inst s.world)
    (htime : Timely s) (hstep : s.Step f l s') (hok : OnTime s l) : Timely s' := by
  cases hstep with
  | request hans =>
    intro p hs
    have hnow := (S3Answers.change hans).1
    simp only [hnow]
    exact htime p hs
  | tick hnow =>
    intro p hs
    rcases htime p hs with hlost | ⟨etag, hb, -⟩ | ⟨etag, since, p', hb, hsince, -⟩
    · exact .inl hlost
    · exact .inr (.inl ⟨etag, hb, hok _ hb⟩)
    · exact .inr (.inr ⟨etag, since, p', hb, hsince, hok _ hb⟩)
  | own hstep =>
    cases hstep with
    | acquire hs hc hstep =>
      intro p hs'
      unfold GcInstance.acquired at hs' ⊢
      split at hs'
      · cases hs'
      · exact .inr (.inl ⟨_, rfl, by simp⟩)
      · cases hs'
      · cases hs'
    | work hs hc hstep =>
      intro p hs'
      obtain ⟨hans⟩ := hstep
      simp only [answers_now hans.answers]
      exact htime _ hs
    | workEnds hs hresult =>
      intro p hs'
      cases hs'
    | stop hs hidle =>
      intro p hs'
      unfold GcInstance.stopped at hs'
      split at hs' <;> cases hs'
    | release hs hc hstep =>
      intro p hs'
      unfold GcInstance.released at hs'
      split at hs' <;> cases hs'
    | wake hb hdue =>
      intro p hs
      rename_i etag since
      rcases htime p hs with hlost | ⟨etag', hb', hnow⟩ | ⟨_, _, _, hb', -⟩
      · exact .inl hlost
      · exact .inr (.inr ⟨etag, s.world.now, _, rfl, hnow, by simp⟩)
      · cases hb.symm.trans hb'
    | refresh hb hc hstep =>
      rename_i w' etag since q q' c
      intro p hs
      rcases refreshAt_step (h.refreshes etag since q hb) hstep hc with
        ⟨rfl, -, hout, o, r, rfl⟩ | ⟨info, r, -, rfl, hans, hout⟩
      · simp only [GcInstance.refreshed, hout] at hs ⊢
        rcases htime p hs with hlost | ⟨_, hb', -⟩ | ⟨_, _, _, hb', hsince, hnow⟩
        · exact .inl hlost
        · cases hb.symm.trans hb'
        · cases hb.symm.trans hb'
          exact .inr (.inr ⟨_, _, _, rfl, hsince, hnow⟩)
      · -- the PUT is answered in time: it has succeeded, or the token is cancelled
        obtain ⟨⟨o, he⟩, hhas⟩ := hok _ rfl
        obtain ⟨ho, hr⟩ := Sigma.mk.inj he
        obtain rfl := Op.s3.inj ho
        obtain rfl := eq_of_heq hr
        rw [refreshed_put hout]
        rcases refreshPut_of_has hhas info etag with ⟨newEtag, hr⟩ | ⟨e, hr, hpre⟩
        · rw [hr]
          exact .inr (.inl ⟨newEtag, rfl, by simp [GcInstance.answered]⟩)
        · rw [hr]
          exact .inl (by simp [GcInstance.answered, hpre])

theorem timely_run (hw : w.LockNumbered) {s : Contended}
    (hrun : Contended.Run f OnTime ⟨w, .start id⟩ s) : Timely s := by
  have hboth : Tracks s.inst s.world ∧ Timely s := by
    refine invariant_of_step (I := fun s : Contended => Tracks s.inst s.world ∧ Timely s) ?_
      ⟨tracks_start id hw, fun p hs => by cases hs⟩ hrun
    intro s s' ⟨h, htime⟩ ⟨l, hstep, hok⟩
    exact ⟨tracks_step h hstep, timely_step h htime hstep hok⟩
  exact hboth.2

/-- Only the work deletes anything but the lock object. -/
theorem holding_of_destructive {s s' : Contended} (h : Tracks s.inst s.world) {c : Called Op Resp}
    (hstep : s.Step f (.own (.task c)) s') (hc : Destructive c.1) :
    ∃ p, s.inst.stage = .holding p := by
  have hlock : ∀ {op : Op}, AboutLock op → ¬ Destructive op := by
    intro op ho hd
    match op, ho, hd with
    | .s3 (.deleteObject _), ho, hd => exact hd ho
  have htakes : ∀ {id : String} {op : Op}, TakesLock id op → ¬ Destructive op := by
    intro id op ho hd
    match op, ho, hd with
    | .s3 (.deleteObject _), ho, hd => exact hd ho
  cases hstep with
  | own hstep =>
    cases hstep with
    | acquire hs hhist hstep =>
      obtain ⟨-, -, hacq⟩ := h.acquires _ hs
      obtain ⟨hans⟩ := hstep
      obtain ⟨rfl, -⟩ := List.cons.inj hhist
      exact (htakes hacq.1 hc).elim
    | work hs => exact ⟨_, hs⟩
    | release hs hhist hstep =>
      have hrel := h.releases _ _ hs
      obtain ⟨hans⟩ := hstep
      obtain ⟨rfl, -⟩ := List.cons.inj hhist
      exact (hlock hrel.1 hc).elim

-- ---------------------------------------------------------------------------
-- Runs that are computed
-- ---------------------------------------------------------------------------

namespace Contended

/-- Who moves next, and how. -/
inductive Choice where
  | own (t : Turn)
  | request (o : S3Op)
  | tick (now : Int)

/-- The step a choice picks, if it can be made. -/
def next (f : P Unit) (s : Contended) : Choice → Option (Label × Contended)
  | .own t => (s.inst.next f s.world t).map fun x => (.own x.1, ⟨x.2.2, x.2.1⟩)
  | .request o => some (.request o, { s with world := (o.perform s.world).2 })
  | .tick now =>
    if s.world.now ≤ now then some (.tick now, { s with world := { s.world with now } }) else none

theorem step_of_next {s s' : Contended} {l : Label} {c : Choice}
    (h : s.next f c = some (l, s')) : s.Step f l s' := by
  cases c with
  | own t =>
    obtain ⟨⟨m, i, w⟩, hnext, he⟩ := Option.map_eq_some_iff.mp h
    cases he
    exact .own (GcInstance.step_of_next hnext)
  | request o =>
    cases h
    exact .request (Answer.answers_perform o s.world)
  | tick now =>
    simp only [next] at h
    split at h
    · rename_i hnow
      cases h
      exact .tick hnow
    · cases h

/-- Carry out the choices, each of them allowed. -/
def exec (f : P Unit) (ok : Contended → Label → Bool) : List Choice → Contended →
    Option Contended
  | [], s => some s
  | c :: cs, s =>
    match s.next f c with
    | some (l, s') => if ok s l then exec f ok cs s' else none
    | none => none

theorem run_of_exec {ok : Contended → Label → Bool} {ok' : Contended → Label → Prop}
    (hok : ∀ s l, ok s l = true → ok' s l) {cs : List Choice} {s s' : Contended}
    (h : exec f ok cs s = some s') : Run f ok' s s' := by
  induction cs generalizing s with
  | nil =>
    cases h
    exact .refl
  | cons c cs ih =>
    unfold exec at h
    split at h
    · rename_i l s₁ hnext
      split at h
      · rename_i hl
        exact .head ⟨l, step_of_next hnext, hok s l hl⟩ (ih h)
      · cases h
    · cases h

/-- The choices lead to a step that passes the check. -/
def leadsTo (f : P Unit) (ok : Contended → Label → Bool) (s₀ : Contended) (cs : List Choice)
    (c : Choice) (check : Contended → Label → Contended → Bool) : Bool :=
  (exec f ok cs s₀).any fun s => (s.next f c).any fun x => check s x.1 x.2

theorem step_of_leadsTo {ok : Contended → Label → Bool} {ok' : Contended → Label → Prop}
    (hok : ∀ s l, ok s l = true → ok' s l) {cs : List Choice} {c : Choice} {s₀ : Contended}
    {check : Contended → Label → Contended → Bool} (h : leadsTo f ok s₀ cs c check = true) :
    ∃ s l s', Run f ok' s₀ s ∧ s.Step f l s' ∧ check s l s' = true := by
  unfold leadsTo at h
  cases hexec : exec f ok cs s₀ with
  | none =>
    rw [hexec] at h
    cases h
  | some s =>
    rw [hexec, Option.any_some] at h
    cases hnext : s.next f c with
    | none =>
      rw [hnext] at h
      cases h
    | some x =>
      rw [hnext, Option.any_some] at h
      exact ⟨s, x.1, x.2, run_of_exec hok hexec, step_of_next hnext, h⟩

/-- The call is a PUT, and S3 has answered it. -/
def putAnswered (s : Contended) : Called Op Resp → Bool
  | ⟨.s3 (.putObject key body ifMatch ifNoneMatch), r⟩ =>
    decide (r = ((S3Op.putObject key body ifMatch ifNoneMatch).perform s.world).1)
  | _ => false

theorem answered_of_putAnswered {s : Contended} {c : Called Op Resp}
    (h : s.putAnswered c = true) : s.Answered c := by
  unfold putAnswered at h
  split at h
  · exact ⟨_, by rw [of_decide_eq_true h]⟩
  · cases h

/-- `OnTime`, as a check. -/
def onTime (s : Contended) : Label → Bool
  | .tick now =>
    match s.inst.heartbeat with
    | some (.sleeping _ since) => now ≤ since + HEARTBEAT_SECS.toNat
    | some (.refreshing _ since _) => now ≤ since + (TTL_SECS - HEARTBEAT_SECS).toNat
    | none => true
  | .own (.heartbeat ⟨.s3 o, r⟩) => s.putAnswered ⟨.s3 o, r⟩ && (s.world.get? LOCK_KEY).isSome
  | _ => true

theorem onTime_of_check {s : Contended} {l : Label} (h : s.onTime l = true) : OnTime s l := by
  match l, h with
  | .tick now, h =>
    intro b hb
    cases b with
    | sleeping etag since => simpa [onTime, hb] using h
    | refreshing etag since p => simpa [onTime, hb] using h
  | .own (.heartbeat ⟨.s3 o, r⟩), h =>
    obtain ⟨hans, hsome⟩ := Bool.and_eq_true_iff.mp h
    exact fun _ _ => ⟨answered_of_putAnswered hans, Option.isSome_iff_exists.mp hsome⟩
  | .own (.heartbeat ⟨.env o, r⟩), _ => exact fun _ ho => by cases ho
  | .own (.task c), _ => trivial
  | .own .wake, _ => trivial
  | .own .workEnds, _ => trivial
  | .own .stop, _ => trivial
  | .request o, _ => trivial

instance (s : Contended) : Decidable s.Overdue := inferInstanceAs (Decidable (_ < _))

/-- The step deletes something else than the lock object. -/
def Label.deletes : Label → Bool
  | .own (.task ⟨.s3 (.deleteObject key), _⟩) => key ≠ LOCK_KEY
  | .own (.task ⟨.s3 (.deleteObjects _), _⟩) => true
  | _ => false

theorem destructive_of_deletes {l : Label} (h : l.deletes = true) :
    ∃ c, l = .own (.task c) ∧ Destructive c.1 := by
  unfold Label.deletes at h
  split at h
  · have hkey := of_decide_eq_true h
    exact ⟨_, rfl, hkey⟩
  · exact ⟨_, rfl, trivial⟩
  · cases h

end Contended

-- ---------------------------------------------------------------------------
-- When the token is cancelled in time
-- ---------------------------------------------------------------------------

/-- What the token is there for: a refresh that is answered when the lock object is
not the instance's own cancels it, and a deletion finds it cancelled when more than
a TTL has passed since the last success. -/
def Contended.Fenced (s : Contended) (l : Label) (s' : Contended) : Prop :=
  match l with
  | .own (.heartbeat c) => s.Answered c → ¬ s.Owns → s'.inst.lost = true
  | .own (.task c) => Destructive c.1 → s.Overdue → s.inst.lost = true
  | _ => True

/-- In a run where each refresh is answered on time and finds a lock object, every
step is fenced. In any run, a refresh that is answered when the lock object is not
the instance's own cancels the token exactly if there is one. -/
theorem lock_loss_fenced (f : P Unit) (id : String) (w : World) (hw : w.LockNumbered) :
    (∀ s l s', Contended.Run f OnTime ⟨w, .start id⟩ s → s.Step f l s' → OnTime s l →
      s.Fenced l s') ∧
    ∀ s c s', Contended.Run f (fun _ _ => True) ⟨w, .start id⟩ s →
      s.Step f (.own (.heartbeat c)) s' → s.Answered c → ¬ s.Owns →
      (s'.inst.lost = true ↔ s.world.Has LOCK_KEY) := by
  refine ⟨fun s l s' hrun hstep hok => ?_, fun s c s' hrun hstep hans hown =>
    refresh_loses_iff (tracks_run hw hrun) hstep hans hown⟩
  have htracks := tracks_run hw hrun
  match l, hstep, hok with
  | .own (.heartbeat c), hstep, hok =>
    intro hans hown
    obtain ⟨o, hc⟩ := hans
    have hhas : s.world.Has LOCK_KEY := (hok o (by rw [hc])).2
    exact (refresh_loses_iff htracks hstep ⟨o, hc⟩ hown).mpr hhas
  | .own (.task c), hstep, _ =>
    intro hdes hover
    obtain ⟨p, hs⟩ := holding_of_destructive htracks hstep hdes
    exact (timely_run hw hrun).not_overdue hs hover
  | .own .wake, _, _ => trivial
  | .own .workEnds, _, _ => trivial
  | .own .stop, _, _ => trivial
  | .request _, _, _ => trivial
  | .tick _, _, _ => trivial

/-- The instance takes the lock and reads what `rm-snapshot` needs; its next call
deletes the manifest. -/
def untilDelete : List Contended.Choice := List.replicate 14 (.own (.task served))

/-- The heartbeat wakes and comes to its PUT. -/
def untilPut : List Contended.Choice :=
  [.tick 30, .own .wake, .own (.beat served), .own (.beat served)]

/-- The site's instance at its start. -/
def contendedSite : Contended := ⟨siteWorld "live_s1_r1_a", .start "aaaaaaaa"⟩

theorem contendedSite_numbered : (siteWorld "live_s1_r1_a").LockNumbered := by
  intro o ho
  have hnone : (siteWorld "live_s1_r1_a").get? LOCK_KEY = none := by decide +kernel
  cases hnone.symm.trans ho

/-- A deletion comes more than a TTL behind the last success. -/
def lateDeletion (lost : Bool) (s : Contended) (l : Contended.Label) (_ : Contended) : Bool :=
  l.deletes && decide s.Overdue && s.inst.lost == lost

theorem late_of_check {lost : Bool} {s s' : Contended} {l : Contended.Label}
    (h : lateDeletion lost s l s' = true) :
    ∃ c, l = .own (.task c) ∧ Destructive c.1 ∧ s.Overdue ∧ s.inst.lost = lost := by
  obtain ⟨hlate, hlost⟩ := Bool.and_eq_true_iff.mp h
  obtain ⟨hdel, hover⟩ := Bool.and_eq_true_iff.mp hlate
  obtain ⟨c, hc, hdes⟩ := Contended.destructive_of_deletes hdel
  exact ⟨c, hc, hdes, of_decide_eq_true hover, eq_of_beq hlost⟩

/-- Another instance breaks the lock and takes it before the refresh. -/
def brokenLock : List Contended.Choice :=
  untilDelete ++ untilPut ++ [.request (.deleteObject LOCK_KEY),
    .request (.putObject LOCK_KEY (.lock ⟨"bbbbbbbb", "host", 30, TTL_SECS⟩) none true),
    .own (.beat served), .tick 100]

/-- The deletion behind it, much later, finds the token cancelled. -/
theorem lock_loss_fenced_broken : ∃ f, gcSnapshot "live_s1_r1_a" false = withGcLock f ∧
    ∃ s c s', Contended.Run f OnTime contendedSite s ∧ s.Step f (.own (.task c)) s' ∧
      Destructive c.1 ∧ s.Overdue ∧ s.inst.lost = true := by
  have hfenced : ∀ f, Contended.leadsTo f Contended.onTime contendedSite brokenLock
      (.own (.task served)) (lateDeletion true) = true →
      ∃ s c s', Contended.Run f OnTime contendedSite s ∧ s.Step f (.own (.task c)) s' ∧
        Destructive c.1 ∧ s.Overdue ∧ s.inst.lost = true := by
    intro f h
    obtain ⟨s, l, s', hrun, hstep, hcheck⟩ :=
      Contended.step_of_leadsTo (fun _ _ => Contended.onTime_of_check) h
    obtain ⟨c, rfl, hdes, hover, -⟩ := late_of_check hcheck
    exact ⟨s, c, s', hrun, hstep, hdes, hover,
      (lock_loss_fenced f _ _ contendedSite_numbered).1 s _ s' hrun hstep trivial hdes hover⟩
  exact ⟨_, rfl, hfenced _ (by decide +kernel)⟩

-- ---------------------------------------------------------------------------
-- When it is not
-- ---------------------------------------------------------------------------

/-- A refresh is answered, finds no lock object, and the token stays. -/
def missesLock (s : Contended) (l : Contended.Label) (s' : Contended) : Bool :=
  match l with
  | .own (.heartbeat c) => s.putAnswered c && (s.world.get? LOCK_KEY).isNone && !s'.inst.lost
  | _ => false

theorem not_fenced_of_missesLock {s s' : Contended} {l : Contended.Label}
    (h : missesLock s l s' = true) : ∃ c, l = .own (.heartbeat c) ∧ ¬ s.Fenced l s' := by
  unfold missesLock at h
  split at h
  · rename_i c
    obtain ⟨hput, hlost⟩ := Bool.and_eq_true_iff.mp h
    obtain ⟨hans, hnone⟩ := Bool.and_eq_true_iff.mp hput
    refine ⟨c, rfl, fun hfenced => ?_⟩
    have hown : ¬ s.Owns := by
      rintro ⟨o, ho, -⟩
      rw [ho] at hnone
      cases hnone
    rw [hfenced (Contended.answered_of_putAnswered hans) hown] at hlost
    cases hlost
  · cases h

/-- A refresh between another instance's DELETE and its PUT does not cancel the
token; nor do refreshes that fail until the TTL is over. -/
theorem token_stays : ∃ f, gcSnapshot "live_s1_r1_a" false = withGcLock f ∧
    (∃ s c s', Contended.Run f (fun _ _ => True) contendedSite s ∧
      s.Step f (.own (.heartbeat c)) s' ∧ ¬ s.Fenced (.own (.heartbeat c)) s') ∧
    ∃ s c s', Contended.Run f (fun _ _ => True) contendedSite s ∧
      s.Step f (.own (.task c)) s' ∧ ¬ s.Fenced (.own (.task c)) s' := by
  have hany : ∀ (s : Contended) (l : Contended.Label), true = true → True := fun _ _ _ => trivial
  have hmissed : ∀ f, Contended.leadsTo f (fun _ _ => true) contendedSite
      (untilDelete ++ untilPut ++ [.request (.deleteObject LOCK_KEY)]) (.own (.beat served))
      missesLock = true →
      ∃ s c s', Contended.Run f (fun _ _ => True) contendedSite s ∧
        s.Step f (.own (.heartbeat c)) s' ∧ ¬ s.Fenced (.own (.heartbeat c)) s' := by
    intro f h
    obtain ⟨s, l, s', hrun, hstep, hcheck⟩ := Contended.step_of_leadsTo hany h
    obtain ⟨c, rfl, hno⟩ := not_fenced_of_missesLock hcheck
    exact ⟨s, c, s', hrun, hstep, hno⟩
  have hlate : ∀ f, Contended.leadsTo f (fun _ _ => true) contendedSite
      (untilDelete ++ untilPut ++ [.own (.beat (lost false)), .tick 61]) (.own (.task served))
      (lateDeletion false) = true →
      ∃ s c s', Contended.Run f (fun _ _ => True) contendedSite s ∧
        s.Step f (.own (.task c)) s' ∧ ¬ s.Fenced (.own (.task c)) s' := by
    intro f h
    obtain ⟨s, l, s', hrun, hstep, hcheck⟩ := Contended.step_of_leadsTo hany h
    obtain ⟨c, rfl, hdes, hover, hlost⟩ := late_of_check hcheck
    exact ⟨s, c, s', hrun, hstep, fun hfenced =>
      Bool.false_ne_true (hlost.symm.trans (hfenced hdes hover))⟩
  exact ⟨_, rfl, hmissed _ (by decide +kernel), hlate _ (by decide +kernel)⟩

end Chbk
