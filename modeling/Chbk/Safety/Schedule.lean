import Chbk.Safety.Fleet

/-!
# Runs that are computed

A run given by a list of choices: who moves, what its surroundings answer, and
whether S3 serves the request. `exec` carries the choices out; what it reaches
is reached by a run (`run_of_exec`), so a concrete run is checked by evaluation.
-/

namespace Chbk

open Lib

/-- How a call is answered: by the surroundings, and by S3, which may fail with
the effect of the request or without. -/
structure Answer where
  env : (o : EnvOp) → Option (EnvResp o)
  fault : Option (Bool × SdkError) := none

namespace Answer

def answer (a : Answer) : (op : Op) → World → Option (Resp op × World)
  | .s3 o, w =>
    match a.fault with
    | none => some (o.perform w)
    | some (true, e) => some (.error e, (o.perform w).2)
    | some (false, e) => some (.error e, w)
  | .env .utcNow, w => some (w.now, w)
  | .env o, w => (a.env o).map fun r => (r, w)

theorem answers_perform (o : S3Op) (w : World) :
    S3Answers o w (o.perform w).1 (o.perform w).2 := by
  cases h : (o.perform w).1 with
  | error e => exact .inl (Prod.ext h rfl)
  | ok a =>
    cases o with
    | deleteObjects keys => exact ⟨keys, fun _ hk => hk, fun _ hk => .inl hk, rfl⟩
    | _ => exact Prod.ext h rfl

theorem fails_after (o : S3Op) (w : World) (e : SdkError) : S3Fails o w e (o.perform w).2 := by
  cases o with
  | deleteObjects keys => exact ⟨keys, fun _ hk => hk, rfl⟩
  | _ => exact .inr rfl

theorem fails_before (o : S3Op) (w : World) (e : SdkError) : S3Fails o w e w := by
  cases o with
  | deleteObjects keys => exact ⟨[], by simp, rfl⟩
  | _ => exact .inl rfl

theorem answers_answer {a : Answer} (op : Op) (w : World) (r : Resp op) (w' : World)
    (h : a.answer op w = some (r, w')) : Answers op w r w' := by
  cases op with
  | s3 o =>
    simp only [answer] at h
    split at h
    · have hp := answers_perform o w
      rw [Option.some.inj h] at hp
      exact hp
    · obtain ⟨rfl, rfl⟩ := Prod.mk.inj (Option.some.inj h)
      exact .inr (fails_after o w _)
    · obtain ⟨rfl, rfl⟩ := Prod.mk.inj (Option.some.inj h)
      exact .inr (fails_before o _ _)
  | env o =>
    cases o with
    | utcNow =>
      obtain ⟨rfl, rfl⟩ := Prod.mk.inj (Option.some.inj h)
      exact ⟨rfl, rfl⟩
    | _ =>
      obtain ⟨r', -, he⟩ := Option.map_eq_some_iff.mp h
      obtain ⟨rfl, rfl⟩ := Prod.mk.inj he
      exact ⟨trivial, rfl⟩

end Answer

/-- Who moves next, and how. -/
inductive Choice where
  | startBackup (cfg : Config) (name : Option String)
  | startGc (cmd : GcCommand)
  | backup (i : Nat) (a : Answer)
  | gc (a : Answer)
  | crashBackup (i : Nat)
  | crashGc
  | tick (now : Int)

namespace System

/-- The step a choice picks, if it can be made. -/
def next (json : Json) (s : System) : Choice → Option (Label × System)
  | .startBackup cfg name => some (.startBackup,
      { s with backups := s.backups ++ [⟨⟨createSnapshot json cfg name, []⟩, s.world.now,
          true, false, false⟩] })
  | .startGc cmd =>
    if (s.gc.bind Proc.next?).isSome then none
    else some (.startGc cmd, { s with gc := some ⟨cmd.prog, []⟩ })
  | .backup i a =>
    match s.backups.drop i with
    | [] => none
    | b :: r =>
      if b.alive then
        match b.proc.exec a.answer s.world with
        | some (⟨prog, c :: hist⟩, w) => some (.backup b c w,
            ⟨w, s.backups.take i ++ b.after ⟨prog, c :: hist⟩ c.1 s.world w :: r, s.gc⟩)
        | _ => none
      else none
  | .gc a =>
    match s.gc with
    | none => none
    | some p =>
      match p.exec a.answer s.world with
      | some (⟨prog, c :: hist⟩, w) => some (.gc c,
          ⟨w, relist c s.backups, some ⟨prog, c :: hist⟩⟩)
      | _ => none
  | .crashBackup i =>
    match s.backups.drop i with
    | [] => none
    | b :: r => some (.crashBackup,
        { s with backups := s.backups.take i ++ { b with alive := false } :: r })
  | .crashGc => some (.crashGc, { s with gc := none })
  | .tick now =>
    if s.world.now ≤ now then some (.tick now, { s with world := { s.world with now } }) else none

theorem split_of_drop {α : Type} {l r : List α} {a : α} {i : Nat} (h : l.drop i = a :: r) :
    l = l.take i ++ a :: r := by
  rw [← h, List.take_append_drop]

theorem hist_of_step {α : Type} {p p' : Proc Op Resp AnyError α} {w w' : World}
    {c : Called Op Resp} {hist : History Op Resp} (h : p.Step Answers w p' w')
    (hc : p'.hist = c :: hist) : p'.hist = c :: p.hist := by
  obtain ⟨op, r, -, hh, -⟩ := h.cases
  rw [hh] at hc ⊢
  rw [(List.cons.inj hc).1]

theorem step_of_next {json : Json} {s s' : System} {c : Choice} {l : Label}
    (h : s.next json c = some (l, s')) : s.Step json l s' := by
  cases c with
  | startBackup cfg name =>
    obtain ⟨rfl, rfl⟩ := Prod.mk.inj (Option.some.inj h)
    exact .startBackup cfg name
  | startGc cmd =>
    simp only [next] at h
    split at h
    · cases h
    · rename_i hidle
      obtain ⟨rfl, rfl⟩ := Prod.mk.inj (Option.some.inj h)
      exact .startGc cmd fun p hp hrun => hidle (by simpa [hp, Proc.Running] using hrun)
  | backup i a =>
    simp only [next] at h
    split at h
    · cases h
    · rename_i b r hdrop
      split at h
      · rename_i halive
        split at h
        · rename_i prog c hist w hexec
          obtain ⟨rfl, rfl⟩ := Prod.mk.inj (Option.some.inj h)
          have hstep := Proc.exec_step (fun op w r w' => Answer.answers_answer op w r w') hexec
          exact .backup (split_of_drop hdrop) halive (hist_of_step hstep rfl) hstep
        · cases h
      · cases h
  | gc a =>
    simp only [next] at h
    split at h
    · cases h
    · rename_i p hp
      split at h
      · rename_i prog c hist w hexec
        obtain ⟨rfl, rfl⟩ := Prod.mk.inj (Option.some.inj h)
        have hstep := Proc.exec_step (fun op w r w' => Answer.answers_answer op w r w') hexec
        exact .gc hp (hist_of_step hstep rfl) hstep
      · cases h
  | crashBackup i =>
    simp only [next] at h
    split at h
    · cases h
    · rename_i b r hdrop
      obtain ⟨rfl, rfl⟩ := Prod.mk.inj (Option.some.inj h)
      exact .crashBackup (split_of_drop hdrop)
  | crashGc =>
    obtain ⟨rfl, rfl⟩ := Prod.mk.inj (Option.some.inj h)
    exact .crashGc
  | tick now =>
    simp only [next] at h
    split at h
    · rename_i hnow
      obtain ⟨rfl, rfl⟩ := Prod.mk.inj (Option.some.inj h)
      exact .tick hnow
    · cases h

/-- Carry out the choices, each of them allowed. -/
def exec (json : Json) (ok : System → Label → Bool) : List Choice → System → Option System
  | [], s => some s
  | c :: cs, s =>
    match s.next json c with
    | some (l, s') => if ok s l then exec json ok cs s' else none
    | none => none

/-- What the choices reach is reached by a run. -/
theorem run_of_exec {json : Json} {ok : System → Label → Bool}
    {ok' : System → Label → System → Prop} (hok : ∀ s l s', ok s l = true → ok' s l s') :
    ∀ {cs : List Choice} {s s' : System}, exec json ok cs s = some s' → s.Run json ok' s' := by
  intro cs
  induction cs with
  | nil =>
    intro s s' h
    rw [Option.some.inj h]
    exact .refl
  | cons c cs ih =>
    intro s s' h
    unfold exec at h
    split at h
    · rename_i l s₁ hnext
      split at h
      · rename_i hl
        exact .head ⟨l, step_of_next hnext, hok s l s₁ hl⟩ (ih h)
      · cases h
    · cases h

end System

/-! ## One program alone -/

/-- Make one call of a program, and note it down. -/
def callAlone {α : Type} (a : Answer) (p : Proc Op Resp AnyError α) (w : World) :
    Option (Event Op Resp World × Proc Op Resp AnyError α × World) :=
  match p.exec a.answer w with
  | some (⟨prog, c :: hist⟩, w') => some (⟨p.hist, w, c, w'⟩, ⟨prog, c :: hist⟩, w')
  | _ => none

/-- Make calls of a program, one for each answer. -/
def runAlone {α : Type} : List Answer → List (Event Op Resp World) → Proc Op Resp AnyError α →
    World → Option (List (Event Op Resp World) × Proc Op Resp AnyError α × World)
  | [], tr, p, w => some (tr, p, w)
  | a :: as, tr, p, w =>
    match callAlone a p w with
    | some (x, p', w') => runAlone as (tr ++ [x]) p' w'
    | none => none

theorem trace_of_callAlone {α : Type} {beside : World → World → Prop} {a : Answer}
    {p₀ p p' : Proc Op Resp AnyError α} {w₀ w w' : World} {tr : List (Event Op Resp World)}
    {x : Event Op Resp World} (h : Proc.Trace Answers beside p₀ w₀ tr p w)
    (hcall : callAlone a p w = some (x, p', w')) :
    Proc.Trace Answers beside p₀ w₀ (tr ++ [x]) p' w' := by
  unfold callAlone at hcall
  split at hcall
  · rename_i prog c hist w₁ hexec
    obtain ⟨rfl, hp⟩ := Prod.mk.inj (Option.some.inj hcall)
    obtain ⟨rfl, rfl⟩ := Prod.mk.inj hp
    have hstep := Proc.exec_step (fun op w r w' => Answer.answers_answer op w r w') hexec
    exact h.call hstep (System.hist_of_step hstep rfl)
  · cases hcall

/-- What the answers lead to is a run of the program alone. -/
theorem trace_of_runAlone {α : Type} {beside : World → World → Prop} {as : List Answer}
    {p₀ p p' : Proc Op Resp AnyError α} {w₀ w w' : World} {tr tr' : List (Event Op Resp World)}
    (h : Proc.Trace Answers beside p₀ w₀ tr p w)
    (hrun : runAlone as tr p w = some (tr', p', w')) :
    Proc.Trace Answers beside p₀ w₀ tr' p' w' := by
  induction as generalizing tr p w with
  | nil =>
    obtain ⟨rfl, hp⟩ := Prod.mk.inj (Option.some.inj hrun)
    obtain ⟨rfl, rfl⟩ := Prod.mk.inj hp
    exact h
  | cons a as ih =>
    unfold runAlone at hrun
    split at hrun
    · rename_i x p₁ w₁ hcall
      exact ih (trace_of_callAlone h hcall) hrun
    · cases hrun

/-! ## A small site

One table with one part of one file, and surroundings that answer every
question, for runs on concrete inputs. -/

def siteHash : String := "00112233445566778899aabbccddeeff"

/-- The JSON library, as far as the one row goes. -/
def siteJson : Json where
  fromStr line :=
    if line = "row" then
      some (.object [("database", .string "db"), ("table", .string "t"),
        ("name", .string "all_1_1_0"), ("path", .string "/ch/t/all_1_1_0/"),
        ("hash_of_all_files", .string siteHash), ("bytes_on_disk", .string "1"),
        ("rows", .string "1")])
    else none
  toStr _ := ""

def siteConfig : Config where
  s3Bucket := some "bucket"
  s3Region := some "region"
  s3AccessKeyId := some "id"
  s3SecretAccessKey := some "key"
  chDataPath := "/ch"
  outputDir := "/backup"
  useClickhouseLocal := false
  onlyTablesPattern := none
  ignoreTablesPattern := none
  partConcurrency := 1
  deleteConcurrency := 1
  multipartPartConcurrency := 1
  uploadMinChunkSize := 0
  uploadMaxChunkSize := 0
  uploadTargetParts := 1
  shard := some "s1"
  replica := some "r1"

def siteEnv : (o : EnvOp) → Option (EnvResp o)
  | .utcNow | .panic _ => none
  | .newV4 => some "aaaaaaaa"
  | .gethostname => some "host"
  | .order => some []
  | .ahead => some 0
  | .runQuery _ => some (.ok "row")
  | .localStep _ | .stagePart .. | .createDirAll _ | .writeFile .. | .extractZip .. => some (.ok ())
  | .println _ => some ()
  | .readFile _ | .walkFiles _ => some (.ok [])
  | .collectFiles .. => some (.ok [⟨"/backup/data.bin", "data.bin", 1⟩])
  | .openFiles .. => some fun _ => .ok ⟨[0], []⟩
  | .pipe => some []
  | .lockLost => some false

/-- A call that does not fail. -/
def served : Answer := ⟨siteEnv, none⟩

/-- A call that fails, with the effect of its request or without. -/
def lost (effect : Bool) : Answer := ⟨siteEnv, some (effect, .timeoutError)⟩

/-- The bucket that choices lead to. -/
def worldAfter (ok : System → Label → Bool) (cs : List Choice) (s : System) : Option World :=
  (System.exec siteJson ok cs s).map System.world

/-- A check of the bucket that choices lead to is a check of a bucket a run
reaches. -/
theorem run_of_worldAfter {ok : System → Label → Bool} {ok' : System → Label → System → Prop}
    (hok : ∀ s l s', ok s l = true → ok' s l s') {cs : List Choice} {s : System}
    {P : World → Bool} (h : (worldAfter ok cs s).any P = true) :
    ∃ s', s.Run siteJson ok' s' ∧ P s'.world = true := by
  unfold worldAfter at h
  cases hexec : System.exec siteJson ok cs s with
  | none =>
    rw [hexec] at h
    cases h
  | some s' =>
    rw [hexec] at h
    exact ⟨s', System.run_of_exec hok hexec, h⟩

/-- The blobs of the manifest under this name, if there is one, and which of
them are missing. -/
def World.missing (w : World) (name : String) : Option (List String) :=
  match w.get? (manifestKey name) with
  | some ⟨.manifest m, _, _⟩ => some (m.blobKeys.filter fun k => (w.get? k).isNone)
  | _ => none

theorem World.holds_of_missing {w : World} {name : String} {ks : List String}
    (h : w.missing name = some ks) :
    ∃ m, w.Holds name m ∧ ks = m.blobKeys.filter fun k => (w.get? k).isNone := by
  unfold missing at h
  split at h
  · rename_i m etag lastModified hget
    exact ⟨m, ⟨_, hget, rfl⟩, (Option.some.inj h).symm⟩
  · cases h

theorem not_noDangling_of_missing {w : World} {name k : String} {ks : List String}
    (h : w.missing name = some (k :: ks)) : ¬ NoDangling w := by
  intro hsafe
  obtain ⟨m, hm, hks⟩ := World.holds_of_missing h
  have hk : k ∈ m.blobKeys.filter fun k => (w.get? k).isNone := hks ▸ List.mem_cons_self ..
  obtain ⟨hmem, hnone⟩ := List.mem_filter.mp hk
  obtain ⟨o, ho⟩ := hsafe name m hm k hmem
  rw [ho] at hnone
  cases hnone

/-- Every manifest in the bucket has its blobs there. -/
def World.complete (w : World) : Bool :=
  w.objects.all fun x => match x.2.body with
    | .manifest m => m.blobKeys.all fun k => (w.get? k).isSome
    | _ => true

theorem noDangling_of_complete {w : World} (h : w.complete = true) : NoDangling w := by
  rintro name m ⟨o, ho, hb⟩ k hk
  have hx := List.all_eq_true.mp h _ (mem_of_lookup ho)
  simp only [hb] at hx
  exact Option.isSome_iff_exists.mp (List.all_eq_true.mp hx k hk)

/-- An automatic snapshot of the site. -/
def siteManifest (name : String) (timestamp : Int) : Manifest where
  name
  timestamp
  shard := "s1"
  replica := "r1"
  createdBy := "host"
  parts := [⟨"db", "t", "all_1_1_0", siteHash, 1⟩]
  files := []

/-- The site's bucket with one automatic snapshot in it. -/
def siteWorld (name : String) : World where
  objects := [(manifestKey name, ⟨.manifest (siteManifest name 0), 0, 0⟩),
    (blobRemoteKey siteHash, ⟨.data [0], 1, 0⟩)]
  fresh := 2

end Chbk
