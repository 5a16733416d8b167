import Chbk.Lib.Groups
import Chbk.Model.Storage

/-!
# What the storage methods ask for

For each method of the storage module: which rule its requests must pass, and
what a watch has seen when it returns. The watch and the rule are parameters.

* `follows_s3Retry` — a request with its retries; every attempt is a request of
  its own, and all but the last one failed.
* `follows_deleteObjectsBulk` — only deletes of the given keys.
-/

namespace Chbk

open Lib Prog

variable {V : Type} {M : Watch Op Resp V} {rule : V → Op → Prop}

/-! ## Single calls -/

theorem follows_send {o : S3Op} {v : V} {Q : Except SdkError (S3Ok o) → V → Prop}
    {E : AnyError → V → Prop} (hrule : rule v (.s3 o)) (h : ∀ r, Q r (M.observe v (.s3 o) r)) :
    Follows M rule (send o) v Q E :=
  Follows.ask hrule h

theorem follows_askEnv {o : EnvOp} {v : V} {Q : EnvResp o → V → Prop} {E : AnyError → V → Prop}
    (hrule : rule v (.env o)) (h : ∀ r, Q r (M.observe v (.env o) r)) :
    Follows M rule (askEnv o) v Q E :=
  Follows.ask hrule h

theorem follows_liftP {α : Type} {x : Except AnyError α} {v : V} {Q : α → V → Prop}
    {E : AnyError → V → Prop} (hok : ∀ a, x = .ok a → Q a v) (herr : ∀ e, x = .error e → E e v) :
    Follows M rule (liftP x) v Q E := by
  cases x with
  | ok a => exact hok a rfl
  | error e => exact herr e rfl

theorem only_liftP {α : Type} {S : Op → Prop} (x : Except AnyError α) : Only S (liftP x) := by
  cases x with
  | ok a => exact only_pure _
  | error e => exact only_throw _

theorem only_orContext {α : Type} {S : Op → Prop} (msg : String) (r : Except SdkError α) :
    Only S (orContext msg r) := by
  cases r with
  | ok a => exact only_pure a
  | error e => exact only_throw _

theorem follows_orContext {T : Type} {msg : String} {x : Except SdkError T} {v : V}
    {Q : T → V → Prop} {E : AnyError → V → Prop} (hok : ∀ a, x = .ok a → Q a v)
    (herr : ∀ e e', x = .error e → E e' v) : Follows M rule (orContext msg x) v Q E := by
  cases x with
  | ok a => exact hok a rfl
  | error e => exact herr e _ rfl

theorem follows_deleteObject {key : String} {v : V} {Q : Unit → V → Prop}
    {E : AnyError → V → Prop} (hrule : rule v (.s3 (.deleteObject key)))
    (hok : Q () (M.observe v (.s3 (.deleteObject key)) (.ok ())))
    (herr : ∀ e e', E e' (M.observe v (.s3 (.deleteObject key)) (.error e))) :
    Follows M rule (deleteObject key) v Q E := by
  refine Follows.bind (R := fun r v' => v' = M.observe v (.s3 (.deleteObject key)) r)
    (follows_send hrule fun r => rfl) fun r v' hv' => ?_
  subst hv'
  refine follows_orContext ?_ ?_
  · rintro ⟨⟩ rfl
    exact hok
  · rintro e e' rfl
    exact herr e e'

theorem follows_getObject {key : String} {v : V} {Q : Body → V → Prop}
    {E : AnyError → V → Prop} (hrule : rule v (.s3 (.getObject key)))
    (hok : ∀ b, Q b (M.observe v (.s3 (.getObject key)) (.ok b)))
    (herr : ∀ e e', E e' (M.observe v (.s3 (.getObject key)) (.error e))) :
    Follows M rule (getObject key) v Q E := by
  refine Follows.bind (R := fun r v' => v' = M.observe v (.s3 (.getObject key)) r)
    (follows_send hrule fun r => rfl) fun r v' hv' => ?_
  subst hv'
  refine follows_orContext ?_ ?_
  · rintro b rfl
    exact hok b
  · rintro e e' rfl
    exact herr e e'

theorem follows_objectExists {key : String} {v : V} {Q : Option Nat → V → Prop}
    {E : AnyError → V → Prop} (hrule : rule v (.s3 (.headObject key)))
    (hsome : ∀ size, Q (some size) (M.observe v (.s3 (.headObject key)) (.ok size)))
    (hnone : ∀ e, Q none (M.observe v (.s3 (.headObject key)) (.error e)))
    (herr : ∀ e e', E e' (M.observe v (.s3 (.headObject key)) (.error e))) :
    Follows M rule (objectExists key) v Q E := by
  refine Follows.bind (R := fun r v' => v' = M.observe v (.s3 (.headObject key)) r)
    (follows_send hrule fun r => rfl) fun r v' hv' => ?_
  subst hv'
  split
  · exact Follows.pure (hsome _)
  · exact Follows.pure (hnone _)
  · exact Follows.throw (herr _ _)

theorem follows_listObjects {pfx : String} {v : V} {Q : List ListEntry → V → Prop}
    {E : AnyError → V → Prop} (hrule : rule v (.s3 (.listObjectsV2 pfx)))
    (hok : ∀ es, Q es (M.observe v (.s3 (.listObjectsV2 pfx)) (.ok es)))
    (herr : ∀ e e', E e' (M.observe v (.s3 (.listObjectsV2 pfx)) (.error e))) :
    Follows M rule (listObjects pfx) v Q E := by
  refine Follows.bind (R := fun r v' => v' = M.observe v (.s3 (.listObjectsV2 pfx)) r)
    (follows_send hrule fun r => rfl) fun r v' hv' => ?_
  subst hv'
  split
  · exact Follows.pure (hok _)
  · exact Follows.throw (herr _ _)

theorem follows_putObjectConditional {key : String} {data : Body} {ifMatch : Option ETag}
    {ifNoneMatch : Bool} {v : V} {Q : ETag × Bool → V → Prop} {E : AnyError → V → Prop}
    (hrule : rule v (.s3 (.putObject key data ifMatch ifNoneMatch)))
    (h : ∀ r x, Q x (M.observe v (.s3 (.putObject key data ifMatch ifNoneMatch)) r))
    (herr : ∀ r e, E e (M.observe v (.s3 (.putObject key data ifMatch ifNoneMatch)) r)) :
    Follows M rule (putObjectConditional key data ifMatch ifNoneMatch) v Q E := by
  refine Follows.bind
    (R := fun r v' => v' = M.observe v (.s3 (.putObject key data ifMatch ifNoneMatch)) r)
    (follows_send hrule fun r => rfl) fun r v' hv' => ?_
  subst hv'
  split
  · exact Follows.pure (h _ _)
  · split
    · exact Follows.pure (h _ _)
    · exact Follows.throw (herr _ _)

/-! ## Retries -/

theorem follows_withRetryFrom {T E : Type} {f : Nat → P (RetryResult T E)} {I : V → Prop}
    {Q : Except E T → V → Prop} {F : AnyError → V → Prop}
    (hf : ∀ n v, I v → Follows M rule (f n) v (fun x v' => match x with
      | .ok a => Q (.ok a) v'
      | .retry e => I v' ∧ Q (.error e) v'
      | .fatal e => Q (.error e) v') F) :
    ∀ left n v, I v → Follows M rule (withRetryFrom f left n) v Q F
  | left, n, v, hI => by
    unfold withRetryFrom
    refine Follows.bind (hf n v hI) fun x v' hx => ?_
    cases x with
    | ok a => exact Follows.pure hx
    | fatal e => exact Follows.pure hx
    | retry e =>
      cases left with
      | zero => exact Follows.pure hx.2
      | succ left => exact follows_withRetryFrom hf left (n + 1) v' hx.1

/-- A request with its retries: what holds before each attempt holds behind each
failed one. -/
theorem follows_s3Retry {o : S3Op} {I : V → Prop} {Q : S3Ok o → V → Prop}
    (hrule : ∀ v, I v → rule v (.s3 o))
    (herr : ∀ v e, I v → I (M.observe v (.s3 o) (.error e)))
    (hok : ∀ v a, I v → Q a (M.observe v (.s3 o) (.ok a))) {v : V} (hI : I v) :
    Follows M rule (s3Retry o) v Q (fun _ => I) := by
  refine Follows.bind
    (R := fun x v' => (∀ a, x = .ok a → Q a v') ∧ (∀ e, x = .error e → I v')) ?_
    fun x v' hx => follows_liftP (hx.1) (hx.2)
  refine follows_withRetryFrom (I := I) (fun n v hI => ?_) _ _ v hI
  refine Follows.bind (follows_send (hrule v hI) fun r => rfl)
    (R := fun r v' => v' = M.observe v (.s3 o) r) fun r v' hv' => ?_
  subst hv'
  cases r with
  | ok a => exact Follows.pure ⟨fun b hb => Except.ok.inj hb ▸ hok v a hI, by simp⟩
  | error e =>
    simp only [classifyS3]
    split
    · exact Follows.pure ⟨herr v e hI, by simp, fun _ _ => herr v e hI⟩
    · exact Follows.pure ⟨by simp, fun _ _ => herr v e hI⟩

/-! ## Bulk delete -/

/-- With one slot a shard, a key goes to the others of its shard. -/
theorem pushShard_eq {bySlot : List (String × List String)} {key : String}
    (hnodup : (bySlot.map Prod.fst).Nodup) : pushShard bySlot key = pushGroup keyShard bySlot key := by
  unfold pushShard pushGroup
  cases hlook : bySlot.lookup (keyShard key) with
  | none => simp only [hlook]
  | some ks =>
    simp only [hlook]
    refine List.map_congr_left fun x hx => ?_
    split
    · rename_i hshard
      have hsame : x = (keyShard key, ks) :=
        List.inj_on_of_nodup_map hnodup hx (mem_of_lookup hlook) hshard
      rw [hsame]
    · rfl

theorem foldl_pushShard (keys : List String) :
    keys.foldl pushShard [] = keys.foldl (pushGroup keyShard) [] := by
  induction keys using List.reverseRecOn with
  | nil => rfl
  | append_singleton keys key ih =>
    rw [List.foldl_append, List.foldl_append, ih]
    exact pushShard_eq (grouped_foldl keyShard keys).nodup

theorem flatten_chunksOf {n : Nat} (hn : 0 < n) : ∀ {fuel : Nat} {ks : List String},
    ks.length ≤ fuel → (chunksOf n fuel ks).flatten = ks
  | 0, ks, h => (List.eq_nil_of_length_eq_zero (Nat.le_zero.mp h)).symm
  | fuel + 1, ks, h => by
    unfold chunksOf
    split
    · rename_i hnil
      exact hnil.symm
    · rename_i hne
      have hlen : (ks.drop n).length ≤ fuel := by
        have hpos := List.length_pos_iff.mpr hne
        rw [List.length_drop]
        omega
      rw [List.flatten_cons, flatten_chunksOf hn hlen, List.take_append_drop]

/-- The batches hold the keys, each as often as the list. -/
theorem perm_batchKeysByShard (keys : List String) {n : Nat} (hn : 0 < n) :
    (batchKeysByShard keys n).flatten.Perm keys := by
  have hchunks : ∀ slots : List (String × List String),
      (slots.flatMap fun x => chunksOf n x.2.length x.2).flatten = slots.flatMap Prod.snd := by
    intro slots
    induction slots with
    | nil => rfl
    | cons x xs ih =>
      rw [List.flatMap_cons, List.flatten_append, ih, flatten_chunksOf hn le_rfl, List.flatMap_cons]
  unfold batchKeysByShard
  rw [hchunks, foldl_pushShard]
  exact perm_foldl_pushGroup keyShard keys

/-- The batches hold keys of the list only. -/
theorem mem_batchKeysByShard {keys c : List String} {n : Nat} {key : String} (hn : 0 < n)
    (hc : c ∈ batchKeysByShard keys n) (hk : key ∈ c) : key ∈ keys :=
  (perm_batchKeysByShard keys hn).mem_iff.mp (List.mem_flatten.mpr ⟨c, hc, hk⟩)

/-- A request to delete some of the keys. -/
def DeletesOf (keys : List String) : Op → Prop
  | .s3 (.deleteObject key) => key ∈ keys
  | .s3 (.deleteObjects ks) => ∀ k ∈ ks, k ∈ keys
  | .env .order => True
  | _ => False

theorem only_withRetryFrom {T E : Type} {S : Op → Prop} {f : Nat → P (RetryResult T E)}
    (hf : ∀ n, Only S (f n)) : ∀ left n, Only S (withRetryFrom f left n)
  | left, n => by
    unfold withRetryFrom
    refine (hf n).bind fun x => ?_
    cases x with
    | ok a => exact only_pure _
    | fatal e => exact only_pure _
    | retry e =>
      cases left with
      | zero => exact only_pure _
      | succ left => exact only_withRetryFrom hf left (n + 1)

theorem only_deleteBatchOnce (batch : List String) :
    Only (DeletesOf batch) (deleteBatchOnce batch) := by
  refine Only.bind (only_ask fun k hk => hk) fun r => ?_
  cases r with
  | ok errs => exact only_pure _
  | error e => exact only_pure _

theorem only_deleteFallback {keys : List String} {key : String} (hk : key ∈ keys) :
    Only (DeletesOf keys) (deleteFallback key) := by
  refine Only.bind (only_ask hk) fun r => ?_
  cases r with
  | ok u => exact only_pure _
  | error e => exact only_pure _

theorem only_deleteBatch (batch : List String) : Only (DeletesOf batch) (deleteBatch batch) := by
  unfold deleteBatch
  split
  · exact only_pure _
  · refine Only.bind (only_withRetryFrom (fun _ => only_deleteBatchOnce batch) _ _) fun x => ?_
    cases x with
    | ok errs => exact only_pure _
    | error e =>
      dsimp only
      split
      · exact only_pure _
      · refine Only.bind (only_ask trivial) fun order => ?_
        exact (only_collect fun k hk => only_deleteFallback (mem_reorder.mp hk)).bind
          fun _ => only_pure _

theorem DeletesOf.mono {keys keys' : List String} (h : ∀ k ∈ keys, k ∈ keys') {op : Op}
    (ho : DeletesOf keys op) : DeletesOf keys' op := by
  match op, ho with
  | .s3 (.deleteObject key), ho => exact h key ho
  | .s3 (.deleteObjects ks), ho => exact fun k hk => h k (ho k hk)
  | .env .order, _ => trivial

theorem only_deleteObjectsBulk (keys : List String) :
    Only (DeletesOf keys) (deleteObjectsBulk keys) := by
  unfold deleteObjectsBulk
  split
  · exact only_pure _
  · refine Only.bind (only_ask trivial) fun order => ?_
    refine Only.bind (only_collect fun c hc => ?_) fun _ => only_pure _
    exact (only_deleteBatch c).mono fun op =>
      DeletesOf.mono fun k hk => mem_batchKeysByShard (by decide) (mem_reorder.mp hc) hk

end Chbk
