import Chbk.Lib.Hoare
import Chbk.Safety.Requests

/-!
# A bulk delete accounts for every key

Whatever S3 answers to the batches, and in whatever order they are served.

* `batchKeysByShard_fits` — a batch holds some keys, not too many, of one shard.
* `BulkAnswers` — what S3 may answer, and the bulk requests it has got.
* `ensures_deleteBatch` — one batch, in each of its outcomes.
* `bulk_accounts` — the batches are the keys, each batch is requested by
  itself, and the counters add up.
-/

namespace Chbk

open Lib Prog

-- ---------------------------------------------------------------------------
-- Batches
-- ---------------------------------------------------------------------------

/-- A chunk is not empty, not too long, and holds elements of the slice. -/
theorem mem_chunksOf {n : Nat} (hn : 0 < n) : ∀ {fuel : Nat} {ks c : List String},
    c ∈ chunksOf n fuel ks → c ≠ [] ∧ c.length ≤ n ∧ ∀ k ∈ c, k ∈ ks
  | 0, ks, c, h => by simp [chunksOf] at h
  | fuel + 1, ks, c, h => by
    unfold chunksOf at h
    split at h
    · simp at h
    · rename_i hne
      rcases List.mem_cons.mp h with rfl | h
      · refine ⟨?_, List.length_take_le n ks, fun k hk => List.mem_of_mem_take hk⟩
        rw [ne_eq, List.take_eq_nil_iff]
        exact not_or.mpr ⟨by omega, hne⟩
      · obtain ⟨hc, hlen, hmem⟩ := mem_chunksOf hn h
        exact ⟨hc, hlen, fun k hk => List.mem_of_mem_drop (hmem k hk)⟩

/-- What fits into one request: some keys, at most `n`, of one shard. -/
structure Fits (n : Nat) (batch : List String) : Prop where
  nonempty : batch ≠ []
  length_le : batch.length ≤ n
  oneShard : ∃ shard, ∀ key ∈ batch, keyShard key = shard

theorem batchKeysByShard_fits {keys batch : List String} {n : Nat} (hn : 0 < n)
    (h : batch ∈ batchKeysByShard keys n) : Fits n batch := by
  unfold batchKeysByShard at h
  rw [foldl_pushShard, List.mem_flatMap] at h
  obtain ⟨slot, hslot, hbatch⟩ := h
  obtain ⟨hne, hlen, hmem⟩ := mem_chunksOf hn hbatch
  refine ⟨hne, hlen, slot.1, fun key hkey => ?_⟩
  -- a slot holds the keys of its shard
  have hin := hmem key hkey
  rw [(grouped_foldl keyShard keys).filter slot hslot, List.mem_filter] at hin
  simpa using hin.2

-- ---------------------------------------------------------------------------
-- Answers and counters
-- ---------------------------------------------------------------------------

/-- S3 answers as it likes, with at most one error for each key of a bulk
request. What is kept are the bulk requests it has got. -/
def BulkAnswers : (op : Op) → List (List String) → Resp op → List (List String) → Prop
  | .s3 (.deleteObjects ks), reqs, r, reqs' =>
    reqs' = reqs ++ [ks] ∧ ∀ errs, r = .ok errs → errs.length ≤ ks.length
  | _, reqs, _, reqs' => reqs' = reqs

/-- The counters of a delete of `n` keys. -/
structure Accounts (n : Nat) (stats : DeleteStats) : Prop where
  balance : stats.success + stats.errors = n
  throttled_le : stats.throttled ≤ stats.errors

theorem Accounts.default : Accounts 0 .default := ⟨rfl, le_rfl⟩

theorem Accounts.add {m n : Nat} {a b : DeleteStats} (ha : Accounts m a) (hb : Accounts n b) :
    Accounts (m + n) (a.add b) := by
  have h₁ := ha.balance
  have h₂ := hb.balance
  have h₃ := ha.throttled_le
  have h₄ := hb.throttled_le
  constructor
  · show a.success + b.success + (a.errors + b.errors) = m + n
    omega
  · show a.throttled + b.throttled ≤ a.errors + b.errors
    omega

/-- One step of the sum over what concurrent deletes return. -/
theorem Accounts.snoc {m n : Nat} {cs : List DeleteStats} {c : DeleteStats}
    (hcs : Accounts m (cs.foldl DeleteStats.add .default)) (hc : Accounts n c) :
    Accounts (m + n) ((cs ++ [c]).foldl DeleteStats.add .default) := by
  rw [List.foldl_append]
  exact hcs.add hc

/-- Each batch has been requested by itself, up to five times in a row. -/
def RequestedAs (batches reqs : List (List String)) : Prop :=
  ∃ tries : List (List String × Nat), tries.map Prod.fst = batches ∧
    (∀ x ∈ tries, 1 ≤ x.2 ∧ x.2 ≤ 5) ∧ reqs = tries.flatMap fun x => List.replicate x.2 x.1

theorem RequestedAs.nil : RequestedAs [] [] := ⟨[], rfl, by simp, rfl⟩

theorem RequestedAs.snoc {batches reqs : List (List String)} {batch : List String} {n : Nat}
    (h : RequestedAs batches reqs) (h₁ : 1 ≤ n) (h₅ : n ≤ 5) :
    RequestedAs (batches ++ [batch]) (reqs ++ List.replicate n batch) := by
  obtain ⟨tries, rfl, htries, rfl⟩ := h
  refine ⟨tries ++ [(batch, n)], by simp, ?_, by simp⟩
  intro x hx
  rcases List.mem_append.mp hx with hx | hx
  · exact htries x hx
  · obtain rfl := List.mem_singleton.mp hx
    exact ⟨h₁, h₅⟩

-- ---------------------------------------------------------------------------
-- One batch
-- ---------------------------------------------------------------------------

variable {reqs : List (List String)}

/-- The attempts at one batch. -/
theorem ensures_tries (batch : List String) : ∀ (left n : Nat) (reqs : List (List String)),
    Ensures BulkAnswers (fun _ => True) (withRetryFrom (fun _ => deleteBatchOnce batch) left n) reqs
      (fun x reqs' => (∀ errs, x = .ok errs → errs.length ≤ batch.length) ∧
        ∃ k, 1 ≤ k ∧ k ≤ left + 1 ∧ reqs' = reqs ++ List.replicate k batch)
      fun _ _ => False
  | left, n, reqs => by
    unfold withRetryFrom
    have honce : Ensures BulkAnswers (fun _ => True) (deleteBatchOnce batch) reqs
        (fun x reqs' => (∀ errs, x = .ok errs → errs.length ≤ batch.length) ∧
          reqs' = reqs ++ [batch]) fun _ _ => False := by
      refine Ensures.bind (Ensures.ask trivial fun r reqs' h => h) ?_
      rintro r reqs' ⟨rfl, hlen⟩
      cases r with
      | ok errs => exact Ensures.pure ⟨fun errs' he => hlen errs' (by cases he; rfl), rfl⟩
      | error e =>
        dsimp only
        split
        · exact Ensures.pure ⟨by simp, rfl⟩
        · exact Ensures.pure ⟨by simp, rfl⟩
    refine Ensures.bind honce ?_
    rintro x reqs' ⟨hlen, rfl⟩
    cases x with
    | ok errs =>
      refine Ensures.pure ⟨?_, 1, le_rfl, by omega, rfl⟩
      intro errs' he
      exact hlen errs' (by cases he; rfl)
    | fatal e => exact Ensures.pure ⟨by simp, 1, le_rfl, by omega, rfl⟩
    | retry e =>
      cases left with
      | zero => exact Ensures.pure ⟨by simp, 1, le_rfl, le_rfl, rfl⟩
      | succ left =>
        refine Ensures.mono (ensures_tries batch left (n + 1) _) (fun _ h => h) ?_ fun _ _ h => h
        rintro x reqs' ⟨hx, k, h₁, hk, rfl⟩
        refine ⟨hx, k + 1, by omega, by omega, ?_⟩
        rw [List.replicate_succ, List.append_assoc]
        rfl

/-- A delete of the fallback counts its key once. -/
theorem ensures_deleteFallback (key : String) :
    Ensures BulkAnswers (fun _ => True) (deleteFallback key) reqs
      (fun stats reqs' => Accounts 1 stats ∧ reqs' = reqs) fun _ _ => False := by
  refine Ensures.bind (Ensures.ask trivial fun r reqs' h => h) ?_
  rintro r reqs' rfl
  cases r with
  | ok u => exact Ensures.pure ⟨⟨rfl, le_rfl⟩, rfl⟩
  | error e => exact Ensures.pure ⟨⟨rfl, Nat.zero_le _⟩, rfl⟩

/-- The order in which futures finish makes no request. -/
theorem ensures_bulkOrder :
    Ensures BulkAnswers (fun _ => True) (askEnv .order) reqs (fun _ reqs' => reqs' = reqs)
      fun _ _ => False :=
  Ensures.ask trivial fun _ _ h => h

theorem ensures_deleteBatch {batch : List String} (hne : batch ≠ []) :
    Ensures BulkAnswers (fun _ => True) (deleteBatch batch) reqs
      (fun stats reqs' => Accounts batch.length stats ∧
        ∃ k, 1 ≤ k ∧ k ≤ 5 ∧ reqs' = reqs ++ List.replicate k batch) fun _ _ => False := by
  unfold deleteBatch
  rw [if_neg hne]
  refine Ensures.bind (ensures_tries batch 4 1 reqs) ?_
  rintro x reqs' ⟨hlen, k, h₁, hk, rfl⟩
  cases x with
  | ok errs =>
    -- the listed errors are counted, and the rest as deleted
    refine Ensures.pure ⟨⟨Nat.sub_add_cancel (hlen errs rfl), ?_⟩, k, h₁, hk, rfl⟩
    exact List.length_filter_le ..
  | error e =>
    dsimp only
    split
    · exact Ensures.pure ⟨⟨Nat.zero_add _, le_rfl⟩, k, h₁, hk, rfl⟩
    · -- every key of the batch is deleted by itself
      refine Ensures.bind ensures_bulkOrder ?_
      rintro order reqs' rfl
      refine Ensures.bind (ensures_collect (fun pre cs reqs' =>
        Accounts pre.length (cs.foldl DeleteStats.add .default) ∧
          reqs' = reqs ++ List.replicate k batch) ?_ ⟨.default, rfl⟩) ?_
      · rintro pre cs key post reqs' - ⟨hcs, rfl⟩
        refine Ensures.mono (ensures_deleteFallback key) (fun _ h => h) ?_ fun _ _ h => h
        rintro c reqs' ⟨hc, rfl⟩
        rw [List.length_append]
        exact ⟨hcs.snoc hc, rfl⟩
      · rintro stats reqs' ⟨hstats, rfl⟩
        rw [(reorder_perm order batch).length_eq] at hstats
        exact Ensures.pure ⟨hstats, k, h₁, hk, rfl⟩

-- ---------------------------------------------------------------------------
-- All batches
-- ---------------------------------------------------------------------------

/-- The batches are the keys, each of some keys of one shard; each of them is
requested by itself; and each key is counted once, as deleted or as an error. -/
theorem bulk_accounts (keys : List String) :
    (batchKeysByShard keys 1000).flatten.Perm keys ∧
      (∀ batch ∈ batchKeysByShard keys 1000, Fits 1000 batch) ∧
      Ensures BulkAnswers (fun _ => True) (deleteObjectsBulk keys) []
        (fun stats reqs => Accounts keys.length stats ∧
          ∃ served, served.Perm (batchKeysByShard keys 1000) ∧ RequestedAs served reqs)
        fun _ _ => False := by
  have hperm := perm_batchKeysByShard keys (n := 1000) (by decide)
  have hfits : ∀ batch ∈ batchKeysByShard keys 1000, Fits 1000 batch :=
    fun _ => batchKeysByShard_fits (by decide)
  refine ⟨hperm, hfits, ?_⟩
  unfold deleteObjectsBulk
  split
  · rename_i hnil
    subst hnil
    exact Ensures.pure ⟨.default, [], List.Perm.refl _, .nil⟩
  refine Ensures.bind ensures_bulkOrder ?_
  rintro order reqs rfl
  have hserved := reorder_perm order (batchKeysByShard keys 1000)
  refine Ensures.bind (ensures_collect (fun pre cs reqs =>
    Accounts pre.flatten.length (cs.foldl DeleteStats.add .default) ∧ RequestedAs pre reqs)
      ?_ ⟨.default, .nil⟩) ?_
  · rintro pre cs batch post reqs hsplit ⟨hcs, hreqs⟩
    have hbatch : batch ∈ reorder order (batchKeysByShard keys 1000) := by
      rw [hsplit]
      simp
    have hne := (hfits batch (mem_reorder.mp hbatch)).nonempty
    refine Ensures.mono (ensures_deleteBatch hne) (fun _ h => h) ?_ fun _ _ h => h
    rintro c reqs' ⟨hc, k, h₁, hk, rfl⟩
    rw [List.flatten_append, List.flatten_singleton, List.length_append]
    exact ⟨hcs.snoc hc, hreqs.snoc h₁ hk⟩
  · rintro stats reqs ⟨hstats, hreqs⟩
    rw [(hserved.flatten.trans hperm).length_eq] at hstats
    exact Ensures.pure ⟨hstats, _, hserved, hreqs⟩

end Chbk
