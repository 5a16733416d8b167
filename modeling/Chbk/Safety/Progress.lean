import Chbk.Lib.Groups
import Chbk.Model.Tui
import Chbk.Safety.Bucket

/-!
# The progress display

The tasks of a backup send their events in any order. The display keeps one row
for each part, and for each hash the row that the events with this hash go to.

* `indexOf_spec` — that row is one of the hash, and each hash has one.
* `run_spec` — what any events do to the rows.
* `shows_latest_iff` — exactly when all rows end with the latest status of their
  hash. No row ever falls back, and no index is out of bounds.
-/

namespace Chbk

open Lib

-- ---------------------------------------------------------------------------
-- The statuses of a hash
-- ---------------------------------------------------------------------------

/-- The status an event gives, and the hash it is for. -/
def BackupEvent.statusFor : BackupEvent → Option (String × PartStatus)
  | partHeadCheck hash => some (hash, .headCheck)
  | partHeadSkipped hash _ => some (hash, .headSkip)
  | partStaging hash => some (hash, .staging)
  | partStaged hash _ => some (hash, .staged)
  | partUploading hash => some (hash, .uploading)
  | partDone hash _ => some (hash, .done)
  | _ => none

/-- An event about a part, or the end of the backup. -/
def BackupEvent.Later : BackupEvent → Prop
  | partsDiscovered _ _ => False
  | _ => True

/-- The statuses that events give to the hashes with `mine`. -/
def received (mine : String → Bool) (events : List (Instant × BackupEvent)) : List PartStatus :=
  events.filterMap fun e => e.2.statusFor.bind fun x => if mine x.1 then some x.2 else none

/-- The greatest of these and the first one. -/
def latest (initial : PartStatus) (statuses : List PartStatus) : PartStatus :=
  statuses.foldl max initial

theorem le_latest (initial : PartStatus) (statuses : List PartStatus) :
    initial ≤ latest initial statuses := by
  induction statuses generalizing initial with
  | nil => exact le_refl _
  | cons st statuses ih => exact (le_max_left initial st).trans (ih (max initial st))

theorem le_latest_of_mem {initial st : PartStatus} {statuses : List PartStatus}
    (h : st ∈ statuses) : st ≤ latest initial statuses := by
  induction statuses generalizing initial with
  | nil => cases h
  | cons st' statuses ih =>
    rcases List.mem_cons.mp h with rfl | h
    · exact (le_max_right initial st).trans (le_latest _ statuses)
    · exact ih h

theorem latest_perm {initial : PartStatus} {l l' : List PartStatus} (h : l.Perm l') :
    latest initial l = latest initial l' := by
  unfold latest
  exact h.foldl_eq' (fun x _ y _ z => by rw [max_right_comm]) initial

-- ---------------------------------------------------------------------------
-- The index
-- ---------------------------------------------------------------------------

/-- The index of the discovered parts. -/
def indexOf (parts : List PartSummary) : List (String × Nat) :=
  parts.zipIdx.foldl (fun index x => insertKey x.1.hash x.2 index) []

theorem indexOf_concat (parts : List PartSummary) (p : PartSummary) :
    indexOf (parts ++ [p]) = insertKey p.hash parts.length (indexOf parts) := by
  unfold indexOf
  rw [List.zipIdx_append, List.foldl_append]
  simp

/-- What the index has for a hash is a row of it, and each hash of a row is
there. -/
theorem indexOf_spec (parts : List PartSummary) :
    (∀ x ∈ indexOf parts, ∃ p, parts[x.2]? = some p ∧ p.hash = x.1) ∧
      ∀ p ∈ parts, ∃ i, (indexOf parts).lookup p.hash = some i := by
  induction parts using List.reverseRecOn with
  | nil => exact ⟨fun _ h => (List.not_mem_nil h).elim, fun _ h => (List.not_mem_nil h).elim⟩
  | append_singleton parts p ih =>
    rw [indexOf_concat]
    constructor
    · intro x hx
      rcases List.mem_cons.mp hx with rfl | hx
      · exact ⟨p, by simp, rfl⟩
      · obtain ⟨q, hq, hhash⟩ := ih.1 x (List.mem_filter.mp hx).1
        have hlt := (List.getElem?_eq_some_iff.mp hq).1
        exact ⟨q, by rw [List.getElem?_append_left hlt, hq], hhash⟩
    · intro q hq
      rw [lookup_insertKey]
      split
      · exact ⟨_, rfl⟩
      · rename_i hne
        refine ih.2 q ?_
        rcases List.mem_append.mp hq with hq | hq
        · exact hq
        · exact absurd (congrArg PartSummary.hash (List.mem_singleton.mp hq)) hne

-- ---------------------------------------------------------------------------
-- Events and rows
-- ---------------------------------------------------------------------------

namespace TuiState

/-- No index is out of bounds. -/
def InBounds (s : TuiState) : Prop := ∀ x ∈ s.partIndex, x.2 < s.parts.length

/-- From `s` to `s'` the index stays, and each row gets the greatest of its
status and the ones given to the hashes it has in the index. -/
structure Follows (events : List (Instant × BackupEvent)) (s s' : TuiState) : Prop where
  index : s'.partIndex = s.partIndex
  length : s'.parts.length = s.parts.length
  row : ∀ i row, s.parts[i]? = some row → ∃ row', s'.parts[i]? = some row' ∧
    row'.status = latest row.status (received (fun h => s.partIndex.lookup h = some i) events)

theorem InBounds.follows {events : List (Instant × BackupEvent)} {s s' : TuiState}
    (h : s.InBounds) (hf : Follows events s s') : s'.InBounds := by
  unfold InBounds
  rw [hf.index, hf.length]
  exact h

/-- A change of the row the index has. -/
theorem changeRow_spec {s : TuiState} (h : s.InBounds) (hash : String) (f : PartRow → PartRow) :
    ∃ s', s.changeRow hash f = some s' ∧ s'.partIndex = s.partIndex ∧
      s'.parts.length = s.parts.length ∧ ∀ i row, s.parts[i]? = some row →
        s'.parts[i]? = some (if s.partIndex.lookup hash = some i then f row else row) := by
  unfold changeRow
  cases hlook : s.partIndex.lookup hash with
  | none => exact ⟨s, rfl, rfl, rfl, fun i row hrow => by simpa using hrow⟩
  | some idx =>
    have hlt : idx < s.parts.length := h _ (mem_of_lookup hlook)
    have hget : s.parts[idx]? = some s.parts[idx] := List.getElem?_eq_getElem hlt
    refine ⟨{ s with parts := s.parts.set idx (f s.parts[idx]) }, ?_, rfl, List.length_set, ?_⟩
    · show (s.parts[idx]?.map fun row => _) = _
      rw [hget]
      rfl
    · intro i row hrow
      show (s.parts.set idx (f s.parts[idx]))[i]? = _
      by_cases hi : idx = i
      · subst hi
        obtain rfl : s.parts[idx] = row := Option.some.inj (hget.symm.trans hrow)
        rw [if_pos rfl, List.getElem?_set_self hlt]
      · rw [if_neg (fun heq => hi (Option.some.inj heq)), List.getElem?_set_ne hi, hrow]

/-- A raised status. -/
theorem raise_spec {s : TuiState} (h : s.InBounds) (st : PartStatus) (hash : String)
    {f : PartRow → PartRow} : ∃ s', s.raise st hash f = some s' ∧
      s'.partIndex = s.partIndex ∧ s'.parts.length = s.parts.length ∧
      ∀ i row, s.parts[i]? = some row → ∃ row', s'.parts[i]? = some row' ∧
        row'.status = if s.partIndex.lookup hash = some i then max row.status st
          else row.status := by
  obtain ⟨s', hs', hindex, hlength, hrows⟩ := changeRow_spec h hash
    fun row => if st > row.status then { f row with status := st } else row
  refine ⟨s', hs', hindex, hlength, fun i row hrow => ⟨_, hrows i row hrow, ?_⟩⟩
  split
  · split
    · rename_i hgt
      exact (max_eq_right (le_of_lt hgt)).symm
    · rename_i hle
      exact (max_eq_left (not_lt.mp hle)).symm
  · rfl

theorem follows_raise {s s' : TuiState} {st : PartStatus} {hash : String}
    {e : Instant × BackupEvent} (he : e.2.statusFor = some (hash, st))
    (hindex : s'.partIndex = s.partIndex) (hlength : s'.parts.length = s.parts.length)
    (hrows : ∀ (i : Nat) (row : PartRow), s.parts[i]? = some row →
      ∃ row', s'.parts[i]? = some row' ∧ row'.status = if s.partIndex.lookup hash = some i then max row.status st
        else row.status) : Follows [e] s s' := by
  refine ⟨hindex, hlength, fun i row hrow => ?_⟩
  obtain ⟨row', hrow', hstatus⟩ := hrows i row hrow
  refine ⟨row', hrow', ?_⟩
  rw [hstatus]
  by_cases hi : s.partIndex.lookup hash = some i
  · simp [received, latest, he, hi]
  · simp [received, latest, he, hi]

/-- Rows that keep their statuses, in an event that gives none. -/
theorem follows_same {s s' : TuiState} {e : Instant × BackupEvent} (he : e.2.statusFor = none)
    (hindex : s'.partIndex = s.partIndex) (hlength : s'.parts.length = s.parts.length)
    (hrows : ∀ (i : Nat) (row : PartRow), s.parts[i]? = some row →
      ∃ row', s'.parts[i]? = some row' ∧ row'.status = row.status) : Follows [e] s s' := by
  refine ⟨hindex, hlength, fun i row hrow => ?_⟩
  obtain ⟨row', hrow', hstatus⟩ := hrows i row hrow
  refine ⟨row', hrow', ?_⟩
  rw [hstatus]
  simp [received, latest, he]

/-- One event. -/
theorem applyEvent_spec {s : TuiState} (h : s.InBounds) {e : Instant × BackupEvent}
    (hlater : e.2.Later) : ∃ s', s.applyEvent e.1 e.2 = some s' ∧ Follows [e] s s' := by
  obtain ⟨now, e⟩ := e
  have hraise : ∀ st hash f, e.statusFor = some (hash, st) →
      ∃ s', s.raise st hash f = some s' ∧ Follows [(now, e)] s s' := by
    intro st hash f he
    obtain ⟨s', hs', hindex, hlength, hrows⟩ := raise_spec h st hash (f := f)
    exact ⟨s', hs', follows_raise he hindex hlength hrows⟩
  cases e with
  | partsDiscovered parts known => exact hlater.elim
  | partHeadCheck hash => exact hraise _ _ _ rfl
  | partHeadSkipped hash size => exact hraise _ _ _ rfl
  | partStaging hash => exact hraise _ _ _ rfl
  | partStaged hash fileCount => exact hraise _ _ _ rfl
  | partUploading hash => exact hraise _ _ _ rfl
  | partDone hash zipSize => exact hraise _ _ _ rfl
  | partUploadProgress hash bytesUploaded total =>
    obtain ⟨s', hs', hindex, hlength, hrows⟩ := changeRow_spec h hash
      fun row => { row with progressBytes := bytesUploaded, progressTotal := total }
    refine ⟨s', hs', follows_same rfl hindex hlength fun i row hrow => ⟨_, hrows i row hrow, ?_⟩⟩
    split <;> rfl
  | backupComplete name =>
    exact ⟨_, rfl, follows_same rfl rfl rfl fun i row hrow => ⟨row, hrow, rfl⟩⟩

/-- Any events. -/
theorem run_spec {s : TuiState} (h : s.InBounds) {events : List (Instant × BackupEvent)}
    (hlater : ∀ e ∈ events, e.2.Later) : ∃ s', s.run events = some s' ∧ Follows events s s' := by
  induction events generalizing s with
  | nil => exact ⟨s, rfl, rfl, rfl, fun i row hrow => ⟨row, hrow, rfl⟩⟩
  | cons e events ih =>
    obtain ⟨s₁, hs₁, hf₁⟩ := applyEvent_spec h (hlater e (List.mem_cons_self ..))
    obtain ⟨s₂, hs₂, hf₂⟩ := ih (h.follows hf₁) fun e' he' => hlater e' (List.mem_cons_of_mem _ he')
    refine ⟨s₂, ?_, hf₂.index.trans hf₁.index, hf₂.length.trans hf₁.length, ?_⟩
    · show (s.applyEvent e.1 e.2).bind _ = _
      rw [hs₁]
      exact hs₂
    · intro i row hrow
      obtain ⟨row₁, hrow₁, hstatus₁⟩ := hf₁.row i row hrow
      obtain ⟨row₂, hrow₂, hstatus₂⟩ := hf₂.row i row₁ hrow₁
      refine ⟨row₂, hrow₂, ?_⟩
      have happend : ∀ mine, received mine (e :: events) =
          received mine [e] ++ received mine events := by
        intro mine
        rw [← List.singleton_append]
        exact List.filterMap_append
      rw [hstatus₂, hstatus₁, hf₁.index, happend]
      exact (List.foldl_append ..).symm

end TuiState

-- ---------------------------------------------------------------------------
-- Discovered parts
-- ---------------------------------------------------------------------------

namespace TuiState

/-- The state that discovered parts are shown in. -/
def discovered (s : TuiState) (parts : List PartSummary) (known : List String) : TuiState :=
  { s with parts := parts.map (newRow known), partIndex := indexOf parts }

theorem foldl_discoverPart (known : List String) (xs : List (PartSummary × Nat)) :
    ∀ s : TuiState, xs.foldl (discoverPart known) s =
      { s with
        parts := s.parts ++ xs.map fun x => newRow known x.1
        partIndex := xs.foldl (fun index x => insertKey x.1.hash x.2 index) s.partIndex } := by
  induction xs with
  | nil =>
    intro s
    simp
  | cons x xs ih =>
    intro s
    rw [List.foldl_cons, ih]
    simp [discoverPart]

theorem applyEvent_discovered (s : TuiState) (now : Instant) (parts : List PartSummary)
    (known : List String) :
    s.applyEvent now (.partsDiscovered parts known) = some (s.discovered parts known) := by
  have hmap : (parts.zipIdx.map fun x => newRow known x.1) = parts.map (newRow known) := by
    rw [show (fun x : PartSummary × Nat => newRow known x.1) = newRow known ∘ Prod.fst from rfl,
      ← List.map_map, List.zipIdx_map_fst]
  show some _ = some _
  rw [foldl_discoverPart, hmap]
  rfl

theorem inBounds_discovered (s : TuiState) (parts : List PartSummary) (known : List String) :
    (s.discovered parts known).InBounds := by
  intro x hx
  obtain ⟨p, hp, -⟩ := (indexOf_spec parts).1 x hx
  show x.2 < (parts.map (newRow known)).length
  rw [List.length_map]
  exact (List.getElem?_eq_some_iff.mp hp).1

end TuiState

section

variable {parts : List PartSummary} {known : List String} {events : List (Instant × BackupEvent)}

/-- The row in the index gets what is for its hash, and the others nothing. -/
theorem received_indexed {i : Nat} {p : PartSummary} (hp : parts[i]? = some p) :
    received (fun h => (indexOf parts).lookup h = some i) events =
      if (indexOf parts).lookup p.hash = some i then received (· = p.hash) events else [] := by
  have hmine : ∀ h, (indexOf parts).lookup h = some i → h = p.hash := by
    intro h hlook
    obtain ⟨q, hq, hhash⟩ := (indexOf_spec parts).1 _ (mem_of_lookup hlook)
    obtain rfl : p = q := Option.some.inj (hp.symm.trans hq)
    exact hhash.symm
  split
  · rename_i hown
    unfold received
    refine List.filterMap_congr fun e _ => ?_
    refine congrArg _ (funext fun x => ?_)
    by_cases hx : x.1 = p.hash
    · simp [hx, hown]
    · have hnot : (indexOf parts).lookup x.1 ≠ some i := fun hlook => hx (hmine _ hlook)
      simp [hx, hnot]
  · rename_i hother
    refine List.filterMap_eq_nil_iff.mpr fun e _ => ?_
    refine Option.bind_eq_none_iff.mpr fun x _ => ?_
    rw [if_neg]
    intro hlook
    have hown := of_decide_eq_true hlook
    exact hother (hmine _ hown ▸ hown)

/-- Each row ends with the greatest of its first status and the statuses of all
events for its hash. -/
def ShowsLatest (parts : List PartSummary) (known : List String)
    (events : List (Instant × BackupEvent)) (s : TuiState) : Prop :=
  ∀ (i : Nat) (p : PartSummary), parts[i]? = some p → ∃ row, s.parts[i]? = some row ∧
    row.status = latest (initialStatus known p) (received (· = p.hash) events)

/-- The parts that are given a status have their hash for themselves. -/
def OwnHashes (parts : List PartSummary) (events : List (Instant × BackupEvent)) : Prop :=
  ∀ e ∈ events, ∀ h st, e.2.statusFor = some (h, st) → ∀ (i j : Nat) (p q : PartSummary),
    parts[i]? = some p → parts[j]? = some q → p.hash = h → q.hash = h → i = j

theorem pending_lt_of_statusFor {e : BackupEvent} {h : String} {st : PartStatus}
    (he : e.statusFor = some (h, st)) : PartStatus.pending < st := by
  cases e with
  | partsDiscovered parts known => cases he
  | partUploadProgress hash bytesUploaded total => cases he
  | backupComplete name => cases he
  | _ =>
    obtain ⟨-, rfl⟩ := Prod.mk.inj (Option.some.inj he)
    decide

theorem initialStatus_le (known : List String) (p : PartSummary) :
    initialStatus known p ≤ .pending := by
  unfold initialStatus
  split <;> decide

/-- What the rows are after a run. -/
theorem run_discovered (s : TuiState) (parts : List PartSummary) (known : List String)
    (hlater : ∀ e ∈ events, e.2.Later) :
    ∃ s', (s.discovered parts known).run events = some s' ∧
      TuiState.Follows events (s.discovered parts known) s' ∧
      ∀ (i : Nat) (p : PartSummary), parts[i]? = some p → ∃ row, s'.parts[i]? = some row ∧
        row.status = latest (initialStatus known p)
          (if (indexOf parts).lookup p.hash = some i then received (· = p.hash) events else []) := by
  obtain ⟨s', hrun, hf⟩ := TuiState.run_spec (s.inBounds_discovered parts known) hlater
  refine ⟨s', hrun, hf, fun i p hp => ?_⟩
  have hfirst : (s.discovered parts known).parts[i]? = some (newRow known p) := by
    show (parts.map (newRow known))[i]? = _
    rw [List.getElem?_map, hp]
    rfl
  obtain ⟨row, hrow, hstatus⟩ := hf.row i _ hfirst
  refine ⟨row, hrow, ?_⟩
  rw [hstatus, ← received_indexed hp]
  rfl

theorem showsLatest_iff (s : TuiState) (hlater : ∀ e ∈ events, e.2.Later) :
    (∃ s', (s.discovered parts known).run events = some s' ∧ ShowsLatest parts known events s') ↔
      OwnHashes parts events := by
  obtain ⟨s', hrun, -, hrows⟩ := run_discovered s parts known hlater
  constructor
  · rintro ⟨s'', hrun'', hshows⟩ e he h st hst i j p q hp hq hpi hqj
    obtain rfl : s' = s'' := Option.some.inj (hrun.symm.trans hrun'')
    -- a row that the index does not have is left behind
    have hindexed : ∀ (k : Nat) (r : PartSummary), parts[k]? = some r → r.hash = h →
        (indexOf parts).lookup h = some k := by
      intro k r hr hrh
      by_contra hnot
      obtain ⟨row, hrow, hstatus⟩ := hrows k r hr
      obtain ⟨row', hrow', hstatus'⟩ := hshows k r hr
      obtain rfl : row = row' := Option.some.inj (hrow.symm.trans hrow')
      rw [hrh, if_neg hnot] at hstatus
      have hmem : st ∈ received (· = r.hash) events := by
        refine List.mem_filterMap.mpr ⟨e, he, ?_⟩
        rw [hst]
        simp [hrh]
      have hle : st ≤ initialStatus known r :=
        calc st ≤ row.status := hstatus' ▸ le_latest_of_mem hmem
          _ = initialStatus known r := hstatus
      exact absurd (pending_lt_of_statusFor hst)
        (not_lt.mpr (hle.trans (initialStatus_le known r)))
    have hi := hindexed i p hp hpi
    have hj := hindexed j q hq hqj
    exact Option.some.inj (hi.symm.trans hj)
  · intro hown
    refine ⟨s', hrun, fun i p hp => ?_⟩
    obtain ⟨row, hrow, hstatus⟩ := hrows i p hp
    refine ⟨row, hrow, hstatus.trans ?_⟩
    split
    · rfl
    · -- another row has the hash, so it gets nothing
      rename_i hother
      obtain ⟨j, hj⟩ := (indexOf_spec parts).2 p (List.mem_of_getElem? hp)
      obtain ⟨q, hq, hqh⟩ := (indexOf_spec parts).1 _ (mem_of_lookup hj)
      have hnone : received (· = p.hash) events = [] := by
        refine List.filterMap_eq_nil_iff.mpr fun e he => ?_
        refine Option.bind_eq_none_iff.mpr fun x hx => ?_
        rw [if_neg]
        intro hmine
        have hhash := of_decide_eq_true hmine
        have hij := hown e he x.1 x.2 hx i j p q hp hq hhash.symm (hqh.trans hhash.symm)
        exact hother (hij ▸ hj)
      rw [hnone]

theorem ownHashes_perm {events' : List (Instant × BackupEvent)} (h : events'.Perm events) :
    OwnHashes parts events' ↔ OwnHashes parts events := by
  unfold OwnHashes
  simp only [h.mem_iff]

theorem showsLatest_perm {events' : List (Instant × BackupEvent)} (h : events'.Perm events)
    {s : TuiState} : ShowsLatest parts known events' s ↔ ShowsLatest parts known events s := by
  unfold ShowsLatest
  refine forall₃_congr fun i p _ => exists_congr fun row => and_congr_right fun _ => ?_
  have hreceived : (received (· = p.hash) events').Perm (received (· = p.hash) events) := by
    unfold received
    exact h.filterMap _
  rw [latest_perm hreceived]

end

-- ---------------------------------------------------------------------------
-- The summary
-- ---------------------------------------------------------------------------

/-- Each part is counted under one status. -/
def TableSummaryRow.Balanced (row : TableSummaryRow) : Prop :=
  row.skip + row.todo + row.doing + row.done = row.parts

theorem TableSummaryRow.Balanced.add {row : TableSummaryRow} (h : row.Balanced) (p : PartRow) :
    (row.add p).Balanced := by
  have hcount : ∀ st, (row.count st).Balanced := by
    intro st
    unfold Balanced at h ⊢
    cases st <;> simp only [count] <;> rw [← h] <;> ac_rfl
  exact hcount p.status

theorem balanced_foldl (ps : List PartRow) :
    ∀ {map : List ((String × String) × TableSummaryRow)}, (∀ x ∈ map, x.2.Balanced) →
      ∀ x ∈ ps.foldl addToTable map, x.2.Balanced := by
  induction ps with
  | nil => exact fun h => h
  | cons p ps ih =>
    intro map h
    refine ih fun x hx => ?_
    rcases List.mem_cons.mp hx with rfl | hx
    · refine TableSummaryRow.Balanced.add ?_ p
      cases hlook : map.lookup (p.database, p.table) with
      | none => simp [TableSummaryRow.Balanced]
      | some row =>
        have hrow : row.Balanced := h ((p.database, p.table), row) (mem_of_lookup hlook)
        simpa using hrow
    · exact h x (List.mem_filter.mp hx).1

theorem balanced_tableSummary (s : TuiState) : ∀ t ∈ s.tableSummary, t.Balanced := by
  intro t ht
  unfold TuiState.tableSummary at ht
  rw [List.mem_insertionSort] at ht
  obtain ⟨x, hx, rfl⟩ := List.mem_map.mp ht
  exact balanced_foldl s.parts (fun _ h => (List.not_mem_nil h).elim) x hx

-- ---------------------------------------------------------------------------
-- The display
-- ---------------------------------------------------------------------------

/-- Parts are discovered, and any events follow. At each point of the run no index
is out of bounds, and the parts of each table are counted under one status each;
no row falls back from there on. In every order of the events all rows end with
the latest status of their hash exactly if the parts that are given a status have
their hash for themselves. -/
theorem shows_latest_iff (s : TuiState) (now : Instant) (parts : List PartSummary)
    (known : List String) (events : List (Instant × BackupEvent))
    (hlater : ∀ e ∈ events, e.2.Later) :
    (∀ pre post, events = pre ++ post → ∃ s₁ s₂,
      s.run ((now, .partsDiscovered parts known) :: pre) = some s₁ ∧ s₁.run post = some s₂ ∧
      s₁.InBounds ∧ (∀ t ∈ s₁.tableSummary, t.skip + t.todo + t.doing + t.done = t.parts) ∧
      ∀ (i : Nat) (row : PartRow), s₁.parts[i]? = some row →
        ∃ row', s₂.parts[i]? = some row' ∧ row.status ≤ row'.status) ∧
    ((∀ events', events'.Perm events → ∃ s',
        s.run ((now, .partsDiscovered parts known) :: events') = some s' ∧
        ShowsLatest parts known events s') ↔
      OwnHashes parts events) := by
  have hfirst : ∀ es, s.run ((now, .partsDiscovered parts known) :: es) =
      (s.discovered parts known).run es := by
    intro es
    show (s.applyEvent now _).bind _ = _
    rw [TuiState.applyEvent_discovered]
    rfl
  constructor
  · rintro pre post rfl
    have hpre : ∀ e ∈ pre, e.2.Later := fun e he => hlater e (List.mem_append_left _ he)
    have hpost : ∀ e ∈ post, e.2.Later := fun e he => hlater e (List.mem_append_right _ he)
    have hbounds := s.inBounds_discovered parts known
    obtain ⟨s₁, hrun₁, hf₁⟩ := TuiState.run_spec hbounds hpre
    obtain ⟨s₂, hrun₂, hf₂⟩ := TuiState.run_spec (hbounds.follows hf₁) hpost
    refine ⟨s₁, s₂, (hfirst pre).trans hrun₁, hrun₂, hbounds.follows hf₁,
      balanced_tableSummary s₁, fun i row hrow => ?_⟩
    obtain ⟨row', hrow', hstatus⟩ := hf₂.row i row hrow
    exact ⟨row', hrow', hstatus ▸ le_latest _ _⟩
  · constructor
    · intro hall
      obtain ⟨s', hrun, hshows⟩ := hall events (List.Perm.refl _)
      exact (showsLatest_iff s hlater).mp ⟨s', (hfirst events).symm.trans hrun, hshows⟩
    · intro hown events' hperm
      have hlater' : ∀ e ∈ events', e.2.Later := fun e he => hlater e (hperm.mem_iff.mp he)
      obtain ⟨s', hrun, hshows⟩ :=
        (showsLatest_iff s hlater').mpr ((ownHashes_perm hperm).mpr hown)
      exact ⟨s', (hfirst events').trans hrun, (showsLatest_perm hperm).mp hshows⟩

def summaryOf (hash partName : String) : PartSummary := ⟨hash, "db", "t", partName, 1, 1⟩

/-- Four parts, two of them with one hash; another is known to be stored. -/
def fourParts : List PartSummary :=
  [summaryOf "a" "all_1_1_0", summaryOf "b" "all_2_2_0", summaryOf "b" "all_3_3_0",
    summaryOf "c" "all_4_4_0"]

/-- What is heard of the two that have their hash for themselves; it arrives in reverse. -/
def fourEvents : List (Instant × BackupEvent) :=
  [(1, .partStaging "a"), (2, .partDone "c" 9), (3, .partDone "a" 7)]

theorem shows_latest_iff_fourParts :
    ∃ s', ({} : TuiState).run ((0, .partsDiscovered fourParts ["b"]) :: fourEvents.reverse) =
        some s' ∧ ShowsLatest fourParts ["b"] fourEvents s' := by
  refine (shows_latest_iff {} 0 fourParts ["b"] fourEvents ?_).2.mpr ?_ _
    (List.reverse_perm fourEvents)
  · intro e he
    simp only [fourEvents, List.mem_cons, List.not_mem_nil, or_false] at he
    rcases he with rfl | rfl | rfl
    · trivial
    · trivial
    · trivial
  · -- the hash of an event is that of one row
    have hall : ∀ i : Fin fourParts.length, ((fourParts.get i).hash = "a" → i.val = 0) ∧
        ((fourParts.get i).hash = "c" → i.val = 3) := by decide
    have hrow : ∀ (i : Nat) (p : PartSummary), fourParts[i]? = some p →
        (p.hash = "a" → i = 0) ∧ (p.hash = "c" → i = 3) := by
      intro i p hp
      obtain ⟨hlt, rfl⟩ := List.getElem?_eq_some_iff.mp hp
      exact hall ⟨i, hlt⟩
    intro e he h st hst i j p q hp hq hph hqh
    have hhash : h = "a" ∨ h = "c" := by
      simp only [fourEvents, List.mem_cons, List.not_mem_nil, or_false] at he
      rcases he with rfl | rfl | rfl
      · exact .inl (Prod.mk.inj (Option.some.inj hst)).1.symm
      · exact .inr (Prod.mk.inj (Option.some.inj hst)).1.symm
      · exact .inl (Prod.mk.inj (Option.some.inj hst)).1.symm
    rcases hhash with rfl | rfl
    · rw [(hrow i p hp).1 hph, (hrow j q hq).1 hqh]
    · rw [(hrow i p hp).2 hph, (hrow j q hq).2 hqh]

/-- Of two parts with one hash the first is shown as pending for ever. -/
theorem equal_hashes_stale :
    ¬ ∀ (s : TuiState) (now : Instant) (parts : List PartSummary) (known : List String)
      (events : List (Instant × BackupEvent)), (∀ e ∈ events, e.2.Later) →
      ∃ s', s.run ((now, .partsDiscovered parts known) :: events) = some s' ∧
        ShowsLatest parts known events s' := by
  intro hall
  obtain ⟨s', hrun, hshows⟩ := hall {} 0 [summaryOf "a" "all_1_1_0", summaryOf "a" "all_2_2_0"] []
    [(1, .partDone "a" 7)] fun e he => List.mem_singleton.mp he ▸ trivial
  obtain ⟨row, hrow, hstatus⟩ := hshows 0 _ rfl
  have hfirst : (({} : TuiState).run [(0, .partsDiscovered
      [summaryOf "a" "all_1_1_0", summaryOf "a" "all_2_2_0"] []), (1, .partDone "a" 7)]).map
      (fun s => s.parts[0]?.map PartRow.status) = some (some .pending) := by decide
  rw [hrun, Option.map_some, hrow] at hfirst
  have hpending : row.status = .pending := Option.some.inj (Option.some.inj hfirst)
  rw [hpending] at hstatus
  exact absurd hstatus (by decide)

end Chbk
