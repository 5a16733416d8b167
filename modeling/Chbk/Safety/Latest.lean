import Chbk.Lib.Calendar
import Chbk.Lib.Numerals
import Chbk.Model.Snapshots
import Chbk.Safety.Cleanup
import Chbk.Safety.Reading
import Chbk.Safety.Schedule

/-!
# The latest manifest

A backup takes for its own latest manifest the greatest name with its shard and
replica in front. The names are in the order of their times; but the same front
may be that of another shard and replica.

* `formatAutoTimestamp_lt` — the order of the texts of two times.
* `latest_is_own_iff` — exactly when the manifest that is read is the latest one
  of its own shard and replica.
-/

namespace Chbk

open Lib Prog

-- ---------------------------------------------------------------------------
-- Dates
-- ---------------------------------------------------------------------------

/-- The date of a day of a year that begins in March. -/
def marchDate (era : Int) (y doy : Nat) : CivilDate :=
  let mp := (5 * doy + 2) / 153
  let month := if mp < 10 then mp + 3 else mp - 9
  ⟨y + era * 400 + (if month ≤ 2 then 1 else 0), month, doy - (153 * mp + 2) / 5 + 1⟩

/-- The era, the year and the day of the year that a day has. -/
theorem civilFromDays_spec (days : Int) : ∃ (era : Int) (y doy : Nat), y < 400 ∧
    yearStart y + doy < yearStart (y + 1) ∧
    days + 719468 = 146097 * era + yearStart y + doy ∧
    civilFromDays days = marchDate era y doy := by
  have hlt : (days + 719468) % 146097 < 146097 := Int.emod_lt_of_pos _ (by decide)
  have hpos : 0 ≤ (days + 719468) % 146097 := Int.emod_nonneg _ (by decide)
  obtain ⟨doe, hdoe⟩ := Int.eq_ofNat_of_zero_le hpos
  obtain ⟨hy, hlo, hhi⟩ := yearOfEra_spec (show doe < 146097 by omega)
  have hyoe : ((doe : Int) - doe / 1460 + doe / 36524 - doe / 146096) / 365 = yearOfEra doe := by
    unfold yearOfEra commonDays
    omega
  have hdoy : (doe : Int) - (365 * (yearOfEra doe : Int) + (yearOfEra doe : Int) / 4 -
      (yearOfEra doe : Int) / 100) = (doe - yearStart (yearOfEra doe) : Nat) := by
    unfold yearStart at hlo ⊢
    omega
  refine ⟨(days + 719468) / 146097, yearOfEra doe, doe - yearStart (yearOfEra doe), hy, by omega,
    by omega, ?_⟩
  unfold civilFromDays marchDate
  simp only [hdoe, hyoe, hdoy]
  generalize doe - yearStart (yearOfEra doe) = doy
  obtain ⟨mp, hmp⟩ : ∃ mp, (5 * doy + 2) / 153 = mp := ⟨_, rfl⟩
  have hmpInt : (5 * (doy : Int) + 2) / 153 = mp := by omega
  have hday : ((doy : Int) - (153 * mp + 2) / 5 + 1).toNat = doy - (153 * mp + 2) / 5 + 1 := by
    omega
  rw [hmp, hmpInt, hday]
  by_cases hlow : mp < 10
  · have hlow' : (mp : Int) < 10 := by omega
    simp only [hlow, hlow', if_true]
    congr 1
  · have hlow' : ¬ (mp : Int) < 10 := by omega
    simp only [hlow, hlow', if_false]
    congr 1
    · split_ifs <;> omega
    · omega

/-- Months and days have two digits. -/
theorem marchDate_range {era : Int} {y doy : Nat} (h : doy < 366) :
    (marchDate era y doy).month < 100 ∧ (marchDate era y doy).day < 100 := by
  unfold marchDate
  dsimp only
  split_ifs <;> omega

/-- The order of dates. -/
def CivilDate.Before (a b : CivilDate) : Prop :=
  a.year < b.year ∨ a.year = b.year ∧ (a.month < b.month ∨ a.month = b.month ∧ a.day < b.day)

theorem marchDate_before {era era' : Int} {y y' doy doy' : Nat} (hdoy : doy < 366)
    (hdoy' : doy' < 366) (hy : y < 400) (hy' : y' < 400)
    (h : era < era' ∨ era = era' ∧ (y < y' ∨ y = y' ∧ doy < doy')) :
    (marchDate era y doy).Before (marchDate era' y' doy') := by
  unfold CivilDate.Before marchDate
  dsimp only
  rcases h with hera | ⟨rfl, hyear | ⟨rfl, hday⟩⟩
  · split_ifs <;> omega
  · split_ifs <;> omega
  · split_ifs <;> omega

theorem civilFromDays_range (days : Int) :
    (civilFromDays days).month < 100 ∧ (civilFromDays days).day < 100 := by
  obtain ⟨era, y, doy, -, hdoy, -, heq⟩ := civilFromDays_spec days
  have hlong := yearStart_succ_le y
  rw [heq]
  exact marchDate_range (by omega)

/-- Later days have later dates. -/
theorem civilFromDays_before {a b : Int} (h : a < b) :
    (civilFromDays a).Before (civilFromDays b) := by
  obtain ⟨era, y, doy, hy, hdoy, ha, heq⟩ := civilFromDays_spec a
  obtain ⟨era', y', doy', hy', hdoy', hb, heq'⟩ := civilFromDays_spec b
  have hlong := yearStart_succ_le y
  have hlong' := yearStart_succ_le y'
  have hend : yearStart (y + 1) ≤ yearStart 400 := yearStart_mono (Nat.succ_le_of_lt hy)
  have hend' : yearStart (y' + 1) ≤ yearStart 400 := yearStart_mono (Nat.succ_le_of_lt hy')
  have hera400 : yearStart 400 = 146097 := rfl
  rw [heq, heq']
  refine marchDate_before (by omega) (by omega) hy hy' ?_
  rcases lt_trichotomy era era' with hera | hera | hera
  · exact .inl hera
  · refine .inr ⟨hera, ?_⟩
    rcases lt_trichotomy y y' with hyear | hyear | hyear
    · exact .inl hyear
    · rw [hyear] at ha
      exact .inr ⟨hyear, by omega⟩
    · -- the later year does not begin before the earlier one ends
      have hstart : yearStart (y' + 1) ≤ yearStart y := yearStart_mono hyear
      omega
  · omega

-- ---------------------------------------------------------------------------
-- Names
-- ---------------------------------------------------------------------------

theorem padZeros_decimal {w n : Nat} (hw : 0 < w) (h : n < 10 ^ w) :
    DecimalOf w n (padZeros w n).toList := by
  have hlen : (Nat.toDigits 10 n).length ≤ w := (Nat.length_toDigits_le_iff (by decide) hw).mpr h
  have htext : (padZeros w n).toList =
      List.replicate (w - (Nat.toDigits 10 n).length) '0' ++ Nat.toDigits 10 n := by
    unfold padZeros
    rw [String.toList_append, String.toList_ofList, Nat.toString_eq_repr, Nat.toList_repr]
  have hzeros : ∀ k, numeral 10 ((List.replicate k '0').map decimalDigit) = 0 := by
    intro k
    induction k with
    | zero => rfl
    | succ k ih =>
      rw [List.replicate_succ, List.map_cons, numeral_cons, ih]
      simp [decimalDigit]
  rw [htext]
  refine ⟨?_, ?_, ?_⟩
  · rw [List.length_append, List.length_replicate]
    omega
  · intro c hc
    rcases List.mem_append.mp hc with hc | hc
    · rw [List.eq_of_mem_replicate hc]
      decide
    · exact Nat.isDigit_of_mem_toDigits (by decide) (by decide) hc
  · rw [List.map_append, numeral_append, hzeros, numeral_toDigits]
    omega

/-- The year has four digits. -/
def FourDigitYear (ts : Int) : Prop :=
  1 ≤ (civilFromDays (ts / 86400)).year ∧ (civilFromDays (ts / 86400)).year ≤ 9999

theorem formatYear_decimal {y : Int} (h : 1 ≤ y ∧ y ≤ 9999) :
    DecimalOf 4 y.toNat (formatYear y).toList := by
  unfold formatYear
  rw [if_pos (by omega)]
  exact padZeros_decimal (by decide) (by omega)

theorem toList_formatAutoTimestamp (ts : Int) : (formatAutoTimestamp ts).toList =
    let date := civilFromDays (ts / 86400)
    let secs := (ts % 86400).toNat
    ['y'] ++ ((formatYear date.year).toList ++ (['m'] ++ ((padZeros 2 date.month).toList ++
      (['d'] ++ ((padZeros 2 date.day).toList ++ (['_', 'h'] ++
      ((padZeros 2 (secs / 3600)).toList ++ (['m'] ++ ((padZeros 2 (secs / 60 % 60)).toList ++
      (['s'] ++ (padZeros 2 (secs % 60)).toList)))))))))) := by
  unfold formatAutoTimestamp
  simp only [String.toList_append, List.append_assoc]
  rfl

/-- Later times have greater texts, whatever is behind them. -/
theorem formatAutoTimestamp_lt {a b : Int} (h : a < b) (ha : FourDigitYear a)
    (hb : FourDigitYear b) (x y : List Char) :
    (formatAutoTimestamp a).toList ++ x < (formatAutoTimestamp b).toList ++ y := by
  obtain ⟨hmonth, hday⟩ := civilFromDays_range (a / 86400)
  obtain ⟨hmonth', hday'⟩ := civilFromDays_range (b / 86400)
  have hpad : ∀ {n : Nat}, n < 100 → DecimalOf 2 n (padZeros 2 n).toList :=
    fun hn => padZeros_decimal (by decide) hn
  rw [toList_formatAutoTimestamp, toList_formatAutoTimestamp]
  simp only [List.append_assoc]
  unfold FourDigitYear at ha hb
  refine field_lt (formatYear_decimal ha) (formatYear_decimal hb) ?_
  have hle : a / 86400 ≤ b / 86400 := Int.ediv_le_ediv (by decide) (le_of_lt h)
  rcases lt_or_eq_of_le hle with hdays | hdays
  · rcases civilFromDays_before hdays with hlt | ⟨heq, hlt | ⟨heq', hlt⟩⟩
    · exact .inl (by omega)
    · exact .inr ⟨by rw [heq], field_lt (hpad hmonth) (hpad hmonth') (.inl hlt)⟩
    · exact .inr ⟨by rw [heq], field_lt (hpad hmonth) (hpad hmonth')
        (.inr ⟨heq', field_lt (hpad hday) (hpad hday') (.inl hlt)⟩)⟩
  · -- the day is the same, and the time of day is later
    have hsecs : (a % 86400).toNat < (b % 86400).toNat := by omega
    have hend : (b % 86400).toNat < 86400 := by omega
    rw [hdays]
    refine .inr ⟨rfl, field_lt (hpad hmonth') (hpad hmonth') (.inr ⟨rfl,
      field_lt (hpad hday') (hpad hday') (.inr ⟨rfl, ?_⟩)⟩)⟩
    generalize (a % 86400).toNat = s at hsecs ⊢
    generalize (b % 86400).toNat = t at hsecs hend ⊢
    refine field_lt (hpad (by omega)) (hpad (by omega)) ?_
    rcases lt_or_eq_of_le (Nat.div_le_div_right (le_of_lt hsecs) : s / 3600 ≤ t / 3600) with hh | hh
    · exact .inl hh
    refine .inr ⟨hh, field_lt (hpad (by omega)) (hpad (by omega)) ?_⟩
    rcases lt_trichotomy (s / 60 % 60) (t / 60 % 60) with hm | hm | hm
    · exact .inl hm
    · exact .inr ⟨hm, field_lt (hpad (by omega)) (hpad (by omega)) (.inl (by omega))⟩
    · omega

/-- In front of the time: what is the same in all names of a replica. -/
def autoPrefix (shard replica : String) : String := "live_" ++ shard ++ "_" ++ replica ++ "_"

theorem buildAutoName_eq (shard replica : String) (ts : Int) (uuid : String) :
    ∃ rest, (buildAutoName shard replica ts uuid).toList =
      (autoPrefix shard replica).toList ++ ((formatAutoTimestamp ts).toList ++ rest) := by
  refine ⟨("_" ++ String.ofList ((uuid.toList.filter isAsciiHexdigit).take AUTO_UUID_LEN)).toList, ?_⟩
  unfold buildAutoName autoPrefix
  simp only [String.toList_append, List.append_assoc]

theorem startsWith_buildAutoName (shard replica : String) (ts : Int) (uuid : String) :
    startsWith (buildAutoName shard replica ts uuid) (autoPrefix shard replica) = true := by
  obtain ⟨rest, hrest⟩ := buildAutoName_eq shard replica ts uuid
  unfold startsWith
  rw [hrest, List.isPrefixOf_iff_prefix]
  exact List.prefix_append _ _

theorem buildAutoName_lt (shard replica : String) {a b : Int} (h : a < b) (ha : FourDigitYear a)
    (hb : FourDigitYear b) (uuid uuid' : String) :
    buildAutoName shard replica a uuid < buildAutoName shard replica b uuid' := by
  obtain ⟨rest, hrest⟩ := buildAutoName_eq shard replica a uuid
  obtain ⟨rest', hrest'⟩ := buildAutoName_eq shard replica b uuid'
  rw [String.lt_iff, hrest, hrest']
  exact List.append_left_lt (formatAutoTimestamp_lt h ha hb rest rest')

-- ---------------------------------------------------------------------------
-- The greatest name
-- ---------------------------------------------------------------------------

theorem string_le_of_lt {a b : String} (h : a < b) : a ≤ b :=
  (String.le_total a b).resolve_right (String.not_le.mpr h)

theorem maxName_spec : ∀ names : List String,
    match maxName names with
    | none => names = []
    | some n => n ∈ names ∧ ∀ n' ∈ names, n' ≤ n
  | [] => rfl
  | n :: ns => by
    have ih := maxName_spec ns
    unfold maxName
    cases hmax : maxName ns with
    | none =>
      rw [hmax] at ih
      have hnil : ns = [] := ih
      rw [hnil]
      exact ⟨List.mem_singleton_self n,
        fun n' hn' => List.mem_singleton.mp hn' ▸ String.le_refl _⟩
    | some m =>
      rw [hmax] at ih
      obtain ⟨hm, hall⟩ : m ∈ ns ∧ ∀ n' ∈ ns, n' ≤ m := ih
      dsimp only
      split
      · rename_i hlt
        refine ⟨List.mem_cons_self .., fun n' hn' => ?_⟩
        rcases List.mem_cons.mp hn' with rfl | hn'
        · exact String.le_refl _
        · exact String.le_trans (hall n' hn') (string_le_of_lt hlt)
      · rename_i hnot
        refine ⟨List.mem_cons_of_mem _ hm, fun n' hn' => ?_⟩
        rcases List.mem_cons.mp hn' with rfl | hn'
        · exact String.not_lt.mp hnot
        · exact hall n' hn'

-- ---------------------------------------------------------------------------
-- What is read
-- ---------------------------------------------------------------------------

/-- The keys that objects are asked for under. -/
def getWatch : Watch Op Resp (List String) :=
  ⟨[], fun keys op _ => match op with
    | .s3 (.getObject key) => keys ++ [key]
    | _ => keys⟩

/-- The hashes and sizes of a manifest. -/
def knownOf (m : Manifest) : List (String × UInt64) :=
  (m.parts.map fun p => (p.blobHash, p.blobSize)).reverse

section

variable (w : World) (shard replica : String)

/-- All names of manifests are automatic, in years of four digits. -/
def AutoNamed : Prop :=
  ∀ name m, w.Holds name m → ∃ uuid, name = buildAutoName m.shard m.replica m.timestamp uuid ∧
    FourDigitYear m.timestamp

/-- A manifest that was created for this shard and replica. -/
def Own (name : String) (m : Manifest) : Prop :=
  w.Holds name m ∧ m.shard = shard ∧ m.replica = replica

/-- The latest own manifest is read, if there is one, and nothing else. -/
structure ReadsOwnLatest (gets : List String) (known : List (String × UInt64)) : Prop where
  reads : (∃ name m, Own w shard replica name m) → ∃ name m, Own w shard replica name m ∧
    (∀ name' m', Own w shard replica name' m' → m'.timestamp ≤ m.timestamp) ∧
    gets = [manifestKey name] ∧ known = knownOf m
  none : (¬ ∃ name m, Own w shard replica name m) → gets = []
  empty : known = [] ↔ ¬ ∃ name m, Own w shard replica name m

/-- Behind each name of another shard or replica that has the same front there is
an own one, and the last of the own ones has a part. -/
structure OwnNameWins : Prop where
  foreign : ∀ name m, w.Holds name m → startsWith name (autoPrefix shard replica) = true →
    ¬ Own w shard replica name m → ∃ name' m', Own w shard replica name' m' ∧ name < name'
  parts : ∀ name m, Own w shard replica name m →
    (∀ name' m', Own w shard replica name' m' → name' ≤ name) → m.parts ≠ []

end

/-- What a run that has returned has read: nothing, or the manifest with the
greatest name. -/
def ReadsGreatest (w : World) (shard replica : String) (gets : List String)
    (known : List (String × UInt64)) : Prop :=
  (gets = [] ∧ known = [] ∧
    ∀ name, w.Has (manifestKey name) → startsWith name (autoPrefix shard replica) = false) ∨
  ∃ name m, w.Holds name m ∧ startsWith name (autoPrefix shard replica) = true ∧
    (∀ name', w.Has (manifestKey name') → startsWith name' (autoPrefix shard replica) = true →
      name' ≤ name) ∧ gets = [manifestKey name] ∧ known = knownOf m

/-- The one manifest that is read. -/
theorem ensures_readLatest (w : World) (keys : List String) (name : String) :
    Ensures (getWatch.answers Answers) (fun _ => True) (readManifest name) (w, keys)
      (fun m x => x.2 = keys ++ [manifestKey name] ∧ ∃ m₀, w.Holds name m₀ ∧ m = { m₀ with name })
      fun _ _ => True := by
  refine Ensures.bind (R := fun body x => x.2 = keys ++ [manifestKey name] ∧
    ∃ o, w.get? (manifestKey name) = some o ∧ o.body = body)
    (Ensures.mapFail (Ensures.bind (R := fun r x => x.2 = keys ++ [manifestKey name] ∧
      ∀ body, r = .ok body → ∃ o, w.get? (manifestKey name) = some o ∧ o.body = body)
      (Ensures.ask trivial ?_) ?_)) ?_
  · rintro r ⟨w', keys'⟩ ⟨hans, rfl⟩
    refine ⟨rfl, ?_⟩
    rintro body rfl
    exact (get?_of_getObject hans).2
  · rintro r x ⟨hkeys, hr⟩
    cases r with
    | ok body => exact ⟨hkeys, hr body rfl⟩
    | error e => trivial
  · rintro body x ⟨hkeys, o, ho, rfl⟩
    cases hb : decodeManifest o.body with
    | ok m => exact ⟨hkeys, m, ⟨o, ho, decodeManifest_ok hb⟩, rfl⟩
    | error e => trivial

/-- No object is asked for. -/
def NoGet : Op → Prop
  | .s3 (.getObject _) => False
  | _ => True

theorem NoGet.observe {op : Op} (h : NoGet op) (keys : List String) (r : Resp op) :
    getWatch.observe keys op r = keys := by
  cases op with
  | env o => rfl
  | s3 o =>
    cases o with
    | getObject key => exact h.elim
    | _ => rfl

theorem ensures_loadKnown (w : World) (shard replica : String) :
    Ensures (getWatch.answers Answers) (fun _ => True) (loadKnownFromLatestManifest shard replica)
      (w, []) (fun known x => ReadsGreatest w shard replica x.2 known) fun _ _ => True := by
  have hlist := Ensures.watched (ensures_listManifestNames (J := fun _ => True) (w := w) trivial)
    (M := getWatch) (S := NoGet) (only_listManifestNames trivial)
    (fun keys _ r h => h.observe keys r) (v := [])
  refine Ensures.bind (Ensures.mono hlist (fun _ h => h) (fun _ _ h => h) fun _ _ _ => trivial) ?_
  rintro names ⟨w', keys⟩ ⟨⟨rfl, -, hnames⟩, rfl⟩
  have hspec := maxName_spec (names.filter fun n => startsWith n (autoPrefix shard replica))
  show Ensures _ _ (match maxName (names.filter fun n =>
    startsWith n (autoPrefix shard replica)) with | none => _ | some latest => _) _ _ _
  cases hmax : maxName (names.filter fun n => startsWith n (autoPrefix shard replica)) with
  | none =>
    rw [hmax] at hspec
    refine Ensures.pure (.inl ⟨rfl, rfl, fun name hhas => ?_⟩)
    have hnot := List.filter_eq_nil_iff.mp hspec name ((hnames name).mpr hhas)
    exact Bool.eq_false_iff.mpr hnot
  | some latest =>
    rw [hmax] at hspec
    obtain ⟨hmem, hall⟩ : latest ∈ names.filter _ ∧ ∀ n' ∈ names.filter _, n' ≤ latest := hspec
    obtain ⟨-, hstarts⟩ := List.mem_filter.mp hmem
    refine Ensures.bind (ensures_readLatest w' [] latest) ?_
    rintro m x ⟨hkeys, m₀, hm₀, rfl⟩
    refine Ensures.pure (.inr ⟨latest, m₀, hm₀, hstarts, fun name' hhas hstarts' => ?_, hkeys, rfl⟩)
    exact hall name' (List.mem_filter.mpr ⟨(hnames name').mpr hhas, hstarts'⟩)

-- ---------------------------------------------------------------------------
-- Own and foreign names
-- ---------------------------------------------------------------------------

section

variable {w : World} {shard replica name name' : String} {m m' : Manifest}

theorem Own.startsWith (hauto : AutoNamed w) (h : Own w shard replica name m) :
    startsWith name (autoPrefix shard replica) = true := by
  obtain ⟨uuid, hname, -⟩ := hauto name m h.1
  rw [hname, ← h.2.1, ← h.2.2]
  exact startsWith_buildAutoName m.shard m.replica m.timestamp uuid

/-- The greater of two own names is not the older one. -/
theorem Own.timestamp_le (hauto : AutoNamed w) (h : Own w shard replica name m)
    (h' : Own w shard replica name' m') (hle : name' ≤ name) : m'.timestamp ≤ m.timestamp := by
  obtain ⟨uuid, hname, hyear⟩ := hauto name m h.1
  obtain ⟨uuid', hname', hyear'⟩ := hauto name' m' h'.1
  rw [h.2.1, h.2.2] at hname
  rw [h'.2.1, h'.2.2] at hname'
  by_contra hlater
  have hlt := buildAutoName_lt shard replica (not_le.mp hlater) hyear hyear' uuid uuid'
  rw [← hname, ← hname'] at hlt
  exact String.not_le.mpr hlt hle

theorem knownOf_eq_nil : knownOf m = [] ↔ m.parts = [] := by
  unfold knownOf
  rw [List.reverse_eq_nil_iff, List.map_eq_nil_iff]

theorem World.Holds.has_key (h : w.Holds name m) : w.Has (manifestKey name) := by
  obtain ⟨o, ho, -⟩ := h
  exact ⟨o, ho⟩

/-- No name has the front: there is no own manifest, and nothing is read. -/
theorem readsOwnLatest_none (hauto : AutoNamed w)
    (hnone : ∀ name, w.Has (manifestKey name) →
      startsWith name (autoPrefix shard replica) = false) :
    ReadsOwnLatest w shard replica [] [] ∧ OwnNameWins w shard replica := by
  have hfront : ∀ name m, w.Holds name m → startsWith name (autoPrefix shard replica) ≠ true := by
    intro name m hm hstarts
    rw [hnone name hm.has_key] at hstarts
    cases hstarts
  have hno : ¬ ∃ name m, Own w shard replica name m := by
    rintro ⟨name, m, hown⟩
    exact hfront name m hown.1 (hown.startsWith hauto)
  constructor
  · exact ⟨fun hown => absurd hown hno, fun _ => rfl, iff_of_true rfl hno⟩
  · exact ⟨fun name m hm hstarts _ => absurd hstarts (hfront name m hm),
      fun name m hown _ => absurd ⟨name, m, hown⟩ hno⟩

theorem readsOwnLatest_iff {gets : List String} {known : List (String × UInt64)}
    (hauto : AutoNamed w) (hreads : ReadsGreatest w shard replica gets known) :
    ReadsOwnLatest w shard replica gets known ↔ OwnNameWins w shard replica := by
  rcases hreads with ⟨rfl, rfl, hnone⟩ | ⟨name₀, m₀, hm₀, hstarts, hgreatest, rfl, rfl⟩
  · obtain ⟨hreads, hwins⟩ := readsOwnLatest_none hauto hnone
    exact iff_of_true hreads hwins
  constructor
  · intro h
    have hex : ∃ name m, Own w shard replica name m := by
      by_contra hno
      cases h.none hno
    -- the own manifest that is read is the one with the greatest name
    have hown₀ : Own w shard replica name₀ m₀ := by
      obtain ⟨n₁, m₁, hown₁, -, hgets, -⟩ := h.reads hex
      obtain rfl := manifestKey_inj (List.cons.inj hgets).1
      rwa [hm₀.unique hown₁.1]
    constructor
    · intro name m hm hstarts' hforeign
      refine ⟨name₀, m₀, hown₀, ?_⟩
      by_contra hnot
      have heq : name = name₀ := String.le_antisymm (hgreatest name hm.has_key hstarts')
        (String.not_lt.mp hnot)
      rw [heq] at hm hforeign
      rw [hm.unique hm₀] at hforeign
      exact hforeign hown₀
    · intro name m hown hlast hnil
      have heq : name = name₀ := String.le_antisymm
        (hgreatest name hown.1.has_key (hown.startsWith hauto)) (hlast name₀ m₀ hown₀)
      rw [heq] at hown
      rw [hown.1.unique hm₀] at hnil
      exact h.empty.mp (knownOf_eq_nil.mpr hnil) hex
  · intro h
    have hown₀ : Own w shard replica name₀ m₀ := by
      by_contra hforeign
      obtain ⟨name, m, hown, hlt⟩ := h.foreign name₀ m₀ hm₀ hstarts hforeign
      exact String.not_le.mpr hlt (hgreatest name hown.1.has_key (hown.startsWith hauto))
    have hlast : ∀ name m, Own w shard replica name m → name ≤ name₀ := fun name m hown =>
      hgreatest name hown.1.has_key (hown.startsWith hauto)
    have hex : ∃ name m, Own w shard replica name m := ⟨name₀, m₀, hown₀⟩
    refine ⟨fun _ => ⟨name₀, m₀, hown₀, ?_, rfl, rfl⟩, fun hno => absurd hex hno, ?_⟩
    · intro name m hown
      exact hown₀.timestamp_le hauto hown (hlast name m hown)
    · refine iff_of_false ?_ (not_not.mpr hex)
      exact fun hnil => h.parts name₀ m₀ hown₀ hlast (knownOf_eq_nil.mp hnil)

end

/-- A run that has returned, in a bucket whose manifests all have automatic names.
It has read the latest manifest of this shard and replica, and shows nothing
exactly where there is none, if and only if the front of its names picks no
foreign manifest, and the own one has a part. -/
theorem latest_is_own_iff {w w' : World} {shard replica : String}
    {tr : List (Event Op Resp World)} {p : Proc Op Resp AnyError (List (String × UInt64))}
    {known : List (String × UInt64)} (hauto : AutoNamed w)
    (hrun : Proc.Trace Answers Eq ⟨loadKnownFromLatestManifest shard replica, []⟩ w tr p w')
    (hdone : p.prog = .done known) :
    ReadsOwnLatest w shard replica (getWatch.view p.hist) known ↔ OwnNameWins w shard replica := by
  obtain ⟨tr', hwatched⟩ := hrun.watched getWatch
  exact readsOwnLatest_iff hauto (hwatched.returns (ensures_loadKnown w shard replica) hdone)

-- ---------------------------------------------------------------------------
-- Two replicas
-- ---------------------------------------------------------------------------

def ownName : String := buildAutoName "s1" "r1" 1776688245 "abcdef12"

/-- The name of an older manifest, of another replica. -/
def otherName : String := buildAutoName "s1" "r1_z" 1776600000 "abcdef12"

def otherManifest : Manifest :=
  { siteManifest otherName 1776600000 with replica := "r1_z", parts := [] }

def frontShared : World where
  objects := [(manifestKey ownName, ⟨.manifest (siteManifest ownName 1776688245), 0, 0⟩),
    (manifestKey otherName, ⟨.manifest otherManifest, 1, 0⟩)]
  fresh := 2

theorem frontShared_holds {name : String} {m : Manifest} (h : frontShared.Holds name m) :
    name = ownName ∧ m = siteManifest ownName 1776688245 ∨ name = otherName ∧ m = otherManifest := by
  obtain ⟨o, ho, hbody⟩ := h
  have hin := mem_of_lookup ho
  rcases List.mem_cons.mp hin with heq | hin
  · obtain ⟨hkey, rfl⟩ := Prod.mk.inj heq
    exact .inl ⟨manifestKey_inj hkey, (Body.manifest.inj hbody).symm⟩
  · obtain ⟨hkey, rfl⟩ := Prod.mk.inj (List.mem_singleton.mp hin)
    exact .inr ⟨manifestKey_inj hkey, (Body.manifest.inj hbody).symm⟩

theorem frontShared_autoNamed : AutoNamed frontShared := by
  intro name m h
  rcases frontShared_holds h with ⟨rfl, rfl⟩ | ⟨rfl, rfl⟩
  · exact ⟨"abcdef12", rfl, by unfold FourDigitYear; decide +kernel⟩
  · exact ⟨"abcdef12", rfl, by unfold FourDigitYear; decide +kernel⟩

/-- The run has returned nothing, having read that manifest. -/
def readOther (p : Proc Op Resp AnyError (List (String × UInt64))) : Bool :=
  match p.prog with
  | .done known => decide (known = []) && decide (getWatch.view p.hist = [manifestKey otherName])
  | _ => false

theorem exists_otherRun : ∃ tr p w',
    Proc.Trace Answers Eq ⟨loadKnownFromLatestManifest "s1" "r1", []⟩ frontShared tr p w' ∧
      p.prog = .done [] ∧ getWatch.view p.hist = [manifestKey otherName] := by
  have hend : (runAlone [served, served] [] ⟨loadKnownFromLatestManifest "s1" "r1", []⟩
      frontShared).any (fun x => readOther x.2.1) = true := by decide +kernel
  cases hrun : runAlone [served, served] [] ⟨loadKnownFromLatestManifest "s1" "r1", []⟩
      frontShared with
  | none =>
    rw [hrun] at hend
    cases hend
  | some x =>
    rw [hrun] at hend
    have hread : readOther x.2.1 = true := hend
    unfold readOther at hread
    split at hread
    · rename_i known hprog
      obtain ⟨hknown, hgets⟩ := Bool.and_eq_true_iff.mp hread
      rw [of_decide_eq_true hknown] at hprog
      exact ⟨x.1, x.2.1, x.2.2, trace_of_runAlone .start hrun, hprog, of_decide_eq_true hgets⟩
    · cases hread

theorem latest_is_own_iff_frontShared : ∃ tr p w',
    Proc.Trace Answers Eq ⟨loadKnownFromLatestManifest "s1" "r1", []⟩ frontShared tr p w' ∧
      (ReadsOwnLatest frontShared "s1" "r1" (getWatch.view p.hist) [] ↔
        OwnNameWins frontShared "s1" "r1") := by
  obtain ⟨tr, p, w', hrun, hdone, -⟩ := exists_otherRun
  exact ⟨tr, p, w', hrun, latest_is_own_iff frontShared_autoNamed hrun hdone⟩

/-- The other replica's name has the front of this one's, and is greater. -/
theorem other_replica_read :
    ¬ ∀ (w w' : World) (shard replica : String) tr
      (p : Proc Op Resp AnyError (List (String × UInt64))) known, AutoNamed w →
      Proc.Trace Answers Eq ⟨loadKnownFromLatestManifest shard replica, []⟩ w tr p w' →
      p.prog = .done known →
      ReadsOwnLatest w shard replica (getWatch.view p.hist) known := by
  intro hall
  obtain ⟨tr, p, w', hrun, hdone, hgets⟩ := exists_otherRun
  have hlatest := hall frontShared w' "s1" "r1" tr p [] frontShared_autoNamed hrun hdone
  have hheld : frontShared.Holds ownName (siteManifest ownName 1776688245) :=
    ⟨_, List.lookup_cons_self, rfl⟩
  obtain ⟨name, m, hown, -, hname, -⟩ :=
    hlatest.reads ⟨ownName, siteManifest ownName 1776688245, hheld, rfl, rfl⟩
  rw [hgets] at hname
  have heq := manifestKey_inj (List.cons.inj hname).1
  rcases frontShared_holds hown.1 with ⟨hname', -⟩ | ⟨-, rfl⟩
  · have hdiff : otherName ≠ ownName := by decide +kernel
    exact hdiff (heq.trans hname')
  · have hreplica : otherManifest.replica ≠ "r1" := by decide
    exact hreplica hown.2.2

end Chbk
