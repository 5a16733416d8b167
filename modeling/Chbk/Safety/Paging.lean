import Chbk.Model.Paging
import Chbk.Safety.Reading
import Chbk.Safety.Tenants

/-!
# Listings in pages

What a listing of several pages amounts to when others change the bucket meanwhile,
and that without them it is the one listing `listObjects` asks for.

* `Sweeping` — the invariant of the loop: what it has so far is a sweep of the bucket
  up to its token.
* `ListedThrough` — nothing is listed twice, nothing that was never there, and
  nothing that is there all along is missing.
* `paged_listing` — so it is with any changes; in a bucket that stands still the pages
  give the whole listing, and they end.
-/

namespace Chbk

open Lib

variable {pfx : Option String} {lst : String} {ok : World → Prop} {w w' : World}

-- ---------------------------------------------------------------------------
-- Keys below the prefix
-- ---------------------------------------------------------------------------

theorem get?_known (key : String) :
    (w.known pfx).get? key = w.get? (prefixedKey pfx key) := by
  cases pfx with
  | none => rfl
  | some p => exact get?_under key

theorem prefixedKey_lt {a b : String} : prefixedKey pfx a < prefixedKey pfx b ↔ a < b := by
  have hmono : ∀ a b : String, a < b → prefixedKey pfx a < prefixedKey pfx b := by
    intro a b h
    cases pfx with
    | none => exact h
    | some p =>
      rw [String.lt_iff]
      simp only [prefixedKey, String.toList_append]
      exact List.append_left_lt (String.lt_iff.mp h)
  refine ⟨fun h => ?_, hmono a b⟩
  rcases lt_trichotomy a b with hab | hab | hab
  · exact hab
  · exact absurd h (hab ▸ lt_irrefl _)
  · exact absurd (hmono b a hab) (lt_asymm h)

/-- A listing shows the keys of the program, prefixed. -/
theorem key_of_listing {e : ListEntry} (he : e ∈ S3Op.listing w (prefixedKey pfx lst)) :
    prefixedKey pfx (relativeKey pfx e.key) = e.key := by
  cases pfx with
  | none => rfl
  | some p =>
    obtain ⟨t, ht⟩ := List.isPrefixOf_iff_prefix.mp (mem_listing.mp he).1
    have heq : e.key = prefixedKey (some p) (lst ++ String.ofList t) := by
      apply String.toList_injective
      simp [← ht, prefixedKey]
    rw [heq, relativeKey_prefixedKey]

theorem mem_listing_known {e : ListEntry} (he : e ∈ S3Op.listing w (prefixedKey pfx lst)) :
    PagedList.toRelative pfx e ∈ S3Op.listing (w.known pfx) lst := by
  cases pfx with
  | none => exact he
  | some p =>
    show _ ∈ S3Op.listing (w.under p) lst
    rw [listing_under]
    exact List.mem_map_of_mem he

-- ---------------------------------------------------------------------------
-- The loop
-- ---------------------------------------------------------------------------

/-- The entry was in the bucket at some time. -/
def WasListed (prefixed : String) (ok : World → Prop) (e : ListEntry) : Prop :=
  ∃ v, ok v ∧ e ∈ S3Op.listing v prefixed

/-- The key is in the bucket all the time. -/
def AlwaysThere (prefixed : String) (ok : World → Prop) (key : String) : Prop :=
  startsWith key prefixed = true ∧ ∀ v, ok v → v.Has key

/-- What the loop has so far. -/
def Sweeping (pfx : Option String) (prefixed : String) (ok : World → Prop) : PagedList → Prop
  | .asking token results => ∃ entries : List ListEntry,
      results = entries.map (PagedList.toRelative pfx) ∧
      Swept ListEntry.key (WasListed prefixed ok) (AlwaysThere prefixed ok) token entries
  | .returned results => ∃ entries : List ListEntry,
      results = entries.map (PagedList.toRelative pfx) ∧
      entries.Pairwise (fun a b => a.key < b.key) ∧ (∀ e ∈ entries, WasListed prefixed ok e) ∧
      ∀ key, AlwaysThere prefixed ok key → ∃ e ∈ entries, e.key = key
  | .failed _ => True

theorem exists_entry_of_always {prefixed key : String} (hok : ok w)
    (h : AlwaysThere prefixed ok key) : ∃ e, e ∈ S3Op.listing w prefixed ∧ e.key = key := by
  obtain ⟨o, ho⟩ := h.2 w hok
  exact ⟨⟨key, o.body.size, o.lastModified⟩, mem_listing.mpr ⟨h.1, o, ho, rfl, rfl⟩, rfl⟩

/-- Every page is answered in an `ok` world. -/
theorem PagedList.Run.ok_world {prefixed : String} {rs : List (Except SdkError Page)}
    {p : PagedList} (hok : ok w) (h : PagedList.Run pfx prefixed ok w rs p w') : ok w' := by
  induction h with
  | start => exact hok
  | request _ _ ih => exact ih
  | beside _ hok' _ => exact hok'

theorem sweeping_answered {prefixed : String} {token : Option String} {results : List ListEntry}
    {r : Except SdkError Page} (hok : ok w)
    (h : Sweeping pfx prefixed ok (.asking token results))
    (hans : PageAnswers prefixed token w r) :
    Sweeping pfx prefixed ok (.answered pfx results r) := by
  cases r with
  | error e => trivial
  | ok page =>
    obtain ⟨contents, next⟩ := page
    obtain ⟨entries, rfl, hswept⟩ := h
    have hwas : ∀ e, e ∈ S3Op.listing w prefixed → WasListed prefixed ok e :=
      fun e he => ⟨w, hok, he⟩
    have hall : ∀ key, AlwaysThere prefixed ok key →
        ∃ e, e ∈ S3Op.listing w prefixed ∧ e.key = key := fun key => exists_entry_of_always hok
    have hmap : entries.map (PagedList.toRelative pfx) ++
        contents.map (PagedList.toRelative pfx) =
        (entries ++ contents).map (PagedList.toRelative pfx) := (List.map_append ..).symm
    have hpage : IsPage ListEntry.key (· ∈ S3Op.listing w prefixed) token contents next := hans
    cases next with
    | some t => exact ⟨entries ++ contents, hmap, hswept.goesOn hpage hwas hall⟩
    | none => exact ⟨entries ++ contents, hmap, hswept.last hpage hwas hall⟩

theorem sweeping_of_run {prefixed : String} {rs : List (Except SdkError Page)} {p : PagedList}
    (hok : ok w) (h : PagedList.Run pfx prefixed ok w rs p w') : Sweeping pfx prefixed ok p := by
  induction h with
  | start => exact ⟨[], rfl, .start⟩
  | request hrun hans ih => exact sweeping_answered (hrun.ok_world hok) ih hans
  | beside _ _ ih => exact ih

/-- A listing taken while the bucket was `ok`: in the order of the keys, with no key
twice; every entry was there at some time; and every object that is there all the time
is listed. -/
structure ListedThrough (pfx : Option String) (lst : String) (ok : World → Prop)
    (results : List ListEntry) : Prop where
  sorted : results.Pairwise fun a b => a.key < b.key
  was : ∀ e ∈ results, ∃ v, ok v ∧ e ∈ S3Op.listing (v.known pfx) lst
  covers : ∀ key, startsWith key lst = true → (∀ v, ok v → (v.known pfx).Has key) →
    ∃ e ∈ results, e.key = key

theorem listedThrough_of_run {rs : List (Except SdkError Page)} {results : List ListEntry}
    (hok : ok w) (hrun : PagedList.Run pfx (prefixedKey pfx lst) ok w rs (.returned results) w') :
    ListedThrough pfx lst ok results := by
  obtain ⟨entries, rfl, hsorted, hwas, hcovers⟩ := sweeping_of_run hok hrun
  have hkey : ∀ e ∈ entries, prefixedKey pfx (relativeKey pfx e.key) = e.key := by
    intro e he
    obtain ⟨v, -, hv⟩ := hwas e he
    exact key_of_listing hv
  refine ⟨?_, ?_, ?_⟩
  · refine List.pairwise_map.mpr (hsorted.imp_of_mem fun ha hb hlt => ?_)
    rw [← hkey _ ha, ← hkey _ hb] at hlt
    exact prefixedKey_lt.mp hlt
  · intro e he
    obtain ⟨e₀, he₀, rfl⟩ := List.mem_map.mp he
    obtain ⟨v, hv, hmem⟩ := hwas e₀ he₀
    exact ⟨v, hv, mem_listing_known hmem⟩
  · intro key hstart hall
    have halways : AlwaysThere (prefixedKey pfx lst) ok (prefixedKey pfx key) := by
      constructor
      · cases pfx with
        | none => exact hstart
        | some p => rw [startsWith_prefixedKey, hstart]
      · intro v hv
        obtain ⟨o, ho⟩ := hall v hv
        exact ⟨o, (get?_known key).symm.trans ho⟩
    obtain ⟨e, he, hek⟩ := hcovers _ halways
    refine ⟨_, List.mem_map_of_mem he, ?_⟩
    show relativeKey pfx e.key = key
    rw [hek, relativeKey_prefixedKey]

-- ---------------------------------------------------------------------------
-- A bucket that stands still
-- ---------------------------------------------------------------------------

/-- The bucket holds what it held. -/
def World.Still (w v : World) : Prop := v.objects = w.objects

/-- A page with a token has something on it. -/
def NoEmptyPage (r : Except SdkError Page) : Prop :=
  ∀ page t, r = .ok page → page.nextContinuationToken = some t → page.contents ≠ []

/-- The requests so far, against the entries there are. -/
def Bounded (entries : List ListEntry) (n : Nat) : PagedList → Prop
  | .asking token _ => n + behindCount ListEntry.key entries token ≤ entries.length
  | _ => n ≤ entries.length + 1

theorem listing_of_objects {v : World} (h : v.objects = w.objects) (prefixed : String) :
    S3Op.listing v prefixed = S3Op.listing w prefixed := by
  unfold S3Op.listing World.get?
  rw [h]

theorem known_of_objects {v : World} (h : v.objects = w.objects) :
    (v.known pfx).objects = (w.known pfx).objects := by
  cases pfx with
  | none => exact h
  | some p =>
    show v.objects.filterMap _ = w.objects.filterMap _
    rw [h]

theorem bounded_of_run {prefixed : String} {rs : List (Except SdkError Page)} {p : PagedList}
    (hpages : ∀ r ∈ rs, NoEmptyPage r)
    (h : PagedList.Run pfx prefixed w.Still w rs p w') :
    Bounded (S3Op.listing w prefixed) rs.length p := by
  induction h with
  | start => exact (Nat.zero_add _).le.trans (behindCount_le _ _)
  | beside _ _ ih => exact ih hpages
  | @request rs token results w' r hrun hans ih =>
    have ih := ih fun r hr => hpages r (List.mem_append_left _ hr)
    have hsame : w.Still w := rfl
    have hstill : w'.objects = w.objects := hrun.ok_world hsame
    have hcount : rs.length ≤ (S3Op.listing w prefixed).length := le_trans (Nat.le_add_right ..) ih
    rw [List.length_append, List.length_singleton]
    cases r with
    | error e => exact Nat.succ_le_succ hcount
    | ok page =>
      have hpage : IsPage ListEntry.key (· ∈ S3Op.listing w' prefixed) token page.contents
        page.nextContinuationToken := hans
      rw [listing_of_objects hstill] at hpage
      unfold PagedList.answered
      dsimp only
      split
      · rename_i t ht
        have hne : page.contents ≠ [] := hpages _ (List.mem_append_right _ (by simp)) page t rfl ht
        rw [ht] at hpage
        have hless := behindCount_lt hpage hne
        show rs.length + 1 + behindCount ListEntry.key _ (some t) ≤ _
        have ih : rs.length + behindCount ListEntry.key (S3Op.listing w prefixed) token ≤ _ := ih
        omega
      · exact Nat.succ_le_succ hcount

/-- The whole listing, one request more than there are entries at most. -/
theorem listed_still {rs : List (Except SdkError Page)} {p : PagedList}
    (hpages : ∀ r ∈ rs, NoEmptyPage r)
    (hrun : PagedList.Run pfx (prefixedKey pfx lst) w.Still w rs p w') :
    rs.length ≤ (S3Op.listing (w.known pfx) lst).length + 1 ∧
      ∀ results, p = .returned results → results.Perm (S3Op.listing (w.known pfx) lst) := by
  have hlength : (S3Op.listing w (prefixedKey pfx lst)).length =
      (S3Op.listing (w.known pfx) lst).length := by
    cases pfx with
    | none => rfl
    | some p =>
      show _ = (S3Op.listing (w.under p) lst).length
      rw [listing_under, List.length_map]
  constructor
  · have hbound := bounded_of_run hpages hrun
    rw [← hlength]
    cases p with
    | asking token results => exact (le_trans (Nat.le_add_right ..) hbound).trans (Nat.le_succ _)
    | returned results => exact hbound
    | failed e => exact hbound
  · rintro results rfl
    have hstill : ∀ {v : World}, v.objects = w.objects →
        S3Op.listing (v.known pfx) lst = S3Op.listing (w.known pfx) lst :=
      fun hv => listing_of_objects (known_of_objects hv) lst
    have hsame : w.Still w := rfl
    obtain ⟨hsorted, hwas, hcovers⟩ := listedThrough_of_run hsame hrun
    have hkeys := nodup_listing (w := w.known pfx) lst
    refine (List.perm_ext_iff_of_nodup (hsorted.imp fun hlt heq => ?_) hkeys.of_map).mpr ?_
    · rw [heq] at hlt
      exact lt_irrefl _ hlt
    · intro e
      constructor
      · intro he
        obtain ⟨v, hv, hmem⟩ := hwas e he
        rwa [hstill hv] at hmem
      · intro he
        obtain ⟨hstart, o, ho, -⟩ := mem_listing.mp he
        have hthere : ∀ v : World, v.objects = w.objects → (v.known pfx).Has e.key := by
          intro v hv
          refine ⟨o, ?_⟩
          unfold World.get? at ho ⊢
          rwa [known_of_objects hv]
        obtain ⟨e', he', hkey⟩ := hcovers e.key hstart hthere
        obtain ⟨v, hv, hmem⟩ := hwas e' he'
        rw [hstill hv] at hmem
        rwa [← List.inj_on_of_nodup_map hkeys hmem he hkey]

/-- **A listing in pages**: what `list_objects` returns while others change the bucket,
and that in a bucket that stands still it ends, after at most one request more than there
are entries, and returns what the one request of `listObjects` gives. -/
theorem paged_listing (pfx : Option String) (lst : String) (w : World) :
    (∀ (ok : World → Prop) rs results w', ok w →
      PagedList.Run pfx (prefixedKey pfx lst) ok w rs (.returned results) w' →
      ListedThrough pfx lst ok results) ∧
    ∀ rs p w', (∀ r ∈ rs, NoEmptyPage r) →
      PagedList.Run pfx (prefixedKey pfx lst) w.Still w rs p w' →
      rs.length ≤ (S3Op.listing (w.known pfx) lst).length + 1 ∧
        ∀ results, p = .returned results → results.Perm (S3Op.listing (w.known pfx) lst) :=
  ⟨fun _ _ _ _ hok hrun => listedThrough_of_run hok hrun,
    fun _ _ _ hpages hrun => listed_still hpages hrun⟩

-- ---------------------------------------------------------------------------
-- Two pages
-- ---------------------------------------------------------------------------

def entry (key : String) : ListEntry := ⟨key, 0, 0⟩

/-- A bucket with these keys. -/
def holding (keys : List String) : World where
  objects := keys.map fun key => (key, ⟨.data [], 0, 0⟩)

/-- An object is replaced by another between the pages. -/
def pageWorlds (v : World) : Prop :=
  v = holding ["snapshots/a", "snapshots/c"] ∨ v = holding ["snapshots/b", "snapshots/c"]

theorem listing_holding_ac : S3Op.listing (holding ["snapshots/a", "snapshots/c"])
    (prefixedKey none "snapshots/") = [entry "snapshots/a", entry "snapshots/c"] := by
  decide +kernel

theorem listing_holding_bc : S3Op.listing (holding ["snapshots/b", "snapshots/c"])
    (prefixedKey none "snapshots/") = [entry "snapshots/b", entry "snapshots/c"] := by
  decide +kernel

def firstPage : Except SdkError Page := .ok ⟨[entry "snapshots/a"], some "snapshots/a"⟩

theorem firstPage_answers : PageAnswers (prefixedKey none "snapshots/") none
    (holding ["snapshots/a", "snapshots/c"]) firstPage := by
  have hac : "snapshots/a" < "snapshots/c" := by decide
  refine ⟨List.pairwise_singleton _ _, fun e => ?_, fun t _ p hp => nomatch hp⟩
  rw [listing_holding_ac]
  constructor
  · intro he
    rw [List.mem_singleton.mp he]
    exact ⟨List.mem_cons_self .., behind_none _, upTo_some.mpr le_rfl⟩
  · rintro ⟨he, -, hupTo⟩
    rcases List.mem_cons.mp he with rfl | he
    · exact List.mem_singleton_self _
    · rw [List.mem_singleton.mp he] at hupTo
      exact absurd (upTo_some.mp hupTo) (not_le.mpr hac)

theorem secondPage_answers : PageAnswers (prefixedKey none "snapshots/") (some "snapshots/a")
    (holding ["snapshots/b", "snapshots/c"])
    (.ok ⟨[entry "snapshots/b", entry "snapshots/c"], none⟩) := by
  have hab : "snapshots/a" < "snapshots/b" := by decide
  have hbc : "snapshots/b" < "snapshots/c" := by decide
  refine ⟨List.pairwise_pair.mpr hbc, fun e => ?_, fun t ht => nomatch ht⟩
  rw [listing_holding_bc]
  constructor
  · intro he
    refine ⟨he, behind_some.mpr ?_, fun t ht => nomatch ht⟩
    rcases List.mem_cons.mp he with rfl | he
    · exact hab
    · rw [List.mem_singleton.mp he]
      exact hab.trans hbc
  · intro he
    exact he.1

theorem lastPage_answers : PageAnswers (prefixedKey none "snapshots/") (some "snapshots/a")
    (holding ["snapshots/a", "snapshots/c"]) (.ok ⟨[entry "snapshots/c"], none⟩) := by
  have hac : "snapshots/a" < "snapshots/c" := by decide
  refine ⟨List.pairwise_singleton _ _, fun e => ?_, fun t ht => nomatch ht⟩
  rw [listing_holding_ac]
  constructor
  · intro he
    rw [List.mem_singleton.mp he]
    exact ⟨List.mem_cons_of_mem _ (List.mem_singleton_self _), behind_some.mpr hac,
      fun t ht => nomatch ht⟩
  · rintro ⟨he, hbehind, -⟩
    rcases List.mem_cons.mp he with rfl | he
    · exact absurd (behind_some.mp hbehind) (lt_irrefl _)
    · exact he

/-- Another object took the place of one already listed, and the listing shows both; left
alone, the bucket is listed as it is. -/
theorem paged_listing_two :
    ListedThrough none "snapshots/" pageWorlds
        [entry "snapshots/a", entry "snapshots/b", entry "snapshots/c"] ∧
      [entry "snapshots/a", entry "snapshots/c"].Perm
        (S3Op.listing ((holding ["snapshots/a", "snapshots/c"]).known none) "snapshots/") := by
  have hboth := paged_listing none "snapshots/" (holding ["snapshots/a", "snapshots/c"])
  constructor
  · have hchange : pageWorlds (holding ["snapshots/b", "snapshots/c"]) := .inr rfl
    exact hboth.1 pageWorlds _ _ _ (.inl rfl)
      (((PagedList.Run.start.request firstPage_answers).beside hchange).request
        secondPage_answers)
  · refine (hboth.2 [firstPage, .ok ⟨[entry "snapshots/c"], none⟩] _ _ ?_
      ((PagedList.Run.start.request firstPage_answers).request lastPage_answers)).2 _ rfl
    intro r hr
    rcases List.mem_cons.mp hr with rfl | hr
    · intro page t hpage _
      obtain rfl := Except.ok.inj hpage
      exact List.cons_ne_nil _ _
    · intro page t hpage hnext
      rw [List.mem_singleton.mp hr] at hpage
      obtain rfl := Except.ok.inj hpage
      cases hnext

end Chbk
