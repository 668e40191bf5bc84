import Mathlib.Data.List.Nodup
import Mathlib.Data.String.Basic
import Pagewright.Manifest

/-!
# The pages of a manifest

No table of a document has a key twice (`Toml.Distinct`): a key is added only where it is missing,
and every change goes down to one table and puts it back under its key. So the pages of a manifest
have names of their own, in order, that files can have (`Manifest.pages_of_parse`). -/

namespace Pagewright

open List
open Prod (fst)

variable {cs : List Char} {content text : String}

namespace Toml

variable {lines lines' : List Line}

/-- All tables in a value have distinct keys. -/
inductive Distinct : Toml → Prop where
  | text {value : String} : Distinct (.text value)
  | integer {value : Int} : Distinct (.integer value)
  | float {text : String} : Distinct (.float text)
  | boolean {value : Bool} : Distinct (.boolean value)
  | datetime {text : String} : Distinct (.datetime text)
  /-- Nothing is ever added to an array. -/
  | array {items : List Toml} : Distinct (.array items)
  | tables {items : List Toml} : (∀ item ∈ items, Distinct item) → Distinct (.tables items)
  | table {origin : TableOrigin} {entries : Entries} : (entries.map fst).Nodup →
      (∀ entry ∈ entries, Distinct entry.2) → Distinct (.table origin entries)

/-- The entries of a table with distinct keys. -/
def DistinctEntries (entries : Entries) : Prop := (entries.map fst).Nodup ∧ ∀ entry ∈ entries, Distinct entry.2

variable {entries entries' : Entries} {key : String} {value : Toml} {origin : TableOrigin}

theorem distinct_table_iff : Distinct (.table origin entries) ↔ DistinctEntries entries :=
  ⟨fun | .table hk hv => ⟨hk, hv⟩, fun h => .table h.1 h.2⟩

theorem distinctEntries_nil : DistinctEntries [] := ⟨nodup_nil, nofun⟩

theorem DistinctEntries.append (h : DistinctEntries entries) (hv : Distinct value)
    (hk : entries.any (·.1 = key) = false) : DistinctEntries (entries ++ [(key, value)]) := by
  constructor
  · rw [map_append, nodup_append_comm]
    refine nodup_cons.2 ⟨fun hm => ?_, h.1⟩
    obtain ⟨e, he, heq⟩ := mem_map.1 hm
    have ha : entries.any (·.1 = key) := any_eq_true.2 ⟨e, he, by simpa using heq⟩
    rw [hk] at ha
    cases ha
  · intro e he
    rcases mem_append.1 he with he | he
    · exact h.2 e he
    · cases mem_singleton.1 he
      exact hv

theorem DistinctEntries.put (h : DistinctEntries entries) (hv : Distinct value) : DistinctEntries (put entries key value) := by
  unfold Toml.put
  split_ifs with ha
  · have hk : (entries.map fun e => if e.1 = key then (key, value) else e).map fst = entries.map fst := by
      rw [map_map]
      refine map_congr_left fun e _ => ?_
      dsimp only [Function.comp]
      split_ifs with he
      · exact he.symm
      · rfl
    refine ⟨hk ▸ h.1, fun e he => ?_⟩
    obtain ⟨old, hold, rfl⟩ := mem_map.1 he
    split_ifs
    · exact hv
    · exact h.2 old hold
  · exact h.append hv (Bool.eq_false_iff.2 ha)

theorem DistinctEntries.lookup (h : DistinctEntries entries) (hl : entries.lookup key = some value) : Distinct value := by
  induction entries with
  | nil => cases hl
  | cons e entries ih =>
    rw [lookup_cons] at hl
    split at hl
    · cases hl
      exact h.2 e mem_cons_self
    · exact ih ⟨(nodup_cons.1 h.1).2, fun other ho => h.2 other (mem_cons_of_mem _ ho)⟩ hl

/-- A change that keeps the keys of a table distinct. -/
def Change.Keeps (f : Change) : Prop :=
  ∀ origin entries result, DistinctEntries entries → f origin entries = some result → DistinctEntries result.2

/-- What a change keeps at the end of a path, it keeps in the whole. -/
theorem keeps_change {f : Change} (hf : f.Keeps) (isDotted : Bool) (path : List String) : (change isDotted f path).Keeps := by
  induction path with
  | nil => exact hf
  | cons key path ih =>
    intro origin entries result h hr
    rw [change] at hr
    -- In each case one table is changed further down and put back.
    have hp {inner : TableOrigin} {innerEntries : Entries} (hi : DistinctEntries innerEntries)
        {wrap : TableOrigin × Entries → Toml} (hw : ∀ changed : TableOrigin × Entries, DistinctEntries changed.2 → Distinct (wrap changed))
        (hs : ((change isDotted f path inner innerEntries).bind fun changed =>
          some (origin, Toml.put entries key (wrap changed))) = some result) : DistinctEntries result.2 := by
      obtain ⟨changed, hc, heq⟩ := Option.bind_eq_some_iff.1 hs
      cases heq
      exact h.put (hw changed (ih _ _ _ hi hc))
    have ht {changed : TableOrigin × Entries} (hc : DistinctEntries changed.2) :
        Distinct (.table changed.1 changed.2) := distinct_table_iff.2 hc
    split at hr
    · exact hp distinctEntries_nil (fun _ => ht) hr
    · next inner innerEntries hl =>
      have hi := distinct_table_iff.1 (h.lookup hl)
      split_ifs at hr
      · cases hr
      · exact hp hi (fun _ => ht) hr
    · next items hl =>
      have hit : ∀ item ∈ items, Distinct item := by
        cases h.lookup hl with
        | tables hit => exact hit
      split at hr
      · next inner innerEntries ha =>
        have hi := distinct_table_iff.1 (hit _ (mem_of_getLast? ha))
        refine hp hi (fun changed hc => .tables fun item he => ?_) hr
        rcases mem_append.1 he with he | he
        · exact hit item ((dropLast_sublist items).mem he)
        · cases mem_singleton.1 he
          exact ht hc
      · cases hr
    · cases hr

theorem keeps_addKey (path : List String) (key : String) (hv : Distinct value) : (addKey path key value).Keeps := by
  refine keeps_change (fun origin entries result h hr => ?_) true path
  split_ifs at hr with hb
  cases hr
  rw [Bool.or_eq_true, not_or] at hb
  exact h.append hv (Bool.eq_false_iff.2 hb.2)

theorem keeps_addTable (path : List String) (key : String) : (addTable path key).Keeps := by
  refine keeps_change (fun origin entries result h hr => ?_) false path
  split at hr
  · cases hr
    exact h.put (distinct_table_iff.2 distinctEntries_nil)
  · next inner hl =>
    cases hr
    exact h.put (distinct_table_iff.2 (distinct_table_iff.1 (h.lookup hl)))
  · cases hr

theorem keeps_addArrayTable (path : List String) (key : String) : (addArrayTable path key).Keeps := by
  have hn : Distinct (.table .header []) := distinct_table_iff.2 distinctEntries_nil
  refine keeps_change (fun origin entries result h hr => ?_) false path
  split at hr
  · cases hr
    exact h.put (.tables fun item hi => mem_singleton.1 hi ▸ hn)
  · next items hl =>
    cases hr
    refine h.put (.tables fun item hi => ?_)
    rcases mem_append.1 hi with hi | hi
    · cases h.lookup hl with
      | tables ht => exact ht item hi
    · exact mem_singleton.1 hi ▸ hn
  · cases hr

/-! ### Values that are read -/

theorem distinct_scalar (h : scalar? cs = some value) : Distinct value := by
  unfold scalar? at h
  split at h
  · cases h
    exact .boolean
  split at h
  · cases h
    exact .boolean
  split at h
  · cases h
    exact .integer
  split at h
  · cases h
    exact .float
  split at h
  · cases h
    exact .datetime
  · cases h

theorem distinct_readScalar {t} (h : readScalar cs = some t) : Distinct t.value := by
  unfold readScalar at h
  split at h
  · obtain ⟨value, hv, rfl⟩ := Option.map_eq_some_iff.1 h
    exact distinct_scalar hv
  · cases h

/-- Whatever is read of `cs`, at any depth, has distinct keys. -/
def ReadsDistinct (cs : List Char) : Prop :=
  ∀ d, (∀ t, readValue d cs = some t → Distinct t.value) ∧
    (∀ items t, readItems d items cs = some t → Distinct t.value) ∧
    ∀ entries t, DistinctEntries entries → readPairs d entries cs = some t → Distinct t.value

section
variable (ih : ∀ rest : List Char, rest.length < cs.length → ReadsDistinct rest)
include ih

theorem distinct_readValue {t} (h : readValue d cs = some t) : Distinct t.value := by
  unfold readValue at h
  split at h
  · cases h
  · cases h
  · obtain ⟨taken, ht, rfl⟩ := Option.map_eq_some_iff.1 h
    exact (ih _ (by simp) _).2.1 [] taken ht
  · obtain ⟨taken, ht, rfl⟩ := Option.map_eq_some_iff.1 h
    exact (ih _ (by simp) _).2.2 [] taken distinctEntries_nil ht
  · split at h
    · cases h
      exact .text
    · exact distinct_readScalar h

theorem distinct_readItems {t} (h : readItems d items cs = some t) : Distinct t.value := by
  unfold readItems at h
  split at h
  · cases h
  · cases h
    exact .array
  · next start hs =>
    have hst := skipLines_length_le hs
    split at h
    · cases h
    · next item hi =>
      have hr := item.rest_lt
      split at h
      · cases h
      · next post ha =>
        have hb := post.rest_lt
        split_ifs at h
        · obtain ⟨taken, ht, rfl⟩ := Option.map_eq_some_iff.1 h
          exact (ih _ (by omega) _).2.1 _ taken ht
        · cases h
          exact .array

theorem distinct_readPairs {t} (he : DistinctEntries entries)
    (h : readPairs d entries cs = some t) : Distinct t.value := by
  unfold readPairs at h
  split at h
  · cases h
  · cases h
    exact distinct_table_iff.2 he
  · next start hs =>
    have hst := skipLines_length_le hs
    split at h
    · cases h
    · next left hl =>
      have hr := left.rest_lt
      split at h
      · cases h
      · next item hi =>
        have hv := (ih _ (by omega) _).1 item hi
        split at h
        · next origin es' post hd ha =>
          have he' := keeps_addKey _ _ hv _ _ _ he hd
          split_ifs at h
          · obtain ⟨taken, ht, rfl⟩ := Option.map_eq_some_iff.1 h
            have hb := post.rest_lt
            have hi := item.rest_lt
            exact (ih _ (by omega) _).2.2 es' taken he' ht
          · cases h
            exact distinct_table_iff.2 he'
        · cases h

end

theorem readsDistinct (cs : List Char) : ReadsDistinct cs := by
  induction hn : cs.length using Nat.strongRecOn generalizing cs with
  | _ n ih =>
    have hs : ∀ rest : List Char, rest.length < cs.length → ReadsDistinct rest := fun rest hl => ih _ (hn ▸ hl) rest rfl
    exact fun d => ⟨fun _ => distinct_readValue hs, fun _ _ => distinct_readItems hs, fun _ _ => distinct_readPairs hs⟩

/-! ### Documents -/

/-- The values in a line have distinct keys. -/
def Line.Distinct : Line → Prop
  | pair _ _ value => value.Distinct
  | table _ _ | arrayTable _ _ => True

theorem distinct_readLine {t : Taken Line cs.length} (h : readLine cs = some t) : t.value.Distinct := by
  unfold readLine at h
  split at h
  · obtain ⟨taken, -, rfl⟩ := Option.map_eq_some_iff.1 h
    trivial
  · obtain ⟨taken, -, rfl⟩ := Option.map_eq_some_iff.1 h
    trivial
  · split at h
    · cases h
    · obtain ⟨item, hi, rfl⟩ := Option.map_eq_some_iff.1 h
      exact (readsDistinct _ _).1 item hi

theorem distinct_readLines (hl : ∀ line ∈ lines, line.Distinct)
    (h : readLinesFrom lines cs = some lines') : ∀ line ∈ lines', line.Distinct := by
  fun_induction readLinesFrom lines cs with
  | case1 | case3 | case4 => cases h
  | case2 lines =>
    cases h
    exact fun line hi => hl line (mem_reverse.1 hi)
  | case5 lines cs c start hs line hi rest hr ih =>
    refine ih (fun other ho => ?_) h
    rcases mem_cons.1 ho with rfl | ho
    · exact distinct_readLine hi
    · exact hl other ho

theorem distinct_build {header : List String} (he : DistinctEntries entries)
    (hl : ∀ line ∈ lines, line.Distinct) (h : build header entries lines = some entries') : DistinctEntries entries' := by
  induction lines generalizing header entries with
  | nil =>
    cases h
    exact he
  | cons line lines ih =>
    obtain ⟨hi, hr⟩ := forall_mem_cons.1 hl
    cases line with
    | pair path key value =>
      obtain ⟨result, hre, h⟩ := Option.bind_eq_some_iff.1 h
      exact ih (keeps_change (keeps_addKey path key hi) false header _ _ _ he hre) hr h
    | table path key =>
      obtain ⟨result, hre, h⟩ := Option.bind_eq_some_iff.1 h
      exact ih (keeps_addTable path key _ _ _ he hre) hr h
    | arrayTable path key =>
      obtain ⟨result, hre, h⟩ := Option.bind_eq_some_iff.1 h
      exact ih (keeps_addArrayTable path key _ _ _ he hre) hr h

theorem distinct_parse (h : parse? text = some entries) : DistinctEntries entries := by
  obtain ⟨lines, hl, hb⟩ := Option.bind_eq_some_iff.1 h
  exact distinct_build distinctEntries_nil (distinct_readLines (forall_mem_nil _) hl) hb

theorem Distinct.entries? (h : Distinct value) (he : value.entries? = some entries) : (entries.map fst).Nodup := by
  cases h with
  | table hk => exact Option.some.inj he ▸ hk
  | datetime => exact Option.some.inj he ▸ nodup_singleton _
  | text | integer | float | boolean | array | tables => cases he

end Toml

/-! ### Manifests -/

namespace Manifest

variable {sources texts : List (String × String)} {a b : String × String} {root : Path} {manifest : Manifest}

theorem keys_texts? {entries : Toml.Entries} (h : texts? entries = some texts) : texts.map fst = entries.map fst := by
  fun_induction texts? entries generalizing texts with
  | case1 =>
    cases h
    rfl
  | case2 key value entries ih =>
    obtain ⟨rest, hr, rfl⟩ := Option.map_eq_some_iff.1 h
    rw [map_cons, map_cons, ih hr]
  | case3 => cases h

/-- The order in which sources are put. -/
def inOrder (a b : String × String) : Bool := !(b.1 < a.1)

theorem inOrder_iff : inOrder a b ↔ a.1 ≤ b.1 := by
  rw [inOrder, Bool.not_eq_true', decide_eq_false_iff_not, not_lt]

theorem parse_eq_ok_iff : parse content root = .ok manifest ↔ ∃ entries sources out, Toml.parse? content = some entries ∧
      sources? (entries.lookup "sources") = some (some sources) ∧ outLayout? (entries.lookup "out") = some out ∧
      sources ≠ [] ∧ (∀ src ∈ sources.mergeSort inOrder, isPageName src.1) ∧
      manifest = ⟨root, (sources.mergeSort inOrder).map fun src => (src.1, ⟨src.2⟩), out⟩ := by
  constructor
  · intro h
    unfold parse at h
    split at h
    · next entries he =>
      split at h
      · next hs =>
        split at h
        · next out ho =>
          split at h
          · next sources =>
            dsimp only at h
            split_ifs at h with hm
            · cases h
            · split at h
              · cases h
              · next hn =>
                cases h
                refine ⟨entries, sources, out, he, hs, ho, by simpa using hm, fun src hso => ?_, rfl⟩
                simpa using find?_eq_none.1 hn src hso
          · cases h
        · cases h
      · cases h
    · cases h
  · rintro ⟨entries, sources, out, he, hs, ho, hm, hn, rfl⟩
    have hf : (sources.mergeSort fun a b => !(b.1 < a.1)).find? (fun src => !isPageName src.1) = none :=
      find?_eq_none.2 fun src hso => by simp [hn src hso]
    have hne : sources.isEmpty = false := by simpa using hm
    unfold parse
    simp only [he, hs, ho, hne]
    rw [hf]
    rfl

theorem parse_of_entries {out : OutLayout}
    (h : (Toml.parse? content).any (fun entries => decide (sources? (entries.lookup "sources") = some (some sources) ∧
      outLayout? (entries.lookup "out") = some out))) (hne : sources ≠ [])
    (hs : sources.Pairwise fun a b => inOrder a b) (hn : ∀ src ∈ sources, isPageName src.1)
    (root : Path) : parse content root = .ok ⟨root, sources.map fun src => (src.1, ⟨src.2⟩), out⟩ := by
  obtain ⟨entries, hp, hr⟩ := (Option.any_eq_true _ _).1 h
  obtain ⟨hso, ho⟩ := of_decide_eq_true hr
  refine parse_eq_ok_iff.2 ⟨entries, sources, out, hp, hso, ho, hne, ?_, ?_⟩
  · rwa [mergeSort_of_pairwise hs]
  · rw [mergeSort_of_pairwise hs]

/-- **The pages of a manifest** are in the order of their names, none of them is there twice, and
their names are those of pages. -/
theorem pages_of_parse (h : parse content root = .ok manifest) : (manifest.sources.map fst).Pairwise (· < ·) ∧
      ∀ page ∈ manifest.sources.map fst, isPageName page := by
  obtain ⟨entries, sources, out, he, hs, -, -, hn, rfl⟩ := parse_eq_ok_iff.1 h
  have hk : ((sources.mergeSort inOrder).map fun src => (src.1, (⟨src.2⟩ : Path))).map fst =
      (sources.mergeSort inOrder).map fst := by
    rw [map_map]
    rfl
  have ho : ((sources.mergeSort inOrder).map fst).Nodup := by
    rw [((mergeSort_perm sources inOrder).map fst).nodup_iff]
    cases hl : entries.lookup "sources" with
    | none =>
      rw [hl] at hs
      cases hs
    | some value =>
      rw [hl] at hs
      obtain ⟨texts, ht, hso⟩ := Option.map_eq_some_iff.1 hs
      cases hso
      obtain ⟨inner, hi, ht⟩ := Option.bind_eq_some_iff.1 ht
      rw [keys_texts? ht]
      exact ((Toml.distinct_parse he).lookup hl).entries? hi
  have hr : ((sources.mergeSort inOrder).map fst).Pairwise (· ≤ ·) := by
    rw [pairwise_map]
    refine (pairwise_mergeSort (fun a b c ha hb => ?_) (fun a b => ?_) sources).imp inOrder_iff.1
    · exact inOrder_iff.2 ((inOrder_iff.1 ha).trans (inOrder_iff.1 hb))
    · rw [Bool.or_eq_true, inOrder_iff, inOrder_iff]
      exact le_total _ _
  rw [hk]
  refine ⟨(hr.and ho).imp fun ⟨hle, hne⟩ => lt_of_le_of_ne hle hne, fun page hp => ?_⟩
  obtain ⟨src, hu, rfl⟩ := mem_map.1 hp
  exact hn src hu

end Manifest

end Pagewright
