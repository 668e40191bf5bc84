import Mathlib.Data.List.Infix
import Pagewright.FileTree
import Pagewright.PropertyMap

/-!
# What is seen in file trees

At each place of a tree is nothing, a folder, or a file with its content (`FileTree.seen`). What is
put into a tree is seen at its place and below (`seen_put_below`), what is erased is seen no more
(`seen_erase_below`), and nothing changes elsewhere (`seen_apart`). -/

namespace Pagewright

open List

namespace FileTree

variable {t new t' : FileTree} {es : List (String × FileTree)} {name other content : String}
  {place q front back rest steps : List String}

/-- The content of a file. -/
def content? : FileTree → Option String
  | file content => some content
  | folder _ => none

/-- What is seen at a place: a file with its content, a folder, or nothing. -/
def seen (t : FileTree) (place : List String) : Option (Option String) := (t.get? place).map content?

theorem seen_eq_file_iff : t.seen place = some (some content) ↔ t.get? place = some (.file content) := by
  rw [seen, Option.map_eq_some_iff]
  constructor
  · rintro ⟨e, hg, hc⟩
    cases e with
    | file => rw [hg, Option.some.inj hc]
    | folder => cases hc
  · exact fun hg => ⟨_, hg, rfl⟩

theorem seen_eq_folder_iff : t.seen place = some none ↔ ∃ es, t.get? place = some (.folder es) := by
  rw [seen, Option.map_eq_some_iff]
  constructor
  · rintro ⟨e, hg, hc⟩
    cases e with
    | file => cases hc
    | folder es => exact ⟨es, hg⟩
  · exact fun ⟨_, hg⟩ => ⟨_, hg, rfl⟩

theorem seen_eq_none_iff : t.seen place = none ↔ t.get? place = none := Option.map_eq_none_iff

/-! ### Below a place -/

@[simp] theorem get?_nil (t : FileTree) : t.get? [] = some t := by
  cases t <;> rfl

theorem get?_folder_cons (steps : List String) : (folder es).get? (name :: steps) = (es.lookup name).bind (·.get? steps) := by
  rw [get?]
  cases es.lookup name <;> rfl

theorem get?_append (t : FileTree) (front back : List String) : t.get? (front ++ back) = (t.get? front).bind (·.get? back) := by
  induction front generalizing t with
  | nil => simp
  | cons name front ih =>
    cases t with
    | file => rfl
    | folder es =>
      rw [cons_append, get?_folder_cons, get?_folder_cons]
      cases es.lookup name with
      | none => rfl
      | some t => exact ih t

/-- What is above something that is there is a folder. -/
theorem seen_eq_folder_above (h : t.seen q ≠ none) (hp : place <+: q) (hne : place ≠ q) : t.seen place = some none := by
  obtain ⟨rest, rfl⟩ := hp
  rw [Ne, seen_eq_none_iff, get?_append] at h
  rw [seen_eq_folder_iff]
  cases hg : t.get? place with
  | none => simp [hg] at h
  | some e =>
    cases e with
    | folder es => exact ⟨es, rfl⟩
    | file content =>
      cases rest with
      | nil => simp at hne
      | cons => simp [hg, get?] at h

theorem seen_eq_none_below (h : t.seen place = none) (hp : place <+: q) : t.seen q = none := by
  obtain ⟨rest, rfl⟩ := hp
  rw [seen_eq_none_iff] at h ⊢
  rw [get?_append, h, Option.bind_none]

/-! ### Putting -/

theorem lookup_putEntry : (putEntry es name new).lookup other = if other = name then some new else es.lookup other := by
  have hm : ∀ es : List (String × FileTree), (es.map fun e => if e.1 = name then (name, new) else e).lookup other =
        if other = name ∧ name ∈ es.map Prod.fst then some new else es.lookup other := by
    intro es
    induction es with
    | nil => simp
    | cons e es ih =>
      rw [map_cons, lookup_cons_eq, lookup_cons_eq, ih, map_cons]
      by_cases he : e.1 = name
      · by_cases ho : other = name <;> simp [he, ho]
      · rw [if_neg he]
        by_cases ho : other = e.1
        · simp [ho, he]
        · simp only [if_neg ho, mem_cons, Ne.symm he, false_or]
  unfold putEntry
  split_ifs with ha ho ho
  · rw [hm, if_pos ⟨ho, by simpa using ha⟩]
  · rw [hm, if_neg fun h => ho h.1]
  · have hn : es.lookup name = none := by
      refine lookup_eq_none_iff.2 fun e he => bne_iff_ne.2 ?_
      rintro rfl
      exact ha (any_eq_true.2 ⟨e, he, by simp⟩)
    rw [ho, lookup_append, hn, lookup_cons_eq, if_pos rfl, Option.none_or]
  · rw [lookup_append, lookup_cons_eq, if_neg ho, lookup_nil, Option.or_none]

theorem put_cons (steps : List String) (hne : steps ≠ []) : (folder es).put (name :: steps) new = match es.lookup name with
      | some t => folder (putEntry es name (t.put steps new))
      | none => folder es := by
  obtain ⟨_, _, rfl⟩ := exists_cons_of_ne_nil hne
  exact put.eq_4 _ _ _ _ nofun

theorem erase_cons (steps : List String) (hne : steps ≠ []) : (folder es).erase (name :: steps) = match es.lookup name with
      | some t => folder (putEntry es name (t.erase steps))
      | none => folder es := by
  obtain ⟨_, _, rfl⟩ := exists_cons_of_ne_nil hne
  exact erase.eq_4 _ _ _ nofun

/-- The places that something can be put to: what is above them is a folder. -/
def CanPut (t : FileTree) (place : List String) : Prop := place = [] ∨ t.seen place.dropLast = some none

theorem get?_put (h : t.CanPut place) (rest : List String) : (t.put place new).get? (place ++ rest) = new.get? rest := by
  induction place generalizing t with
  | nil => cases t <;> rfl
  | cons name steps ih =>
    obtain ⟨es, rfl⟩ : ∃ es, t = folder es := by
      have hr : t.seen [] = some none := by
        rcases h with h | h
        · cases h
        · by_cases hs : (name :: steps).dropLast = []
          · rwa [hs] at h
          · exact seen_eq_folder_above (by simp [h]) nil_prefix (Ne.symm hs)
      obtain ⟨es, hg⟩ := seen_eq_folder_iff.1 hr
      exact ⟨es, by simpa using hg⟩
    by_cases hs : steps = []
    · subst hs
      rw [put, singleton_append, get?_folder_cons, lookup_putEntry, if_pos rfl, Option.bind_some]
    · have hf : (folder es).seen (name :: steps.dropLast) = some none := by
        rcases h with h | h
        · cases h
        · rwa [dropLast_cons_of_ne_nil hs] at h
      rw [put_cons steps hs]
      cases hl : es.lookup name with
      | none =>
        rw [seen, get?_folder_cons, hl] at hf
        cases hf
      | some t =>
        rw [seen, get?_folder_cons, hl] at hf
        rw [cons_append, get?_folder_cons, lookup_putEntry, if_pos rfl]
        exact ih (.inr hf)

theorem seen_put_below (h : t.CanPut place) (hp : place <+: q) : (t.put place new).seen q = new.seen (q.drop place.length) := by
  obtain ⟨rest, rfl⟩ := hp
  rw [seen, get?_put h, drop_left, seen]

theorem seen_folder_cons (steps : List String) : (folder es).seen (name :: steps) = (es.lookup name).bind (·.seen steps) := by
  rw [seen, get?_folder_cons]
  cases es.lookup name <;> rfl

theorem seen_putEntry (hl : es.lookup name = some t) (h : ∀ rest, q = name :: rest → t'.seen rest = t.seen rest) :
    (folder (putEntry es name t')).seen q = (folder es).seen q := by
  cases q with
  | nil => rfl
  | cons head rest =>
    rw [seen_folder_cons, seen_folder_cons, lookup_putEntry]
    split_ifs with hh
    · subst hh
      rw [hl]
      exact h rest rfl
    · rfl

/-- What is put or erased at a place is seen there and below only. -/
theorem seen_apart (new : FileTree) (h : ¬place <+: q) :
    (t.put place new).seen q = t.seen q ∧ (t.erase place).seen q = t.seen q := by
  induction place generalizing t q with
  | nil => exact absurd nil_prefix h
  | cons name steps ih =>
    cases t with
    | file content => cases steps <;> exact ⟨rfl, rfl⟩
    | folder es =>
      by_cases hs : steps = []
      · subst hs
        cases q with
        | nil => exact ⟨rfl, rfl⟩
        | cons head q =>
          have hh : ¬head = name := fun heq => h ⟨q, by rw [heq]; rfl⟩
          simp only [put, erase, seen_folder_cons, lookup_putEntry, lookup_filter_ne, if_neg hh, and_self]
      · rw [put_cons steps hs, erase_cons steps hs]
        cases hl : es.lookup name with
        | none => exact ⟨rfl, rfl⟩
        | some t =>
          have hr {rest : List String} (hq : q = name :: rest) : ¬steps <+: rest := by
            rw [hq, cons_prefix_cons, not_and] at h
            exact h rfl
          exact ⟨seen_putEntry hl fun _ hq => (ih (hr hq)).1, seen_putEntry hl fun _ hq => (ih (hr hq)).2⟩

theorem seen_put_of_not_canPut (h : ¬t.CanPut place) : (t.put place new).seen q = t.seen q := by
  induction place generalizing t q with
  | nil => exact absurd (.inl rfl) h
  | cons name steps ih =>
    cases t with
    | file content => cases steps <;> rfl
    | folder es =>
      by_cases hs : steps = []
      · subst hs
        exact absurd (.inr rfl) h
      · rw [put_cons steps hs]
        cases hl : es.lookup name with
        | none => rfl
        | some t =>
          refine seen_putEntry hl fun rest hq => ih fun hp => h (.inr ?_)
          rw [dropLast_cons_of_ne_nil hs, seen_folder_cons, hl]
          exact hp.resolve_left hs

theorem seen_put (h : t.CanPut place) (hn : ∀ name rest, new.seen (name :: rest) = none) : (t.put place new).seen q =
    if q = place then new.seen [] else if place <+: q then none else t.seen q := by
  split_ifs with hq hb
  · rw [hq, seen_put_below h (prefix_refl _), drop_length]
  · obtain ⟨rest, rfl⟩ := hb
    rw [seen_put_below h (prefix_append place rest), drop_left]
    cases rest with
    | nil => simp at hq
    | cons name rest => exact hn name rest
  · exact (seen_apart new hb).1

theorem seen_put_folder (h : t.CanPut place) : (t.put place (.folder [])).seen q =
    if q = place then some none else if place <+: q then none else t.seen q := seen_put h fun _ _ => rfl

/-- What is seen after a file was put somewhere that was no folder. -/
theorem seen_put_file (h : t.CanPut place) (hp : t.seen place ≠ some none) :
    (t.put place (.file content)).seen q = if q = place then some (some content) else t.seen q := by
  rw [seen_put h fun _ _ => rfl]
  split_ifs with hq hb
  · rfl
  · by_contra hs
    exact hp (seen_eq_folder_above (Ne.symm hs) hb (Ne.symm hq))
  · rfl

theorem seen_put_new (h : t.CanPut place) (hp : t.seen place = none) :
    (t.put place (.folder [])).seen q = if q = place then some none else t.seen q := by
  rw [seen_put_folder h]
  split_ifs with hq hb
  · rfl
  · exact (seen_eq_none_below hp hb).symm
  · rfl

/-! ### Erasing -/

theorem seen_erase_below (hne : place ≠ []) (h : place <+: q) : (t.erase place).seen q = none := by
  induction place generalizing t q with
  | nil => exact absurd rfl hne
  | cons name steps ih =>
    obtain ⟨rest, rfl⟩ := h
    cases t with
    | file content => cases steps <;> rfl
    | folder es =>
      by_cases hs : steps = []
      · subst hs
        rw [erase, singleton_append, seen_folder_cons, lookup_filter_ne, if_pos rfl, Option.bind_none]
      · rw [erase_cons steps hs]
        cases hl : es.lookup name with
        | none => rw [cons_append, seen_folder_cons, hl, Option.bind_none]
        | some t =>
          rw [cons_append, seen_folder_cons, lookup_putEntry, if_pos rfl]
          exact ih hs (prefix_append steps rest)

end FileTree

end Pagewright
