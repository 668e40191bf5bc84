/-!
# Property maps

Properties in the order in which their keys first appeared; giving a key another value leaves it
where it stands. No key occurs twice. The view of a map is its list of entries.
-/

namespace Pagewright

theorem lookup_cons_eq {α : Type} (k : String) (entry : String × α) (entries : List (String × α)) :
    (entry :: entries).lookup k = if k = entry.1 then some entry.2 else entries.lookup k := by
  rw [List.lookup_cons]
  split <;> simp_all

theorem lookup_filter_ne {α : Type} (entries : List (String × α)) (key k : String) :
    (entries.filter (·.1 ≠ key)).lookup k = if k = key then none else entries.lookup k := by
  induction entries with
  | nil => simp
  | cons entry entries ih =>
    by_cases he : entry.1 = key
    · rw [List.filter_cons_of_neg (by simpa using he), ih, lookup_cons_eq]
      grind
    · rw [List.filter_cons_of_pos (by simpa using he), lookup_cons_eq, lookup_cons_eq, ih]
      grind

/-- The entries with `key` set to `value`: in place if the key is there, else at the end. -/
def putEntry (key value : String) : List (String × String) → List (String × String)
  | [] => [(key, value)]
  | (k, v) :: rest => if k = key then (k, value) :: rest else (k, v) :: putEntry key value rest

theorem keys_putEntry (key value : String) (entries : List (String × String)) :
    (putEntry key value entries).map Prod.fst = if key ∈ entries.map Prod.fst then entries.map Prod.fst
      else entries.map Prod.fst ++ [key] := by
  induction entries with
  | nil => rfl
  | cons e rest ih =>
    obtain ⟨k, v⟩ := e
    by_cases h : k = key
    · simp [putEntry, h]
    · have h' : key ≠ k := fun he => h he.symm
      by_cases hm : key ∈ rest.map Prod.fst
      · simp [putEntry, h, ih, hm]
      · simp [putEntry, h, h', ih, hm]

theorem nodup_putEntry {key value : String} {entries : List (String × String)}
    (h : (entries.map Prod.fst).Nodup) : ((putEntry key value entries).map Prod.fst).Nodup := by
  rw [keys_putEntry]
  split
  · exact h
  · next hk => exact List.nodup_append.2 ⟨h, by simp, by
      intro a ha b hb hab
      simp only [List.mem_singleton] at hb
      exact hk (hb ▸ hab ▸ ha)⟩

/-- Properties in the order of their first appearance. -/
structure PropertyMap where
  entries : List (String × String)
  nodup : (entries.map Prod.fst).Nodup

namespace PropertyMap

/-- The map without properties. -/
def empty : PropertyMap := ⟨[], by simp⟩

instance : Inhabited PropertyMap := ⟨empty⟩

/-- The keys in order. -/
def keys (m : PropertyMap) : List String := m.entries.map Prod.fst

/-- The value of a key. -/
def get? (m : PropertyMap) (key : String) : Option String := m.entries.lookup key

/-- The number of properties. -/
def size (m : PropertyMap) : Nat := m.entries.length

/-- Whether there are no properties. -/
def isEmpty (m : PropertyMap) : Bool := m.entries.isEmpty

/-- The map with `key` set to `value`. -/
def insert (m : PropertyMap) (key value : String) : PropertyMap :=
  ⟨putEntry key value m.entries, nodup_putEntry m.nodup⟩

/-- The map with all properties of `other` set, in their order. -/
def merge (m other : PropertyMap) : PropertyMap :=
  other.entries.foldl (fun m e => m.insert e.1 e.2) m

/-- The map that a list of properties makes; a later value of a key replaces an earlier one. -/
def ofList (entries : List (String × String)) : PropertyMap :=
  entries.foldl (fun m e => m.insert e.1 e.2) empty

end PropertyMap

end Pagewright
