import Pagewright.Proofs.HeadLinks

/-!
# Normal forms of relative paths

The normal form of a relative path keeps the names that no `..` takes back. Of the steps up that are
left it keeps one if their number is odd and none if it is even, since a `..` takes back a `..` that
was kept as it takes back a name (`Path.steps_eq`). So the normal form leads to the same place only
if there is at most one (`Path.normalize_place_iff`). -/

namespace Pagewright

namespace Path

open List

variable {p q : Path} {c : Component} {cs : List Component} {steps : List String} {name : String}

/-! ### The steps that are kept -/

/-- The steps to a place, without its pairs of steps up. -/
def Place.keptSteps (place : Place) : List String := replicate (place.ups % 2) ".." ++ place.names

theorem Steps.push_keptSteps {place : Place} (hr : place.rooted = false) (hc : c ≠ .root) :
    (⟨false, place.keptSteps⟩ : Steps).push c = ⟨false, (place.push c).keptSteps⟩ ∧ (place.push c).rooted = false := by
  cases c with
  | root => exact absurd rfl hc
  | here => exact ⟨rfl, hr⟩
  | name name => simp [Steps.push, Place.push, Place.keptSteps, hr]
  | up =>
    by_cases hn : place.names = []
    · rcases Nat.mod_two_eq_zero_or_one place.ups with hm | hm
      · simp [Steps.push, Place.push, Place.keptSteps, hr, hn, Nat.add_mod, hm]
      · simp [Steps.push, Place.push, Place.keptSteps, hr, hn, Nat.add_mod, hm]
    · simp [Steps.push, Place.push, Place.keptSteps, hr, hn, dropLast_append_of_ne_nil]

theorem Steps.foldl_keptSteps (place : Place) (hr : place.rooted = false) (hc : .root ∉ cs) :
    cs.foldl Steps.push ⟨false, place.keptSteps⟩ = ⟨false, (place.along cs).keptSteps⟩ ∧ (place.along cs).rooted = false := by
  induction cs generalizing place with
  | nil => exact ⟨rfl, hr⟩
  | cons c cs ih =>
    rw [mem_cons, not_or] at hc
    obtain ⟨hp, hr'⟩ := Steps.push_keptSteps hr (Ne.symm hc.1)
    rw [foldl_cons, hp]
    exact ih _ hr' hc.2

theorem root_notMem_components (h : p.isRooted = false) : .root ∉ p.components := by
  intro hm
  rw [components, h, if_neg Bool.false_ne_true] at hm
  rcases mem_append.1 hm with hm | hm
  · split at hm <;> simp at hm
  · rcases cases_of_mem_route hm with hc | ⟨name, hc⟩ <;> cases hc

/-- The names that no `..` takes back stay, and one of an odd number of other steps up. -/
theorem steps_eq (h : p.isRooted = false) : p.steps = ⟨false, p.place.keptSteps⟩ ∧ p.place.rooted = false :=
  Steps.foldl_keptSteps ⟨false, 0, []⟩ rfl (root_notMem_components h)

/-! ### The path that is written for them -/

theorem isEntryName_of_mem_components (h : .name name ∈ p.components) : IsEntryName name := by
  rw [components] at h
  rcases mem_append.1 h with h | h
  · split_ifs at h <;> simp at h
  · obtain ⟨seg, hs, hc⟩ := mem_filterMap.1 h
    unfold component? at hc
    split_ifs at hc with hi hu
    · cases hc
    · obtain rfl : String.ofList seg = name := Component.name.inj (Option.some.inj hc)
      have hn : IsName seg := ⟨Bool.eq_false_iff.2 hi, hu⟩
      exact ⟨by rwa [String.toList_ofList], by rw [String.toList_ofList]; exact not_mem_of_mem_splitAll hs⟩

theorem mem_names_along {place : Place} (h : name ∈ (place.along cs).names) : name ∈ place.names ∨ .name name ∈ cs := by
  induction cs generalizing place with
  | nil => exact .inl h
  | cons c cs ih =>
    rcases ih h with h | h
    · cases c with
      | root => cases h
      | here => exact .inl h
      | name other =>
        rcases mem_append.1 h with h | h
        · exact .inl h
        · rw [mem_singleton.1 h]
          exact .inr mem_cons_self
      | up =>
        unfold Place.push at h
        split_ifs at h
        · exact .inl (mem_of_mem_dropLast h)
        · exact .inl h
        · exact .inl h
    · exact .inr (mem_cons_of_mem _ h)

/-- What a kept step stands for. -/
def stepOf (step : String) : Component := if step = ".." then .up else .name step

theorem component?_toList (h : name = ".." ∨ IsEntryName name) :
    component? name.toList = some (stepOf name) ∧ isIdle name.toList = false ∧ '/' ∉ name.toList := by
  rcases h with rfl | h
  · decide
  · have hu : name ≠ ".." := fun hu => h.isName.2 (by rw [hu]; rfl)
    refine ⟨?_, h.isName.1, h.slash_not_mem⟩
    rw [component?, if_neg (by simp [h.isName.1]), if_neg h.isName.2, String.ofList_toList, stepOf, if_neg hu]

theorem toList_joinNames : ∀ names : List String, (joinNames "/" names).toList = joinWith ['/'] (names.map String.toList)
  | [] => rfl
  | [name] => by simp [joinNames, joinWith]
  | name :: next :: names => by
    have ih := toList_joinNames (next :: names)
    simp only [joinNames, map_cons, joinWith] at ih ⊢
    simp [ih]

theorem components_joinNames (h : ∀ step ∈ steps, step = ".." ∨ IsEntryName step) :
    components ⟨joinNames "/" steps⟩ = steps.map stepOf := by
  cases steps with
  | nil => rfl
  | cons step steps =>
    have hs : segments ⟨joinNames "/" (step :: steps)⟩ = step.toList :: steps.map String.toList := by
      rw [segments, toList_joinNames, map_cons, splitAll_joinWith]
      rw [← map_cons]
      intro seg hm
      obtain ⟨name, hn, rfl⟩ := mem_map.1 hm
      exact (component?_toList (h name hn)).2.2
    have hi := (component?_toList (h step mem_cons_self)).2.1
    have hr : isRooted ⟨joinNames "/" (step :: steps)⟩ = false := by
      rw [← Bool.not_eq_true, isRooted_iff, hs]
      rintro ⟨seg, segments, heq⟩
      rw [(List.cons.inj heq).1] at hi
      cases hi
    have hl : step.toList ≠ ['.'] := by
      intro hd
      rw [hd] at hi
      cases hi
    rw [components, hr, hs, if_neg Bool.false_ne_true, if_neg (by simpa using hl), ← map_cons, filterMap_map, ← filterMap_eq_map]
    exact filterMap_congr fun name hn => (component?_toList (h name hn)).1

theorem components_normalize (h : p.isRooted = false) :
    p.normalize.components = replicate (p.place.ups % 2) .up ++ p.place.names.map .name := by
  have hn : ∀ name ∈ p.place.names, IsEntryName name := fun name hn =>
    isEntryName_of_mem_components ((mem_names_along hn).resolve_left not_mem_nil)
  rw [normalize, (steps_eq h).1, Steps.toPath, if_neg Bool.false_ne_true, String.empty_append, components_joinNames, Place.keptSteps,
    map_append, map_replicate]
  · refine congrArg (replicate _ _ ++ ·) (map_congr_left fun name hm => if_neg fun hu => ?_)
    exact (hn name hm).isName.2 (by rw [hu]; rfl)
  · intro step hs
    rcases mem_append.1 hs with hs | hs
    · exact .inl (eq_of_mem_replicate hs)
    · exact .inr (hn step hs)

/-- The normal form of a path leads where the path does, but for pairs of steps up. -/
theorem place_normalize (h : p.isRooted = false) : p.normalize.place = ⟨false, p.place.ups % 2, p.place.names⟩ := by
  rw [place, components_normalize h, Place.along_append, Place.along_names]
  rcases Nat.mod_two_eq_zero_or_one p.place.ups with hm | hm <;> rw [hm] <;> rfl

theorem same_normalize_iff (hp : p.isRooted = false) (hq : q.isRooted = false) :
    p.normalize.same q.normalize ↔ p.place.names = q.place.names ∧ p.place.ups % 2 = q.place.ups % 2 := by
  rw [same, decide_eq_true_eq]
  constructor
  · intro h
    have hl : p.normalize.place = q.normalize.place := congrArg (Place.along _) h
    rw [place_normalize hp, place_normalize hq] at hl
    obtain ⟨-, hu, hn⟩ := Place.mk.inj hl
    exact ⟨hn, hu⟩
  · rintro ⟨hn, hu⟩
    rw [components_normalize hp, components_normalize hq, hn, hu]

theorem same_normalize_iff_place (hp : p.isRooted = false) (hq : q.isRooted = false) (hu : p.place.ups ≤ 1)
    (hu' : q.place.ups ≤ 1) : p.normalize.same q.normalize ↔ p.place = q.place := by
  rw [same_normalize_iff hp hq, Nat.mod_eq_of_lt (Nat.lt_succ_of_le hu), Nat.mod_eq_of_lt (Nat.lt_succ_of_le hu')]
  constructor
  · rintro ⟨hn, hs⟩
    change Place.mk p.place.rooted p.place.ups p.place.names = q.place
    rw [(steps_eq hp).2, hs, hn, ← (steps_eq hq).2]
  · intro h
    rw [h]
    exact ⟨rfl, rfl⟩

/-- **Normal forms and places.** The normal form of a relative path leads along the same names as
the path, and up once if the path leads up an odd number of times. So it leads to the same place
exactly if the path leads up at most once. Two paths have the same normal form exactly if the names
are the same and both numbers of steps up are odd or both even; if both paths lead up at most once,
exactly if they lead to the same place. So of files with such paths, no other one is taken for one
of those that are being expanded. -/
theorem normalize_place_iff {p : Path} (hp : p.isRooted = false) :
    p.normalize.place = ⟨false, p.place.ups % 2, p.place.names⟩ ∧
    (p.normalize.place = p.place ↔ p.place.ups ≤ 1) ∧
    (∀ q : Path, q.isRooted = false →
      (p.normalize.same q.normalize = true ↔ p.place.names = q.place.names ∧ p.place.ups % 2 = q.place.ups % 2) ∧
      (p.place.ups ≤ 1 → q.place.ups ≤ 1 → (p.normalize.same q.normalize = true ↔ p.place = q.place))) ∧
    ∀ before : List Path, (∀ q ∈ p :: before, q.isRooted = false ∧ q.place.ups ≤ 1) →
      ((before.map normalize).any (·.same p.normalize) = true ↔ ∃ q ∈ before, q.place = p.place) := by
  have hrooted := (steps_eq hp).2
  refine ⟨place_normalize hp, ?_, fun q hq => ⟨same_normalize_iff hp hq, same_normalize_iff_place hp hq⟩, fun before hb => ?_⟩
  · rw [place_normalize hp]
    constructor
    · intro h
      have := congrArg Place.ups h
      dsimp only at this
      omega
    · intro h
      rw [Nat.mod_eq_of_lt (Nat.lt_succ_of_le h), ← hrooted]
  · obtain ⟨⟨-, hu⟩, hb⟩ := forall_mem_cons.1 hb
    rw [any_map, any_eq_true]
    exact exists_congr fun q => and_congr_right fun hq => same_normalize_iff_place (hb q hq).1 hp (hb q hq).2 hu

/-- The path `../x/./../a` leads up once, and so does its normal form `../a`. -/
theorem normalize_place_iff_oneUp : isRooted ⟨"../x/./../a"⟩ = false ∧
    normalize ⟨"../x/./../a"⟩ = ⟨"../a"⟩ ∧ (normalize ⟨"../x/./../a"⟩).place = place ⟨"../x/./../a"⟩ := by
  have hr : isRooted ⟨"../x/./../a"⟩ = false := by decide
  obtain ⟨-, hplace, -⟩ := normalize_place_iff hr
  exact ⟨hr, by decide, hplace.2 (by decide)⟩

/-- Two steps up are lost: `../../a` and `a` have the same normal form. -/
theorem normalize_twoUps : place ⟨"../../a"⟩ = ⟨false, 2, ["a"]⟩ ∧ place ⟨"a"⟩ = ⟨false, 0, ["a"]⟩ ∧
    normalize ⟨"../../a"⟩ = ⟨"a"⟩ ∧ normalize ⟨"a"⟩ = ⟨"a"⟩ := by
  decide

end Path

end Pagewright
