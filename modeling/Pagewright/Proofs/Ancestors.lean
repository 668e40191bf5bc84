import Mathlib.Order.Lattice.Nat
import Pagewright.Proofs.Acyclic

/-!
# Ancestors

The search for ancestors keeps what it has found in the order of distance, and all of it was
followed or waits (`ClassTable.Found`). So it finds all classes that parents lead to, circles or
not, none twice and the nearest first, and the tag of a class is one that the nearest class with a
tag names (`ClassTable.ancestors_nearest_first`). -/

namespace Pagewright

open List Relation

namespace ClassTable

variable {t : ClassTable} {c : ClassDef} {n : Nat} {origin name p q : String} {parents seen found done queue fresh : List String}

/-! ### Distances -/

/-- So many steps lead from a name to another, each from a class to a class among its parents. -/
def StepsTo (t : ClassTable) : Nat → String → String → Prop
  | 0, name, p => name = p
  | n + 1, name, p => ∃ q, t.StepsTo n name q ∧ t.Extends q p

theorem reflTransGen_iff : ReflTransGen t.Extends name p ↔ ∃ n, t.StepsTo n name p := by
  constructor
  · intro h
    induction h with
    | refl => exact ⟨0, rfl⟩
    | tail _ he ih =>
      obtain ⟨n, hn⟩ := ih
      exact ⟨n + 1, _, hn, he⟩
  · rintro ⟨n, hn⟩
    induction n generalizing p with
    | zero => exact hn ▸ .refl
    | succ n ih =>
      obtain ⟨q, hq, he⟩ := hn
      exact (ih hq).tail he

/-- The least number of steps from a name to another. -/
noncomputable def distance (t : ClassTable) (name p : String) : Nat := sInf {n | t.StepsTo n name p}

theorem distance_le (h : t.StepsTo n name p) : t.distance name p ≤ n := Nat.sInf_le h

theorem stepsTo_distance (h : ReflTransGen t.Extends name p) :
    t.StepsTo (t.distance name p) name p := Nat.sInf_mem (reflTransGen_iff.1 h)

theorem distance_le_succ (h : ReflTransGen t.Extends name q) (he : t.Extends q p) : t.distance name p ≤ t.distance name q + 1 :=
  distance_le ⟨q, stepsTo_distance h, he⟩

/-! ### Fresh parents -/

theorem mem_freshParents_iff : p ∈ t.freshParents origin seen parents ↔ p ∈ parents ∧ t.contains p ∧ p ≠ origin ∧ p ∉ seen := by
  induction parents generalizing seen with
  | nil => simp [freshParents]
  | cons q qs ih =>
    unfold freshParents
    by_cases hp : p = q
    · split_ifs with h <;> simp_all
    · split_ifs with h <;> simp [ih, hp]

theorem nodup_freshParents : (t.freshParents origin seen parents).Nodup := by
  induction parents generalizing seen with
  | nil => exact nodup_nil
  | cons q qs ih =>
    unfold freshParents
    split_ifs
    · exact nodup_cons.2 ⟨fun h => (mem_freshParents_iff.1 h).2.2.2 mem_cons_self, ih⟩
    · exact ih

/-! ### The search -/

/-- What was found from `origin`: the classes in `done` were followed, those in `queue` wait. -/
structure Found (t : ClassTable) (origin : String) (done queue : List String) : Prop where
  origin_mem : origin ∈ done ++ queue
  nodup : (done ++ queue).Nodup
  reached : ∀ p ∈ done ++ queue, ReflTransGen t.Extends origin p
  followed : ∀ q ∈ done, ∀ p, t.Extends q p → p ∈ done ++ queue
  sorted : (done ++ queue).Pairwise fun p q => t.distance origin p ≤ t.distance origin q
  near : ∀ p ∈ done ++ queue, ∀ q ∈ queue, t.distance origin p ≤ t.distance origin q + 1

theorem Found.mem_of_distance_le (h : t.Found origin done (name :: queue))
    (hp : t.StepsTo n origin p) (hn : n ≤ t.distance origin name) : p ∈ done ++ name :: queue := by
  induction n generalizing p with
  | zero => exact hp ▸ h.origin_mem
  | succ n ih =>
    obtain ⟨q, hq, he⟩ := hp
    refine h.followed q ((mem_append.1 (ih hq (by omega))).resolve_right fun hw => ?_) p he
    -- One that waits is no nearer than the first that does.
    have hd := distance_le hq
    obtain ⟨-, hs, -⟩ := pairwise_append.1 h.sorted
    rcases mem_cons.1 hw with rfl | hw
    · omega
    · have hle := rel_of_pairwise_cons hs hw
      omega

theorem Found.step (h : t.Found origin done (name :: queue)) (hn : fresh.Nodup)
    (hf : ∀ p, p ∈ fresh ↔ t.Extends name p ∧ p ∉ done ++ name :: queue) : t.Found origin (done ++ [name]) (queue ++ fresh) := by
  have hl : (done ++ [name]) ++ (queue ++ fresh) = (done ++ name :: queue) ++ fresh := by simp
  have hname : name ∈ done ++ name :: queue := mem_append_right _ mem_cons_self
  have hd : ∀ p ∈ fresh, t.distance origin p = t.distance origin name + 1 := by
    intro p hp
    obtain ⟨he, hnew⟩ := (hf p).1 hp
    have hr := h.reached name hname
    refine le_antisymm (distance_le_succ hr he) (Nat.succ_le_of_lt (Nat.lt_of_not_le fun hle => hnew ?_))
    exact h.mem_of_distance_le (stepsTo_distance (hr.tail he)) hle
  have hnear : ∀ p ∈ done ++ name :: queue, t.distance origin p ≤ t.distance origin name + 1 := fun p hp => h.near p hp name mem_cons_self
  constructor
  · rw [hl]
    exact mem_append_left _ h.origin_mem
  · rw [hl]
    exact nodup_append'.2 ⟨h.nodup, hn, fun p hp hp' => ((hf p).1 hp').2 hp⟩
  · rw [hl, forall_mem_append]
    exact ⟨h.reached, fun p hp => (h.reached name hname).tail ((hf p).1 hp).1⟩
  · rw [hl, forall_mem_append, forall_mem_singleton]
    refine ⟨fun q hq p he => mem_append_left _ (h.followed q hq p he), fun p he => ?_⟩
    by_cases hp : p ∈ done ++ name :: queue
    · exact mem_append_left _ hp
    · exact mem_append_right _ ((hf p).2 ⟨he, hp⟩)
  · rw [hl, pairwise_append]
    refine ⟨h.sorted, pairwise_of_forall_mem_list fun p hp q hq => (hd p hp).trans_le (hd q hq).ge, ?_⟩
    exact fun p hp q hq => (hnear p hp).trans (hd q hq).ge
  · have hle : ∀ q ∈ queue ++ fresh, t.distance origin name ≤ t.distance origin q := by
      obtain ⟨-, hs, -⟩ := pairwise_append.1 h.sorted
      rw [forall_mem_append]
      exact ⟨fun q hq => rel_of_pairwise_cons hs hq, fun q hq => (hd q hq).symm ▸ Nat.le_succ _⟩
    rw [hl, forall_mem_append]
    refine ⟨fun p hp q hq => (hnear p hp).trans (Nat.succ_le_succ (hle q hq)), fun p hp q hq => ?_⟩
    rw [hd p hp]
    exact Nat.succ_le_succ (hle q hq)

theorem Found.ancestorsFrom (h : t.Found origin done queue) (hl : origin :: found = done ++ queue) :
    t.Found origin (origin :: t.ancestorsFrom origin found queue) [] := by
  fun_induction t.ancestorsFrom origin found queue generalizing done with
  | case1 found =>
    rw [append_nil] at hl
    exact hl ▸ h
  | case2 found current rest hg ih =>
    have hs : t.Found origin (done ++ [current]) (rest ++ []) := h.step nodup_nil fun p => by simp [Extends, hg]
    rw [append_nil] at hs
    exact ih hs (by rw [hl, append_assoc]; rfl)
  | case3 found current rest c hg ih =>
    refine ih (h.step nodup_freshParents fun p => ?_) (by rw [← cons_append, hl]; simp)
    rw [mem_freshParents_iff, ← hl, mem_cons, not_or]
    constructor
    · rintro ⟨hp, hc, hs, hn⟩
      exact ⟨⟨c, hg, hp, hc⟩, hs, hn⟩
    · rintro ⟨⟨d, hd, hp, hc⟩, hs, hn⟩
      cases hg.symm.trans hd
      exact ⟨hp, hc, hs, hn⟩

theorem found_ancestorNames (t : ClassTable) (name : String) : t.Found name (name :: t.ancestorNames name) [] := by
  have h : t.Found name [] [name] := ⟨mem_singleton_self _, nodup_singleton _, forall_mem_singleton.2 .refl, forall_mem_nil _,
    pairwise_singleton _ _, forall_mem_singleton.2 (forall_mem_singleton.2 (Nat.le_succ _))⟩
  exact h.ancestorsFrom rfl

theorem mem_ancestorNames_iff : p ∈ name :: t.ancestorNames name ↔ ReflTransGen t.Extends name p := by
  have hf := found_ancestorNames t name
  constructor
  · exact fun hp => hf.reached p (mem_append_left _ hp)
  · intro h
    induction h with
    | refl => exact mem_cons_self
    | tail _ he ih => simpa using hf.followed _ ih _ he

theorem mem_ancestors_iff : c ∈ t.ancestors name ↔ c ∈ t.classes ∧ c.name ∈ t.ancestorNames name := by
  rw [ancestors, mem_filterMap]
  constructor
  · rintro ⟨p, hp, hg⟩
    exact ⟨mem_of_get? hg, name_of_get? hg ▸ hp⟩
  · rintro ⟨hc, hp⟩
    exact ⟨c.name, hp, get?_of_mem hc⟩

theorem map_name_ancestors (t : ClassTable) (name : String) : (t.ancestors name).map ClassDef.name = t.ancestorNames name := by
  rw [ancestors, map_filterMap]
  refine (filterMap_congr fun p hp => ?_).trans filterMap_some
  -- What is found is another name than the first, so a step leads to it.
  obtain heq | ⟨q, -, -, -, -, hco⟩ := ReflTransGen.cases_tail (mem_ancestorNames_iff.1 (mem_cons_of_mem name hp))
  · have hn := (found_ancestorNames t name).nodup
    rw [append_nil] at hn
    exact absurd (heq ▸ hp) (nodup_cons.1 hn).1
  · obtain ⟨c, hc, rfl⟩ := exists_of_contains hco
    rw [get?_of_mem hc]
    rfl

theorem mem_withAncestors_iff : c ∈ t.withAncestors name ↔ c ∈ t.classes ∧ ReflTransGen t.Extends name c.name := by
  rw [← mem_ancestorNames_iff]
  unfold withAncestors
  split
  · next d hd =>
    rw [mem_cons, mem_ancestors_iff, mem_cons]
    constructor
    · rintro (rfl | ⟨hc, hp⟩)
      · exact ⟨mem_of_get? hd, .inl (name_of_get? hd)⟩
      · exact ⟨hc, .inr hp⟩
    · rintro ⟨hc, rfl | hp⟩
      · exact .inl (Option.some.inj ((get?_of_mem hc).symm.trans hd))
      · exact .inr ⟨hc, hp⟩
  · next hn =>
    rw [mem_ancestorNames_iff]
    refine iff_of_false not_mem_nil ?_
    rintro ⟨hc, hr⟩
    obtain heq | ⟨q, ⟨d, hd, -⟩, -⟩ := ReflTransGen.cases_head hr
    · rw [heq, get?_of_mem hc] at hn
      cases hn
    · cases hn.symm.trans hd

theorem pairwise_withAncestors (t : ClassTable) (name : String) :
    (t.withAncestors name).Pairwise fun c d => t.distance name c.name ≤ t.distance name d.name := by
  have hs := (found_ancestorNames t name).sorted
  rw [append_nil, ← map_name_ancestors, pairwise_cons, pairwise_map] at hs
  unfold withAncestors
  split
  · next c hc =>
    refine pairwise_cons.2 ⟨fun d hd => ?_, hs.2⟩
    rw [name_of_get? hc]
    exact hs.1 d.name (mem_map_of_mem hd)
  · exact .nil

/-- **Ancestors.** In every table, with circles or without, the ancestors of a name are the other
classes that its parents lead to, none twice and the nearest first. It has a tag exactly if it or an
ancestor has one among its parents, and then one that the nearest of these has. -/
theorem ancestors_nearest_first (t : ClassTable) (name : String) :
    ((t.ancestors name).map ClassDef.name).Nodup ∧
      (∀ c, c ∈ t.ancestors name ↔ c ∈ t.classes ∧ c.name ≠ name ∧ ReflTransGen t.Extends name c.name) ∧
      (t.ancestors name).Pairwise (fun c d => t.distance name c.name ≤ t.distance name d.name) ∧
      (t.tag? name = none ↔ ∀ c ∈ t.classes, ReflTransGen t.Extends name c.name → ∀ p ∈ c.parents, isTag p = false) ∧
      ∀ tag, t.tag? name = some tag → isTag tag = true ∧
        ∃ c ∈ t.classes, ReflTransGen t.Extends name c.name ∧ tag ∈ c.parents ∧
          ∀ d ∈ t.classes, ReflTransGen t.Extends name d.name → (∃ p ∈ d.parents, isTag p = true) →
            t.distance name c.name ≤ t.distance name d.name := by
  have hfound := found_ancestorNames t name
  have hnodup := hfound.nodup
  have hsorted := hfound.sorted
  rw [append_nil, ← map_name_ancestors] at hnodup hsorted
  rw [pairwise_cons, pairwise_map] at hsorted
  obtain ⟨hself, hnodup⟩ := nodup_cons.1 hnodup
  refine ⟨hnodup, fun c => ?_, hsorted.2, ?_, fun tag htag => ?_⟩
  · rw [mem_ancestors_iff, ← mem_ancestorNames_iff, mem_cons, ← map_name_ancestors]
    refine and_congr_right fun _ => ⟨fun hc => ⟨fun heq => hself (heq ▸ hc), .inr hc⟩, ?_⟩
    rintro ⟨hne, hc⟩
    exact hc.resolve_left hne
  · rw [tag?, find?_flatMap, findSome?_eq_none_iff]
    simp only [mem_withAncestors_iff, find?_eq_none, Bool.not_eq_true, and_imp]
  · rw [tag?, find?_flatMap] at htag
    obtain ⟨near, c, far, hline, hc, hnear⟩ := findSome?_eq_some_iff.1 htag
    have hpairs := pairwise_withAncestors t name
    have hmem {d : ClassDef} : d ∈ near ++ c :: far ↔ d ∈ t.classes ∧ ReflTransGen t.Extends name d.name :=
      hline ▸ mem_withAncestors_iff
    rw [hline] at hpairs
    obtain ⟨hclass, hreached⟩ := hmem.1 (mem_append_right near mem_cons_self)
    refine ⟨find?_some hc, c, hclass, hreached, mem_of_find?_eq_some hc, fun d hd hdreached hdtag => ?_⟩
    -- No class before `c` has a tag, and those behind it are no nearer.
    rcases mem_append.1 (hmem.2 ⟨hd, hdreached⟩) with hdnear | hdfar
    · obtain ⟨p, hp, hptag⟩ := hdtag
      exact absurd hptag (find?_eq_none.1 (hnear d hdnear) p hp)
    · rcases mem_cons.1 hdfar with rfl | hdfar
      · exact le_rfl
      · exact rel_of_pairwise_cons (pairwise_append.1 hpairs).2.1 hdfar

end ClassTable

end Pagewright
