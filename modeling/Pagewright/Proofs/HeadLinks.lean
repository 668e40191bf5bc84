import Mathlib.Data.List.DropRight
import Pagewright.Proofs.ManifestPages
import Pagewright.Proofs.PageFiles

/-!
# Where head links lead

The links in the head of a page are taken from the folder of the markup. Where a path leads without
a look at the files is its `Path.Place`: each `..` takes back a name, or goes up from where the path
starts. A link goes up once for each name in the path of the markup folder. That is the way back to
the folder for all files if this path has no `..`, and too far otherwise (`head_links_lead_iff`). -/

namespace Pagewright

open List
open String (ofList toList_append)

variable {part seg name cs lead : List Char} {segments front kept parts : List (List Char)} {file : String}
  {sep : Char}

/-! ### Segments -/

theorem not_mem_of_mem_splitAll (h : part ∈ splitAll sep cs) : sep ∉ part := by
  induction cs generalizing part with
  | nil =>
    rw [mem_singleton.1 h]
    exact not_mem_nil
  | cons c cs ih =>
    rw [splitAll] at h
    split_ifs at h with hc
    · rcases mem_cons.1 h with rfl | h
      · exact not_mem_nil
      · exact ih h
    · cases hp : splitAll sep cs with
      | nil => exact absurd hp (splitAll_ne_nil sep cs)
      | cons first parts =>
        rw [hp] at h ih
        rcases mem_cons.1 h with rfl | h
        · rw [mem_cons, not_or]
          exact ⟨Ne.symm hc, ih mem_cons_self⟩
        · exact ih (mem_cons_of_mem _ h)

theorem splitAll_joinWith (h : ∀ p ∈ part :: parts, sep ∉ p) : splitAll sep (joinWith [sep] (part :: parts)) = part :: parts := by
  rw [splitAll_eq_splitOn, joinWith_eq_intercalate, splitOn_intercalate sep h (cons_ne_nil part parts)]

namespace Path

/-- The steps that segments stand for, behind the beginning of a path. -/
def route (segments : List (List Char)) : List Component := segments.filterMap component?

theorem route_append (front back : List (List Char)) : route (front ++ back) = route front ++ route back := filterMap_append

theorem route_of_isIdle (h : ∀ seg ∈ segments, isIdle seg) : route segments = [] := by
  refine filterMap_eq_nil_iff.2 fun seg hs => ?_
  rw [component?, if_pos (h seg hs)]

theorem route_name (h : IsName seg) : route [seg] = [.name (ofList seg)] := by
  rw [route, filterMap_cons, component?, if_neg (by simp [h.1]), if_neg h.2]
  rfl

theorem route_dropIdleEnd (segments : List (List Char)) : route (dropIdleEnd segments) = route segments := by
  have hs : dropIdleEnd segments ++ segments.rtakeWhile isIdle = segments := rdropWhile_append_rtakeWhile
  have hi : route (segments.rtakeWhile isIdle) = [] := route_of_isIdle fun seg => mem_rtakeWhile_imp
  conv_rhs => rw [← hs, route_append, hi, append_nil]

theorem cases_of_mem_route {c : Component} (h : c ∈ route segments) : c = .up ∨ ∃ name, c = .name name := by
  obtain ⟨seg, -, hs⟩ := mem_filterMap.1 h
  unfold component? at hs
  split_ifs at hs
  · exact .inl (Option.some.inj hs).symm
  · exact .inr ⟨_, (Option.some.inj hs).symm⟩

theorem isRooted_iff (p : Path) : p.isRooted ↔ ∃ seg segments, p.segments = [] :: seg :: segments := by
  rw [isRooted, segments]
  cases p.text.toList with
  | nil => simp [splitAll]
  | cons c cs =>
    rw [splitAll]
    cases hp : splitAll '/' cs with
    | nil => exact absurd hp (splitAll_ne_nil _ cs)
    | cons part parts =>
      split_ifs with hc
      · simp [hc]
      · simp [hc]

/-! ### Lexical places -/

/-- Where a path leads if every name is a folder: from the root or from where it starts, so many
folders up, and then along names. -/
structure Place where
  rooted : Bool
  ups : Nat
  names : List String
deriving DecidableEq, Repr

namespace Place

variable {m n : Nat}

/-- One step further. There is nothing above the root. -/
def push (place : Place) : Component → Place
  | .root => ⟨true, 0, []⟩
  | .here => place
  | .up =>
    if place.names ≠ [] then { place with names := place.names.dropLast }
    else if place.rooted then place
    else { place with ups := place.ups + 1 }
  | .name name => { place with names := place.names ++ [name] }

/-- Some steps further. -/
def along (place : Place) (steps : List Component) : Place := steps.foldl push place

variable {place : Place} {steps : List Component}

theorem along_append (place : Place) (front back : List Component) :
    place.along (front ++ back) = (place.along front).along back :=
  foldl_append

theorem along_cons (place : Place) (c : Component) (steps : List Component) :
    place.along (c :: steps) = (place.push c).along steps := rfl

theorem along_names (place : Place) (names : List String) :
    place.along (names.map .name) = { place with names := place.names ++ names } := by
  induction names generalizing place with
  | nil => rw [append_nil]; rfl
  | cons name names ih => rw [map_cons, along_cons, ih, push, append_assoc]; rfl

theorem along_names_ups (place : Place) (names : List String) :
    (place.along (names.map .name)).along (replicate names.length .up) = place := by
  induction names using reverseRecOn with
  | nil => rfl
  | append_singleton names name ih =>
    have hu : ({ place with names := place.names ++ (names ++ [name]) } : Place).push .up =
        { place with names := place.names ++ names } := by
      rw [push, if_pos (by simp), ← append_assoc, dropLast_concat]
    rw [along_names] at ih ⊢
    rw [length_append, length_singleton, replicate_succ, along_cons, hu]
    exact ih

/-! ### Levels -/

/-- How many folders below its start a place is. -/
def level (place : Place) : Int := place.names.length - place.ups

/-- One can go up so many times and get a folder higher each time. -/
def CanClimb (place : Place) (n : Nat) : Prop := place.rooted = false ∨ n ≤ place.names.length

theorem CanClimb.mono (h : place.CanClimb n) (hle : m ≤ n) : place.CanClimb m := h.imp_right hle.trans

theorem climb_up (h : place.CanClimb (n + 1)) : (place.push .up).level = place.level - 1 ∧ (place.push .up).CanClimb n := by
  unfold push
  dsimp only
  split_ifs with hn ho
  · have hpo := length_pos_iff.2 hn
    refine ⟨?_, h.imp id fun hle => ?_⟩
    · rw [level, level, length_dropLast]
      dsimp only
      omega
    · rw [length_dropLast]
      omega
  · -- Nothing can be climbed from the root.
    rcases h with h | h
    · rw [h] at ho
      cases ho
    · rw [not_not.1 hn] at h
      simp at h
  · refine ⟨?_, .inl (by simpa using ho)⟩
    rw [level, level]
    push_cast
    omega

theorem climb_name (h : place.CanClimb n) (name : String) :
    (place.push (.name name)).level = place.level + 1 ∧ (place.push (.name name)).CanClimb (n + 1) := by
  refine ⟨?_, h.imp id fun hle => ?_⟩
  · rw [level, level, push, length_append, length_singleton]
    push_cast
    omega
  · rw [push, length_append, length_singleton]
    omega

theorem level_along (hs : ∀ c ∈ steps, c = .up ∨ ∃ name, c = .name name) (h : place.CanClimb (m + steps.count .up)) :
    (place.along steps).level = place.level + steps.countP OutLayout.isNameStep - steps.count .up ∧
      (place.along steps).CanClimb (m + steps.countP OutLayout.isNameStep) := by
  induction steps generalizing place m with
  | nil => simpa [along] using h
  | cons c steps ih =>
    obtain ⟨hc, hr⟩ := forall_mem_cons.1 hs
    rcases hc with rfl | ⟨name, rfl⟩
    · rw [count_cons_self] at h
      obtain ⟨hp, hcl⟩ := climb_up h
      obtain ⟨hl, hcl⟩ := ih hr hcl
      rw [along_cons, countP_cons_of_neg (by simp [OutLayout.isNameStep]), count_cons_self]
      exact ⟨by omega, hcl⟩
    · rw [count_cons_of_ne (by simp)] at h
      obtain ⟨hp, hcl⟩ := climb_name h name
      rw [Nat.add_right_comm] at hcl
      obtain ⟨hl, hcl⟩ := ih hr hcl
      rw [along_cons, countP_cons_of_pos (by simp [OutLayout.isNameStep]), count_cons_of_ne (by simp)]
      rw [Nat.add_right_comm] at hcl
      exact ⟨by omega, hcl⟩

end Place

/-- Where a path leads. -/
def place (p : Path) : Place := (⟨false, 0, []⟩ : Place).along p.components

theorem place_eq (p : Path) : p.place = (⟨p.isRooted, 0, []⟩ : Place).along (route p.segments) := by
  rw [place, components]
  split_ifs with hr hh
  · rw [hr]
    rfl
  all_goals
    rw [Bool.eq_false_iff.2 hr]
    rfl

theorem place_join {q : Path} (h : q.isRooted = false) (p : Path) : (p.join q).place = p.place.along (route q.segments) := by
  obtain ⟨front, hs, hf, hr⟩ := segments_join h p
  have ho : route p.segments = route front := by
    rcases hf with hf | hf
    · rw [hf]
    · rw [hf, route_append]
      exact append_nil _
  rw [place_eq, place_eq, hs, hr, ho, route_append, Place.along_append]

/-! ### Folders of files -/

theorem dropIdleEnd_append (h : isIdle name = false) (front : List (List Char)) :
    dropIdleEnd (front ++ [name]) = front ++ [name] :=
  rdropWhile_concat_neg isIdle front name (by simp [h])

theorem mem_of_mem_dropIdleEnd (h : seg ∈ dropIdleEnd segments) : seg ∈ segments := by
  have hp := rdropWhile_prefix isIdle segments
  exact hp.subset h

theorem place_of_segments (h : ∀ seg ∈ lead :: kept, '/' ∉ seg)
    (hr : lead = [] → kept ≠ []) : (⟨ofList (joinWith ['/'] (lead :: kept))⟩ : Path).place =
      (⟨lead.isEmpty, 0, []⟩ : Place).along (route (lead :: kept)) := by
  have hs : (⟨ofList (joinWith ['/'] (lead :: kept))⟩ : Path).segments = lead :: kept := by
    rw [segments, String.toList_ofList, splitAll_joinWith h]
  rw [place_eq]
  congr 2
  rw [Bool.eq_iff_iff, isRooted_iff, hs, List.isEmpty_iff]
  constructor
  · rintro ⟨seg, segments, heq⟩
    exact (List.cons.inj heq).1
  · rintro rfl
    obtain ⟨seg, segments, rfl⟩ := exists_cons_of_ne_nil (hr rfl)
    exact ⟨seg, segments, rfl⟩

theorem exists_parent {path : Path} (hn : IsName name) (h : path.segments = front ++ [name]) :
    ∃ folder, path.parent? = some folder ∧ folder.place = (⟨path.isRooted, 0, []⟩ : Place).along (route front) := by
  cases front with
  | nil =>
    have hr : path.isRooted = false := by
      rw [← Bool.not_eq_true, isRooted_iff, h]
      simp
    refine ⟨⟨""⟩, ?_, by rw [hr]; rfl⟩
    rw [parent?, h]
    simp [dropIdleEnd, hn.ne_nil]
  | cons lead front =>
    have hs : ∀ seg ∈ lead :: dropIdleEnd front, '/' ∉ seg := by
      intro seg he
      refine not_mem_of_mem_splitAll (show seg ∈ path.segments from ?_)
      rw [h]
      rcases mem_cons.1 he with rfl | he
      · exact mem_append_left _ mem_cons_self
      · exact mem_append_left _ (mem_cons_of_mem _ (mem_of_mem_dropIdleEnd he))
    have hr : path.isRooted = lead.isEmpty := by
      rw [Bool.eq_iff_iff, isRooted_iff, h]
      cases front <;> simp
    have ho : route (lead :: dropIdleEnd front) = route (lead :: front) := by
      rw [← singleton_append, route_append, route_dropIdleEnd, ← route_append, singleton_append]
    obtain ⟨step, steps, ht⟩ := exists_cons_of_ne_nil (append_ne_nil_of_right_ne_nil front (cons_ne_nil name []))
    have hl : (step :: steps).dropLast = front := by rw [← ht, dropLast_concat]
    rw [parent?, h, cons_append]
    dsimp only
    rw [dropIdleEnd_append hn.1, ht]
    dsimp only
    rw [hl, hr, ← ho]
    cases hk : dropIdleEnd front with
    | nil =>
      rw [hk] at hs
      cases lead with
      | nil => exact ⟨⟨"/"⟩, rfl, rfl⟩
      | cons c cs =>
        have hp := place_of_segments hs (by simp)
        exact ⟨⟨ofList (c :: cs)⟩, rfl, hp⟩
    | cons step steps =>
      rw [hk] at hs
      exact ⟨_, rfl, place_of_segments hs (by simp)⟩

theorem exists_parent_join {name : String} (hn : IsEntryName name) (folder : Path) :
    ∃ parent, (folder.join ⟨name⟩).parent? = some parent ∧ parent.place = folder.place := by
  obtain ⟨front, hs, hf, hr⟩ := segments_join hn.not_isRooted folder
  rw [hn.segments_eq] at hs
  obtain ⟨parent, hp, hl⟩ := exists_parent hn.isName hs
  refine ⟨parent, hp, ?_⟩
  rw [hl, hr, place_eq]
  rcases hf with hf | hf
  · rw [hf]
  · rw [hf, route_append]
    exact congrArg _ (append_nil _).symm

theorem place_join_name {name : String} (hn : IsEntryName name) (folder : Path) :
    (folder.join ⟨name⟩).place = folder.place.along [.name name] := by
  rw [place_join hn.not_isRooted, hn.segments_eq, route_name hn.isName, String.ofList_toList]

end Path

/-! ### Links -/

namespace OutLayout

open Pagewright.Path

/-- The steps of a text. -/
def routeOf (cs : List Char) : List Component := route (splitAll '/' cs)

theorem routeOf_append (cs ds : List Char) : routeOf (cs ++ '/' :: ds) = routeOf cs ++ routeOf ds := by
  rw [routeOf, splitAll_append, route_append]
  rfl

theorem routeOf_dropWhile (cs : List Char) : routeOf (cs.dropWhile (· = '/')) = routeOf cs := by
  induction cs with
  | nil => rfl
  | cons c cs ih =>
    rw [dropWhile_cons]
    split
    · next hc =>
      rw [of_decide_eq_true hc, ih]
      exact (routeOf_append [] cs).symm
    · rfl

theorem routeOf_dropEndWhile (cs : List Char) : routeOf (dropEndWhile (· = '/') cs) = routeOf cs := by
  induction cs using reverseRecOn with
  | nil => rfl
  | append_singleton cs c ih =>
    have hd : dropEndWhile (· = '/') (cs ++ [c]) = _ := rdropWhile_concat (· = '/') cs c
    rw [hd]
    split_ifs with hc
    · rw [of_decide_eq_true hc, routeOf_append]
      exact ih.trans (append_nil _).symm
    · rfl

theorem routeOf_linkTo (hf : IsEntryName file) (folder : String) :
    routeOf (linkTo folder file).toList = routeOf folder.toList ++ [.name file] := by
  have hn : routeOf file.toList = [.name file] := by
    have hs : splitAll '/' file.toList = [file.toList] := hf.segments_eq
    rw [routeOf, hs, route_name hf.isName, String.ofList_toList]
  have hi : routeOf (dropEndWhile (· = '/') (folder.toList.dropWhile (· = '/'))) = routeOf folder.toList := by
    rw [routeOf_dropEndWhile, routeOf_dropWhile]
  unfold linkTo
  dsimp only
  rw [← hi]
  split_ifs with hid
  · rw [hn]
    rw [Bool.or_eq_true, List.isEmpty_iff, decide_eq_true_eq] at hid
    rcases hid with hid | hid <;> rw [hid] <;> rfl
  · have hl : "/".toList = ['/'] := rfl
    rw [toList_append, toList_append, String.toList_ofList, hl, append_assoc, singleton_append, routeOf_append, hn]

theorem head?_linkTo (hf : IsEntryName file) (folder : String) : (linkTo folder file).toList.head? ≠ some '/' := by
  have hn : file.toList.head? ≠ some '/' := fun hh => hf.slash_not_mem (mem_of_mem_head? hh)
  have hs : (folder.toList.dropWhile (· = '/')).head? ≠ some '/' := by
    intro hh
    have ho := head?_dropWhile_not (· = '/') folder.toList
    rw [hh] at ho
    cases ho
  unfold linkTo
  dsimp only
  split_ifs with hi
  · exact hn
  · rw [Bool.or_eq_true, not_or, List.isEmpty_iff] at hi
    obtain ⟨slashes, hp⟩ : dropEndWhile (· = '/') (folder.toList.dropWhile (· = '/')) <+: folder.toList.dropWhile (· = '/') :=
      rdropWhile_prefix _ _
    rw [← hp, head?_append_of_ne_nil _ hi.1] at hs
    rw [toList_append, toList_append, String.toList_ofList, append_assoc, head?_append_of_ne_nil _ hi.1]
    exact hs

theorem count_components (p : Path) : p.components.countP isNameStep = (routeOf p.text.toList).countP isNameStep ∧
    p.components.count .up = (routeOf p.text.toList).count .up := by
  have hr : p.segments.filterMap component? = routeOf p.text.toList := rfl
  rw [components, hr]
  split_ifs
  · simp [isNameStep]
  · simp [isNameStep]
  · simp

theorem routeOf_wayUp (out : OutLayout) (cs : List Char) : routeOf (out.wayUp.toList ++ cs) =
    replicate ((routeOf out.html.toList).countP isNameStep) .up ++ routeOf cs := by
  rw [← (count_components ⟨out.html⟩).1, wayUp, countP_eq_length_filter]
  induction (components ⟨out.html⟩).filter isNameStep with
  | nil => rfl
  | cons c steps ih =>
    have hu : "../".toList = ['.', '.'] ++ ['/'] := rfl
    rw [map_cons, String.join_cons, toList_append, hu, append_assoc, append_assoc, singleton_append, routeOf_append, ih]
    rfl

theorem not_isRooted_link (hf : IsEntryName file) (out : OutLayout) (folder : String) :
    isRooted ⟨out.wayUp ++ linkTo folder file⟩ = false := by
  rw [isRooted, decide_eq_false_iff_not, toList_append, wayUp]
  cases (components ⟨out.html⟩).filter isNameStep with
  | nil =>
    have hn : (String.join (([] : List Component).map fun _ => "../")).toList = [] := by decide
    rw [hn, nil_append]
    exact head?_linkTo hf folder
  | cons c steps =>
    rw [map_cons, String.join_cons, toList_append, append_assoc, head?_append_of_ne_nil _ (by decide)]
    decide

theorem place_link (hf : IsEntryName file) (out : OutLayout) (folder : String) (parent : Path) :
    (parent.join ⟨out.wayUp ++ linkTo folder file⟩).place =
      (parent.place.along (replicate ((routeOf out.html.toList).countP isNameStep) .up)).along
        (routeOf folder.toList ++ [.name file]) := by
  have hr : route (segments ⟨out.wayUp ++ linkTo folder file⟩) =
      replicate ((routeOf out.html.toList).countP isNameStep) .up ++ (routeOf folder.toList ++ [.name file]) := by
    rw [← routeOf_linkTo hf, ← routeOf_wayUp, ← toList_append]
    rfl
  rw [place_join (not_isRooted_link hf out folder), hr, Place.along_append]

end OutLayout

namespace Path.Place

open OutLayout

variable {place : Place} {html steps : List Component}

theorem along_back (hh : ∀ c ∈ html, c = .up ∨ ∃ name, c = .name name) (h : Component.up ∉ html) :
    (place.along html).along (replicate (html.countP isNameStep) .up) = place := by
  obtain ⟨ns, rfl⟩ : ∃ ns : List String, html = ns.map .name := by
    induction html with
    | nil => exact ⟨[], rfl⟩
    | cons c html ih =>
      obtain ⟨hc, hh⟩ := forall_mem_cons.1 hh
      rw [mem_cons, not_or] at h
      obtain ⟨ns, rfl⟩ := ih hh h.2
      obtain ⟨name, rfl⟩ := hc.resolve_left (Ne.symm h.1)
      exact ⟨name :: ns, rfl⟩
  have ho : (ns.map Component.name).countP isNameStep = ns.length := by
    rw [countP_eq_length.2 (by simp [isNameStep]), length_map]
  rw [ho, along_names_ups]

theorem along_back_iff (hh : ∀ c ∈ html, c = .up ∨ ∃ name, c = .name name)
    (hs : ∀ c ∈ steps, c = .up ∨ ∃ name, c = .name name) (hl : place.CanClimb (steps.count .up + html.count .up)) :
    ((place.along html).along (replicate (html.countP isNameStep) .up)).along steps = place.along steps ↔ Component.up ∉ html := by
  refine ⟨fun heq => ?_, fun h => by rw [along_back hh h]⟩
  obtain ⟨hd, hl'⟩ := level_along hh hl
  have hu : ∀ c ∈ replicate (html.countP isNameStep) Component.up, c = .up ∨ ∃ name, c = .name name :=
    fun c hc => .inl (eq_of_mem_replicate hc)
  have ho : (replicate (html.countP isNameStep) Component.up).countP isNameStep = 0 :=
    countP_eq_zero.2 fun c hc => by rw [eq_of_mem_replicate hc]; simp [isNameStep]
  obtain ⟨hb, hl''⟩ := level_along (m := steps.count .up) hu (by rw [count_replicate_self]; exact hl')
  have ht := (level_along (m := 0) hs (hl''.mono (by omega))).1
  have hi := (level_along (m := 0) hs (hl.mono (by omega))).1
  rw [heq, hb, count_replicate_self] at ht
  rw [← count_eq_zero]
  omega

end Path.Place

open Pagewright.Path OutLayout in
/-- **Head links.** A link in the markup of a page, taken from the folder of the markup, leads to
the file of the page that it is meant for if the path of the markup folder has no `..`. It leads
elsewhere if there is one, unless the ways up end at the root. -/
theorem head_links_lead_iff {content : String} {root : Path} {manifest : Manifest}
    (h : Manifest.parse content root = .ok manifest)
    (hrelative : ∀ artifact, Path.isRooted ⟨manifest.out.folder artifact⟩ = false) {page : String}
    (hpage : page ∈ manifest.sources.map Prod.fst) :
    ∃ folder, (manifest.artifactPath page .markup).parent? = some folder ∧
      ∀ link artifact, (link, artifact) ∈ [((manifest.out.headLinks page).script, Artifact.behavior),
          ((manifest.out.headLinks page).stylesheet, Artifact.stylesheet)] →
        (Component.up ∉ Path.components ⟨manifest.out.html⟩ →
          (folder.join ⟨link⟩).place = (manifest.artifactPath page artifact).place) ∧
        (manifest.outRoot.place.CanClimb ((Path.components ⟨manifest.out.folder artifact⟩).count .up +
            (Path.components ⟨manifest.out.html⟩).count .up) →
          ((folder.join ⟨link⟩).place = (manifest.artifactPath page artifact).place ↔
            Component.up ∉ Path.components ⟨manifest.out.html⟩)) := by
  have hentry := isEntryName_artifact ((Manifest.pages_of_parse h).2 page hpage)
  obtain ⟨folder, hfolder, hplace⟩ := exists_parent_join (hentry .markup) (manifest.artifactFolder .markup)
  have hmarkup : folder.place = manifest.outRoot.place.along (routeOf manifest.out.html.toList) := by
    rw [hplace]
    exact place_join (hrelative .markup) manifest.outRoot
  refine ⟨folder, hfolder, fun link artifact hlink => ?_⟩
  have hlink : link = manifest.out.wayUp ++ linkTo (manifest.out.folder artifact) (page ++ "." ++ artifact.extension) := by
    have hfile : page ++ "." ++ artifact.extension = page ++ ("." ++ artifact.extension) := String.append_assoc
    rw [mem_cons, mem_singleton] at hlink
    rw [hfile]
    rcases hlink with heq | heq <;> obtain ⟨rfl, rfl⟩ := Prod.mk.inj heq <;> rfl
  have hthere : (manifest.artifactPath page artifact).place = manifest.outRoot.place.along
      (routeOf (manifest.out.folder artifact).toList ++ [.name (page ++ "." ++ artifact.extension)]) := by
    rw [Place.along_append]
    refine (place_join_name (hentry artifact) (manifest.artifactFolder artifact)).trans ?_
    exact congrArg (Place.along · _) (place_join (hrelative artifact) manifest.outRoot)
  have hhtml : ∀ c ∈ routeOf manifest.out.html.toList, c = .up ∨ ∃ name, c = .name name := fun c hc => cases_of_mem_route hc
  rw [hlink, place_link (hentry artifact), hmarkup, hthere, ← count_eq_zero, (count_components ⟨manifest.out.html⟩).2,
    (count_components ⟨manifest.out.folder artifact⟩).2, count_eq_zero]
  refine ⟨fun hup => by rw [Place.along_back hhtml hup], fun hclimb => Place.along_back_iff hhtml ?_ ?_⟩
  · intro c hc
    rw [mem_append, mem_singleton] at hc
    exact hc.elim cases_of_mem_route fun hname => .inr ⟨_, hname⟩
  · rwa [count_append, count_singleton, if_neg (by simp)]

/-- A manifest whose markup folder has steps that lead nowhere, and whose scripts are beside the
folder for all files. -/
def deepMarkup : Manifest := ⟨⟨"site"⟩, [("index", ⟨"index.src"⟩)], ⟨"out", "../scripts/", "./pages//deep/.", "."⟩⟩

theorem parse_deepMarkup : Manifest.parse
    "sources = \x7bindex = 'index.src'\x7d\nout = ['out', '../scripts/', './pages//deep/.', '.']\n" ⟨"site"⟩ = .ok deepMarkup :=
  Manifest.parse_of_entries (by decide +kernel) (cons_ne_nil ("index", "index.src") []) (by decide) (by decide) ⟨"site"⟩

/-- Both links of the page lead to its files. -/
theorem head_links_lead_iff_deepMarkup :
    deepMarkup.out.headLinks "index" = ⟨"../../../scripts/index.js", "../../index.css"⟩ ∧
    ∃ folder, (deepMarkup.artifactPath "index" .markup).parent? = some folder ∧
      (folder.join ⟨"../../../scripts/index.js"⟩).place = ⟨false, 0, ["site", "scripts", "index.js"]⟩ ∧
      (folder.join ⟨"../../index.css"⟩).place = ⟨false, 0, ["site", "out", "index.css"]⟩ := by
  obtain ⟨folder, hfolder, hlinks⟩ := head_links_lead_iff parse_deepMarkup (by intro artifact; cases artifact <;> decide)
    (show "index" ∈ deepMarkup.sources.map Prod.fst by decide)
  have htexts : deepMarkup.out.headLinks "index" = ⟨"../../../scripts/index.js", "../../index.css"⟩ := by decide +kernel
  have hnames : Component.up ∉ Path.components ⟨deepMarkup.out.html⟩ := by decide +kernel
  rw [htexts] at hlinks
  refine ⟨htexts, folder, hfolder, ?_, ?_⟩
  · exact ((hlinks _ .behavior mem_cons_self).1 hnames).trans (by decide +kernel)
  · exact ((hlinks _ .stylesheet (mem_cons_of_mem _ mem_cons_self)).1 hnames).trans (by decide +kernel)

/-- A way back in the path of the markup folder: the links go up twice from a folder that is one
below. -/
theorem head_links_overshoot :
    let manifest : Manifest := ⟨⟨""⟩, [("index", ⟨"index.src"⟩)], { html := "a/../b" }⟩
    ∃ folder, (manifest.artifactPath "index" .markup).parent? = some folder ∧
      manifest.out.headLinks "index" = ⟨"../../js/index.js", "../../css/index.css"⟩ ∧
      (folder.join ⟨"../../js/index.js"⟩).place = ⟨false, 0, ["js", "index.js"]⟩ ∧
      (manifest.artifactPath "index" .behavior).place = ⟨false, 0, ["www", "js", "index.js"]⟩ :=
  ⟨⟨"www/a/../b"⟩, by decide, by decide, by decide, by decide⟩

end Pagewright
