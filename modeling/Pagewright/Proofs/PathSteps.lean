import Pagewright.Proofs.FileViews

/-!
# Following paths

`FileTree.Walks` says that segments lead through folders, and `FileTree.Leads` where the segments of
a path lead: along such a way, or behind it to a file or a free name. That is what following finds
(`Workspace.follow_eq_ok_iff`). A name behind a path to a folder leads into that folder
(`Workspace.locate_join`). Where all folders stay, paths lead where they did
(`Workspace.Reaches.mono`). -/

namespace Pagewright

open List
open String (ofList toList_append)

variable {cs ds seg : List Char} {content name : String} {sep : Char}

/-- A segment that names something. -/
def Path.IsName (segment : List Char) : Prop := Path.isIdle segment = false ∧ segment ≠ ['.', '.']

/-- A path that ends with a name. -/
def Path.EndsIn (path : Path) (name : List Char) : Prop := Path.IsName name ∧ ∃ front, path.segments = front ++ [name]

theorem Path.IsName.ne_nil (h : Path.IsName seg) : seg ≠ [] := by
  rintro rfl
  cases h.1

/-- The place that a path leads to. -/
def Location.place : Location → List String
  | found place _ => place
  | free place _ => place

namespace FileTree

variable {t t' : FileTree} {start place start' : List String} {segments front back : List (List Char)}
  {name seg : List Char}

/-- What a name leads to, by its place. -/
def named (t : FileTree) (place : List String) : Location :=
  match t.get? place with
  | some entry => .found place entry
  | none => .free place false

theorem place_named (t : FileTree) (place : List String) : (t.named place).place = place := by
  unfold named
  split <;> rfl

theorem seen_dropLast (h : t.seen place = some none) : t.seen place.dropLast = some none := by
  by_cases hp : place.dropLast = place
  · rwa [hp]
  · have hpre := dropLast_prefix place
    exact seen_eq_folder_above (by simp [h]) hpre hp

/-- The segments of a path lead from a place through folders to another place. -/
inductive Walks (t : FileTree) : List String → List (List Char) → List String → Prop where
  | nil {place : List String} : Walks t place [] place
  /-- An empty segment or a `.` leads nowhere. -/
  | idle {start place : List String} {segment : List Char} {segments : List (List Char)} :
      Path.isIdle segment = true → Walks t start segments place → Walks t start (segment :: segments) place
  /-- A `..` leads to the folder above. -/
  | up {start place : List String} {segments : List (List Char)} :
      Walks t start.dropLast segments place → Walks t start (['.', '.'] :: segments) place
  /-- The name of a folder leads into it. -/
  | name {start place : List String} {segment : List Char} {segments : List (List Char)} :
      Path.IsName segment → (ofList segment).utf8ByteSize ≤ Workspace.maxNameSize →
      t.seen (start ++ [ofList segment]) = some none →
      Walks t (start ++ [ofList segment]) segments place → Walks t start (segment :: segments) place

theorem walks_append : t.Walks start (front ++ back) place ↔
    ∃ middle, t.Walks start front middle ∧ t.Walks middle back place := by
  constructor
  · intro h
    induction front generalizing start with
    | nil => exact ⟨start, .nil, h⟩
    | cons seg front ih =>
      cases h with
      | idle hi h =>
        obtain ⟨middle, hf, hb⟩ := ih h
        exact ⟨middle, .idle hi hf, hb⟩
      | up h =>
        obtain ⟨middle, hf, hb⟩ := ih h
        exact ⟨middle, .up hf, hb⟩
      | name hn hs ho h =>
        obtain ⟨middle, hf, hb⟩ := ih h
        exact ⟨middle, .name hn hs ho hf, hb⟩
  · rintro ⟨middle, hf, hb⟩
    induction hf with
    | nil => exact hb
    | idle hi _ ih => exact .idle hi (ih hb)
    | up _ ih => exact .up (ih hb)
    | name hn hs ho _ ih => exact .name hn hs ho (ih hb)

theorem walks_of_isEmpty (h : segments.all isEmpty) : t.Walks place segments place := by
  induction segments with
  | nil => exact .nil
  | cons seg segments ih =>
    rw [all_cons, Bool.and_eq_true] at h
    exact .idle (by simp [Path.isIdle, h.1]) (ih h.2)

theorem walks_singleton (hn : Path.IsName name) (h : t.Walks start [name] place) :
    place = start ++ [ofList name] ∧ (ofList name).utf8ByteSize ≤ Workspace.maxNameSize := by
  cases h with
  | idle hi => simp [hn.1] at hi
  | up => exact absurd rfl hn.2
  | name _ hs _ h =>
    cases h
    exact ⟨rfl, hs⟩

theorem Walks.seen (h : t.Walks start segments place) (hs : t.seen start = some none) : t.seen place = some none := by
  induction h with
  | nil => exact hs
  | idle _ _ ih => exact ih hs
  | up _ ih => exact ih (seen_dropLast hs)
  | name _ _ hf _ ih => exact ih hf

theorem Walks.mono (hk : ∀ q, t.seen q = some none → t'.seen q = some none)
    (h : t.Walks start segments place) : t'.Walks start segments place := by
  induction h with
  | nil => exact .nil
  | idle hi _ ih => exact .idle hi ih
  | up _ ih => exact .up ih
  | name hn hs hf _ ih => exact .name hn hs (hk _ hf) ih

/-- Where the segments of a path lead. -/
inductive Leads (t : FileTree) (start : List String) (segments : List (List Char)) : Location → Prop where
  | walked {place : List String} {entry : FileTree} : t.Walks start segments place → t.get? place = some entry →
      Leads t start segments (.found place entry)
  /-- A file is found by its name at the end. -/
  | file {front : List (List Char)} {name : List Char} {place : List String} {content : String} :
      segments = front ++ [name] → t.Walks start front place → Path.IsName name →
      (ofList name).utf8ByteSize ≤ Workspace.maxNameSize →
      t.get? (place ++ [ofList name]) = some (.file content) →
      Leads t start segments (.found (place ++ [ofList name]) (.file content))
  /-- Behind a free name there may be slashes. -/
  | free {front empties : List (List Char)} {name : List Char} {place : List String} :
      segments = front ++ name :: empties → empties.all List.isEmpty = true → t.Walks start front place →
      Path.IsName name → (ofList name).utf8ByteSize ≤ Workspace.maxNameSize →
      t.get? (place ++ [ofList name]) = none →
      Leads t start segments (.free (place ++ [ofList name]) (!empties.isEmpty))

theorem Leads.cons {loc : Location} (h : t.Leads start' segments loc)
    (hw : ∀ {front place}, t.Walks start' front place → t.Walks start (seg :: front) place) : t.Leads start (seg :: segments) loc := by
  cases h with
  | walked ha hg => exact .walked (hw ha) hg
  | file hs hf hn hi hg => exact .file (by rw [hs, cons_append]) (hw hf) hn hi hg
  | free hs he hf hn hi hg => exact .free (by rw [hs, cons_append]) he (hw hf) hn hi hg

end FileTree

/-! ### Where paths lead -/

namespace Workspace

open FileTree

variable {tree e entry : FileTree} {start place place' : List String} {segments front back : List (List Char)}
  {name : List Char} {loc : Location} {w w' : Workspace} {path folder : Path}

theorem follow_of_walks (h : tree.Walks start front place) : follow tree start (front ++ back) = follow tree place back := by
  induction h with
  | nil => rfl
  | idle hi _ ih => rw [cons_append, follow, if_pos hi, ih]
  | up _ ih => rw [cons_append, follow, if_neg (by decide), if_pos rfl, ih]
  | name hn hs hf _ ih =>
    obtain ⟨es, hg⟩ := seen_eq_folder_iff.1 hf
    rw [cons_append, follow, if_neg (by simp [hn.1]), if_neg hn.2, if_neg (Nat.not_lt.2 hs)]
    simp only [hg, ih]

theorem follow_nil (h : tree.get? place = some e) : follow tree place [] = .ok (.found place e) := by
  rw [follow, h]

/-- A name before the end of a path. -/
theorem follow_name (hn : Path.IsName name) (hs : (ofList name).utf8ByteSize ≤ maxNameSize) :
    follow tree start (name :: segments) = match tree.get? (start ++ [ofList name]) with
      | some (.folder _) => follow tree (start ++ [ofList name]) segments
      | some (.file content) =>
        if segments.isEmpty then .ok (.found (start ++ [ofList name]) (.file content)) else .error .notDirectory
      | none =>
        if segments.all isEmpty then .ok (.free (start ++ [ofList name]) (!segments.isEmpty)) else .error .notFound := by
  rw [follow, if_neg (by simp [hn.1]), if_neg hn.2]
  exact if_neg (Nat.not_lt.2 hs)

theorem follow_last (hn : Path.IsName name) (hs : (ofList name).utf8ByteSize ≤ maxNameSize) :
    follow tree start [name] = .ok (tree.named (start ++ [ofList name])) := by
  rw [follow_name hn hs, named]
  cases hg : tree.get? (start ++ [ofList name]) with
  | none => rfl
  | some e =>
    cases e with
    | file => rfl
    | folder => exact follow_nil hg

theorem leads_of_follow (h : follow tree start segments = .ok loc) : tree.Leads start segments loc := by
  induction segments generalizing start with
  | nil =>
    rw [follow] at h
    cases hg : tree.get? start with
    | none =>
      rw [hg] at h
      cases h
    | some e =>
      rw [hg] at h
      cases h
      exact .walked .nil hg
  | cons segment segments ih =>
    by_cases hi : Path.isIdle segment
    · rw [follow, if_pos hi] at h
      exact (ih h).cons (.idle hi)
    by_cases hu : segment = ['.', '.']
    · subst hu
      exact (ih h).cons .up
    have hn : Path.IsName segment := ⟨by simpa using hi, hu⟩
    by_cases hs : maxNameSize < (ofList segment).utf8ByteSize
    · rw [follow, if_neg hi, if_neg hu, if_pos hs] at h
      cases h
    rw [Nat.not_lt] at hs
    rw [follow_name hn hs] at h
    cases hg : tree.get? (start ++ [ofList segment]) with
    | none =>
      simp only [hg] at h
      split_ifs at h with he
      cases h
      exact .free (nil_append _) he .nil hn hs hg
    | some e =>
      cases e with
      | file content =>
        simp only [hg] at h
        split_ifs at h with hen
        cases h
        obtain rfl := isEmpty_iff.1 hen
        exact .file (nil_append _) .nil hn hs hg
      | folder es =>
        simp only [hg] at h
        exact (ih h).cons (.name hn hs (seen_eq_folder_iff.2 ⟨es, hg⟩))

theorem follow_eq_ok_iff : follow tree start segments = .ok loc ↔ tree.Leads start segments loc := by
  refine ⟨leads_of_follow, fun h => ?_⟩
  cases h with
  | walked ha hg => rw [← append_nil segments, follow_of_walks ha, follow_nil hg]
  | file hs hf hn hi hg =>
    rw [hs, follow_of_walks hf, follow_name hn hi]
    simp [hg]
  | free hs he hf hn hi hg =>
    rw [hs, follow_of_walks hf, follow_name hn hi]
    simp [hg, he]

/-! ### Paths in a workspace -/

/-- The current folder is there. -/
def IsPlaced (w : Workspace) : Prop := w.tree.seen w.here = some none

/-- Where a path starts. -/
def startOf (w : Workspace) (path : Path) : List String := if path.isRooted then [] else w.here

/-- All of a path leads to folders, the last of which is at a place. The empty path stays where it
starts. -/
def Reaches (w : Workspace) (path : Path) (place : List String) : Prop := w.tree.Walks (w.startOf path) path.segments place

theorem IsPlaced.seen_startOf (h : w.IsPlaced) (path : Path) : w.tree.seen (w.startOf path) = some none := by
  unfold startOf
  split_ifs
  · by_cases hh : [] = w.here
    · rw [hh]
      exact h
    · exact seen_eq_folder_above (by simp [IsPlaced.eq_1 w ▸ h]) nil_prefix hh
  · exact h

theorem startOf_eq (hh : w'.here = w.here) (path : Path) : w'.startOf path = w.startOf path := by
  rw [startOf, startOf, hh]

theorem Reaches.mono (hh : w'.here = w.here) (hk : ∀ q, w.tree.seen q = some none → w'.tree.seen q = some none)
    (h : w.Reaches path place) : w'.Reaches path place := by
  rw [Reaches, startOf_eq hh]
  exact FileTree.Walks.mono hk h

theorem Reaches.seen (hw : w.IsPlaced) (h : w.Reaches path place) : w.tree.seen place = some none :=
  FileTree.Walks.seen h (hw.seen_startOf path)

theorem reaches_empty (h : path.text = "") : w.Reaches path w.here := by
  have hs : path.segments = [[]] := by rw [Path.segments, h]; rfl
  have ht : w.startOf path = w.here := by rw [startOf, Path.isRooted, h]; rfl
  rw [Reaches, hs, ht]
  exact .idle rfl .nil

/-- Whether a path can be followed at all. -/
def isUsable (path : Path) : Bool :=
  !path.text.toList.contains '\x00' && !path.text.isEmpty && path.text.utf8ByteSize ≤ maxPathSize

theorem locate_eq_ok_iff : w.locate path = .ok loc ↔ isUsable path ∧ follow w.tree (w.startOf path) path.segments = .ok loc := by
  have hl : w.locate path = if path.text.toList.contains '\x00' then .error .zeroCharacter
      else if path.text.isEmpty then .error .notFound
      else if maxPathSize < path.text.utf8ByteSize then .error .nameTooLong
      else follow w.tree (w.startOf path) path.segments := rfl
  rw [hl, isUsable]
  split_ifs with hz he hs
  · rw [hz]
    simp
  · rw [he]
    simp
  · rw [decide_eq_false (Nat.not_le.2 hs)]
    simp
  · rw [Bool.eq_false_iff.2 hz, Bool.eq_false_iff.2 he, decide_eq_true (Nat.not_lt.1 hs)]
    simp

theorem locate_iff : w.locate path = .ok loc ↔ isUsable path ∧ w.tree.Leads (w.startOf path) path.segments loc := by
  rw [locate_eq_ok_iff, follow_eq_ok_iff]

theorem locate_iff_of_last (hn : Path.IsName name) (hs : path.segments = front ++ [name]) :
    w.locate path = .ok loc ↔ (isUsable path ∧ (ofList name).utf8ByteSize ≤ maxNameSize) ∧
      ∃ place, w.tree.Walks (w.startOf path) front place ∧ loc = w.tree.named (place ++ [ofList name]) := by
  rw [locate_iff, hs, and_assoc]
  refine and_congr_right fun _ => ⟨fun h => ?_, fun ⟨hi, place, hp, hl⟩ => ?_⟩
  · generalize ha : front ++ [name] = segments at h
    cases h with
    | @walked place e hw hg =>
      rw [← ha, walks_append] at hw
      obtain ⟨middle, hf, hla⟩ := hw
      obtain ⟨rfl, hi⟩ := walks_singleton hn hla
      exact ⟨hi, middle, hf, by rw [named, hg]⟩
    | @file front' name' place content hs' hw hn' hi hg =>
      obtain ⟨rfl, hla⟩ := append_inj' (ha.trans hs') rfl
      obtain rfl : name = name' := singleton_inj.1 hla
      exact ⟨hi, place, hw, by rw [named, hg]⟩
    | @free front' empties name' place hs' he hw hn' hi hg =>
      -- The name is no empty segment, so none stands behind it.
      have ho : empties = [] := by
        by_contra hne
        have hla : (front ++ [name]).getLast? = empties.getLast? := by
          rw [ha, hs', getLast?_append_of_ne_nil _ (cons_ne_nil _ _), getLast?_cons_of_ne_nil hne]
        rw [getLast?_concat] at hla
        have hm := all_eq_true.1 he _ (mem_of_getLast? hla.symm)
        exact hn.ne_nil (isEmpty_iff.1 hm)
      subst ho
      obtain ⟨rfl, hla⟩ := append_inj' (ha.trans hs') rfl
      obtain rfl : name = name' := singleton_inj.1 hla
      exact ⟨hi, place, hw, by rw [named, hg]; rfl⟩
  · refine leads_of_follow ?_
    rw [follow_of_walks hp, follow_last hn hi, hl]

theorem locate_found (h : w.locate path = .ok (.found place entry)) : w.tree.get? place = some entry := by
  obtain ⟨-, hl⟩ := locate_iff.1 h
  cases hl with
  | walked _ hg | file _ _ _ _ hg => exact hg

/-- The place that a path leads to, whatever is there. -/
def LeadsTo (w : Workspace) (path : Path) (place : List String) : Prop := ∃ loc, w.locate path = .ok loc ∧ loc.place = place

theorem LeadsTo.unique (h : w.LeadsTo path place) (h' : w.LeadsTo path place') : place = place' := by
  obtain ⟨loc, hl, rfl⟩ := h
  obtain ⟨loc', hl', rfl⟩ := h'
  cases hl.symm.trans hl'
  rfl

theorem leadsTo_iff (hn : Path.IsName name) (hs : path.segments = front ++ [name]) :
    w.LeadsTo path place ↔ (isUsable path ∧ (ofList name).utf8ByteSize ≤ maxNameSize) ∧
      ∃ folder, w.tree.Walks (w.startOf path) front folder ∧ place = folder ++ [ofList name] := by
  unfold LeadsTo
  simp only [locate_iff_of_last hn hs]
  constructor
  · rintro ⟨loc, ⟨hu, folder, hf, rfl⟩, rfl⟩
    exact ⟨hu, folder, hf, place_named _ _⟩
  · rintro ⟨hu, folder, hf, rfl⟩
    exact ⟨_, ⟨hu, folder, hf, rfl⟩, place_named _ _⟩

theorem LeadsTo.mono (he : path.EndsIn name) (hh : w'.here = w.here)
    (hk : ∀ q, w.tree.seen q = some none → w'.tree.seen q = some none) (h : w.LeadsTo path place) : w'.LeadsTo path place := by
  obtain ⟨hn, front, hs⟩ := he
  rw [leadsTo_iff hn hs] at h
  obtain ⟨hu, folder, hf, hp⟩ := h
  rw [leadsTo_iff hn hs, startOf_eq hh]
  exact ⟨hu, folder, hf.mono hk, hp⟩

theorem LeadsTo.getLast? (he : path.EndsIn name) (h : w.LeadsTo path place) : place.getLast? = some (ofList name) := by
  obtain ⟨hn, front, hs⟩ := he
  obtain ⟨-, folder, -, rfl⟩ := (leadsTo_iff hn hs).1 h
  exact getLast?_concat ..

theorem read_eq_ok_iff (he : path.EndsIn name) :
    w.read path = .ok content ↔ ∃ place, w.LeadsTo path place ∧ w.tree.seen place = some (some content) := by
  unfold read
  constructor
  · intro h
    split at h
    · next place content hl =>
      cases h
      exact ⟨place, ⟨_, hl, rfl⟩, seen_eq_file_iff.2 (locate_found hl)⟩
    all_goals cases h
  · rintro ⟨place, ⟨loc, hl, rfl⟩, hs⟩
    obtain ⟨hn, front, hse⟩ := he
    obtain ⟨-, folder, -, rfl⟩ := (locate_iff_of_last hn hse).1 hl
    rw [place_named, seen_eq_file_iff] at hs
    rw [named, hs] at hl
    rw [hl]

end Workspace

/-! ### Names behind paths -/

theorem splitAll_append (sep : Char) (cs ds : List Char) :
    splitAll sep (cs ++ sep :: ds) = splitAll sep cs ++ splitAll sep ds := by
  simp only [splitAll_eq_splitOn, splitOn_append_cons_self]

theorem splitAll_eq_singleton (h : sep ∉ cs) : splitAll sep cs = [cs] := by
  rw [splitAll_eq_splitOn, splitOn_eq_singleton h]

theorem exists_splitAll_append (h : sep ∉ ds) (cs : List Char) :
    ∃ parts part, splitAll sep (cs ++ ds) = parts ++ [part ++ ds] := by
  induction cs with
  | nil => exact ⟨[], [], splitAll_eq_singleton h⟩
  | cons c cs ih =>
    obtain ⟨parts, part, hp⟩ := ih
    rw [cons_append, splitAll, hp]
    split_ifs
    · exact ⟨[] :: parts, part, rfl⟩
    · cases parts with
      | nil => exact ⟨[], c :: part, rfl⟩
      | cons first parts => exact ⟨(c :: first) :: parts, part, rfl⟩

namespace Path

variable {path : Path}

/-- The segments of one path behind another. -/
theorem segments_join (h : path.isRooted = false) (folder : Path) :
    ∃ front, (folder.join path).segments = front ++ path.segments ∧
      (folder.segments = front ∨ folder.segments = front ++ [[]]) ∧ (folder.join path).isRooted = folder.isRooted := by
  unfold join
  rw [if_neg (by simp [h])]
  split
  · next hl =>
    rw [getLast?_eq_none_iff] at hl
    refine ⟨[], rfl, .inr ?_, ?_⟩
    · rw [segments, hl]
      rfl
    · rw [h, isRooted, hl]
      rfl
  · next hl =>
    obtain ⟨text, ht⟩ := getLast?_eq_some_iff.1 hl
    refine ⟨splitAll '/' text, ?_, .inr ?_, ?_⟩
    · rw [segments, toList_append, ht, append_assoc, singleton_append, splitAll_append, segments]
    · rw [segments, ht, splitAll_append]
      rfl
    · rw [isRooted, isRooted, toList_append, head?_append_of_ne_nil _ (by simp [ht])]
  · next hl =>
    have hne : folder.text.toList ≠ [] := fun hn => by simp [hn] at hl
    have hs : "/".toList = ['/'] := rfl
    refine ⟨folder.segments, ?_, .inl rfl, ?_⟩
    · rw [segments, toList_append, toList_append, hs, append_assoc, singleton_append, splitAll_append, segments, segments]
    · rw [isRooted, isRooted, toList_append, toList_append, append_assoc, head?_append_of_ne_nil _ hne]

theorem EndsIn.join {last : List Char} (h : path.EndsIn last) (folder : Path) : (folder.join path).EndsIn last := by
  obtain ⟨hn, front, hs⟩ := h
  refine ⟨hn, ?_⟩
  by_cases hr : path.isRooted
  · exact ⟨front, by rw [Path.join, if_pos hr, hs]⟩
  · obtain ⟨pre, hj, -⟩ := segments_join (by simpa using hr) folder
    exact ⟨pre ++ front, by rw [hj, hs, append_assoc]⟩

/-- A name that an entry of a folder can have. -/
structure IsEntryName (name : String) : Prop where
  isName : IsName name.toList
  slash_not_mem : '/' ∉ name.toList

theorem IsEntryName.segments_eq (h : IsEntryName name) : segments ⟨name⟩ = [name.toList] := splitAll_eq_singleton h.slash_not_mem

theorem IsEntryName.not_isRooted (h : IsEntryName name) : isRooted ⟨name⟩ = false := by
  rw [isRooted, decide_eq_false_iff_not]
  exact fun hh => h.slash_not_mem (mem_of_mem_head? hh)

end Path

namespace Workspace

open FileTree

variable {place : List String} {loc : Location} {w : Workspace} {folder : Path} {name : String}

theorem exists_front (hn : Path.IsEntryName name) (folder : Path) : ∃ front,
    (folder.join ⟨name⟩).segments = front ++ [name.toList] ∧ ∀ (w : Workspace) (place : List String),
      w.Reaches folder place ↔ w.tree.Walks (w.startOf (folder.join ⟨name⟩)) front place := by
  obtain ⟨front, hs, hf, hr⟩ := Path.segments_join hn.not_isRooted folder
  rw [hn.segments_eq] at hs
  refine ⟨front, hs, fun w place => ?_⟩
  rw [Reaches, startOf, startOf, hr]
  rcases hf with hf | hf
  · rw [hf]
  · rw [hf, walks_append]
    constructor
    · rintro ⟨middle, hw, he⟩
      cases he with
      | idle _ he =>
        cases he
        exact hw
      | name hm => cases hm.1
    · exact fun hw => ⟨place, hw, .idle rfl .nil⟩

/-- Why a path with a name behind it is refused, whatever is there. -/
def refusal? (path : Path) (name : String) : Option FileFault :=
  if path.text.toList.contains '\x00' then some .zeroCharacter
  else if path.text.isEmpty then some .notFound
  else if maxPathSize < path.text.utf8ByteSize then some .nameTooLong
  else if maxNameSize < name.utf8ByteSize then some .nameTooLong
  else none

theorem locate_join (hn : Path.IsEntryName name) (h : w.Reaches folder place) :
    w.locate (folder.join ⟨name⟩) = match refusal? (folder.join ⟨name⟩) name with
      | some fault => .error fault
      | none => .ok (w.tree.named (place ++ [name])) := by
  obtain ⟨front, hs, hr⟩ := exists_front hn folder
  have hf : follow w.tree (w.startOf (folder.join ⟨name⟩)) (folder.join ⟨name⟩).segments =
      if maxNameSize < name.utf8ByteSize then .error .nameTooLong else .ok (w.tree.named (place ++ [name])) := by
    rw [hs, follow_of_walks ((hr w place).1 h)]
    split_ifs with hi
    · rw [follow, if_neg (by simp [hn.isName.1]), if_neg hn.isName.2, String.ofList_toList, if_pos hi]
    · rw [follow_last hn.isName (by rw [String.ofList_toList]; exact Nat.not_lt.1 hi), String.ofList_toList]
  rw [refusal?]
  change (if _ then _ else if _ then _ else if _ then _ else follow w.tree (w.startOf _) _) = _
  rw [hf]
  split_ifs <;> rfl

end Workspace

end Pagewright
