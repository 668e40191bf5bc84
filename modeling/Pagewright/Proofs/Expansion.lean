import Mathlib.Data.Finset.Card
import Mathlib.Data.List.Chain
import Pagewright.Proofs.Directives

/-!
# Expansion

What it means to expand a file is said without the chain of files that are being expanded and
without a bound on its length: `Expanded` replaces each directive by the expanded text of the file
it names, and `HasCircle` says that directives lead from a file back to one before. The chain grows
by a file that is not on it, so the number of the others falls (`unused_append_lt`). Two paths can
have one normal form: a file can have an expanded text and still be refused, because a directive
names a file on the chain by another path. -/

namespace Pagewright

open List
open Source (ofText)

variable {t content rest : List Char} {e : CompileError} {n m o : Nat} {cs : List Char} {q p : Path}

/-! ### One text -/

section Expanding

variable {resolve : Path → Except CompileError (List Char)} {base : Path} {ds : List Directive} {ctx : ScanContext}

theorem spliceIncludes_cons (tail before : List Char) (path : Path) (includes : List (List Char × Path)) :
    spliceIncludes (m := Id) resolve base tail ((before, path) :: includes) = (resolve (base.join path)).bind fun new =>
        Except.map (before ++ new ++ ·) (spliceIncludes (m := Id) resolve base tail includes) := by
  rw [spliceIncludes]
  cases resolve (base.join path) with
  | error e => rfl
  | ok new => cases h : spliceIncludes (m := Id) resolve base tail includes <;> rfl

theorem expandWith_eq (content : List Char) : expandWith (m := Id) resolve base content =
      ((ofText content).bind Source.divideIncludes).bind fun divided =>
        spliceIncludes (m := Id) resolve base divided.tail divided.includes := by
  rw [expandWith]
  cases (ofText content).bind Source.divideIncludes <;> rfl

theorem spliceIncludes_divideAt : spliceIncludes (m := Id) resolve base (divideAt o cs ds).tail (divideAt o cs ds).includes = .ok t ↔
      ∃ rs, rs.map Prod.fst = ds ∧ (∀ r ∈ rs, resolve (base.join r.1.path) = .ok r.2) ∧ t = spliceForwards o cs rs := by
  induction ds generalizing o cs t with
  | nil =>
    constructor
    · intro h
      cases h
      exact ⟨[], rfl, nofun, rfl⟩
    · rintro ⟨rs, hr, -, rfl⟩
      rw [map_eq_nil_iff.1 hr]
      rfl
  | cons d ds ih =>
    constructor
    · intro h
      rw [divideAt, spliceIncludes_cons] at h
      obtain ⟨new, hn, h⟩ := bind_eq_ok.1 h
      obtain ⟨rest, he, rfl⟩ := exists_of_map_eq_ok h
      obtain ⟨rs, rfl, hr, rfl⟩ := ih.1 he
      exact ⟨(d, new) :: rs, rfl, forall_mem_cons.2 ⟨hn, hr⟩, rfl⟩
    · rintro ⟨rs, hr, hs, rfl⟩
      obtain ⟨⟨d', new⟩, rs, rfl, rfl, rfl⟩ := map_eq_cons_iff.1 hr
      obtain ⟨hn, he⟩ := forall_mem_cons.1 hs
      rw [divideAt, spliceIncludes_cons, hn, Except.bind, ih.2 ⟨rs, rfl, he, rfl⟩]
      rfl

/-- **Expanded texts.** A text is expanded when its directives are well formed and the files they
name are resolved; each directive is replaced by the text of its file then. -/
theorem expandWith_eq_ok_iff : expandWith (m := Id) resolve base content = .ok t ↔
    ∃ s rs, ofText content = .ok s ∧ s.Directives 0 (rs.map Prod.fst) ∧
      (∀ r ∈ rs, resolve (base.join r.1.path) = .ok r.2) ∧ t = spliceForwards 0 content rs := by
  constructor
  · intro h
    rw [expandWith_eq] at h
    obtain ⟨divided, hd, h⟩ := bind_eq_ok.1 h
    obtain ⟨s, hs, hd⟩ := bind_eq_ok.1 hd
    obtain ⟨ds, hds, rfl⟩ := (Source.divideIncludes_eq_ok_iff hs).1 hd
    obtain ⟨rs, rfl, hr, rfl⟩ := spliceIncludes_divideAt.1 h
    exact ⟨s, rs, hs, hds, hr, rfl⟩
  · rintro ⟨s, rs, hs, hds, hr, rfl⟩
    have hd := (Source.divideIncludes_eq_ok_iff hs).2 ⟨_, hds, rfl⟩
    rw [expandWith_eq, hs, Except.bind, hd]
    exact spliceIncludes_divideAt.2 ⟨rs, rfl, hr, rfl⟩

/-- A fault of one text, which says nothing about how files include each other. -/
def ParseFault.IsOfText : ParseFault → Prop
  | .includeCycle _ | .includeDepth => False
  | _ => True

/-- An error that a single text gives. -/
def CompileError.IsOfText : CompileError → Prop
  | .parse fault _ => fault.IsOfText
  | _ => False

theorem isOfText_of_opening {c : Char} {fault : ParseFault} (h : opening ctx c rest = .unterminated fault) : fault.IsOfText := by
  unfold opening at h
  repeat' split at h
  all_goals first
    | cases h; trivial
    | cases h

theorem isOfText_of_piecesFrom {e : Unterminated} (h : piecesFrom ctx o cs = .error e) : e.fault.IsOfText := by
  fun_induction piecesFrom ctx o cs with
  | case1 => cases h
  | case2 _ _ _ _ _ _ _ ih | case4 _ _ _ _ _ ih | case5 _ _ _ _ _ ih => exact ih (eq_error_of_map_eq_error h)
  | case3 ctx o c rest fault ho =>
    cases h
    exact isOfText_of_opening ho

theorem isOfText_of_ofText (h : ofText content = .error e) : e.IsOfText := by
  unfold ofText at h
  split at h
  · cases h
  · cases h
    exact isOfText_of_piecesFrom ‹_›

theorem isOfText_of_divideIncludesFrom {s : Source} {gs : List Glyph} (h : s.divideIncludesFrom gs = .error e) : e.IsOfText := by
  fun_induction Source.divideIncludesFrom s gs with
  | case1 => cases h
  | case2 | case3 | case4 =>
    cases h
    trivial
  | case5 gs found hf semicolon rest hs path hp ih => exact ih (eq_error_of_map_eq_error h)

theorem exists_directive_of_spliceIncludes (h : spliceIncludes (m := Id) resolve base (divideAt o cs ds).tail (divideAt o cs ds).includes =
      .error e) : ∃ d ∈ ds, resolve (base.join d.path) = .error e := by
  induction ds generalizing o cs with
  | nil => cases h
  | cons d ds ih =>
    rw [divideAt, spliceIncludes_cons] at h
    rcases of_bind_eq_error h with hn | ⟨new, -, h⟩
    · exact ⟨d, mem_cons_self, hn⟩
    · obtain ⟨d', hd', he⟩ := ih (eq_error_of_map_eq_error h)
      exact ⟨d', mem_cons_of_mem _ hd', he⟩

/-- **Refused texts.** An error is one of the text itself, or that of an included file. -/
theorem expandWith_eq_error (h : expandWith (m := Id) resolve base content = .error e) : e.IsOfText ∨
      ∃ s d, ofText content = .ok s ∧ s.HasDirective 0 d ∧ resolve (base.join d.path) = .error e := by
  rw [expandWith_eq] at h
  rcases of_bind_eq_error h with h | ⟨divided, hdi, h⟩
  · rcases of_bind_eq_error h with hs | ⟨s, -, hi⟩
    · exact .inl (isOfText_of_ofText hs)
    · exact .inl (isOfText_of_divideIncludesFrom hi)
  · obtain ⟨s, hs, hi⟩ := bind_eq_ok.1 hdi
    obtain ⟨ds, hds, rfl⟩ := (Source.divideIncludes_eq_ok_iff hs).1 hi
    obtain ⟨d, hd, he⟩ := exists_directive_of_spliceIncludes h
    exact .inr ⟨s, d, hs, hds.hasDirective d hd, he⟩

end Expanding

/-! ### Nested files -/

/-- The folder that the directives of a file are taken from. -/
def Path.folder (p : Path) : Path := p.parent?.getD ⟨""⟩

theorem resolveFile_succ (load : Path → Except FileFault String) (n : Nat) (chain : List Path) (p : Path) :
    (resolveFile (m := Id) load (n + 1) chain p).run = if chain.any (·.same p.normalize) then
        .error (.parse (.includeCycle (chain.dropWhile (fun q => !q.same p.normalize) ++ [p.normalize])) none)
      else match load p with
        | .error fault => .error (.access p fault)
        | .ok content =>
          expandWith (m := Id) (fun q => (resolveFile (m := Id) load n (chain ++ [p.normalize]) q).run) p.folder content.toList := by
  rw [resolveFile]
  split
  · rfl
  · cases hl : load p <;> simp <;> rfl

theorem resolveFile_succ_eq_ok_iff {load : Path → Except FileFault String} {chain : List Path} :
    (resolveFile (m := Id) load (n + 1) chain p).run = .ok t ↔
    chain.any (·.same p.normalize) = false ∧ ∃ content s rs, load p = .ok content ∧
      ofText content.toList = .ok s ∧ s.Directives 0 (rs.map Prod.fst) ∧
      (∀ r ∈ rs, (resolveFile (m := Id) load n (chain ++ [p.normalize]) (p.folder.join r.1.path)).run = .ok r.2) ∧
      t = spliceForwards 0 content.toList rs := by
  rw [resolveFile_succ]
  cases hc : chain.any (·.same p.normalize) with
  | true => simp
  | false =>
    cases hl : load p with
    | error fault => simp
    | ok content =>
      rw [if_neg Bool.false_ne_true]
      dsimp only
      rw [expandWith_eq_ok_iff]
      simp only [true_and, Except.ok.injEq]
      constructor
      · rintro ⟨s, rs, hs, hd, hr, rfl⟩
        exact ⟨content, s, rs, rfl, hs, hd, hr, rfl⟩
      · rintro ⟨content', s, rs, rfl, hs, hd, hr, rfl⟩
        exact ⟨s, rs, hs, hd, hr, rfl⟩

namespace FileSet

/-- The text of a file while the files of a chain are being expanded, at most `n` files being
nested. -/
def resolveIn (fs : FileSet) (n : Nat) (chain : List Path) (p : Path) : Except CompileError (List Char) :=
  (resolveFile (m := Id) fs.load n chain p).run

/-- The file `p` has a directive that names the file `q`. -/
def Includes (fs : FileSet) (p q : Path) : Prop :=
  ∃ content s d, fs.load p = .ok content ∧ ofText content.toList = .ok s ∧ s.HasDirective 0 d ∧
    q = p.folder.join d.path

/-- The directives lead from the entry through the files of `before` to the file `p`. -/
def Nests (fs : FileSet) (entry : Path) (before : List Path) (p : Path) : Prop :=
  (before ++ [p]).head? = some entry ∧ (before ++ [p]).IsChain fs.Includes

/-- The directives lead from the entry to a file that they have led to before, up to the normal
form. -/
def HasCircle (fs : FileSet) (entry : Path) : Prop :=
  ∃ before p, fs.Nests entry before p ∧ ∃ q ∈ before, q.normalize.same p.normalize = true

/-- The text of a file with each directive replaced by the text of the file it names, and all else
as it was. -/
inductive Expanded (fs : FileSet) : Path → List Char → Prop where
  | file {p : Path} {content : String} {s : Source} {rs : List (Directive × List Char)}
      (hload : fs.load p = .ok content) (hs : ofText content.toList = .ok s)
      (hds : s.Directives 0 (rs.map Prod.fst)) (hrs : ∀ r ∈ rs, Expanded fs (p.folder.join r.1.path) r.2) :
      Expanded fs p (spliceForwards 0 content.toList rs)

/-- The files, by their normal forms. -/
def keys (fs : FileSet) : Finset (List Component) :=
  (fs.files.map fun file => file.1.normalize.components).toFinset

/-- The number of files that are not being expanded. -/
def unused (fs : FileSet) (chain : List Path) : Nat :=
  (fs.keys \ (chain.map Path.components).toFinset).card

variable {fs : FileSet} {entry p : Path} {chain before cycle rest : List Path}

theorem resolveIn_succ (fs : FileSet) (n : Nat) (chain : List Path) (p : Path) :
    fs.resolveIn (n + 1) chain p = if chain.any (·.same p.normalize) then
        .error (.parse (.includeCycle (chain.dropWhile (fun q => !q.same p.normalize) ++ [p.normalize])) none) else match fs.load p with
        | .error fault => .error (.access p fault)
        | .ok content =>
          expandWith (m := Id) (fs.resolveIn n (chain ++ [p.normalize])) p.folder content.toList :=
  resolveFile_succ fs.load n chain p

theorem resolveIn_succ_eq_error (h : fs.resolveIn (n + 1) chain p = .error e) :
    (chain.any (·.same p.normalize) ∧ e = .parse (.includeCycle
        (chain.dropWhile (fun q => !q.same p.normalize) ++ [p.normalize])) none) ∨ (∃ fault, e = .access p fault) ∨ e.IsOfText ∨
      (chain.any (·.same p.normalize) = false ∧ ∃ q, fs.Includes p q ∧ fs.resolveIn n (chain ++ [p.normalize]) q = .error e) := by
  rw [resolveIn_succ] at h
  split at h
  · cases h
    exact .inl ⟨‹_›, rfl⟩
  · next hc =>
    split at h
    · cases h
      exact .inr (.inl ⟨_, rfl⟩)
    · rcases expandWith_eq_error h with ht | ⟨s, d, hs, hd, he⟩
      · exact .inr (.inr (.inl ht))
      · exact .inr (.inr (.inr ⟨Bool.eq_false_iff.2 hc, _, ⟨_, s, d, ‹_›, hs, hd, rfl⟩, he⟩))

/-! ### How deep files are nested -/

theorem mem_keys_of_load {content : String} (h : fs.load p = .ok content) : p.normalize.components ∈ fs.keys := by
  unfold load at h
  split at h
  · rename_i file content' hf
    have hm := mem_of_find?_eq_some hf
    have hs := find?_some hf
    rw [keys, mem_toFinset, mem_map]
    exact ⟨_, mem_reverse.1 hm, of_decide_eq_true hs⟩
  · cases h

theorem any_same_iff : chain.any (·.same p) ↔ p.components ∈ chain.map Path.components := by
  rw [any_eq_true, mem_map]
  simp only [Path.same, decide_eq_true_eq]

theorem unused_append_lt (hk : p.normalize.components ∈ fs.keys)
    (hf : chain.any (·.same p.normalize) = false) : fs.unused (chain ++ [p.normalize]) < fs.unused chain := by
  have hn : p.normalize.components ∉ (chain.map Path.components).toFinset := by
    rw [mem_toFinset, ← any_same_iff, hf]
    exact Bool.false_ne_true
  refine Finset.card_lt_card (Finset.ssubset_iff_of_subset ?_ |>.2 ⟨p.normalize.components, ?_, ?_⟩)
  · refine Finset.sdiff_subset_sdiff (Finset.Subset.refl _) fun key hk => ?_
    simp only [map_append, toFinset_append, Finset.mem_union]
    exact .inl hk
  · exact Finset.mem_sdiff.2 ⟨hk, hn⟩
  · simp

theorem resolveIn_eq_of_unused_lt (hn : fs.unused chain < n) (hm : n ≤ m) : fs.resolveIn m chain p = fs.resolveIn n chain p := by
  induction n generalizing m chain p with
  | zero => cases hn
  | succ n ih =>
    obtain ⟨m, rfl⟩ : ∃ k, m = k + 1 := ⟨m - 1, by omega⟩
    rw [resolveIn_succ, resolveIn_succ]
    cases hc : chain.any (·.same p.normalize) with
    | true => rfl
    | false =>
      cases hl : fs.load p with
      | error fault => rfl
      | ok content =>
        have hle := unused_append_lt (mem_keys_of_load hl) hc
        have hi : fs.resolveIn m (chain ++ [p.normalize]) = fs.resolveIn n (chain ++ [p.normalize]) :=
          funext fun q => ih (by omega) (by omega)
        rw [hi]

theorem not_includeDepth_of_unused_lt (hn : fs.unused chain < n) (position : Option Position) :
    fs.resolveIn n chain p ≠ .error (.parse .includeDepth position) := by
  induction n generalizing chain p with
  | zero => cases hn
  | succ n ih =>
    intro h
    rcases resolveIn_succ_eq_error h with ⟨_, he⟩ | ⟨_, he⟩ | he | ⟨hc, q, ⟨content, _, _, hl, _⟩, he⟩
    · cases he
    · cases he
    · exact he
    · have hle := unused_append_lt (mem_keys_of_load hl) hc
      exact ih (by omega) he

theorem unused_nil (fs : FileSet) : fs.unused [] = fs.keys.card := by simp [unused]

theorem card_keys_lt_depth (fs : FileSet) : fs.keys.card < fs.depth := by
  have hle := toFinset_card_le (fs.files.map fun file => file.1.normalize.components)
  rw [length_map] at hle
  exact Nat.lt_succ_of_le hle

theorem includes_of_mem (h : (before ++ [p]).IsChain fs.Includes) (hq : q ∈ before) : ∃ next, fs.Includes q next := by
  obtain ⟨front, back, rfl⟩ := append_of_mem hq
  rw [append_assoc, cons_append, isChain_append] at h
  obtain ⟨next, rest, hr⟩ := exists_cons_of_ne_nil (l := back ++ [p]) (by simp)
  rw [hr, isChain_cons_cons] at h
  exact ⟨next, h.2.1.1⟩

/-! ### Circles -/

theorem Nests.nest (h : fs.Nests entry before p) (hq : fs.Includes p q) : fs.Nests entry (before ++ [p]) q := by
  obtain ⟨hh, hc⟩ := h
  refine ⟨by rw [head?_append, hh]; rfl, ?_⟩
  rw [isChain_append]
  refine ⟨hc, .singleton q, fun r hr q' hq' => ?_⟩
  rw [getLast?_append] at hr
  cases hr
  cases hq'
  exact hq

theorem nests_nil (fs : FileSet) (entry : Path) : fs.Nests entry [] entry := ⟨rfl, .singleton entry⟩

theorem exists_circle_of_resolveIn {position : Option Position} (hn : fs.Nests entry before p)
    (h : fs.resolveIn n (before.map Path.normalize) p = .error (.parse (.includeCycle cycle) position)) :
    ∃ pre' p', fs.Nests entry pre' p' ∧ (∃ q ∈ pre', q.normalize.same p'.normalize = true) ∧
      cycle = (pre'.map Path.normalize).dropWhile (fun q => !q.same p'.normalize) ++ [p'.normalize] := by
  induction n generalizing before p with
  | zero => cases h
  | succ n ih =>
    rcases resolveIn_succ_eq_error h with ⟨hc, he⟩ | ⟨_, he⟩ | he | ⟨-, q, hq, he⟩
    · cases he
      rw [any_map] at hc
      exact ⟨before, p, hn, any_eq_true.1 hc, rfl⟩
    · cases he
    · cases he
    · have hb : before.map Path.normalize ++ [p.normalize] = (before ++ [p]).map Path.normalize := by simp
      rw [hb] at he
      exact ih (hn.nest hq) he

theorem Includes.exists_resolveIn (hq : fs.Includes p q)
    (h : fs.resolveIn (n + 1) chain p = .ok t) : ∃ t', fs.resolveIn n (chain ++ [p.normalize]) q = .ok t' := by
  obtain ⟨-, content, s, rs, hl, hs, hds, hrs, -⟩ := resolveFile_succ_eq_ok_iff.1 h
  obtain ⟨content', s', d, hl', hs', hd, rfl⟩ := hq
  cases hl.symm.trans hl'
  cases hs.symm.trans hs'
  obtain ⟨r, hr, rfl⟩ := mem_map.1 (hd.mem hds)
  exact ⟨r.2, hrs r hr⟩

theorem pairwise_of_resolveIn (h : fs.resolveIn n chain p = .ok t) (he : (p :: rest).IsChain fs.Includes) :
    (∀ q ∈ p :: rest, chain.any (·.same q.normalize) = false) ∧
      (p :: rest).Pairwise fun q q' => q.normalize.same q'.normalize = false := by
  induction rest generalizing n chain p t with
  | nil =>
    cases n with
    | zero => cases h
    | succ n =>
      obtain ⟨hf, -⟩ := resolveFile_succ_eq_ok_iff.1 h
      exact ⟨forall_mem_singleton.2 hf, pairwise_singleton _ _⟩
  | cons q rest ih =>
    cases n with
    | zero => cases h
    | succ n =>
      obtain ⟨hf, -⟩ := resolveFile_succ_eq_ok_iff.1 h
      obtain ⟨hq, he⟩ := isChain_cons_cons.1 he
      obtain ⟨t', ht'⟩ := hq.exists_resolveIn h
      obtain ⟨hfr, hp⟩ := ih ht' he
      simp only [any_append, any_cons, any_nil, Bool.or_false, Bool.or_eq_false_iff] at hfr
      exact ⟨forall_mem_cons.2 ⟨hf, fun r hr => (hfr r hr).1⟩, pairwise_cons.2 ⟨fun r hr => (hfr r hr).2, hp⟩⟩

theorem not_hasCircle_of_resolveIn (h : fs.resolveIn n [] entry = .ok t) : ¬ fs.HasCircle entry := by
  rintro ⟨before, p, ⟨hh, hc⟩, q, hq, hs⟩
  obtain ⟨rest, hr⟩ : ∃ rest, before ++ [p] = entry :: rest := head?_eq_some_iff.1 hh
  rw [hr] at hc
  obtain ⟨-, hp⟩ := pairwise_of_resolveIn h hc
  rw [← hr, pairwise_append] at hp
  have ha := hp.2.2 q hq p (mem_singleton_self p)
  cases ha.symm.trans hs

/-! ### Substitution -/

theorem expanded_of_resolveIn (h : fs.resolveIn n chain p = .ok t) : fs.Expanded p t := by
  induction n generalizing chain p t with
  | zero => cases h
  | succ n ih =>
    obtain ⟨-, content, s, rs, hl, hs, hd, hrs, rfl⟩ := resolveFile_succ_eq_ok_iff.1 h
    exact .file hl hs hd fun r hr => ih (hrs r hr)

theorem Expanded.resolveIn_eq (h : fs.Expanded p t) (hne : fs.Nests entry before p)
    (hc : ¬ fs.HasCircle entry) (hn : fs.unused (before.map Path.normalize) < n) :
    fs.resolveIn n (before.map Path.normalize) p = .ok t := by
  induction h generalizing n before with
  | @file p content s rs hl hs hd hrs ih =>
    obtain ⟨n, rfl⟩ : ∃ k, n = k + 1 := ⟨n - 1, by omega⟩
    have hf : (before.map Path.normalize).any (·.same p.normalize) = false := by
      rw [any_map]
      exact any_eq_false.2 fun q hq ha => hc ⟨before, p, hne, q, hq, ha⟩
    have hle := unused_append_lt (mem_keys_of_load hl) hf
    have hb : before.map Path.normalize ++ [p.normalize] = (before ++ [p]).map Path.normalize := by simp
    refine resolveFile_succ_eq_ok_iff.2 ⟨hf, content, s, rs, hl, hs, hd, fun r hr => ?_, rfl⟩
    have hi : fs.Includes p (p.folder.join r.1.path) := ⟨content, s, r.1, hl, hs, hd.hasDirective r.1 (mem_map_of_mem hr), rfl⟩
    rw [hb] at hle ⊢
    exact ih r hr (hne.nest hi) (by omega)

theorem Nests.length_le (h : fs.Nests entry before p) (ha : before.Pairwise fun q q' => q.normalize.same q'.normalize = false) :
    before.length ≤ fs.keys.card := by
  have hn : (before.map fun q => q.normalize.components).Nodup := by
    exact pairwise_map.2 (ha.imp fun hs heq => of_decide_eq_false hs heq)
  have hu : (before.map fun q => q.normalize.components).toFinset ⊆ fs.keys := by
    intro key hk
    obtain ⟨q, hq, rfl⟩ := mem_map.1 (mem_toFinset.1 hk)
    obtain ⟨next, content, -, -, hl, -⟩ := includes_of_mem h.2 hq
    exact mem_keys_of_load hl
  calc before.length = (before.map fun q => q.normalize.components).toFinset.card := by
        rw [toFinset_card_of_nodup hn, length_map]
    _ ≤ fs.keys.card := Finset.card_le_card hu

/-- **Guarded substitution.** Whatever the files include, the text of a file is found with room for
as many nested files as there are and one that is missing, and more room changes nothing: files that
are being expanded are different ones. A circle is reported only where the directives lead from the
entry to a file that is being expanded. A file has a resolved text exactly if no directives below it
lead in a circle and all can be replaced, and the text is its own with each directive replaced from
left to right by the resolved text of the file that it names; to replace them backwards in place
gives the same. -/
theorem resolve_guarded_substitution (fs : FileSet) (entry : Path) :
    (∀ n, fs.keys.card < n → fs.resolveIn n [] entry = fs.resolve entry) ∧
      (∀ position, fs.resolve entry ≠ .error (.parse .includeDepth position)) ∧
      (∀ before p, fs.Nests entry before p →
        (before.Pairwise fun q q' => q.normalize.same q'.normalize = false) → before.length ≤ fs.keys.card) ∧
      (∀ cycle position, fs.resolve entry = .error (.parse (.includeCycle cycle) position) →
        ∃ before p, fs.Nests entry before p ∧ (∃ q ∈ before, q.normalize.same p.normalize = true) ∧
          cycle = (before.map Path.normalize).dropWhile (fun q => !q.same p.normalize) ++ [p.normalize]) ∧
      (∀ t, fs.resolve entry = .ok t ↔ fs.Expanded entry t ∧ ¬ fs.HasCircle entry) ∧
      ∀ content s (rs : List (Directive × List Char)), Source.ofText content = .ok s →
        s.Directives 0 (rs.map Prod.fst) → replaceBackwards content rs = spliceForwards 0 content rs := by
  have hroom : fs.unused [] < fs.depth := by
    rw [unused_nil]
    exact fs.card_keys_lt_depth
  refine ⟨fun n hn => ?_, not_includeDepth_of_unused_lt hroom, fun before p h => h.length_le,
    fun cycle position => exists_circle_of_resolveIn (fs.nests_nil entry), fun t => ⟨fun h => ?_, ?_⟩,
    fun content s rs hs => Source.replaceBackwards_eq_spliceForwards hs⟩
  · rw [← unused_nil] at hn
    have hmin : fs.unused [] < min n fs.depth := lt_min hn hroom
    calc fs.resolveIn n [] entry = fs.resolveIn (min n fs.depth) [] entry :=
          resolveIn_eq_of_unused_lt hmin (min_le_left _ _)
      _ = fs.resolve entry := (resolveIn_eq_of_unused_lt hmin (min_le_right _ _)).symm
  · exact ⟨expanded_of_resolveIn h, not_hasCircle_of_resolveIn h⟩
  · rintro ⟨hexpanded, hcircle⟩
    exact hexpanded.resolveIn_eq (fs.nests_nil entry) hcircle hroom

/-- Whether a circle is reported. -/
def reportsCircle : Except CompileError (List Char) → Bool
  | .error (.parse (.includeCycle _) _) => true
  | _ => false

/-- A file that is included twice, but not inside itself, and files that include each other. -/
theorem resolve_guarded_substitution_twice_and_circle :
    let twice : FileSet := ⟨[(⟨"a"⟩, "x *include l: 'lib/b'; y *include m: 'c';"),
      (⟨"lib/b"⟩, "b *include n: '../c';"), (⟨"c"⟩, "c")]⟩
    let circle : FileSet := ⟨[(⟨"a"⟩, "*include l: 'lib/b';"), (⟨"lib/b"⟩, "*include m: '.././a';")]⟩
    (twice.Expanded ⟨"a"⟩ "x b c y c".toList ∧ ¬ twice.HasCircle ⟨"a"⟩) ∧ circle.HasCircle ⟨"a"⟩ := by
  intro twice circle
  have htwice : twice.resolve ⟨"a"⟩ = .ok "x b c y c".toList := by decide +kernel
  have hcircle : reportsCircle (circle.resolve ⟨"a"⟩) = true := by decide +kernel
  constructor
  · exact ((twice.resolve_guarded_substitution ⟨"a"⟩).2.2.2.2.1 _).1 htwice
  · unfold reportsCircle at hcircle
    split at hcircle
    · rename_i cycle position hresolve
      obtain ⟨-, -, -, hreport, -⟩ := circle.resolve_guarded_substitution ⟨"a"⟩
      obtain ⟨before, p, hnests, hq, -⟩ := hreport cycle position hresolve
      exact ⟨before, p, hnests, hq⟩
    · cases hcircle

end FileSet

end Pagewright
