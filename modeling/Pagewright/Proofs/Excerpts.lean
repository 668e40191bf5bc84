import Mathlib.Data.List.Induction
import Pagewright.Proofs.ReplacedCalls

/-!
# Excerpts scanned by themselves

Values and arguments are cut out of a text without a look at what their ends do to a scan. A text
without the blanks around it still has all its strings and templates (`Scans.exists_trim`), provided
that the blanks before it are ones that the scan passes over: behind any other blank a slash is
taken for a division. -/

namespace Pagewright

open List
open Piece (chars isBlankCode)

variable {ctx : ScanContext} {c : Char} {ps blanks front whole : List Piece}

/-- The strings and templates among some pieces, as they are written. -/
def quotedTexts (ps : List Piece) : List (List Char) :=
  ps.filterMap fun
    | .literal (.quoted _) text => some text
    | _ => none

theorem quotedTexts_append (ps qs : List Piece) : quotedTexts (ps ++ qs) = quotedTexts ps ++ quotedTexts qs := filterMap_append ..

theorem mem_quotedTexts {text : List Char} : text ∈ quotedTexts ps ↔ ∃ quote, .literal (.quoted quote) text ∈ ps := by
  rw [quotedTexts, mem_filterMap]
  constructor
  · rintro ⟨p, hp, ht⟩
    split at ht
    · cases ht
      exact ⟨_, hp⟩
    · cases ht
  · rintro ⟨quote, hp⟩
    exact ⟨_, hp, rfl⟩

theorem quotedTexts_of_isBlankCode (h : ∀ p ∈ blanks, p.isBlankCode) : quotedTexts blanks = [] := by
  refine eq_nil_iff_forall_not_mem.2 fun text ht => ?_
  obtain ⟨quote, hp⟩ := mem_quotedTexts.1 ht
  cases h _ hp

theorem IsFront.append_right (h : IsFront whole front) (rest : List Piece) : IsFront (whole ++ rest) front := by
  induction h with
  | nil => exact .nil _
  | comment qs ht hl => exact .comment (qs ++ rest) ht hl
  | cons p h ih => exact .cons p ih

theorem trimEnd_concat_blank (hc : isBlank c) (cs : List Char) : trimEnd (cs ++ [c]) = trimEnd cs :=
  rdropWhile_concat_pos isBlank cs c hc

theorem exists_front_trimEnd (h : ∀ p ∈ ps, p.IsRead) :
    ∃ front, IsFront ps front ∧ front.flatMap chars = trimEnd (ps.flatMap chars) ∧ quotedTexts front = quotedTexts ps := by
  induction ps using reverseRecOn with
  | nil => exact ⟨[], .nil [], rfl, rfl⟩
  | append_singleton ps p ih =>
    have hl : p ∈ ps ++ [p] := mem_append_right ps (mem_singleton_self p)
    cases p with
    | code c =>
      cases hc : isBlank c with
      | true =>
        obtain ⟨front, hf, hch, hq⟩ := ih fun p hp => h p (mem_append_left _ hp)
        refine ⟨front, hf.append_right _, ?_, by simp [quotedTexts] at hq ⊢; exact hq⟩
        rw [hch, flatMap_append, flatMap_singleton, chars, trimEnd_concat_blank hc]
      | false =>
        refine ⟨ps ++ [.code c], by simpa using isFront_append (ps ++ [.code c]) [], ?_, rfl⟩
        rw [flatMap_append, flatMap_singleton, chars]
        rw [← append_nil [c], ← append_assoc, trimEnd_append_of_last (by simp) hc]
        rfl
    | literal kind text =>
      obtain ⟨ctx, c, lit, back, rfl, ht⟩ := h _ hl
      rw [flatMap_append, flatMap_singleton, chars]
      by_cases hk : kind = .lineComment
      · subst hk
        obtain ⟨rfl, hh, hle⟩ := ht
        obtain ⟨lit, rfl⟩ : ∃ lit', lit = '/' :: lit' := by
          cases lit with
          | nil =>
            obtain ⟨back, rfl⟩ := head?_eq_some_iff.1 hh
            simp at hle
          | cons d lit => exact ⟨lit, by rw [Option.some.inj hh]⟩
        have hb : trimEnd lit ++ lit.rtakeWhile isBlank = lit := rdropWhile_append_rtakeWhile
        refine ⟨ps ++ [.literal .lineComment ('/' :: '/' :: trimEnd lit)], .append_left ps (.comment []
          (by rw [cons_append, cons_append, hb]) (Nat.le_add_left 2 _)), ?_, ?_⟩
        · have hs : ps.flatMap chars ++ '/' :: '/' :: lit = (ps.flatMap chars ++ ['/', '/']) ++ lit := by simp
          rw [hs, trimEnd_append_of_last (c := '/') (by simp) (by decide)]
          simp [chars]
        · simp [quotedTexts]
      · obtain ⟨init, d, hi, hd, -⟩ := ht.exists_last hk
        refine ⟨ps ++ [.literal kind (c :: lit)], by simpa using isFront_append (ps ++ [.literal kind (c :: lit)]) [], ?_, rfl⟩
        rw [flatMap_append, flatMap_singleton, chars, hi, ← append_nil (ps.flatMap chars ++ c :: (init ++ [d])),
          trimEnd_append_of_last (by simp [getLast?_cons]) hd]
        rfl

/-- The blanks that a text begins with are ones that the scan of literals passes over. -/
def PlainMargin (cs : List Char) : Prop := ∀ c ∈ cs.takeWhile isBlank, isPlainBlank c = true

theorem ScanContext.IsOpen.afterCode (h : ctx.IsOpen) (hc : isPlainBlank c) (rest : List Char) :
    (ctx.afterCode c rest).IsOpen := by
  unfold ScanContext.afterCode
  rw [if_pos hc]
  exact ⟨h.inWord_eq, h.allowsPattern_eq, h.endsOperand_eq⟩

theorem Scans.exists_dropBlanks (h : Scans ctx ps) (ho : ctx.IsOpen) (hm : PlainMargin (ps.flatMap chars)) :
    ∃ ctx', ctx'.IsOpen ∧ Scans ctx' (dropBlanks ps) ∧ (dropBlanks ps).flatMap chars = trimStart (ps.flatMap chars) := by
  obtain ⟨last, h⟩ := h
  induction h with
  | nil ctx => exact ⟨ctx, ho, .nil ctx, rfl⟩
  | @literal ctx last kind c lit ps hop hr ih =>
    have hc : isBlank c = false := by
      rcases isLiteralStart_cases (begins_of_opening hop).isLiteralStart with rfl | rfl | rfl | rfl <;> decide
    refine ⟨ctx, ho, ⟨last, .literal hop hr⟩, ?_⟩
    simp [dropBlanks, isBlankCode, chars, trimStart, hc]
  | @doubled ctx last c ps hop hr ih =>
    have hc : isBlank c = false := by rcases (sign_of_opening hop).1 with rfl | rfl <;> decide
    refine ⟨ctx, ho, ⟨last, by simpa [dropBlanks, isBlankCode, hc] using .doubled hop hr⟩, ?_⟩
    simp [dropBlanks, isBlankCode, chars, trimStart, hc]
  | @code ctx last c ps hs hop hr ih =>
    cases hc : isBlank c with
    | false =>
      refine ⟨ctx, ho, ⟨last, by simpa [dropBlanks, isBlankCode, hc] using .code hs hop hr⟩, ?_⟩
      simp [dropBlanks, isBlankCode, chars, trimStart, hc]
    | true =>
      have hp : isPlainBlank c := hm c (by simp [chars, hc])
      obtain ⟨ctx', ho', hsc, hh⟩ := ih (ho.afterCode hp _) fun d hd =>
        hm d (by simpa [chars, hc] using .inr hd)
      exact ⟨ctx', ho', by simpa [dropBlanks, isBlankCode, hc] using hsc,
        by simpa [dropBlanks, isBlankCode, chars, trimStart, hc] using hh⟩

/-- **Trimmed texts.** A text without the blanks around it has the strings and templates that it has
with them. -/
theorem Scans.exists_trim (h : Scans {} ps) (hm : PlainMargin (ps.flatMap chars)) :
    ∃ core, Scans {} core ∧ core.flatMap chars = trim (ps.flatMap chars) ∧ quotedTexts core = quotedTexts ps := by
  obtain ⟨ctx, ho, hs, hc⟩ := h.exists_dropBlanks isOpen_start hm
  obtain ⟨core, hf, hco, hq⟩ := exists_front_trimEnd hs.choose_spec.isRead
  refine ⟨core, hs.front hf (ho.alike isOpen_start _ _), ?_, hq.trans ?_⟩
  · rw [hco, hc, trim]
  · obtain ⟨blanks, heq, hb⟩ := exists_blanks ps
    conv_rhs => rw [heq, quotedTexts_append, quotedTexts_of_isBlankCode hb, nil_append]

end Pagewright
