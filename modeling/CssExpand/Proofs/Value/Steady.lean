import CssExpand.Proofs.Sheet.Phrases
import CssExpand.Proofs.Value.Keywords
import CssExpand.Proofs.Value.Uncommented
import Mathlib

/-!
# Words that survive

A word is what stands between two separators of a value, written without its comments and trimmed. It
is again one word, and words with gaps between them are again these words, if what stands between the
separators is steady (`isSteady`): nothing of it runs together where a comment was, nothing is misread,
no end of it is trimmed, and it does not end in a backslash alone. Where it is not, the word may lose
the blank that an escape needs (`words_escapedSpace`).

The invariant is `Alone`. It says how the text of a piece is scanned in front of any separator, and
rows of such texts are scanned piece by piece (`Row.scan`).
-/

set_option autoImplicit false

namespace CssExpand.Value

open Syntax

/-- Whether what stands between two separators, without its comments, is read as one word again once it
is written. -/
def isSteady (piece : List Token) : Bool :=
  !Lexeme.runsTogether (Token.listFlat (Token.listMerged piece)) &&
    !Token.listMisread (Token.listMerged piece) &&
    Text.trim (Token.listWritten piece) == Token.listWritten piece &&
    piece.getLast?.all (!·.isLiteral ['\\'])

/-! ## 1. One word -/

/-- A text that is read in front of a separator as these tokens, which without the comments in them are
written as the text. No blank stands among them outside all brackets. The comments are the reason why
the tokens are not simply those of the text: a word is written without the comments that were in it. -/
structure Alone (x : List Char) (ts : List Token) : Prop where
  unified : Unified x
  scan : ∀ cs, Separates cs → Lexeme.scan (x ++ cs) = Token.listFlat ts ++ Lexeme.scan cs
  written : Token.listWritten (Token.listWithoutComments ts) = x
  gapless : ∀ t ∈ ts, t.isWhitespace = false
  short : ∀ l ∈ Token.listFlat ts, l.overlong? = none
  nonempty : x ≠ []
  trimmed : Text.trim x = x

theorem wellFormed_of_mem {ls : List Lexeme} (h : Lexeme.Sourced ls) : ∀ l ∈ ls, l.WellFormed := by
  induction ls with
  | nil => exact fun l hl => nomatch hl
  | cons m ls ih => exact List.forall_mem_cons.mpr ⟨h.1, ih h.2.2.2⟩

theorem faultless_of_sourced {ts : List Token} (h : Lexeme.Sourced (Token.listFlat ts)) :
    Token.listHasFault ts = false := by
  rw [← Token.any_isFault_listFlat, List.any_eq_false]
  intro l hl hfault
  have hwf := wellFormed_of_mem h l hl
  cases l with
  | atom a =>
    cases a with
    | fault kind => exact hwf
    | _ => cases hfault
  | _ => cases hfault

theorem listMerged_of_gapless {ts : List Token} (h : ∀ t ∈ ts, t.isWhitespace = false) :
    Token.listMerged ts = ts.map Token.merged := by
  induction ts with
  | nil => rfl
  | cons t ts ih =>
    rw [List.forall_mem_cons] at h
    have ht : t.merged.isWhitespace = false := by
      cases t with
      | atom a => exact h.1
      | _ => rfl
    rw [Token.listMerged, ih h.2, Token.mergeOnto_of_not_isWhitespace ht]
    rfl

/-- Putting whitespace together in tokens of a source does not change what is written for them. -/
theorem listWritten_merged_of_sourced {ts : List Token} (hs : Lexeme.Sourced (Token.listFlat ts)) :
    Token.listWritten (Token.listMerged (Token.listWithoutComments ts)) =
      Token.listWritten (Token.listWithoutComments ts) := by
  have hflat := Token.listFlat_listWithoutComments ts
  refine Token.listWritten_listMerged (fun hmem => ?_) ?_
  · rw [hflat] at hmem
    exact (wellFormed_of_mem hs _ (List.mem_of_mem_filter hmem)).1 rfl
  · exact Token.listHasFault_of_subset (hflat ▸ List.filter_subset_self _) (faultless_of_sourced hs)

/-- The text of a steady piece of a source is read alone. -/
theorem alone_of_isSteady {ts : List Token} (hs : Lexeme.Sourced (Token.listFlat ts))
    (hshort : ∀ l ∈ Token.listFlat ts, l.overlong? = none)
    (hgap : ∀ t ∈ Token.listWithoutComments ts, t.isWhitespace = false)
    (hne : Token.listWithoutComments ts ≠ []) (h : isSteady (Token.listWithoutComments ts) = true) :
    Alone (Token.listWritten (Token.listWithoutComments ts))
      (Token.listReread (Token.listMerged (Token.listWithoutComments ts))) := by
  simp only [isSteady, Bool.and_eq_true, Bool.not_eq_true', beq_iff_eq] at h
  obtain ⟨⟨⟨hr, hm⟩, htrim⟩, hback⟩ := h
  have hsettled := Token.settled_listMerged hs hshort hr hm
  have hmerged := listMerged_of_gapless hgap
  have hflat := Token.listFlat_listWithoutComments ts
  have hwritten := listWritten_merged_of_sourced hs
  generalize hp : Token.listWithoutComments ts = p at *
  -- No whitespace is left among the tokens, so merging changes none of them but what is inside.
  have hfirm : Token.Firm (Token.listMerged p) := by
    rw [hmerged]
    constructor <;> intro t ht <;> rw [List.getLast?_map] at ht <;>
      obtain ⟨u, hu, rfl⟩ := Option.map_eq_some_iff.mp ht
    · rw [Token.merged_isWhitespace]
      exact hgap u (List.mem_of_getLast? hu)
    · rw [Token.merged_isLiteral]
      simpa [hu] using hback
  have hscan : ∀ cs, Separates cs → _ := fun _ hcs => Token.scan_listWritten hsettled hfirm hcs
  rw [hwritten] at hscan
  refine ⟨?_, hscan, ?_, ?_, Token.short_listReread hsettled.short, ?_, htrim⟩
  · rw [← hwritten]
    exact Token.unified_listWritten hsettled.sourced
  · rw [Token.listWritten_listWithoutComments_listReread, hwritten]
    · intro l hl
      rw [Token.listFlat_listMerged, hflat] at hl
      obtain ⟨text, rfl⟩ | hmem := Lexeme.mem_merged hl
      · rfl
      · simpa using (List.mem_filter.mp hmem).2
    · exact faultless_of_sourced hsettled.sourced
  · refine forall_listReread rfl isWhitespace_reread fun t ht => ?_
    rw [hmerged] at ht
    obtain ⟨u, hu, rfl⟩ := List.mem_map.mp ht
    rw [Token.merged_isWhitespace]
    exact hgap u hu
  · -- The empty text has no lexemes.
    intro hnil
    have hempty := hscan [] (fun c hc => nomatch hc)
    rw [hnil, hmerged, List.append_nil, Lexeme.scan_nil, List.append_nil] at hempty
    obtain ⟨t, us, rfl⟩ := List.exists_cons_of_ne_nil hne
    obtain ⟨l, ls, hl, -⟩ := t.merged.reread.head?_flat
    rw [List.map_cons, Token.listReread, Token.listFlat, hl] at hempty
    cases hempty

theorem Alone.head {x : List Char} {ts : List Token} (h : Alone x ts) :
    ∃ c r, x = c :: r ∧ Text.isBlank c = false := by
  obtain ⟨c, r, rfl⟩ := List.exists_cons_of_ne_nil h.nonempty
  exact ⟨c, r, rfl, (ends_of_trim h.trimmed).1 c rfl⟩

theorem isWhitespace_withoutComments (t : Token) :
    t.withoutComments.isWhitespace = t.isWhitespace := by
  cases t <;> rfl

theorem Alone.gapless_listWithoutComments {x : List Char} {ts : List Token} (h : Alone x ts) :
    ∀ t ∈ Token.listWithoutComments ts, t.isWhitespace = false := by
  intro t ht
  obtain ⟨u, hu, rfl⟩ := Token.exists_of_mem_listWithoutComments ht
  rw [isWhitespace_withoutComments, h.gapless u hu]

theorem splitAt_eq_singleton {separates : Token → Bool} {ts : List Token}
    (h : ∀ t ∈ ts, separates t = false) : Token.splitAt separates ts = [ts] := by
  induction ts with
  | nil => rfl
  | cons t ts ih =>
    rw [List.forall_mem_cons] at h
    simp [Token.splitAt, ih h.2, h.1]

/-! ## 2. Rows -/

/-- Whitespace between two words. -/
def IsGap (g : List Char) : Prop := g ≠ [] ∧ ∀ c ∈ g, Syntax.isWhitespace c = true

theorem IsGap.append {g h : List Char} (hg : IsGap g) (hh : IsGap h) : IsGap (g ++ h) :=
  ⟨List.append_ne_nil_of_left_ne_nil hg.1 h, List.forall_mem_append.mpr ⟨hg.2, hh.2⟩⟩

theorem IsGap.separates {g : List Char} (h : IsGap g) (cs : List Char) : Separates (g ++ cs) := by
  obtain ⟨c, g, rfl⟩ := List.exists_cons_of_ne_nil h.1
  have hc := h.2 c List.mem_cons_self
  refine separates_cons ?_ _
  simp only [Syntax.isWhitespace, Bool.or_eq_true, beq_iff_eq] at hc
  rcases hc with (rfl | rfl) | rfl <;> rfl

/-- A text of words with whitespace between them, its tokens, and the words. -/
inductive Row : List Char → List Token → List String → Prop
  | single {x : List Char} {ts : List Token} (h : Alone x ts) : Row x ts [String.ofList x]
  | cons {x g y : List Char} {ts us : List Token} {ws : List String} (h : Alone x ts)
    (gap : IsGap g) (rest : Row y us ws) :
    Row (x ++ (g ++ y)) (ts ++ .atom (.whitespace g) :: us) (String.ofList x :: ws)

namespace Row

variable {x : List Char} {ts : List Token} {ws : List String}

theorem head (h : Row x ts ws) : ∃ c r, x = c :: r ∧ Text.isBlank c = false := by
  cases h with
  | single h => exact h.head
  | cons h =>
    obtain ⟨c, r, rfl, hc⟩ := h.head
    exact ⟨c, _, rfl, hc⟩

theorem unified (h : Row x ts ws) : Unified x := by
  induction h with
  | single h => exact h.unified
  | cons h gap rest ih =>
    refine unified_append.mpr ⟨h.unified, unified_append.mpr ⟨fun c hc => ?_, ih⟩⟩
    have hw := gap.2 c hc
    simp only [Syntax.isWhitespace, Bool.or_eq_true, beq_iff_eq] at hw
    rcases hw with (rfl | rfl) | rfl <;> decide

/-- A row is scanned word by word. -/
theorem scan (h : Row x ts ws) {cs : List Char} (hs : Separates cs) :
    Lexeme.scan (x ++ cs) = Token.listFlat ts ++ Lexeme.scan cs := by
  induction h with
  | single h => exact h.scan cs hs
  | @cons x g y ts us ws h gap rest ih =>
    have hgap : Lexeme.scan (g ++ (y ++ cs)) =
        .atom (.whitespace g) :: Lexeme.scan (y ++ cs) := by
      obtain ⟨c, r, rfl, hc⟩ := rest.head
      exact scan_whitespace gap.1 gap.2 fun d hd => by
        obtain rfl := Option.some.inj hd
        exact isWhitespace_of_not_isBlank hc
    rw [List.append_assoc, List.append_assoc, h.scan _ (gap.separates _), hgap, ih,
      Token.listFlat_append, Token.listFlat, List.append_assoc]
    rfl

theorem short (h : Row x ts ws) : ∀ l ∈ Token.listFlat ts, l.overlong? = none := by
  induction h with
  | single h => exact h.short
  | cons h gap rest ih =>
    rw [Token.listFlat_append, Token.listFlat, List.forall_mem_append, List.forall_mem_append]
    refine ⟨h.short, fun l hl => ?_, ih⟩
    rw [List.mem_singleton.mp hl]
    rfl

theorem ofChars_eq (h : Row x ts ws) : Token.ofChars x = ts :=
  ofChars_of_scan h.unified fun _ hcs => h.scan hcs

/-- The words of a row are its words. -/
theorem words_eq (h : Row x ts ws) : words (String.ofList x) = ws := by
  have hpieces : pieces Token.isWhitespace (Token.listWithoutComments ts) = ws ∧
      ∀ w ∈ ws, w ≠ "" := by
    have hword : ∀ {x ts}, Alone x ts →
        String.ofList (Text.trim (Token.listWritten (Token.listWithoutComments ts))) =
          String.ofList x := fun h => by rw [h.written, h.trimmed]
    have hne : ∀ {x ts}, Alone x ts → String.ofList x ≠ "" := fun h => by
      simpa [← String.toList_inj] using h.nonempty
    induction h with
    | @single x ts h =>
      rw [pieces, splitAt_eq_singleton h.gapless_listWithoutComments, List.map_singleton, hword h]
      exact ⟨rfl, List.forall_mem_singleton.mpr (hne h)⟩
    | @cons x g y ts us ws h gap rest ih =>
      have hgap : Token.listWithoutComments (ts ++ .atom (.whitespace g) :: us) =
          Token.listWithoutComments ts ++ .atom (.whitespace g) :: Token.listWithoutComments us := by
        rw [listWithoutComments_append]
        rfl
      rw [hgap, pieces, splitAt_append h.gapless_listWithoutComments rfl, List.map_cons, hword h,
        ← pieces, ih.1]
      exact ⟨rfl, List.forall_mem_cons.mpr ⟨hne h, ih.2⟩⟩
  rw [words, tokens, String.toList_ofList, h.ofChars_eq, hpieces.1, List.filter_eq_self]
  intro w hw
  simpa using hpieces.2 w hw

theorem accepted (h : Row x ts ws) : checkIntegers (String.ofList x) = .ok () := by
  have htext : (String.ofList x).toList = x := String.toList_ofList
  have hunified : Unified (String.ofList x).toList := by rw [htext]; exact h.unified
  refine (checkIntegers_of_scan hunified fun cs hcs => ?_).mpr h.short
  rw [htext, h.scan hcs]

end Row

/-! ## 3. Words of a value -/

theorem listWithoutComments_of_isComment {t : Token} (h : t.isComment = true) (ts : List Token) :
    Token.listWithoutComments (t :: ts) = Token.listWithoutComments ts := by
  rw [Token.listWithoutComments, if_pos h]

theorem listWithoutComments_of_not_isComment {t : Token} (h : t.isComment = false)
    (ts : List Token) : Token.listWithoutComments (t :: ts) =
      t.withoutComments :: Token.listWithoutComments ts := by
  rw [Token.listWithoutComments, h, if_neg Bool.false_ne_true]

/-- Two parts of tokens without comments come from two parts of the tokens. -/
theorem exists_of_listWithoutComments_eq_append {ts as bs : List Token}
    (h : Token.listWithoutComments ts = as ++ bs) : ∃ us vs, ts = us ++ vs ∧
      Token.listWithoutComments us = as ∧ Token.listWithoutComments vs = bs := by
  induction ts generalizing as with
  | nil =>
    obtain ⟨rfl, rfl⟩ := List.append_eq_nil_iff.mp h.symm
    exact ⟨[], [], rfl, rfl, rfl⟩
  | cons t ts ih =>
    cases ht : t.isComment with
    | true =>
      rw [listWithoutComments_of_isComment ht] at h
      obtain ⟨us, vs, rfl, hus, hvs⟩ := ih h
      exact ⟨t :: us, vs, rfl, (listWithoutComments_of_isComment ht us).trans hus, hvs⟩
    | false =>
      cases as with
      | nil => exact ⟨[], t :: ts, rfl, rfl, h⟩
      | cons a as =>
        rw [listWithoutComments_of_not_isComment ht, List.cons_append, List.cons.injEq] at h
        obtain ⟨us, vs, rfl, hus, hvs⟩ := ih h.2
        exact ⟨t :: us, vs, rfl, by rw [listWithoutComments_of_not_isComment ht, hus, h.1], hvs⟩

/-- A part of tokens without comments comes from a part of the tokens. -/
theorem exists_of_isInfix_listWithoutComments {ts piece : List Token}
    (h : piece <:+: Token.listWithoutComments ts) :
    ∃ us, us <:+: ts ∧ Token.listWithoutComments us = piece := by
  obtain ⟨as, bs, h⟩ := h
  obtain ⟨front, back, rfl, hfront, -⟩ := exists_of_listWithoutComments_eq_append h.symm
  obtain ⟨first, us, rfl, -, hus⟩ := exists_of_listWithoutComments_eq_append hfront
  exact ⟨us, ⟨first, back, rfl⟩, hus⟩

section Words

variable {value : String} (hi : checkIntegers value = .ok ())
  (hf : Token.listHasFault (Token.ofChars value.toList) = false)
include hi hf

/-- Tokens of a value that stand together come from tokens of its source. -/
theorem exists_sourced {piece : List Token} (hp : piece <:+: tokens value) :
    ∃ ts, ts <:+: Token.ofChars value.toList ∧ Token.listWithoutComments ts = piece ∧
      Lexeme.Sourced (Token.listFlat ts) ∧ ∀ l ∈ Token.listFlat ts, l.overlong? = none := by
  obtain ⟨ts, hts, rfl⟩ := exists_of_isInfix_listWithoutComments hp
  have hinfix := Token.listFlat_isInfix hts
  refine ⟨ts, hts, rfl, (Token.sourced_ofChars hf).of_isInfix hinfix, fun l hl => ?_⟩
  obtain ⟨closers, hflat⟩ := Token.flat_ofChars hf
  have hmem := hinfix.subset hl
  rw [hflat] at hmem
  rcases List.mem_append.mp hmem with hmem | hmem
  · exact Token.checkIntegers_eq_ok.mp hi l hmem
  · obtain ⟨b, -, rfl⟩ := List.mem_map.mp hmem
    rfl

/-- Steady tokens of a value that stand together, no blanks among them, are read alone. -/
theorem exists_alone {piece : List Token} (hp : piece <:+: tokens value)
    (hgap : ∀ t ∈ piece, t.isWhitespace = false) (hs : isSteady piece = true) (hne : piece ≠ []) :
    ∃ ts, Alone (Token.listWritten piece) ts := by
  obtain ⟨ts, -, rfl, hsourced, hshort⟩ := exists_sourced hi hf hp
  exact ⟨_, alone_of_isSteady hsourced hshort hgap hne hs⟩

/-- The words of a value are read alone, if what stands between its whitespace is steady. -/
theorem exists_alone_of_mem_words
    (hs : ∀ piece ∈ Token.splitAt Token.isWhitespace (tokens value), isSteady piece = true)
    {w : String} (h : w ∈ words value) : ∃ ts, Alone w.toList ts := by
  rw [words, List.mem_filter, pieces, List.mem_map] at h
  obtain ⟨⟨piece, hp, rfl⟩, hempty⟩ := h
  have hsteady := hs piece hp
  simp only [isSteady, Bool.and_eq_true, beq_iff_eq] at hsteady
  rw [String.toList_ofList, hsteady.1.2]
  refine exists_alone hi hf (of_mem_splitAt hp).1 (of_mem_splitAt hp).2 (hs piece hp) ?_
  intro hnil
  rw [hnil] at hempty
  cases hempty

end Words

/-- Words that are read alone are a row with spaces between them. -/
theorem exists_row_spaced {ws : List String} (hne : ws ≠ [])
    (h : ∀ w ∈ ws, ∃ ts, Alone w.toList ts) : ∃ ts, Row (spaced ws).toList ts ws := by
  have hgap : IsGap [' '] := ⟨List.cons_ne_nil _ _, by simp [Syntax.isWhitespace]⟩
  induction ws with
  | nil => exact absurd rfl hne
  | cons w ws ih =>
    rw [List.forall_mem_cons] at h
    obtain ⟨ts, hw⟩ := h.1
    cases ws with
    | nil =>
      have hrow := Row.single hw
      rw [String.ofList_toList] at hrow
      exact ⟨ts, by simpa [spaced] using hrow⟩
    | cons v vs =>
      obtain ⟨us, hrest⟩ := ih (List.cons_ne_nil v vs) h.2
      have hrow := Row.cons hw hgap hrest
      rw [String.ofList_toList] at hrow
      have htext : (spaced (w :: v :: vs)).toList =
          w.toList ++ ([' '] ++ (spaced (v :: vs)).toList) := by
        rw [toList_spaced_cons, toList_spaced_cons]
        rfl
      rw [htext]
      exact ⟨_, hrow⟩

/-- Words are atomic and survive joining: each word of a value is its own only word, and the words with
spaces between them are read as these words, if what stands between the whitespace of the value is
steady. All these texts are accepted. This is what lets a pass go by words: it may take them one by one
and join them anew, and the next pass finds the words that this one meant. -/
theorem words_again {value : String} (hi : checkIntegers value = .ok ())
    (hf : Token.listHasFault (Token.ofChars value.toList) = false)
    (hs : ∀ piece ∈ Token.splitAt Token.isWhitespace (tokens value), isSteady piece = true) :
    (∀ w ∈ words value, checkIntegers w = .ok () ∧ words w = [w]) ∧
      checkIntegers (spaced (words value)) = .ok () ∧
      words (spaced (words value)) = words value := by
  have halone : ∀ w ∈ words value, ∃ ts, Alone w.toList ts :=
    fun w hw => exists_alone_of_mem_words hi hf hs hw
  refine ⟨fun w hw => ?_, ?_⟩
  · obtain ⟨ts, hts⟩ := halone w hw
    have hrow := Row.single hts
    have hwords := hrow.words_eq
    have haccepted := hrow.accepted
    rw [String.ofList_toList] at hwords haccepted
    exact ⟨haccepted, hwords⟩
  · -- A row has a word in it, so that a value without words stands for itself.
    by_cases hne : words value = []
    · rw [hne]
      exact ⟨by cbv, by cbv⟩
    · obtain ⟨ts, hrow⟩ := exists_row_spaced hne halone
      have hwords := hrow.words_eq
      have haccepted := hrow.accepted
      rw [String.ofList_toList] at hwords haccepted
      exact ⟨haccepted, hwords⟩

/-- A comment and a line break in front of a function with a comment in it. -/
theorem words_again_function :
    checkIntegers "1px/*a*/\n rgb(0/**/0 1)" = .ok () ∧
      (∀ piece ∈ Token.splitAt Token.isWhitespace (tokens "1px/*a*/\n rgb(0/**/0 1)"),
        isSteady piece = true) ∧
      (∀ w ∈ words "1px/*a*/\n rgb(0/**/0 1)", checkIntegers w = .ok () ∧ words w = [w]) ∧
      checkIntegers (spaced (words "1px/*a*/\n rgb(0/**/0 1)")) = .ok () ∧
      words (spaced (words "1px/*a*/\n rgb(0/**/0 1)")) = words "1px/*a*/\n rgb(0/**/0 1)" := by
  have hi : checkIntegers "1px/*a*/\n rgb(0/**/0 1)" = .ok () := by cbv
  have hs : ((Token.splitAt Token.isWhitespace (tokens "1px/*a*/\n rgb(0/**/0 1)")).all isSteady) =
      true := by cbv
  rw [List.all_eq_true] at hs
  exact ⟨hi, hs, words_again hi (by cbv) hs⟩

/-- The blank of an escape is trimmed off the first word. So the word by itself ends in a backslash
without a character, and a space behind it is taken for its character. -/
theorem words_escapedTab :
    checkIntegers "1px\\9  2px" = .ok () ∧
      Token.listHasFault (Token.ofChars "1px\\9  2px".toList) = false ∧
      words "1px\\9  2px" = ["1px\\", "2px"] ∧
      words "1px\\" = ["1px\uFFFD"] ∧
      spaced ["1px\\", "2px"] = "1px\\ 2px" ∧ words "1px\\ 2px" = ["1px\\ 2px"] := by
  refine ⟨?_, ?_, ?_, ?_, ?_, ?_⟩ <;> cbv

end CssExpand.Value
