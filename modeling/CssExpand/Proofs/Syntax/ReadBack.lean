import CssExpand.Proofs.Syntax.Aligned
import CssExpand.Proofs.Syntax.Characters

/-!
# Texts that are read back

A text is read back if its tokens make the same text again and none of them is a fault (`ReadBack`).
Then no bracket is open at its end, its lexemes are those that it is scanned as, and reading what is
written for them gives these very tokens (`ReadBack.listReread_eq`). What is written for settled tokens
is such a text, if no backslash is left alone at its end (`Token.Settled.readBack`).
-/

set_option autoImplicit false

namespace CssExpand.Syntax

/-! ## 1. Closing brackets at the end -/

namespace Lexeme

theorem seam_closers (ls : List Lexeme) (bs : List Bracket) : seam ls (bs.map .close) = [] := by
  unfold seam
  split
  · next l l' hl hl' =>
    cases bs with
    | nil => cases hl'
    | cons b bs =>
      obtain rfl := Option.some.inj hl'
      simp [glue, joint, Joint.not_clash_other]
  · rfl

theorem glued_closers (bs : List Bracket) :
    glued (bs.map Lexeme.close) = bs.map .close := by
  induction bs with
  | nil => rfl
  | cons b bs ih =>
    have happend := glued_append [Lexeme.close b] (bs.map .close)
    rw [seam_closers, ih] at happend
    simpa [glued] using happend

/-- Nothing is written between lexemes and the closing brackets after them. -/
theorem text_glued_closers (ls : List Lexeme) (bs : List Bracket) :
    text (glued (ls ++ bs.map .close)) = text (glued ls) ++ bs.map Bracket.closing := by
  have hclosers : text (bs.map Lexeme.close) = bs.map Bracket.closing := by
    rw [text, List.flatMap_map, List.map_eq_flatMap]
    rfl
  rw [glued_append, seam_closers, glued_closers, List.append_nil, text_append, hclosers]

theorem scan_closing (b : Bracket) (cs : List Char) :
    scan (b.closing :: cs) = .close b :: scan cs :=
  scan_written (l := .close b) trivial rfl trivial

end Lexeme

theorem boundary_closers (bs : List Bracket) : Lexeme.Boundary (bs.map Bracket.closing) := by
  rintro c hc
  cases bs with
  | nil => cases hc
  | cons b bs =>
    obtain rfl := Option.some.inj hc
    cases b <;> decide

/-- A backslash stands in front of a line break only. -/
theorem Token.not_backslash_of_sourced {ts : List Token} {l : Lexeme} {ls : List Lexeme}
    (h : Lexeme.Sourced (listFlat ts ++ l :: ls)) (hl : ∀ text, l ≠ .atom (.whitespace text)) :
    ∀ t ∈ ts.getLast?, t.isLiteral ['\\'] = false := by
  intro t ht
  refine Bool.eq_false_iff.mpr fun hback => ?_
  obtain ⟨init, rfl⟩ := List.getLast?_eq_some_iff.mp ht
  obtain rfl : t = .atom (.literal ['\\']) := by
    cases t with
    | atom a =>
      cases a with
      | literal text =>
        simp only [isLiteral, beq_iff_eq] at hback
        rw [hback]
      | _ => cases hback
    | _ => cases hback
  rw [listFlat_append, List.append_assoc] at h
  obtain ⟨u, hu⟩ := (h.of_append.2.1 _ rfl).backslash rfl
  exact hl _ hu

/-- The last token is no backslash, since a lone one takes the end of the text for its character. -/
theorem Token.backslash_ofChars {cs : List Char} (h : listHasFault (ofChars cs) = false) :
    ∀ t ∈ (ofChars cs).getLast?, t.isLiteral ['\\'] = false := by
  obtain ⟨closers, hflat⟩ := flat_ofChars h
  have hfaultless : ∀ l ∈ Lexeme.scan (unifyBreaks cs), l.isFault = false := by
    have hany := any_isFault_listFlat (ofChars cs)
    rw [h, hflat, List.any_eq_false] at hany
    exact fun l hl => by simpa using hany l (List.mem_append_left _ hl)
  have hsourced := sourced_scan (unified_unifyBreaks cs) hfaultless (closers ++ [.curly])
  rw [List.map_append, ← List.append_assoc, ← hflat] at hsourced
  exact not_backslash_of_sourced hsourced (by simp)

theorem Token.listHasFault_of_subset {as bs : List Token} (h : listFlat as ⊆ listFlat bs)
    (hf : listHasFault bs = false) : listHasFault as = false := by
  rw [← any_isFault_listFlat, List.any_eq_false] at hf ⊢
  exact fun l hl => hf l (h hl)

/-! ## 2. Texts that are read back -/

/-- A text without faults, whose tokens make the same text again. No integer in it is overlong. It is
about the text alone and easy to test, and still enough to know all of its tokens to be settled. -/
structure ReadBack (text : String) : Prop where
  accepted : checkIntegers text = .ok ()
  faultless : Token.listHasFault (Token.ofChars text.toList) = false
  written : Token.write (Token.ofChars text.toList) = text

namespace ReadBack

variable {text : String} (h : ReadBack text)
include h

theorem sourced : Lexeme.Sourced (Token.listFlat (Token.ofChars text.toList)) :=
  Token.sourced_ofChars h.faultless

theorem listWritten_eq : Token.listWritten (Token.ofChars text.toList) = text.toList := by
  conv_rhs => rw [← h.written]
  exact (String.toList_ofList ..).symm

theorem unified : Unified text.toList := by
  have hunified := Token.unified_listWritten h.sourced
  rwa [h.listWritten_eq] at hunified

/-- What is scanned is read as it is written, and no bracket is open at the end. -/
theorem aligned : Lexeme.scan text.toList = Token.listFlat (Token.ofChars text.toList) ∧
    Lexeme.misread (Lexeme.scan text.toList) = false ∧
    Lexeme.glued (Lexeme.scan text.toList) = Lexeme.scan text.toList ∧
    (Lexeme.scan text.toList).map Lexeme.reread = Lexeme.scan text.toList := by
  obtain ⟨closers, hflat⟩ := Token.flat_ofChars h.faultless
  rw [unifyBreaks_eq h.unified] at hflat
  have hsourced := h.sourced
  rw [hflat] at hsourced
  have htext : text.toList =
      Lexeme.text (Lexeme.glued (Lexeme.scan text.toList)) ++ closers.map Bracket.closing := by
    rw [← Lexeme.text_glued_closers, ← hflat, ← Token.listWritten_eq _ h.sourced, h.listWritten_eq]
  have hfaultless : ∀ l ∈ Lexeme.scan text.toList, l.isFault = false := by
    have hany := Token.any_isFault_listFlat (Token.ofChars text.toList)
    rw [h.faultless, hflat, List.any_eq_false] at hany
    exact fun l hl => by simpa using hany l (List.mem_append_left _ hl)
  have hunified := h.unified
  generalize hls : Lexeme.scan text.toList = ls at *
  rw [htext] at hls hunified
  have hls' : Lexeme.scan (Lexeme.text (Lexeme.glued ls) ++ closers.map Bracket.closing) =
      ls ++ [] := by rw [List.append_nil, hls]
  obtain ⟨hstops, hglued, -⟩ := Lexeme.aligned_of_scan hsourced.left (boundary_closers closers)
    hunified (hls.symm ▸ hfaultless) hls'
  have hmisread := Lexeme.misread_of_scan hsourced.left (boundary_closers closers) hunified
    (hls.symm ▸ hfaultless) hls'
  -- a closing bracket behind what is scanned would be scanned too
  have hread := Lexeme.scan_text_glued hsourced.left hmisread hstops
  rw [hls, hglued] at hread
  have hclosers : closers = [] := by
    have hlength := congrArg List.length hread
    rw [List.length_append, List.length_map] at hlength
    cases closers with
    | nil => rfl
    | cons b bs =>
      rw [List.map_cons, Lexeme.scan_closing, List.length_cons] at hlength
      omega
  subst hclosers
  rw [List.map_nil, Lexeme.scan_nil, List.append_nil] at hread
  exact ⟨by rw [hflat, List.map_nil, List.append_nil], hmisread, hglued, hread.symm⟩

theorem settled : Token.Settled (Token.ofChars text.toList) := by
  obtain ⟨hscan, hmisread, -⟩ := h.aligned
  rw [hscan] at hmisread
  exact Token.settled_parse h.accepted h.faultless hmisread

/-- The tokens are read back as they are. -/
theorem listReread_eq :
    Token.listReread (Token.ofChars text.toList) = Token.ofChars text.toList := by
  obtain ⟨hscan, -, hglued, hreread⟩ := h.aligned
  have hflat := Token.listFlat_listReread (Token.ofChars text.toList)
  rw [← hscan, hglued, hreread, hscan] at hflat
  have hnest := congrArg (nest [] []) hflat
  rwa [Token.nest_listFlat_eq, Token.nest_listFlat_eq] at hnest

theorem reread_eq : ∀ l ∈ Token.listFlat (Token.ofChars text.toList), l.reread = l := by
  obtain ⟨hscan, -, -, hreread⟩ := h.aligned
  rw [← hscan]
  exact List.map_inj_left.mp (hreread.trans (List.map_id _).symm)

theorem backslash : ∀ t ∈ (Token.ofChars text.toList).getLast?, t.isLiteral ['\\'] = false :=
  Token.backslash_ofChars h.faultless

end ReadBack

/-! ## 3. Texts that are written -/

/-- What is written for tokens without faults is read back if it is read as what is expected. -/
theorem Token.readBack_of_ofChars {ts : List Token} (h : ofChars (listWritten ts) = listReread ts)
    (hf : listHasFault ts = false) (hshort : ∀ l ∈ listFlat ts, l.overlong? = none) :
    ReadBack (write ts) := by
  have htext : (write ts).toList = listWritten ts := String.toList_ofList ..
  have hfaultless : listHasFault (ofChars (listWritten ts)) = false := by
    rw [h]
    exact faultless_listReread hf
  refine ⟨checkIntegers_eq_ok.mpr fun l hl => ?_, htext ▸ hfaultless, ?_⟩
  · obtain ⟨closers, hflat⟩ := flat_ofChars hfaultless
    rw [h, ← htext] at hflat
    exact short_listReread hshort l (hflat ▸ List.mem_append_left _ hl)
  · rw [htext, h, write, listWritten_listReread, write]

namespace Token.Settled

variable {ts : List Token} (h : Settled ts) (hb : ∀ t ∈ ts.getLast?, t.isLiteral ['\\'] = false)
include h hb

theorem scan_listWritten : Lexeme.scan (listWritten ts) = listFlat (listReread ts) := by
  have hnil : Separates [] := fun c hc => nomatch hc
  have hlast := stopsAt_of_getLast? hb hnil fun c hc => nomatch hc
  have hscan := Lexeme.scan_text_glued h.sourced h.misread (h.stopsAll hlast hnil.boundary)
  rwa [← listWritten_eq ts h.sourced, ← listFlat_listReread, List.append_nil, Lexeme.scan_nil,
    List.append_nil] at hscan

/-- The text of settled tokens has the tokens that they are read back as. -/
theorem ofChars_listWritten : ofChars (listWritten ts) = listReread ts := by
  rw [ofChars, unifyBreaks_eq (unified_listWritten h.sourced), h.scan_listWritten hb,
    nest_listFlat_eq]

theorem readBack (hf : listHasFault ts = false) : ReadBack (write ts) :=
  readBack_of_ofChars (h.ofChars_listWritten hb) hf h.short

end Token.Settled

end CssExpand.Syntax
