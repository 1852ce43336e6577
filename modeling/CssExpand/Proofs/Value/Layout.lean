import CssExpand.Proofs.Units.IterationCounts
import CssExpand.Proofs.Value.Blanked
import Mathlib

/-!
# Comments that separate

A comment stands for a space where it has whitespace, a comma or an end of the value on one side of it:
the words are the same, and so are the words of every layer.

The invariant is how the tokens lie (`Layout`), the pieces between whitespace in rows between commas.
Tokens that are respaced lie as before (`Respaced.layout_eq`). A layer is written and read again before
its words are taken, so what its words are needs its pieces to be read alone (`words_listWritten`).
-/

set_option autoImplicit false

namespace CssExpand

open Syntax Value

namespace Value

/-! ## 1. Pieces in rows -/

/-- How tokens lie: the first piece of the first row, the other pieces of this row, and the other rows.
Only the first piece may be empty. Blanks and comments have no part in it, so that values which differ
in these lie alike. -/
structure Layout where
  piece : List Token
  row : List (List Token)
  rows : List (List (List Token))

namespace Layout

/-- The first row, where an empty first piece does not count. -/
def first (l : Layout) : List (List Token) := if l.piece.isEmpty then l.row else l.piece :: l.row

def all (l : Layout) : List (List (List Token)) := l.first :: l.rows

theorem first_of_piece {l : Layout} (h : l.piece = []) : l.first = l.row := by
  rw [first, h]
  rfl

/-- Without first pieces the layouts of the same rows are the same. -/
theorem eq_of_all {l k : Layout} (h : l.all = k.all) (hl : l.piece = []) (hk : k.piece = []) :
    l = k := by
  obtain ⟨hrow, hrows⟩ := List.cons.inj h
  rw [first_of_piece hl, first_of_piece hk] at hrow
  cases l
  cases k
  simp_all

end Layout

/-- The layout of tokens without comments, in rows between commas or in one row. -/
def layout (commas : Bool) : List Token → Layout
  | [] => ⟨[], [], []⟩
  | t :: ts =>
    let rest := layout commas ts
    if t.isWhitespace then ⟨[], rest.first, rest.rows⟩
    else if commas && t.isComma then ⟨[], [], rest.all⟩
    else ⟨t :: rest.piece, rest.row, rest.rows⟩

section Layout

variable {commas : Bool} {t : Token} {ts us : List Token}

theorem layout_whitespace (ht : t.isWhitespace = true) (ts : List Token) :
    layout commas (t :: ts) = ⟨[], (layout commas ts).first, (layout commas ts).rows⟩ := by
  rw [layout, if_pos ht]

theorem layout_comma (ht : t.isWhitespace = false) (hc : (commas && t.isComma) = true)
    (ts : List Token) : layout commas (t :: ts) = ⟨[], [], (layout commas ts).all⟩ := by
  rw [layout, ht, if_neg Bool.false_ne_true, if_pos hc]

theorem layout_word (ht : t.isWhitespace = false) (hc : (commas && t.isComma) = false)
    (ts : List Token) : layout commas (t :: ts) =
      ⟨t :: (layout commas ts).piece, (layout commas ts).row, (layout commas ts).rows⟩ := by
  rw [layout, ht, if_neg Bool.false_ne_true, hc, if_neg Bool.false_ne_true]

/-- Whitespace in front moves nothing but the first piece. -/
theorem all_layout_whitespace (ht : t.isWhitespace = true) (ts : List Token) :
    (layout commas (t :: ts)).all = (layout commas ts).all := by
  rw [layout_whitespace ht]
  rfl

theorem piece_layout_of_isBetween (ht : t.isBetween commas = true) (ts : List Token) :
    (layout commas (t :: ts)).piece = [] := by
  cases hw : t.isWhitespace with
  | true => rw [layout_whitespace hw]
  | false =>
    rw [Token.isBetween, hw, Bool.false_or] at ht
    rw [layout_comma hw ht]

/-- Behind a token that stands between words, only the rows matter. -/
theorem layout_cons_congr (hall : (layout commas us).all = (layout commas ts).all)
    (h : t.isBetween commas = false → layout commas us = layout commas ts) :
    layout commas (t :: us) = layout commas (t :: ts) := by
  obtain ⟨hfirst, hrows⟩ := List.cons.inj hall
  cases hw : t.isWhitespace with
  | true => rw [layout_whitespace hw, layout_whitespace hw, hfirst, hrows]
  | false =>
    cases hc : commas && t.isComma with
    | true => rw [layout_comma hw hc, layout_comma hw hc, hall]
    | false => rw [layout_word hw hc, layout_word hw hc, h (by rw [Token.isBetween, hw, hc]; rfl)]

/-- What stands between the whitespace of tokens, if it is not empty. -/
def rowPieces (ts : List Token) : List (List Token) :=
  (Token.splitAt Token.isWhitespace ts).filter (!·.isEmpty)

theorem rowPieces_of_gapless (h : ∀ t ∈ ts, t.isWhitespace = false) (hne : ts ≠ []) :
    rowPieces ts = [ts] := by
  rw [rowPieces, splitAt_eq_singleton h, List.filter_cons_of_pos (by simpa using hne)]
  rfl

theorem rowPieces_cons_whitespace (ht : t.isWhitespace = true) (ts : List Token) :
    rowPieces (t :: ts) = rowPieces ts := by
  rw [rowPieces, ← List.nil_append (t :: ts), splitAt_append (List.forall_mem_nil _) ht]
  rfl

theorem rowPieces_append (h : ∀ t ∈ us, t.isWhitespace = false) (hne : us ≠ [])
    (ht : t.isWhitespace = true) (ts : List Token) :
    rowPieces (us ++ t :: ts) = us :: rowPieces ts := by
  rw [rowPieces, splitAt_append h ht, List.filter_cons_of_pos (by simpa using hne)]
  rfl

/-- The rows of a layout are what splitting at commas and then at whitespace gives. -/
theorem all_layout (commas : Bool) (ts : List Token) :
    (layout commas ts).all =
      (Token.splitAt (fun t => commas && t.isComma) ts).map rowPieces := by
  -- The first piece and the first row may still grow at their front.
  have key : ∃ row rows piece pieces,
      Token.splitAt (fun t => commas && t.isComma) ts = row :: rows ∧
      Token.splitAt Token.isWhitespace row = piece :: pieces ∧
      layout commas ts = ⟨piece, pieces.filter (!·.isEmpty), rows.map rowPieces⟩ := by
    induction ts with
    | nil => exact ⟨[], [], [], [], rfl, rfl, rfl⟩
    | cons t ts ih =>
      obtain ⟨row, rows, piece, pieces, hrow, hpiece, hlayout⟩ := ih
      have hfirst : (layout commas ts).first = (piece :: pieces).filter (!·.isEmpty) := by
        rw [Layout.first, hlayout, List.filter_cons]
        cases piece <;> rfl
      cases hw : t.isWhitespace with
      | true =>
        -- Whitespace ends the piece, but not the row.
        have hc : t.isComma = false := by
          cases t with
          | atom a => cases a <;> first | rfl | cases hw
          | _ => cases hw
        refine ⟨t :: row, rows, [], piece :: pieces, ?_, ?_, ?_⟩
        · simp [Token.splitAt, hrow, hc]
        · simp [Token.splitAt, hpiece, hw]
        · rw [layout_whitespace hw, hfirst, hlayout]
      | false =>
        cases hc : commas && t.isComma with
        | true =>
          refine ⟨[], row :: rows, [], [], ?_, rfl, ?_⟩
          · simp only [Token.splitAt, hrow, hc, if_true]
          · rw [layout_comma hw hc, Layout.all, hfirst, ← hpiece, hlayout]
            rfl
        | false =>
          refine ⟨t :: row, rows, t :: piece, pieces, ?_, ?_, ?_⟩
          · simp [Token.splitAt, hrow, hc]
          · simp [Token.splitAt, hpiece, hw]
          · rw [layout_word hw hc, hlayout]
  obtain ⟨row, rows, piece, pieces, hrow, hpiece, hlayout⟩ := key
  rw [hrow, List.map_cons, rowPieces, hpiece, Layout.all, Layout.first, hlayout, List.filter_cons]
  cases piece <;> rfl

end Layout

end Value

/-! ## 2. Respaced tokens -/

section Respaced

variable {commas apart gap : Bool} {ts us : List Token}

theorem isBetween_withoutComments (commas : Bool) (t : Token) :
    t.withoutComments.isBetween commas = t.isBetween commas := by
  rw [Token.isBetween, Token.isBetween, isWhitespace_withoutComments, Token.isComma,
    Token.isLiteral_withoutComments, ← Token.isComma]

/-- If whitespace or a separator comes first once the comments are gone, no piece has begun. -/
theorem piece_layout_of_startsApart (h : Token.startsApart commas ts = true) :
    (layout commas (Token.listWithoutComments ts)).piece = [] := by
  induction ts with
  | nil => rfl
  | cons t ts ih =>
    rw [Token.startsApart] at h
    cases ht : t.isComment with
    | true =>
      obtain ⟨text, rfl⟩ := Token.flat_of_isComment ht
      exact ih h
    | false =>
      rw [ht, if_neg Bool.false_ne_true] at h
      rw [listWithoutComments_of_not_isComment ht]
      exact piece_layout_of_isBetween ((isBetween_withoutComments commas t).trans h) _

/-- More whitespace in front is the first token. -/
theorem Respaced.exists_whitespace (h : Respaced true ts us) :
    ∃ w vs, us = .atom (.whitespace w) :: vs := by
  generalize hgap : true = gap at h
  induction h with
  | nil => cases hgap
  | blank _ _ ih => exact ih rfl
  | space w _ => exact ⟨w, _, rfl⟩
  | token _ _ => cases hgap
  | taken _ _ _ => cases hgap

theorem Respaced.piece_layout (h : Respaced true ts us) :
    (layout commas (Token.listWithoutComments us)).piece = [] := by
  obtain ⟨w, vs, rfl⟩ := h.exists_whitespace
  exact piece_layout_of_isBetween rfl _

/-- Respaced tokens lie as before, if the comments stand apart. A first piece may be cut off them only
behind something that stands between words. -/
theorem Respaced.layout_eq (h : Respaced gap ts us)
    (ha : Token.commentsApart commas apart ts = true) :
    (layout commas (Token.listWithoutComments us)).all =
        (layout commas (Token.listWithoutComments ts)).all ∧
      (gap = false → apart = false → layout commas (Token.listWithoutComments us) =
        layout commas (Token.listWithoutComments ts)) := by
  induction h generalizing apart with
  | nil => exact ⟨rfl, fun _ _ => rfl⟩
  | @blank gap t ts us hblank rest ih =>
    cases hc : t.isComment with
    | true =>
      obtain ⟨text, rfl⟩ := Token.flat_of_isComment hc
      obtain ⟨hside, hlater⟩ := Token.commentsApart_comment ha
      have hall := (ih hlater).1
      refine ⟨hall, fun _ hapart => Layout.eq_of_all hall rest.piece_layout ?_⟩
      rw [hapart, Bool.false_or] at hside
      exact piece_layout_of_startsApart hside
    | false =>
      have hw : t.isWhitespace = true := by
        simpa [Token.isSignificant, hc] using hblank
      rw [Token.commentsApart, hc, if_neg Bool.false_ne_true] at ha
      have hw' := (isWhitespace_withoutComments t).trans hw
      rw [listWithoutComments_of_not_isComment hc]
      have hall := (ih ha).1.trans (all_layout_whitespace hw' _).symm
      refine ⟨hall, fun _ _ => Layout.eq_of_all hall rest.piece_layout ?_⟩
      exact piece_layout_of_isBetween (by rw [Token.isBetween, hw']; rfl) _
  | space w rest ih =>
    -- The space may part the first piece from what stands in front, so that only all rows agree.
    refine ⟨?_, fun h => absurd h.symm Bool.false_ne_true⟩
    rw [listWithoutComments_of_not_isComment rfl, all_layout_whitespace rfl]
    exact (ih ha).1
  | @token t ts us hsig rest ih =>
    have hlater := Token.commentsApart_of_isSignificant hsig ha
    have heq : layout commas (Token.listWithoutComments (t :: us)) =
        layout commas (Token.listWithoutComments (t :: ts)) := by
      rw [listWithoutComments_of_not_isComment (not_isComment hsig),
        listWithoutComments_of_not_isComment (not_isComment hsig)]
      exact layout_cons_congr (ih hlater).1 fun hb =>
        (ih hlater).2 rfl ((isBetween_withoutComments commas t).symm.trans hb)
    exact ⟨by rw [heq], fun _ _ => heq⟩
  | @taken t ts us hsig text rest ih =>
    have hlater := (Token.commentsApart_comment (Token.commentsApart_of_isSignificant hsig ha)).2
    have heq : layout commas (Token.listWithoutComments (t :: us)) =
        layout commas (Token.listWithoutComments (t :: .atom (.comment text) :: ts)) := by
      rw [listWithoutComments_of_not_isComment (not_isComment hsig),
        listWithoutComments_of_not_isComment (not_isComment hsig), listWithoutComments_of_isComment rfl]
      exact layout_cons_congr (ih hlater).1 fun hb =>
        (ih hlater).2 rfl ((isBetween_withoutComments commas t).symm.trans hb)
    exact ⟨by rw [heq], fun _ _ => heq⟩

end Respaced

namespace Value

/-! ## 3. Layers -/

/-- Tokens hold no whitespace, or there is a first one that is whitespace. -/
theorem cases_whitespace (ts : List Token) : (∀ t ∈ ts, t.isWhitespace = false) ∨
    ∃ piece w us, ts = piece ++ .atom (.whitespace w) :: us ∧
      ∀ t ∈ piece, t.isWhitespace = false := by
  induction ts with
  | nil => exact .inl (List.forall_mem_nil _)
  | cons t ts ih =>
    cases ht : t.isWhitespace with
    | true =>
      cases t with
      | atom a =>
        cases a with
        | whitespace w => exact .inr ⟨[], w, ts, rfl, List.forall_mem_nil _⟩
        | _ => cases ht
      | _ => cases ht
    | false =>
      rcases ih with h | ⟨piece, w, us, rfl, h⟩
      · exact .inl (List.forall_mem_cons.mpr ⟨ht, h⟩)
      · exact .inr ⟨t :: piece, w, us, rfl, List.forall_mem_cons.mpr ⟨ht, h⟩⟩

theorem isBlank_of_isWhitespace {c : Char} (h : Syntax.isWhitespace c = true) :
    Text.isBlank c = true := by
  by_contra hc
  rw [isWhitespace_of_not_isBlank (Bool.eq_false_iff.mpr hc)] at h
  cases h

/-- What is written for pieces that are read alone is a row of them, with whitespace around it. -/
theorem exists_row_of_pieces {ts : List Token}
    (hgap : ∀ w, .atom (.whitespace w) ∈ ts → IsGap w)
    (hs : ∀ piece ∈ rowPieces ts, isSteady piece = true ∧ ∃ us, Alone (Token.listWritten piece) us) :
    ∃ front x back, Token.listWritten ts = front ++ x ++ back ∧
      (∀ c ∈ front, Syntax.isWhitespace c = true) ∧ (∀ c ∈ back, Syntax.isWhitespace c = true) ∧
      (x = [] ∧ rowPieces ts = [] ∨ ∃ us, Row x us ((rowPieces ts).map Token.write)) := by
  induction hlen : ts.length using Nat.strong_induction_on generalizing ts with
  | _ n ih =>
    rcases cases_whitespace ts with hnone | ⟨piece, w, us, rfl, hnone⟩
    · cases ts with
      | nil => exact ⟨[], [], [], rfl, nofun, nofun, .inl ⟨rfl, rfl⟩⟩
      | cons t ts =>
        rw [rowPieces_of_gapless hnone (List.cons_ne_nil t ts)] at hs ⊢
        obtain ⟨us, halone⟩ := (hs _ List.mem_cons_self).2
        exact ⟨[], _, [], by simp, nofun, nofun, .inr ⟨us, .single halone⟩⟩
    · have hw := hgap w (by simp)
      have hlater := ih us.length (by rw [← hlen]; simp; omega)
        (fun v hv => hgap v (List.mem_append_right _ (List.mem_cons_of_mem _ hv)))
      cases piece with
      | nil =>
        rw [List.nil_append, rowPieces_cons_whitespace rfl] at hs ⊢
        obtain ⟨front, x, back, hwritten, hfront, hback, hrow⟩ := hlater hs rfl
        refine ⟨w ++ front, x, back, ?_, List.forall_mem_append.mpr ⟨hw.2, hfront⟩, hback, hrow⟩
        rw [Token.listWritten_whitespace_cons, hwritten, List.append_assoc, List.append_assoc,
          List.append_assoc]
      | cons t piece =>
        rw [rowPieces_append hnone (List.cons_ne_nil t piece) rfl, List.forall_mem_cons] at hs
        rw [rowPieces_append hnone (List.cons_ne_nil t piece) rfl]
        obtain ⟨⟨hsteady, vs, halone⟩, hs⟩ := hs
        obtain ⟨front, x, back, hwritten, hfront, hback, hrow⟩ := hlater hs rfl
        have hgap' : IsGap (w ++ front) := ⟨List.append_ne_nil_of_left_ne_nil hw.1 _,
          List.forall_mem_append.mpr ⟨hw.2, hfront⟩⟩
        -- The writer puts something in front of whitespace only behind a backslash.
        have hglue : ∀ u ∈ (t :: piece).getLast?,
            u.glueBefore (.atom (.whitespace w) :: us) = [] := by
          intro u hu
          simp only [isSteady, Bool.and_eq_true] at hsteady
          have hback : u.isLiteral ['\\'] = false := by simpa [Option.mem_def.mp hu] using hsteady.2
          exact @glueBefore_whitespace u hback [.atom (.whitespace w)] (by simp [Token.isWhitespace])
        have htext : Token.listWritten (t :: piece ++ .atom (.whitespace w) :: us) =
            Token.listWritten (t :: piece) ++ (w ++ front ++ (x ++ back)) := by
          rw [listWritten_append hglue, Token.listWritten_whitespace_cons, hwritten,
            List.append_assoc, List.append_assoc]
        rw [htext]
        rcases hrow with ⟨rfl, hempty⟩ | ⟨us', hrow⟩
        · rw [hempty]
          exact ⟨[], _, w ++ front ++ back, by simp, nofun,
            List.forall_mem_append.mpr ⟨hgap'.2, hback⟩, .inr ⟨vs, .single halone⟩⟩
        · exact ⟨[], _, back, by simp, nofun, hback, .inr ⟨_, .cons halone hgap' hrow⟩⟩

theorem Row.trim_eq {x : List Char} {ts : List Token} {ws : List String} (h : Row x ts ws) :
    Text.trim x = x := by
  refine trim_eq_self (fun c hc => ?_) ?_
  · obtain ⟨d, r, rfl, hd⟩ := h.head
    obtain rfl := Option.some.inj hc
    exact hd
  · induction h with
    | single h => exact (ends_of_trim h.trimmed).2
    | cons h gap rest ih =>
      obtain ⟨c, r, rfl, -⟩ := rest.head
      rw [List.getLast?_append_of_ne_nil _ (by simp), List.getLast?_append_of_ne_nil _ (by simp)]
      exact ih

/-- The words of a layer are its pieces, if they are read alone. -/
theorem words_listWritten {ts : List Token} (hgap : ∀ w, .atom (.whitespace w) ∈ ts → IsGap w)
    (hs : ∀ piece ∈ rowPieces ts, isSteady piece = true ∧ ∃ us, Alone (Token.listWritten piece) us) :
    checkIntegers (String.ofList (Text.trim (Token.listWritten ts))) = .ok () ∧
      words (String.ofList (Text.trim (Token.listWritten ts))) = (rowPieces ts).map Token.write := by
  obtain ⟨front, x, back, hwritten, hfront, hback, hrow⟩ := exists_row_of_pieces hgap hs
  have htrim : Text.trim x = x → Text.trim (Token.listWritten ts) = x := fun h => by
    rw [hwritten, trim_append_blanks (fun c hc => isBlank_of_isWhitespace (hfront c hc))
      (fun c hc => isBlank_of_isWhitespace (hback c hc)) h]
  rcases hrow with ⟨rfl, hempty⟩ | ⟨us, hrow⟩
  · rw [htrim rfl, hempty]
    exact ⟨by cbv, by cbv⟩
  · rw [htrim hrow.trim_eq]
    exact ⟨hrow.accepted, hrow.words_eq⟩

/-! ## 4. Blank texts -/

/-- Line breaks are blank in each of their spellings. -/
theorem isBlank_unifyBreaks {cs : List Char} (h : ∀ c ∈ cs, Text.isBlank c = true) :
    ∀ c ∈ unifyBreaks cs, Text.isBlank c = true := by
  fun_induction unifyBreaks cs with
  | case1 => exact h
  | case2 rest ih =>
    rw [List.forall_mem_cons, List.forall_mem_cons] at h
    exact List.forall_mem_cons.mpr ⟨by decide, ih h.2.2⟩
  | case3 c rest _ ih =>
    rw [List.forall_mem_cons] at h
    refine List.forall_mem_cons.mpr ⟨?_, ih h.2⟩
    split_ifs with h0
    · rw [h0] at h
      exact absurd h.1 (by decide)
    · decide
    · exact h.1

/-- A step in a blank text finds whitespace, a name or a literal. It is written with the blank that
it starts with. -/
theorem scan_blank {c : Char} {cs : List Char} (hc : Text.isBlank c = true)
    (h : ∀ d ∈ cs, Text.isBlank d = true) : ∃ a r rest, rest <:+ cs ∧ a.written = c :: r ∧
      Lexeme.scan (c :: cs) = .atom a :: Lexeme.scan rest := by
  -- No symbol that means anything to the scanner is blank.
  have hblank : ∀ d ∈ ['"', '\'', '(', ')', '[', ']', '\x7b', '\x7d', '#', '@', '-', '+', '.', '/',
      '<', '|', '~', '^', '$', '*', '\\', 'u', 'U'], Text.isBlank d = false := by simp [Text.isBlank]
  have hsymbol := fun hmem => Bool.eq_false_iff.mp (hblank c hmem) hc
  simp only [List.mem_cons, List.not_mem_nil, or_false, imp_false, not_or] at hsymbol
  cases hw : Syntax.isWhitespace c with
  | true => exact ⟨_, _, _, List.dropWhile_suffix _, rfl, scan_of_next (next_whitespace hw)⟩
  | false =>
    cases hname : isNameStart c with
    | true =>
      have hstart : startsIdent (c :: cs) = true := by simp [startsIdent, hsymbol, hname]
      have htake : takeName (c :: cs) = _ := takeName_char (isNameChar_of_isNameStart hname)
      have hround : ∀ rest, (takeName cs).2 ≠ '(' :: rest := by
        intro rest hrest
        have hmem := (takeName_suffix cs).subset (hrest ▸ List.mem_cons_self)
        exact absurd (h _ hmem) (by decide)
      have hnext : next c cs = ([.atom (.ident (c :: (takeName cs).1))], (takeName cs).2) := by
        rw [next_name hstart (by simp [hsymbol]) (by simp [hsymbol]), nameLexemes, htake]
        split
        · next heq => exact absurd heq (hround _)
        · rfl
      refine ⟨_, nameWritten (takeName cs).1, _, takeName_suffix cs, ?_, scan_of_next hnext⟩
      rw [Atom.written, identWritten, identStartWritten, if_pos hname]
      · rfl
      all_goals
        intros
        simp_all
    | false =>
      have hdigit : c.isDigit = false := by
        refine Bool.eq_false_iff.mpr fun hd => ?_
        rw [Text.not_isBlank_of_isDigit hd] at hc
        cases hc
      refine ⟨_, [], cs, List.suffix_refl _, rfl, scan_literal ?_ ?_⟩
      · simp [isLiteralChar, hw, hname, hdigit, hsymbol]
      · constructor <;> simp [hsymbol]

/-- Blanks are more than whitespace: some are read as names or as literals, but each lexeme of them
still starts with a blank. -/
theorem isBlank_of_mem_scan {cs : List Char} (h : ∀ c ∈ cs, Text.isBlank c = true) {l : Lexeme}
    (hl : l ∈ Lexeme.scan cs) :
    ∃ a c r, l = .atom a ∧ a.written = c :: r ∧ Text.isBlank c = true := by
  induction hlen : cs.length using Nat.strong_induction_on generalizing cs with
  | _ n ih =>
    cases cs with
    | nil =>
      rw [Lexeme.scan_nil] at hl
      cases hl
    | cons c cs =>
      rw [List.forall_mem_cons] at h
      obtain ⟨a, r, rest, hrest, hwritten, hscan⟩ := scan_blank h.1 h.2
      rw [hscan, List.mem_cons] at hl
      rcases hl with rfl | hl
      · exact ⟨a, c, r, rfl, hwritten, h.1⟩
      · refine ih rest.length ?_ (fun d hd => h.2 d (hrest.subset hd)) hl rfl
        rw [← hlen]
        exact Nat.lt_succ_of_le hrest.length_le

/-! ## 5. Layers and words of a value -/

/-- Pieces of a layout that are read as written. -/
def ReadAlone (ts : List Token) : Prop := ∀ row ∈ (layout true ts).all, ∀ piece ∈ row,
  isSteady piece = true ∧ ∃ us, Alone (Token.listWritten piece) us

theorem all_layout_commas (ts : List Token) :
    (layout true ts).all = (Token.splitAt Token.isComma ts).map rowPieces := all_layout true ts

theorem all_layout_words (ts : List Token) : (layout false ts).all = [rowPieces ts] := by
  rw [all_layout, @splitAt_eq_singleton (fun t => false && t.isComma) _ fun _ _ => rfl,
    List.map_singleton]

theorem words_eq_rowPieces (value : String) : words value =
    ((rowPieces (tokens value)).map fun piece =>
      String.ofList (Text.trim (Token.listWritten piece))).filter (!·.isEmpty) := by
  rw [words, pieces, rowPieces]
  induction Token.splitAt Token.isWhitespace (tokens value) with
  | nil => rfl
  | cons piece pieces ih =>
    cases piece with
    | nil => exact ih
    | cons t piece => rw [List.filter_cons_of_pos (by simp), List.map_cons, List.map_cons,
        List.filter_cons, List.filter_cons, ih]

/-- A value with whitespace alone has no words. -/
theorem words_of_all_layout {value : String} (h : (layout true (tokens value)).all = [[]]) :
    words value = [] := by
  have hblank : ∀ ts, (layout true ts).all = [[]] → ∀ t ∈ ts, t.isWhitespace = true := by
    intro ts
    induction ts with
    | nil => exact fun _ t ht => nomatch ht
    | cons t ts ih =>
      intro hall
      cases hw : t.isWhitespace with
      | true =>
        rw [all_layout_whitespace hw] at hall
        exact List.forall_mem_cons.mpr ⟨hw, ih hall⟩
      | false =>
        cases hc : true && t.isComma with
        | true =>
          rw [layout_comma hw hc, Layout.all] at hall
          cases hall
        | false =>
          rw [layout_word hw hc, Layout.all, Layout.first] at hall
          cases hall
  have hrow : rowPieces (tokens value) = [] := by
    have hall := hblank _ h
    generalize tokens value = ts at hall
    induction ts with
    | nil => rfl
    | cons t ts ih =>
      rw [List.forall_mem_cons] at hall
      rw [rowPieces_cons_whitespace hall.1]
      exact ih hall.2
  rw [words_eq_rowPieces, hrow]
  rfl

section Value

variable {value : String} (hf : Token.listHasFault (Token.ofChars value.toList) = false)
include hf

theorem isGap_of_mem_tokens {w : List Char} (h : .atom (.whitespace w) ∈ tokens value) :
    IsGap w := by
  have hmem : .atom (.whitespace w) ∈ Token.listFlat (tokens value) :=
    Token.mem_listFlat h List.mem_cons_self
  exact wellFormed_of_mem (Token.sourced_ofChars hf) _ (Token.mem_listFlat_listWithoutComments hmem)

/-- A blank value has neither commas nor pieces that are read alone. -/
theorem all_layout_of_isBlankText (hb : Text.isBlankText value = true)
    (hs : ReadAlone (tokens value)) : (layout true (tokens value)).all = [[]] := by
  -- Each token starts with a blank when it is written.
  have hstart : ∀ t ∈ tokens value, ∃ c r, t.written = c :: r ∧ Text.isBlank c = true := by
    intro t ht
    obtain ⟨l, ls, hl, -⟩ := t.head?_flat
    have hmem : l ∈ Token.listFlat (Token.ofChars value.toList) :=
      Token.mem_listFlat_listWithoutComments (Token.mem_listFlat ht (hl ▸ List.mem_cons_self))
    obtain ⟨closers, hflat⟩ := Token.flat_ofChars hf
    rw [hflat, List.mem_append] at hmem
    rcases hmem with hmem | hmem
    · obtain ⟨a, c, r, rfl, hwritten, hc⟩ := isBlank_of_mem_scan
        (isBlank_unifyBreaks (List.all_eq_true.mp hb)) hmem
      cases t with
      | atom b =>
        obtain rfl := Lexeme.atom.inj (List.cons.inj hl).1
        exact ⟨c, r, hwritten, hc⟩
      | _ => cases hl
    · obtain ⟨b, -, rfl⟩ := List.mem_map.mp hmem
      cases t <;> cases hl
  have hcomma : ∀ t ∈ tokens value, t.isComma = false := by
    intro t ht
    obtain ⟨c, r, hwritten, hc⟩ := hstart t ht
    refine Bool.eq_false_iff.mpr fun hcomma => ?_
    rw [Token.eq_of_isComma hcomma] at hwritten
    rw [← (List.cons.inj hwritten).1] at hc
    exact absurd hc (by decide)
  rw [all_layout_commas, splitAt_eq_singleton hcomma, List.map_singleton]
  congr
  rw [List.eq_nil_iff_forall_not_mem]
  intro piece hpiece
  have hall : rowPieces (tokens value) ∈ (layout true (tokens value)).all := by
    rw [all_layout_commas, splitAt_eq_singleton hcomma]
    exact List.mem_cons_self
  obtain ⟨-, us, halone⟩ := hs _ hall piece hpiece
  obtain ⟨hmem, hne⟩ := List.mem_filter.mp hpiece
  cases piece with
  | nil => cases hne
  | cons t piece =>
    obtain ⟨c, r, hwritten, hc⟩ := hstart t ((of_mem_splitAt hmem).1.subset List.mem_cons_self)
    obtain ⟨d, r', hd, hblank⟩ := halone.head
    rw [Token.listWritten, hwritten] at hd
    rw [(List.cons.inj hd).1, hblank] at hc
    cases hc

/-- The words of the layers of a value that is not blank are its pieces, row by row. -/
theorem map_words_layers (hb : Text.isBlankText value = false) (hs : ReadAlone (tokens value)) :
    (∀ layer ∈ layers value, checkIntegers layer = .ok ()) ∧
      (layers value).map words = (layout true (tokens value)).all.map (·.map Token.write) := by
  have hlayer : ∀ ts ∈ Token.splitAt Token.isComma (tokens value), _ := fun ts hts =>
    words_listWritten (fun w hw => isGap_of_mem_tokens hf ((of_mem_splitAt hts).1.subset hw))
      (fun piece hpiece => hs (rowPieces ts)
        (all_layout_commas _ ▸ List.mem_map_of_mem hts) piece hpiece)
  rw [layers, hb, if_neg Bool.false_ne_true, pieces, List.forall_mem_map, List.map_map,
    all_layout_commas, List.map_map]
  exact ⟨fun ts hts => (hlayer ts hts).1, List.map_congr_left fun ts hts => (hlayer ts hts).2⟩

end Value

end Value

/-! ## 6. Spaces in place of comments -/

namespace Syntax.Token

variable {commas apart apart' : Bool} {ts : List Token}

theorem isBetween_commas {t : Token} (h : t.isBetween commas = true) : t.isBetween true = true := by
  rw [isBetween, Bool.or_eq_true, Bool.and_eq_true] at h ⊢
  exact h.imp_right fun hc => ⟨rfl, hc.2⟩

theorem startsApart_commas (h : startsApart commas ts = true) : startsApart true ts = true := by
  induction ts with
  | nil => rfl
  | cons t ts ih =>
    rw [startsApart] at h ⊢
    split_ifs at h ⊢ with ht
    · exact ih h
    · exact isBetween_commas h

/-- Comments that stand apart still do where more counts as apart. -/
theorem commentsApart_commas (h : commentsApart commas apart ts = true)
    (ha : apart = true → apart' = true) : commentsApart true apart' ts = true := by
  induction ts generalizing apart apart' with
  | nil => rfl
  | cons t ts ih =>
    rw [commentsApart] at h ⊢
    split_ifs at h ⊢ with ht
    · rw [Bool.and_eq_true, Bool.or_eq_true] at h ⊢
      exact ⟨h.1.imp ha startsApart_commas, ih h.2 ha⟩
    · exact ih h isBetween_commas

end Syntax.Token

/-- Other blanks bring no lexemes but whitespace. -/
theorem Respaced.mem_listFlat {gap : Bool} {ts us : List Token} (h : Respaced gap ts us)
    {l : Lexeme} (hl : l ∈ Token.listFlat us) :
    l ∈ Token.listFlat ts ∨ ∃ w, l = .atom (.whitespace w) := by
  induction h with
  | nil => exact .inl hl
  | blank _ _ ih => exact (ih hl).imp_left (List.mem_append_right _)
  | space w _ ih =>
    rw [Token.listFlat, List.mem_append] at hl
    rcases hl with hl | hl
    · exact .inr ⟨w, List.mem_singleton.mp hl⟩
    · exact ih hl
  | token _ _ ih =>
    rw [Token.listFlat, List.mem_append] at hl
    rcases hl with hl | hl
    · exact .inl (List.mem_append_left _ hl)
    · exact (ih hl).imp_left (List.mem_append_right _)
  | taken _ _ _ ih =>
    rw [Token.listFlat, List.mem_append] at hl
    rcases hl with hl | hl
    · exact .inl (List.mem_append_left _ hl)
    · exact (ih hl).imp_left fun hl => List.mem_append_right _ (List.mem_append_right _ hl)

/-- Layers are classified by their words. -/
theorem Shorthand.layerSlots?_congr {s : Shorthand} {value value' : String}
    (h : (s.layersOf value).map words = (s.layersOf value').map words) :
    s.layerSlots? value = s.layerSlots? value' := by
  have hlayers : ∀ {ls ls' : List String}, ls.map words = ls'.map words →
      ls.mapM s.slotsOfLayer? = ls'.mapM s.slotsOfLayer? := by
    intro ls ls' h
    induction ls generalizing ls' with
    | nil => rw [List.map_eq_nil_iff.mp h.symm]
    | cons l ls ih =>
      obtain ⟨l', ls', rfl, hl, hls⟩ := List.map_eq_cons_iff.mp h.symm
      rw [List.mapM_cons, List.mapM_cons, slotsOfLayer?, ← hl, ← slotsOfLayer?, ih hls.symm]
  have hall := hlayers h
  rw [layerSlots?, layerSlots?]
  cases hl : s.layersOf value with
  | nil =>
    rw [hl] at h
    rw [List.map_eq_nil_iff.mp h.symm]
  | cons l ls =>
    rw [hl] at h hall
    obtain ⟨l', ls', hl', -, -⟩ := List.map_eq_cons_iff.mp h.symm
    rw [hl'] at hall ⊢
    exact hall

namespace Value

section Blanks

variable {value blanked : String} {commas : Bool} (hi : checkIntegers value = .ok ())
  (hf : Token.listHasFault (Token.ofChars value.toList) = false) (hb : Blanks value blanked)
  (ha : Token.commentsApart commas true (Token.ofChars value.toList) = true)
include hf hb ha

theorem respaced_of_blanks :
    Respaced false (Token.ofChars value.toList) (Token.ofChars blanked.toList) := by
  rw [Token.ofChars, Token.ofChars, hb]
  refine (follows_of_commentsApart (unified_unifyBreaks _) (fun l hl => ?_) ha).1
  obtain ⟨closers, hflat⟩ := Token.flat_ofChars hf
  rw [← Token.any_isFault_listFlat, hflat, List.any_eq_false] at hf
  simpa using hf l (List.mem_append_left _ hl)

theorem faultless_of_blanks : Token.listHasFault (Token.ofChars blanked.toList) = false := by
  have hrespaced := respaced_of_blanks hf hb ha
  rw [← Token.any_isFault_listFlat, List.any_eq_false] at hf ⊢
  intro l hl
  rcases hrespaced.mem_listFlat hl with hl | ⟨w, rfl⟩
  · exact hf l hl
  · exact Bool.false_ne_true

include hi in
/-- So they bring no overlong number either. -/
theorem accepted_of_blanks : checkIntegers blanked = .ok () := by
  rw [Token.checkIntegers_eq_ok] at hi ⊢
  intro l hl
  obtain ⟨closers, hflat⟩ := Token.flat_ofChars hf
  obtain ⟨closers', hflat'⟩ := Token.flat_ofChars (faultless_of_blanks hf hb ha)
  have hmem : l ∈ Token.listFlat (Token.ofChars blanked.toList) :=
    hflat' ▸ List.mem_append_left _ hl
  rcases (respaced_of_blanks hf hb ha).mem_listFlat hmem with hmem | ⟨w, rfl⟩
  · rw [hflat, List.mem_append] at hmem
    rcases hmem with hmem | hmem
    · exact hi l hmem
    · obtain ⟨b, -, rfl⟩ := List.mem_map.mp hmem
      rfl
  · rfl

theorem all_layout_of_blanks :
    (layout commas (tokens blanked)).all = (layout commas (tokens value)).all :=
  ((respaced_of_blanks hf hb ha).layout_eq ha).1

end Blanks

section Separated

variable {value blanked : String} (hi : checkIntegers value = .ok ())
  (hf : Token.listHasFault (Token.ofChars value.toList) = false) (hb : Blanks value blanked)
include hi hf

theorem readAlone_of_isSteady (hs : ∀ layer ∈ Token.splitAt Token.isComma (tokens value),
      ∀ piece ∈ Token.splitAt Token.isWhitespace layer, isSteady piece = true) :
    ReadAlone (tokens value) := by
  intro row hrow piece hpiece
  rw [all_layout_commas, List.mem_map] at hrow
  obtain ⟨layer, hlayer, rfl⟩ := hrow
  obtain ⟨hmem, hne⟩ := List.mem_filter.mp hpiece
  have hsteady := hs layer hlayer piece hmem
  exact ⟨hsteady, exists_alone hi hf ((of_mem_splitAt hmem).1.trans (of_mem_splitAt hlayer).1)
    (of_mem_splitAt hmem).2 hsteady (by simpa using hne)⟩

include hb in
/-- A comment separates words as a space does, where whitespace, a comma or an end of the value is on
one side of it, other comments aside. Then the value with spaces for its comments outside all brackets
is accepted and has the same words, or at least, where commas count, layers with the same words, if
what stands between whitespace and commas is steady. So shorthands are classified as before.

A comment with words on both sides is another matter. It separates tokens and is no whitespace, so what
stands around it stays one word, and with a space in its place it would be two. -/
theorem words_of_blanks {commas : Bool}
    (ha : Token.commentsApart commas true (Token.ofChars value.toList) = true) :
    checkIntegers blanked = .ok () ∧ Token.listHasFault (Token.ofChars blanked.toList) = false ∧
      (commas = false → words blanked = words value ∧
        ∀ s : Shorthand, s.layered = false → s.layerSlots? blanked = s.layerSlots? value) ∧
      (words value ≠ [] →
        (∀ layer ∈ Token.splitAt Token.isComma (tokens value),
          ∀ piece ∈ Token.splitAt Token.isWhitespace layer, isSteady piece = true) →
        (∀ layer ∈ layers value ++ layers blanked, checkIntegers layer = .ok ()) ∧
          (layers blanked).map words = (layers value).map words ∧
          ∀ s : Shorthand, s.layered = true → s.layerSlots? blanked = s.layerSlots? value) := by
  have hcommas := Token.commentsApart_commas ha id
  have hfaultless := faultless_of_blanks hf hb ha
  refine ⟨accepted_of_blanks hi hf hb ha, hfaultless, ?_, fun hwords hs => ?_⟩
  · rintro rfl
    have hall := all_layout_of_blanks hf hb ha
    rw [all_layout_words, all_layout_words, List.cons.injEq] at hall
    have hwords : words blanked = words value := by
      rw [words_eq_rowPieces, words_eq_rowPieces, hall.1]
    refine ⟨hwords, fun s hs => Shorthand.layerSlots?_congr ?_⟩
    rw [Shorthand.layersOf, Shorthand.layersOf, hs, if_neg Bool.false_ne_true,
      if_neg Bool.false_ne_true, List.map_singleton, List.map_singleton, hwords]
  · have hall := all_layout_of_blanks hf hb hcommas
    have hread := readAlone_of_isSteady hi hf hs
    have hread' : ReadAlone (tokens blanked) := by
      rw [ReadAlone, hall]
      exact hread
    -- A blank value has no layers. Both values have words, so that neither is blank.
    have hrows : (layout true (tokens value)).all ≠ [[]] := fun h => hwords (words_of_all_layout h)
    have hblank : Text.isBlankText value = false :=
      Bool.eq_false_iff.mpr fun h => hrows (all_layout_of_isBlankText hf h hread)
    have hblank' : Text.isBlankText blanked = false :=
      Bool.eq_false_iff.mpr fun h =>
        hrows (hall ▸ all_layout_of_isBlankText hfaultless h hread')
    obtain ⟨hok, hvalue⟩ := map_words_layers hf hblank hread
    obtain ⟨hok', hblanked⟩ := map_words_layers hfaultless hblank' hread'
    have hlayers : (layers blanked).map words = (layers value).map words := by
      rw [hblanked, hvalue, hall]
    refine ⟨List.forall_mem_append.mpr ⟨hok, hok'⟩, hlayers,
      fun s hs => Shorthand.layerSlots?_congr ?_⟩
    rw [Shorthand.layersOf, Shorthand.layersOf, if_pos hs, if_pos hs, hlayers]

end Separated

/-- Comments behind a word, behind whitespace and inside brackets. -/
theorem words_of_blanks_twoLayers :
    Blanks "1px/*a*/ 2px, /*b*/rgb(0/*c*/0)" "1px  2px,  rgb(0/*c*/0)" ∧
      words "1px  2px,  rgb(0/*c*/0)" = words "1px/*a*/ 2px, /*b*/rgb(0/*c*/0)" ∧
      (layers "1px  2px,  rgb(0/*c*/0)").map words =
        (layers "1px/*a*/ 2px, /*b*/rgb(0/*c*/0)").map words ∧
      Shorthand.transition.layerSlots? "1px  2px,  rgb(0/*c*/0)" =
        Shorthand.transition.layerSlots? "1px/*a*/ 2px, /*b*/rgb(0/*c*/0)" := by
  have hb : Blanks "1px/*a*/ 2px, /*b*/rgb(0/*c*/0)" "1px  2px,  rgb(0/*c*/0)" := by
    rw [Blanks]
    cbv
  have hs : ((Token.splitAt Token.isComma (tokens "1px/*a*/ 2px, /*b*/rgb(0/*c*/0)")).all fun layer =>
      (Token.splitAt Token.isWhitespace layer).all isSteady) = true := by cbv
  simp only [List.all_eq_true] at hs
  obtain ⟨-, -, hwords, hlayers⟩ :=
    @words_of_blanks _ _ (by cbv) (by cbv) hb false (by cbv)
  have hsome : words "1px/*a*/ 2px, /*b*/rgb(0/*c*/0)" ≠ [] := by
    rw [show words "1px/*a*/ 2px, /*b*/rgb(0/*c*/0)" = ["1px", "2px,", "rgb(0/**/0)"] by cbv]
    exact List.cons_ne_nil _ _
  obtain ⟨-, hlayers, hslots⟩ := hlayers hsome hs
  exact ⟨hb, (hwords rfl).1, hlayers, hslots _ rfl⟩

/-- Without whitespace a comment joins two words. And a url with a control character and a backslash in
it is misread in the text of a layer, up to a bracket behind its own: so the whitespace that a comment
leaves there is read inside a bracket, where its length counts. -/
theorem words_joinedByComment :
    (checkIntegers "1px/**/2px" = .ok () ∧
      Token.listHasFault (Token.ofChars "1px/**/2px".toList) = false ∧
      Blanks "1px/**/2px" "1px 2px" ∧ words "1px/**/2px" = ["1px/**/2px"] ∧
      words "1px 2px" = ["1px", "2px"]) ∧
    checkIntegers "f(url(\\1 \\\\)) /**/ 0" = .ok () ∧
      Token.listHasFault (Token.ofChars "f(url(\\1 \\\\)) /**/ 0".toList) = false ∧
      Blanks "f(url(\\1 \\\\)) /**/ 0" "f(url(\\1 \\\\))   0" ∧
      (layers "f(url(\\1 \\\\)) /**/ 0").map words = [["f(url([bad url])  0)"]] ∧
      (layers "f(url(\\1 \\\\))   0").map words = [["f(url([bad url])   0)"]] := by
  have hjoined : Blanks "1px/**/2px" "1px 2px" := by
    rw [Blanks]
    cbv
  have hurl : Blanks "f(url(\\1 \\\\)) /**/ 0" "f(url(\\1 \\\\))   0" := by
    rw [Blanks]
    cbv
  -- the address is written bare in the layer and is a broken one when the layer is split
  have hlayers : layers "f(url(\\1 \\\\)) /**/ 0" = ["f(url(\x01\\\\))  0"] := by
    have hchars : Token.ofChars "f(url(\\1 \\\\)) /**/ 0".toList =
        [.function ['f'] [.atom (.url ['\x01', '\\'] true)], .atom (.whitespace [' ']),
          .atom (.comment []), .atom (.whitespace [' ']),
          .atom (.number ⟨none, ['0'], none, none⟩)] := by cbv
    rw [layers, tokens, hchars]
    rfl
  have hlayers' : layers "f(url(\\1 \\\\))   0" = ["f(url(\x01\\\\))   0"] := by
    have hchars : Token.ofChars "f(url(\\1 \\\\))   0".toList =
        [.function ['f'] [.atom (.url ['\x01', '\\'] true)], .atom (.whitespace [' ', ' ', ' ']),
          .atom (.number ⟨none, ['0'], none, none⟩)] := by cbv
    rw [layers, tokens, hchars]
    rfl
  have hwords : words "f(url(\x01\\\\))  0" = ["f(url([bad url])  0)"] := by
    have hchars : Token.ofChars "f(url(\x01\\\\))  0".toList =
        [.function ['f'] [.atom (.fault .brokenUrl), .atom (.whitespace [' ', ' ']),
          .atom (.number ⟨none, ['0'], none, none⟩)]] := by cbv
    rw [words, tokens, hchars]
    rfl
  have hwords' : words "f(url(\x01\\\\))   0" = ["f(url([bad url])   0)"] := by
    have hchars : Token.ofChars "f(url(\x01\\\\))   0".toList =
        [.function ['f'] [.atom (.fault .brokenUrl), .atom (.whitespace [' ', ' ', ' ']),
          .atom (.number ⟨none, ['0'], none, none⟩)]] := by cbv
    rw [words, tokens, hchars]
    rfl
  rw [hlayers, hlayers', List.map_singleton, List.map_singleton, hwords, hwords']
  exact ⟨⟨by cbv, by cbv, hjoined, by cbv, by cbv⟩, by cbv, by cbv, hurl, rfl, rfl⟩

end Value

end CssExpand
