import CssExpand.Proofs.Sheet.WellFormed

/-!
# Values put together from words

A pass writes rows of words, and layers of them, as the values of new declarations. Such a value is
read back behind a name if its words are legible and quiet (`isQuiet`): no token of a word, outside all
brackets, ends the declaration, marks it as important or opens a block, and no word ends in what is
written for a hack. A text of that kind (`Spelled`) may be followed by a comma or by a space and
another one, so the induction over words and layers needs no more than these two steps.

A value that a pass keeps is read behind a new name as it was behind the old one
(`lastsInBody_renamed`), whatever is in it.
-/

set_option autoImplicit false

namespace CssExpand

open Syntax Value

/-! ## 1. Quiet words -/

/-- Whether a token ends a value, marks it as important or makes it a block. -/
def isLoud (t : Token) : Bool := t.isSemicolon || t.isLiteral ['!'] || isCurlyBlock t

/-- Whether a word may stand anywhere in the value of a declaration. -/
def isQuiet (w : String) : Bool :=
  (Token.ofChars w.toList).all (!isLoud ·) && !([replacement, '/'].isSuffixOf w.toList)

/-- A quiet word without overlong integers. -/
structure Quiet (w : String) : Prop where
  short : ∀ l ∈ Token.listFlat (Token.ofChars w.toList), l.overlong? = none
  quiet : isQuiet w = true

theorem quiet_of_isLegible {w : String} (h : isLegible w = true) (hq : isQuiet w = true) : Quiet w :=
  ⟨(readBack_of_isLegible h).settled.short, hq⟩

theorem Quiet.not_isLoud {w : String} (h : Quiet w) :
    ∀ t ∈ Token.ofChars w.toList, isLoud t = false := by
  have hq := h.quiet
  rw [isQuiet, Bool.and_eq_true] at hq
  intro t ht
  simpa using List.all_eq_true.mp hq.1 t ht

theorem Quiet.slash {w : String} (h : Quiet w) : ¬[replacement, '/'] <:+ w.toList := by
  have hq := h.quiet
  rw [isQuiet, Bool.and_eq_true, Bool.not_eq_true'] at hq
  intro hsuffix
  rw [List.isSuffixOf_iff_suffix.mpr hsuffix] at hq
  exact absurd hq.2 (by simp)

/-- An ending of two characters is one of the last word, unless it starts with a space. -/
theorem suffix_of_suffix_space {a b : Char} {x y : List Char} (ha : a ≠ ' ') (hy : y ≠ [])
    (h : [a, b] <:+ x ++ ' ' :: y) : [a, b] <:+ y := by
  have hy' : y <:+ x ++ ' ' :: y := ⟨x ++ [' '], by simp⟩
  refine List.suffix_of_suffix_length_le h hy' ?_
  by_contra hlen
  obtain ⟨c, rfl⟩ : ∃ c, y = [c] := by
    rw [← List.length_eq_one_iff]
    have := List.length_pos_iff.mpr hy
    simp at hlen
    omega
  obtain ⟨z, hz⟩ := h
  have hend : z ++ [a, b] = (x ++ [' ']) ++ [c] := by simpa using hz
  have hend' : (z ++ [a]) ++ [b] = (x ++ [' ']) ++ [c] := by simpa using hend
  have hfront := List.append_inj_left' hend' rfl
  exact ha (List.singleton_inj.mp (List.append_inj_right' hfront rfl))

/-! ## 2. Spelled texts -/

/-- A text of one or more tokens that may be the value of a declaration: whatever separator is behind
it, it is read as these tokens, and no token ends or marks the value. This is what a new value has to
be for the declaration to be read back in its place. -/
structure Spelled (x : List Char) (ts : List Token) : Prop extends Phrase x ts where
  ne_nil : ts ≠ []
  faultless : Token.listHasFault ts = false
  backslash : ∀ t ∈ ts.getLast?, t.isLiteral ['\\'] = false
  quiet : ∀ t ∈ ts, isLoud t = false
  tab : ¬['\\', '\t'] <:+ x
  slash : ¬[replacement, '/'] <:+ x

namespace Spelled

variable {x y : List Char} {ts us : List Token}

theorem text_ne_nil (h : Spelled x ts) : x ≠ [] := mt h.toPhrase.eq_nil_iff.mp h.ne_nil

/-- A legible word that is quiet. -/
theorem of_word {w : String} (h : IsWord w) (hq : Quiet w) :
    Spelled w.toList (Token.ofChars w.toList) := by
  have hne : Token.ofChars w.toList ≠ [] := by
    intro hnil
    refine h.nonempty ?_
    rw [← h.written, hnil]
    rfl
  have hwhite : ∀ t ∈ Token.ofChars w.toList, t.isWhitespace = false :=
    fun t ht => not_isWhitespace (h.significant t ht)
  have hblock : ∀ t ∈ Token.ofChars w.toList, isCurlyBlock t = false := by
    intro t ht
    have := hq.not_isLoud t ht
    rw [isLoud, Bool.or_eq_false_iff] at this
    exact this.2
  refine ⟨⟨h.unified, fun c hc => isWhitespace_of_not_isBlank (h.first c hc), h.scan, hq.short, h.written,
    fun t ht => hwhite t (List.mem_of_mem_head? ht), fun t ht => hwhite t (List.mem_of_getLast? ht),
    hblock⟩, hne, h.faultless, h.backslash, hq.not_isLoud, ?_, hq.slash⟩
  -- a legible word does not end in a blank
  rintro ⟨z, hz⟩
  have hlast := h.last '\t' (by rw [← hz]; simp)
  exact absurd hlast (by decide)

/-- A comma behind a text belongs to it. -/
theorem comma (h : Spelled x ts) : Spelled (x ++ [',']) (ts ++ [commaToken]) := by
  have hglue : ∀ t ∈ ts.getLast?, t.glueBefore [commaToken] = [] := by
    refine fun t ht => glue_eq_nil (Bool.eq_false_iff.mpr fun hclash => ?_) (h.backslash t ht)
    revert hclash
    simp [commaToken, Token.joint, Atom.joint, Joint.clash, Joint.startsWithName,
      Joint.startsWithNumber]
  have hsuffix : ∀ {a b : Char}, b ≠ ',' → ¬[a, b] <:+ x ++ [','] := by
    rintro a b hb ⟨z, hz⟩
    have hend : (z ++ [a]) ++ [b] = x ++ [','] := by simpa using hz
    exact hb (List.singleton_inj.mp (List.append_inj_right' hend rfl))
  refine ⟨⟨unified_append.mpr ⟨h.unified, by decide⟩, ?_, ?_, ?_, ?_, ?_, ?_, ?_⟩, by simp, ?_, ?_, ?_,
    hsuffix (by decide), hsuffix (by decide)⟩
  · obtain ⟨c, r, rfl⟩ := List.exists_cons_of_ne_nil h.text_ne_nil
    exact h.start
  · intro cs hs
    rw [List.append_assoc, List.singleton_append, h.scan _ (separates_cons rfl cs), scan_comma,
      Token.listFlat_append, List.append_assoc]
    rfl
  · rw [Token.listFlat_append]
    refine List.forall_mem_append.mpr ⟨h.short, fun l hl => ?_⟩
    rw [List.mem_singleton.mp hl]
    rfl
  · rw [listWritten_append hglue, h.written]
    rfl
  · obtain ⟨t, ts', rfl⟩ := List.exists_cons_of_ne_nil h.ne_nil
    exact h.first
  · rw [List.getLast?_concat]
    rintro t ⟨⟩
    rfl
  · exact List.forall_mem_append.mpr ⟨h.block, List.forall_mem_singleton.mpr rfl⟩
  · rw [Token.listHasFault_append, h.faultless]
    rfl
  · rw [List.getLast?_concat]
    rintro t ⟨⟩
    rfl
  · exact List.forall_mem_append.mpr ⟨h.quiet, List.forall_mem_singleton.mpr rfl⟩

/-- Two texts with a space between them. -/
theorem space (hx : Spelled x ts) (hy : Spelled y us) :
    Spelled (x ++ ' ' :: y) (ts ++ spaceToken :: us) := by
  have hlast : (ts ++ spaceToken :: us).getLast? = us.getLast? := by
    obtain ⟨u, us', rfl⟩ := List.exists_cons_of_ne_nil hy.ne_nil
    simp [List.getLast?_append, List.getLast?_cons]
  have hspace : IsBlank [' '] := by simp [IsBlank, Syntax.isWhitespace]
  have hhead : ∀ cs, ∀ c ∈ (y ++ cs).head?, Syntax.isWhitespace c = false := by
    intro cs c hc
    obtain ⟨d, r, rfl⟩ := List.exists_cons_of_ne_nil hy.text_ne_nil
    exact hy.start c hc
  refine ⟨⟨unified_append.mpr ⟨hx.unified, unified_cons.mpr ⟨by decide, hy.unified⟩⟩, ?_, ?_, ?_, ?_, ?_,
    ?_, ?_⟩, by simp, ?_, ?_, ?_, ?_, ?_⟩
  · obtain ⟨c, r, rfl⟩ := List.exists_cons_of_ne_nil hx.text_ne_nil
    exact hx.start
  · intro cs hs
    -- the space separates, so either side is read as it is read alone
    have hblank : Lexeme.scan (' ' :: (y ++ cs)) = Token.listFlat (blank [' ']) ++ Lexeme.scan (y ++ cs) :=
      scan_blank hspace (hhead cs)
    rw [List.append_assoc, List.cons_append, hx.scan _ (separates_cons rfl _), hblank, hy.scan cs hs,
      Token.listFlat_append, List.append_assoc]
    rfl
  · rw [Token.listFlat_append]
    refine List.forall_mem_append.mpr ⟨hx.short, ?_⟩
    rw [Token.listFlat]
    refine List.forall_mem_append.mpr ⟨fun l hl => ?_, hy.short⟩
    rw [List.mem_singleton.mp hl]
    rfl
  · rw [listWritten_append_space hx.backslash, hx.written, hy.written]
  · obtain ⟨t, ts', rfl⟩ := List.exists_cons_of_ne_nil hx.ne_nil
    exact hx.first
  · rw [hlast]
    exact hy.last
  · exact List.forall_mem_append.mpr ⟨hx.block, List.forall_mem_cons.mpr ⟨rfl, hy.block⟩⟩
  · rw [Token.listHasFault_append, hx.faultless, Token.listHasFault, hy.faultless]
    rfl
  · rw [hlast]
    exact hy.backslash
  · exact List.forall_mem_append.mpr ⟨hx.quiet, List.forall_mem_cons.mpr ⟨rfl, hy.quiet⟩⟩
  · exact mt (suffix_of_suffix_space (by decide) hy.text_ne_nil) hy.tab
  · exact mt (suffix_of_suffix_space (by decide) hy.text_ne_nil) hy.slash

end Spelled

/-- A row of quiet words. -/
theorem exists_spelled_spaced {ws : List String} (hne : ws ≠ []) (h : ∀ w ∈ ws, IsWord w ∧ Quiet w) :
    ∃ ts, Spelled (spaced ws).toList ts := by
  induction ws with
  | nil => exact absurd rfl hne
  | cons w ws ih =>
    rw [List.forall_mem_cons] at h
    have hword := Spelled.of_word h.1.1 h.1.2
    cases ws with
    | nil => exact ⟨_, by simpa [spaced] using hword⟩
    | cons v vs =>
      obtain ⟨us, hus⟩ := ih (by simp) h.2
      have htext : (spaced (w :: v :: vs)).toList = w.toList ++ ' ' :: (spaced (v :: vs)).toList := by
        rw [toList_spaced_cons, toList_spaced_cons]
        simp
      exact ⟨_, htext ▸ hword.space hus⟩

/-- Layers of quiet words. -/
theorem exists_spelled_layered {rows : List (List String)} (hne : rows ≠ [])
    (h : ∀ row ∈ rows, row ≠ [] ∧ ∀ w ∈ row, IsWord w ∧ Quiet w) :
    ∃ ts, Spelled (layered rows).toList ts := by
  induction rows with
  | nil => exact absurd rfl hne
  | cons row rows ih =>
    rw [List.forall_mem_cons] at h
    obtain ⟨ts, hts⟩ := exists_spelled_spaced h.1.1 h.1.2
    cases rows with
    | nil => exact ⟨ts, by simpa [layered] using hts⟩
    | cons r rs =>
      obtain ⟨us, hus⟩ := ih (by simp) h.2
      have htext : (layered (row :: r :: rs)).toList =
          ((spaced row).toList ++ [',']) ++ ' ' :: (layered (r :: rs)).toList := by
        rw [toList_layered_cons, toList_layered_cons]
        simp
      exact ⟨_, htext ▸ hts.comma.space hus⟩

/-- A spelled text is stable. -/
theorem Spelled.stableText {text : String} {ts : List Token} (h : Spelled text.toList ts) :
    StableText text ∧ ∀ t ∈ Token.ofChars text.toList, t.isLiteral ['!'] = false := by
  have htokens : Token.ofChars text.toList = ts := ofChars_of_scan h.unified h.scan
  have hloud : ∀ t ∈ ts, t.isSemicolon = false ∧ t.isLiteral ['!'] = false := by
    intro t ht
    have := h.quiet t ht
    rw [isLoud, Bool.or_eq_false_iff, Bool.or_eq_false_iff] at this
    exact this.1
  have hself : SelfContained text := selfContained_of_scan h.unified
    (fun cs hcs => h.scan cs (separates_of_end hcs)) h.faultless fun t ht => (hloud t ht).1
  have haccepted : checkIntegers text = .ok () := (checkIntegers_of_scan h.unified h.scan).mpr h.short
  subst htokens
  refine ⟨⟨hself, fun hnil => h.text_ne_nil (by rw [hnil]; rfl), haccepted, h.first, h.last, h.block, ?_,
    h.tab, h.slash⟩, fun t ht => (hloud t ht).2⟩
  rw [Token.write, h.written, String.ofList_toList]

/-- A declaration with a simple name and a spelled value is read back. -/
theorem Spelled.lastsInBody {d : Declaration} {ts : List Token} (h : Spelled d.value.toList ts)
    (hp : isSimpleProperty d.prop.toList) : (Node.declaration d).LastsInBody :=
  .line (toList_written d) (line_stable hp h.stableText.1 h.stableText.2)

/-! ## 3. Another name for a value -/

/-- Tokens whose lexemes start with an atom start with that atom. -/
theorem exists_of_listFlat_eq_cons {ts : List Token} {a : Atom} {ls : List Lexeme}
    (h : Token.listFlat ts = .atom a :: ls) : ∃ us, ts = .atom a :: us ∧ Token.listFlat us = ls := by
  cases ts with
  | nil => cases h
  | cons t us =>
    cases t with
    | atom b =>
      obtain ⟨hb, hls⟩ := List.cons.inj h
      exact ⟨us, by rw [Lexeme.atom.inj hb], hls⟩
    | function name arguments => cases h
    | block b content => cases h

/-- The tokens of a declaration that is read as it is written start with its name and the colon. -/
theorem exists_tokens_of_line {d : Declaration} {ts : List Token} (hp : isSimpleProperty d.prop.toList)
    (h : Line (lineChars d) (.declaration d) ts) :
    ∃ us, ts = .atom (.ident d.prop.toList) :: .atom (.literal [':']) :: us ∧
      ∀ cs, Lexeme.scan (' ' :: (d.value.toList ++ importanceChars d.important) ++ ';' :: cs) =
        Token.listFlat us ++ Lexeme.scan (';' :: cs) := by
  obtain ⟨-, hne, hwritten, -⟩ := written_of_isSimpleProperty hp
  have hscan : ∀ cs, Token.listFlat ts ++ Lexeme.scan (';' :: cs) =
      .atom (.ident d.prop.toList) :: .atom (.literal [':']) ::
        Lexeme.scan (' ' :: (d.value.toList ++ importanceChars d.important) ++ ';' :: cs) := by
    intro cs
    have hline := h.scan cs
    rw [lineChars, List.append_assoc, List.cons_append, scan_property hne hwritten] at hline
    exact hline.symm
  -- the semicolon is neither the name nor the colon, so both are among the tokens
  have hfirst := hscan []
  rw [scan_semicolon] at hfirst
  obtain ⟨us, rfl⟩ : ∃ us, ts = .atom (.ident d.prop.toList) :: .atom (.literal [':']) :: us := by
    cases hflat : Token.listFlat ts with
    | nil =>
      rw [hflat] at hfirst
      cases (List.cons.inj hfirst).1
    | cons l ls =>
      rw [hflat] at hfirst
      obtain ⟨hl, hls⟩ := List.cons.inj hfirst
      subst hl
      obtain ⟨us, rfl, hus⟩ := exists_of_listFlat_eq_cons hflat
      cases ls with
      | nil =>
        have hcolon := (List.cons.inj hls).1
        exact absurd hcolon (by decide)
      | cons m ms =>
        obtain ⟨hm, -⟩ := List.cons.inj hls
        subst hm
        obtain ⟨vs, rfl, -⟩ := exists_of_listFlat_eq_cons hus
        exact ⟨vs, rfl⟩
  refine ⟨us, rfl, fun cs => ?_⟩
  have hcs := hscan cs
  simp only [Token.listFlat, Token.flat, List.cons_append] at hcs
  exact (List.cons.inj (List.cons.inj hcs).2).2.symm

/-- The value of a declaration that is read back is read back behind another name. -/
theorem lastsInBody_renamed {d : Declaration} {name : String} (h : (Node.declaration d).LastsInBody)
    (hp : isSimpleProperty d.prop.toList) (hn : isSimpleProperty name.toList) :
    (Node.declaration { d with prop := name }).LastsInBody := by
  cases h with
  | @line n x ts written line =>
  obtain rfl : x = lineChars d := List.append_cancel_right (written.symm.trans (toList_written d))
  obtain ⟨us, rfl, hscan⟩ := exists_tokens_of_line hp line
  obtain ⟨hunified, hne, hwritten, hprop⟩ := written_of_isSimpleProperty hn
  have hvalue : Unified (':' :: ' ' :: (d.value.toList ++ importanceChars d.important)) :=
    (unified_append.mp line.unified).2
  refine .line (toList_written _) (⟨unified_append.mpr ⟨hunified, hvalue⟩, ?_, fun cs => ?_, ?_, ?_, ?_⟩ :
    Line (lineChars { d with prop := name }) _
      (.atom (.ident name.toList) :: .atom (.literal [':']) :: us))
  · obtain ⟨c, r, hcr, -⟩ := head_identWritten hne []
    have hident := startsIdent_identWritten hne []
    rw [hcr] at hident
    rw [hwritten, List.append_nil] at hcr
    exact ⟨c, _, by rw [lineChars, hcr]; rfl, not_isWhitespace_of_startsIdent hident⟩
  · rw [lineChars, List.append_assoc, List.cons_append, scan_property hne hwritten, hscan cs]
    rfl
  · have hshort := line.short
    simp only [Token.listFlat, Token.flat, List.singleton_append, List.forall_mem_cons] at hshort ⊢
    exact ⟨rfl, hshort.2⟩
  · have hsemi := line.semicolon
    rw [List.forall_mem_cons] at hsemi ⊢
    exact ⟨rfl, hsemi.2⟩
  · have hold := line.reads
    have hparts : ∀ n : List Char, readDeclaration? (.atom (.ident n) :: .atom (.literal [':']) :: us) =
        (readValue? us).map fun v => ⟨propertyName n, authoredText v.1, v.2⟩ := fun n =>
      @readDeclaration?_parts [] [] us n _ (List.forall_mem_nil _) (List.forall_mem_nil _) rfl
    rw [readChunk_significant rfl, hparts] at hold ⊢
    cases hv : readValue? us with
    | none =>
      rw [hv] at hold
      cases (List.singleton_inj.mp hold)
    | some v =>
      rw [hv] at hold
      have hd : _ = d := Node.declaration.inj (List.singleton_inj.mp hold)
      rw [Option.map_some, Option.elim_some, hprop, String.ofList_toList, ← congrArg Declaration.value hd,
        ← congrArg Declaration.important hd]

end CssExpand
