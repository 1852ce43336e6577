import CssExpand.Proofs.Sheet.Authored
import CssExpand.Proofs.Sheet.Lasting
import CssExpand.Proofs.Syntax.Characters
import CssExpand.Proofs.Text.LetterCase

/-!
# The texts of a sheet, read again

The parser trims the tokens of a selector, of a prelude and of a piece of a body, and writes them. Such
a text is read as the tokens that were written, whatever the layout puts after it, if it does not end
in a backslash (`phrase_trimmedText`, `line_raw`). A declaration is written in parts, so it is read
again if its name is one that needs no escape and its value does not end in a backslash
(`line_declaration`).
-/

set_option autoImplicit false

namespace CssExpand

open Syntax

/-! ## 1. Tokens that are read back -/

/-- Reading back adds empty comments and no other token. -/
theorem mem_listReread {ts : List Token} {u : Token} (h : u ∈ Token.listReread ts) :
    u = .atom (.comment []) ∨ ∃ t ∈ ts, u = t.reread := by
  induction ts with
  | nil => cases h
  | cons t ts ih =>
    rw [Token.listReread, List.mem_cons, List.mem_append] at h
    rcases h with rfl | h | h
    · exact .inr ⟨t, List.mem_cons_self, rfl⟩
    · left
      cases ts with
      | nil => cases h
      | cons v vs =>
        rw [Token.join] at h
        split at h
        · exact List.mem_singleton.mp h
        · cases h
    · rcases ih h with h | ⟨v, hv, h⟩
      · exact .inl h
      · exact .inr ⟨v, List.mem_cons_of_mem t hv, h⟩

/-- What no token and no comment is, no token that is read back is. -/
theorem forall_listReread {p : Token → Bool} (hc : p (.atom (.comment [])) = false)
    (hr : ∀ t : Token, p t.reread = p t) {ts : List Token} (h : ∀ t ∈ ts, p t = false) :
    ∀ u ∈ Token.listReread ts, p u = false := by
  intro u hu
  rcases mem_listReread hu with rfl | ⟨t, ht, rfl⟩
  · exact hc
  · rw [hr, h t ht]

@[simp] theorem isCurlyBlock_reread (t : Token) : isCurlyBlock t.reread = isCurlyBlock t := by
  cases t with
  | atom a => rfl
  | function name arguments => rfl
  | block b content => cases b <;> rfl

@[simp] theorem isWhitespace_reread (t : Token) : t.reread.isWhitespace = t.isWhitespace := by
  cases t with
  | atom a => cases a <;> rfl
  | function name arguments => rfl
  | block b content => rfl

@[simp] theorem head?_listReread (ts : List Token) :
    (Token.listReread ts).head? = ts.head?.map Token.reread := by
  cases ts <;> rfl

theorem getLast?_listReread (ts : List Token) :
    (Token.listReread ts).getLast? = ts.getLast?.map Token.reread := by
  induction ts with
  | nil => rfl
  | cons t ts ih =>
    cases ts with
    | nil => rfl
    | cons u us =>
      rw [Token.listReread, List.getLast?_cons, List.getLast?_append, ih, List.getLast?_cons_cons]
      simp [List.getLast?_cons]

/-! ## 2. Trimmed tokens -/

theorem trim_isPrefix (ts : List Token) : Token.trim ts <+: ts.dropWhile Token.isWhitespace := by
  have := List.reverse_prefix.mpr
    (List.dropWhile_suffix Token.isWhitespace (l := (ts.dropWhile Token.isWhitespace).reverse))
  rwa [List.reverse_reverse] at this

theorem trim_isInfix (ts : List Token) : Token.trim ts <:+: ts :=
  (trim_isPrefix ts).isInfix.trans (List.dropWhile_suffix Token.isWhitespace).isInfix

theorem head?_trim (ts : List Token) : ∀ t ∈ (Token.trim ts).head?, t.isWhitespace = false := by
  intro t ht
  obtain ⟨us, hus⟩ := trim_isPrefix ts
  refine head?_dropWhile_stop Token.isWhitespace ts t ?_
  rw [← hus]
  cases h : Token.trim ts with
  | nil => simp [h] at ht
  | cons u vs => simpa [h] using ht

theorem getLast?_trim (ts : List Token) :
    ∀ t ∈ (Token.trim ts).getLast?, t.isWhitespace = false := by
  intro t ht
  rw [Token.trim, List.getLast?_reverse] at ht
  exact head?_dropWhile_stop Token.isWhitespace _ t ht

/-- Reading back keeps the ends of trimmed tokens. -/
theorem ends_listReread (ts : List Token) :
    (∀ t ∈ (Token.listReread (Token.trim ts)).head?, t.isWhitespace = false) ∧
      ∀ t ∈ (Token.listReread (Token.trim ts)).getLast?, t.isWhitespace = false := by
  rw [head?_listReread, getLast?_listReread]
  constructor <;> intro u hu <;> obtain ⟨t, ht, rfl⟩ := Option.map_eq_some_iff.mp hu <;>
    rw [isWhitespace_reread]
  · exact head?_trim ts t ht
  · exact getLast?_trim ts t ht

/-- The text of tokens that end in a backslash is not closed. -/
theorem not_closes_listWritten {ts : List Token} (h : Token.Settled ts) {t : Token}
    (ht : t ∈ ts.getLast?) (hb : t.isLiteral ['\\']) :
    closes (Token.listWritten ts) = false ∧ (Token.listWritten ts).getLast? = some '\\' := by
  obtain ⟨init, rfl⟩ := List.getLast?_eq_some_iff.mp ht
  obtain rfl : t = .atom (.literal ['\\']) := by
    cases t with
    | atom a =>
      cases a with
      | literal text =>
        obtain rfl : text = ['\\'] := by simpa [Token.isLiteral] using hb
        rfl
      | _ => simp [Token.isLiteral] at hb
    | _ => simp [Token.isLiteral] at hb
  have hflat : Token.listFlat (init ++ [.atom (.literal ['\\'])]) =
      Token.listFlat init ++ [.atom (.literal ['\\'])] := by
    rw [Token.listFlat_append]
    rfl
  have hsourced := hflat ▸ h.sourced
  rw [Token.listWritten_eq _ h.sourced, hflat]
  exact ⟨Lexeme.not_closes_text_glued hsourced, getLast?_text_glued hsourced.of_append.1⟩

/-- Tokens with a closed text, with no whitespace at their end, do not end in a backslash either. -/
theorem firm_of_closes {ts : List Token} (h : Token.Settled ts)
    (hw : ∀ t ∈ ts.getLast?, t.isWhitespace = false) (hc : closes (Token.listWritten ts)) :
    Token.Firm ts := by
  refine ⟨hw, fun t ht => Bool.eq_false_iff.mpr fun hb => ?_⟩
  rw [(not_closes_listWritten h ht hb).1] at hc
  cases hc

/-- The same where the end of a hack was restored. A text that ends in a backslash does not end in what
stands for a hack, so nothing was restored in it. -/
theorem firm_of_closes_restored {ts : List Token} (h : Token.Settled ts)
    (hw : ∀ t ∈ ts.getLast?, t.isWhitespace = false)
    (hc : closes (restored (Token.listWritten ts))) : Token.Firm ts := by
  refine ⟨hw, fun t ht => Bool.eq_false_iff.mpr fun hb => ?_⟩
  obtain ⟨hopen, hlast⟩ := not_closes_listWritten h ht hb
  have hsuffix : ∀ ws : List Char, ws.getLast? ≠ some '\\' → ws ≠ [] →
      ¬ws <:+ Token.listWritten ts := by
    rintro ws hne hnil ⟨stem, hstem⟩
    obtain ⟨init, c, rfl⟩ := (List.eq_nil_or_concat ws).resolve_left hnil
    rw [← hstem, List.concat_eq_append, ← List.append_assoc, List.getLast?_append] at hlast
    exact hne (by simpa using hlast)
  rw [restored_plain (hsuffix _ (by decide) (by simp)) (hsuffix _ (by decide) (by simp))
    (by simp [hlast]), hopen] at hc
  cases hc

/-- A text that is read as tokens starts with no whitespace if they do not. -/
theorem exists_head_of_scan {x cs : List Char} {ts : List Token}
    (h : Lexeme.scan (x ++ cs) = Token.listFlat ts ++ Lexeme.scan cs) (hne : ts ≠ [])
    (hw : ∀ t ∈ ts.head?, t.isWhitespace = false) : ∃ c r, x = c :: r ∧ isWhitespace c = false := by
  obtain ⟨t, us, rfl⟩ := List.exists_cons_of_ne_nil hne
  obtain ⟨l, ls, heq, -⟩ := t.head?_flat
  cases x with
  | nil =>
    have hnil := List.self_eq_append_left.mp h
    simp [Token.listFlat, heq] at hnil
  | cons c r =>
    refine ⟨c, r, rfl, Bool.eq_false_iff.mpr fun hc => ?_⟩
    rw [List.cons_append, Lexeme.scan_cons, next_whitespace hc, Token.listFlat] at h
    have := hw t rfl
    cases t with
    | atom a =>
      obtain rfl : Atom.whitespace _ = a := by simpa [Token.flat] using (List.cons.inj h).1
      simp [Token.isWhitespace] at this
    | function name arguments => simp [Token.flat] at h
    | block b content => simp [Token.flat] at h

theorem trim_listReread (ts : List Token) :
    Token.trim (Token.listReread (Token.trim ts)) = Token.listReread (Token.trim ts) := by
  obtain ⟨hfirst, hlast⟩ := ends_listReread ts
  simpa [blank] using trim_blank hfirst hlast [] []

/-! ## 3. Selectors and preludes -/

/-- The text of a selector or a prelude is read as what its tokens are read back as. -/
theorem phrase_trimmedText {ts : List Token} (h : Token.Settled ts)
    (hb : ∀ t ∈ ts, isCurlyBlock t = false) (hc : closes (trimmedText ts).toList) :
    Phrase (trimmedText ts).toList (Token.listReread (Token.trim ts)) := by
  have hsettled := h.of_isInfix (trim_isInfix ts)
  have htext : (trimmedText ts).toList = Token.listWritten (Token.trim ts) := by
    simp [trimmedText, Token.write]
  rw [htext] at hc ⊢
  have hfirm := firm_of_closes hsettled (getLast?_trim ts) hc
  have hscan : ∀ cs, Separates cs → _ := fun cs hs => Token.scan_listWritten hsettled hfirm hs
  obtain ⟨hfirst, hlast⟩ := ends_listReread ts
  refine ⟨Token.unified_listWritten hsettled.sourced, ?_, hscan, Token.short_listReread hsettled.short,
    Token.listWritten_listReread _, hfirst, hlast, ?_⟩
  · cases ht : Token.trim ts with
    | nil => simp [Token.listWritten]
    | cons t us =>
      have hne : Token.listReread (Token.trim ts) ≠ [] := by simp [ht, Token.listReread]
      obtain ⟨c, r, hx, hc⟩ := exists_head_of_scan (hscan [] (by simp [Separates])) hne hfirst
      rw [← ht, hx]
      rintro d ⟨⟩
      exact hc
  · exact forall_listReread rfl isCurlyBlock_reread fun t ht => hb t ((trim_isInfix ts).subset ht)

/-! ## 4. Lines -/

theorem unified_restored {cs : List Char} (h : Unified cs) : Unified (restored cs) := by
  have key : ∀ (ws source ds : List Char), Unified source → Unified ds →
      Unified (restoreAtEnd ws source ds) := by
    intro ws source ds hs hd
    have htake : ∀ k, Unified (ds.take k) := fun k => hd.mono (List.take_subset k ds)
    unfold restoreAtEnd
    split
    · exact unified_append.mpr ⟨htake _, hs⟩
    · split
      · exact unified_append.mpr ⟨unified_append.mpr ⟨htake _, hs⟩, by decide⟩
      · exact hd
  exact key _ _ _ (by decide) (key _ _ _ (by decide) h)

theorem dropOneWhitespace_semicolon {rest : List Char → List Char}
    (h : rest = id ∨ rest = dropOneWhitespace) (cs : List Char) : rest (';' :: cs) = ';' :: cs := by
  rcases h with rfl | rfl <;> rfl

@[simp] theorem isSemicolon_reread (t : Token) : t.reread.isSemicolon = t.isSemicolon :=
  Token.isLiteral_reread t [';']

/-- Trimming leaves a first token that is significant. -/
theorem exists_trim_cons {t : Token} (ht : t.isSignificant) (us : List Token) :
    ∃ vs, Token.trim (t :: us) = t :: vs := by
  have hw : t.isWhitespace = false := by
    simp only [Token.isSignificant, Bool.and_eq_true, Bool.not_eq_true'] at ht
    exact ht.1
  have hprefix := trim_isPrefix (t :: us)
  have hdrop : (t :: us).dropWhile Token.isWhitespace = t :: us := by simp [hw]
  rw [hdrop] at hprefix
  have hsig := significant_trim (t :: us)
  cases htrim : Token.trim (t :: us) with
  | nil =>
    rw [htrim] at hsig
    simp [significant, ht] at hsig
  | cons v vs =>
    rw [htrim] at hprefix
    exact ⟨vs, by rw [(List.cons_prefix_cons.mp hprefix).1]⟩

/-- The restored text of trimmed tokens before a semicolon. An escape at its end could take a blank
behind it, but a semicolon is none. -/
theorem scan_restored_semicolon {ts : List Token} (h : Token.Settled ts)
    (hc : closes (restored (Token.listWritten (Token.trim ts)))) (cs : List Char) :
    Lexeme.scan (restored (Token.listWritten (Token.trim ts)) ++ ';' :: cs) =
      Token.listFlat (Token.listReread (Token.trim ts)) ++ Lexeme.scan (';' :: cs) := by
  have hsettled := h.of_isInfix (trim_isInfix ts)
  obtain ⟨rest, hrest, hscan⟩ :=
    scan_restored hsettled (firm_of_closes_restored hsettled (getLast?_trim ts) hc)
  have hname : startsName (';' :: cs) = false := (separates_cons rfl cs).startsName
  have hread := hscan (';' :: cs) (separates_cons rfl cs) hname
    (by simp [dropOneWhitespace, isWhitespace])
  rwa [dropOneWhitespace_semicolon hrest] at hread

theorem listReread_ne_nil {ts : List Token} (h : ts ≠ []) : Token.listReread ts ≠ [] := by
  cases ts with
  | nil => exact absurd rfl h
  | cons t ts => simp [Token.listReread]

/-- Nor does it start with whitespace, since what it is read as does not. -/
theorem exists_head_restored {ts : List Token} (h : Token.Settled ts)
    (hc : closes (restored (Token.listWritten (Token.trim ts)))) (hne : Token.trim ts ≠ []) :
    ∃ c r, restored (Token.listWritten (Token.trim ts)) = c :: r ∧ isWhitespace c = false :=
  exists_head_of_scan (scan_restored_semicolon h hc []) (listReread_ne_nil hne)
    (ends_listReread ts).1

/-- A piece of a body that is no declaration. It is read back as itself because what makes a
declaration is asked of the significant tokens, and reading back leaves these alone. -/
theorem line_raw {ts : List Token} (h : Token.Settled ts) (hne : ts ≠ [])
    (hfirst : ∀ t ∈ ts.head?, t.isSignificant) (hs : ∀ t ∈ ts, t.isSemicolon = false)
    (hn : readDeclaration? ts = none) (hc : closes (authoredText ts).toList) :
    Line (authoredText ts).toList (.raw (authoredText ts)) (Token.listReread (Token.trim ts)) := by
  obtain ⟨t, us, rfl⟩ := List.exists_cons_of_ne_nil hne
  have ht : t.isSignificant := hfirst t rfl
  have hsettled := h.of_isInfix (trim_isInfix (t :: us))
  have htext : (authoredText (t :: us)).toList =
      restored (Token.listWritten (Token.trim (t :: us))) := by simp [authoredText_eq]
  obtain ⟨vs, hvs⟩ := exists_trim_cons ht us
  have htrim : Token.trim (t :: us) ≠ [] := by simp [hvs]
  rw [htext] at hc ⊢
  refine ⟨unified_restored (Token.unified_listWritten hsettled.sourced),
    exists_head_restored h hc htrim, scan_restored_semicolon h hc,
    Token.short_listReread hsettled.short,
    forall_listReread rfl isSemicolon_reread fun u hu => hs u ((trim_isInfix _).subset hu), ?_⟩
  have hnone : readDeclaration? (Token.listReread (Token.trim (t :: us))) = none :=
    readDeclaration?_eq_none (by simp) hn
  have htext' : authoredText (Token.listReread (Token.trim (t :: us))) = authoredText (t :: us) := by
    rw [authoredText_eq, trim_listReread, Token.listWritten_listReread, authoredText_eq]
  have hread : readChunk (Token.listReread (Token.trim (t :: us))) =
      [.raw (authoredText (Token.listReread (Token.trim (t :: us))))] := by
    rw [hvs, Token.listReread] at hnone ⊢
    rw [readChunk_significant ((isSignificant_reread t).trans ht), hnone]
    rfl
  rw [hread, htext']

/-- The two tokens that make a value important. -/
def importantTokens : List Token :=
  [.atom (.literal ['!']), .atom (.ident "important".toList)]

/-- What is written after a value. -/
def importanceChars (important : Bool) : List Char :=
  if important then " !important".toList else []

/-- The tokens that make a value important, if it is. -/
def importanceTokens (important : Bool) : List Token := if important then importantTokens else []

/-- What makes a value important is written so that it is read as two tokens. -/
theorem scan_important (cs : List Char) :
    Lexeme.scan ("!important".toList ++ ';' :: cs) =
      Token.listFlat importantTokens ++ Lexeme.scan (';' :: cs) := by
  have hbang : LiteralStopsAt '!' ("important".toList ++ ';' :: cs) := by constructor <;> simp
  have h1 : Lexeme.scan (['!'] ++ ("important".toList ++ ';' :: cs)) = _ :=
    Lexeme.scan_written (l := .atom (.literal ['!']))
      (.inr ⟨'!', rfl, rfl, by decide⟩) rfl hbang
  have hword : IdentStopsAt "important".toList (';' :: cs) := by
    refine ⟨(separates_cons rfl cs).startsName, by simp, by simp, ?_⟩
    rintro (h | h) <;> exact absurd h (by decide)
  have h2 := scan_ident (by decide) hword
  have hwritten : identWritten "important".toList = "important".toList := by decide
  rw [hwritten] at h2
  rw [h2] at h1
  exact h1

theorem isBlank_space : IsBlank [' '] := by
  simp [IsBlank, isWhitespace]

theorem head?_important (cs : List Char) :
    ∀ c ∈ ("!important".toList ++ ';' :: cs).head?, isWhitespace c = false := by
  rintro c ⟨⟩
  decide

/-- A value that is important has a blank behind it. The last escape of the value may take that blank,
and then none is read. -/
theorem scan_restored_important {w : List Token} (h : Token.Settled w)
    (hc : closes (restored (Token.listWritten (Token.trim w)))) :
    ∃ b, ∀ cs, Lexeme.scan (restored (Token.listWritten (Token.trim w)) ++
        ' ' :: ("!important".toList ++ ';' :: cs)) =
      Token.listFlat (Token.listReread (Token.trim w) ++ (blank b ++ importantTokens)) ++
        Lexeme.scan (';' :: cs) := by
  have hsettled := h.of_isInfix (trim_isInfix w)
  obtain ⟨rest, hrest, hscan⟩ :=
    scan_restored hsettled (firm_of_closes_restored hsettled (getLast?_trim _) hc)
  have hread : ∀ cs, Lexeme.scan (restored (Token.listWritten (Token.trim w)) ++
      ' ' :: ("!important".toList ++ ';' :: cs)) =
      Token.listFlat (Token.listReread (Token.trim w)) ++
        Lexeme.scan (rest (' ' :: ("!important".toList ++ ';' :: cs))) := fun cs =>
    hscan _ separates_blank (by simp [dropOneWhitespace, isWhitespace, startsName, isNameChar,
      isNameStart, startsEscape]) (by simp [dropOneWhitespace, isWhitespace])
  rcases hrest with rfl | rfl
  · refine ⟨[' '], fun cs => (hread cs).trans ?_⟩
    have hblank := scan_blank isBlank_space (head?_important cs)
    rw [scan_important] at hblank
    rw [Token.listFlat_append, Token.listFlat_append, List.append_assoc, List.append_assoc]
    exact congrArg _ hblank
  · refine ⟨[], fun cs => (hread cs).trans ?_⟩
    rw [Token.listFlat_append, List.append_assoc]
    exact congrArg _ (scan_important cs)

/-- The same for any value, up to the semicolon. -/
theorem scan_restored_importance {w : List Token} (h : Token.Settled w)
    (hc : closes (restored (Token.listWritten (Token.trim w)))) (important : Bool) :
    ∃ b, ∀ cs, Lexeme.scan (restored (Token.listWritten (Token.trim w)) ++
        (importanceChars important ++ ';' :: cs)) =
      Token.listFlat (Token.listReread (Token.trim w) ++ (blank b ++ importanceTokens important)) ++
        Lexeme.scan (';' :: cs) := by
  cases important with
  | false =>
    refine ⟨[], fun cs => ?_⟩
    simpa [importanceChars, importanceTokens, blank] using scan_restored_semicolon h hc cs
  | true =>
    obtain ⟨b, hb⟩ := scan_restored_important h hc
    exact ⟨b, hb⟩

/-- The value of a declaration, with what stands around it. -/
theorem scan_value {w : List Token} (h : Token.Settled w)
    (hc : closes (restored (Token.listWritten (Token.trim w)))) (important : Bool) :
    ∃ a b, ∀ cs, Lexeme.scan (' ' :: (restored (Token.listWritten (Token.trim w)) ++
        importanceChars important) ++ ';' :: cs) =
      Token.listFlat (blank a ++ Token.listReread (Token.trim w) ++ blank b ++
        importanceTokens important) ++ Lexeme.scan (';' :: cs) := by
  by_cases hempty : Token.trim w = []
  · -- There is nothing but whitespace before the semicolon or the exclamation mark.
    rw [hempty]
    cases important with
    | false =>
      refine ⟨[' '], [], fun cs => scan_blank isBlank_space ?_⟩
      rintro c ⟨⟩
      decide
    | true =>
      refine ⟨[' ', ' '], [], fun cs => ?_⟩
      have hblank := scan_blank (isBlank_space.append isBlank_space) (head?_important cs)
      rw [scan_important] at hblank
      exact hblank
  · obtain ⟨b, hb⟩ := scan_restored_importance h hc important
    obtain ⟨c, r, hx, hcw⟩ := exists_head_restored h hc hempty
    refine ⟨[' '], b, fun cs => ?_⟩
    have hhead : ∀ d ∈ (restored (Token.listWritten (Token.trim w)) ++
        (importanceChars important ++ ';' :: cs)).head?, isWhitespace d = false := by
      rw [hx]
      rintro d ⟨⟩
      exact hcw
    have hblank := scan_blank isBlank_space hhead
    rw [hb cs] at hblank
    simpa [Token.listFlat_append, List.append_assoc] using hblank

theorem asciiLower_asciiLower (cs : List Char) :
    Text.asciiLower (Text.asciiLower cs) = Text.asciiLower cs := by
  simp [Text.asciiLower]

theorem propertyName_propertyName (name : List Char) :
    propertyName (propertyName name).toList = propertyName name := by
  unfold propertyName
  split
  · simp_all
  · rw [String.toList_ofList, asciiLower_asciiLower]
    split <;> rfl

theorem mem_asciiLower {cs : List Char} (h : '\x00' ∉ cs) : '\x00' ∉ Text.asciiLower cs := by
  intro hm
  obtain ⟨c, hc, hlow⟩ := List.mem_map.mp hm
  exact h (Text.eq_nul_of_toLower hlow ▸ hc)

/-- The text of a declaration up to its semicolon. -/
def lineChars (d : Declaration) : List Char :=
  d.prop.toList ++ ':' :: ' ' :: (d.value.toList ++ importanceChars d.important)

theorem toList_written (d : Declaration) :
    (Node.declaration d).written.toList = lineChars d ++ [';'] := by
  obtain ⟨prop, value, important⟩ := d
  cases important <;> simp [Node.written, Declaration.written, lineChars, importanceChars]

theorem scan_property {name : List Char} (hne : name ≠ []) (hname : identWritten name = name)
    (rest : List Char) : Lexeme.scan (name ++ ':' :: rest) =
      Token.listFlat [.atom (.ident name), .atom (.literal [':'])] ++ Lexeme.scan rest := by
  have hcolon : LiteralStopsAt ':' rest := by constructor <;> simp
  have hstop : IdentStopsAt name (':' :: rest) :=
    ⟨by simp [startsName, startsEscape, isNameChar, isNameStart], by simp, by simp,
      fun _ => by simp [startsRange]⟩
  have h1 := scan_ident hne hstop
  have h2 : Lexeme.scan ([':'] ++ rest) = _ := Lexeme.scan_written (l := .atom (.literal [':']))
    (.inr ⟨':', rfl, rfl, by decide⟩) rfl hcolon
  rw [List.singleton_append] at h2
  rw [hname, h2] at h1
  exact h1

@[simp] theorem significant_blank (w : List Char) : significant (blank w) = [] := by
  cases w <;> rfl

/-- Any exclamation mark means what the written one means. -/
theorem sameMark_bang {t : Token} (h : t.isLiteral ['!']) : SameMark t (.atom (.literal ['!'])) := by
  cases t with
  | atom x =>
    cases x with
    | literal text =>
      obtain rfl : text = ['!'] := by simpa [Token.isLiteral] using h
      exact ⟨rfl, rfl, rfl⟩
    | _ => simp [Token.isLiteral] at h
  | _ => simp [Token.isLiteral] at h

/-- And any spelling of the word means what the written one means. -/
theorem sameMark_importantWord {w : Token} (h : isImportantWord w) :
    SameMark w (.atom (.ident "important".toList)) := by
  cases w with
  | atom x =>
    cases x with
    | ident n => exact ⟨rfl, h, rfl⟩
    | _ => simp [isImportantWord] at h
  | _ => simp [isImportantWord] at h

/-- What makes a value important is written as two tokens, with nothing of the gaps that were between
and behind them. -/
theorem sameMarks_important {t w : Token} {gap gap' : List Token}
    (hgap : ∀ g ∈ gap ++ gap', g.isSignificant = false) (hw : isImportantWord w)
    (ht : t.isLiteral ['!']) : SameMarks (t :: gap ++ w :: gap') importantTokens := by
  rw [List.forall_mem_append] at hgap
  have hsig : significant (t :: gap ++ w :: gap') = [t, w] := by
    have h1 : significant [t] = [t] := by simp [significant, isSignificant_of_isLiteral ht]
    have h2 : significant [w] = [w] := by simp [significant, isSignificant_of_isImportantWord hw]
    have hsplit : t :: gap ++ w :: gap' = [t] ++ gap ++ ([w] ++ gap') := by simp
    rw [hsplit, significant_append, significant_append, significant_append, h1, h2,
      significant_eq_nil hgap.1, significant_eq_nil hgap.2]
    rfl
  rw [SameMarks, hsig]
  exact .cons (sameMark_bang ht) (.cons (sameMark_importantWord hw) .nil)

/-- The value that is read back is the one that was read, without the whitespace around it. -/
theorem readValue?_blank {value w : List Token} {important : Bool}
    (hv : readValue? value = some (w, important)) (a b : List Char) :
    readValue? (blank a ++ Token.listReread (Token.trim w) ++ blank b ++
        importanceTokens important) =
      some (blank a ++ Token.listReread (Token.trim w) ++ blank b, important) := by
  have hmarks : SameMarks w (blank a ++ Token.listReread (Token.trim w) ++ blank b) := by
    exact sameMarks_of_eq (by simp)
  obtain ⟨-, -, hw⟩ := readValue?_eq_some hv
  cases important with
  | false =>
    obtain rfl : w = value := hw
    rw [importanceTokens, if_neg (by simp), List.append_nil]
    exact readValue?_plain hmarks hv
  | true =>
    obtain ⟨t, gap, wd, gap', rfl, hgap, hwd, ht⟩ := hw
    rw [importanceTokens, if_pos rfl]
    refine readValue?_important rfl (by decide) ?_ hv
    rw [List.append_assoc]
    exact hmarks.append (sameMarks_important hgap hwd ht)

theorem authoredText_blank (w : List Token) (a b : List Char) :
    authoredText (blank a ++ Token.listReread (Token.trim w) ++ blank b) = authoredText w := by
  obtain ⟨hfirst, hlast⟩ := ends_listReread w
  rw [authoredText_eq, trim_blank hfirst hlast, Token.listWritten_listReread, authoredText_eq]

theorem nul_not_mem_propertyName {name : List Char} (h : '\x00' ∉ name) :
    '\x00' ∉ (propertyName name).toList := by
  unfold propertyName
  split
  · simpa using h
  · simpa using mem_asciiLower h

theorem propertyName_ne_nil {name : List Char} (h : name ≠ []) : (propertyName name).toList ≠ [] := by
  unfold propertyName
  split <;> simpa [Text.asciiLower] using h

/-- A name that is written as it is starts as a name does. -/
theorem exists_head_of_identWritten {name : List Char} (hne : name ≠ [])
    (hname : identWritten name = name) : ∃ c r, name = c :: r ∧ isWhitespace c = false := by
  obtain ⟨c, r, hcr, -⟩ := head_identWritten hne []
  rw [hname, List.append_nil] at hcr
  refine ⟨c, r, hcr, not_isWhitespace_of_startsIdent (?_ : startsIdent (c :: r) = true)⟩
  rw [← hcr, ← hname]
  simpa using startsIdent_identWritten hne []

/-- What a declaration with a value `w` is read back as, with the blanks `a` and `b` that are read
around the value. -/
def declarationTokens (name : List Char) (w : List Token) (a b : List Char) (important : Bool) :
    List Token :=
  .atom (.ident name) :: .atom (.literal [':']) ::
    (blank a ++ Token.listReread (Token.trim w) ++ blank b ++ importanceTokens important)

/-- These tokens are one piece of a body, and the declaration is what they are read as. -/
theorem readChunk_declarationTokens {value w : List Token} {important : Bool}
    (hv : readValue? value = some (w, important)) (name a b : List Char) :
    readChunk (declarationTokens (propertyName name).toList w a b important) =
      [.declaration ⟨propertyName name, authoredText w, important⟩] := by
  have hread : readDeclaration? (declarationTokens (propertyName name).toList w a b important) = _ :=
    readDeclaration?_parts (List.forall_mem_nil _) (List.forall_mem_nil _) rfl
  rw [readValue?_blank hv, Option.map_some, authoredText_blank, propertyName_propertyName] at hread
  rw [declarationTokens] at hread ⊢
  rw [readChunk_significant rfl, hread]
  rfl

theorem short_declarationTokens {w : List Token} (h : Token.Settled (Token.trim w))
    (name a b : List Char) (important : Bool) :
    ∀ l ∈ Token.listFlat (declarationTokens name w a b important), l.overlong? = none := by
  have himportance : ∀ l ∈ Token.listFlat (importanceTokens important), l.overlong? = none := by
    cases important <;> decide
  rw [declarationTokens, Token.listFlat, Token.flat, List.singleton_append, List.forall_mem_cons,
    Token.listFlat, Token.flat, List.singleton_append, List.forall_mem_cons]
  refine ⟨rfl, rfl, ?_⟩
  simp only [Token.listFlat_append, List.forall_mem_append]
  exact ⟨⟨⟨short_blank a, Token.short_listReread h.short⟩, short_blank b⟩, himportance⟩

theorem isSemicolon_declarationTokens {w : List Token}
    (h : ∀ t ∈ Token.trim w, t.isSemicolon = false) (name a b : List Char) (important : Bool) :
    ∀ t ∈ declarationTokens name w a b important, t.isSemicolon = false := by
  have himportance : ∀ t ∈ importanceTokens important, t.isSemicolon = false := by
    cases important <;> decide
  have hblank : ∀ v, ∀ t ∈ blank v, t.isSemicolon = false := forall_blank fun _ => rfl
  rw [declarationTokens, List.forall_mem_cons, List.forall_mem_cons]
  refine ⟨rfl, rfl, ?_⟩
  simp only [List.forall_mem_append]
  exact ⟨⟨⟨hblank a, forall_listReread rfl isSemicolon_reread h⟩, hblank b⟩, himportance⟩

/-- Nothing in the text of a declaration is changed when the text is unified. -/
theorem unified_lineChars {d : Declaration} (hp : Unified d.prop.toList)
    (hv : Unified d.value.toList) : Unified (lineChars d) := by
  have himportance : Unified (importanceChars d.important) := by
    cases d.important <;> decide
  exact unified_append.mpr ⟨hp, unified_cons.mpr ⟨by decide, unified_cons.mpr ⟨by decide,
    unified_append.mpr ⟨hv, himportance⟩⟩⟩⟩

/-- A declaration whose name is written without escapes. The writer does not escape the name, so one
that needs it is read as something else. -/
theorem line_declaration {ts : List Token} {d : Declaration} (h : Token.Settled ts)
    (hs : ∀ t ∈ ts, t.isSemicolon = false) (hd : readDeclaration? ts = some d)
    (hname : identWritten d.prop.toList = d.prop.toList) (hc : closes d.value.toList) :
    ∃ us, Line (lineChars d) (.declaration d) us := by
  obtain ⟨before, name, between, colon, value, w, important, rfl, hb, hg, hcolon, hv, rfl⟩ :=
    exists_parts hd
  have hvalue : value <:+: before ++ .atom (.ident name) :: (between ++ colon :: value) :=
    ⟨before ++ .atom (.ident name) :: (between ++ [colon]), [], by simp⟩
  have hw : w <:+: value := isInfix_of_readValue? hv
  have hsettled : Token.Settled w := h.of_isInfix (hw.trans hvalue)
  have htrim : Token.Settled (Token.trim w) := hsettled.of_isInfix (trim_isInfix w)
  have htext : (authoredText w).toList = restored (Token.listWritten (Token.trim w)) := by
    simp [authoredText_eq]
  have hident : (Atom.ident name).WellFormed :=
    (h.of_isInfix ⟨before, between ++ colon :: value, by simp⟩ :
      Token.Settled [.atom (.ident name)]).sourced.1
  have hne := propertyName_ne_nil hident.1
  dsimp only at hname hc
  rw [htext] at hc
  -- `a` and `b` are the white space that the reading finds around the value
  obtain ⟨a, b, hscan⟩ := scan_value hsettled hc important
  refine ⟨declarationTokens (propertyName name).toList w a b important, ?_⟩
  constructor
  case unified =>
    refine unified_lineChars ?_ ?_
    · exact hname ▸ unified_identWritten (nul_not_mem_propertyName hident.2)
    · rw [htext]
      exact unified_restored (Token.unified_listWritten htrim.sourced)
  case start =>
    obtain ⟨c, r, hcr, hcw⟩ := exists_head_of_identWritten hne hname
    exact ⟨c, _, by rw [lineChars, hcr]; rfl, hcw⟩
  case scan =>
    intro cs
    have h1 := scan_property hne hname (' ' :: (restored (Token.listWritten (Token.trim w)) ++
      importanceChars important) ++ ';' :: cs)
    rw [hscan] at h1
    simpa [lineChars, htext, declarationTokens, Token.listFlat, Token.flat, List.append_assoc] using h1
  case short => exact short_declarationTokens htrim _ a b important
  case semicolon =>
    exact isSemicolon_declarationTokens
      (fun u hu => hs u ((hw.trans hvalue).subset ((trim_isInfix w).subset hu))) _ a b important
  case reads => exact readChunk_declarationTokens hv name a b

end CssExpand
