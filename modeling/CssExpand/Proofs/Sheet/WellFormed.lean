import CssExpand.Proofs.Passes.SelfContained
import CssExpand.Proofs.Syntax.ReadBack

/-!
# Stylesheets that were built

A sheet need not come from the parser. Whatever built it, its layout is parsed as the same sheet if
its nodes stand where the parser would put them, its names are simple and its texts are stable
(`parse_write_wellFormed`).

A text is stable (`StableText`) if its tokens make the same text again and a semicolon behind it is
read as one. That says nothing of a brace or a blank behind it, and nothing of the tokens one by one.
But a text that is its own writing was read where it is written (`ReadBack`), so each of its lexemes
stops at everything that a layout puts behind one (`StableText.phrase`).
-/

set_option autoImplicit false

namespace CssExpand

open Syntax

/-! ## 1. Stable texts -/

/-- A text that is read, no integer in it being overlong, as tokens which make the same text again.
Nothing is asked of its single tokens: that they stop where the layout goes on follows from the text
being its own writing. -/
structure StableText (text : String) : Prop extends SelfContained text where
  ne_empty : text ≠ ""
  accepted : checkIntegers text = .ok ()
  first : ∀ t ∈ (Token.ofChars text.toList).head?, t.isWhitespace = false
  last : ∀ t ∈ (Token.ofChars text.toList).getLast?, t.isWhitespace = false
  block : ∀ t ∈ Token.ofChars text.toList, isCurlyBlock t = false
  written : Token.write (Token.ofChars text.toList) = text
  tab : ¬['\\', '\t'] <:+ text.toList
  slash : ¬[replacement, '/'] <:+ text.toList

/-- Whether a text is stable. -/
def isStableText (text : String) : Bool :=
  let ts := Token.ofChars text.toList
  text != "" && !Token.listHasFault ts && ts.all (fun t => !t.isSemicolon && !isCurlyBlock t) &&
    ts.head?.all (!·.isWhitespace) && ts.getLast?.all (!·.isWhitespace) &&
    Token.listFlat (Token.ofChars (text.toList ++ [';'])) ==
      Token.listFlat ts ++ [.atom (.literal [';'])] &&
    (checkIntegers text).isOk && Token.write ts == text &&
    !(['\\', '\t'].isSuffixOf text.toList) && !([replacement, '/'].isSuffixOf text.toList)

/-- The check decides the property. -/
theorem stableText_iff {text : String} : isStableText text = true ↔ StableText text := by
  have hflat : Token.ofChars (text.toList ++ [';']) =
      Token.ofChars text.toList ++ [.atom (.literal [';'])] ↔
      Token.listFlat (Token.ofChars (text.toList ++ [';'])) =
        Token.listFlat (Token.ofChars text.toList) ++ [.atom (.literal [';'])] := by
    have hlast : Token.listFlat (Token.ofChars text.toList ++ [.atom (.literal [';'])]) = _ :=
      Token.listFlat_append _ _
    refine ⟨fun h => by rw [h, hlast]; rfl, fun h => ?_⟩
    have hnest := congrArg (nest [] []) (h.trans hlast.symm)
    rwa [Token.nest_listFlat_eq, Token.nest_listFlat_eq] at hnest
  have hok : (checkIntegers text).isOk = true ↔ checkIntegers text = .ok () := by
    cases checkIntegers text with
    | error e => exact iff_of_false (by simp [Except.isOk, Except.toBool]) (by simp)
    | ok u => exact iff_of_true rfl rfl
  have hsuffix : ∀ ws : List Char, (!(ws.isSuffixOf text.toList)) = true ↔ ¬ws <:+ text.toList := by
    intro ws
    rw [Bool.not_eq_true', ← List.isSuffixOf_iff_suffix, Bool.not_eq_true]
  simp only [isStableText, Bool.and_eq_true, hsuffix, hok, beq_iff_eq, ← hflat, bne_iff_ne,
    Bool.not_eq_true', List.all_eq_true, Option.all_eq_true]
  constructor
  · rintro ⟨⟨⟨⟨⟨⟨⟨⟨⟨h1, h2⟩, h3⟩, h4⟩, h5⟩, h6⟩, h7⟩, h8⟩, h9⟩, h10⟩
    exact ⟨⟨h2, fun t ht => (h3 t ht).1, h6⟩, h1, h7, h4, h5, fun t ht => (h3 t ht).2, h8, h9, h10⟩
  · rintro ⟨⟨h2, h3, h6⟩, h1, h7, h4, h5, h3', h8, h9, h10⟩
    exact ⟨⟨⟨⟨⟨⟨⟨⟨⟨h1, h2⟩, fun t ht => ⟨h3 t ht, h3' t ht⟩⟩, h4⟩, h5⟩, h6⟩, h7⟩, h8⟩, h9⟩, h10⟩

instance (text : String) : Decidable (StableText text) :=
  decidable_of_iff (isStableText text = true) stableText_iff

namespace StableText

variable {text : String} (h : StableText text)
include h

theorem readBack : ReadBack text := ⟨h.accepted, h.faultless, h.written⟩

theorem ne_nil : Token.ofChars text.toList ≠ [] := by
  intro hnil
  refine h.ne_empty ?_
  rw [← h.written, hnil]
  rfl

theorem firm : Token.Firm (Token.ofChars text.toList) := ⟨h.last, h.backslash⟩

/-- A stable text is read as its tokens whatever a layout puts behind it. -/
theorem phrase : Phrase text.toList (Token.ofChars text.toList) := by
  have hscan : ∀ cs, Separates cs → Lexeme.scan (text.toList ++ cs) =
      Token.listFlat (Token.ofChars text.toList) ++ Lexeme.scan cs := by
    intro cs hcs
    have hread := Token.scan_listWritten h.readBack.settled h.firm hcs
    rwa [h.readBack.listWritten_eq, h.readBack.listReread_eq] at hread
  obtain ⟨c, r, hcr, hc⟩ := exists_head_of_scan (hscan [] (by simp [Separates])) h.ne_nil h.first
  refine ⟨h.readBack.unified, ?_, hscan, h.readBack.settled.short, h.readBack.listWritten_eq, h.first, h.last, h.block⟩
  rw [hcr]
  rintro d ⟨⟩
  exact hc

/-- Nothing at the end of the text is written in another way for a hack. -/
theorem restored_eq : restored text.toList = text.toList := by
  refine restored_plain h.tab h.slash fun hbreak => ?_
  obtain ⟨front, l, hflat, hw⟩ := Token.exists_last h.ne_nil h.firm
  have hwf : l.WellFormed := (hflat ▸ h.readBack.sourced).of_append.1
  rw [← h.readBack.listWritten_eq, Token.listWritten_eq _ h.readBack.sourced, hflat, getLast?_text_glued hwf] at hbreak
  rcases Lexeme.name?_of_getLast? hwf hw (by simp) hbreak with ⟨hslash, -⟩ | ⟨-, -, hne⟩
  · exact absurd hslash (by decide)
  · exact hne rfl

theorem authoredText_eq (v w : List Char) :
    authoredText (blank v ++ Token.ofChars text.toList ++ blank w) = text := by
  rw [CssExpand.authoredText_eq, trim_blank h.first h.last, h.readBack.listWritten_eq, h.restored_eq,
    String.ofList_toList]

end StableText

/-! ## 2. Simple names -/

/-- Whether a name is a small letter with small letters and hyphens after it. -/
def isSimpleName : List Char → Bool
  | [] => false
  | c :: rest => c.isLower && rest.all fun d => d.isLower || d == '-'

/-- Whether the name of a property is simple, behind two hyphens if it is a custom one. -/
def isSimpleProperty : List Char → Bool
  | '-' :: '-' :: rest => isSimpleName rest
  | name => isSimpleName name

theorem isNameStart_of_isLower {c : Char} (h : c.isLower) : isNameStart c := by
  simp [isNameStart, Char.isAlpha, h]

theorem nameWritten_eq {name : List Char} (h : ∀ c ∈ name, isNameChar c) :
    nameWritten name = name := by
  induction name with
  | nil => rfl
  | cons c name ih =>
    rw [List.forall_mem_cons] at h
    rw [nameWritten, List.flatMap_cons, nameCharWritten, if_pos h.1]
    exact congrArg (c :: ·) (ih h.2)

/-- The characters of a simple name are small letters and hyphens, a letter in front. -/
theorem exists_of_isSimpleName {name : List Char} (h : isSimpleName name) :
    ∃ c rest, name = c :: rest ∧ c.isLower ∧ ∀ d ∈ name, d.isLower ∨ d = '-' := by
  match name, h with
  | c :: rest, h =>
    simp only [isSimpleName, Bool.and_eq_true, List.all_eq_true, Bool.or_eq_true, beq_iff_eq] at h
    exact ⟨c, rest, rfl, h.1, List.forall_mem_cons.mpr ⟨.inl h.1, h.2⟩⟩

theorem isNameChar_of_simple {d : Char} (h : d.isLower ∨ d = '-') : isNameChar d := by
  rcases h with h | rfl
  · exact isNameChar_of_isNameStart (isNameStart_of_isLower h)
  · decide

theorem toLower_of_simple {d : Char} (h : d.isLower ∨ d = '-') : d.toLower = d := by
  rcases h with h | rfl
  · simp only [Char.isLower, Bool.and_eq_true, decide_eq_true_eq] at h
    rw [Char.toLower, dif_neg]
    exact fun hupper => absurd (UInt32.le_trans h.1 hupper.2) (by decide)
  · decide

theorem atName_of_isSimpleName {name : List Char} (h : isSimpleName name) : AtName name := by
  obtain ⟨c, rest, rfl, hc, hall⟩ := exists_of_isSimpleName h
  have hne : c ≠ '-' := by
    rintro rfl
    exact absurd hc (by decide)
  refine ⟨?_, by simp, ?_, ?_⟩
  · intro d hd
    refine ⟨?_, ?_, ?_⟩ <;> rintro rfl <;>
      exact absurd (isNameChar_of_simple (hall _ hd)) (by decide)
  · have hrest : nameWritten rest = rest :=
      nameWritten_eq fun d hd => isNameChar_of_simple (hall d (List.mem_cons_of_mem c hd))
    simp [identWritten, identStartWritten, hne, isNameStart_of_isLower hc, hrest]
  · exact (List.map_congr_left fun d hd => toLower_of_simple (hall d hd)).trans (List.map_id _)

/-- A simple name of a property is written and read as it is. -/
theorem written_of_isSimpleProperty {name : List Char} (h : isSimpleProperty name) :
    Unified name ∧ name ≠ [] ∧ identWritten name = name ∧ propertyName name = String.ofList name := by
  unfold isSimpleProperty at h
  split at h
  · next rest =>
    have hrest := atName_of_isSimpleName h
    obtain ⟨-, -, -, -, hall⟩ := exists_of_isSimpleName h
    have hwritten : nameWritten rest = rest :=
      nameWritten_eq fun d hd => isNameChar_of_simple (hall d hd)
    refine ⟨?_, by simp, by rw [identWritten, hwritten], by simp [propertyName]⟩
    exact unified_cons.mpr ⟨by decide, unified_cons.mpr ⟨by decide, hrest.unified⟩⟩
  · next hcustom =>
    have hname := atName_of_isSimpleName h
    refine ⟨hname.unified, hname.ne_nil, hname.written, ?_⟩
    rw [propertyName, hname.lower, ite_self]

/-! ## 3. Lines -/

/-- Nothing among the tokens makes a value important. -/
theorem foldl_take_plain {ts : List Token} (hb : ∀ t ∈ ts, t.isLiteral ['!'] = false)
    (hc : ∀ t ∈ ts, isCurlyBlock t = false) {r : ValueReading} (hi : r.importance = .none)
    (hm : r.misplaced = false) : (ts.foldl ValueReading.take r).importance = .none ∧
      (ts.foldl ValueReading.take r).misplaced = false := by
  induction ts generalizing r with
  | nil => exact ⟨hi, hm⟩
  | cons t ts ih =>
    rw [List.forall_mem_cons] at hb hc
    refine ih hb.2 hc.2 ?_ ?_ <;>
      simp only [ValueReading.take, hi, hb.1, Bool.false_eq_true, if_false, ValueReading.takePlain] <;>
      split <;> simp [hi, hm, hc.1]

/-- An exclamation mark and the word after it make what was read before them important. -/
theorem result?_take_important {r : ValueReading} {t w : Token} (hi : r.importance = .none)
    (hm : r.misplaced = false) (ht : t.isLiteral ['!']) (hw : isImportantWord w) :
    ((r.take t).take w).result? = some (r.read.reverse, true) := by
  have hbang : r.take t = { r with importance := .bang r.read, read := t :: r.read } := by
    simp only [ValueReading.take, hi, ht, if_true]
  rw [hbang]
  simp only [ValueReading.take, hw, if_true, ValueReading.result?, hm, Bool.false_eq_true, if_false]

/-- The blank between a value and the words that make it important. -/
def importanceGap (important : Bool) : List Char := if important then [' '] else []

/-- Without an exclamation mark and a block in it a value is read as it is, and what stands behind it
decides whether it is important. -/
theorem readValue?_of_plain {ts : List Token} (hb : ∀ t ∈ ts, t.isLiteral ['!'] = false)
    (hc : ∀ t ∈ ts, isCurlyBlock t = false) (important : Bool) :
    readValue? (ts ++ importanceTokens important) = some (ts, important) := by
  obtain ⟨hi, hm⟩ := foldl_take_plain hb hc (r := {}) rfl rfl
  have hread := ValueReading.read_foldl ts {}
  rw [List.append_nil] at hread
  rw [readValue?, List.foldl_append]
  generalize ts.foldl ValueReading.take {} = r at hi hm hread ⊢
  cases important with
  | false => simp [importanceTokens, ValueReading.result?, hi, hm, hread]
  | true =>
    have hresult : ((r.take (.atom (.literal ['!']))).take _).result? = _ :=
      result?_take_important hi hm rfl (w := .atom (.ident "important".toList)) (by decide)
    rw [hread, List.reverse_reverse] at hresult
    exact hresult

theorem scan_importance (important : Bool) (cs : List Char) :
    Lexeme.scan (importanceChars important ++ ';' :: cs) = Token.listFlat
      (blank (importanceGap important) ++ importanceTokens important) ++ Lexeme.scan (';' :: cs) := by
  cases important with
  | false => rfl
  | true =>
    have hspace : IsBlank [' '] := by simp [IsBlank, isWhitespace]
    have hblank : Lexeme.scan ([' '] ++ ("!important".toList ++ ';' :: cs)) = _ :=
      scan_blank hspace (by rintro c ⟨⟩; decide)
    rw [scan_important] at hblank
    exact hblank

theorem separates_importance (important : Bool) (cs : List Char) :
    Separates (importanceChars important ++ ';' :: cs) := by
  cases important with
  | false => exact separates_cons rfl cs
  | true => exact separates_cons rfl _

/-- The tokens of a stable value, with the blanks around it. -/
def valueTokens (d : Declaration) : List Token :=
  blank [' '] ++ Token.ofChars d.value.toList ++ blank (importanceGap d.important)

/-- The tokens of a declaration with a stable value, up to its semicolon. -/
def lineTokens (d : Declaration) : List Token :=
  .atom (.ident d.prop.toList) :: .atom (.literal [':']) ::
    (valueTokens d ++ importanceTokens d.important)

/-- What is true of the tokens of a value and of no whitespace is true of the blanks around it. -/
theorem forall_valueTokens {d : Declaration} {p : Token → Bool}
    (hw : ∀ w, p (.atom (.whitespace w)) = false)
    (hv : ∀ t ∈ Token.ofChars d.value.toList, p t = false) : ∀ t ∈ valueTokens d, p t = false := by
  rw [valueTokens, List.forall_mem_append, List.forall_mem_append]
  exact ⟨⟨forall_blank hw _, hv⟩, forall_blank hw _⟩

/-- The text of a declaration is read as its tokens: the name, the colon, the blank and the value. -/
theorem scan_lineChars {d : Declaration} (hp : isSimpleProperty d.prop.toList)
    (hv : StableText d.value) (cs : List Char) : Lexeme.scan (lineChars d ++ ';' :: cs) =
      Token.listFlat (lineTokens d) ++ Lexeme.scan (';' :: cs) := by
  obtain ⟨-, hne, hwritten, -⟩ := written_of_isSimpleProperty hp
  have hphrase := hv.phrase
  have hspace : IsBlank [' '] := by simp [IsBlank, isWhitespace]
  have hvalue : Lexeme.scan (d.value.toList ++ (importanceChars d.important ++ ';' :: cs)) =
      Token.listFlat (Token.ofChars d.value.toList ++ (blank (importanceGap d.important) ++
        importanceTokens d.important)) ++ Lexeme.scan (';' :: cs) := by
    rw [hphrase.scan _ (separates_importance _ cs), scan_importance, Token.listFlat_append _ (_ ++ _),
      List.append_assoc]
  have hhead : ∀ c ∈ (d.value.toList ++ (importanceChars d.important ++ ';' :: cs)).head?,
      isWhitespace c = false := by
    obtain ⟨c, r, hcr⟩ := List.exists_cons_of_ne_nil (mt hphrase.eq_nil_iff.mp hv.ne_nil)
    have hc := hphrase.start c (by rw [hcr]; rfl)
    rw [hcr]
    rintro e ⟨⟩
    exact hc
  have hblank := scan_blank hspace hhead
  rw [hvalue] at hblank
  have hline := scan_property hne hwritten
    ([' '] ++ (d.value.toList ++ (importanceChars d.important ++ ';' :: cs)))
  have hsplit : Token.listFlat (lineTokens d) = _ :=
    Token.listFlat_append [.atom (.ident d.prop.toList), .atom (.literal [':'])]
      (valueTokens d ++ importanceTokens d.important)
  rw [hblank] at hline
  rw [hsplit]
  simpa [lineChars, valueTokens, Token.listFlat_append, List.append_assoc] using hline

/-- A declaration with a stable value is read as it is. -/
theorem line_stable {d : Declaration} (hp : isSimpleProperty d.prop.toList) (hv : StableText d.value)
    (hb : ∀ t ∈ Token.ofChars d.value.toList, t.isLiteral ['!'] = false) :
    Line (lineChars d) (.declaration d) (lineTokens d) := by
  obtain ⟨hunified, hne, hwritten, hprop⟩ := written_of_isSimpleProperty hp
  have hphrase := hv.phrase
  have himportance : Unified (importanceChars d.important) ∧
      (∀ l ∈ Token.listFlat (importanceTokens d.important), l.overlong? = none) ∧
        ∀ t ∈ importanceTokens d.important, t.isSemicolon = false := by
    cases d.important <;> decide
  refine ⟨?_, ?_, scan_lineChars hp hv, ?_, ?_, ?_⟩
  · exact unified_append.mpr ⟨hunified, unified_cons.mpr ⟨by decide, unified_cons.mpr ⟨by decide,
      unified_append.mpr ⟨hphrase.unified, himportance.1⟩⟩⟩⟩
  · obtain ⟨c, r, hcr, -⟩ := head_identWritten hne []
    have hident := startsIdent_identWritten hne []
    rw [hcr] at hident
    rw [hwritten, List.append_nil] at hcr
    exact ⟨c, _, by rw [lineChars, hcr]; rfl, not_isWhitespace_of_startsIdent hident⟩
  · rw [lineTokens, Token.listFlat, Token.flat, List.singleton_append, List.forall_mem_cons,
      Token.listFlat, Token.flat, List.singleton_append, List.forall_mem_cons]
    simp only [valueTokens, Token.listFlat_append, List.forall_mem_append]
    exact ⟨rfl, rfl, ⟨⟨short_blank _, hphrase.short⟩, short_blank _⟩, himportance.2.1⟩
  · rw [lineTokens, List.forall_mem_cons, List.forall_mem_cons, List.forall_mem_append]
    exact ⟨rfl, rfl, forall_valueTokens (fun _ => rfl) hv.unended, himportance.2.2⟩
  · have hvalue := readValue?_of_plain (forall_valueTokens (fun _ => rfl) hb)
      (forall_valueTokens (fun _ => rfl) hv.block) d.important
    have hread : readDeclaration? (.atom (.ident d.prop.toList) :: .atom (.literal [':']) ::
        (valueTokens d ++ importanceTokens d.important)) = _ :=
      readDeclaration?_parts (List.forall_mem_nil _) (List.forall_mem_nil _) rfl
    rw [hvalue, Option.map_some, valueTokens, hv.authoredText_eq, hprop, String.ofList_toList] at hread
    rw [lineTokens, readChunk_significant rfl, valueTokens, hread]
    rfl

/-- A stable text that starts with no name and no comment is read as a raw piece. -/
theorem line_stableRaw {text : String} (h : StableText text)
    (hc : ∀ t ∈ (Token.ofChars text.toList).head?, t.isComment = false)
    (hi : ∀ name, (Token.ofChars text.toList).head? ≠ some (.atom (.ident name))) :
    Line text.toList (.raw text) (Token.ofChars text.toList) := by
  have hphrase := h.phrase
  obtain ⟨c, r, hcr⟩ := List.exists_cons_of_ne_nil (mt hphrase.eq_nil_iff.mp h.ne_nil)
  refine ⟨hphrase.unified, ⟨c, r, hcr, hphrase.start c (by rw [hcr]; rfl)⟩,
    fun cs => hphrase.scan _ (separates_cons rfl cs), hphrase.short, h.unended, ?_⟩
  have hauthored := h.authoredText_eq [] []
  obtain ⟨t, ts, hts⟩ := List.exists_cons_of_ne_nil h.ne_nil
  have hsignificant : t.isSignificant := by
    simp [Token.isSignificant, h.first t (by rw [hts]; rfl), hc t (by rw [hts]; rfl)]
  have hnone : readDeclaration? (t :: ts) = none := by
    have hdrop : (t :: ts).dropWhile (!·.isSignificant) = t :: ts := by simp [hsignificant]
    rw [readDeclaration?, hdrop]
    split
    · next name rest heq =>
      obtain ⟨rfl, rfl⟩ := List.cons.inj heq
      exact absurd (by rw [hts]; rfl) (hi name)
    · rfl
  have hempty : blank [] = [] := rfl
  rw [hempty, List.nil_append, List.append_nil] at hauthored
  rw [hts] at hauthored ⊢
  rw [readChunk_significant hsignificant, hnone, hauthored]
  rfl

/-! ## 4. Well-formed sheets -/

/-- A token that a selector may start with. Names with two hyphens are left to declarations. -/
structure StartsSelector (t : Token) : Prop where
  atKeyword : ∀ name, t ≠ .atom (.atKeyword name)
  comment : t.isComment = false
  marker : hidesSheet t = false
  custom : ∀ name, t = .atom (.ident name) → ¬['-', '-'] <+: name

/-- A prelude is left out, or a stable text. -/
def IsPrelude (prelude : String) : Prop := prelude = "" ∨ StableText prelude

/-- A node of a body whose texts are those of one node. -/
inductive Node.WellFormedInBody : Node → Prop
  | declaration {d : Declaration} (prop : isSimpleProperty d.prop.toList) (value : StableText d.value)
    (bang : ∀ t ∈ Token.ofChars d.value.toList, t.isLiteral ['!'] = false) :
    WellFormedInBody (.declaration d)
  | raw {text : String} (stable : StableText text)
    (comment : ∀ t ∈ (Token.ofChars text.toList).head?, t.isComment = false)
    (ident : ∀ name, (Token.ofChars text.toList).head? ≠ some (.atom (.ident name))) :
    WellFormedInBody (.raw text)
  | comment {text : String} (h : IsCommentText text) : WellFormedInBody (.comment text)

/-- A node of a list of rules whose texts are those of one node, with such nodes inside. The block of
an at-rule is nested exactly if its name says that rules are in it. A parser makes only such nodes from
a source that is read back, and other programs can see to it one node at a time. -/
inductive Node.WellFormed : Node → Prop
  | comment {text : String} (h : IsCommentText text) : WellFormed (.comment text)
  | rule {selector : String} {nodes : List Node} (stable : StableText selector)
    (start : ∀ t ∈ (Token.ofChars selector.toList).head?, StartsSelector t)
    (body : ∀ n ∈ nodes, n.WellFormedInBody) : WellFormed (.rule selector nodes)
  | atStatement {name prelude : String} (simple : isSimpleName name.toList) (hp : IsPrelude prelude) :
    WellFormed (.atStatement name prelude false)
  | atRules {name prelude : String} {nodes : List Node} (simple : isSimpleName name.toList)
    (hp : IsPrelude prelude) (holds : holdsRules name = true) (rules : ∀ n ∈ nodes, WellFormed n) :
    WellFormed (.atBlock name prelude true nodes)
  | atBody {name prelude : String} {nodes : List Node} (simple : isSimpleName name.toList)
    (hp : IsPrelude prelude) (holds : holdsRules name = false)
    (body : ∀ n ∈ nodes, n.WellFormedInBody) : WellFormed (.atBlock name prelude false nodes)

theorem StartsSelector.take {t : Token} (h : StartsSelector t) (hw : t.isWhitespace = false)
    (top : Bool) : Pending.take top .nothing t = ([], .rule [t]) := by
  have hplain : (top && hidesSheet t) = false := by rw [h.marker, Bool.and_false]
  unfold Pending.take
  dsimp only
  split
  · cases hw
  · cases h.comment
  · exact absurd rfl (h.atKeyword _)
  · rw [hplain]
    rfl

theorem exists_phrase_of_isPrelude {prelude : String} (h : IsPrelude prelude) :
    ∃ ts, Phrase prelude.toList ts ∧ ∀ t ∈ ts, t.isSemicolon = false := by
  rcases h with rfl | h
  · exact ⟨[], ⟨unified_nil, by simp, fun _ _ => rfl, by simp [Token.listFlat], rfl, by simp, by simp,
      by simp⟩, by simp⟩
  · exact ⟨_, h.phrase, h.unended⟩

theorem Node.WellFormedInBody.lastsInBody {n : Node} (h : n.WellFormedInBody) : n.LastsInBody := by
  cases h with
  | @declaration d prop value bang =>
    exact .line (toList_written d) (line_stable prop value bang)
  | @raw text stable comment ident =>
    exact .line (by simp [Node.written]) (line_stableRaw stable comment ident)
  | comment h => exact .comment h

/-- A well-formed node has what it takes to be written and read again, by cases on its kind. -/
theorem Node.WellFormed.lasts {n : Node} (h : n.WellFormed) (top : Bool) : n.Lasts top := by
  induction h generalizing top with
  | comment h => exact .comment h
  | rule stable start body =>
    exact .rule stable.phrase (fun t ht => (start t ht).take (stable.first t ht) top)
      fun n hn => (body n hn).lastsInBody
  | atStatement simple hp =>
    obtain ⟨ts, hphrase, hsemicolon⟩ := exists_phrase_of_isPrelude hp
    exact .atStatement (atName_of_isSimpleName simple) hphrase hsemicolon
  | atRules simple hp holds rules ih =>
    obtain ⟨ts, hphrase, hsemicolon⟩ := exists_phrase_of_isPrelude hp
    exact .atRules (atName_of_isSimpleName simple) hphrase hsemicolon holds fun n hn => ih n hn false
  | atBody simple hp holds body =>
    obtain ⟨ts, hphrase, hsemicolon⟩ := exists_phrase_of_isPrelude hp
    exact .atBody (atName_of_isSimpleName simple) hphrase hsemicolon holds
      fun n hn => (body n hn).lastsInBody

/-- A well-formed sheet, whatever built it, is written, and parsed again as it is. A program that builds
a stylesheet node by node has no source to go back to, so the conditions are on the texts in the nodes,
each by itself: that one is read back says nothing yet of the same text between others. -/
theorem parse_write_wellFormed {sheet : Sheet} (h : ∀ n ∈ sheet, n.WellFormed) {indent : String}
    (hi : IsBlank indent.toList) :
    ∃ text, sheet.write indent = .ok text ∧ Sheet.parse text = .ok sheet :=
  parse_write (fun n hn => (h n hn).lasts true) hi

/-- A sheet with every kind of node, as an editor may put it together. -/
def builtSheet : Sheet :=
  [.comment "!", .atStatement "import" "url(x)" false,
   .atBlock "media" "" true
    [.rule "a>b" [.raw "*top:1", .declaration ⟨"top", "calc(1px + 2em)", true⟩, .comment ""]],
   .atBlock "page" ":first" false [.declaration ⟨"--x", "0", false⟩]]

/-- A sheet that was built node by node and never read satisfies the conditions. -/
theorem parse_write_wellFormed_builtSheet :
    (∀ n ∈ builtSheet, n.WellFormed) ∧ IsBlank "\t".toList ∧
      ∃ text, builtSheet.write "\t" = .ok text ∧ Sheet.parse text = .ok builtSheet := by
  have hstable : (["url(x)", "a>b", "*top:1", "calc(1px + 2em)", ":first", "0"].all
      isStableText) = true := by cbv
  simp only [List.all_cons, List.all_nil, Bool.and_eq_true, stableText_iff] at hstable
  obtain ⟨hurl, hselector, hraw, hvalue, hpseudo, hzero, -⟩ := hstable
  have hstart : (Token.ofChars "a>b".toList).head? = some (.atom (.ident ['a'])) := by cbv
  have hrawStart : (Token.ofChars "*top:1".toList).head? = some (.atom (.literal ['*'])) := by cbv
  have hbang : (["calc(1px + 2em)", "0"].all fun value =>
      (Token.ofChars value.toList).all fun t => !t.isLiteral ['!']) = true := by cbv
  simp only [List.all_cons, List.all_nil, Bool.and_true, Bool.and_eq_true, List.all_eq_true,
    Bool.not_eq_true'] at hbang
  have hcomment : ∀ text ∈ ["!", ""], IsCommentText text := by
    unfold IsCommentText
    decide
  have hbody : ∀ n ∈ [Node.raw "*top:1", .declaration ⟨"top", "calc(1px + 2em)", true⟩, .comment ""],
      n.WellFormedInBody := by
    rw [List.forall_mem_cons, List.forall_mem_cons, List.forall_mem_singleton]
    refine ⟨.raw hraw ?_ fun name => ?_, .declaration rfl hvalue hbang.1,
      .comment (hcomment _ (by simp))⟩ <;> rw [hrawStart]
    · rintro t ⟨⟩
      rfl
    · simp
  have hrule : ∀ n ∈ [Node.rule "a>b" [.raw "*top:1",
      .declaration ⟨"top", "calc(1px + 2em)", true⟩, .comment ""]], n.WellFormed := by
    rw [List.forall_mem_singleton]
    refine .rule hselector ?_ hbody
    rw [hstart]
    rintro t ⟨⟩
    exact ⟨by simp, rfl, rfl, by rintro name ⟨⟩; decide⟩
  have hwf : ∀ n ∈ builtSheet, n.WellFormed := by
    rw [builtSheet, List.forall_mem_cons, List.forall_mem_cons, List.forall_mem_cons,
      List.forall_mem_singleton]
    refine ⟨.comment (hcomment _ (by simp)), .atStatement rfl (.inr hurl),
      .atRules rfl (.inl rfl) rfl hrule, .atBody rfl (.inr hpseudo) rfl ?_⟩
    rw [List.forall_mem_singleton]
    exact .declaration rfl hzero hbang.2
  have hindent : IsBlank "\t".toList := by simp [IsBlank, isWhitespace]
  exact ⟨hwf, hindent, parse_write_wellFormed hwf hindent⟩

end CssExpand
