import CssExpand.Proofs.Syntax.Nesting

/-!
# The characters of written text

Two facts about the text that is written for tokens of a source, character by character. It needs no
unification (`unified_listWritten`): what the source lost when its line breaks were unified is not
written back. And each backslash in it has its own character after it (`closes`), unless the last
token is a backslash itself: such a token stood before a line break, which is not a part of the text
any more, so whatever is written next will look escaped.
-/

set_option autoImplicit false

namespace CssExpand.Syntax

/-! ## 1. The parts of written lexemes -/

namespace Composes

variable {P : List Char → Prop} (h : Composes P)
include h

theorem hexDigits (n : Nat) : P (Syntax.hexDigits n) := by
  have hdigit : ∀ d ∈ Syntax.hexDigits n, isHexDigit d := (hexDigits_spec n).1
  refine h.chars (fun hb => absurd (hdigit _ hb) (by decide)) fun d hd => ⟨?_, ?_, ?_⟩ <;>
    (rintro rfl; exact absurd (hdigit _ hd) (by decide))

theorem numeral {n : Numeral} (hn : n.WellFormed) : P n.chars :=
  h.chars (fun hb => absurd (Numeral.mem_chars hn hb) (by decide)) (Numeral.unified_chars hn)

theorem unitWritten {unit : List Char} (h0 : '\x00' ∉ unit) : P (Syntax.unitWritten unit) := by
  unfold Syntax.unitWritten
  split
  · exact h.append (h.append (x := ['\\', '6']) (h.escape (by decide)) (h.chars (by decide) (by decide)))
      (h.nameWritten fun hm => h0 (List.mem_of_mem_tail hm))
  · exact h.identWritten h0

theorem rangeWritten (first last : Nat) : P (Syntax.rangeWritten first last) := by
  refine h.append (h.append (h.chars (by decide) (by decide)) (h.hexDigits first)) ?_
  split
  · exact h.nil
  · exact h.cons (by decide) (by decide) (h.hexDigits last)

theorem stringCharWritten {c : Char} (h0 : c ≠ '\x00') : P (Syntax.stringCharWritten c) := by
  unfold Syntax.stringCharWritten
  split
  · next hq =>
    have hq : c = '"' ∨ c = '\\' := by simpa using hq
    refine h.escape ?_
    rcases hq with rfl | rfl <;> decide
  · next hq => exact h.breakEscape h0 (h.plain fun hb => hq (by simp [hb]))

theorem urlCharWritten {c : Char} (h0 : c ≠ '\x00') : P (Syntax.urlCharWritten c) := by
  unfold Syntax.urlCharWritten
  split
  · next hq =>
    have hq : c ∈ ['\'', '"', '\\', ' ', '(', ')'] := by simpa [or_assoc] using hq
    refine h.escape (unified_cons.mpr ⟨⟨h0, ?_, ?_⟩, unified_nil⟩) <;>
      (rintro rfl; exact absurd hq (by decide))
  · next hq =>
    split
    · exact h.append (x := ['\\', '9']) (h.escape (by decide)) (h.plain (by decide) (by decide))
    · exact h.breakEscape h0 (h.plain fun hb => hq (by simp [hb]))

/-- The text of a lexeme is composed of the parts, if it is no backslash, and so no part by itself. A
comment is no part either: it is written as it stands, with backslashes that escape nothing. -/
theorem written {l : Lexeme} (hl : l.WellFormed) (hb : l ≠ .atom (.literal ['\\']))
    (hcomment : ∀ text, Unified text → P (['/', '*'] ++ text ++ ['*', '/'])) : P l.written := by
  -- no NUL stands in a token that was read, so no character is written as one
  have hquoted : ∀ {value : List Char} {f : Char → List Char}, '\x00' ∉ value →
      (∀ {c}, c ≠ '\x00' → P (f c)) → P (value.flatMap f) := fun h0 hf =>
    h.flatMap fun _ hc => hf fun he => h0 (he ▸ hc)
  cases l with
  | atom a =>
    cases a with
    | whitespace text =>
      refine h.chars (fun hm => absurd (hl.2 _ hm) (by decide)) fun c hc => ⟨?_, ?_, ?_⟩ <;>
        (rintro rfl; exact absurd (hl.2 _ hc) (by decide))
    | comment text => exact hcomment text hl.2
    | literal text =>
      rcases hl with ht | ⟨c, rfl, -, hc⟩
      · have hlong : ∀ text ∈ longLiterals, '\\' ∉ text ∧ Unified text := by decide
        exact h.chars (hlong text ht).1 (hlong text ht).2
      · exact h.plain (fun he => hb (he ▸ rfl)) hc
    | ident name => exact h.identWritten hl.2
    | atKeyword name => exact h.cons (by decide) (by decide) (h.identWritten hl.2)
    | hash name isIdent =>
      refine h.cons (by decide) (by decide) ?_
      cases isIdent with
      | true => exact h.identWritten hl.2.1
      | false => exact h.nameWritten hl.2.1
    | string value closed =>
      obtain ⟨rfl, h0⟩ := hl
      exact h.cons (by decide) (by decide)
        (h.append (hquoted h0 h.stringCharWritten) (h.plain (by decide) (by decide)))
    | url value closed =>
      obtain ⟨rfl, h0⟩ := hl
      exact h.append (h.append (h.chars (by decide) (by decide)) (hquoted h0 h.urlCharWritten))
        (h.plain (by decide) (by decide))
    | unicodeRange first last => exact h.rangeWritten first last
    | number n => exact h.numeral hl
    | percentage n => exact h.append (h.numeral hl) (h.plain (by decide) (by decide))
    | dimension n unit => exact h.append (h.numeral hl.1) (h.unitWritten hl.2.2)
    | fault kind => exact hl.elim
  | openFunction name => exact h.append (h.identWritten hl.2) (h.plain (by decide) (by decide))
  | openBlock b => cases b <;> exact h.plain (by decide) (by decide)
  | close b => cases b <;> exact h.plain (by decide) (by decide)

end Composes

/-! ## 2. Unified text -/

namespace Lexeme

theorem unified_written {l : Lexeme} (h : l.WellFormed) : Unified l.written := by
  by_cases hb : l = .atom (.literal ['\\'])
  · subst hb
    exact (by decide : Unified ['\\'])
  · exact composes_unified.written h hb fun text ht => by simp [ht]

/-- Whatever was read, its text has no carriage return, no form feed and no null, so what is written
is not changed when it is read. -/
theorem unified_text_glued {ls : List Lexeme} (h : Sourced ls) : Unified (text (glued ls)) := by
  have hglue : ∀ l l' : Lexeme, Unified (text (glue l l')) := by
    intro l l'
    unfold glue
    split
    · simp only [text, List.flatMap_cons, List.flatMap_nil, written, Atom.written]
      decide
    · exact unified_nil
  induction ls with
  | nil => exact unified_nil
  | cons l ls ih =>
    have := text_glued_cons l ls []
    rw [List.append_nil] at this
    rw [this]
    refine unified_append.mpr ⟨unified_written h.1, ?_⟩
    cases ls with
    | nil => exact unified_nil
    | cons l' ls =>
      rw [after, List.append_nil]
      exact unified_append.mpr ⟨hglue l l', ih h.2.2.2⟩

end Lexeme

theorem Token.unified_listWritten {ts : List Token} (h : Lexeme.Sourced (listFlat ts)) :
    Unified (listWritten ts) := by
  rw [listWritten_eq ts h]
  exact Lexeme.unified_text_glued h

/-! ## 3. Closed text -/

/-- Whether each backslash of a text has a character of its own after it. -/
def closes : List Char → Bool
  | [] => true
  | '\\' :: _ :: cs => closes cs
  | ['\\'] => false
  | _ :: cs => closes cs

theorem closes_cons {c : Char} (h : c ≠ '\\') (cs : List Char) : closes (c :: cs) = closes cs := by
  cases cs <;> simp [closes, h]

@[simp] theorem closes_escape (c : Char) (cs : List Char) :
    closes ('\\' :: c :: cs) = closes cs := by
  simp [closes]

theorem composes_closes : Composes fun cs => ∀ ds, closes (cs ++ ds) = closes ds where
  nil _ := rfl
  append hx hy ds := by rw [List.append_assoc, hx, hy]
  plain hc _ ds := closes_cons hc ds
  escape _ ds := closes_escape _ ds

/-- The end of a comment is found in it, even if a backslash stands before it. -/
theorem closes_comment (text ds : List Char) :
    closes (text ++ '*' :: '/' :: ds) = closes ds := by
  have hslash : closes ('/' :: ds) = closes ds := closes_cons (by decide) ds
  fun_induction closes text with
  | case1 => rw [List.nil_append, closes_cons (by decide), hslash]
  | case2 c cs ih => simpa [closes_escape] using ih
  | case3 => rw [List.singleton_append, closes_escape, hslash]
  | case4 c cs h1 h2 ih =>
    have hc : c ≠ '\\' := by
      rintro rfl
      cases cs with
      | nil => exact h2 rfl rfl
      | cons d r => exact h1 d r rfl rfl
    rw [List.cons_append, closes_cons hc, ih]

namespace Lexeme

/-- Each lexeme but the backslash closes what it opens. -/
theorem closes_written {l : Lexeme} (h : l.WellFormed) (hb : l ≠ .atom (.literal ['\\']))
    (ds : List Char) : closes (l.written ++ ds) = closes ds := by
  refine composes_closes.written h hb (fun text _ ds => ?_) ds
  have hcomment := closes_comment text ds
  simp only [List.append_assoc, List.cons_append, List.nil_append]
  rw [closes_cons (by decide), closes_cons (by decide), hcomment]

/-- Text that ends in the backslash is not closed. -/
theorem not_closes_text_glued {front : List Lexeme}
    (h : Sourced (front ++ [.atom (.literal ['\\'])])) :
    closes (text (glued (front ++ [.atom (.literal ['\\'])]))) = false := by
  induction front with
  | nil => rfl
  | cons l front ih =>
    have ih := ih h.2.2.2
    obtain ⟨l', rest, hrest⟩ : ∃ l' rest, front ++ [.atom (.literal ['\\'])] = l' :: rest := by
      cases front with
      | nil => exact ⟨_, [], rfl⟩
      | cons l' rest => exact ⟨l', _, rfl⟩
    have htext := text_glued_cons l (front ++ [.atom (.literal ['\\'])]) []
    rw [List.append_nil] at htext
    rw [List.cons_append] at h ⊢
    rw [htext]
    rw [hrest] at h ih ⊢
    have hglue : ∀ cs, closes (text (glue l l') ++ cs) = closes cs := by
      intro cs
      unfold glue
      split
      · exact closes_written (l := .atom (.comment [])) ⟨by simp, unified_nil⟩ (by simp) cs
      · rfl
    by_cases hb : l = .atom (.literal ['\\'])
    · -- The backslash takes the line break that stands after it.
      subst hb
      obtain ⟨t, rfl⟩ := (h.2.1 l' rfl).backslash rfl
      have hclash : (joint (.atom (.literal ['\\']))).clash
          (joint (.atom (.whitespace ('\n' :: t)))) = false := Joint.not_clash_other _
      have hnext := text_glued_cons (.atom (.whitespace ('\n' :: t))) rest []
      rw [List.append_nil] at hnext
      rw [after_of_not_clash hclash, ← hnext]
      rw [hnext] at ih ⊢
      rw [← ih]
      exact (closes_escape '\n' _).trans (closes_cons (by decide) _).symm
    · rw [closes_written h.1 hb, after, hglue, List.append_nil, ih]

end Lexeme

end CssExpand.Syntax
