import CssExpand.Proofs.Text.LetterCase
import CssExpand.Syntax.Nesting

/-!
# Texts that a program has room for

Reading is total here. Brackets may nest as deep as the text has them, and the code of a surrogate is
read as the replacement, as any code is that no character has. A program has less room: its calls nest
with the brackets until its stack ends, and where a text is a sequence of codes, a surrogate gets into
it that cannot be encoded when the text is stored. Both end in errors that no function here gives.

So whatever is said about what stops a program, or about what it stores, is said of tractable texts
(`Tractable`). They nest no deeper than a stack allows for (`nestingLimit`), and every escape in them is
the character of its code (`takeEscape_of_scalar`).
-/

set_option autoImplicit false

namespace CssExpand.Syntax

/-! ## 1. Nesting -/

mutual

/-- How many brackets are open at the deepest place of a token. -/
def Token.depth : Token → Nat
  | .atom _ => 0
  | .function _ arguments => listDepth arguments + 1
  | .block _ content => listDepth content + 1

/-- How many brackets are open at the deepest place of a list of tokens. -/
def Token.listDepth : List Token → Nat
  | [] => 0
  | t :: ts => max t.depth (listDepth ts)

end

/-- How deep brackets are sure to be followed. A stack has room for about a thousand calls, and no step
of a conversion takes more than five of them for a bracket. -/
def nestingLimit : Nat := 100

/-! ## 2. Surrogates -/

/-- Whether a code is that of a surrogate, half of a pair that stands for one character. -/
def isSurrogate (n : Nat) : Bool := 0xD800 ≤ n && n ≤ 0xDFFF

/-- Whether the code of a surrogate stands behind a backslash. Whatever is escaped is passed over, so
that the second of two backslashes escapes nothing. -/
def escapesSurrogate : List Char → Bool
  | [] => false
  | '\\' :: c :: cs =>
    isSurrogate (hexValue (((c :: cs).take 6).takeWhile isHexDigit)) || escapesSurrogate cs
  | _ :: cs => escapesSurrogate cs

/-- Every code but those of surrogates, up to the last one, is that of a character. -/
theorem toNat_charOfCode {n : Nat} (hs : isSurrogate n = false) (h0 : n ≠ 0) (hn : n ≤ 0x10FFFF) :
    (charOfCode n).toNat = n := by
  have hvalid : n.isValidChar := by
    simp only [isSurrogate, Bool.and_eq_false_iff, decide_eq_false_iff_not] at hs
    rw [Nat.isValidChar]
    omega
  rw [charOfCode, if_neg h0, if_pos hvalid, Text.toNat_ofNat_of_isValidChar hvalid]

/-! ## 3. Tractable texts -/

/-- A text that a program has room for. -/
structure Tractable (text : String) : Prop where
  shallow : Token.listDepth (Token.ofChars text.toList) ≤ nestingLimit
  scalar : escapesSurrogate (unifyBreaks text.toList) = false

instance (text : String) : Decidable (Tractable text) :=
  decidable_of_iff (Token.listDepth (Token.ofChars text.toList) ≤ nestingLimit ∧
    escapesSurrogate (unifyBreaks text.toList) = false) ⟨fun h => ⟨h.1, h.2⟩, fun h => ⟨h.1, h.2⟩⟩

/-- An escape by a code is read as the character of that code, if it escapes no surrogate. -/
theorem takeEscape_of_scalar {cs : List Char} (h : escapesSurrogate ('\\' :: cs) = false)
    (hd : (cs.take 6).takeWhile isHexDigit ≠ [])
    (h0 : hexValue ((cs.take 6).takeWhile isHexDigit) ≠ 0)
    (hn : hexValue ((cs.take 6).takeWhile isHexDigit) ≤ 0x10FFFF) :
    (takeEscape cs).1.toNat = hexValue ((cs.take 6).takeWhile isHexDigit) := by
  cases cs with
  | nil => exact absurd rfl hd
  | cons c cs =>
    rw [escapesSurrogate, Bool.or_eq_false_iff] at h
    rw [takeEscape]
    simp only [List.isEmpty_iff, hd, if_false]
    exact toNat_charOfCode h.1 h0 hn

/-- Brackets in brackets, and an escaped backslash in front of digits. -/
example : Tractable "f([0], \"\\\\d800\") \\1F600 " := by
  constructor <;> cbv

end CssExpand.Syntax
