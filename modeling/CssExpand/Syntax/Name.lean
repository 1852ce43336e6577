import CssExpand.Text.LetterCase

/-!
# Names

The characters of CSS source, and the names that identifiers, functions, hashes, at-keywords and
units are made of. Reading a name undoes its escapes; writing it escapes again whatever would not
read back. Source text is first brought into a form where a line ends in one way only
(`unifyBreaks`), and everything after that may assume it.
-/

set_option autoImplicit false

namespace CssExpand.Syntax

/-! ## Characters -/

/-- Stands for a character that the source cannot hold. -/
def replacement : Char := '\uFFFD'

/-- Source text with one line break for all of them and without NUL. -/
def unifyBreaks : List Char → List Char
  | [] => []
  | '\r' :: '\n' :: rest => '\n' :: unifyBreaks rest
  | c :: rest =>
    (if c = '\x00' then replacement else if c = '\r' || c = '\x0C' then '\n' else c) ::
      unifyBreaks rest

/-- Whether a character separates tokens. -/
def isWhitespace (c : Char) : Bool := c == ' ' || c == '\n' || c == '\t'

/-- Whether a character may start a name. -/
def isNameStart (c : Char) : Bool := c.isAlpha || c == '_' || 0x7F < c.toNat

/-- Whether a character may stand in a name. -/
def isNameChar (c : Char) : Bool := isNameStart c || c.isDigit || c == '-'

/-- Whether a character is a hexadecimal digit. -/
def isHexDigit (c : Char) : Bool :=
  c.isDigit || ('a' ≤ c && c ≤ 'f') || ('A' ≤ c && c ≤ 'F')

/-- The value of a hexadecimal digit. -/
def hexDigitValue (c : Char) : Nat :=
  if c.isDigit then c.toNat - '0'.toNat
  else if 'a' ≤ c then c.toNat - 'a'.toNat + 10
  else c.toNat - 'A'.toNat + 10

/-- The number that hexadecimal digits write. -/
def hexValue (ds : List Char) : Nat := ds.foldl (fun n d => 16 * n + hexDigitValue d) 0

/-- The hexadecimal digits of a number, with capital letters. -/
def hexDigits (n : Nat) : List Char := (Nat.toDigits 16 n).map Char.toUpper

/-! ## Reading -/

/-- Whether the text starts with a backslash that escapes what follows it. -/
def startsEscape : List Char → Bool
  | '\\' :: '\n' :: _ => false
  | '\\' :: _ => true
  | _ => false

/-- Whether the text starts with a character of a name. -/
def startsName (cs : List Char) : Bool := cs.head?.any isNameChar || startsEscape cs

/-- Whether the text starts with an identifier. -/
def startsIdent : List Char → Bool
  | '-' :: cs => cs.head?.any (fun c => isNameStart c || c == '-') || startsEscape cs
  | cs => cs.head?.any isNameStart || startsEscape cs

/-- The character of a code point; an impossible one gives the replacement. The codes of surrogates,
halves of a pair, are among the impossible ones: a text is made of characters, and no character has such
a code. A program whose texts are made of codes keeps the half and fails when it has to encode the text.
So what is said of a program that stores or refuses texts is said of texts without such escapes. -/
def charOfCode (n : Nat) : Char :=
  if n = 0 then replacement else if n.isValidChar then Char.ofNat n else replacement

/-- Drops one whitespace character. -/
def dropOneWhitespace : List Char → List Char
  | [] => []
  | c :: cs => if isWhitespace c then cs else c :: cs

/-- Reads what follows the backslash of an escape: up to six hexadecimal digits with one whitespace
character after them, or else a character that stands for itself. -/
def takeEscape (cs : List Char) : Char × List Char :=
  let digits := (cs.take 6).takeWhile isHexDigit
  if digits.isEmpty then
    match cs with
    | [] => (replacement, [])
    | c :: rest => (c, rest)
  else (charOfCode (hexValue digits), dropOneWhitespace (cs.drop digits.length))

theorem length_dropOneWhitespace (cs : List Char) : (dropOneWhitespace cs).length ≤ cs.length := by
  unfold dropOneWhitespace
  split
  · simp
  · split <;> simp

theorem length_takeEscape (cs : List Char) : (takeEscape cs).2.length ≤ cs.length := by
  unfold takeEscape
  dsimp only
  split
  · split <;> simp
  · have h := length_dropOneWhitespace (cs.drop ((cs.take 6).takeWhile isHexDigit).length)
    simp only [List.length_drop] at h
    dsimp only
    omega

/-- Reads the longest name at the start, which may be empty. -/
def takeName (cs : List Char) : List Char × List Char :=
  match cs with
  | [] => ([], [])
  | c :: rest =>
    if c = '\\' then
      if rest.head? = some '\n' then ([], c :: rest)
      else
        let tail := takeName (takeEscape rest).2
        ((takeEscape rest).1 :: tail.1, tail.2)
    else if isNameChar c then
      let tail := takeName rest
      (c :: tail.1, tail.2)
    else ([], c :: rest)
termination_by cs.length
decreasing_by
  · have := length_takeEscape rest
    simp only [List.length_cons]
    omega
  · simp only [List.length_cons]
    omega

theorem length_takeName (cs : List Char) : (takeName cs).2.length ≤ cs.length := by
  fun_induction takeName cs with
  | case1 => simp
  | case2 => simp
  | case3 rest _ tail ih =>
    have := length_takeEscape rest
    simp only [List.length_cons, tail]
    omega
  | case4 c rest _ _ tail ih =>
    simp only [List.length_cons, tail]
    omega
  | case5 => simp

/-- A name that has a first character shortens the text. -/
theorem length_takeName_lt {cs : List Char} (h : startsName cs) :
    (takeName cs).2.length < cs.length := by
  unfold takeName
  match cs with
  | [] => simp [startsName, startsEscape] at h
  | c :: rest =>
    dsimp only
    split
    · rename_i hc
      subst hc
      split
      · rename_i hn
        cases rest with
        | nil => simp at hn
        | cons d r =>
          simp only [List.head?_cons, Option.some.injEq] at hn
          subst hn
          simp [startsName, startsEscape, isNameChar, isNameStart] at h
      · have h1 := length_takeEscape rest
        have h2 := length_takeName (takeEscape rest).2
        simp only [List.length_cons]
        omega
    · split
      · have := length_takeName rest
        simp only [List.length_cons]
        omega
      · rename_i hb hn
        have he : startsEscape (c :: rest) = false := by
          unfold startsEscape
          split <;> simp_all
        simp [startsName, hn, he] at h

/-- An identifier starts with a character of a name. -/
theorem startsName_of_startsIdent {cs : List Char} (h : startsIdent cs) : startsName cs := by
  match cs with
  | [] => simp [startsIdent, startsEscape] at h
  | c :: rest =>
    by_cases hc : c = '-'
    · subst hc
      simp [startsName, isNameChar]
    · have hi : startsIdent (c :: rest) = (isNameStart c || startsEscape (c :: rest)) := by
        simp [startsIdent, hc]
      rw [hi] at h
      cases hs : isNameStart c with
      | true => simp [startsName, isNameChar, hs]
      | false => simp only [hs, Bool.false_or] at h; simp [startsName, h]

/-! ## Writing -/

/-- The escape of a line break, which cannot be escaped by a backslash alone. -/
def breakEscape (c : Char) : Option (List Char) :=
  if c = '\n' then some ['\\', 'A', ' ']
  else if c = '\r' then some ['\\', 'D', ' ']
  else if c = '\x0C' then some ['\\', 'C', ' ']
  else none

/-- One character of a written name. -/
def nameCharWritten (c : Char) : List Char :=
  if isNameChar c then [c] else (breakEscape c).getD ['\\', c]

/-- A name as it is written after a character of a name. -/
def nameWritten (cs : List Char) : List Char := cs.flatMap nameCharWritten

/-- The first character of a written identifier, where a digit needs an escape too. -/
def identStartWritten (c : Char) : List Char :=
  if isNameStart c then [c]
  else if c.isDigit then '\\' :: (hexDigits c.toNat ++ [' '])
  else (breakEscape c).getD ['\\', c]

/-- A name as it is written where an identifier has to start. -/
def identWritten : List Char → List Char
  | ['-'] => ['\\', '-']
  | '-' :: '-' :: rest => '-' :: '-' :: nameWritten rest
  | '-' :: c :: rest => '-' :: (identStartWritten c ++ nameWritten rest)
  | c :: rest => identStartWritten c ++ nameWritten rest
  | [] => []

end CssExpand.Syntax
