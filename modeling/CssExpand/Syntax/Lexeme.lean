import CssExpand.Syntax.Name
import CssExpand.Syntax.Token

/-!
# Lexemes of a text

Cutting source text into lexemes. What a lexeme is depends on the text from its first character on
and on nothing before it, so the scan carries no state: one step (`next`) names the lexemes that
start here and hands on a shorter text (`length_next`).
-/

set_option autoImplicit false

namespace CssExpand.Syntax

/-! ## Strings and urls -/

/-- How the reading of a string or url came to its end. -/
inductive Ending where
  | closed
  | atEnd
  | broken
  deriving DecidableEq, Repr

/-- What was read of a string or url, how it ended, and the text after it. -/
structure Reading where
  value : List Char
  ending : Ending
  rest : List Char

/-- The same reading with one more character in front. -/
def Reading.push (c : Char) (r : Reading) : Reading := { r with value := c :: r.value }

/-- Reads a string after its opening quote. The line break that breaks a string is left. -/
def takeString (quote : Char) (cs : List Char) : Reading :=
  match cs with
  | [] => ⟨[], .atEnd, []⟩
  | c :: rest =>
    if c = quote then ⟨[], .closed, rest⟩
    else if c = '\\' then
      match rest with
      | [] => ⟨[], .atEnd, []⟩
      | d :: rest' =>
        if d = '\n' then takeString quote rest'
        else (takeString quote (takeEscape (d :: rest')).2).push (takeEscape (d :: rest')).1
    else if c = '\n' then ⟨[], .broken, c :: rest⟩
    else (takeString quote rest).push c
termination_by cs.length
decreasing_by
  · simp only [List.length_cons]
    omega
  · have := length_takeEscape (d :: rest')
    simp only [List.length_cons] at this ⊢
    omega
  · simp only [List.length_cons]
    omega

/-- Whether a character breaks a url that has no quotes. -/
def breaksUrl (c : Char) : Bool :=
  let n := c.toNat
  c == '"' || c == '\'' || c == '(' ||
    n ≤ 0x08 || n == 0x0B || (0x0E ≤ n && n ≤ 0x1F) || n == 0x7F

/-- Reads a url without quotes, after its opening bracket and the whitespace there. -/
def takeUrl (cs : List Char) : Reading :=
  match cs with
  | [] => ⟨[], .atEnd, []⟩
  | c :: rest =>
    if c = ')' then ⟨[], .closed, rest⟩
    else if isWhitespace c then
      match rest.dropWhile isWhitespace with
      | [] => ⟨[], .atEnd, []⟩
      | d :: rest' => if d = ')' then ⟨[], .closed, rest'⟩ else ⟨[], .broken, d :: rest'⟩
    else if startsEscape (c :: rest) then
      (takeUrl (takeEscape rest).2).push (takeEscape rest).1
    else if breaksUrl c then ⟨[], .broken, rest⟩
    else (takeUrl rest).push c
termination_by cs.length
decreasing_by
  · have := length_takeEscape rest
    simp only [List.length_cons]
    omega
  · simp only [List.length_cons]
    omega

/-- What is left after a broken url, which reaches to the first closing bracket that no backslash
stands before. -/
def dropBrokenUrl : List Char → List Char
  | [] => []
  | '\\' :: ')' :: rest => dropBrokenUrl rest
  | ')' :: rest => rest
  | _ :: rest => dropBrokenUrl rest

/-- The lexemes of a string that is open after `quote`. -/
def stringLexemes (quote : Char) (cs : List Char) : List Lexeme × List Char :=
  let r := takeString quote cs
  match r.ending with
  | .closed => ([.atom (.string r.value true)], r.rest)
  | .atEnd => ([.atom (.string r.value false), .atom (.fault .stringAtEnd)], r.rest)
  | .broken => ([.atom (.fault .brokenString)], r.rest)

/-- The lexemes of a url that is open after its bracket. -/
def urlLexemes (cs : List Char) : List Lexeme × List Char :=
  let r := takeUrl (cs.dropWhile isWhitespace)
  match r.ending with
  | .closed => ([.atom (.url r.value true)], r.rest)
  | .atEnd => ([.atom (.url r.value false), .atom (.fault .urlAtEnd)], r.rest)
  | .broken => ([.atom (.fault .brokenUrl)], dropBrokenUrl r.rest)

/-! ## Comments and ranges -/

/-- Reads a comment after its opening, up to its close or the end of the source. -/
def takeComment : List Char → List Char × List Char
  | [] => ([], [])
  | '*' :: '/' :: rest => ([], rest)
  | c :: rest => (c :: (takeComment rest).1, (takeComment rest).2)

/-- Whether the text after a letter `u` makes it the start of a range of characters. -/
def startsRange : List Char → Bool
  | '+' :: c :: _ => isHexDigit c || c == '?'
  | _ => false

/-- Reads a range of characters after its plus sign: six digits and question marks at most, where a
question mark stands for any digit, or else two numbers. -/
def takeRange (cs : List Char) : (Nat × Nat) × List Char :=
  let digits := (cs.take 6).takeWhile isHexDigit
  let afterDigits := cs.drop digits.length
  let marks := (afterDigits.take (6 - digits.length)).takeWhile (· == '?')
  let first := hexValue digits
  if !marks.isEmpty then
    ((first * Nat.pow 16 marks.length, (first + 1) * Nat.pow 16 marks.length - 1),
      afterDigits.drop marks.length)
  else
    match afterDigits with
    | '-' :: rest =>
      let last := (rest.take 6).takeWhile isHexDigit
      if last.isEmpty then ((first, first), afterDigits)
      else ((first, hexValue last), rest.drop last.length)
    | _ => ((first, first), afterDigits)

/-! ## One step -/

/-- The lexemes that start with a name: an identifier, a url, or the opening of a function. -/
def nameLexemes (cs : List Char) : List Lexeme × List Char :=
  let name := takeName cs
  match name.2 with
  | '(' :: rest =>
    let quoted := (rest.dropWhile isWhitespace).head?.any fun c => c == '"' || c == '\''
    if Text.asciiLower name.1 = ['u', 'r', 'l'] && !quoted then urlLexemes rest
    else ([.openFunction name.1], rest)
  | rest => ([.atom (.ident name.1)], rest)

/-- The lexeme of a number, which a unit or a percent sign may follow. -/
def numberLexemes (n : Numeral) (cs : List Char) : List Lexeme × List Char :=
  if startsIdent cs then ([.atom (.dimension n (takeName cs).1)], (takeName cs).2)
  else
    match cs with
    | '%' :: rest => ([.atom (.percentage n)], rest)
    | rest => ([.atom (.number n)], rest)

/-- The lexeme of punctuation: a comment, or a literal of one or more characters. -/
def punctuation (c : Char) (cs : List Char) : Lexeme × List Char :=
  match c, cs with
  | '/', '*' :: rest => (.atom (.comment (takeComment rest).1), (takeComment rest).2)
  | '<', '!' :: '-' :: '-' :: rest => (.atom (.literal ['<', '!', '-', '-']), rest)
  | '|', '|' :: rest => (.atom (.literal ['|', '|']), rest)
  | c, '=' :: rest =>
    if c = '~' || c = '|' || c = '^' || c = '$' || c = '*' then (.atom (.literal [c, '=']), rest)
    else (.atom (.literal [c]), '=' :: rest)
  | c, rest => (.atom (.literal [c]), rest)

/-- The lexemes that start with a symbol `c`. -/
def symbolLexemes (c : Char) (cs : List Char) : List Lexeme × List Char :=
  if c = '@' && startsIdent cs then ([.atom (.atKeyword (takeName cs).1)], (takeName cs).2)
  else if c = '#' && startsName cs then
    ([.atom (.hash (takeName cs).1 (startsIdent cs))], (takeName cs).2)
  else if c = '\x7b' then ([.openBlock .curly], cs)
  else if c = '[' then ([.openBlock .square], cs)
  else if c = '(' then ([.openBlock .round], cs)
  else if c = '\x7d' then ([.close .curly], cs)
  else if c = ']' then ([.close .square], cs)
  else if c = ')' then ([.close .round], cs)
  else if c = '"' || c = '\'' then stringLexemes c cs
  else ([(punctuation c cs).1], (punctuation c cs).2)

/-- The lexemes that start with the character `c`, and the text after them. -/
def next (c : Char) (cs : List Char) : List Lexeme × List Char :=
  if isWhitespace c then
    ([.atom (.whitespace (c :: cs.takeWhile isWhitespace))], cs.dropWhile isWhitespace)
  else if (c = 'u' || c = 'U') && startsRange cs then
    let range := takeRange cs.tail
    ([.atom (.unicodeRange range.1.1 range.1.2)], range.2)
  else if c = '-' && cs.take 2 = ['-', '>'] then ([.atom (.literal ['-', '-', '>'])], cs.drop 2)
  else if startsIdent (c :: cs) then nameLexemes (c :: cs)
  else
    match Numeral.read? (c :: cs) with
    | some (n, rest) => numberLexemes n rest
    | none => symbolLexemes c cs

/-! ## Each step shortens the text -/

theorem length_takeString (quote : Char) (cs : List Char) :
    (takeString quote cs).rest.length ≤ cs.length := by
  fun_induction takeString quote cs with
  | case1 => simp
  | case2 => simp
  | case3 => simp
  | case4 _ _ ih => simp only [List.length_cons]; omega
  | case5 d rest' _ _ ih =>
    have := length_takeEscape (d :: rest')
    simp only [Reading.push, List.length_cons] at this ih ⊢
    omega
  | case6 => simp
  | case7 c rest _ _ _ ih => simp only [Reading.push, List.length_cons]; omega

theorem length_takeUrl (cs : List Char) : (takeUrl cs).rest.length ≤ cs.length := by
  fun_induction takeUrl cs with
  | case1 => simp
  | case2 => simp
  | case3 => simp
  | case4 _ rest _ _ rest' h =>
    have := length_dropWhile_le isWhitespace rest
    rw [h] at this
    simp only [List.length_cons] at this ⊢
    omega
  | case5 _ rest _ _ d rest' h _ =>
    have := length_dropWhile_le isWhitespace rest
    rw [h] at this
    simp only [List.length_cons] at this ⊢
    omega
  | case6 _ rest _ _ _ ih =>
    have := length_takeEscape rest
    simp only [Reading.push, List.length_cons] at this ih ⊢
    omega
  | case7 => simp
  | case8 _ _ _ _ _ _ ih => simp only [Reading.push, List.length_cons]; omega

theorem length_dropBrokenUrl (cs : List Char) : (dropBrokenUrl cs).length ≤ cs.length := by
  fun_induction dropBrokenUrl cs <;> simp <;> omega

theorem length_takeComment (cs : List Char) : (takeComment cs).2.length ≤ cs.length := by
  fun_induction takeComment cs <;> simp <;> omega

theorem length_takeRange (cs : List Char) : (takeRange cs).2.length ≤ cs.length := by
  unfold takeRange
  dsimp only
  split
  · simp
  · split
    · rename_i rest h
      have : (cs.drop ((cs.take 6).takeWhile isHexDigit).length).length ≤ cs.length := by simp
      rw [h] at this
      simp only [List.length_cons] at this
      split
      · rw [h]
        simpa using this
      · simp only [List.length_drop]
        omega
    · simp

theorem length_stringLexemes (quote : Char) (cs : List Char) :
    (stringLexemes quote cs).2.length ≤ cs.length := by
  have := length_takeString quote cs
  unfold stringLexemes
  dsimp only
  split <;> exact this

theorem length_urlLexemes (cs : List Char) : (urlLexemes cs).2.length ≤ cs.length := by
  have h1 := length_takeUrl (cs.dropWhile isWhitespace)
  have h2 := length_dropWhile_le isWhitespace cs
  have h3 := length_dropBrokenUrl (takeUrl (cs.dropWhile isWhitespace)).rest
  unfold urlLexemes
  dsimp only
  split <;> dsimp only <;> omega

theorem length_nameLexemes {cs : List Char} (h : startsIdent cs) :
    (nameLexemes cs).2.length < cs.length := by
  have h1 := length_takeName_lt (startsName_of_startsIdent h)
  unfold nameLexemes
  dsimp only
  split
  · rename_i rest hr
    rw [hr] at h1
    simp only [List.length_cons] at h1
    have h2 := length_urlLexemes rest
    split
    · omega
    · dsimp only
      omega
  · exact h1

theorem length_numberLexemes (n : Numeral) (cs : List Char) :
    (numberLexemes n cs).2.length ≤ cs.length := by
  unfold numberLexemes
  split
  · exact length_takeName cs
  · split <;> simp

theorem length_punctuation (c : Char) (cs : List Char) :
    (punctuation c cs).2.length ≤ cs.length := by
  unfold punctuation
  split
  · rename_i rest
    have := length_takeComment rest
    simp only [List.length_cons]
    omega
  · simp only [List.length_cons]
    omega
  · simp
  · split <;> simp
  · simp

theorem length_symbolLexemes (c : Char) (cs : List Char) :
    (symbolLexemes c cs).2.length ≤ cs.length := by
  have h1 := length_takeName cs
  have h2 := length_stringLexemes c cs
  have h3 := length_punctuation c cs
  unfold symbolLexemes
  repeat' split
  all_goals first
    | exact h1
    | exact h2
    | exact h3
    | exact Nat.le_refl _

/-- A step leaves no more than the text after its first character. -/
theorem length_next (c : Char) (cs : List Char) : (next c cs).2.length ≤ cs.length := by
  unfold next
  split
  · exact length_dropWhile_le isWhitespace cs
  · split
    · have h1 := length_takeRange cs.tail
      have h2 : cs.tail.length ≤ cs.length := by simp
      dsimp only
      omega
    · split
      · simp
      · split
        · rename_i h
          have := length_nameLexemes h
          simp only [List.length_cons] at this
          omega
        · split
          · rename_i n rest h
            have h1 := Numeral.length_read_lt h
            have h2 := length_numberLexemes n rest
            simp only [List.length_cons] at h1
            omega
          · exact length_symbolLexemes c cs

/-! ## The scan -/

/-- The lexemes of a text whose line breaks are unified. -/
def Lexeme.scan (cs : List Char) : List Lexeme :=
  match cs with
  | [] => []
  | c :: rest => (next c rest).1 ++ scan (next c rest).2
termination_by cs.length
decreasing_by
  have := length_next c rest
  simp only [List.length_cons]
  omega

/-- The number of characters before the lexeme with index `k`. -/
def Lexeme.offset (k : Nat) (cs : List Char) : Nat :=
  match cs with
  | [] => 0
  | c :: rest =>
    if k < (next c rest).1.length then 0
    else rest.length + 1 - (next c rest).2.length +
      offset (k - (next c rest).1.length) (next c rest).2
termination_by cs.length
decreasing_by
  have := length_next c rest
  simp only [List.length_cons]
  omega

end CssExpand.Syntax
