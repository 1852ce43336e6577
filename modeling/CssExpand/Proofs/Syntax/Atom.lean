import CssExpand.Proofs.Syntax.Delimited

/-!
# Reading written atoms

An atom is written so that it can be read again, but what is read depends on the text after it too:
`12` before `px` is a dimension, `/` before `*` opens a comment. `Atom.StopsAt` names the texts that
do not prolong an atom, and before such a text every well-formed atom is read as itself
(`scan_atom`). Two kinds of atom are exceptions, whatever follows them, since the writer leaves out
an escape that they need (`Atom.isMisread`): a url with a control character in it, and a dimension
whose unit looks like the exponent of its number.
-/

set_option autoImplicit false

namespace CssExpand.Syntax

/-! ## 1. Well-formed atoms -/

/-- The literals of more than one character. -/
def longLiterals : List (List Char) :=
  [['<', '!', '-', '-'], ['-', '-', '>'], ['|', '|'], ['~', '='], ['|', '='], ['^', '='],
    ['$', '='], ['*', '=']]

/-- Whether a character is a literal where it stands for nothing else. -/
def isLiteralChar (c : Char) : Bool :=
  !(isWhitespace c || isNameStart c || c.isDigit ||
    ['"', '\'', '(', ')', '[', ']', '\x7b', '\x7d'].contains c)

/-- The name of a hash that is no identifier. -/
def IsPlainHash (name : List Char) : Prop :=
  ∃ c rest, name = c :: rest ∧ (c.isDigit ∨ c = '-' ∧ ∀ d ∈ rest.head?, d.isDigit)

/-- An atom as the scan makes them where nothing is wrong with the source. -/
def Atom.WellFormed : Atom → Prop
  | .whitespace text => text ≠ [] ∧ ∀ c ∈ text, isWhitespace c
  | .comment text => ¬['*', '/'] <:+: text ∧ Unified text
  | .literal text => text ∈ longLiterals ∨ ∃ c, text = [c] ∧ isLiteralChar c ∧ Unified [c]
  | .ident name | .atKeyword name => name ≠ [] ∧ '\x00' ∉ name
  | .hash name isIdent => name ≠ [] ∧ '\x00' ∉ name ∧ (isIdent = false → IsPlainHash name)
  | .string value closed | .url value closed => closed = true ∧ '\x00' ∉ value
  | .unicodeRange first last => first < Nat.pow 16 6 ∧ last < Nat.pow 16 6
  | .number n | .percentage n => n.WellFormed
  | .dimension n unit => n.WellFormed ∧ unit ≠ [] ∧ '\x00' ∉ unit
  | .fault _ => False

/-- Whether a unit starts as an exponent does. -/
def startsAsExponent : List Char → Bool
  | c :: d :: _ => (c == 'e' || c == 'E') && d.isDigit
  | _ => false

/-- Whether an atom is written without an escape that it needs. -/
def Atom.isMisread : Atom → Bool
  | .url value _ => value.any breaksWritten
  | .dimension n unit => n.exponent.isNone && startsAsExponent unit
  | _ => false

/-- What an atom is read back as. The writer has one code for a unit that is the letter of an
exponent, whatever the case of the letter. -/
def Atom.reread : Atom → Atom
  | .dimension n unit => .dimension n (if readsAsExponent unit then 'e' :: unit.tail else unit)
  | a => a

/-! ## 2. Where an atom stops -/

/-- Whether a text starts with a digit, or with a point and a digit. -/
def startsFigure : List Char → Bool
  | '.' :: c :: _ => c.isDigit
  | c :: _ => c.isDigit
  | [] => false

/-- Texts that do not make something else of the character `c` before them. A character is a literal
only where it stands for nothing else, so each of these says which longer token it is not the start of. -/
structure LiteralStopsAt (c : Char) (cs : List Char) : Prop where
  hash : c = '#' → startsName cs = false
  at_sign : c = '@' → startsIdent cs = false
  hyphen : c = '-' → startsIdent ('-' :: cs) = false
  sign : c = '+' ∨ c = '-' → startsFigure cs = false
  point : c = '.' → ∀ d ∈ cs.head?, d.isDigit = false
  slash : c = '/' → cs.head? ≠ some '*'
  less : c = '<' → ¬['!', '-', '-'] <+: cs
  bar : c = '|' → cs.head? ≠ some '|'
  equals : c = '~' ∨ c = '|' ∨ c = '^' ∨ c = '$' ∨ c = '*' → cs.head? ≠ some '='
  backslash : c = '\\' → cs.head? = some '\n'

/-- Texts that do not prolong a number into something else. -/
structure NumberStopsAt (n : Numeral) (cs : List Char) : Prop where
  numeral : n.StopsAt cs
  unit : startsIdent cs = false
  percent : cs.head? ≠ some '%'

/-- Texts that do not prolong an identifier into something else. Besides a longer name there are three
tokens that an identifier can turn into: a function, the close of a comment in markup, and a range. -/
structure IdentStopsAt (name cs : List Char) : Prop where
  ends : startsName cs = false
  bracket : cs.head? ≠ some '('
  close : name = ['-', '-'] → cs.head? ≠ some '>'
  range : name = ['u'] ∨ name = ['U'] → startsRange cs = false

/-- Texts before which an atom is read as itself. -/
def Atom.StopsAt : Atom → List Char → Prop
  | .whitespace _, cs => ∀ c ∈ cs.head?, isWhitespace c = false
  | .literal [c], cs => LiteralStopsAt c cs
  | .ident name, cs => IdentStopsAt name cs
  | .atKeyword _, cs | .hash _ _, cs | .dimension _ _, cs => startsName cs = false
  | .number n, cs => NumberStopsAt n cs
  | .unicodeRange _ _, cs => RangeStopsAt cs
  | _, _ => True

/-! ## 3. The branches of a step -/

@[simp] theorem Lexeme.scan_nil : scan [] = [] := by rw [scan]

theorem Lexeme.scan_cons (c : Char) (cs : List Char) :
    scan (c :: cs) = (next c cs).1 ++ scan (next c cs).2 := by rw [scan]

theorem scan_of_next {c : Char} {cs rest : List Char} {ls : List Lexeme}
    (h : next c cs = (ls, rest)) : Lexeme.scan (c :: cs) = ls ++ Lexeme.scan rest := by
  rw [Lexeme.scan_cons, h]

/-- The first character of an identifier. -/
theorem head_of_startsIdent {c : Char} {cs : List Char} (h : startsIdent (c :: cs)) :
    isNameStart c ∨ c = '-' ∨ c = '\\' ∧ cs.head? ≠ some '\n' := by
  by_cases h1 : c = '-'
  · exact .inr (.inl h1)
  · have : startsIdent (c :: cs) = (isNameStart c || startsEscape (c :: cs)) := by
      simp [startsIdent, h1]
    rw [this, Bool.or_eq_true] at h
    refine h.imp id fun he => .inr ?_
    by_cases h2 : c = '\\'
    · subst h2
      simpa using he
    · unfold startsEscape at he
      split at he <;> simp_all

theorem not_isWhitespace_of_isNameChar {c : Char} (h : isNameChar c) : isWhitespace c = false := by
  simp only [isWhitespace, Bool.or_eq_false_iff, beq_eq_false_iff_ne, ne_eq]
  refine ⟨⟨?_, ?_⟩, ?_⟩ <;> rintro rfl <;> exact absurd h (by decide)

theorem not_isWhitespace_of_startsIdent {c : Char} {cs : List Char} (h : startsIdent (c :: cs)) :
    isWhitespace c = false := by
  rcases head_of_startsIdent h with h | rfl | ⟨rfl, -⟩
  · exact not_isWhitespace_of_isNameChar (isNameChar_of_isNameStart h)
  · decide
  · decide

theorem next_whitespace {c : Char} {cs : List Char} (h : isWhitespace c) :
    next c cs =
      ([.atom (.whitespace (c :: cs.takeWhile isWhitespace))], cs.dropWhile isWhitespace) := by
  simp [next, h]

theorem next_range {c : Char} {cs : List Char} (hc : c = 'u' ∨ c = 'U') (h : startsRange cs) :
    next c cs = ([.atom (.unicodeRange (takeRange cs.tail).1.1 (takeRange cs.tail).1.2)],
      (takeRange cs.tail).2) := by
  have hw : isWhitespace c = false := by rcases hc with rfl | rfl <;> decide
  simp [next, hw, hc, h]

theorem next_close (cs : List Char) :
    next '-' ('-' :: '>' :: cs) = ([.atom (.literal ['-', '-', '>'])], cs) := by
  simp [next, isWhitespace]

/-- No step before the one for names applies. Names are tried late in a step, so each lemma about them
has to get past what is tried first. -/
structure PassesEarly (c : Char) (cs : List Char) : Prop where
  whitespace : isWhitespace c = false
  range : c = 'u' ∨ c = 'U' → startsRange cs = false
  close : c = '-' → cs.take 2 ≠ ['-', '>']

/-- What is left of a step behind whitespace, ranges and the close of a hidden stylesheet. -/
theorem next_late {c : Char} {cs : List Char} (h : PassesEarly c cs) :
    next c cs =
      if startsIdent (c :: cs) then nameLexemes (c :: cs)
      else
        match Numeral.read? (c :: cs) with
        | some (n, rest) => numberLexemes n rest
        | none => symbolLexemes c cs := by
  have h1 : ((c = 'u' || c = 'U') && startsRange cs) = false := by
    rw [Bool.and_eq_false_imp]
    simpa using h.range
  have h2 : (c = '-' && cs.take 2 = ['-', '>']) = false := by
    rw [Bool.and_eq_false_imp]
    simpa using h.close
  unfold next
  exact (if_neg (by simp [h.whitespace])).trans
    ((if_neg (by simp [h1])).trans (if_neg (by simp [h2])))

theorem next_name {c : Char} {cs : List Char} (hi : startsIdent (c :: cs))
    (hr : c = 'u' ∨ c = 'U' → startsRange cs = false) (hc : c = '-' → cs.take 2 ≠ ['-', '>']) :
    next c cs = nameLexemes (c :: cs) := by
  rw [next_late ⟨not_isWhitespace_of_startsIdent hi, hr, hc⟩, if_pos hi]

theorem next_numeral {c : Char} {cs rest : List Char} {n : Numeral} (h : PassesEarly c cs)
    (hi : startsIdent (c :: cs) = false) (hn : Numeral.read? (c :: cs) = some (n, rest)) :
    next c cs = numberLexemes n rest := by
  rw [next_late h, hi, hn]
  rfl

theorem next_symbol {c : Char} {cs : List Char} (h : PassesEarly c cs)
    (hi : startsIdent (c :: cs) = false) (hn : Numeral.read? (c :: cs) = none) :
    next c cs = symbolLexemes c cs := by
  rw [next_late h, hi, hn]
  rfl

/-- What starts with no digit, sign or point is no numeral. -/
theorem read?_none {c : Char} {cs : List Char} (hd : c.isDigit = false)
    (hp : c = '.' → ∀ d ∈ cs.head?, d.isDigit = false)
    (hs : c = '+' ∨ c = '-' → startsFigure cs = false) : Numeral.read? (c :: cs) = none := by
  -- No figure means no digits and no fraction, which is what makes a numeral fail.
  have hfig : ∀ ds, startsFigure ds = false → ds.takeWhile Char.isDigit = [] ∧
      (takeFraction (ds.dropWhile Char.isDigit)).1 = none := by
    intro ds h
    cases ds with
    | nil => exact ⟨rfl, rfl⟩
    | cons d rest =>
      have hdd : d.isDigit = false := by
        unfold startsFigure at h
        split at h
        · rename_i heq
          obtain ⟨rfl, -⟩ := List.cons.inj heq
          decide
        · rename_i heq
          obtain ⟨rfl, -⟩ := List.cons.inj heq
          exact h
        · simp_all
      refine ⟨by simp [hdd], ?_⟩
      simp only [List.dropWhile_cons, hdd, Bool.false_eq_true, if_false]
      by_cases hdot : d = '.'
      · subst hdot
        cases rest with
        | nil => simp [takeFraction]
        | cons e r =>
          have he : e.isDigit = false := by simpa [startsFigure] using h
          simp [takeFraction, he]
      · simp [takeFraction, hdot]
  have hsigned : ∀ s ds, takeSign (c :: cs) = (s, ds) → startsFigure ds = false →
      Numeral.read? (c :: cs) = none := by
    intro s ds heq h
    obtain ⟨h1, h2⟩ := hfig ds h
    simp [Numeral.read?, heq, h1, h2]
  by_cases h1 : c = '+'
  · subst h1
    exact hsigned _ _ rfl (hs (.inl rfl))
  · by_cases h2 : c = '-'
    · subst h2
      exact hsigned _ _ rfl (hs (.inr rfl))
    · refine hsigned none (c :: cs) (by simp [takeSign, h1, h2]) ?_
      by_cases h3 : c = '.'
      · subst h3
        cases cs with
        | nil => rfl
        | cons d rest => simpa [startsFigure] using hp rfl d rfl
      · simpa [startsFigure, h3] using hd

/-! ## 4. Each kind of atom -/

theorem takeName_stop {name cs : List Char} (h : startsName cs = false) :
    takeName (identWritten name ++ cs) = (name, cs) ∧
      takeName (nameWritten name ++ cs) = (name, cs) := by
  rw [takeName_identWritten, takeName_nameWritten, takeName_of_not_startsName h]
  simp

/-- The first character of a written character of a name. -/
theorem head_nameCharWritten (c : Char) :
    ∃ d ds, nameCharWritten c = d :: ds ∧ (isNameChar d ∨ d = '\\') := by
  unfold nameCharWritten
  split
  · rename_i h
    exact ⟨c, [], rfl, .inl h⟩
  · cases hb : breakEscape c with
    | some e =>
      obtain ⟨d, -, -, rfl⟩ := eq_backslash_of_breakEscape hb
      exact ⟨'\\', [d, ' '], rfl, .inr rfl⟩
    | none => exact ⟨'\\', [c], rfl, .inr rfl⟩

/-- The first character of a written name, or of the text after an empty one. -/
theorem head?_nameWritten {name cs : List Char} {p : Char → Prop}
    (hp : ∀ d, isNameChar d ∨ d = '\\' → p d) (hcs : name = [] → ∀ d ∈ cs.head?, p d) :
    ∀ d ∈ (nameWritten name ++ cs).head?, p d := by
  cases name with
  | nil => exact hcs rfl
  | cons c name =>
    obtain ⟨d, ds, heq, hd⟩ := head_nameCharWritten c
    simp only [nameWritten, List.flatMap_cons, heq]
    rintro e ⟨⟩
    exact hp d hd

/-- The first character of a written identifier: the name's own, or a backslash. -/
theorem head_identStartWritten (c : Char) :
    (isNameStart c ∧ identStartWritten c = [c]) ∨ ∃ ds, identStartWritten c = '\\' :: ds := by
  unfold identStartWritten
  split
  · rename_i h
    exact .inl ⟨h, rfl⟩
  · right
    split
    · exact ⟨_, rfl⟩
    · cases hb : breakEscape c with
      | some e =>
        obtain ⟨d, -, -, rfl⟩ := eq_backslash_of_breakEscape hb
        exact ⟨[d, ' '], rfl⟩
      | none => exact ⟨[c], rfl⟩

/-- A written identifier starts with what an identifier may start with. -/
theorem head_identWritten {name : List Char} (h : name ≠ []) (cs : List Char) :
    ∃ d ds, identWritten name ++ cs = d :: ds ∧ (isNameStart d ∨ d = '-' ∨ d = '\\') := by
  have key : ∀ c ds, ∃ d es, identStartWritten c ++ ds = d :: es ∧
      (isNameStart d ∨ d = '-' ∨ d = '\\') := by
    intro c ds
    rcases head_identStartWritten c with ⟨hc, he⟩ | ⟨es, he⟩
    · exact ⟨c, ds, by rw [he]; rfl, .inl hc⟩
    · exact ⟨'\\', es ++ ds, by rw [he]; rfl, .inr (.inr rfl)⟩
  unfold identWritten
  split
  · exact ⟨'\\', _, rfl, .inr (.inr rfl)⟩
  · exact ⟨'-', _, rfl, .inr (.inl rfl)⟩
  · exact ⟨'-', _, rfl, .inr (.inl rfl)⟩
  · rw [List.append_assoc]
    exact key _ _
  · exact absurd rfl h

/-- A written identifier that starts with a letter starts with the name's own, and the rest of the name
is written behind it. -/
theorem eq_cons_of_identWritten {name cs ds : List Char} {d : Char}
    (h : identWritten name ++ cs = d :: ds) (hd : isNameStart d) (hne : name ≠ []) :
    ∃ r, name = d :: r ∧ ds = nameWritten r ++ cs := by
  have hstart : ∀ c es, identStartWritten c ++ es = d :: ds → c = d ∧ es = ds := by
    intro c es heq
    rcases head_identStartWritten c with ⟨-, hc⟩ | ⟨fs, hc⟩
    · rw [hc] at heq
      exact List.cons.inj heq
    · rw [hc] at heq
      obtain ⟨rfl, -⟩ := List.cons.inj heq
      exact absurd hd (by decide)
  unfold identWritten at h
  split at h
  · obtain ⟨rfl, -⟩ := List.cons.inj h
    exact absurd hd (by decide)
  · obtain ⟨rfl, -⟩ := List.cons.inj h
    exact absurd hd (by decide)
  · obtain ⟨rfl, -⟩ := List.cons.inj h
    exact absurd hd (by decide)
  · rename_i c rest _ _ _
    rw [List.append_assoc] at h
    obtain ⟨rfl, rfl⟩ := hstart c _ h
    exact ⟨rest, rfl, rfl⟩
  · exact absurd rfl hne

/-- A name is written with its own first character or with a backslash in front, so with no sign but a
hyphen. -/
theorem head_nameWritten_cons (e : Char) (name cs : List Char) :
    ∃ f fs, nameWritten (e :: name) ++ cs = f :: fs ∧ (f = e ∨ f = '\\') ∧ f ≠ '+' := by
  rw [nameWritten, List.flatMap_cons]
  unfold nameCharWritten
  split
  · rename_i hn
    refine ⟨e, _, rfl, .inl rfl, ?_⟩
    rintro rfl
    exact absurd hn (by decide)
  · cases hb : breakEscape e with
    | some x =>
      obtain ⟨y, -, -, rfl⟩ := eq_backslash_of_breakEscape hb
      exact ⟨'\\', _, rfl, .inr rfl, by decide⟩
    | none => exact ⟨'\\', _, rfl, .inr rfl, by decide⟩

/-- What follows the first character of a written identifier does not make the identifier a range
of characters or the close of a hidden stylesheet. -/
theorem identWritten_passesEarly {name cs : List Char} {c : Char} {rest : List Char}
    (hne : name ≠ []) (heq : identWritten name ++ cs = c :: rest)
    (hclose : name = ['-', '-'] → cs.head? ≠ some '>')
    (hrange : name = ['u'] ∨ name = ['U'] → startsRange cs = false) :
    (c = 'u' ∨ c = 'U' → startsRange rest = false) ∧ (c = '-' → rest.take 2 ≠ ['-', '>']) := by
  have hplus : ∀ ds : List Char, (∀ d ∈ ds.head?, d ≠ '+') → startsRange ds = false := by
    intro ds h
    unfold startsRange
    split
    · exact absurd rfl (h '+' rfl)
    · rfl
  unfold identWritten at heq
  split at heq
  · obtain ⟨rfl, rfl⟩ := List.cons.inj heq
    exact ⟨by simp, by simp⟩
  · -- A name that starts with two hyphens: only the text after it can bring the bracket.
    rename_i r
    obtain ⟨rfl, rfl⟩ := List.cons.inj heq
    refine ⟨by simp, fun _ htake => ?_⟩
    have hgt : ∀ d ∈ (nameWritten r ++ cs).head?, d ≠ '>' := head?_nameWritten
      (by rintro d (h | rfl) <;> [(rintro rfl; exact absurd h (by decide)); decide])
      (by
        rintro rfl d hd rfl
        exact hclose rfl hd)
    simp only [List.append_eq, List.cons_append, List.take_succ_cons, List.cons.injEq,
      true_and] at htake
    cases hds : nameWritten r ++ cs with
    | nil => simp [hds] at htake
    | cons d ds =>
      simp only [hds, List.take_succ_cons, List.cons.injEq] at htake
      exact hgt d (by simp [hds]) htake.1
  · rename_i d r hd
    obtain ⟨rfl, rfl⟩ := List.cons.inj heq
    refine ⟨by simp, fun _ htake => ?_⟩
    rw [List.append_eq, List.append_assoc] at htake
    -- after a first hyphen comes a name start, so neither a second hyphen nor a bracket
    rcases head_identStartWritten d with ⟨hs, he⟩ | ⟨ds, he⟩
    · simp only [he, List.singleton_append, List.take_succ_cons, List.cons.injEq] at htake
      exact absurd hs (by rw [htake.1]; decide)
    · simp [he] at htake
  · rename_i d r hd1 hd2 hd3
    rw [List.append_assoc] at heq
    rcases head_identStartWritten d with ⟨hs, he⟩ | ⟨ds, he⟩
    · rw [he, List.singleton_append] at heq
      obtain ⟨rfl, rfl⟩ := List.cons.inj heq
      refine ⟨fun hu => ?_, ?_⟩
      · -- A letter `u` in front: the next written character is no plus sign.
        cases r with
        | nil => exact hrange (by simpa using hu)
        | cons e r =>
          refine hplus _ (head?_nameWritten ?_ (by simp))
          rintro f (h | rfl)
          · rintro rfl
            exact absurd h (by decide)
          · decide
      · rintro rfl
        exact absurd hs (by decide)
    · rw [he] at heq
      obtain ⟨rfl, -⟩ := List.cons.inj heq
      exact ⟨by simp, by simp⟩
  · exact absurd rfl hne

theorem next_identWritten {name cs : List Char} (hne : name ≠ []) {c : Char} {rest : List Char}
    (heq : identWritten name ++ cs = c :: rest)
    (hclose : name = ['-', '-'] → cs.head? ≠ some '>')
    (hrange : name = ['u'] ∨ name = ['U'] → startsRange cs = false) :
    next c rest = nameLexemes (identWritten name ++ cs) := by
  obtain ⟨h1, h2⟩ := identWritten_passesEarly hne heq hclose hrange
  rw [heq]
  exact next_name (heq ▸ startsIdent_identWritten hne cs) h1 h2

theorem scan_ident {name cs : List Char} (hne : name ≠ []) (h : IdentStopsAt name cs) :
    Lexeme.scan (identWritten name ++ cs) = .atom (.ident name) :: Lexeme.scan cs := by
  obtain ⟨c, rest, heq, -⟩ := head_identWritten hne cs
  have hnext := next_identWritten hne heq h.close h.range
  have hb : ∀ r, cs ≠ '(' :: r := by
    rintro r rfl
    exact h.bracket rfl
  have hname : nameLexemes (identWritten name ++ cs) = ([.atom (.ident name)], cs) := by
    simp only [nameLexemes, (takeName_stop h.ends).1]
  rw [heq, scan_of_next (hnext.trans hname)]
  rfl

/-- Whether the text after the bracket of a function `url` starts with a string. -/
def startsQuoted (cs : List Char) : Bool :=
  (cs.dropWhile isWhitespace).head?.any fun c => c == '"' || c == '\''

/-- The start of a function is read as itself, but `url(` only where a quote follows: else it is the
token of a url. -/
theorem scan_openFunction {name cs : List Char} (hne : name ≠ [])
    (h : Text.asciiLower name = ['u', 'r', 'l'] → startsQuoted cs) :
    Lexeme.scan (identWritten name ++ '(' :: cs) = .openFunction name :: Lexeme.scan cs := by
  obtain ⟨c, rest, heq, -⟩ := head_identWritten hne ('(' :: cs)
  have hnext := next_identWritten hne heq (by simp) (by simp [startsRange])
  have hstop : startsName ('(' :: cs) = false := by
    simp [startsName, startsEscape, isNameChar, isNameStart]
  have hname : nameLexemes (identWritten name ++ '(' :: cs) = ([.openFunction name], cs) := by
    have hurl : (decide (Text.asciiLower name = ['u', 'r', 'l']) && !startsQuoted cs) = false := by
      rw [Bool.and_eq_false_imp]
      simpa using h
    simp only [startsQuoted] at hurl
    simp only [nameLexemes, (takeName_stop hstop).1, hurl, Bool.false_eq_true, if_false]
  rw [heq, scan_of_next (hnext.trans hname)]
  rfl

/-- A url is read as itself unless a character of it breaks urls and the writer leaves it as it is. -/
theorem scan_url {value cs : List Char} (h : ∀ c ∈ value, breaksWritten c = false) :
    Lexeme.scan (urlWritten value true ++ cs) = .atom (.url value true) :: Lexeme.scan cs := by
  obtain ⟨d, ds, heq, hw, hq1, hq2⟩ := head_urlWritten h cs
  have htake := takeUrl_written h cs
  have hname : nameLexemes ('u' :: 'r' :: 'l' :: '(' :: d :: ds) = ([.atom (.url value true)], cs) := by
    have h1 : takeName ('u' :: 'r' :: 'l' :: '(' :: d :: ds) = (['u', 'r', 'l'], '(' :: d :: ds) := by
      have hstop : startsName ('(' :: d :: ds) = false := by
        simp [startsName, startsEscape, isNameChar, isNameStart]
      have : takeName (nameWritten ['u', 'r', 'l'] ++ '(' :: d :: ds) = _ := (takeName_stop hstop).2
      exact this
    have h2 : (d :: ds).dropWhile isWhitespace = d :: ds := by simp [hw]
    have h3 : Text.asciiLower ['u', 'r', 'l'] = ['u', 'r', 'l'] := by decide
    rw [heq] at htake
    simp [nameLexemes, h1, h2, h3, hq1, hq2, urlLexemes, htake]
  have htext : urlWritten value true ++ cs = 'u' :: 'r' :: 'l' :: '(' :: d :: ds := by
    rw [← heq]
    simp [urlWritten]
  rw [htext, scan_of_next ((next_name (by simp [startsIdent, isNameStart]) (by simp [startsRange])
    (by simp)).trans hname)]
  rfl

theorem scan_string (value cs : List Char) :
    Lexeme.scan (stringWritten value true ++ cs) =
      .atom (.string value true) :: Lexeme.scan cs := by
  have htext : stringWritten value true ++ cs =
      '"' :: (value.flatMap stringCharWritten ++ '"' :: cs) := by simp [stringWritten]
  have hnext : next '"' (value.flatMap stringCharWritten ++ '"' :: cs) =
      ([.atom (.string value true)], cs) := by
    rw [next_symbol ⟨by decide, by simp, by simp⟩ (by simp [startsIdent, startsEscape, isNameStart])
      (read?_none (by decide) (by simp) (by simp))]
    simp [symbolLexemes, stringLexemes, takeString_written]
  rw [htext, scan_of_next hnext]
  rfl

theorem scan_comment {text : List Char} (h : ¬['*', '/'] <:+: text) (cs : List Char) :
    Lexeme.scan (['/', '*'] ++ text ++ ['*', '/'] ++ cs) =
      .atom (.comment text) :: Lexeme.scan cs := by
  have htext : ['/', '*'] ++ text ++ ['*', '/'] ++ cs =
      '/' :: '*' :: (text ++ '*' :: '/' :: cs) := by simp
  have hnext : next '/' ('*' :: (text ++ '*' :: '/' :: cs)) = ([.atom (.comment text)], cs) := by
    rw [next_symbol ⟨by decide, by simp, by simp⟩ (by simp [startsIdent, startsEscape, isNameStart])
      (read?_none (by decide) (by simp) (by simp))]
    simp [symbolLexemes, punctuation, takeComment_written h]
  rw [htext, scan_of_next hnext]
  rfl

theorem scan_whitespace {text cs : List Char} (hne : text ≠ []) (h : ∀ c ∈ text, isWhitespace c)
    (hs : ∀ c ∈ cs.head?, isWhitespace c = false) :
    Lexeme.scan (text ++ cs) = .atom (.whitespace text) :: Lexeme.scan cs := by
  cases text with
  | nil => exact absurd rfl hne
  | cons c text =>
    have ht : ∀ d ∈ text, isWhitespace d := fun d hd => h d (List.mem_cons_of_mem _ hd)
    rw [List.cons_append, scan_of_next (next_whitespace (h c List.mem_cons_self)),
      takeWhile_stop ht hs, dropWhile_stop ht hs]
    rfl

/-- A range of characters has six digits at most, and both of its ends are written, so it is read as
itself if no digit, no question mark and no second end follow. -/
theorem scan_unicodeRange {first last : Nat} {cs : List Char} (hf : first < Nat.pow 16 6)
    (hl : last < Nat.pow 16 6) (h : RangeStopsAt cs) :
    Lexeme.scan (rangeWritten first last ++ cs) =
      .atom (.unicodeRange first last) :: Lexeme.scan cs := by
  have htext : rangeWritten first last ++ cs = 'U' :: '+' ::
      (hexDigits first ++ (if first = last then [] else '-' :: hexDigits last) ++ cs) := by
    simp [rangeWritten]
  have hstart : startsRange ('+' ::
      (hexDigits first ++ (if first = last then [] else '-' :: hexDigits last) ++ cs)) := by
    cases hd : hexDigits first with
    | nil => exact absurd hd (length_hexDigits hf).2
    | cons d ds =>
      have := (hexDigits_spec first).1 d (by simp [hd])
      simp [startsRange, this]
  rw [htext, scan_of_next (next_range (.inr rfl) hstart), List.tail_cons,
    takeRange_written hf hl h]
  rfl

/-- A step at a symbol that no name and no number starts with. -/
theorem next_symbolLexemes {c : Char} {cs : List Char} (hw : isWhitespace c = false)
    (hn : isNameChar c = false) (hb : c = '\\' → cs.head? = some '\n') (hp : c ≠ '.')
    (hs : c ≠ '+') : next c cs = symbolLexemes c cs := by
  have hchar : c ≠ '-' ∧ c ≠ 'u' ∧ c ≠ 'U' := by
    refine ⟨?_, ?_, ?_⟩ <;> rintro rfl <;> exact absurd hn (by decide)
  simp only [isNameChar, Bool.or_eq_false_iff] at hn
  refine next_symbol ⟨hw, by simp [hchar], by simp [hchar]⟩ ?_
    (read?_none hn.1.2 (by simp [hp]) (by simp [hs, hchar]))
  have hescape : startsEscape (c :: cs) = false := by
    by_cases hc : c = '\\'
    · subst hc
      simp [hb rfl]
    · unfold startsEscape
      split <;> simp_all
  simp [startsIdent, hchar, hn.1.1, hescape]

theorem scan_atKeyword {name cs : List Char} (hne : name ≠ []) (h : startsName cs = false) :
    Lexeme.scan ('@' :: identWritten name ++ cs) = .atom (.atKeyword name) :: Lexeme.scan cs := by
  have hnext : next '@' (identWritten name ++ cs) = ([.atom (.atKeyword name)], cs) := by
    rw [next_symbolLexemes (by decide) (by decide) (by simp) (by decide) (by decide)]
    simp [symbolLexemes, startsIdent_identWritten hne, (takeName_stop h).1]
  rw [List.cons_append, scan_of_next hnext]
  rfl

theorem startsName_cons {c : Char} (h : isNameChar c) (cs : List Char) : startsName (c :: cs) := by
  simp [startsName, h]

/-- A plain hash is no identifier, however it goes on. -/
theorem startsIdent_plainHash {name cs : List Char} (hp : IsPlainHash name)
    (h : startsName cs = false) : startsIdent (nameWritten name ++ cs) = false ∧
      startsName (nameWritten name ++ cs) := by
  -- a plain hash starts with a digit, or with a hyphen that a digit or nothing follows
  obtain ⟨c, rest, rfl, hc | ⟨rfl, hd⟩⟩ := hp
  · have hchar : isNameChar c := by simp [isNameChar, hc]
    have hne : c ≠ '-' ∧ c ≠ '\\' := by
      constructor <;> rintro rfl <;> exact absurd hc (by decide)
    have hesc : ∀ ds, startsEscape (c :: ds) = false := by
      intro ds
      unfold startsEscape
      split <;> simp_all
    have heq : nameWritten (c :: rest) ++ cs = c :: (nameWritten rest ++ cs) := by
      simp [nameWritten, nameCharWritten, hchar]
    rw [heq]
    exact ⟨by simp [startsIdent, hne, not_isNameStart_digit hc, hesc], startsName_cons hchar _⟩
  · have heq : nameWritten ('-' :: rest) ++ cs = '-' :: (nameWritten rest ++ cs) := by
      simp [nameWritten, nameCharWritten, isNameChar]
    rw [heq]
    refine ⟨?_, startsName_cons (by decide) _⟩
    cases rest with
    | nil =>
      simp only [startsName, Bool.or_eq_false_iff] at h
      simp only [startsIdent, nameWritten, List.flatMap_nil, List.nil_append, h.2, Bool.or_false]
      cases cs with
      | nil => rfl
      | cons d ds =>
        simp only [List.head?_cons, Option.any_some, isNameChar, Bool.or_eq_false_iff] at h ⊢
        exact ⟨h.1.1.1, h.1.2⟩
    | cons d rest =>
      have hdig : d.isDigit := hd d rfl
      have hne : d ≠ '-' ∧ d ≠ '\\' := by
        constructor <;> rintro rfl <;> exact absurd hdig (by decide)
      have hchar : isNameChar d := by simp [isNameChar, hdig]
      have heq : nameWritten (d :: rest) ++ cs = d :: (nameWritten rest ++ cs) := by
        simp [nameWritten, nameCharWritten, hchar]
      have hesc : ∀ ds, startsEscape (d :: ds) = false := by
        intro ds
        unfold startsEscape
        split <;> simp_all
      rw [heq]
      simp [startsIdent, not_isNameStart_digit hdig, hne, hesc]

/-- Whether the name of a hash is an identifier is told from the text again, so a hash that is none
has to have a name of that kind. -/
theorem scan_hash {name cs : List Char} {isIdent : Bool} (hne : name ≠ [])
    (hp : isIdent = false → IsPlainHash name) (h : startsName cs = false) :
    Lexeme.scan (('#' :: if isIdent then identWritten name else nameWritten name) ++ cs) =
      .atom (.hash name isIdent) :: Lexeme.scan cs := by
  cases isIdent with
  | true =>
    have hi := startsIdent_identWritten hne cs
    have hnext : next '#' (identWritten name ++ cs) = ([.atom (.hash name true)], cs) := by
      rw [next_symbolLexemes (by decide) (by decide) (by simp) (by decide) (by decide)]
      simp [symbolLexemes, hi, startsName_of_startsIdent hi, (takeName_stop h).1]
    rw [if_pos rfl, List.cons_append, scan_of_next hnext]
    rfl
  | false =>
    obtain ⟨hi, hs⟩ := startsIdent_plainHash (hp rfl) h
    have hnext : next '#' (nameWritten name ++ cs) = ([.atom (.hash name false)], cs) := by
      rw [next_symbolLexemes (by decide) (by decide) (by simp) (by decide) (by decide)]
      simp [symbolLexemes, hi, hs, (takeName_stop h).2]
    rw [if_neg (by decide), List.cons_append, scan_of_next hnext]
    rfl

/-! ### Numbers -/

/-- A step at a numeral. -/
theorem scan_numeral {n : Numeral} {cs rest : List Char} {l : Lexeme} (hn : n.WellFormed)
    (hs : n.StopsAt cs) (h : numberLexemes n cs = ([l], rest)) :
    Lexeme.scan (n.chars ++ cs) = l :: Lexeme.scan rest := by
  obtain ⟨c, r, heq, hc, hsign⟩ := Numeral.head_chars hn cs
  have hread := Numeral.read?_chars hn hs
  have hdigit : ∀ d, d.isDigit ∨ d = '.' → isNameStart d = false ∧ d ≠ '-' ∧ d ≠ '\\' ∧
      isWhitespace d = false ∧ d ≠ 'u' ∧ d ≠ 'U' := by
    rintro d (hd | rfl)
    · refine ⟨not_isNameStart_digit hd, ?_, ?_, not_isWhitespace_of_isNameChar (by
        simp [isNameChar, hd]), ?_, ?_⟩ <;> rintro rfl <;> exact absurd hd (by decide)
    · decide
  have hesc : ∀ d ds, d ≠ '\\' → startsEscape (d :: ds) = false := by
    intro d ds hd
    unfold startsEscape
    split <;> simp_all
  have hfirst : PassesEarly c r ∧ startsIdent (c :: r) = false := by
    have hcases : (c.isDigit ∨ c = '.') ∨ c = '+' ∨ c = '-' := by
      rcases hc with hc | hc | hc | hc <;> simp [hc]
    rcases hcases with hd | hsg
    · obtain ⟨h1, h2, h3, h4, h5, h6⟩ := hdigit c hd
      exact ⟨⟨h4, by simp [h5, h6], by simp [h2]⟩, by simp [startsIdent, h1, h2, hesc c r h3]⟩
    · obtain ⟨d, ds, rfl, hd⟩ := hsign hsg
      obtain ⟨h1, h2, h3, -, -, -⟩ := hdigit d hd
      rcases hsg with rfl | rfl
      · exact ⟨⟨by decide, by simp, by simp⟩, by simp [startsIdent, isNameStart, hesc]⟩
      · exact ⟨⟨by decide, by simp, by simp [h2]⟩, by simp [startsIdent, h1, h2, hesc d ds h3]⟩
  rw [heq] at hread ⊢
  rw [scan_of_next ((next_numeral hfirst.1 hfirst.2 hread).trans h)]
  rfl

theorem scan_number {n : Numeral} {cs : List Char} (hn : n.WellFormed) (h : NumberStopsAt n cs) :
    Lexeme.scan (n.chars ++ cs) = .atom (.number n) :: Lexeme.scan cs := by
  refine scan_numeral hn h.numeral ?_
  have hp : ∀ r, cs ≠ '%' :: r := by
    rintro r rfl
    exact h.percent rfl
  simp only [numberLexemes, h.unit, Bool.false_eq_true, if_false]

theorem scan_percentage {n : Numeral} (hn : n.WellFormed) (cs : List Char) :
    Lexeme.scan (n.chars ++ ['%'] ++ cs) = .atom (.percentage n) :: Lexeme.scan cs := by
  rw [List.append_assoc]
  refine scan_numeral hn ⟨?_, fun _ _ => ?_, fun _ => ?_⟩ ?_
  · rintro c ⟨⟩
    decide
  · simp [takeFraction]
  · simp [takeExponent]
  · simp [numberLexemes, startsIdent, isNameStart, startsEscape]

/-- The first character of a written unit. -/
theorem head_unitWritten {unit : List Char} (h : unit ≠ []) (cs : List Char) :
    ∃ d ds, unitWritten unit ++ cs = d :: ds ∧ (isNameStart d ∨ d = '-' ∨ d = '\\') := by
  unfold unitWritten
  split
  · exact ⟨'\\', _, rfl, .inr (.inr rfl)⟩
  · exact head_identWritten h cs

/-- A unit that is the letter of an exponent by itself, or that letter with a hyphen behind it, is
written with a code. Any other unit with that letter in front has another character behind it. -/
theorem second_of_not_readsAsExponent {d : Char} {r : List Char} (hd : d = 'e' ∨ d = 'E')
    (h : ¬readsAsExponent (d :: r) = true) : ∃ e s, r = e :: s ∧ e ≠ '-' := by
  cases r with
  | nil => rcases hd with rfl | rfl <;> simp [readsAsExponent] at h
  | cons e s =>
    refine ⟨e, s, rfl, ?_⟩
    rintro rfl
    rcases hd with rfl | rfl <;> simp [readsAsExponent] at h

/-- A written unit is no exponent, unless it is one that is misread. -/
theorem takeExponent_unitWritten {unit : List Char} (h : startsAsExponent unit = false)
    (hne : unit ≠ []) (cs : List Char) : (takeExponent (unitWritten unit ++ cs)).1 = none := by
  have hmark : ∀ d ds, d ≠ 'e' → d ≠ 'E' → (takeExponent (d :: ds)).1 = none := by
    intro d ds h1 h2
    simp [takeExponent, h1, h2]
  unfold unitWritten
  split
  · exact hmark _ _ (by decide) (by decide)
  · rename_i hexp
    obtain ⟨d, ds, heq, -⟩ := head_identWritten hne cs
    rw [heq]
    by_cases hd : d = 'e' ∨ d = 'E'
    · -- The unit starts with the letter, and then comes no hyphen, no digit and no end.
      have hstart : isNameStart d := by rcases hd with rfl | rfl <;> decide
      obtain ⟨r, rfl, rfl⟩ := eq_cons_of_identWritten heq hstart hne
      obtain ⟨e, s, rfl, he⟩ := second_of_not_readsAsExponent hd hexp
      have hdigit : e.isDigit = false := by
        rcases hd with rfl | rfl <;> simpa [startsAsExponent] using h
      obtain ⟨f, fs, hf, hfe, hplus⟩ := head_nameWritten_cons e s cs
      have hfigure : f.isDigit = false ∧ f ≠ '-' := by
        rcases hfe with rfl | rfl
        · exact ⟨hdigit, he⟩
        · decide
      rw [hf]
      simp [takeExponent, takeSign, hplus, hfigure.1, hfigure.2]
    · exact hmark d ds (fun hd' => hd (.inl hd')) (fun hd' => hd (.inr hd'))

theorem takeName_unitWritten (unit cs : List Char) :
    takeName (unitWritten unit ++ cs) =
      ((if readsAsExponent unit then 'e' :: unit.tail else unit) ++ (takeName cs).1,
        (takeName cs).2) := by
  unfold unitWritten
  split
  · have h1 : takeEscape (['6', '5'] ++ ' ' :: (nameWritten unit.tail ++ cs)) = _ :=
      takeEscape_code (List.all_eq_true.mp rfl) (by simp) (by simp)
    have h2 : charOfCode (hexValue ['6', '5']) = 'e' := by decide
    simp only [List.cons_append, List.nil_append] at h1 ⊢
    rw [takeName_escape (by simp), h1, takeName_nameWritten, h2]
  · exact takeName_identWritten unit cs

/-- A written unit does not prolong its number, unless it is one that is misread. -/
theorem stopsAt_unitWritten {n : Numeral} {unit : List Char} (hne : unit ≠ [])
    (hm : (n.exponent.isNone && startsAsExponent unit) = false) (cs : List Char) :
    n.StopsAt (unitWritten unit ++ cs) := by
  obtain ⟨d, ds, heq, hd⟩ := head_unitWritten hne cs
  have hd' : d.isDigit = false ∧ d ≠ '.' := by
    rcases hd with hd | rfl | rfl
    · refine ⟨Bool.eq_false_iff.mpr fun hdig => ?_, ?_⟩
      · rw [not_isNameStart_digit hdig] at hd
        simp at hd
      · rintro rfl
        exact absurd hd (by decide)
    · decide
    · decide
  refine ⟨?_, fun _ _ => ?_, fun he => ?_⟩
  · rw [heq]
    rintro c ⟨⟩
    exact hd'.1
  · rw [heq]
    simp [takeFraction, hd'.2]
  · refine takeExponent_unitWritten ?_ hne cs
    simpa [he] using hm

theorem startsIdent_unitWritten {unit : List Char} (hne : unit ≠ []) (cs : List Char) :
    startsIdent (unitWritten unit ++ cs) := by
  unfold unitWritten
  split
  · simp [startsIdent, startsEscape]
  · exact startsIdent_identWritten hne cs

theorem scan_dimension {n : Numeral} {unit cs : List Char} (hn : n.WellFormed) (hne : unit ≠ [])
    (hm : (n.exponent.isNone && startsAsExponent unit) = false) (h : startsName cs = false) :
    Lexeme.scan (n.chars ++ unitWritten unit ++ cs) =
      .atom (Atom.dimension n unit).reread :: Lexeme.scan cs := by
  rw [List.append_assoc]
  refine scan_numeral hn (stopsAt_unitWritten hne hm cs) ?_
  simp [numberLexemes, startsIdent_unitWritten hne, takeName_unitWritten,
    takeName_of_not_startsName h, Atom.reread]

/-! ### Literals -/

/-- A symbol that opens and closes nothing and starts no name. -/
theorem symbolLexemes_punctuation {c : Char} (cs : List Char)
    (h : c ∉ ['@', '#', '\x7b', '[', '(', '\x7d', ']', ')', '"', '\'']) :
    symbolLexemes c cs = ([(punctuation c cs).1], (punctuation c cs).2) := by
  simp only [List.mem_cons, List.not_mem_nil, or_false, not_or] at h
  simp [symbolLexemes, h]

/-- Nothing makes more of a literal of several characters, so it needs no condition on what follows. -/
theorem scan_longLiteral {text : List Char} (h : text ∈ longLiterals) (cs : List Char) :
    Lexeme.scan (text ++ cs) = .atom (.literal text) :: Lexeme.scan cs := by
  have key : ∀ {c : Char} {ds : List Char}, isWhitespace c = false → isNameChar c = false →
      c ∉ ['\\', '.', '+', '@', '#', '\x7b', '[', '(', '\x7d', ']', ')', '"', '\''] →
      punctuation c ds = (.atom (.literal text), cs) →
      Lexeme.scan (c :: ds) = .atom (.literal text) :: Lexeme.scan cs := by
    intro c ds hw hn hc hp
    simp only [List.mem_cons, not_or] at hc
    have hsymbol := symbolLexemes_punctuation (c := c) ds (by simp [hc])
    rw [hp] at hsymbol
    rw [scan_of_next ((next_symbolLexemes hw hn (by simp [hc]) hc.2.1 hc.2.2.1).trans hsymbol)]
    rfl
  simp only [longLiterals, List.mem_cons, List.not_mem_nil, or_false] at h
  rcases h with rfl | rfl | rfl | rfl | rfl | rfl | rfl | rfl
  · exact key (by decide) (by decide) (by decide) rfl
  · rw [List.cons_append, List.cons_append, List.cons_append, scan_of_next (next_close _)]
    rfl
  all_goals exact key (by decide) (by decide) (by decide) rfl

theorem punctuation_eq {c : Char} {cs : List Char} (h : LiteralStopsAt c cs) :
    punctuation c cs = (.atom (.literal [c]), cs) := by
  unfold punctuation
  split
  · exact absurd rfl (h.slash rfl)
  · exact absurd ⟨_, rfl⟩ (h.less rfl)
  · exact absurd rfl (h.bar rfl)
  · rw [if_neg]
    intro hc
    simp only [Bool.or_eq_true, decide_eq_true_eq] at hc
    exact h.equals (by tauto) rfl
  · rfl

/-- A character that starts nothing else is read as a literal if what follows does not make it start
something: a name, a figure, a comment, a longer literal. -/
theorem scan_literal {c : Char} {cs : List Char} (hc : isLiteralChar c)
    (h : LiteralStopsAt c cs) : Lexeme.scan (c :: cs) = .atom (.literal [c]) :: Lexeme.scan cs := by
  simp only [isLiteralChar, Bool.not_eq_true', Bool.or_eq_false_iff, List.contains_eq_mem,
    decide_eq_false_iff_not, List.mem_cons, List.not_mem_nil, or_false, not_or] at hc
  obtain ⟨⟨⟨hw, hn⟩, hd⟩, hq⟩ := hc
  have hu : c ≠ 'u' ∧ c ≠ 'U' := by
    constructor <;> rintro rfl <;> exact absurd hn (by decide)
  have hclose : c = '-' → cs.take 2 ≠ ['-', '>'] := by
    intro hc htake
    have := h.hyphen hc
    cases cs with
    | nil => simp at htake
    | cons d ds =>
      simp only [List.take_succ_cons, List.cons.injEq] at htake
      simp [startsIdent, htake.1] at this
  have hident : startsIdent (c :: cs) = false := by
    by_cases h1 : c = '-'
    · subst h1
      exact h.hyphen rfl
    · have hescape : startsEscape (c :: cs) = false := by
        by_cases hb : c = '\\'
        · subst hb
          simp [h.backslash rfl]
        · unfold startsEscape
          split <;> simp_all
      simp [startsIdent, h1, hn, hescape]
  have hread : Numeral.read? (c :: cs) = none := read?_none hd h.point h.sign
  have h1 : (decide (c = '@') && startsIdent cs) = false := by
    rw [Bool.and_eq_false_imp]
    simpa using h.at_sign
  have h2 : (decide (c = '#') && startsName cs) = false := by
    rw [Bool.and_eq_false_imp]
    simpa using h.hash
  have hsymbol : symbolLexemes c cs = ([.atom (.literal [c])], cs) := by
    have := punctuation_eq h
    simp [symbolLexemes, h1, h2, hq, this]
  rw [scan_of_next ((next_symbol ⟨hw, by simp [hu], hclose⟩ hident hread).trans hsymbol)]
  rfl

/-! ## 5. All atoms -/

/-- A well-formed atom is read back before a text where it stops, unless it is one of those that
are misread. -/
theorem scan_atom {a : Atom} {cs : List Char} (hwf : a.WellFormed) (hm : a.isMisread = false)
    (h : a.StopsAt cs) :
    Lexeme.scan (a.written ++ cs) = .atom a.reread :: Lexeme.scan cs := by
  cases a with
  | whitespace text => exact scan_whitespace hwf.1 hwf.2 h
  | comment text => exact scan_comment hwf.1 cs
  | literal text =>
    rcases hwf with hl | ⟨c, rfl, hc, -⟩
    · exact scan_longLiteral hl cs
    · exact scan_literal hc h
  | ident name => exact scan_ident hwf.1 h
  | atKeyword name => exact scan_atKeyword hwf.1 h
  | hash name isIdent => exact scan_hash hwf.1 hwf.2.2 h
  | string value closed =>
    obtain ⟨rfl, -⟩ := hwf
    exact scan_string value cs
  | url value closed =>
    obtain ⟨rfl, -⟩ := hwf
    exact scan_url (by simpa [Atom.isMisread] using hm)
  | unicodeRange first last => exact scan_unicodeRange hwf.1 hwf.2 h
  | number n => exact scan_number hwf h
  | percentage n => exact scan_percentage hwf cs
  | dimension n unit => exact scan_dimension hwf.1 hwf.2.1 hm h
  | fault kind => exact hwf.elim

end CssExpand.Syntax
