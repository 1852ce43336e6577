import CssExpand.Proofs.Syntax.Source

/-!
# Reading written lexemes

The writer sets lexemes side by side and puts an empty comment between two of them that clash
(`Joint.clash`). For the lexemes of a source that is enough, but for a few that only an escape in
the source kept apart (`Lexeme.isMisread`): there each lexeme stops where the next one is written
(`stopsAll`), so the text reads back as the same lexemes with the empty comments among them
(`scan_glued`).

The invariant of the induction, `Lexeme.StopsAll`, is about all lexemes of the list at once: whether
a number stops at a point depends on what the point stops at.
-/

set_option autoImplicit false

namespace CssExpand.Syntax

/-! ## 1. Joints -/

namespace Joint

/-- Two joints that do not clash. It spells out the table of clashes by what the first joint is, which
is how it is used. -/
structure Apart (a b : Joint) : Prop where
  word : a.endsInName ∨ a = .number ∨ a = .literal ['#'] ∨ a = .literal ['-'] →
    b.startsWithName = false ∧ b.startsWithNumber = false ∧ b ≠ .unicodeRange
  hyphen : a.endsInName → b ≠ .literal ['-'] ∧ b ≠ .literal ['-', '-', '>']
  number : a = .unicodeRange ∨ a = .literal ['.'] ∨ a = .literal ['+'] →
    b.startsWithNumber = false
  at_sign : a = .literal ['@'] →
    b.startsWithName = false ∧ b ≠ .unicodeRange ∧ b ≠ .literal ['-']
  range : a = .unicodeRange → b ≠ .ident ∧ b ≠ .function ∧ b ≠ .literal ['?']
  equals : a = .literal ['$'] ∨ a = .literal ['*'] ∨ a = .literal ['^'] ∨ a = .literal ['~'] ∨
    a = .literal ['|'] → b ≠ .literal ['=']
  bracket : a = .ident → b ≠ .roundBlock
  bar : a = .literal ['|'] → b ≠ .literal ['|']
  slash : a = .literal ['/'] → b ≠ .literal ['*']

theorem apart {a b : Joint} (h : a.clash b = false) : a.Apart b := by
  simp only [clash, Bool.or_eq_false_iff, Bool.and_eq_false_imp, Bool.or_eq_true, beq_iff_eq,
    beq_eq_false_iff_ne, or_assoc, and_assoc] at h
  obtain ⟨word, hyphen, number, at_sign, range, equals, bracket, bar, slash⟩ := h
  exact ⟨word, hyphen, number, at_sign, range, equals, bracket, bar, slash⟩

/-- What clashes with anything on its right. -/
theorem of_clash {a b : Joint} (h : a.clash b) :
    a.endsInName ∨ a = .number ∨ a = .unicodeRange ∨
      ∃ c ∈ ['#', '-', '.', '+', '@', '$', '*', '^', '~', '|', '/'], a = .literal [c] := by
  have literal : ∀ c ∈ ['#', '-', '.', '+', '@', '$', '*', '^', '~', '|', '/'], a = .literal [c] →
      a.endsInName ∨ a = .number ∨ a = .unicodeRange ∨
        ∃ c ∈ ['#', '-', '.', '+', '@', '$', '*', '^', '~', '|', '/'], a = .literal [c] :=
    fun c hc h => .inr (.inr (.inr ⟨c, hc, h⟩))
  simp only [clash, Bool.or_eq_true, Bool.and_eq_true, beq_iff_eq, or_assoc] at h
  rcases h with h | h | h | h | h | h | h | h | h
  · rcases h.1 with h | h | h | h
    · exact .inl h
    · exact .inr (.inl h)
    · exact literal _ (by decide) h
    · exact literal _ (by decide) h
  · exact .inl h.1
  · rcases h.1 with h | h | h
    · exact .inr (.inr (.inl h))
    · exact literal _ (by decide) h
    · exact literal _ (by decide) h
  · exact literal _ (by decide) h.1
  · exact .inr (.inr (.inl h.1))
  · rcases h.1 with h | h | h | h | h <;> exact literal _ (by decide) h
  · exact .inl (h.1 ▸ rfl)
  · exact literal _ (by decide) h.1
  · exact literal _ (by decide) h.1

end Joint

namespace Lexeme

/-! ## 2. Writing lexemes -/

/-- The text of a lexeme. -/
def written : Lexeme → List Char
  | .atom a => a.written
  | .openFunction name => identWritten name ++ ['(']
  | .openBlock b => [b.opening]
  | .close b => [b.closing]

/-- What a lexeme is read back as. -/
def reread : Lexeme → Lexeme
  | .atom a => .atom a.reread
  | l => l

/-- What a lexeme shows to its neighbours. -/
def joint : Lexeme → Joint
  | .atom a => a.joint
  | .openFunction _ => .function
  | .openBlock .round => .roundBlock
  | .openBlock _ | .close _ => .other

/-- What is put between two lexemes. -/
def glue (l l' : Lexeme) : List Lexeme :=
  if l.joint.clash l'.joint then [.atom (.comment [])] else []

/-- Lexemes with an empty comment between those that clash. -/
def glued : List Lexeme → List Lexeme
  | [] => []
  | [l] => [l]
  | l :: l' :: ls => l :: (glue l l' ++ glued (l' :: ls))

/-- The text of a list of lexemes as it stands. -/
def text (ls : List Lexeme) : List Char := ls.flatMap written

/-- What is written after `l` when `ls` follow it, in front of `cs`. -/
def after (l : Lexeme) (ls : List Lexeme) (cs : List Char) : List Char :=
  match ls with
  | [] => cs
  | l' :: _ => text (glue l l') ++ (text (glued ls) ++ cs)

theorem text_glued_cons (l : Lexeme) (ls : List Lexeme) (cs : List Char) :
    text (glued (l :: ls)) ++ cs = l.written ++ after l ls cs := by
  cases ls with
  | nil => simp [glued, text, after]
  | cons l' ls => simp [glued, text, after, List.append_assoc]

theorem after_cons (l l' : Lexeme) (ls : List Lexeme) (cs : List Char) :
    after l (l' :: ls) cs = text (glue l l') ++ (l'.written ++ after l' ls cs) := by
  rw [after, text_glued_cons]

/-! ## 3. Lexemes that the writer does not keep apart -/

/-- Whether a lexeme is written with a hexadecimal digit or a question mark in front, where no
number would be. -/
def startsAsRange : Lexeme → Bool
  | .atom (.ident name) | .openFunction name =>
    name.head?.any fun c => isNameStart c && isHexDigit c
  | .atom (.literal text) => text == ['?']
  | _ => false

/-- Whether a lexeme is written with two hyphens in front. -/
def startsWithHyphens : Lexeme → Bool
  | .atom (.ident name) | .openFunction name => ['-', '-'].isPrefixOf name
  | .atom (.literal text) => ['-', '-'].isPrefixOf text
  | _ => false

/-- Whether lexemes at the start of a list are written as something else: a word `u` and a plus sign
as a range of characters, or two hyphens as part of what hides a stylesheet. -/
def misjoins : List Lexeme → Bool
  | .atom (.ident name) :: .atom (.literal text) :: ls =>
    ((name == ['u'] || name == ['U']) && text == ['+'] && ls.head?.any startsAsRange) ||
      (name == ['-', '-'] && text == ['>'])
  | .atom (.literal text) :: .atom (.literal text') :: ls =>
    text == ['<'] && text' == ['!'] && ls.head?.any startsWithHyphens
  | _ => false

/-- Whether a lexeme by itself is written as something else. -/
def isMisread : Lexeme → Bool
  | .atom a => a.isMisread
  | _ => false

/-- Whether something among lexemes is read back as something else, for an escape that the source
has and the writer leaves out. -/
def misread : List Lexeme → Bool
  | [] => false
  | l :: ls => l.isMisread || misjoins (l :: ls) || misread ls

theorem misread_append {as bs : List Lexeme} (h : misread (as ++ bs) = false) :
    misread bs = false := by
  induction as with
  | nil => exact h
  | cons l as ih =>
    simp only [List.cons_append, misread, Bool.or_eq_false_iff] at h
    exact ih h.2

/-- Fewer lexemes behind make no join worse: the third lexeme only counts if there is one. -/
theorem misjoins_left {as bs : List Lexeme} (h : misjoins (as ++ bs) = false) :
    misjoins as = false := by
  unfold misjoins
  split
  · rename_i name text ls
    simp only [List.cons_append, misjoins, Bool.or_eq_false_iff, Bool.and_eq_false_imp] at h ⊢
    refine ⟨fun h1 => ?_, h.2⟩
    have := h.1 h1
    cases ls <;> simp_all
  · rename_i text text' ls
    simp only [List.cons_append, misjoins, Bool.and_eq_false_imp] at h ⊢
    intro h1
    have := h h1
    cases ls <;> simp_all
  · rfl

theorem misread_left {as bs : List Lexeme} (h : misread (as ++ bs) = false) :
    misread as = false := by
  induction as with
  | nil => rfl
  | cons l as ih =>
    simp only [List.cons_append, misread, Bool.or_eq_false_iff] at h ⊢
    have hjoin : misjoins (l :: as ++ bs) = false := h.1.2
    exact ⟨⟨h.1.1, misjoins_left hjoin⟩, ih h.2⟩

theorem misread_of_isInfix {ls ms : List Lexeme} (h : misread ms = false) (hi : ls <:+: ms) :
    misread ls = false := by
  obtain ⟨as, bs, rfl⟩ := hi
  rw [List.append_assoc] at h
  exact misread_left (misread_append h)

/-! ## 4. Where a lexeme stops -/

/-- Texts before which a lexeme is read as itself. -/
def StopsAt : Lexeme → List Char → Prop
  | .atom a, cs => a.StopsAt cs
  | .openFunction name, cs => Text.asciiLower name = ['u', 'r', 'l'] → startsQuoted cs
  | .openBlock _, _ | .close _, _ => True

/-- Each lexeme of a list stops where the next one is written, and the last one stops at `cs`. -/
def StopsAll : List Lexeme → List Char → Prop
  | [], _ => True
  | l :: ls, cs => l.StopsAt (after l ls cs) ∧ StopsAll ls cs

/-- One lexeme is read as itself where it stops. An atom could be misread all by itself, a bracket and
the start of a function cannot. -/
theorem scan_written {l : Lexeme} {cs : List Char} (hwf : l.WellFormed)
    (hm : l.isMisread = false) (h : l.StopsAt cs) :
    scan (l.written ++ cs) = l.reread :: scan cs := by
  have hopen : ∀ b : Bracket, next b.opening cs = ([.openBlock b], cs) := by
    intro b
    cases b <;>
      rw [Bracket.opening, next_symbolLexemes (by decide) (by decide) (by simp) (by decide)
        (by decide)] <;>
      simp [symbolLexemes]
  have hclose : ∀ b : Bracket, next b.closing cs = ([.close b], cs) := by
    intro b
    cases b <;>
      rw [Bracket.closing, next_symbolLexemes (by decide) (by decide) (by simp) (by decide)
        (by decide)] <;>
      simp [symbolLexemes]
  cases l with
  | atom a => exact scan_atom hwf hm h
  | openFunction name =>
    have := scan_openFunction hwf.1 h
    rw [written, List.append_assoc]
    exact this
  | openBlock b => exact scan_of_next (hopen b)
  | close b => exact scan_of_next (hclose b)

/-! ## 5. First characters -/

/-- The first character of a written lexeme. -/
def Head : Lexeme → Char → Prop
  | .atom (.whitespace text), d => text.head? = some d ∧ Syntax.isWhitespace d
  | .atom (.literal text), d => text.head? = some d
  | .atom (.ident _), d | .openFunction _, d => isNameStart d ∨ d = '-' ∨ d = '\\'
  | .atom (.url _ _), d => d = 'u'
  | .atom (.unicodeRange _ _), d => d = 'U'
  | .atom (.number _), d | .atom (.percentage _), d | .atom (.dimension _ _), d =>
    d.isDigit ∨ d = '+' ∨ d = '-' ∨ d = '.'
  | .atom (.atKeyword _), d => d = '@'
  | .atom (.hash _ _), d => d = '#'
  | .atom (.comment _), d => d = '/'
  | .atom (.string _ _), d => d = '"'
  | .atom (.fault _), _ => False
  | .openBlock b, d => d = b.opening
  | .close b, d => d = b.closing

/-- No lexeme is written as nothing, and its first character is one of its kind. -/
theorem exists_head {l : Lexeme} (h : l.WellFormed) (cs : List Char) :
    ∃ d ds, l.written ++ cs = d :: ds ∧ l.Head d := by
  cases l with
  | atom a =>
    cases a with
    | whitespace text =>
      cases text with
      | nil => exact absurd rfl h.1
      | cons d ds => exact ⟨d, ds ++ cs, rfl, rfl, h.2 d List.mem_cons_self⟩
    | comment text => exact ⟨'/', _, rfl, rfl⟩
    | literal text =>
      cases text with
      | nil =>
        rcases h with h | ⟨c, hc, -⟩
        · exact absurd h (by decide)
        · simp at hc
      | cons d ds => exact ⟨d, ds ++ cs, rfl, rfl⟩
    | ident name => exact head_identWritten h.1 cs
    | atKeyword name => exact ⟨'@', _, rfl, rfl⟩
    | hash name isIdent => exact ⟨'#', _, rfl, rfl⟩
    | string value closed => exact ⟨'"', _, rfl, rfl⟩
    | url value closed => exact ⟨'u', _, rfl, rfl⟩
    | unicodeRange first last => exact ⟨'U', _, rfl, rfl⟩
    | number n =>
      obtain ⟨c, rest, heq, hc, -⟩ := Numeral.head_chars h cs
      exact ⟨c, rest, heq, hc⟩
    | percentage n =>
      obtain ⟨c, rest, heq, hc, -⟩ := Numeral.head_chars h (['%'] ++ cs)
      exact ⟨c, rest, by rw [← heq]; exact List.append_assoc .., hc⟩
    | dimension n unit =>
      obtain ⟨c, rest, heq, hc, -⟩ := Numeral.head_chars h.1 (unitWritten unit ++ cs)
      exact ⟨c, rest, by rw [← heq]; exact List.append_assoc .., hc⟩
    | fault kind => exact h.elim
  | openFunction name =>
    obtain ⟨d, ds, heq, hd⟩ := head_identWritten h.1 (['('] ++ cs)
    exact ⟨d, ds, by rw [← heq]; exact List.append_assoc .., hd⟩
  | openBlock b => exact ⟨b.opening, _, rfl, rfl⟩
  | close b => exact ⟨b.closing, _, rfl, rfl⟩

/-- Whether a lexeme starts with a name, a number or a range of characters. -/
def startsWord (l : Lexeme) : Bool :=
  l.joint.startsWithName || l.joint.startsWithNumber || l.joint == .unicodeRange

/-- What a lexeme can be that starts with the character `d`. What is asked of a text that a lexeme is
written in front of hangs on its first character, so these cases, and not the constructors, are what
the lemmas below are proved by. -/
inductive Begins (l : Lexeme) (d : Char) : Prop
  | number (hl : l.joint.startsWithNumber) (hd : d.isDigit ∨ d = '+' ∨ d = '-' ∨ d = '.')
  | name (hl : l.joint = .ident ∨ l.joint = .function) (hd : isNameStart d ∨ d = '-' ∨ d = '\\')
  | range (hl : l.startsWord) (hd : d = 'u' ∨ d = 'U')
  | literal (text : List Char) (hl : l = .atom (.literal (d :: text)))
  | bracket (b : Bracket) (hl : l = .openBlock b) (hd : d = b.opening)
  | whitespace (text : List Char) (hl : l = .atom (.whitespace text)) (hd : Syntax.isWhitespace d)
  | mark (hd : d ∈ ['@', '#', '/', '"', ')', ']', '\x7d'])

/-- The one place where the first characters are gone through kind by kind. -/
theorem Head.begins {l : Lexeme} {d : Char} (h : l.Head d) : l.Begins d := by
  cases l with
  | atom a =>
    cases a with
    | whitespace text => exact .whitespace text rfl h.2
    | literal text =>
      cases text with
      | nil => simp [Head] at h
      | cons c text =>
        obtain rfl : c = d := by simpa [Head] using h
        exact .literal text rfl
    | ident name => exact .name (.inl rfl) h
    | url value closed => exact .range rfl (.inl h)
    | unicodeRange first last => exact .range rfl (.inr h)
    | number n => exact .number rfl h
    | percentage n => exact .number rfl h
    | dimension n unit => exact .number rfl h
    | fault kind => exact h.elim
    | _ =>
      obtain rfl := h
      exact .mark (by decide)
  | openFunction name => exact .name (.inr rfl) h
  | openBlock b => exact .bracket b rfl h
  | close b =>
    obtain rfl := h
    cases b <;> exact .mark (by decide)

/-- The literals that start with a character. -/
theorem literal_cases {d : Char} {t : List Char} (hwf : (Lexeme.atom (.literal (d :: t))).WellFormed) :
    t = [] ∨ d :: t ∈ longLiterals := by
  rcases hwf with h | ⟨c, hc, -⟩
  · exact .inr h
  · exact .inl (List.cons.inj hc).2

/-- No literal starts with what a word, a number, whitespace or a bracket starts with. -/
theorem head_literal {d : Char} {t : List Char} (hwf : (Lexeme.atom (.literal (d :: t))).WellFormed) :
    Syntax.isWhitespace d = false ∧ isNameStart d = false ∧ d.isDigit = false ∧ d ≠ '(' := by
  rcases hwf with h | ⟨c, hc, hlit, -⟩
  · simp only [longLiterals, List.mem_cons, List.cons.injEq, List.not_mem_nil, or_false] at h
    rcases h with h | h | h | h | h | h | h | h <;> obtain ⟨rfl, -⟩ := h <;> decide
  · obtain ⟨rfl, -⟩ := List.cons.inj hc
    have hbracket : d ≠ '(' := by
      rintro rfl
      exact absurd hlit (by decide)
    simp only [isLiteralChar, Bool.not_eq_true', Bool.or_eq_false_iff] at hlit
    exact ⟨hlit.1.1.1, hlit.1.1.2, hlit.1.2, hbracket⟩

/-- A lexeme that starts with a character that only literals start with. -/
theorem eq_literal_of_head {l : Lexeme} {d : Char} (h : l.Head d)
    (hd : d ∈ ['*', '=', '|', '!', '>', '%', '?']) : ∃ t, l = .atom (.literal (d :: t)) := by
  have hplain : isNameStart d = false ∧ d.isDigit = false ∧ Syntax.isWhitespace d = false ∧
      d ∉ ['-', '\\', '+', '.', '@', '#', '/', '"', 'u', 'U', '(', ')', '[', ']', '\x7b', '\x7d'] := by
    simp only [List.mem_cons, List.not_mem_nil, or_false] at hd
    rcases hd with rfl | rfl | rfl | rfl | rfl | rfl | rfl <;> decide
  obtain ⟨h1, h2, h3, h4⟩ := hplain
  simp only [List.mem_cons, List.not_mem_nil, or_false, not_or] at h4
  cases h.begins with
  | literal t hl => exact ⟨t, hl⟩
  | number _ hd => simp [h2, h4] at hd
  | name _ hd => simp [h1, h4] at hd
  | range _ hd => simp [h4] at hd
  | bracket b _ hd => cases b <;> simp [Bracket.opening, h4] at hd
  | whitespace _ _ hd => simp [h3] at hd
  | mark hd => simp [h4] at hd

/-- A plus sign that starts no number is the literal. -/
theorem eq_plus_of_head {l : Lexeme} (hwf : l.WellFormed) (h : l.Head '+')
    (hnum : l.joint.startsWithNumber = false) : l = .atom (.literal ['+']) := by
  cases h.begins with
  | literal t hl =>
    subst hl
    rcases literal_cases hwf with rfl | ht
    · rfl
    · simp [longLiterals] at ht
  | number hl => simp [hl] at hnum
  | name _ hd => exact absurd hd (by decide)
  | range _ hd => exact absurd hd (by decide)
  | bracket b _ hd => cases b <;> exact absurd hd (by decide)
  | whitespace _ _ hd => exact absurd hd (by decide)
  | mark hd => exact absurd hd (by decide)

/-- A hyphen that starts neither a number nor a name is one of two literals. -/
theorem eq_hyphen_of_head {l : Lexeme} (hwf : l.WellFormed) (h : l.Head '-')
    (hnum : l.joint.startsWithNumber = false) (hident : l.joint ≠ .ident)
    (hfunction : l.joint ≠ .function) :
    l = .atom (.literal ['-']) ∨ l = .atom (.literal ['-', '-', '>']) := by
  cases h.begins with
  | literal t hl =>
    subst hl
    rcases literal_cases hwf with rfl | ht
    · exact .inl rfl
    · obtain rfl : t = ['-', '>'] := by simpa [longLiterals] using ht
      exact .inr rfl
  | number hl => simp [hl] at hnum
  | name hl => exact (hl.elim hident hfunction).elim
  | range _ hd => exact absurd hd (by decide)
  | bracket b _ hd => cases b <;> exact absurd hd (by decide)
  | whitespace _ _ hd => exact absurd hd (by decide)
  | mark hd => exact absurd hd (by decide)

/-- A bracket in front is the one of a block. -/
theorem eq_openBlock_of_head {l : Lexeme} (hwf : l.WellFormed) (h : l.Head '(') :
    l = .openBlock .round := by
  cases h.begins with
  | bracket b hl hd =>
    cases b with
    | round => exact hl
    | square => exact absurd hd (by decide)
    | curly => exact absurd hd (by decide)
  | literal t hl =>
    subst hl
    exact absurd rfl (head_literal hwf).2.2.2
  | number _ hd => exact absurd hd (by decide)
  | name _ hd => exact absurd hd (by decide)
  | range _ hd => exact absurd hd (by decide)
  | whitespace _ _ hd => exact absurd hd (by decide)
  | mark hd => exact absurd hd (by decide)

/-- What starts with a number is written with its numeral in front. -/
theorem exists_numeral {l : Lexeme} (hwf : l.WellFormed) (hw : l.joint.startsWithNumber) :
    ∃ (n : Numeral) (es : List Char), n.WellFormed ∧ l.written = n.chars ++ es := by
  cases l with
  | atom a =>
    cases a with
    | number n => exact ⟨n, [], hwf, (List.append_nil _).symm⟩
    | percentage n => exact ⟨n, ['%'], hwf, rfl⟩
    | dimension n unit => exact ⟨n, unitWritten unit, hwf.1, rfl⟩
    | _ => simp [joint, Atom.joint, Joint.startsWithNumber] at hw
  | openBlock b => cases b <;> simp [joint, Joint.startsWithNumber] at hw
  | _ => simp [joint, Joint.startsWithNumber] at hw

/-- What starts with a name is written with that name in front, and it is the name that a range of
characters or two hyphens are looked for in. -/
theorem exists_name {l : Lexeme} (hwf : l.WellFormed)
    (hl : l.joint = .ident ∨ l.joint = .function) :
    ∃ name es, name ≠ [] ∧ l.written = identWritten name ++ es ∧
      l.startsAsRange = (name.head?.any fun c => isNameStart c && isHexDigit c) ∧
      l.startsWithHyphens = ['-', '-'].isPrefixOf name := by
  cases l with
  | atom a =>
    cases a with
    | ident name => exact ⟨name, [], hwf.1, (List.append_nil _).symm, rfl, rfl⟩
    | _ => simp [joint, Atom.joint] at hl
  | openFunction name => exact ⟨name, ['('], hwf.1, rfl, rfl, rfl⟩
  | openBlock b => cases b <;> simp [joint] at hl
  | close b => simp [joint] at hl

/-- What starts with no word and with no hyphen starts with no name. The backslash is the one literal
that could, and it stands in a source only where a line break follows. -/
theorem not_startsName_written {l : Lexeme} {cs : List Char} (hwf : l.WellFormed)
    (hs : l.StopsAt cs) (hw : l.startsWord = false) (h1 : l ≠ .atom (.literal ['-']))
    (h2 : l ≠ .atom (.literal ['-', '-', '>'])) : startsName (l.written ++ cs) = false := by
  -- a name goes on with a name character or an escape, so the first character decides
  -- everywhere but at a lone backslash
  have key : ∀ d ds, isNameChar d = false → d ≠ '\\' → startsName (d :: ds) = false := by
    intro d ds hd hb
    have : startsEscape (d :: ds) = false := by
      unfold startsEscape
      split <;> simp_all
    simp [startsName, hd, this]
  obtain ⟨d, ds, heq, hd⟩ := exists_head hwf cs
  cases hd.begins with
  | number hl => simp [startsWord, hl] at hw
  | name hl => rcases hl with hl | hl <;> simp [startsWord, hl, Joint.startsWithName] at hw
  | range hl => simp [hl] at hw
  | literal t hl =>
    subst hl
    have hdigit := head_literal hwf
    rcases literal_cases hwf with rfl | ht
    · have hn : isNameChar d = false := by
        have hne : d ≠ '-' := by
          rintro rfl
          exact h1 rfl
        simp [isNameChar, hdigit, hne]
      by_cases hb : d = '\\'
      · subst hb
        have := hs.backslash rfl
        simp [written, Atom.written, startsName, hn, this]
      · exact heq ▸ key d ds hn hb
    · simp only [longLiterals, List.mem_cons, List.cons.injEq, List.not_mem_nil, or_false] at ht
      rcases ht with h | h | h | h | h | h | h | h <;> obtain ⟨rfl, rfl⟩ := h
      · exact key _ _ (by decide) (by decide)
      · exact absurd rfl h2
      all_goals exact key _ _ (by decide) (by decide)
  | bracket b _ hd =>
    rw [heq, hd]
    cases b <;> exact key _ _ (by decide) (by decide)
  | whitespace text _ hd =>
    rw [heq]
    refine key d _ (Bool.eq_false_iff.mpr fun hn => ?_) ?_
    · rw [not_isWhitespace_of_isNameChar hn] at hd
      simp at hd
    · rintro rfl
      exact absurd hd (by decide)
  | mark hd =>
    rw [heq]
    simp only [List.mem_cons, List.not_mem_nil, or_false] at hd
    rcases hd with rfl | rfl | rfl | rfl | rfl | rfl | rfl <;>
      exact key _ _ (by decide) (by decide)

/-- A number starts no identifier: behind its sign, if it has one, comes a digit or a point. -/
theorem not_startsIdent_number {l : Lexeme} {cs : List Char} (hwf : l.WellFormed)
    (hw : l.joint.startsWithNumber) : startsIdent (l.written ++ cs) = false := by
  obtain ⟨n, es, hn, hwritten⟩ := exists_numeral hwf hw
  obtain ⟨c, r, heq, hc, hsign⟩ := Numeral.head_chars hn (es ++ cs)
  have hfig : ∀ d ds, d.isDigit ∨ d = '.' → startsEscape (d :: ds) = false ∧
      isNameStart d = false ∧ d ≠ '-' := by
    rintro d ds (hd | rfl)
    · have hne : d ≠ '\\' ∧ d ≠ '-' := by
        constructor <;> rintro rfl <;> exact absurd hd (by decide)
      refine ⟨?_, not_isNameStart_digit hd, hne.2⟩
      unfold startsEscape
      split <;> simp_all
    · exact ⟨rfl, by decide, by decide⟩
  rw [hwritten, List.append_assoc, heq]
  rcases hc with hc | rfl | rfl | rfl
  · obtain ⟨h1, h2, h3⟩ := hfig c r (.inl hc)
    simp [startsIdent, h1, h2, h3]
  · simp [startsIdent, startsEscape, isNameStart]
  · obtain ⟨d, ds, rfl, hd⟩ := hsign (.inr rfl)
    obtain ⟨h1, h2, h3⟩ := hfig d ds hd
    simp [startsIdent, h1, h2, h3]
  · simp [startsIdent, startsEscape, isNameStart]

/-- What is no number starts with no figure. A point alone could, and in a source no digit follows
one. -/
theorem not_startsFigure_written {l : Lexeme} {cs : List Char} (hwf : l.WellFormed)
    (hs : l.StopsAt cs) (hw : l.joint.startsWithNumber = false) :
    startsFigure (l.written ++ cs) = false ∧ ∀ d ∈ (l.written ++ cs).head?, d.isDigit = false := by
  -- a figure starts with a digit or a point: one look at the first character is enough
  -- everywhere but at a lone point
  have key : ∀ d ds, d.isDigit = false → d ≠ '.' →
      startsFigure (d :: ds) = false ∧ ∀ e ∈ (d :: ds).head?, e.isDigit = false := by
    intro d ds h1 h2
    refine ⟨?_, ?_⟩
    · unfold startsFigure
      split <;> simp_all
    · rintro e ⟨⟩
      exact h1
  obtain ⟨d, ds, heq, hd⟩ := exists_head hwf cs
  cases hd.begins with
  | number hl => simp [hl] at hw
  | name _ hd =>
    rw [heq]
    rcases hd with hd | rfl | rfl
    · refine key d ds (Bool.eq_false_iff.mpr fun hdigit => ?_) ?_
      · rw [not_isNameStart_digit hdigit] at hd
        simp at hd
      · rintro rfl
        exact absurd hd (by decide)
    · exact key _ _ (by decide) (by decide)
    · exact key _ _ (by decide) (by decide)
  | range _ hd =>
    rw [heq]
    rcases hd with rfl | rfl <;> exact key _ _ (by decide) (by decide)
  | literal t hl =>
    subst hl
    by_cases hp : d = '.'
    · subst hp
      -- a point of its own: what follows it was written so that no digit does
      obtain rfl : t = [] := (literal_cases hwf).resolve_right (by simp [longLiterals])
      have hdot := hs.point rfl
      refine ⟨?_, ?_⟩
      · cases cs with
        | nil => rfl
        | cons e r => exact hdot e rfl
      · rintro e ⟨⟩
        decide
    · exact heq ▸ key d ds (head_literal hwf).2.2.1 hp
  | bracket b _ hd =>
    rw [heq, hd]
    cases b <;> exact key _ _ (by decide) (by decide)
  | whitespace text _ hd =>
    rw [heq]
    refine key d ds (Bool.eq_false_iff.mpr fun hdigit => ?_) ?_
    · have := not_isWhitespace_of_isNameChar (c := d) (by simp [isNameChar, hdigit])
      rw [hd] at this
      simp at this
    · rintro rfl
      exact absurd hd (by decide)
  | mark hd =>
    rw [heq]
    simp only [List.mem_cons, List.not_mem_nil, or_false] at hd
    rcases hd with rfl | rfl | rfl | rfl | rfl | rfl | rfl <;>
      exact key _ _ (by decide) (by decide)

/-- A written identifier that starts with two hyphens is of a name that does. -/
theorem hyphens_of_identWritten {name cs ds : List Char}
    (h : identWritten name ++ cs = '-' :: '-' :: ds) (hne : name ≠ []) :
    ['-', '-'].isPrefixOf name := by
  have hstart : ∀ c es fs, c ≠ '-' → identStartWritten c ++ es ≠ '-' :: fs := by
    intro c es fs hc heq
    rcases head_identStartWritten c with ⟨-, hw⟩ | ⟨gs, hw⟩
    · rw [hw] at heq
      exact hc (List.cons.inj heq).1
    · rw [hw] at heq
      exact absurd (List.cons.inj heq).1 (by decide)
  unfold identWritten at h
  split at h
  · exact absurd (List.cons.inj h).1 (by decide)
  · simp
  · rename_i c rest hc
    rw [List.cons_append, List.append_assoc] at h
    have hc' : c ≠ '-' := by
      rintro rfl
      exact hc rfl
    exact absurd (List.cons.inj h).2 (hstart c _ _ hc')
  · rename_i c rest h1 h2 h3
    rw [List.append_assoc] at h
    have hc : c ≠ '-' := by
      rintro rfl
      cases rest with
      | nil => exact h1 rfl rfl
      | cons d r => exact h3 d r rfl rfl
    exact absurd h (hstart c _ _ hc)
  · exact absurd rfl hne

/-! ## 6. Neighbours -/

theorem not_startsIdent_of_startsName {cs : List Char} (h : startsName cs = false) :
    startsIdent cs = false ∧ startsIdent ('-' :: cs) = false := by
  refine ⟨Bool.eq_false_iff.mpr fun hi => ?_, ?_⟩
  · rw [startsName_of_startsIdent hi] at h
    simp at h
  · simp only [startsName, Bool.or_eq_false_iff] at h
    simp only [startsIdent, h.2, Bool.or_false]
    cases cs with
    | nil => rfl
    | cons d ds =>
      simp only [List.head?_cons, Option.any_some, isNameChar, Bool.or_eq_false_iff] at h ⊢
      exact ⟨h.1.1.1, h.1.2⟩

theorem takeFraction_of_not_startsFigure {cs : List Char} (h : startsFigure cs = false) :
    (takeFraction cs).1 = none := by
  unfold takeFraction
  split
  · rename_i rest
    cases rest with
    | nil => rfl
    | cons d ds =>
      have : d.isDigit = false := h
      simp [this]
  · rfl

theorem takeExponent_of_head {cs : List Char} (h : ∀ c ∈ cs.head?, c ≠ 'e' ∧ c ≠ 'E') :
    (takeExponent cs).1 = none := by
  cases cs with
  | nil => rfl
  | cons c rest =>
    obtain ⟨h1, h2⟩ := h c rfl
    simp [takeExponent, h1, h2]

theorem isNameStart_or_isDigit_of_isHexDigit {c : Char} (h : isHexDigit c) :
    isNameStart c ∨ c.isDigit := by
  have hc := isNameChar_of_isHexDigit h
  simp only [isNameChar, Bool.or_eq_true, beq_iff_eq] at hc
  rcases hc with (hc | hc) | rfl
  · exact .inl hc
  · exact .inr hc
  · exact absurd h (by decide)

/-- Only a number, an identifier or a function is written with a hexadecimal digit in front. -/
theorem not_isHexDigit_head {l : Lexeme} {d : Char} (hwf : l.WellFormed) (h : l.Head d)
    (hnum : l.joint.startsWithNumber = false) (hident : l.joint ≠ .ident)
    (hfunction : l.joint ≠ .function) : isHexDigit d = false := by
  refine Bool.eq_false_iff.mpr fun hx => ?_
  have hname := isNameStart_or_isDigit_of_isHexDigit hx
  cases h.begins with
  | number hl => simp [hl] at hnum
  | name hl => exact (hl.elim hident hfunction).elim
  | range _ hd => rcases hd with rfl | rfl <;> exact absurd hx (by decide)
  | literal t hl =>
    subst hl
    have hliteral := head_literal hwf
    simp [hliteral.2.1, hliteral.2.2.1] at hname
  | bracket b _ hd =>
    subst hd
    cases b <;> exact absurd hx (by decide)
  | whitespace text _ hd =>
    rw [not_isWhitespace_of_isNameChar (isNameChar_of_isHexDigit hx)] at hd
    simp at hd
  | mark hd =>
    simp only [List.mem_cons, List.not_mem_nil, or_false] at hd
    rcases hd with rfl | rfl | rfl | rfl | rfl | rfl | rfl <;> exact absurd hx (by decide)

/-- Texts that may come after a list of lexemes. -/
def Boundary (cs : List Char) : Prop := ∀ c ∈ cs.head?, c ≠ '?' ∧ c ≠ '-' ∧ isHexDigit c = false

theorem after_of_clash {l l' : Lexeme} {ls : List Lexeme} {cs : List Char}
    (h : l.joint.clash l'.joint) :
    after l (l' :: ls) cs = '/' :: '*' :: '*' :: '/' :: (l'.written ++ after l' ls cs) := by
  rw [after_cons, glue, if_pos h]
  rfl

theorem after_of_not_clash {l l' : Lexeme} {ls : List Lexeme} {cs : List Char}
    (h : l.joint.clash l'.joint = false) :
    after l (l' :: ls) cs = l'.written ++ after l' ls cs := by
  rw [after_cons, glue, h]
  rfl

/-- Behind a plus sign no range of characters goes on. -/
theorem after_plus {ls : List Lexeme} {cs : List Char} (h : Sourced ls) (hs : StopsAll ls cs)
    (hr : ls.head?.any startsAsRange = false) (hb : Boundary cs) :
    ∀ c ∈ (after (.atom (.literal ['+'])) ls cs).head?, isHexDigit c = false ∧ c ≠ '?' := by
  cases ls with
  | nil =>
    intro c hc
    exact ⟨(hb c hc).2.2, (hb c hc).1⟩
  | cons l ls =>
    cases hcl : (joint (.atom (.literal ['+']))).clash l.joint with
    | true =>
      rw [after_of_clash hcl]
      rintro c ⟨⟩
      decide
    | false =>
      rw [after_of_not_clash hcl]
      have hnum : l.joint.startsWithNumber = false := by
        simpa [joint, Atom.joint, Joint.clash, Joint.endsInName] using hcl
      have hr : l.startsAsRange = false := by simpa using hr
      obtain ⟨d, ds, heq, hd⟩ := exists_head h.1 (after l ls cs)
      have hfig := (not_startsFigure_written h.1 hs.1 hnum).2 d (by rw [heq]; rfl)
      rw [heq]
      rintro c ⟨⟩
      refine ⟨Bool.eq_false_iff.mpr fun hx => ?_, ?_⟩
      · -- A hexadecimal digit in front is a letter that the lexeme's own name starts with.
        have hstart := (isNameStart_or_isDigit_of_isHexDigit hx).resolve_right (by simp [hfig])
        have hname : l.joint = .ident ∨ l.joint = .function := by
          by_contra hne
          rw [not_or] at hne
          exact Bool.eq_false_iff.mp (not_isHexDigit_head h.1 hd hnum hne.1 hne.2) hx
        obtain ⟨name, es, hne, hwritten, hrange, -⟩ := exists_name h.1 hname
        rw [hwritten, List.append_assoc] at heq
        obtain ⟨r, rfl, -⟩ := eq_cons_of_identWritten heq hstart hne
        simp [hrange, hstart, hx] at hr
      · rintro rfl
        obtain ⟨t, rfl⟩ := eq_literal_of_head hd (by decide)
        obtain rfl : t = [] := (literal_cases h.1).resolve_right (by simp [longLiterals])
        simp [startsAsRange] at hr

/-- Behind an exclamation mark no two hyphens are written. -/
theorem after_bang {ls : List Lexeme} {cs : List Char} (h : Sourced ls) (hs : StopsAll ls cs)
    (hr : ls.head?.any startsWithHyphens = false) (hb : Boundary cs) :
    ¬['-', '-'] <+: after (.atom (.literal ['!'])) ls cs := by
  rintro ⟨r, hpre⟩
  cases ls with
  | nil =>
    obtain rfl : '-' :: '-' :: r = cs := hpre
    exact (hb '-' rfl).2.1 rfl
  | cons l ls =>
    have hcl : (joint (.atom (.literal ['!']))).clash l.joint = false := by
      simp [joint, Atom.joint, Joint.clash, Joint.endsInName]
    rw [after_of_not_clash hcl] at hpre
    have hr : l.startsWithHyphens = false := by simpa using hr
    obtain ⟨d, ds, heq, hd⟩ := exists_head h.1 (after l ls cs)
    obtain rfl : '-' = d := (List.cons.inj (hpre.trans heq)).1
    cases hnum : l.joint.startsWithNumber with
    | true =>
      -- Behind the sign of a numeral comes a digit or a point.
      obtain ⟨n, es, hn, hwritten⟩ := exists_numeral h.1 hnum
      obtain ⟨c, rest, heq', -, hsign⟩ := Numeral.head_chars hn (es ++ after l ls cs)
      rw [hwritten, List.append_assoc, heq'] at hpre
      obtain ⟨rfl, hrest⟩ := List.cons.inj hpre
      obtain ⟨e, fs, rfl, he⟩ := hsign (.inr rfl)
      obtain rfl : '-' = e := (List.cons.inj hrest).1
      exact absurd he (by decide)
    | false =>
      by_cases hname : l.joint = .ident ∨ l.joint = .function
      · obtain ⟨name, es, hne, hwritten, -, hhyphens⟩ := exists_name h.1 hname
        rw [hwritten, List.append_assoc] at hpre
        rw [hhyphens] at hr
        exact Bool.eq_false_iff.mp hr (hyphens_of_identWritten hpre.symm hne)
      · rw [not_or] at hname
        rcases eq_hyphen_of_head h.1 hd hnum hname.1 hname.2 with rfl | rfl
        · have hstop := hs.1.hyphen rfl
          have hafter : after (.atom (.literal ['-'])) ls cs = '-' :: r :=
            (List.cons.inj hpre).2.symm
          rw [hafter] at hstop
          simp [startsIdent] at hstop
        · simp [startsWithHyphens] at hr

theorem literalStopsAt_comment {c : Char} (hc : c ≠ '\\') (cs : List Char) :
    LiteralStopsAt c ('/' :: '*' :: '*' :: '/' :: cs) := by
  have hname : startsName ('/' :: '*' :: '*' :: '/' :: cs) = false := by
    simp [startsName, startsEscape, isNameChar, isNameStart]
  have hident := not_startsIdent_of_startsName hname
  have hfigure : startsFigure ('/' :: '*' :: '*' :: '/' :: cs) = false := by
    simp [startsFigure]
  exact ⟨fun _ => hname, fun _ => hident.1, fun _ => hident.2, fun _ => hfigure, by simp, by simp,
    by simp, by simp, by simp, fun h => absurd h hc⟩

/-- Before an empty comment every lexeme stops that clashes with anything. -/
theorem stopsAt_comment {l : Lexeme} {b : Joint} (h : l.joint.clash b) (cs : List Char) :
    l.StopsAt ('/' :: '*' :: '*' :: '/' :: cs) := by
  have hname : startsName ('/' :: '*' :: '*' :: '/' :: cs) = false := by
    simp [startsName, startsEscape, isNameChar, isNameStart]
  have hleft := Joint.of_clash h
  cases l with
  | atom a =>
    cases a with
    | whitespace text => simp [joint, Atom.joint, Joint.endsInName] at hleft
    | literal text =>
      simp only [joint, Atom.joint, Joint.endsInName, Bool.false_eq_true, reduceCtorEq, false_or,
        Joint.literal.injEq] at hleft
      obtain ⟨c, hc, rfl⟩ := hleft
      refine literalStopsAt_comment ?_ cs
      rintro rfl
      exact absurd hc (by decide)
    | ident name => exact ⟨hname, by simp, by simp, by simp [startsRange]⟩
    | number n =>
      exact ⟨⟨by simp, by simp [takeFraction], by simp [takeExponent]⟩,
        (not_startsIdent_of_startsName hname).1, by simp⟩
    | unicodeRange first last => exact ⟨by simp [isHexDigit], by simp, by simp⟩
    | atKeyword name => exact hname
    | hash name isIdent => exact hname
    | dimension n unit => exact hname
    | _ => trivial
  | openFunction name => simp [joint, Joint.endsInName] at hleft
  | openBlock b => trivial
  | close b => trivial

section Neighbours

variable {l l' : Lexeme} {cs : List Char}

theorem startsWord_eq_false (h1 : l.joint.startsWithName = false)
    (h2 : l.joint.startsWithNumber = false) (h3 : l.joint ≠ .unicodeRange) :
    l.startsWord = false := by
  simp [startsWord, h1, h2, h3]

/-- Behind the end of a name, what does not clash prolongs no name. -/
theorem not_startsName_of_apart (hwf : l'.WellFormed) (hs : l'.StopsAt cs)
    (h : l.joint.Apart l'.joint) (hl : l.joint.endsInName) :
    startsName (l'.written ++ cs) = false := by
  obtain ⟨h1, h2, h3⟩ := h.word (.inl hl)
  obtain ⟨h4, h5⟩ := h.hyphen hl
  refine not_startsName_written hwf hs (startsWord_eq_false h1 h2 h3) ?_ ?_
  · rintro rfl
    exact h4 rfl
  · rintro rfl
    exact h5 rfl

/-- A lexeme that starts with one of these characters is a literal. Whoever knows that it is none of
those that start with `d` knows that `d` is not in front. -/
theorem head?_ne {d : Char} (hwf : l'.WellFormed)
    (hd : d ∈ ['*', '=', '|', '!', '>', '%', '?']) (hone : l' ≠ .atom (.literal [d]))
    (hlong : ∀ t, d :: t ∈ longLiterals → l' ≠ .atom (.literal (d :: t))) :
    (l'.written ++ cs).head? ≠ some d := by
  obtain ⟨e, es, heq, he⟩ := exists_head hwf cs
  rw [heq]
  rintro ⟨⟩
  obtain ⟨t, rfl⟩ := eq_literal_of_head he hd
  rcases literal_cases hwf with rfl | ht
  · exact hone rfl
  · exact hlong t ht rfl

/-- A literal stops in front of any lexeme that it does not clash with and that may stand behind it in
a source. What it could be taken for depends on the literal, so there is one goal for each. -/
theorem literalStopsAt_written {c : Char} (hwf : l'.WellFormed)
    (hs : l'.StopsAt cs) (hmeet : (Lexeme.atom (.literal [c])).Meets l')
    (h : (Joint.literal [c]).Apart l'.joint)
    (hbang : c = '<' → l' = .atom (.literal ['!']) → ¬['-', '-'] <+: cs) :
    LiteralStopsAt c (l'.written ++ cs) := by
  have hword : c = '#' ∨ c = '-' → startsName (l'.written ++ cs) = false := by
    intro hc
    have hm := hmeet.hyphen (by rcases hc with rfl | rfl <;> simp)
    obtain ⟨h1, h2, h3⟩ := h.word (by rcases hc with rfl | rfl <;> simp)
    exact not_startsName_written hwf hs (startsWord_eq_false h1 h2 h3) hm.1 hm.2
  have hfigure : c = '+' ∨ c = '-' ∨ c = '.' → l'.joint.startsWithNumber = false := by
    rintro (rfl | rfl | rfl)
    · exact h.number (.inr (.inr rfl))
    · exact (h.word (.inr (.inr (.inr rfl)))).2.1
    · exact h.number (.inr (.inl rfl))
  constructor
  · exact fun hc => hword (.inl hc)
  · rintro rfl
    obtain ⟨h1, h2, h3⟩ := h.at_sign rfl
    cases hn : l'.joint.startsWithNumber with
    | true => exact not_startsIdent_number hwf hn
    | false =>
      refine (not_startsIdent_of_startsName (not_startsName_written hwf hs
        (startsWord_eq_false h1 hn h2) ?_ (hmeet.at_sign rfl))).1
      rintro rfl
      exact h3 rfl
  · exact fun hc => (not_startsIdent_of_startsName (hword (.inr hc))).2
  · intro hc
    exact (not_startsFigure_written hwf hs (hfigure (hc.imp id .inl))).1
  · intro hc
    exact (not_startsFigure_written hwf hs (hfigure (.inr (.inr hc)))).2
  · rintro rfl
    refine head?_ne hwf (by decide) (fun hl => h.slash rfl (hl ▸ rfl)) fun t ht => ?_
    obtain rfl : t = ['='] := by simpa [longLiterals] using ht
    exact hmeet.slash rfl
  · rintro rfl ⟨r, hr⟩
    obtain ⟨e, es, heq, he⟩ := exists_head hwf cs
    obtain rfl : '!' = e := (List.cons.inj (hr.trans heq)).1
    obtain ⟨t, rfl⟩ := eq_literal_of_head he (by decide)
    obtain rfl : t = [] := (literal_cases hwf).resolve_right (by simp [longLiterals])
    exact hbang rfl rfl ⟨r, (List.cons.inj hr).2⟩
  · rintro rfl
    obtain ⟨h1, h2⟩ := hmeet.bar rfl
    refine head?_ne hwf (by decide) (fun hl => h.bar rfl (hl ▸ rfl)) fun t ht => ?_
    have ht : t = ['|'] ∨ t = ['='] := by simpa [longLiterals] using ht
    rcases ht with rfl | rfl
    · exact h2
    · exact h1
  · intro hc
    refine head?_ne hwf (by decide) (fun hl => h.equals ?_ (hl ▸ rfl)) (by simp [longLiterals])
    rcases hc with rfl | rfl | rfl | rfl | rfl <;> simp
  · rintro rfl
    obtain ⟨t, rfl⟩ := hmeet.backslash rfl
    rfl

/-- A number stops in front of any lexeme that it does not clash with: no digit, point, exponent, unit
or percent sign can come from there. The percent sign is no clash, since a source never has one
behind a number. -/
theorem numberStopsAt_written {n : Numeral} (hwf : l'.WellFormed) (hs : l'.StopsAt cs)
    (hmeet : (Lexeme.atom (.number n)).Meets l') (h : Joint.number.Apart l'.joint) :
    NumberStopsAt n (l'.written ++ cs) := by
  obtain ⟨h1, h2, h3⟩ := h.word (.inr (.inl rfl))
  obtain ⟨hm1, hm2⟩ := hmeet.number n rfl
  have hfig := not_startsFigure_written hwf hs h2
  have hident : startsIdent (l'.written ++ cs) = false := by
    by_cases hh : l' = .atom (.literal ['-'])
    · subst hh
      exact hs.hyphen rfl
    · exact (not_startsIdent_of_startsName (not_startsName_written hwf hs
        (startsWord_eq_false h1 h2 h3) hh hm2)).1
  refine ⟨⟨hfig.2, fun _ _ => takeFraction_of_not_startsFigure hfig.1, fun _ => ?_⟩, hident, ?_⟩
  · refine takeExponent_of_head fun c hc => ?_
    obtain ⟨ds, hds⟩ : ∃ ds, l'.written ++ cs = c :: ds := by
      cases hw : l'.written ++ cs with
      | nil => simp [hw] at hc
      | cons e es => exact ⟨es, by simpa [hw] using hc⟩
    rw [hds] at hident
    constructor <;> rintro rfl <;> simp [startsIdent, isNameStart] at hident
  · exact head?_ne hwf (by decide) hm1 (by simp [longLiterals])

/-- Behind what clashes with numbers, identifiers and functions no hexadecimal digit is written. -/
theorem not_isHexDigit_after {ls : List Lexeme} (h : Sourced ls) (hb : Boundary cs)
    (hl : ∀ j : Joint, j.startsWithNumber ∨ j = .ident ∨ j = .function → l.joint.clash j) :
    ∀ c ∈ (after l ls cs).head?, isHexDigit c = false := by
  cases ls with
  | nil => exact fun c hc => (hb c hc).2.2
  | cons l' ls =>
    cases hclash : l.joint.clash l'.joint with
    | true =>
      rw [after_of_clash hclash]
      rintro c ⟨⟩
      decide
    | false =>
      rw [after_of_not_clash hclash]
      obtain ⟨d, ds, heq, hd⟩ := exists_head h.1 (after l' ls cs)
      rw [heq]
      have hne : ∀ j : Joint, l.joint.clash j → l'.joint ≠ j := by
        rintro j hj rfl
        rw [hclash] at hj
        cases hj
      have hnum : l'.joint.startsWithNumber = false :=
        Bool.eq_false_iff.mpr fun hn => hne _ (hl _ (.inl hn)) rfl
      rintro c ⟨⟩
      exact not_isHexDigit_head h.1 hd hnum (hne _ (hl _ (by simp))) (hne _ (hl _ (by simp)))

/-- A range of characters stops where the next lexeme of a source is written. -/
theorem rangeStopsAt_after {first last : Nat} {ls : List Lexeme} (h : Sourced ls)
    (hb : Boundary cs) : RangeStopsAt (after (.atom (.unicodeRange first last)) ls cs) := by
  have hdigit := not_isHexDigit_after (l := .atom (.unicodeRange first last)) h hb
    (by rintro j (hj | rfl | rfl) <;> simp [joint, Atom.joint, Joint.clash, *])
  cases ls with
  | nil =>
    refine ⟨hdigit, fun hc => (hb _ hc).1 rfl, ?_⟩
    rintro c rest rfl
    exact absurd rfl (hb _ rfl).2.1
  | cons l' ls =>
    cases hclash : (joint (.atom (.unicodeRange first last))).clash l'.joint with
    | true => exact after_of_clash hclash ▸ stopsAt_comment hclash _
    | false =>
      have hapart := Joint.apart hclash
      obtain ⟨h1, h2, h3⟩ := hapart.range rfl
      have hnum := hapart.number (.inl rfl)
      rw [after_of_not_clash hclash] at hdigit ⊢
      refine ⟨hdigit, head?_ne h.1 (by decide) (fun hl => h3 (hl ▸ rfl)) (by simp [longLiterals]), ?_⟩
      intro c rest heq
      obtain ⟨e, es, heq', he⟩ := exists_head h.1 (after l' ls cs)
      obtain rfl : '-' = e := (List.cons.inj (heq.symm.trans heq')).1
      rcases eq_hyphen_of_head h.1 he hnum h1 h2 with rfl | rfl
      · -- A hyphen: what would prolong it to a number or a name clashes with it.
        refine not_isHexDigit_after (l := .atom (.literal ['-'])) h.2.2.2 hb ?_ c ?_
        · rintro j (hj | rfl | rfl) <;>
            simp [joint, Atom.joint, Joint.clash, Joint.startsWithName, *]
        · exact congrArg List.head? (List.cons.inj heq).2
      · obtain rfl : '-' = c := (List.cons.inj (List.cons.inj heq).2).1
        decide

/-- An identifier stops in front of any lexeme that it does not clash with. The name `u` and a plus
sign could still be read as a range of characters, which the lexeme behind the sign decides. -/
theorem identStopsAt_written {name : List Char} {ls : List Lexeme} (hwf : l'.WellFormed)
    (hs : l'.StopsAt cs) (h : Joint.ident.Apart l'.joint)
    (hj : misjoins (.atom (.ident name) :: l' :: ls) = false)
    (hplus : l' = .atom (.literal ['+']) → ls.head?.any startsAsRange = false →
      ∀ c ∈ cs.head?, isHexDigit c = false ∧ c ≠ '?') :
    IdentStopsAt name (l'.written ++ cs) := by
  refine ⟨not_startsName_of_apart (l := .atom (.ident name)) hwf hs h rfl, ?_, ?_, ?_⟩
  · obtain ⟨e, es, heq, he⟩ := exists_head hwf cs
    rw [heq]
    rintro ⟨⟩
    obtain rfl := eq_openBlock_of_head hwf he
    exact h.bracket rfl rfl
  · rintro rfl
    refine head?_ne hwf (by decide) ?_ (by simp [longLiterals])
    rintro rfl
    simp [misjoins] at hj
  · intro hname
    unfold startsRange
    split
    · rename_i c rest heq
      obtain ⟨e, es, heq', he⟩ := exists_head hwf cs
      obtain rfl : '+' = e := (List.cons.inj (heq.symm.trans heq')).1
      obtain rfl := eq_plus_of_head hwf he (h.word (.inl rfl)).2.1
      obtain rfl : cs = c :: rest := (List.cons.inj heq).2
      have hname' : (name == ['u'] || name == ['U']) = true := by simpa using hname
      have hr : ls.head?.any startsAsRange = false := by
        simpa [misjoins, hname'] using hj
      obtain ⟨h1, h2⟩ := hplus rfl hr c rfl
      simp [h1, h2]
    · rfl

end Neighbours

/-! ## 7. A whole list -/

/-- No function is still open at the end of a list, nor before whitespace at its end. -/
def EndsClosed (ls : List Lexeme) : Prop :=
  ∀ name, ¬[.openFunction name] <:+ ls ∧
    ∀ text, ¬[.openFunction name, .atom (.whitespace text)] <:+ ls

theorem EndsClosed.tail {l : Lexeme} {ls : List Lexeme} (h : EndsClosed (l :: ls)) :
    EndsClosed ls := fun name =>
  ⟨fun hs => (h name).1 (hs.trans (List.suffix_cons ..)),
    fun text hs => (h name).2 text (hs.trans (List.suffix_cons ..))⟩

/-- A function `url` stops where its string is written. -/
theorem startsQuoted_after {name : List Char} {ls : List Lexeme} {cs : List Char}
    (h : Sourced ls) (hq : StartsQuoted ls) (hc : EndsClosed (.openFunction name :: ls)) :
    startsQuoted (after (.openFunction name) ls cs) := by
  -- no comment is put behind an opening bracket, so the string is still the next token
  have hnone : ∀ l : Lexeme, (joint (.openFunction name)).clash l.joint = false := by
    intro l
    refine Bool.eq_false_iff.mpr fun hx => ?_
    have := Joint.of_clash hx
    simp [joint, Joint.endsInName] at this
  have hstring : ∀ l : Lexeme, l.isString → ∃ t, l.written = '"' :: t := by
    intro l hl
    cases l with
    | atom a =>
      cases a with
      | string value closed => exact ⟨_, rfl⟩
      | _ => simp [isString] at hl
    | _ => simp [isString] at hl
  cases ls with
  | nil => exact absurd (List.suffix_refl _) (hc name).1
  | cons l ls =>
    rw [after_of_not_clash (hnone l)]
    rcases hq with hl | ⟨hw, hl⟩
    · obtain ⟨t, ht⟩ := hstring l hl
      simp [startsQuoted, ht, Syntax.isWhitespace]
    · cases l with
      | atom a =>
        cases a with
        | whitespace text =>
          cases ls with
          | nil => exact absurd (List.suffix_refl _) ((hc name).2 text)
          | cons l' ls =>
            obtain ⟨t, ht⟩ := hstring l' (hl l' rfl)
            have hclash : (joint (.atom (.whitespace text))).clash l'.joint = false := by
              refine Bool.eq_false_iff.mpr fun hx => ?_
              have := Joint.of_clash hx
              simp [joint, Atom.joint, Joint.endsInName] at this
            have hdrop : ∀ r, (text ++ '"' :: r).dropWhile Syntax.isWhitespace = '"' :: r :=
              fun r => dropWhile_stop h.1.2 (by rintro c ⟨⟩; decide)
            rw [after_of_not_clash hclash, ht]
            simp [startsQuoted, written, Atom.written, hdrop]
        | _ => simp [isWhitespace] at hw
      | _ => simp [isWhitespace] at hw

/-- Only whitespace starts with whitespace. -/
theorem not_isWhitespace_head {l : Lexeme} {d : Char} (hwf : l.WellFormed) (h : l.Head d)
    (hl : ∀ t, l ≠ .atom (.whitespace t)) : Syntax.isWhitespace d = false := by
  cases h.begins with
  | whitespace text heq => exact absurd heq (hl text)
  | number _ hd =>
    rcases hd with hd | rfl | rfl | rfl
    · exact not_isWhitespace_of_isNameChar (by simp [isNameChar, hd])
    all_goals decide
  | name _ hd =>
    rcases hd with hd | rfl | rfl
    · exact not_isWhitespace_of_isNameChar (isNameChar_of_isNameStart hd)
    all_goals decide
  | range _ hd => rcases hd with rfl | rfl <;> decide
  | literal t heq =>
    subst heq
    exact (head_literal hwf).1
  | bracket b _ hd =>
    subst hd
    cases b <;> decide
  | mark hd =>
    simp only [List.mem_cons, List.not_mem_nil, or_false] at hd
    rcases hd with rfl | rfl | rfl | rfl | rfl | rfl | rfl <;> decide

theorem stopsAt_literal {text cs : List Char} (h : ∀ c, text = [c] → LiteralStopsAt c cs) :
    (Atom.literal text).StopsAt cs := by
  cases text with
  | nil => trivial
  | cons c text =>
    cases text with
    | nil => exact h c rfl
    | cons d text => trivial

/-- The lexemes of a source each stop where the next one is written. -/
theorem stopsAll {ls : List Lexeme} {cs : List Char} (h : Sourced ls) (hm : misread ls = false)
    (hc : EndsClosed ls) (hlast : ∀ l ∈ ls.getLast?, l.StopsAt cs) (hb : Boundary cs) :
    StopsAll ls cs := by
  induction ls with
  | nil => trivial
  | cons l ls ih =>
    obtain ⟨hwf, hmeet, hquoted, hrest⟩ := h
    simp only [misread, Bool.or_eq_false_iff] at hm
    obtain ⟨⟨-, hjoin⟩, hmrest⟩ := hm
    cases ls with
    | nil => exact ⟨hlast l rfl, trivial⟩
    | cons l' ls =>
      have hs : StopsAll (l' :: ls) cs :=
        ih hrest hmrest hc.tail fun m hml => hlast m (by simpa using hml)
      refine ⟨?_, hs⟩
      have hmeets := hmeet l' rfl
      cases hclash : l.joint.clash l'.joint with
      | true =>
        rw [after_of_clash hclash]
        exact stopsAt_comment hclash _
      | false =>
        have hapart := Joint.apart hclash
        have hwf' := hrest.1
        have hs' := hs.1
        cases l with
        | atom a =>
          rw [after_of_not_clash hclash]
          cases a with
          | unicodeRange first last => exact after_of_not_clash hclash ▸ rangeStopsAt_after hrest hb
          | whitespace text =>
            intro c hcw
            obtain ⟨d, ds, heq, hd⟩ := exists_head hwf' (after l' ls cs)
            rw [heq] at hcw
            obtain rfl : d = c := by simpa using hcw
            exact not_isWhitespace_head hwf' hd fun t => hmeets.whitespace text t rfl
          | literal text =>
            refine stopsAt_literal fun c hlit => ?_
            subst hlit
            refine literalStopsAt_written hwf' hs' hmeets hapart ?_
            -- `<!` would open a CDO only before `--`, and `misread` has looked two tokens ahead
            rintro rfl rfl
            have hr : ls.head?.any startsWithHyphens = false := by simpa [misjoins] using hjoin
            exact after_bang hrest.2.2.2 hs.2 hr hb
          | ident name =>
            refine identStopsAt_written hwf' hs' hapart hjoin ?_
            rintro rfl hr
            exact after_plus hrest.2.2.2 hs.2 hr hb
          | number n => exact numberStopsAt_written hwf' hs' hmeets hapart
          | atKeyword name =>
            exact not_startsName_of_apart (l := .atom (.atKeyword name)) hwf' hs' hapart rfl
          | hash name isIdent =>
            exact not_startsName_of_apart (l := .atom (.hash name isIdent)) hwf' hs' hapart rfl
          | dimension n unit =>
            exact not_startsName_of_apart (l := .atom (.dimension n unit)) hwf' hs' hapart rfl
          | _ => trivial
        | openFunction name => exact fun hu => startsQuoted_after hrest (hquoted name rfl hu) hc
        | openBlock b => trivial
        | close b => trivial

/-- What is put between two lexemes is read as it is. -/
theorem scan_glue (l l' : Lexeme) (cs : List Char) :
    scan (text (glue l l') ++ cs) = (glue l l').map reread ++ scan cs := by
  unfold glue
  split
  · have hcomment : scan (['/', '*'] ++ [] ++ ['*', '/'] ++ cs) = _ := scan_comment (by simp) cs
    exact hcomment
  · rfl

/-- A list of lexemes that each stop where the next one is written reads back as itself, with the
empty comments that were put in. -/
theorem scan_text_glued {ls : List Lexeme} {cs : List Char} (h : Sourced ls)
    (hm : misread ls = false) (hs : StopsAll ls cs) :
    scan (text (glued ls) ++ cs) = (glued ls).map reread ++ scan cs := by
  induction ls with
  | nil => rfl
  | cons l ls ih =>
    simp only [misread, Bool.or_eq_false_iff] at hm
    rw [text_glued_cons, scan_written h.1 hm.1.1 hs.1]
    cases ls with
    | nil => rfl
    | cons l' ls =>
      rw [after, scan_glue, ih h.2.2.2 hm.2 hs.2]
      simp [glued]

end Lexeme

end CssExpand.Syntax
