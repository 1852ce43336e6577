import CssExpand.Proofs.Syntax.Rereading

/-!
# Respelled endings

A hack ends in an escape that the writer spells in its own way, and the text of a declaration keeps
the author's spelling: a final `\9`, or `\0` before a final slash. Another spelling of the last
character of a name changes nothing before it, since a text is told from another by what its first
few characters are, and all spellings of such a character look the same from outside: each starts
a name (`OpensName`). Texts that are equal up to a place where both do that are interchangeable for
whatever stops in front of them (`Agree.stopsAt`), so the text with the author's spelling is scanned
as the same lexemes (`scan_respelled`).
-/

set_option autoImplicit false

namespace CssExpand.Syntax

/-! ## 1. Texts that open a name -/

/-- A text that starts with an escape, or with a character that is not ASCII. -/
def OpensName (cs : List Char) : Prop :=
  (∃ d r, cs = '\\' :: d :: r ∧ d ≠ '\n') ∨ ∃ c r, cs = c :: r ∧ 0x7F < c.toNat

/-- Whether a character may come first in a text that opens a name. -/
def opensName (c : Char) : Bool := c == '\\' || 0x7F < c.toNat

/-- An ASCII character other than the backslash. -/
theorem ne_of_opensName {c : Char} (h : opensName c) {d : Char} (hd : opensName d = false) :
    c ≠ d := by
  rintro rfl
  rw [h] at hd
  cases hd

/-- What a name may open with is neither a digit nor whitespace. The backslash is the case that makes
this more than a fact about letters. -/
theorem plain_of_opensName {c : Char} (h : opensName c) :
    c.isDigit = false ∧ isHexDigit c = false ∧ isWhitespace c = false := by
  rcases (Bool.or_eq_true ..).mp h with h | h
  · obtain rfl : c = '\\' := by simpa using h
    decide
  · have hn : 0x7F < c.toNat := by simpa using h
    have hdigit : c.isDigit = false := by
      refine Bool.eq_false_iff.mpr fun hd => ?_
      have hm := mem_digits_of_isDigit hd
      simp only [List.mem_cons, List.not_mem_nil, or_false] at hm
      rcases hm with rfl | rfl | rfl | rfl | rfl | rfl | rfl | rfl | rfl | rfl <;>
        exact absurd hn (by decide)
    have hle : ∀ d : Char, d.toNat ≤ 0x7F → ¬c ≤ d := by
      intro d hd hcd
      have : c.toNat ≤ d.toNat := hcd
      omega
    refine ⟨hdigit, ?_, ?_⟩
    · simp [isHexDigit, hdigit, hle 'f' (by decide), hle 'F' (by decide)]
    · simp only [isWhitespace, Bool.or_eq_false_iff, beq_eq_false_iff_ne, ne_eq]
      refine ⟨⟨?_, ?_⟩, ?_⟩ <;> rintro rfl <;> exact absurd hn (by decide)

namespace OpensName

variable {cs : List Char}

theorem exists_head (h : OpensName cs) : ∃ c r, cs = c :: r ∧ opensName c := by
  rcases h with ⟨d, r, rfl, -⟩ | ⟨c, r, rfl, hc⟩
  · exact ⟨'\\', d :: r, rfl, rfl⟩
  · exact ⟨c, r, rfl, by simp [opensName, hc]⟩

theorem head?_ne (h : OpensName cs) {d : Char} (hd : opensName d = false) : cs.head? ≠ some d := by
  obtain ⟨c, r, rfl, hc⟩ := h.exists_head
  simpa using ne_of_opensName hc hd

theorem any_head? (h : OpensName cs) {p : Char → Bool} (hp : ∀ c, opensName c → p c = false) :
    cs.head?.any p = false := by
  obtain ⟨c, r, rfl, hc⟩ := h.exists_head
  simpa using hp c hc

theorem startsIdent (h : OpensName cs) :
    startsIdent cs ∧ startsIdent ('-' :: cs) ∧ startsName cs := by
  rcases h with ⟨d, r, rfl, hd⟩ | ⟨c, r, rfl, hc⟩
  · simp [Syntax.startsIdent, Syntax.startsName, startsEscape, hd]
  · have hs : isNameStart c := by simp [isNameStart, hc]
    have hne : c ≠ '-' := by
      rintro rfl
      exact absurd hc (by decide)
    simp [Syntax.startsIdent, Syntax.startsName, isNameChar, hs, hne]

end OpensName

/-! ## 2. Texts that agree -/

/-- Two texts that are equal up to a place where both open a name. Where a name starts they may differ:
one spells the first character as it is, the other one escapes it. -/
inductive Agree : List Char → List Char → Prop
  | opens {cs ds : List Char} (left : OpensName cs) (right : OpensName ds) : Agree cs ds
  | cons (c : Char) {cs ds : List Char} (rest : Agree cs ds) : Agree (c :: cs) (c :: ds)

theorem startsEscape_cons (c : Char) (cs : List Char) :
    startsEscape (c :: cs) = (c == '\\' && cs.head? != some '\n') := by
  by_cases hc : c = '\\'
  · subst hc
    simp [bne, BEq.beq]
  · unfold startsEscape
    split <;> simp_all

theorem startsIdent_cons (c : Char) (cs : List Char) :
    startsIdent (c :: cs) =
      if c = '-' then cs.head?.any (fun d => isNameStart d || d == '-') || startsEscape cs
      else isNameStart c || startsEscape (c :: cs) := by
  split
  · rename_i hc
    subst hc
    rfl
  · rename_i hc
    simp [startsIdent, hc]

namespace Agree

variable {cs ds : List Char}

theorem append (as : List Char) (h : Agree cs ds) : Agree (as ++ cs) (as ++ ds) := by
  induction as with
  | nil => exact h
  | cons c as ih => exact .cons c ih

theorem head? (h : Agree cs ds) {d : Char} (hd : opensName d = false) :
    cs.head? = some d ↔ ds.head? = some d := by
  cases h with
  | opens hl hr => simp [hl.head?_ne hd, hr.head?_ne hd]
  | cons c h => rfl

theorem any_head? (h : Agree cs ds) {p : Char → Bool} (hp : ∀ c, opensName c → p c = false) :
    cs.head?.any p = ds.head?.any p := by
  cases h with
  | opens hl hr => rw [hl.any_head? hp, hr.any_head? hp]
  | cons c h => rfl

theorem forall_head? (h : Agree cs ds) {p : Char → Bool} (hp : ∀ c, opensName c → p c = false)
    (hs : ∀ c ∈ cs.head?, p c = false) : ∀ c ∈ ds.head?, p c = false := by
  have hcs : cs.head?.any p = false := by
    rw [Option.any_eq_false]
    simpa using hs
  rw [h.any_head? hp, Option.any_eq_false] at hcs
  simpa using hcs

/-- Two texts that agree have the same prefixes of characters that open no name, since they agree up
to the first character that does. -/
theorem isPrefix (h : Agree cs ds) {ps : List Char} (hp : ∀ p ∈ ps, opensName p = false) :
    ps <+: cs ↔ ps <+: ds := by
  induction h generalizing ps with
  | opens hl hr =>
    cases ps with
    | nil => simp
    | cons p ps =>
      have hno : ∀ es, OpensName es → ¬p :: ps <+: es := by
        rintro es he ⟨r, rfl⟩
        exact he.head?_ne (hp p List.mem_cons_self) rfl
      exact iff_of_false (hno _ hl) (hno _ hr)
  | cons c h ih =>
    cases ps with
    | nil => simp
    | cons p ps => simp [List.cons_prefix_cons, ih fun q hq => hp q (List.mem_cons_of_mem p hq)]

theorem startsEscape (c : Char) (h : Agree cs ds) :
    startsEscape (c :: cs) = startsEscape (c :: ds) := by
  rw [startsEscape_cons, startsEscape_cons, Bool.eq_iff_iff]
  simp [bne_iff_ne, h.head? (d := '\n') (by decide)]

theorem startsName (h : Agree cs ds) : startsName cs = startsName ds := by
  cases h with
  | opens hl hr => rw [hl.startsIdent.2.2, hr.startsIdent.2.2]
  | cons c h => simp [Syntax.startsName, h.startsEscape c]

theorem startsIdent (h : Agree cs ds) : startsIdent cs = startsIdent ds := by
  cases h with
  | opens hl hr => rw [hl.startsIdent.1, hr.startsIdent.1]
  | cons c h =>
    by_cases hc : c = '-'
    · subst hc
      cases h with
      | opens hl hr => rw [hl.startsIdent.2.1, hr.startsIdent.2.1]
      | cons c h => simp [startsIdent_cons, h.startsEscape c]
    · simp [startsIdent_cons, hc, h.startsEscape c]

/-- The same by cases on how far the look goes before the texts part. -/
theorem startsFigure (h : Agree cs ds) : startsFigure cs = startsFigure ds := by
  have hdigit : ∀ c, opensName c → c.isDigit = false := fun c hc => (plain_of_opensName hc).1
  have hcons : ∀ c (es : List Char), Syntax.startsFigure (c :: es) =
      if c = '.' then es.head?.any Char.isDigit else c.isDigit := by
    intro c es
    unfold Syntax.startsFigure
    split
    · simp_all
    · rename_i hne heq
      obtain ⟨rfl, rfl⟩ := List.cons.inj heq
      split
      · rename_i hc
        subst hc
        cases es with
        | nil => decide
        | cons e r => exact (hne e r rfl rfl).elim
      · rfl
    · simp_all
  cases h with
  | opens hl hr =>
    obtain ⟨c, r, rfl, hc⟩ := hl.exists_head
    obtain ⟨d, r', rfl, hd⟩ := hr.exists_head
    simp [hcons, ne_of_opensName hc (d := '.') (by decide),
      ne_of_opensName hd (d := '.') (by decide), hdigit c hc, hdigit d hd]
  | cons c h => rw [hcons, hcons, h.any_head? hdigit]

/-- A range may start with a letter behind the sign, but the characters where the texts part are not
hexadecimal digits. -/
theorem startsRange (h : Agree cs ds) : startsRange cs = startsRange ds := by
  have hcons : ∀ (es : List Char), Syntax.startsRange es =
      (es.head? == some '+' && es.tail.head?.any fun c => isHexDigit c || c == '?') := by
    intro es
    unfold Syntax.startsRange
    split
    · simp
    · rename_i hne
      match es with
      | [] => rfl
      | [c] => simp
      | c :: d :: r =>
        have hc : c ≠ '+' := by
          rintro rfl
          exact hne d r rfl
        simp [hc]
  rw [hcons, hcons]
  cases h with
  | opens hl hr =>
    rw [beq_eq_false_iff_ne.mpr (hl.head?_ne (by decide)),
      beq_eq_false_iff_ne.mpr (hr.head?_ne (by decide))]
    rfl
  | cons c h =>
    rw [List.tail_cons, List.tail_cons, h.any_head?]
    · rfl
    · intro d hd
      simp [(plain_of_opensName hd).2.1, ne_of_opensName hd (d := '?') (by decide)]

/-- The look past whitespace ends where the texts part, and no name opens with a quote. -/
theorem startsQuoted (h : Agree cs ds) : startsQuoted cs = startsQuoted ds := by
  have hnone : ∀ es, OpensName es → Syntax.startsQuoted es = false := by
    intro es he
    obtain ⟨c, r, rfl, hc⟩ := he.exists_head
    have h1 := ne_of_opensName hc (d := '"') (by decide)
    have h2 := ne_of_opensName hc (d := '\'') (by decide)
    simp [Syntax.startsQuoted, (plain_of_opensName hc).2.2, beq_eq_false_iff_ne.mpr h1,
      beq_eq_false_iff_ne.mpr h2]
  induction h with
  | opens hl hr => rw [hnone _ hl, hnone _ hr]
  | cons c h ih =>
    unfold Syntax.startsQuoted at ih ⊢
    by_cases hc : isWhitespace c
    · simpa [hc] using ih
    · simp [hc]

/-- Where one text has no fraction in front, the other has none. -/
theorem takeFraction (h : Agree cs ds) :
    (takeFraction cs).1 = none → (takeFraction ds).1 = none := by
  have hcons : ∀ (es : List Char), (Syntax.takeFraction es).1 = none ↔
      (es.head? == some '.' && es.tail.head?.any Char.isDigit) = false := by
    intro es
    cases es with
    | nil => simp [Syntax.takeFraction]
    | cons c r =>
      by_cases hc : c = '.'
      · subst hc
        cases r with
        | nil => simp [Syntax.takeFraction]
        | cons d r => cases hd : d.isDigit <;> simp [Syntax.takeFraction, hd]
      · simp [Syntax.takeFraction, hc]
  intro hn
  rw [hcons] at hn ⊢
  cases h with
  | opens hl hr =>
    rw [beq_eq_false_iff_ne.mpr (hr.head?_ne (by decide))]
    rfl
  | cons c h =>
    rw [List.tail_cons] at hn ⊢
    rwa [← h.any_head? fun d hd => (plain_of_opensName hd).1]

/-- Nor an exponent: its letter is the first character of both, or they part before it and neither has
a digit behind. -/
theorem takeExponent (h : Agree cs ds) :
    (takeExponent cs).1 = none → (takeExponent ds).1 = none := by
  -- both sides are asked the same question: a letter, and a digit behind the sign
  have hnone : ∀ c (es : List Char), (Syntax.takeExponent (c :: es)).1 = none ↔
      ((c == 'e' || c == 'E') && (takeSign es).2.head?.any Char.isDigit) = false := by
    intro c es
    have hempty : ∀ fs : List Char,
        (!(fs.takeWhile Char.isDigit).isEmpty) = fs.head?.any Char.isDigit := by
      intro fs
      cases fs with
      | nil => rfl
      | cons d r => cases hd : d.isDigit <;> simp [hd]
    simp only [Syntax.takeExponent, hempty]
    split
    · rename_i hx
      simp [hx]
    · rename_i hx
      simpa using hx
  have hsign : ∀ es fs, Agree es fs →
      (takeSign es).2.head?.any Char.isDigit = (takeSign fs).2.head?.any Char.isDigit := by
    -- where the texts part, each opens a name, so neither goes on with a digit
    have hopens : ∀ es, OpensName es → (takeSign es).2.head?.any Char.isDigit = false := by
      intro es he
      obtain ⟨c, r, rfl, hc⟩ := he.exists_head
      have h1 := ne_of_opensName hc (d := '+') (by decide)
      have h2 := ne_of_opensName hc (d := '-') (by decide)
      simp [takeSign, h1, h2, (plain_of_opensName hc).1]
    intro es fs h
    cases h with
    | opens hl hr => rw [hopens _ hl, hopens _ hr]
    | cons c h =>
      have htail := h.any_head? (p := Char.isDigit) fun d hd => (plain_of_opensName hd).1
      by_cases h1 : c = '+'
      · subst h1
        exact htail
      · by_cases h2 : c = '-'
        · subst h2
          exact htail
        · simp [takeSign, h1, h2]
  intro hn
  cases h with
  | opens hl hr =>
    obtain ⟨c, r, rfl, hc⟩ := hr.exists_head
    rw [hnone]
    have h1 := ne_of_opensName hc (d := 'e') (by decide)
    have h2 := ne_of_opensName hc (d := 'E') (by decide)
    simp [h1, h2]
  | cons c h =>
    rw [hnone] at hn ⊢
    rwa [← hsign _ _ h]

/-! ## 3. What stops before a text that agrees -/

theorem numberStopsAt {n : Numeral} (h : Agree cs ds) (hs : n.StopsAt cs) : n.StopsAt ds :=
  ⟨h.forall_head? (fun _ hd => (plain_of_opensName hd).1) hs.digit,
    fun h1 h2 => h.takeFraction (hs.fraction h1 h2), fun h1 => h.takeExponent (hs.exponent h1)⟩

theorem literalStopsAt {c : Char} (h : Agree cs ds) (hs : LiteralStopsAt c cs) :
    LiteralStopsAt c ds where
  hash hc := h.startsName ▸ hs.hash hc
  at_sign hc := h.startsIdent ▸ hs.at_sign hc
  hyphen hc := (Agree.cons '-' h).startsIdent ▸ hs.hyphen hc
  sign hc := h.startsFigure ▸ hs.sign hc
  point hc := h.forall_head? (fun _ hd => (plain_of_opensName hd).1) (hs.point hc)
  slash hc := fun hd => hs.slash hc ((h.head? (by decide)).mpr hd)
  less hc := fun hp => hs.less hc ((h.isPrefix (by simp [opensName])).mpr hp)
  bar hc := fun hd => hs.bar hc ((h.head? (by decide)).mpr hd)
  equals hc := fun hd => hs.equals hc ((h.head? (by decide)).mpr hd)
  backslash hc := (h.head? (by decide)).mp (hs.backslash hc)

/-- A range of characters stops in front of both texts or of neither. -/
theorem rangeStopsAt (h : Agree cs ds) (hs : RangeStopsAt cs) : RangeStopsAt ds where
  digit := h.forall_head? (fun _ hd => (plain_of_opensName hd).2.1) hs.digit
  mark := fun hd => hs.mark ((h.head? (by decide)).mpr hd)
  last := by
    rintro c rest rfl
    cases h with
    | opens hl hr => exact absurd rfl (hr.head?_ne (d := '-') (by decide))
    | cons d h =>
      refine h.forall_head? (fun _ hd => (plain_of_opensName hd).2.1) (fun e he => ?_) c rfl
      rename_i es
      cases es with
      | nil => cases he
      | cons f r =>
        obtain rfl : f = e := by simpa using he
        exact hs.last f r rfl

/-- A lexeme that stops before a text stops before any text that agrees with it. -/
theorem stopsAt {l : Lexeme} (h : Agree cs ds) (hs : l.StopsAt cs) : l.StopsAt ds := by
  have hname : Syntax.startsName cs = false → Syntax.startsName ds = false :=
    fun hn => h.startsName ▸ hn
  cases l with
  | atom a =>
    cases a with
    | whitespace text => exact h.forall_head? (fun _ hd => (plain_of_opensName hd).2.2) hs
    | literal text =>
      refine Lexeme.stopsAt_literal fun c hc => ?_
      subst hc
      exact h.literalStopsAt hs
    | ident name =>
      exact ⟨hname hs.ends, fun hd => hs.bracket ((h.head? (by decide)).mpr hd),
        fun hn hd => hs.close hn ((h.head? (by decide)).mpr hd), fun hn => h.startsRange ▸ hs.range hn⟩
    | number n =>
      exact ⟨h.numberStopsAt hs.numeral, h.startsIdent ▸ hs.unit,
        fun hd => hs.percent ((h.head? (by decide)).mpr hd)⟩
    | unicodeRange first last => exact h.rangeStopsAt hs
    | atKeyword name => exact hname hs
    | hash name isIdent => exact hname hs
    | dimension n unit => exact hname hs
    | _ => trivial
  | openFunction name => exact fun hn => h.startsQuoted ▸ hs hn
  | openBlock b => trivial
  | close b => trivial

end Agree

/-! ## 4. Another spelling of the last character of a name -/

/-- The characters that are told apart at the end of a text: those of a hack, and a slash. -/
def IsHackEnd (c : Char) : Prop := c = '\t' ∨ c = replacement ∨ c = '/'

theorem opensName_nameCharWritten {c : Char} (h : IsHackEnd c) (cs : List Char) :
    OpensName (nameCharWritten c ++ cs) := by
  rcases h with rfl | rfl | rfl
  · exact .inl ⟨'\t', cs, rfl, by decide⟩
  · exact .inr ⟨replacement, cs, rfl, by decide⟩
  · exact .inl ⟨'/', cs, rfl, by decide⟩

/-- A written identifier up to its last character. -/
theorem identWritten_stem (name : List Char) {c : Char} (hc : IsHackEnd c) :
    ∃ stem, identWritten (name ++ [c]) = stem ++ nameCharWritten c ∧
      ∀ s, takeName (stem ++ s) = (name ++ (takeName s).1, (takeName s).2) := by
  have hstart : identStartWritten c = nameCharWritten c ∧ c ≠ '-' := by
    rcases hc with rfl | rfl | rfl <;> decide
  by_cases h : name = [] ∨ name = ['-']
  · rcases h with rfl | rfl
    · exact ⟨[], by simp [identWritten, hstart, nameWritten], fun s => rfl⟩
    · exact ⟨['-'], by simp [identWritten, hstart, nameWritten], fun s => takeName_char (by decide)⟩
  · refine ⟨identWritten name, ?_, fun s => takeName_identWritten name s⟩
    rw [not_or] at h
    rcases name with _ | ⟨d, _ | ⟨e, rest⟩⟩
    · exact absurd rfl h.1
    · have hd : d ≠ '-' := by simpa using h.2
      simp [identWritten, nameWritten, hd]
    · by_cases hd : d = '-'
      · subst hd
        by_cases he : e = '-'
        · subst he
          simp [identWritten, nameWritten]
        · simp [identWritten, nameWritten]
      · simp [identWritten, nameWritten, hd]

/-- The stem of a unit, which is all of its text but the last character. A unit that reads as an
exponent has its first letter written by its code, so it has another stem. -/
theorem unitWritten_stem (name : List Char) {c : Char} (hc : IsHackEnd c) :
    ∃ stem, unitWritten (name ++ [c]) = stem ++ nameCharWritten c ∧
      ∀ s r, takeName s = ([c], r) → takeName (stem ++ s) =
        (if readsAsExponent (name ++ [c]) then 'e' :: (name ++ [c]).tail else name ++ [c], r) := by
  by_cases h : readsAsExponent (name ++ [c])
  · cases name with
    | nil => rcases hc with rfl | rfl | rfl <;> exact absurd h (by decide)
    | cons d name =>
      refine ⟨['\\', '6', '5', ' '] ++ nameWritten name, ?_, fun s r hs => ?_⟩
      · rw [unitWritten, if_pos h]
        simp [nameWritten]
      · have h1 : takeEscape (['6', '5'] ++ ' ' :: (nameWritten name ++ s)) = _ :=
          takeEscape_code (List.all_eq_true.mp rfl) (by simp) (by simp)
        have h2 : charOfCode (hexValue ['6', '5']) = 'e' := by decide
        simp only [List.cons_append, List.nil_append] at h1 ⊢
        rw [takeName_escape (by simp), h1, takeName_nameWritten, h2, hs, if_pos (by simpa using h)]
        rfl
  · obtain ⟨stem, heq, hstem⟩ := identWritten_stem name hc
    refine ⟨stem, by simp [unitWritten, h, heq], fun s r hs => ?_⟩
    rw [hstem, hs]
    simp [h]

/-- A step at an identifier that ends in another spelling of its last character. -/
theorem scan_identSpelled {name stem s r : List Char} {c : Char} (hc : IsHackEnd c)
    (hstem : identWritten (name ++ [c]) = stem ++ nameCharWritten c) (hs : OpensName s)
    (htake : takeName (stem ++ s) = (name ++ [c], r)) (hb : r.head? ≠ some '(') :
    Lexeme.scan (stem ++ s) = .atom (.ident (name ++ [c])) :: Lexeme.scan r := by
  -- both spellings agree up to where either goes on with a name, and no test looks further
  have hagree : Agree (identWritten (name ++ [c]) ++ []) (stem ++ s) := by
    rw [hstem, List.append_assoc]
    exact (Agree.opens (opensName_nameCharWritten hc []) hs).append stem
  have hne : name ++ [c] ≠ [] := by simp
  have hi := hagree.startsIdent ▸ startsIdent_identWritten hne []
  obtain ⟨d, ds, heq, -⟩ := head_identWritten hne []
  have hlast : ∀ t : List Char, name ++ [c] = t → t.getLast? = some c := by
    rintro t rfl
    simp
  obtain ⟨hrange, hclose⟩ := identWritten_passesEarly hne heq
    (by rintro h; rcases hc with rfl | rfl | rfl <;> exact absurd (hlast _ h) (by decide))
    (by rintro (h | h) <;> rcases hc with rfl | rfl | rfl <;> exact absurd (hlast _ h) (by decide))
  rw [heq] at hagree
  generalize stem ++ s = text at hagree hi htake
  have hname : nameLexemes text = ([.atom (.ident (name ++ [c]))], r) := by
    have : ∀ q, r ≠ '(' :: q := by
      rintro q rfl
      exact hb rfl
    simp only [nameLexemes, htake]
  cases hagree with
  | opens hl hr =>
    obtain ⟨e, es, rfl, he⟩ := hr.exists_head
    have hplain : ∀ f, opensName f = false → e ≠ f := fun f hf => ne_of_opensName he hf
    refine scan_of_next ((next_name hi ?_ ?_).trans hname)
    · rintro (h | h)
      · exact absurd h (hplain 'u' (by decide))
      · exact absurd h (hplain 'U' (by decide))
    · exact fun h => absurd h (hplain '-' (by decide))
  | cons _ h =>
    refine scan_of_next ((next_name hi (fun hd => h.startsRange ▸ hrange hd) ?_).trans hname)
    intro hd htwo
    rename_i es
    have hp : ['-', '>'] <+: es := List.prefix_iff_eq_take.mpr htwo.symm
    exact hclose hd (List.prefix_iff_eq_take.mp ((h.isPrefix (by simp [opensName])).mpr hp)).symm

/-- The name that a lexeme ends in. -/
def Lexeme.name? : Lexeme → Option (List Char)
  | .atom (.ident name) | .atom (.atKeyword name) | .atom (.hash name _)
  | .atom (.dimension _ name) => some name
  | _ => none

/-- A lexeme that ends in a name is read as itself however the last character of the name is
spelled. -/
theorem exists_stem {l : Lexeme} {name : List Char} {c : Char} (hwf : l.WellFormed)
    (hm : l.isMisread = false) (hn : l.name? = some (name ++ [c])) (hc : IsHackEnd c) :
    ∃ stem, l.written = stem ++ nameCharWritten c ∧ ∀ s r, OpensName s → takeName s = ([c], r) →
      r.head? ≠ some '(' → Lexeme.scan (stem ++ s) = l.reread :: Lexeme.scan r := by
  have hne : name ++ [c] ≠ [] := by simp
  obtain ⟨stem, hstem, htake⟩ := identWritten_stem name hc
  -- Whatever is asked of the lexeme's text is answered alike with another spelling at its end.
  have hagree : ∀ {w st : List Char}, w = st ++ nameCharWritten c → ∀ s, OpensName s →
      Agree (w ++ []) (st ++ s) := by
    rintro w st rfl s hs
    rw [List.append_assoc]
    exact (Agree.opens (opensName_nameCharWritten hc []) hs).append st
  have hident : ∀ s, OpensName s → startsIdent (stem ++ s) := fun s hs =>
    (hagree hstem s hs).startsIdent ▸ startsIdent_identWritten hne []
  have htaken : ∀ s r, takeName s = ([c], r) → takeName (stem ++ s) = (name ++ [c], r) := by
    intro s r hs
    rw [htake, hs]
  cases l with
  | atom a =>
    cases a with
    | ident n =>
      obtain rfl : n = name ++ [c] := by simpa [Lexeme.name?] using hn
      exact ⟨stem, hstem, fun s r hs hr hb => scan_identSpelled hc hstem hs (htaken s r hr) hb⟩
    | atKeyword n =>
      obtain rfl : n = name ++ [c] := by simpa [Lexeme.name?] using hn
      refine ⟨'@' :: stem, by simp [Lexeme.written, Atom.written, hstem], fun s r hs hr _ => ?_⟩
      have hnext : next '@' (stem ++ s) = ([.atom (.atKeyword (name ++ [c]))], r) := by
        rw [next_symbolLexemes (by decide) (by decide) (by simp) (by decide) (by decide)]
        simp [symbolLexemes, hident s hs, htaken s r hr]
      exact scan_of_next hnext
    | hash n isIdent =>
      obtain rfl : n = name ++ [c] := by simpa [Lexeme.name?] using hn
      cases isIdent with
      | true =>
        refine ⟨'#' :: stem, by simp [Lexeme.written, Atom.written, hstem], fun s r hs hr _ => ?_⟩
        have hi := hident s hs
        have hnext : next '#' (stem ++ s) = ([.atom (.hash (name ++ [c]) true)], r) := by
          rw [next_symbolLexemes (by decide) (by decide) (by simp) (by decide) (by decide)]
          simp [symbolLexemes, hi, startsName_of_startsIdent hi, htaken s r hr]
        exact scan_of_next hnext
      | false =>
        have hplain : nameWritten (name ++ [c]) = nameWritten name ++ nameCharWritten c := by
          simp [nameWritten]
        refine ⟨'#' :: nameWritten name, by simp [Lexeme.written, Atom.written, hplain],
          fun s r hs hr _ => ?_⟩
        have hend : startsName [] = false := rfl
        obtain ⟨hi, hst⟩ := startsIdent_plainHash (hwf.2.2 rfl) hend
        rw [(hagree hplain s hs).startsIdent] at hi
        rw [(hagree hplain s hs).startsName] at hst
        have hnext : next '#' (nameWritten name ++ s) =
            ([.atom (.hash (name ++ [c]) false)], r) := by
          rw [next_symbolLexemes (by decide) (by decide) (by simp) (by decide) (by decide)]
          simp [symbolLexemes, hi, hst, takeName_nameWritten, hr]
        exact scan_of_next hnext
    | dimension n unit =>
      obtain rfl : unit = name ++ [c] := by simpa [Lexeme.name?] using hn
      obtain ⟨st, hst, hread⟩ := unitWritten_stem name hc
      refine ⟨n.chars ++ st, by simp [Lexeme.written, Atom.written, hst], fun s r hs hr _ => ?_⟩
      have hi := (hagree hst s hs).startsIdent ▸ startsIdent_unitWritten hne []
      rw [List.append_assoc]
      refine scan_numeral hwf.1 ((hagree hst s hs).numberStopsAt (stopsAt_unitWritten hne hm [])) ?_
      simp only [numberLexemes, hi, hread s r hr, if_true]
      rfl
    | _ => simp [Lexeme.name?] at hn
  | openFunction n => simp [Lexeme.name?] at hn
  | openBlock b => simp [Lexeme.name?] at hn
  | close b => simp [Lexeme.name?] at hn

/-- Lexemes of which the last one ends in a name are read as themselves however the last character
of that name is spelled. -/
theorem Lexeme.scan_respelled {front : List Lexeme} {l : Lexeme} {name cs : List Char} {c : Char}
    (h : Sourced (front ++ [l])) (hm : misread (front ++ [l]) = false)
    (hs : StopsAll (front ++ [l]) cs) (hn : l.name? = some (name ++ [c])) (hc : IsHackEnd c) :
    ∃ stem, text (glued (front ++ [l])) = stem ++ nameCharWritten c ∧
      ∀ s r, OpensName s → takeName s = ([c], r) → r.head? ≠ some '(' →
        scan (stem ++ s) = (glued (front ++ [l])).map reread ++ scan r := by
  induction front with
  | nil =>
    simp only [List.nil_append, misread, Bool.or_eq_false_iff] at hm
    obtain ⟨stem, hstem, hread⟩ := exists_stem h.1 hm.1.1 hn hc
    refine ⟨stem, by simpa [glued, text] using hstem, fun s r h1 h2 h3 => ?_⟩
    rw [hread s r h1 h2 h3]
    rfl
  | cons k front ih =>
    simp only [List.cons_append, misread, Bool.or_eq_false_iff] at h hm hs
    obtain ⟨stem, hstem, hread⟩ := ih h.2.2.2 hm.2 hs.2
    obtain ⟨k', rest, hrest⟩ : ∃ k' rest, front ++ [l] = k' :: rest := by
      cases front with
      | nil => exact ⟨l, [], rfl⟩
      | cons k' rest => exact ⟨k', rest ++ [l], rfl⟩
    rw [hrest] at h hs hstem hread
    rw [List.cons_append, hrest]
    refine ⟨k.written ++ (text (glue k k') ++ stem), ?_, fun s r h1 h2 h3 => ?_⟩
    · have := text_glued_cons k (k' :: rest) []
      rw [after, hstem] at this
      simpa using this
    · -- In front of the other spelling the lexeme stops where it stops in front of this one.
      have hagree : Agree (after k (k' :: rest) cs) (text (glue k k') ++ stem ++ s) := by
        rw [after, hstem]
        have := ((Agree.opens (opensName_nameCharWritten hc cs) h1).append stem).append
          (text (glue k k'))
        simpa using this
      rw [List.append_assoc, scan_written h.1 hm.1.1 (hagree.stopsAt hs.1), List.append_assoc,
        scan_glue, hread s r h1 h2 h3]
      simp [glued]

/-- The lexemes at the start of a list stop where the others are written. -/
theorem Lexeme.StopsAll.left {as bs : List Lexeme} {cs : List Char} (h : StopsAll (as ++ bs) cs)
    (hb : bs ≠ []) : StopsAll as (text (seam as bs) ++ (text (glued bs) ++ cs)) := by
  induction as with
  | nil => trivial
  | cons l as ih =>
    cases as with
    | nil =>
      cases bs with
      | nil => exact absurd rfl hb
      | cons k bs => exact ⟨h.1, trivial⟩
    | cons l' as =>
      have hseam : seam (l :: l' :: as) bs = seam (l' :: as) bs := by simp [seam]
      rw [hseam]
      refine ⟨?_, ih h.2⟩
      have hafter : after l (l' :: as ++ bs) cs =
          after l (l' :: as) (text (seam (l' :: as) bs) ++ (text (glued bs) ++ cs)) := by
        rw [List.cons_append, after, ← List.cons_append, glued_append, after]
        simp [text_append]
      exact hafter ▸ h.1

theorem Lexeme.StopsAll.append {as bs : List Lexeme} {cs : List Char}
    (h : StopsAll (as ++ bs) cs) : StopsAll bs cs := by
  induction as with
  | nil => exact h
  | cons l as ih => exact ih h.2

/-! ## 5. What a text ends in -/

/-- A character of a name is the last one of its text, unless it is written by a code, which ends in a
blank. -/
theorem getLast?_nameCharWritten {c d : Char} (hd : d ≠ ' ')
    (h : (nameCharWritten c).getLast? = some d) : c = d ∧ d ≠ '\n' := by
  unfold nameCharWritten at h
  split at h
  · rename_i hc
    obtain rfl : c = d := by simpa using h
    refine ⟨rfl, ?_⟩
    rintro rfl
    exact absurd hc (by decide)
  · cases hb : breakEscape c with
    | some e =>
      obtain ⟨x, -, -, rfl⟩ := eq_backslash_of_breakEscape hb
      rw [hb] at h
      simp only [Option.getD_some, List.getLast?_cons_cons, List.getLast?_singleton,
        Option.some.injEq] at h
      exact absurd h.symm hd
    | none =>
      rw [hb] at h
      obtain rfl : c = d := by simpa using h
      exact ⟨rfl, (ne_break_of_breakEscape hb).1⟩

/-- The same for the first character, which has one more code: that of a digit. -/
theorem getLast?_identStartWritten {c d : Char} (hd : d ≠ ' ')
    (h : (identStartWritten c).getLast? = some d) : c = d ∧ d ≠ '\n' := by
  by_cases hc : isNameStart c ∨ c.isDigit ∨ c = '-'
  · unfold identStartWritten at h
    split at h
    · rename_i hs
      obtain rfl : c = d := by simpa using h
      refine ⟨rfl, ?_⟩
      rintro rfl
      exact absurd hs (by decide)
    · split at h
      · rw [← List.cons_append, List.getLast?_append] at h
        simp only [List.getLast?_singleton, Option.some_or, Option.some.injEq] at h
        exact absurd h.symm hd
      · obtain rfl : c = '-' := by simp_all
        obtain rfl : '-' = d := by simpa [breakEscape] using h
        exact ⟨rfl, by decide⟩
  · have heq : identStartWritten c = nameCharWritten c := by
      simp only [not_or, Bool.not_eq_true] at hc
      simp [identStartWritten, nameCharWritten, isNameChar, hc]
    rw [heq] at h
    exact getLast?_nameCharWritten hd h

theorem getLast?_nameWritten {name : List Char} {d : Char} (hd : d ≠ ' ')
    (h : (nameWritten name).getLast? = some d) : name.getLast? = some d ∧ d ≠ '\n' := by
  rcases List.eq_nil_or_concat name with rfl | ⟨init, c, rfl⟩
  · simp [nameWritten] at h
  · obtain ⟨e, es, heq, -⟩ := head_nameCharWritten c
    have hlast : (nameWritten (init ++ [c])).getLast? = (nameCharWritten c).getLast? := by
      simp [nameWritten, List.getLast?_append, heq, List.getLast?_cons]
    rw [List.concat_eq_append] at h ⊢
    rw [hlast] at h
    obtain ⟨rfl, hn⟩ := getLast?_nameCharWritten hd h
    exact ⟨by simp, hn⟩

/-- The plain part of a written name, with a start before it. The start is the last thing written only
if the plain part is empty. -/
theorem getLast?_identStartWritten_append {c d : Char} {rest : List Char} (hd : d ≠ ' ')
    (hl : (identStartWritten c ++ nameWritten rest).getLast? = some d) :
    (c :: rest).getLast? = some d ∧ d ≠ '\n' := by
  rw [List.getLast?_append] at hl
  cases hr : (nameWritten rest).getLast? with
  | some e =>
    rw [hr, Option.some_or, Option.some.injEq] at hl
    subst hl
    obtain ⟨h1, h2⟩ := getLast?_nameWritten hd hr
    exact ⟨by simp [List.getLast?_cons, h1], h2⟩
  | none =>
    rw [hr, Option.none_or] at hl
    obtain ⟨rfl, h2⟩ := getLast?_identStartWritten hd hl
    cases rest with
    | nil => exact ⟨rfl, h2⟩
    | cons e r =>
      obtain ⟨f, fs, hf, -⟩ := head_nameCharWritten e
      simp [nameWritten, hf] at hr

theorem identStartWritten_ne_nil (c : Char) : identStartWritten c ≠ [] := by
  rcases head_identStartWritten c with ⟨-, hc⟩ | ⟨f, hf⟩
  · simp [hc]
  · simp [hf]

theorem getLast?_cons_of_ne_nil {c : Char} {r : List Char} (hr : r ≠ []) :
    (c :: r).getLast? = r.getLast? := by
  cases r with
  | nil => exact absurd rfl hr
  | cons e r => rfl

/-- The last character of a written identifier is the name's own, unless an escape with a blank behind
it comes last. A line break is always written in such an escape. -/
theorem getLast?_identWritten {name : List Char} {d : Char} (hd : d ≠ ' ')
    (h : (identWritten name).getLast? = some d) : name.getLast? = some d ∧ d ≠ '\n' := by
  unfold identWritten at h
  split at h
  · simp only [List.getLast?_cons_cons, List.getLast?_singleton, Option.some.injEq] at h
    subst h
    exact ⟨rfl, by decide⟩
  · rename_i rest
    cases rest with
    | nil =>
      obtain rfl : '-' = d := by simpa [nameWritten] using h
      exact ⟨rfl, by decide⟩
    | cons e r =>
      obtain ⟨f, fs, hf, -⟩ := head_nameCharWritten e
      have hne : nameWritten (e :: r) ≠ [] := by simp [nameWritten, hf]
      rw [getLast?_cons_of_ne_nil (by simp), getLast?_cons_of_ne_nil hne] at h
      obtain ⟨hlast, hn⟩ : (e :: r).getLast? = some d ∧ d ≠ '\n' := getLast?_nameWritten hd h
      exact ⟨by simpa using hlast, hn⟩
  · rename_i c rest _
    have hne : identStartWritten c ++ nameWritten rest ≠ [] := by simp [identStartWritten_ne_nil c]
    rw [getLast?_cons_of_ne_nil hne] at h
    obtain ⟨hlast, hn⟩ := getLast?_identStartWritten_append hd h
    exact ⟨by simpa using hlast, hn⟩
  · exact getLast?_identStartWritten_append hd h
  · simp at h

/-- And for units. One that is written by a code alone ends in a blank, so it is no case here. -/
theorem getLast?_unitWritten {unit : List Char} {d : Char} (hd : d ≠ ' ')
    (h : (unitWritten unit).getLast? = some d) : unit.getLast? = some d ∧ d ≠ '\n' := by
  unfold unitWritten at h
  split at h
  · cases hr : (nameWritten unit.tail).getLast? with
    | some e =>
      rw [List.getLast?_append, hr, Option.some_or, Option.some.injEq] at h
      subst h
      obtain ⟨h1, h2⟩ := getLast?_nameWritten hd hr
      cases unit with
      | nil => simp at h1
      | cons u unit =>
        rw [List.tail_cons] at h1
        exact ⟨by rw [List.getLast?_cons, h1]; rfl, h2⟩
    | none =>
      rw [List.getLast?_append, hr, Option.none_or] at h
      exact absurd (Option.some.inj h).symm hd
  · exact getLast?_identWritten hd h

namespace Lexeme

variable {l : Lexeme} {d : Char}

/-- A lexeme with a name ends in it, so the last character that is written is the last one of the name,
if that is not written with a blank behind it. -/
theorem exists_front {name : List Char} (hwf : l.WellFormed) (hn : l.name? = some name) :
    ∃ front w, l.written = front ++ w ∧
      (∀ c ∈ front, c.isDigit ∨ c ∈ ['@', '#', '+', '-', '.', 'e', 'E']) ∧
      ∀ e, e ≠ ' ' → w.getLast? = some e → name.getLast? = some e ∧ e ≠ '\n' := by
  cases l with
  | atom a =>
    cases a with
    | ident n =>
      obtain rfl := Option.some.inj hn
      exact ⟨[], _, rfl, List.forall_mem_nil _, fun _ => getLast?_identWritten⟩
    | atKeyword n =>
      obtain rfl := Option.some.inj hn
      exact ⟨['@'], _, rfl, by simp, fun _ => getLast?_identWritten⟩
    | hash n isIdent =>
      obtain rfl := Option.some.inj hn
      refine ⟨['#'], _, rfl, by simp, ?_⟩
      cases isIdent with
      | true => exact fun _ => getLast?_identWritten
      | false => exact fun _ => getLast?_nameWritten
    | dimension n unit =>
      obtain rfl := Option.some.inj hn
      refine ⟨n.chars, _, rfl, fun c hc => ?_, fun _ => getLast?_unitWritten⟩
      exact (Numeral.mem_chars hwf.1 hc).imp_right fun hm => List.mem_append_right ['@', '#'] hm
    | _ => cases hn
  | _ => cases hn

theorem mem_rangeWritten {first last : Nat} (h : d ∈ rangeWritten first last) :
    isHexDigit d ∨ d ∈ ['U', '+', '-'] := by
  have hhex : ∀ {n}, d ∈ hexDigits n → isHexDigit d := fun hm => (hexDigits_spec _).1 d hm
  simp only [rangeWritten, List.mem_append] at h
  rcases h with (hm | hm) | hm
  · exact .inr (List.mem_append_left ['-'] hm)
  · exact .inl (hhex hm)
  · split at hm
    · cases hm
    · rcases List.mem_cons.mp hm with rfl | hm
      · exact .inr (by decide)
      · exact .inl (hhex hm)

/-- The last character of any other lexeme is its own closing one, or a character of a number. -/
theorem getLast?_of_name?_eq_none (hwf : l.WellFormed) (hn : l.name? = none)
    (h : l.written.getLast? = some d) :
    (∃ text, l = .atom (.whitespace text) ∨ l = .atom (.literal text)) ∨
      (d = '/' ∧ ∃ text, l = .atom (.comment text)) ∨ isHexDigit d ∨
      d ∈ ['"', '(', ')', '[', ']', '\x7b', '\x7d', '%', 'U', '+', '-', '.'] := by
  have hend : ∀ {x : List Char} {e : Char}, (x ++ [e]).getLast? = some d → e = d := by simp
  -- That a numeral ends in a digit is not needed: no sign and no point is a candidate either.
  have hnumeral : ∀ {n : Numeral}, n.WellFormed → n.chars.getLast? = some d →
      isHexDigit d ∨ d ∈ ['+', '-', '.'] := by
    intro n hn hlast
    rcases Numeral.mem_chars hn (List.mem_of_getLast? hlast) with hd | hm
    · exact .inl (by simp [isHexDigit, hd])
    · simp only [List.mem_cons, List.not_mem_nil, or_false] at hm
      rcases hm with rfl | rfl | rfl | rfl | rfl <;> decide
  cases l with
  | atom a =>
    cases a with
    | whitespace text => exact .inl ⟨text, .inl rfl⟩
    | literal text => exact .inl ⟨text, .inr rfl⟩
    | comment text =>
      obtain rfl := hend (x := ['/', '*'] ++ text ++ ['*']) (by simpa [written, Atom.written] using h)
      exact .inr (.inl ⟨rfl, text, rfl⟩)
    | string value closed =>
      obtain ⟨rfl, -⟩ := hwf
      obtain rfl := hend h
      exact .inr (.inr (.inr (by decide)))
    | url value closed =>
      obtain ⟨rfl, -⟩ := hwf
      obtain rfl := hend h
      exact .inr (.inr (.inr (by decide)))
    | unicodeRange first last =>
      refine .inr (.inr ((mem_rangeWritten (List.mem_of_getLast? h)).imp_right fun hm => ?_))
      simp only [List.mem_cons, List.not_mem_nil, or_false] at hm
      rcases hm with rfl | rfl | rfl <;> decide
    | number n =>
      refine .inr (.inr ((hnumeral hwf h).imp_right fun hm => ?_))
      simp only [List.mem_cons, List.not_mem_nil, or_false] at hm
      rcases hm with rfl | rfl | rfl <;> decide
    | percentage n =>
      obtain rfl := hend h
      exact .inr (.inr (.inr (by decide)))
    | fault kind => exact hwf.elim
    | _ => cases hn
  | openFunction name =>
    obtain rfl := hend h
    exact .inr (.inr (.inr (by decide)))
  | openBlock b =>
    obtain rfl := hend (x := []) h
    cases b <;> exact .inr (.inr (.inr (by decide)))
  | close b =>
    obtain rfl := hend (x := []) h
    cases b <;> exact .inr (.inr (.inr (by decide)))

/-- A lexeme other than whitespace that is written with one of these characters at its end is a
slash, a comment, or else one that ends in a name with that character. -/
theorem name?_of_getLast? (hwf : l.WellFormed) (hw : l.isWhitespace = false)
    (hd : d ∈ ['\t', '\n', replacement, '/']) (h : l.written.getLast? = some d) :
    (d = '/' ∧ (l = .atom (.literal ['/']) ∨ ∃ text, l = .atom (.comment text))) ∨
      ∃ name, l.name? = some (name ++ [d]) ∧ d ≠ '\n' := by
  have hfour := hd
  simp only [List.mem_cons, List.not_mem_nil, or_false] at hfour
  cases hn : l.name? with
  | some name =>
    obtain ⟨front, w, hwritten, hfront, hlast⟩ := exists_front hwf hn
    rw [hwritten, List.getLast?_append] at h
    cases hwlast : w.getLast? with
    | some e =>
      rw [hwlast, Option.some_or, Option.some.injEq] at h
      subst h
      obtain ⟨hname, hbreak⟩ := hlast e (by rintro rfl; exact absurd hd (by decide)) hwlast
      obtain ⟨init, rfl⟩ := List.getLast?_eq_some_iff.mp hname
      exact .inr ⟨init, rfl, hbreak⟩
    | none =>
      rw [hwlast, Option.none_or] at h
      have hplain := hfront d (List.mem_of_getLast? h)
      rcases hfour with rfl | rfl | rfl | rfl <;> exact absurd hplain (by decide)
  | none =>
    rcases getLast?_of_name?_eq_none hwf hn h with ⟨text, rfl | rfl⟩ | ⟨rfl, text, rfl⟩ | hend
    · simp [isWhitespace] at hw
    · -- of the longer literals none ends so, and of the shorter ones only the slash
      rcases hwf with ht | ⟨c, rfl, hc, -⟩
      · have hlong : ∀ text ∈ longLiterals, '\t' ∉ text ∧ '\n' ∉ text ∧ replacement ∉ text ∧
            '/' ∉ text := by decide
        obtain ⟨htab, hbreak, hreplacement, hslash⟩ := hlong text ht
        have hmem : d ∈ text := List.mem_of_getLast? h
        rcases hfour with rfl | rfl | rfl | rfl <;> contradiction
      · obtain rfl : c = d := by simpa [written, Atom.written] using h
        rcases hfour with rfl | rfl | rfl | rfl
        · exact absurd hc (by decide)
        · exact absurd hc (by decide)
        · exact absurd hc (by decide)
        · exact .inl ⟨rfl, .inl rfl⟩
    · exact .inl ⟨rfl, .inr ⟨text, rfl⟩⟩
    · rcases hfour with rfl | rfl | rfl | rfl <;> exact absurd hend (by decide)

end Lexeme

end CssExpand.Syntax
