import CssExpand.Syntax.Name
import Mathlib

/-!
# Reading written names

A name is stored without its escapes and written with escapes of its own choice, so the text that is
written is in general not the text that was read. What holds is that reading undoes writing
(`takeName_nameWritten`, `takeName_identWritten`): whatever follows, the reader is left with the
rest, and goes on with the rest exactly as far as the rest is a name itself. Everything that later
layers say about identifiers, functions, hashes, at-keywords and units rests on these two.
-/

set_option autoImplicit false

namespace CssExpand.Syntax

/-! ## 1. Unified texts -/

/-- A text that `unifyBreaks` has nothing to do on. -/
def Unified (cs : List Char) : Prop := ∀ c ∈ cs, c ≠ '\x00' ∧ c ≠ '\r' ∧ c ≠ '\x0C'

instance (cs : List Char) : Decidable (Unified cs) := List.decidableBAll _ cs

@[simp] theorem unified_nil : Unified [] := by
  intro c h
  simp at h

@[simp] theorem unified_cons {c : Char} {cs : List Char} :
    Unified (c :: cs) ↔ (c ≠ '\x00' ∧ c ≠ '\r' ∧ c ≠ '\x0C') ∧ Unified cs := by
  simp [Unified]

@[simp] theorem unified_append {as bs : List Char} :
    Unified (as ++ bs) ↔ Unified as ∧ Unified bs := by
  simp only [Unified, List.mem_append]
  constructor
  · intro h
    exact ⟨fun c hc => h c (.inl hc), fun c hc => h c (.inr hc)⟩
  · rintro ⟨ha, hb⟩ c (hc | hc)
    · exact ha c hc
    · exact hb c hc

theorem Unified.mono {as bs : List Char} (h : Unified bs) (hs : as ⊆ bs) : Unified as :=
  fun c hc => h c (hs hc)

/-- A unified text is left as it is. -/
theorem unifyBreaks_eq {cs : List Char} (h : Unified cs) : unifyBreaks cs = cs := by
  fun_induction unifyBreaks cs with
  | case1 => rfl
  | case2 rest ih => exact absurd rfl (unified_cons.mp h).1.2.1
  | case3 c rest _ ih =>
    obtain ⟨⟨h0, h1, h2⟩, hrest⟩ := unified_cons.mp h
    rw [ih hrest]
    simp [h0, h1, h2]

theorem unified_unifyBreaks (cs : List Char) : Unified (unifyBreaks cs) := by
  fun_induction unifyBreaks cs with
  | case1 => exact unified_nil
  | case2 rest ih => exact unified_cons.mpr ⟨by decide, ih⟩
  | case3 c rest _ ih =>
    refine unified_cons.mpr ⟨?_, ih⟩
    split
    · decide
    · split
      · decide
      · rename_i h0 h1
        simp only [Bool.or_eq_true, decide_eq_true_eq, not_or] at h1
        exact ⟨h0, h1.1, h1.2⟩

/-! ## 2. Kinds of characters -/

theorem isNameChar_of_isHexDigit {c : Char} (h : isHexDigit c) : isNameChar c := by
  simp only [isHexDigit, Bool.or_eq_true, Bool.and_eq_true, decide_eq_true_eq] at h
  simp only [isNameChar, isNameStart, Char.isAlpha, Char.isUpper, Char.isLower, Bool.or_eq_true,
    Bool.and_eq_true, decide_eq_true_eq]
  rcases h with (h | ⟨h1, h2⟩) | ⟨h1, h2⟩
  · exact .inl (.inr h)
  · exact .inl (.inl (.inl (.inl (.inr ⟨h1, Nat.le_trans h2 (by decide)⟩))))
  · exact .inl (.inl (.inl (.inl (.inl ⟨h1, Nat.le_trans h2 (by decide)⟩))))

theorem isNameChar_of_isNameStart {c : Char} (h : isNameStart c) : isNameChar c := by
  simp [isNameChar, h]

theorem not_isNameStart_digit {c : Char} (h : c.isDigit) : isNameStart c = false := by
  simp only [Char.isDigit, Bool.and_eq_true, decide_eq_true_eq] at h
  have h9 : c.toNat ≤ 57 := h.2
  have h0 : 48 ≤ c.toNat := h.1
  simp only [isNameStart, Char.isAlpha, Char.isUpper, Char.isLower, Bool.or_eq_false_iff,
    Bool.and_eq_false_imp, decide_eq_true_eq, decide_eq_false_iff_not, beq_eq_false_iff_ne, ne_eq]
  refine ⟨⟨⟨fun h => ?_, fun h => ?_⟩, ?_⟩, by omega⟩
  · have : 65 ≤ c.toNat := h.1
    omega
  · have : 97 ≤ c.toNat := h
    omega
  · rintro rfl
    simp at h9

/-- The ten digits. -/
theorem mem_digits_of_isDigit {c : Char} (h : c.isDigit) :
    c ∈ ['0', '1', '2', '3', '4', '5', '6', '7', '8', '9'] := by
  simp only [Char.isDigit, Bool.and_eq_true, decide_eq_true_eq] at h
  have h0 : 48 ≤ c.toNat := h.1
  have h9 : c.toNat ≤ 57 := h.2
  have hc : c = Char.ofNat c.toNat := (Char.ofNat_toNat c).symm
  have : ∀ n, 48 ≤ n → n ≤ 57 →
      Char.ofNat n ∈ ['0', '1', '2', '3', '4', '5', '6', '7', '8', '9'] := by
    intro n h1 h2
    have : n = 48 ∨ n = 49 ∨ n = 50 ∨ n = 51 ∨ n = 52 ∨ n = 53 ∨ n = 54 ∨ n = 55 ∨ n = 56 ∨
      n = 57 := by omega
    rcases this with rfl | rfl | rfl | rfl | rfl | rfl | rfl | rfl | rfl | rfl <;> decide
  rw [hc]
  exact this _ h0 h9

/-- The code of a digit ends in the digit. -/
theorem hexDigits_of_isDigit {c : Char} (h : c.isDigit) : hexDigits c.toNat = ['3', c] := by
  have hm := mem_digits_of_isDigit h
  simp only [List.mem_cons, List.not_mem_nil, or_false] at hm
  rcases hm with rfl | rfl | rfl | rfl | rfl | rfl | rfl | rfl | rfl | rfl <;> rfl

/-- The escape of a line break has one digit and ends in a blank, which keeps it apart from digits
that the name goes on with. -/
theorem eq_backslash_of_breakEscape {c : Char} {e : List Char} (h : breakEscape c = some e) :
    ∃ d, isHexDigit d ∧ charOfCode (hexValue [d]) = c ∧ e = ['\\', d, ' '] := by
  unfold breakEscape at h
  split at h
  · rename_i hc
    subst hc
    exact ⟨'A', by decide, by decide, by simpa using h.symm⟩
  · split at h
    · rename_i hc
      subst hc
      exact ⟨'D', by decide, by decide, by simpa using h.symm⟩
    · split at h
      · rename_i hc
        subst hc
        exact ⟨'C', by decide, by decide, by simpa using h.symm⟩
      · simp at h

theorem ne_break_of_breakEscape {c : Char} (h : breakEscape c = none) :
    c ≠ '\n' ∧ c ≠ '\r' ∧ c ≠ '\x0C' := by
  unfold breakEscape at h
  refine ⟨?_, ?_, ?_⟩ <;> rintro rfl <;> simp at h

/-! ## 3. Escapes -/

@[simp] theorem startsEscape_backslash (cs : List Char) :
    startsEscape ('\\' :: cs) = (cs.head? != some '\n') := by
  cases cs with
  | nil => rfl
  | cons c rest =>
    by_cases hc : c = '\n'
    · subst hc
      rfl
    · simp [startsEscape, hc]

/-- A character that is no hexadecimal digit is escaped by the backslash alone. -/
theorem takeEscape_plain {c : Char} {cs : List Char} (h : isHexDigit c = false) :
    takeEscape (c :: cs) = (c, cs) := by
  simp [takeEscape, h]

/-- A code is read to its last digit, and a blank after it too. -/
theorem takeEscape_digits {ds cs : List Char} (hd : ∀ d ∈ ds, isHexDigit d) (hne : ds ≠ [])
    (hlen : ds.length < 6) (hs : ∀ c ∈ cs.head?, isHexDigit c = false) :
    takeEscape (ds ++ cs) = (charOfCode (hexValue ds), dropOneWhitespace cs) := by
  have htake : ((ds ++ cs).take 6).takeWhile isHexDigit = ds := by
    obtain ⟨k, hk⟩ : ∃ k, 6 - ds.length = k + 1 := ⟨5 - ds.length, by omega⟩
    rw [List.take_append, List.take_of_length_le (by omega), hk,
      List.takeWhile_append_of_pos hd]
    cases cs with
    | nil => simp
    | cons c rest => simp [hs c rfl]
  have hempty : ds.isEmpty = false := by simpa using hne
  simp [takeEscape, htake, hempty]

theorem takeEscape_code {ds cs : List Char} (hd : ∀ d ∈ ds, isHexDigit d) (hne : ds ≠ [])
    (hlen : ds.length < 6) : takeEscape (ds ++ ' ' :: cs) = (charOfCode (hexValue ds), cs) := by
  have hblank : ∀ c ∈ (' ' :: cs).head?, isHexDigit c = false := by
    rintro c ⟨⟩
    decide
  rw [takeEscape_digits hd hne hlen hblank]
  rfl

theorem takeEscape_break {c : Char} {e : List Char} (h : breakEscape c = some e)
    (cs : List Char) :
    ∃ t, e = '\\' :: t ∧ takeEscape (t ++ cs) = (c, cs) := by
  obtain ⟨d, hd, hc, rfl⟩ := eq_backslash_of_breakEscape h
  refine ⟨[d, ' '], rfl, ?_⟩
  have : takeEscape ([d] ++ ' ' :: cs) = _ := takeEscape_code (by simpa using hd) (by simp) (by simp)
  rw [hc] at this
  simpa using this

/-- The code of a digit. -/
theorem takeEscape_digit {c : Char} {cs : List Char} (h : c.isDigit) :
    takeEscape (hexDigits c.toNat ++ ' ' :: cs) = (c, cs) := by
  have hd : (hexDigits c.toNat).all isHexDigit ∧ hexDigits c.toNat ≠ [] ∧
      (hexDigits c.toNat).length < 6 ∧ charOfCode (hexValue (hexDigits c.toNat)) = c := by
    have hm := mem_digits_of_isDigit h
    simp only [List.mem_cons, List.not_mem_nil, or_false] at hm
    rw [hexDigits_of_isDigit h]
    rcases hm with rfl | rfl | rfl | rfl | rfl | rfl | rfl | rfl | rfl | rfl <;> decide
  obtain ⟨h1, h2, h3, h4⟩ := hd
  rw [takeEscape_code (List.all_eq_true.mp h1) h2 h3, h4]

/-! ## 4. Names -/

theorem takeName_nil : takeName [] = ([], []) := by rw [takeName]

theorem takeName_escape {cs : List Char} (h : cs.head? ≠ some '\n') :
    takeName ('\\' :: cs) =
      ((takeEscape cs).1 :: (takeName (takeEscape cs).2).1, (takeName (takeEscape cs).2).2) := by
  rw [takeName]
  simp [h]

theorem takeName_char {c : Char} {cs : List Char} (h : isNameChar c) :
    takeName (c :: cs) = (c :: (takeName cs).1, (takeName cs).2) := by
  have hc : c ≠ '\\' := by
    rintro rfl
    exact absurd h (by decide)
  rw [takeName]
  simp [hc, h]

/-- A text that does not start with a name has the empty one at its start. -/
theorem takeName_of_not_startsName {cs : List Char} (h : startsName cs = false) :
    takeName cs = ([], cs) := by
  cases cs with
  | nil => exact takeName_nil
  | cons c rest =>
    simp only [startsName, List.head?_cons, Option.any_some, Bool.or_eq_false_iff] at h
    rw [takeName]
    by_cases hc : c = '\\'
    · subst hc
      have hn : rest.head? = some '\n' := by
        cases rest with
        | nil => simp [startsEscape] at h
        | cons d r =>
          by_cases hd : d = '\n'
          · simp [hd]
          · simp [startsEscape, hd] at h
      simp [hn]
    · simp [hc, h.1]

/-- Reading one written character of a name. -/
theorem takeName_nameCharWritten (c : Char) (cs : List Char) :
    takeName (nameCharWritten c ++ cs) = (c :: (takeName cs).1, (takeName cs).2) := by
  unfold nameCharWritten
  split
  · rename_i h
    exact takeName_char h
  · rename_i h
    cases hb : breakEscape c with
    | some e =>
      obtain ⟨t, rfl, ht⟩ := takeEscape_break hb cs
      have hn : (t ++ cs).head? ≠ some '\n' := by
        obtain ⟨d, hd, -, he⟩ := eq_backslash_of_breakEscape hb
        simp only [List.cons.injEq, true_and] at he
        subst he
        simp only [List.cons_append, List.head?_cons, ne_eq, Option.some.injEq]
        rintro rfl
        exact absurd hd (by decide)
      simp only [Option.getD_some, List.cons_append]
      rw [takeName_escape hn, ht]
    | none =>
      have hc : isHexDigit c = false :=
        Bool.eq_false_iff.mpr fun hx => h (isNameChar_of_isHexDigit hx)
      have hn : (c :: cs).head? ≠ some '\n' := by simpa using (ne_break_of_breakEscape hb).1
      simp only [Option.getD_none, List.cons_append, List.nil_append]
      rw [takeName_escape hn, takeEscape_plain hc]

/-- Reading a written name: the name, and what the text after it adds to it. -/
theorem takeName_nameWritten (name cs : List Char) :
    takeName (nameWritten name ++ cs) = (name ++ (takeName cs).1, (takeName cs).2) := by
  induction name with
  | nil => simp [nameWritten]
  | cons c name ih =>
    have : nameWritten (c :: name) ++ cs = nameCharWritten c ++ (nameWritten name ++ cs) := by
      simp [nameWritten]
    rw [this, takeName_nameCharWritten, ih]
    rfl

/-- Reading the first character of a written identifier. -/
theorem takeName_identStartWritten (c : Char) (cs : List Char) :
    takeName (identStartWritten c ++ cs) = (c :: (takeName cs).1, (takeName cs).2) := by
  unfold identStartWritten
  split
  · rename_i h
    exact takeName_char (isNameChar_of_isNameStart h)
  · rename_i h
    split
    · rename_i hd
      have hn : (hexDigits c.toNat ++ [' '] ++ cs).head? ≠ some '\n' := by
        rw [hexDigits_of_isDigit hd]
        exact (by decide : some '3' ≠ some '\n')
      rw [List.cons_append, takeName_escape hn, List.append_assoc, List.singleton_append,
        takeEscape_digit hd]
    · rename_i hd
      by_cases hh : c = '-'
      · subst hh
        exact takeName_escape (by simp)
      · have : nameCharWritten c = (breakEscape c).getD ['\\', c] := by
          have : isNameChar c = false := by
            simp only [isNameChar, Bool.or_eq_false_iff]
            simp [h, hd, hh]
          simp [nameCharWritten, this]
        rw [← this]
        exact takeName_nameCharWritten c cs

/-- The first character of an identifier is written so that an identifier starts there, with a hyphen
in front as well. -/
theorem startsIdent_identStartWritten (c : Char) (cs : List Char) :
    startsIdent (identStartWritten c ++ cs) ∧ startsIdent ('-' :: (identStartWritten c ++ cs)) := by
  have key : ∀ d ds, (isNameStart d ∨ d = '\\' ∧ ds.head? ≠ some '\n') →
      startsIdent (d :: ds) ∧ startsIdent ('-' :: d :: ds) := by
    rintro d ds (h | ⟨rfl, h⟩)
    · have hd : d ≠ '-' := by
        rintro rfl
        exact absurd h (by decide)
      simp [startsIdent, h, hd]
    · simp [startsIdent, h]
  unfold identStartWritten
  split
  · rename_i h
    exact key c cs (.inl h)
  · split
    · rename_i hd
      rw [hexDigits_of_isDigit hd]
      exact key '\\' _ (.inr ⟨rfl, (by decide : some '3' ≠ some '\n')⟩)
    · cases hb : breakEscape c with
      | some e =>
        obtain ⟨d, hd, -, rfl⟩ := eq_backslash_of_breakEscape hb
        have hn : d ≠ '\n' := by
          rintro rfl
          exact absurd hd (by decide)
        exact key '\\' (d :: ' ' :: cs) (.inr ⟨rfl, by simpa using hn⟩)
      | none => exact key '\\' _ (.inr ⟨rfl, by simpa using (ne_break_of_breakEscape hb).1⟩)

/-- Reading a written identifier: the name, and what the text after it adds to it. -/
theorem takeName_identWritten (name cs : List Char) :
    takeName (identWritten name ++ cs) = (name ++ (takeName cs).1, (takeName cs).2) := by
  unfold identWritten
  split
  · exact takeName_identStartWritten '-' cs
  · rename_i rest
    have := takeName_nameWritten rest cs
    rw [List.cons_append, List.cons_append, takeName_char (by decide), takeName_char (by decide),
      this]
    rfl
  · rename_i c rest _
    have := takeName_nameWritten rest cs
    rw [List.cons_append, takeName_char (by decide), List.append_assoc,
      takeName_identStartWritten, this]
    rfl
  · rename_i c rest _ _ _
    have := takeName_nameWritten rest cs
    rw [List.append_assoc, takeName_identStartWritten, this]
    rfl
  · rfl

/-- A written identifier starts one. -/
theorem startsIdent_identWritten {name : List Char} (h : name ≠ []) (cs : List Char) :
    startsIdent (identWritten name ++ cs) := by
  unfold identWritten
  split
  · exact (startsIdent_identStartWritten '-' cs).1
  · simp [startsIdent]
  · rename_i c rest _
    rw [List.cons_append, List.append_assoc]
    exact (startsIdent_identStartWritten c _).2
  · rename_i c rest _ _ _
    rw [List.append_assoc]
    exact (startsIdent_identStartWritten c _).1
  · exact absurd rfl h

/-! ## 5. What written text is made of -/

/-- A property of texts that everything has that is written for a source. It is kept when texts are put
together, and the smallest parts have it: a character that is no backslash, and an escaped character.

How a lexeme is written differs from kind to kind, and each kind has escapes of its own. So the kinds
are told apart once (`Composes.written`), and what is to be known of all written text, character by
character, is an instance of this. -/
structure Composes (P : List Char → Prop) : Prop where
  nil : P []
  append {x y : List Char} : P x → P y → P (x ++ y)
  plain {c : Char} : c ≠ '\\' → Unified [c] → P [c]
  escape {c : Char} : Unified [c] → P ['\\', c]

theorem composes_unified : Composes Unified where
  nil := unified_nil
  append hx hy := unified_append.mpr ⟨hx, hy⟩
  plain _ hc := hc
  escape hc := unified_cons.mpr ⟨by decide, hc⟩

theorem plain_of_isNameChar {c : Char} (h : isNameChar c) : c ≠ '\\' ∧ Unified [c] := by
  refine ⟨?_, unified_cons.mpr ⟨⟨?_, ?_, ?_⟩, unified_nil⟩⟩ <;>
    (rintro rfl; exact absurd h (by decide))

namespace Composes

variable {P : List Char → Prop} (h : Composes P)
include h

theorem cons {c : Char} {cs : List Char} (hb : c ≠ '\\') (hc : Unified [c]) (hcs : P cs) :
    P (c :: cs) := h.append (h.plain hb hc) hcs

theorem chars {cs : List Char} (hb : '\\' ∉ cs) (hu : Unified cs) : P cs := by
  induction cs with
  | nil => exact h.nil
  | cons c cs ih =>
    rw [List.mem_cons, not_or] at hb
    rw [unified_cons] at hu
    exact h.cons (Ne.symm hb.1) (unified_cons.mpr ⟨hu.1, unified_nil⟩) (ih hb.2 hu.2)

theorem flatMap {f : Char → List Char} {cs : List Char} (hf : ∀ c ∈ cs, P (f c)) :
    P (cs.flatMap f) := by
  induction cs with
  | nil => exact h.nil
  | cons c cs ih =>
    rw [List.forall_mem_cons] at hf
    rw [List.flatMap_cons]
    exact h.append hf.1 (ih hf.2)

/-- A line break is written as its code. Any other character is unified, so it may be written as it
is, or escaped. -/
theorem breakEscape {c : Char} {w : List Char} (h0 : c ≠ '\x00') (hw : Unified [c] → P w) :
    P ((Syntax.breakEscape c).getD w) := by
  cases hb : Syntax.breakEscape c with
  | some e =>
    obtain ⟨d, hd, -, rfl⟩ := eq_backslash_of_breakEscape hb
    have hu : Unified [d] := by
      refine unified_cons.mpr ⟨⟨?_, ?_, ?_⟩, unified_nil⟩ <;>
        (rintro rfl; exact absurd hd (by decide))
    exact h.append (h.escape hu) (h.plain (by decide) (by decide))
  | none =>
    obtain ⟨-, h1, h2⟩ := ne_break_of_breakEscape hb
    exact hw (unified_cons.mpr ⟨⟨h0, h1, h2⟩, unified_nil⟩)

theorem nameCharWritten {c : Char} (h0 : c ≠ '\x00') : P (Syntax.nameCharWritten c) := by
  unfold Syntax.nameCharWritten
  split
  · next hc =>
    obtain ⟨hb, hu⟩ := plain_of_isNameChar hc
    exact h.plain hb hu
  · exact h.breakEscape h0 h.escape

theorem nameWritten {name : List Char} (h0 : '\x00' ∉ name) : P (Syntax.nameWritten name) :=
  h.flatMap fun _ hc => h.nameCharWritten fun he => h0 (he ▸ hc)

theorem identStartWritten {c : Char} (h0 : c ≠ '\x00') : P (Syntax.identStartWritten c) := by
  unfold Syntax.identStartWritten
  split
  · next hc =>
    obtain ⟨hb, hu⟩ := plain_of_isNameChar (c := c) (by rw [isNameChar, hc]; rfl)
    exact h.plain hb hu
  · split
    · next hc =>
      obtain ⟨hb, hu⟩ := plain_of_isNameChar (c := c) (by simp [isNameChar, hc])
      have hrest : P [c, ' '] := h.cons hb hu (h.plain (by decide) (by decide))
      rw [hexDigits_of_isDigit hc]
      exact h.append (x := ['\\', '3']) (h.escape (by decide)) hrest
    · exact h.breakEscape h0 h.escape

theorem identWritten {name : List Char} (h0 : '\x00' ∉ name) : P (Syntax.identWritten name) := by
  unfold Syntax.identWritten
  split
  · exact h.escape (by decide)
  · exact h.cons (by decide) (by decide)
      (h.cons (by decide) (by decide) (h.nameWritten (by simp_all)))
  · exact h.cons (by decide) (by decide)
      (h.append (h.identStartWritten (by rintro rfl; simp at h0)) (h.nameWritten (by simp_all)))
  · exact h.append (h.identStartWritten (by rintro rfl; simp at h0)) (h.nameWritten (by simp_all))
  · exact h.nil

end Composes

theorem unified_identWritten {name : List Char} (h : '\x00' ∉ name) : Unified (identWritten name) :=
  composes_unified.identWritten h

end CssExpand.Syntax
