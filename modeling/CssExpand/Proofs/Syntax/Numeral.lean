import CssExpand.Proofs.Syntax.Name
import CssExpand.Syntax.Numeral
import Mathlib.Data.List.TakeWhile

/-!
# Reading written numerals

A numeral keeps its spelling, so reading and writing are inverse to each other up to one question:
whether the text after it prolongs it. `Numeral.StopsAt` says that it does not. A reader that has
read a numeral stands before such a text (`Numeral.read?_some`), and before such a text a numeral of
the right form is read as itself (`Numeral.read?_chars`).
-/

set_option autoImplicit false

namespace CssExpand.Syntax

/-! ## 1. The form of a numeral -/

/-- A list of at least one digit. -/
def IsDigits (ds : List Char) : Prop := ds ≠ [] ∧ ∀ d ∈ ds, d.isDigit

/-- An exponent with a letter for it and with digits. -/
def Exponent.WellFormed (e : Exponent) : Prop := (e.mark = 'e' ∨ e.mark = 'E') ∧ IsDigits e.digits

/-- A numeral as the reader makes them. -/
structure Numeral.WellFormed (n : Numeral) : Prop where
  whole : ∀ d ∈ n.whole, d.isDigit
  fraction : ∀ ds ∈ n.fraction, IsDigits ds
  exponent : ∀ e ∈ n.exponent, e.WellFormed
  some_digit : n.whole ≠ [] ∨ n.fraction ≠ none

/-- Texts that do not prolong a numeral. -/
structure Numeral.StopsAt (n : Numeral) (cs : List Char) : Prop where
  digit : ∀ c ∈ cs.head?, c.isDigit = false
  fraction : n.fraction = none → n.exponent = none → (takeFraction cs).1 = none
  exponent : n.exponent = none → (takeExponent cs).1 = none

/-! ## 2. The parts -/

theorem takeWhile_stop {α : Type} {p : α → Bool} {ds cs : List α} (hd : ∀ d ∈ ds, p d)
    (hc : ∀ c ∈ cs.head?, p c = false) : (ds ++ cs).takeWhile p = ds := by
  rw [List.takeWhile_append_of_pos hd]
  cases cs with
  | nil => simp
  | cons c rest => simp [hc c rfl]

theorem dropWhile_stop {α : Type} {p : α → Bool} {ds cs : List α} (hd : ∀ d ∈ ds, p d)
    (hc : ∀ c ∈ cs.head?, p c = false) : (ds ++ cs).dropWhile p = cs := by
  rw [List.dropWhile_append_of_pos hd]
  cases cs with
  | nil => simp
  | cons c rest => simp [hc c rfl]

theorem head?_dropWhile_stop {α : Type} (p : α → Bool) (cs : List α) :
    ∀ c ∈ (cs.dropWhile p).head?, p c = false := by
  intro c hc
  have := List.head?_dropWhile_not p cs
  rw [Option.mem_def.mp hc] at this
  simpa using this

theorem isDigits_takeWhile {cs : List Char} (h : cs.takeWhile Char.isDigit ≠ []) :
    IsDigits (cs.takeWhile Char.isDigit) :=
  ⟨h, fun _ hd => List.mem_takeWhile_imp hd⟩

theorem IsDigits.head {ds : List Char} (h : IsDigits ds) (cs : List Char) :
    ∃ d rest, d.isDigit ∧ ds ++ cs = d :: rest := by
  cases ds with
  | nil => exact absurd rfl h.1
  | cons d rest => exact ⟨d, rest ++ cs, h.2 d List.mem_cons_self, rfl⟩

theorem takeSign_signChars {s : Option Sign} {cs : List Char}
    (h : s = none → ∀ c ∈ cs.head?, c ≠ '+' ∧ c ≠ '-') : takeSign (signChars s ++ cs) = (s, cs) := by
  cases s with
  | some s => cases s <;> rfl
  | none =>
    have h := h rfl
    cases cs with
    | nil => rfl
    | cons c rest =>
      obtain ⟨h1, h2⟩ := h c rfl
      simp [signChars, takeSign, h1, h2]

theorem takeSign_eq (cs : List Char) : signChars (takeSign cs).1 ++ (takeSign cs).2 = cs := by
  unfold takeSign
  split <;> rfl

theorem takeFraction_of_none {cs : List Char} (h : (takeFraction cs).1 = none) :
    takeFraction cs = (none, cs) := by
  unfold takeFraction at h ⊢
  split at h
  · split at h
    · rename_i hne
      rw [if_pos hne]
    · simp at h
  · rfl

theorem takeFraction_some {ds cs : List Char} (h : IsDigits ds)
    (hc : ∀ c ∈ cs.head?, c.isDigit = false) : takeFraction ('.' :: (ds ++ cs)) = (some ds, cs) := by
  simp [takeFraction, takeWhile_stop h.2 hc, dropWhile_stop h.2 hc, h.1]

theorem takeFraction_eq (cs : List Char) :
    ((takeFraction cs).1.map ('.' :: ·)).getD [] ++ (takeFraction cs).2 = cs := by
  unfold takeFraction
  split
  · split
    · rfl
    · simp
  · rfl

theorem isDigits_takeFraction {cs ds : List Char} (h : (takeFraction cs).1 = some ds) :
    IsDigits ds := by
  unfold takeFraction at h
  split at h
  · split at h
    · simp at h
    · rename_i hne
      simp only [Option.some.injEq] at h
      subst h
      exact isDigits_takeWhile (by simpa using hne)
  · simp at h

theorem takeExponent_of_none {cs : List Char} (h : (takeExponent cs).1 = none) :
    takeExponent cs = (none, cs) := by
  unfold takeExponent at h ⊢
  split
  · rfl
  · dsimp only at h ⊢
    split at h
    · simp at h
    · rename_i hne
      rw [if_neg hne]

/-- A written exponent is taken whole if no digit follows. -/
theorem takeExponent_some {e : Exponent} {cs : List Char} (h : e.WellFormed)
    (hc : ∀ c ∈ cs.head?, c.isDigit = false) : takeExponent (e.chars ++ cs) = (some e, cs) := by
  obtain ⟨mark, sign, ds⟩ := e
  obtain ⟨hm, hd⟩ := h
  have hs : takeSign (signChars sign ++ (ds ++ cs)) = (sign, ds ++ cs) := by
    refine takeSign_signChars fun _ => ?_
    obtain ⟨d, rest, hdig, heq⟩ := hd.head cs
    simp only at heq
    rw [heq]
    rintro c ⟨⟩
    constructor <;> rintro rfl <;> exact absurd hdig (by decide)
  have hmark : (mark == 'e' || mark == 'E') = true := by simpa using hm
  have hne : (ds.isEmpty) = false := by simpa using hd.1
  simp only at hd
  simp [Exponent.chars, takeExponent, hs, takeWhile_stop hd.2 hc, dropWhile_stop hd.2 hc, hmark,
    hd.1]

theorem takeExponent_eq (cs : List Char) :
    ((takeExponent cs).1.map Exponent.chars).getD [] ++ (takeExponent cs).2 = cs := by
  unfold takeExponent
  split
  · rfl
  · rename_i c rest
    dsimp only
    split
    · have := takeSign_eq rest
      simp only [Option.map_some, Option.getD_some, Exponent.chars, List.cons_append,
        List.append_assoc, List.takeWhile_append_dropWhile, this]
    · rfl

/-- An exponent that was read has one of two letters and a digit at least. -/
theorem wellFormed_takeExponent {cs : List Char} {e : Exponent} (h : (takeExponent cs).1 = some e) :
    e.WellFormed := by
  unfold takeExponent at h
  split at h
  · simp at h
  · dsimp only at h
    split at h
    · rename_i hc
      simp only [Bool.and_eq_true, Bool.or_eq_true, beq_iff_eq, Bool.not_eq_true',
        List.isEmpty_eq_false_iff] at hc
      simp only [Option.some.injEq] at h
      subst h
      exact ⟨hc.1, isDigits_takeWhile hc.2⟩
    · simp at h

theorem head?_takeFraction {cs : List Char} (h : ∀ c ∈ cs.head?, c.isDigit = false) :
    ∀ c ∈ (takeFraction cs).2.head?, c.isDigit = false := by
  unfold takeFraction
  split
  · split
    · exact h
    · exact head?_dropWhile_stop _ _
  · exact h

theorem head?_takeExponent {cs : List Char} (h : ∀ c ∈ cs.head?, c.isDigit = false) :
    ∀ c ∈ (takeExponent cs).2.head?, c.isDigit = false := by
  unfold takeExponent
  split
  · exact h
  · dsimp only
    split
    · exact head?_dropWhile_stop _ _
    · exact h

/-! ## 3. Numerals -/

namespace Numeral

/-- What the reader takes for a numeral has the form of one, is the start of the text, and stops
where the rest begins. -/
theorem read?_some {cs rest : List Char} {n : Numeral} (h : read? cs = some (n, rest)) :
    n.WellFormed ∧ cs = n.chars ++ rest ∧ n.StopsAt rest := by
  simp only [read?] at h
  split at h
  · simp at h
  · rename_i hne
    simp only [Option.some.injEq, Prod.mk.injEq] at h
    obtain ⟨rfl, rfl⟩ := h
    have h1 := takeSign_eq cs
    generalize takeSign cs = signed at h1 hne ⊢
    have h2 : signed.2.takeWhile Char.isDigit ++ signed.2.dropWhile Char.isDigit = signed.2 :=
      List.takeWhile_append_dropWhile
    have hhead := head?_dropWhile_stop Char.isDigit signed.2
    generalize signed.2.dropWhile Char.isDigit = afterWhole at h2 hhead hne ⊢
    have h3 := takeFraction_eq afterWhole
    have h4 := takeExponent_eq (takeFraction afterWhole).2
    have hfrac := head?_takeFraction hhead
    refine ⟨⟨fun _ hd => List.mem_takeWhile_imp hd, fun _ hd => isDigits_takeFraction hd,
      fun _ he => wellFormed_takeExponent he, ?_⟩, ?_, ?_⟩
    · rw [Bool.and_eq_true, not_and_or] at hne
      exact hne.imp (by simp) (by simp)
    · simp only [chars, List.append_assoc]
      rw [h4, h3, h2, h1]
    · refine ⟨head?_takeExponent hfrac, fun hf he => ?_, fun he => ?_⟩
      · simp only at hf he
        rw [takeFraction_of_none hf] at he ⊢
        rw [takeExponent_of_none he, takeFraction_of_none hf]
      · simp only at he
        rw [takeExponent_of_none he]
        exact he

/-- The first character of a numeral. -/
theorem head_chars {n : Numeral} (h : n.WellFormed) (cs : List Char) :
    ∃ c rest, n.chars ++ cs = c :: rest ∧ (c.isDigit ∨ c = '+' ∨ c = '-' ∨ c = '.') ∧
      ((c = '+' ∨ c = '-') → ∃ d ds, rest = d :: ds ∧ (d.isDigit ∨ d = '.')) := by
  have key : ∀ r, ∃ d ds, n.whole ++ ((n.fraction.map ('.' :: ·)).getD [] ++ r) = d :: ds ∧
      (d.isDigit ∨ d = '.') := by
    intro r
    cases hw : n.whole with
    | cons d ds => exact ⟨d, _, rfl, .inl (h.whole d (hw ▸ List.mem_cons_self))⟩
    | nil =>
      cases hf : n.fraction with
      | some f => exact ⟨'.', _, rfl, .inr rfl⟩
      | none => exact absurd hf (h.some_digit.resolve_left (by simp [hw]))
  obtain ⟨d, ds, heq, hd⟩ := key ((n.exponent.map Exponent.chars).getD [] ++ cs)
  simp only [chars, List.append_assoc]
  rw [heq]
  cases hs : n.sign with
  | none =>
    refine ⟨d, ds, rfl, hd.imp id (.inr ∘ .inr), ?_⟩
    rintro (rfl | rfl) <;> exact absurd hd (by decide)
  | some s =>
    refine ⟨s.char, d :: ds, by simp [signChars], ?_, fun _ => ⟨d, ds, rfl, hd⟩⟩
    cases s
    · exact .inr (.inl rfl)
    · exact .inr (.inr (.inl rfl))

/-- A numeral ends in a digit. -/
theorem exists_last_chars {n : Numeral} (h : n.WellFormed) :
    ∃ init d, n.chars = init ++ [d] ∧ d.isDigit := by
  have key : ∀ (front : List Char) {ds : List Char}, ds ≠ [] → (∀ d ∈ ds, d.isDigit) →
      ∃ init d, front ++ ds = init ++ [d] ∧ d.isDigit := by
    intro front ds hne hd
    refine ⟨front ++ ds.dropLast, ds.getLast hne, ?_, hd _ (List.getLast_mem hne)⟩
    rw [List.append_assoc, List.dropLast_append_getLast]
  cases he : n.exponent with
  | some e =>
    have hdigits := (h.exponent e he).2
    obtain ⟨init, d, heq, hd⟩ := key (signChars n.sign ++ n.whole ++
      (n.fraction.map ('.' :: ·)).getD [] ++ e.mark :: signChars e.sign) hdigits.1 hdigits.2
    exact ⟨init, d, by rw [← heq]; simp [chars, he, Exponent.chars], hd⟩
  | none =>
    cases hf : n.fraction with
    | some ds =>
      have hdigits := h.fraction ds hf
      obtain ⟨init, d, heq, hd⟩ :=
        key (signChars n.sign ++ n.whole ++ ['.']) hdigits.1 hdigits.2
      exact ⟨init, d, by rw [← heq]; simp [chars, he, hf], hd⟩
    | none =>
      obtain ⟨init, d, heq, hd⟩ := key (signChars n.sign)
        (h.some_digit.resolve_right (fun hne => hne hf)) h.whole
      exact ⟨init, d, by rw [← heq]; simp [chars, he, hf], hd⟩

/-- A numeral is read as itself before a text that does not prolong it. -/
theorem read?_chars {n : Numeral} {cs : List Char} (h : n.WellFormed) (hs : n.StopsAt cs) :
    read? (n.chars ++ cs) = some (n, cs) := by
  -- From the end to the front: each part is taken up to the next one because that one starts with a
  -- character which does not prolong it.
  obtain ⟨sign, whole, fraction, exponent⟩ := n
  have hexp : takeExponent ((exponent.map Exponent.chars).getD [] ++ cs) = (exponent, cs) := by
    cases exponent with
    | none => exact takeExponent_of_none (hs.exponent rfl)
    | some e => exact takeExponent_some (h.exponent e rfl) hs.digit
  have hafter : ∀ c ∈ ((exponent.map Exponent.chars).getD [] ++ cs).head?, c.isDigit = false := by
    cases exponent with
    | none => exact hs.digit
    | some e =>
      rintro c ⟨⟩
      rcases (h.exponent e rfl).1 with hm | hm <;> rw [hm] <;> decide
  have hfrac : takeFraction ((fraction.map ('.' :: ·)).getD [] ++
      ((exponent.map Exponent.chars).getD [] ++ cs)) =
        (fraction, (exponent.map Exponent.chars).getD [] ++ cs) := by
    cases fraction with
    | some f => exact takeFraction_some (h.fraction f rfl) hafter
    | none =>
      cases exponent with
      | none => exact takeFraction_of_none (hs.fraction rfl rfl)
      | some e =>
        have hm : e.mark ≠ '.' := by
          rcases (h.exponent e rfl).1 with hm | hm <;> rw [hm] <;> decide
        simp [takeFraction, Exponent.chars, hm]
  have hbefore : ∀ c ∈ ((fraction.map ('.' :: ·)).getD [] ++
      ((exponent.map Exponent.chars).getD [] ++ cs)).head?, c.isDigit = false := by
    cases fraction with
    | some f =>
      rintro c ⟨⟩
      decide
    | none => exact hafter
  -- Without a sign, the first character is a digit or a point.
  have hsign : takeSign (signChars sign ++ (whole ++ ((fraction.map ('.' :: ·)).getD [] ++
      ((exponent.map Exponent.chars).getD [] ++ cs)))) =
        (sign, whole ++ ((fraction.map ('.' :: ·)).getD [] ++
          ((exponent.map Exponent.chars).getD [] ++ cs))) := by
    refine takeSign_signChars fun _ => ?_
    cases whole with
    | cons d ds =>
      rintro c ⟨⟩
      have := h.whole d List.mem_cons_self
      constructor <;> rintro rfl <;> exact absurd this (by decide)
    | nil =>
      cases fraction with
      | some f =>
        rintro c ⟨⟩
        decide
      | none => exact absurd rfl (h.some_digit.resolve_left (by simp))
  have hdigit : (whole.isEmpty && fraction.isNone) = false := by
    rcases h.some_digit with hw | hf
    · simp only at hw
      simp [hw]
    · simp only at hf
      simp [Option.isNone_eq_false_iff, Option.isSome_iff_ne_none, hf]
  simp only [read?, chars, List.append_assoc, hsign, takeWhile_stop h.whole hbefore,
    dropWhile_stop h.whole hbefore, hfrac, hexp, hdigit, Bool.false_eq_true, if_false]

end Numeral

theorem mem_signChars {s : Option Sign} {c : Char} (h : c ∈ signChars s) : c = '+' ∨ c = '-' := by
  rcases s with _ | _ | _ <;> simp_all [signChars, Sign.char]

/-- The characters that numerals are written with. -/
theorem Numeral.mem_chars {n : Numeral} (h : n.WellFormed) {c : Char} (hc : c ∈ n.chars) :
    c.isDigit ∨ c ∈ ['+', '-', '.', 'e', 'E'] := by
  have hsign : ∀ s, c ∈ signChars s → c.isDigit ∨ c ∈ ['+', '-', '.', 'e', 'E'] := by
    intro s hs
    rcases mem_signChars hs with rfl | rfl <;> decide
  simp only [Numeral.chars, List.mem_append] at hc
  rcases hc with ((hc | hc) | hc) | hc
  · exact hsign _ hc
  · exact .inl (h.whole c hc)
  · cases hf : n.fraction with
    | none => simp [hf] at hc
    | some f =>
      rw [hf, Option.map_some, Option.getD_some, List.mem_cons] at hc
      rcases hc with rfl | hc
      · decide
      · exact .inl ((h.fraction f hf).2 c hc)
  · cases he : n.exponent with
    | none => simp [he] at hc
    | some e =>
      obtain ⟨hm, hd⟩ := h.exponent e he
      rw [he, Option.map_some, Option.getD_some, Exponent.chars, List.mem_cons,
        List.mem_append] at hc
      rcases hc with rfl | hc | hc
      · rcases hm with hm | hm <;> rw [hm] <;> decide
      · exact hsign _ hc
      · exact .inl (hd.2 c hc)

theorem Numeral.unified_chars {n : Numeral} (h : n.WellFormed) : Unified n.chars := by
  intro c hc
  have := Numeral.mem_chars h hc
  refine ⟨?_, ?_, ?_⟩ <;> rintro rfl <;> exact absurd this (by decide)

end CssExpand.Syntax
