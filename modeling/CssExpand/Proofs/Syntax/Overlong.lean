import CssExpand.Proofs.Syntax.Atom
import CssExpand.Proofs.Syntax.Digits

/-!
# Where an overlong integer comes from

A text is refused for an integer with too many digits, and these digits stand in the text side by
side (`digitRun_of_checkIntegers`). Nothing else in it matters: not escapes, since they are part of
names, and not line breaks, since unifying them leaves every run of digits as it is.
-/

set_option autoImplicit false

namespace CssExpand.Syntax

/-! ## 1. Numerals in a scan -/

/-- The digits in front of the point of a numeral stand side by side in it. -/
theorem whole_isInfix_chars (n : Numeral) : n.whole <:+: n.chars := by
  refine ⟨signChars n.sign,
    (n.fraction.map ('.' :: ·)).getD [] ++ (n.exponent.map Exponent.chars).getD [], ?_⟩
  rw [Numeral.chars, List.append_assoc (signChars n.sign ++ n.whole)]

/-- The digits of every numeral in a scan are digits, and stand in the text. -/
theorem whole_of_mem_scan {cs : List Char} {a : Atom} {n : Numeral}
    (ha : Lexeme.atom a ∈ Lexeme.scan cs) (hn : a.numeral? = some n) :
    (∀ d ∈ n.whole, d.isDigit) ∧ n.whole <:+: cs := by
  fun_induction Lexeme.scan cs with
  | case1 => cases ha
  | case2 c rest ih =>
    rcases List.mem_append.mp ha with ha | ha
    · obtain ⟨after, hread⟩ := read?_of_mem_next ha hn
      obtain ⟨hwf, heq, -⟩ := Numeral.read?_some hread
      exact ⟨hwf.whole, heq ▸ (whole_isInfix_chars n).trans (List.prefix_append ..).isInfix⟩
    · exact ⟨(ih ha).1, (ih ha).2.trans (next_suffix c rest).isInfix⟩

/-! ## 2. Runs of digits -/

/-- Somewhere in the text so many digits stand side by side. -/
def HasDigitRun (count : Nat) (text : String) : Prop :=
  ∃ ds : List Char, ds.length = count ∧ (∀ d ∈ ds, d.isDigit) ∧ ds <:+: text.toList

/-- Unifying line breaks leaves the digits at the start. -/
theorem takeWhile_isDigit_unifyBreaks (cs : List Char) :
    (unifyBreaks cs).takeWhile Char.isDigit = cs.takeWhile Char.isDigit := by
  fun_induction unifyBreaks cs with
  | case1 => rfl
  | case2 rest ih => rfl
  | case3 c rest _ ih =>
    split
    · next h =>
      subst h
      rfl
    · split
      · next h =>
        rcases (by simpa using h : c = '\r' ∨ c = '\x0c') with rfl | rfl <;> rfl
      · rw [List.takeWhile_cons, List.takeWhile_cons, ih]

/-- Digits at the start are found among the digits there. -/
theorem isPrefix_takeWhile {ds cs : List Char} (hd : ∀ d ∈ ds, d.isDigit) (h : ds <+: cs) :
    ds <+: cs.takeWhile Char.isDigit := by
  obtain ⟨rest, rfl⟩ := h
  rw [List.takeWhile_append_of_pos hd]
  exact List.prefix_append ..

/-- Unifying line breaks makes no new run of digits. -/
theorem isInfix_of_unifyBreaks {ds : List Char} (hd : ∀ d ∈ ds, d.isDigit) (cs : List Char)
    (h : ds <:+: unifyBreaks cs) : ds <:+: cs := by
  have hstart : ∀ cs, ds <+: unifyBreaks cs → ds <:+: cs := by
    intro cs hpre
    have htake := isPrefix_takeWhile hd hpre
    rw [takeWhile_isDigit_unifyBreaks] at htake
    exact (htake.trans (List.takeWhile_prefix _)).isInfix
  fun_induction unifyBreaks cs with
  | case1 => exact h
  | case2 rest ih =>
    rcases List.infix_cons_iff.mp h with h | h
    · exact hstart ('\r' :: '\n' :: rest) h
    · exact ((ih h).trans (List.suffix_cons ..).isInfix).trans (List.suffix_cons ..).isInfix
  | case3 c rest hc ih =>
    rcases List.infix_cons_iff.mp h with h | h
    · refine hstart (c :: rest) ?_
      rw [unifyBreaks]
      · exact h
      · exact hc
    · exact (ih h).trans (List.suffix_cons ..).isInfix

/-- A text is refused only for a run of digits that is too long. -/
theorem digitRun_of_checkIntegers {text : String} {e : OverlongInteger}
    (h : checkIntegers text = .error e) :
    Numeral.digitLimit < e.digits ∧ HasDigitRun e.digits text := by
  rw [checkIntegers] at h
  split at h
  · next digits hfind =>
    obtain rfl := Except.error.inj h
    obtain ⟨l, hl, hover⟩ := List.exists_of_findSome?_eq_some hfind
    cases l with
    | atom a =>
      obtain ⟨n, hn, hlong⟩ := Option.bind_eq_some_iff.mp hover
      obtain ⟨hdigits, hinfix⟩ := whole_of_mem_scan hl hn
      rw [Numeral.overlong?] at hlong
      split at hlong
      · next hlimit =>
        simp only [Bool.and_eq_true, decide_eq_true_eq] at hlimit
        obtain rfl := Option.some.inj hlong
        exact ⟨hlimit.2, n.whole, rfl, hdigits, isInfix_of_unifyBreaks hdigits _ hinfix⟩
      · cases hlong
    | _ => cases hover
  · cases h

/-! ## 3. Texts of digits -/

/-- Digits alone are one number. -/
theorem scan_digits {ds : List Char} (hne : ds ≠ []) (hd : ∀ d ∈ ds, d.isDigit) :
    Lexeme.scan ds = [.atom (.number ⟨none, ds, none, none⟩)] := by
  have hwf : Numeral.WellFormed ⟨none, ds, none, none⟩ :=
    ⟨hd, fun _ h => (nomatch h), fun _ h => (nomatch h), .inl hne⟩
  have hstop : NumberStopsAt ⟨none, ds, none, none⟩ [] :=
    ⟨⟨fun _ h => (nomatch h), fun _ _ => rfl, fun _ => rfl⟩, rfl, nofun⟩
  have h := scan_number hwf hstop
  rw [Lexeme.scan_nil] at h
  simpa [Numeral.chars, signChars] using h

/-- A text of digits is refused if there are too many of them. -/
theorem checkIntegers_digits {ds : List Char} (hd : ∀ d ∈ ds, d.isDigit)
    (hlong : Numeral.digitLimit < ds.length) :
    checkIntegers (String.ofList ds) = .error ⟨ds.length⟩ := by
  have hne : ds ≠ [] := List.ne_nil_of_length_pos (Nat.zero_lt_of_lt hlong)
  have hu : Unified ds := by
    intro c hc
    have hc := hd c hc
    refine ⟨?_, ?_, ?_⟩ <;> rintro rfl <;> exact absurd hc (by decide)
  have hover : Numeral.overlong? ⟨none, ds, none, none⟩ = some ds.length := by
    rw [Numeral.overlong?, if_pos]
    simpa [Numeral.isInteger] using hlong
  rw [checkIntegers, String.toList_ofList, unifyBreaks_eq hu, scan_digits hne hd,
    List.findSome?_cons, Lexeme.overlong?, Atom.numeral?, Option.bind_some, hover]

end CssExpand.Syntax
