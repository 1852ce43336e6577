import CssExpand.Proofs.Syntax.Respelled
import CssExpand.Proofs.Syntax.Seam
import CssExpand.Proofs.Text.LetterCase
import Mathlib

/-!
# Texts in lower case

A reader tells characters apart by their classes, and no class has one case of a letter without the
other. So a text whose ASCII letters are lowered is read like the text itself: a step gives the same
lexemes up to the case of their letters and leaves the same rest in lower case (`next_asciiLower`).
Escapes are no exception. The code of a character may be written with letters of either case, and
what stands for itself behind a backslash is lowered with the rest.

`Lexeme.lowered` forgets the case of a lexeme; what two texts have in common that differ in case is
said with it.
-/

set_option autoImplicit false

namespace CssExpand.Text

/-! ## 1. Capitals -/

/-- The capital letters of ASCII. -/
def capitals : List Char :=
  ['A', 'B', 'C', 'D', 'E', 'F', 'G', 'H', 'I', 'J', 'K', 'L', 'M', 'N', 'O', 'P', 'Q', 'R', 'S',
   'T', 'U', 'V', 'W', 'X', 'Y', 'Z']

theorem toLower_eq_or_mem_capitals (c : Char) : c.toLower = c ∨ c ∈ capitals := by
  by_cases h : 'A'.val ≤ c.val ∧ c.val ≤ 'Z'.val
  · refine .inr ?_
    simp only [UInt32.le_iff_toNat_le] at h
    have hlow : 65 ≤ c.toNat := h.1
    have hhigh : c.toNat ≤ 90 := h.2
    have hall : ∀ n : Fin 26, Char.ofNat (65 + n) ∈ capitals := by decide
    have hc := hall ⟨c.toNat - 65, by omega⟩
    rwa [show 65 + (c.toNat - 65) = c.toNat by omega, Char.ofNat_toNat] at hc
  · exact .inl (by rw [Char.toLower, dif_neg h])

/-- What is the same for every capital and its small letter does not depend on case. -/
theorem apply_toLower {α : Type} {f : Char → α} (h : ∀ c ∈ capitals, f c.toLower = f c) (c : Char) :
    f c.toLower = f c := by
  rcases toLower_eq_or_mem_capitals c with hc | hc
  · rw [hc]
  · exact h c hc

theorem comp_toLower {α : Type} {f : Char → α} (h : ∀ c ∈ capitals, f c.toLower = f c) :
    f ∘ Char.toLower = f := funext (apply_toLower h)

theorem isAlpha_toLower : ∀ c ∈ capitals, c.isAlpha = true ∧ c.toLower.isAlpha = true := by
  simp [capitals]

/-- Only a character itself lowers to one that is no letter. -/
theorem toLower_eq_iff {d : Char} (h : d.isAlpha = false) (c : Char) : c.toLower = d ↔ c = d := by
  rcases toLower_eq_or_mem_capitals c with hc | hc
  · rw [hc]
  · refine iff_of_false ?_ ?_ <;> intro heq
    · rw [← heq, (isAlpha_toLower c hc).2] at h
      cases h
    · rw [← heq, (isAlpha_toLower c hc).1] at h
      cases h

theorem toLower_of_not_isAlpha {d : Char} (h : d.isAlpha = false) : d.toLower = d :=
  (toLower_eq_iff h d).mpr rfl

@[simp] theorem asciiLower_asciiLower (cs : List Char) :
    asciiLower (asciiLower cs) = asciiLower cs := by
  rw [asciiLower, asciiLower, List.map_map]
  exact List.map_congr_left fun c _ => toLower_toLower c

@[simp] theorem asciiLower_nil : asciiLower [] = [] := rfl

@[simp] theorem asciiLower_cons (c : Char) (cs : List Char) :
    asciiLower (c :: cs) = c.toLower :: asciiLower cs := rfl

theorem takeWhile_asciiLower {p : Char → Bool} (hp : ∀ c ∈ capitals, p c.toLower = p c)
    (cs : List Char) : (asciiLower cs).takeWhile p = asciiLower (cs.takeWhile p) := by
  rw [asciiLower, List.takeWhile_map, comp_toLower hp, asciiLower]

theorem dropWhile_asciiLower {p : Char → Bool} (hp : ∀ c ∈ capitals, p c.toLower = p c)
    (cs : List Char) : (asciiLower cs).dropWhile p = asciiLower (cs.dropWhile p) := by
  rw [asciiLower, List.dropWhile_map, comp_toLower hp, asciiLower]

theorem any_head?_asciiLower {p : Char → Bool} (hp : ∀ c ∈ capitals, p c.toLower = p c)
    (cs : List Char) : (asciiLower cs).head?.any p = cs.head?.any p := by
  cases cs with
  | nil => rfl
  | cons c cs => exact apply_toLower hp c

@[simp] theorem take_asciiLower (k : Nat) (cs : List Char) :
    (asciiLower cs).take k = asciiLower (cs.take k) := by rw [asciiLower, asciiLower, List.map_take]

@[simp] theorem drop_asciiLower (k : Nat) (cs : List Char) :
    (asciiLower cs).drop k = asciiLower (cs.drop k) := by rw [asciiLower, asciiLower, List.map_drop]

@[simp] theorem length_asciiLower (cs : List Char) :
    (asciiLower cs).length = cs.length := List.length_map ..

@[simp] theorem isEmpty_asciiLower (cs : List Char) : (asciiLower cs).isEmpty = cs.isEmpty := by
  cases cs <;> rfl

end CssExpand.Text

namespace CssExpand.Syntax

open Text

/-! ## 2. Classes of characters -/

theorem isWhitespace_toLower : ∀ c ∈ capitals, isWhitespace c.toLower = isWhitespace c := by
  simp [capitals, isWhitespace]

theorem isNameStart_toLower : ∀ c ∈ capitals, isNameStart c.toLower = isNameStart c := by
  simp [capitals, isNameStart]

theorem isNameChar_toLower : ∀ c ∈ capitals, isNameChar c.toLower = isNameChar c := by
  simp [capitals, isNameChar, isNameStart]

theorem isHexDigit_toLower : ∀ c ∈ capitals, isHexDigit c.toLower = isHexDigit c := by
  simp [capitals, isHexDigit]

theorem isDigit_toLower : ∀ c ∈ capitals, c.toLower.isDigit = c.isDigit := by
  simp [capitals]

theorem breaksUrl_toLower : ∀ c ∈ capitals, breaksUrl c.toLower = breaksUrl c := by
  simp [capitals, breaksUrl]

@[simp] theorem hexValue_asciiLower (ds : List Char) : hexValue (asciiLower ds) = hexValue ds := by
  have hdigit : ∀ c ∈ capitals, hexDigitValue c.toLower = hexDigitValue c := by
    simp [capitals, hexDigitValue]
  rw [hexValue, asciiLower, List.foldl_map, hexValue]
  congr 1
  funext n d
  rw [apply_toLower hdigit d]

/-! ## 3. Looking ahead -/

/-- No letter is part of a line break, and none is the null character. -/
@[simp] theorem unifyBreaks_asciiLower (cs : List Char) :
    unifyBreaks (asciiLower cs) = asciiLower (unifyBreaks cs) := by
  fun_induction unifyBreaks cs with
  | case1 => rfl
  | case2 rest ih => exact congrArg ('\n' :: ·) ih
  | case3 c rest hbreak ih =>
    have hcons : unifyBreaks (c.toLower :: asciiLower rest) =
        (if c.toLower = '\x00' then replacement
          else if c.toLower = '\r' || c.toLower = '\x0C' then '\n' else c.toLower) ::
          unifyBreaks (asciiLower rest) := by
      refine unifyBreaks.eq_3 _ _ fun rest' hc hrest => ?_
      cases rest with
      | nil => cases hrest
      | cons d rest =>
        obtain ⟨hd, -⟩ := List.cons.inj hrest
        exact hbreak rest ((toLower_eq_iff rfl c).mp hc)
          (by rw [(toLower_eq_iff rfl d).mp hd])
    rw [asciiLower_cons, hcons, ih, asciiLower_cons]
    simp only [toLower_eq_iff (d := '\x00') rfl, toLower_eq_iff (d := '\r') rfl,
      toLower_eq_iff (d := '\x0C') rfl]
    split
    · rfl
    · split <;> rfl

theorem head?_asciiLower_eq {d : Char} (h : d.isAlpha = false) (cs : List Char) :
    (asciiLower cs).head? = some d ↔ cs.head? = some d := by
  cases cs with
  | nil => exact Iff.rfl
  | cons c cs => simpa using toLower_eq_iff h c

/-- What starts with a character that is no letter started with it before. -/
theorem exists_of_asciiLower_eq_cons {d : Char} (h : d.isAlpha = false) {cs rest : List Char}
    (heq : asciiLower cs = d :: rest) : ∃ r, cs = d :: r ∧ asciiLower r = rest := by
  cases cs with
  | nil => cases heq
  | cons c cs =>
    obtain ⟨hc, hcs⟩ := List.cons.inj heq
    exact ⟨cs, by rw [(toLower_eq_iff h c).mp hc], hcs⟩

@[simp] theorem startsEscape_asciiLower (cs : List Char) :
    startsEscape (asciiLower cs) = startsEscape cs := by
  cases cs with
  | nil => rfl
  | cons c cs =>
    rw [asciiLower_cons, startsEscape_cons, startsEscape_cons, Bool.eq_iff_iff]
    simp only [Bool.and_eq_true, beq_iff_eq, bne_iff_ne, toLower_eq_iff (d := '\\') rfl,
      ne_eq, head?_asciiLower_eq (d := '\n') rfl]

@[simp] theorem startsName_asciiLower (cs : List Char) :
    startsName (asciiLower cs) = startsName cs := by
  rw [startsName, startsName, any_head?_asciiLower isNameChar_toLower, startsEscape_asciiLower]

@[simp] theorem startsIdent_asciiLower (cs : List Char) :
    startsIdent (asciiLower cs) = startsIdent cs := by
  cases cs with
  | nil => rfl
  | cons c cs =>
    have hhyphen : ∀ d ∈ capitals,
        (isNameStart d.toLower || d.toLower == '-') = (isNameStart d || d == '-') := by
      simp [capitals, isNameStart]
    rw [asciiLower_cons, startsIdent_cons, startsIdent_cons, any_head?_asciiLower hhyphen,
      apply_toLower isNameStart_toLower, startsEscape_asciiLower, ← asciiLower_cons,
      startsEscape_asciiLower]
    simp only [toLower_eq_iff (d := '-') rfl]

/-- A range is known by a plus sign and then a digit or a question mark. A digit may be a letter, and
it is one in either case. -/
@[simp] theorem startsRange_asciiLower (cs : List Char) :
    startsRange (asciiLower cs) = startsRange cs := by
  have hfirst : ∀ c ∈ capitals, (isHexDigit c.toLower || c.toLower == '?') =
      (isHexDigit c || c == '?') := by simp [capitals, isHexDigit]
  cases cs with
  | nil => rfl
  | cons c cs =>
    cases cs with
    | nil => simp [startsRange]
    | cons d cs =>
      by_cases hc : c = '+'
      · subst hc
        exact apply_toLower (f := fun c => isHexDigit c || c == '?') hfirst d
      · have hc' : c.toLower ≠ '+' := mt (toLower_eq_iff rfl c).mp hc
        simp [startsRange, hc, hc']

/-! ## 4. Names -/

@[simp] theorem dropOneWhitespace_asciiLower (cs : List Char) :
    dropOneWhitespace (asciiLower cs) = asciiLower (dropOneWhitespace cs) := by
  cases cs with
  | nil => rfl
  | cons c cs =>
    rw [asciiLower_cons, dropOneWhitespace, dropOneWhitespace, apply_toLower isWhitespace_toLower]
    split <;> rfl

/-- An escape gives the same character up to case, and the same rest. -/
theorem takeEscape_asciiLower (cs : List Char) :
    (takeEscape (asciiLower cs)).1.toLower = (takeEscape cs).1.toLower ∧
      (takeEscape (asciiLower cs)).2 = asciiLower (takeEscape cs).2 := by
  unfold takeEscape
  dsimp only
  rw [take_asciiLower, takeWhile_asciiLower isHexDigit_toLower, isEmpty_asciiLower,
    hexValue_asciiLower, length_asciiLower, drop_asciiLower, dropOneWhitespace_asciiLower]
  split
  · cases cs with
    | nil => exact ⟨rfl, rfl⟩
    | cons c cs => exact ⟨toLower_toLower c, rfl⟩
  · exact ⟨rfl, rfl⟩

/-- What a reader of names takes from the text in lower case, in terms of what it takes from the text. -/
structure SameName (lower found : List Char × List Char) : Prop where
  name : asciiLower lower.1 = asciiLower found.1
  rest : lower.2 = asciiLower found.2

/-- By induction along the reader. The names differ, since an escape gives the character it stands for
and that may be a capital; once lowered they are the same. -/
theorem takeName_asciiLower (cs : List Char) :
    SameName (takeName (asciiLower cs)) (takeName cs) := by
  fun_induction takeName cs with
  | case1 =>
    rw [asciiLower_nil, takeName_nil]
    exact ⟨rfl, rfl⟩
  | case2 rest hbreak =>
    have hstop : startsName (asciiLower ('\\' :: rest)) = false := by
      rw [startsName_asciiLower, startsName, startsEscape_cons, hbreak]
      rfl
    rw [takeName_of_not_startsName hstop]
    exact ⟨rfl, rfl⟩
  | case3 rest hbreak tail ih =>
    obtain ⟨hchar, hrest⟩ := takeEscape_asciiLower rest
    have hbreak' : (asciiLower rest).head? ≠ some '\n' :=
      mt (head?_asciiLower_eq rfl rest).mp hbreak
    rw [asciiLower_cons, show '\\'.toLower = '\\' from rfl, takeName_escape hbreak', hrest]
    exact ⟨by rw [asciiLower_cons, asciiLower_cons, hchar, ih.name], ih.rest⟩
  | case4 c rest _ hc tail ih =>
    have hc' : isNameChar c.toLower := by rw [apply_toLower isNameChar_toLower, hc]
    rw [asciiLower_cons, takeName_char hc']
    exact ⟨by rw [asciiLower_cons, asciiLower_cons, toLower_toLower, ih.name], ih.rest⟩
  | case5 c rest hb hc =>
    have hstop : startsName (asciiLower (c :: rest)) = false := by
      rw [startsName_asciiLower, startsName, startsEscape_cons]
      simp [hb, hc]
    rw [takeName_of_not_startsName hstop]
    exact ⟨rfl, rfl⟩

/-! ## 5. Strings, urls and comments -/

/-- What a reader of strings and urls takes from the text in lower case. -/
structure SameReading (lower found : Reading) : Prop where
  value : asciiLower lower.value = asciiLower found.value
  ending : lower.ending = found.ending
  rest : lower.rest = asciiLower found.rest

theorem SameReading.push {lower found : Reading} (h : SameReading lower found) {c d : Char}
    (hc : c.toLower = d.toLower) : SameReading (lower.push c) (found.push d) :=
  ⟨congrArg₂ List.cons hc h.value, h.ending, h.rest⟩

/-- The same for a string. The quote is asked for because it must not be a letter. -/
theorem takeString_asciiLower {quote : Char} (hquote : quote = '"' ∨ quote = '\'')
    (cs : List Char) :
    SameReading (takeString quote (asciiLower cs)) (takeString quote cs) := by
  have halpha : quote.isAlpha = false := by rcases hquote with rfl | rfl <;> rfl
  have hback : '\\'.toLower = '\\' := rfl
  fun_induction takeString quote cs with
  | case1 =>
    rw [asciiLower_nil, takeString]
    exact ⟨rfl, rfl, rfl⟩
  | case2 rest =>
    unfold takeString
    simp only [asciiLower_cons, toLower_of_not_isAlpha halpha, if_true]
    exact ⟨rfl, rfl, rfl⟩
  | case3 hq =>
    unfold takeString
    simp only [asciiLower_cons, asciiLower_nil, hback, if_neg hq, if_true]
    exact ⟨rfl, rfl, rfl⟩
  | case4 rest hq ih =>
    rw [takeString.eq_def]
    simp only [asciiLower_cons, hback, if_neg hq, if_true, show '\n'.toLower = '\n' from rfl]
    exact ih
  | case5 d rest hd hq ih =>
    obtain ⟨hchar, hrest⟩ := takeEscape_asciiLower (d :: rest)
    rw [asciiLower_cons] at hchar hrest
    have hd' : d.toLower ≠ '\n' := mt (toLower_eq_iff rfl d).mp hd
    rw [takeString.eq_def]
    simp only [asciiLower_cons, hback, if_neg hq, if_true, if_neg hd', hrest]
    exact ih.push hchar
  | case6 rest hq hb =>
    unfold takeString
    simp only [asciiLower_cons, show '\n'.toLower = '\n' from rfl, if_neg hq, if_neg hb, if_true]
    exact ⟨rfl, rfl, rfl⟩
  | case7 c rest hq hb hn ih =>
    rw [takeString.eq_def]
    simp only [asciiLower_cons, toLower_eq_iff halpha, toLower_eq_iff (d := '\\') rfl,
      toLower_eq_iff (d := '\n') rfl, if_neg hq, if_neg hb, if_neg hn]
    exact ih.push (toLower_toLower c)

/-- The same for a url. -/
theorem takeUrl_asciiLower (cs : List Char) :
    SameReading (takeUrl (asciiLower cs)) (takeUrl cs) := by
  fun_induction takeUrl cs with
  | case1 =>
    rw [asciiLower_nil, takeUrl]
    exact ⟨rfl, rfl, rfl⟩
  | case2 rest =>
    rw [asciiLower_cons, takeUrl, if_pos ((toLower_eq_iff rfl ')').mpr rfl)]
    exact ⟨rfl, rfl, rfl⟩
  | case3 c rest hc hw hdrop =>
    rw [asciiLower_cons, takeUrl, if_neg (mt (toLower_eq_iff rfl c).mp hc),
      apply_toLower isWhitespace_toLower, if_pos hw, dropWhile_asciiLower isWhitespace_toLower, hdrop]
    exact ⟨rfl, rfl, rfl⟩
  | case4 c rest hc hw rest' hdrop =>
    rw [asciiLower_cons, takeUrl, if_neg (mt (toLower_eq_iff rfl c).mp hc),
      apply_toLower isWhitespace_toLower, if_pos hw, dropWhile_asciiLower isWhitespace_toLower, hdrop]
    exact ⟨rfl, rfl, rfl⟩
  | case5 c rest hc hw d rest' hdrop hd =>
    rw [asciiLower_cons, takeUrl, if_neg (mt (toLower_eq_iff rfl c).mp hc),
      apply_toLower isWhitespace_toLower, if_pos hw, dropWhile_asciiLower isWhitespace_toLower, hdrop]
    simp only [asciiLower_cons, toLower_eq_iff (d := ')') rfl, if_neg hd]
    exact ⟨rfl, rfl, rfl⟩
  | case6 c rest hc hw hescape ih =>
    obtain ⟨hchar, hrest⟩ := takeEscape_asciiLower rest
    rw [asciiLower_cons, takeUrl, if_neg (mt (toLower_eq_iff rfl c).mp hc),
      apply_toLower isWhitespace_toLower, if_neg hw, ← asciiLower_cons, startsEscape_asciiLower,
      if_pos hescape, hrest]
    exact ih.push hchar
  | case7 c rest hc hw hescape hbreaks =>
    rw [asciiLower_cons, takeUrl, if_neg (mt (toLower_eq_iff rfl c).mp hc),
      apply_toLower isWhitespace_toLower, if_neg hw, ← asciiLower_cons, startsEscape_asciiLower,
      if_neg hescape, apply_toLower breaksUrl_toLower, if_pos hbreaks]
    exact ⟨rfl, rfl, rfl⟩
  | case8 c rest hc hw hescape hbreaks ih =>
    rw [asciiLower_cons, takeUrl, if_neg (mt (toLower_eq_iff rfl c).mp hc),
      apply_toLower isWhitespace_toLower, if_neg hw, ← asciiLower_cons, startsEscape_asciiLower,
      if_neg hescape, apply_toLower breaksUrl_toLower, if_neg hbreaks]
    exact ih.push (toLower_toLower c)

/-- What is left of a broken url ends at the same bracket, and no escape hides another one. -/
theorem dropBrokenUrl_asciiLower (cs : List Char) :
    dropBrokenUrl (asciiLower cs) = asciiLower (dropBrokenUrl cs) := by
  fun_induction dropBrokenUrl cs with
  | case1 => rfl
  | case2 rest ih => exact ih
  | case3 rest => rfl
  | case4 c rest hescaped hclose ih =>
    have hc : c.toLower ≠ ')' := fun h => hclose ((toLower_eq_iff rfl c).mp h)
    rw [asciiLower_cons, dropBrokenUrl.eq_4 _ _ ?_ hc, ih]
    intro rest' hc hrest
    cases rest with
    | nil => cases hrest
    | cons d rest =>
      obtain ⟨hd, -⟩ := List.cons.inj hrest
      exact hescaped rest ((toLower_eq_iff rfl c).mp hc) (by rw [(toLower_eq_iff rfl d).mp hd])

/-- A comment ends at the same place. -/
theorem takeComment_asciiLower (cs : List Char) :
    SameName (takeComment (asciiLower cs)) (takeComment cs) := by
  fun_induction takeComment cs with
  | case1 => exact ⟨rfl, rfl⟩
  | case2 rest => exact ⟨rfl, rfl⟩
  | case3 c rest hclose ih =>
    rw [asciiLower_cons, takeComment.eq_3]
    · exact ⟨by rw [asciiLower_cons, asciiLower_cons, toLower_toLower, ih.name], ih.rest⟩
    · intro rest' hc hrest
      cases rest with
      | nil => cases hrest
      | cons d rest =>
        obtain ⟨hd, -⟩ := List.cons.inj hrest
        exact hclose rest ((toLower_eq_iff rfl c).mp hc) (by rw [(toLower_eq_iff rfl d).mp hd])

/-! ## 6. Ranges and numerals -/

/-- A range of characters has the same ends, since a digit counts the same in either case. -/
theorem takeRange_asciiLower (cs : List Char) :
    takeRange (asciiLower cs) = ((takeRange cs).1, asciiLower (takeRange cs).2) := by
  have hmark : ∀ c ∈ capitals, (c.toLower == '?') = (c == '?') := by simp [capitals]
  unfold takeRange
  dsimp only
  rw [take_asciiLower, takeWhile_asciiLower isHexDigit_toLower, length_asciiLower,
    drop_asciiLower, take_asciiLower, takeWhile_asciiLower (p := (· == '?')) hmark,
    isEmpty_asciiLower, hexValue_asciiLower, length_asciiLower, drop_asciiLower]
  generalize cs.drop ((cs.take 6).takeWhile isHexDigit).length = after
  by_cases hmarks : (!((after.take (6 - ((cs.take 6).takeWhile isHexDigit).length)).takeWhile
      (· == '?')).isEmpty) = true
  · rw [if_pos hmarks, if_pos hmarks]
  · -- Without question marks a hyphen and a second number may follow.
    rw [if_neg hmarks, if_neg hmarks]
    cases after with
    | nil => rfl
    | cons c rest =>
      by_cases hc : c = '-'
      · subst hc
        simp only [asciiLower_cons, show '-'.toLower = '-' from rfl, take_asciiLower,
          takeWhile_asciiLower isHexDigit_toLower, isEmpty_asciiLower, hexValue_asciiLower,
          length_asciiLower, drop_asciiLower]
        split <;> rfl
      · have hc' : c.toLower ≠ '-' := mt (toLower_eq_iff rfl c).mp hc
        simp [hc, hc']

/-- No sign is a letter. -/
theorem takeSign_asciiLower (cs : List Char) :
    takeSign (asciiLower cs) = ((takeSign cs).1, asciiLower (takeSign cs).2) := by
  cases cs with
  | nil => rfl
  | cons c cs =>
    by_cases hplus : c = '+'
    · subst hplus
      rfl
    · by_cases hminus : c = '-'
      · subst hminus
        rfl
      · have hplus' : c.toLower ≠ '+' := mt (toLower_eq_iff rfl c).mp hplus
        have hminus' : c.toLower ≠ '-' := mt (toLower_eq_iff rfl c).mp hminus
        simp [takeSign, hplus, hminus, hplus', hminus']

/-- Digits are the same in lower case. -/
theorem takeWhile_isDigit_asciiLower (cs : List Char) :
    (asciiLower cs).takeWhile Char.isDigit = cs.takeWhile Char.isDigit := by
  rw [takeWhile_asciiLower isDigit_toLower, asciiLower]
  refine (List.map_congr_left fun c hc => ?_).trans (List.map_id _)
  exact toLower_of_isDigit (List.mem_takeWhile_imp hc)

theorem takeFraction_asciiLower (cs : List Char) :
    takeFraction (asciiLower cs) = ((takeFraction cs).1, asciiLower (takeFraction cs).2) := by
  cases cs with
  | nil => rfl
  | cons c cs =>
    by_cases hpoint : c = '.'
    · subst hpoint
      simp only [asciiLower_cons, show '.'.toLower = '.' from rfl, takeFraction,
        takeWhile_isDigit_asciiLower, dropWhile_asciiLower isDigit_toLower]
      split <;> rfl
    · have hpoint' : c.toLower ≠ '.' := mt (toLower_eq_iff rfl c).mp hpoint
      simp [takeFraction, hpoint, hpoint']

/-- An exponent with its letter in lower case. -/
def Exponent.lowered (e : Exponent) : Exponent := { e with mark := e.mark.toLower }

/-- The letter of an exponent is kept in a numeral, so here the exponents agree only once lowered. -/
theorem takeExponent_asciiLower (cs : List Char) :
    (takeExponent (asciiLower cs)).1.map Exponent.lowered =
        (takeExponent cs).1.map Exponent.lowered ∧
      (takeExponent (asciiLower cs)).2 = asciiLower (takeExponent cs).2 := by
  have hmark : ∀ c ∈ capitals, (c.toLower == 'e' || c.toLower == 'E') = (c == 'e' || c == 'E') := by
    simp [capitals]
  cases cs with
  | nil => exact ⟨rfl, rfl⟩
  | cons c cs =>
    simp only [asciiLower_cons, takeExponent, takeSign_asciiLower, takeWhile_isDigit_asciiLower,
      dropWhile_asciiLower isDigit_toLower, apply_toLower (f := fun c => c == 'e' || c == 'E') hmark]
    split
    · exact ⟨by simp [Exponent.lowered], rfl⟩
    · exact ⟨rfl, rfl⟩

/-- A numeral with the letter of its exponent in lower case. -/
def Numeral.lowered (n : Numeral) : Numeral := { n with exponent := n.exponent.map Exponent.lowered }

theorem Numeral.isInteger_lowered (n : Numeral) : n.lowered.isInteger = n.isInteger := by
  rw [isInteger, isInteger, lowered, Option.isNone_map]

/-- The numeral at the start is the same up to the letter of its exponent. -/
theorem Numeral.read?_asciiLower (cs : List Char) :
    (Numeral.read? (asciiLower cs)).map (Prod.map Numeral.lowered id) =
      (Numeral.read? cs).map (Prod.map Numeral.lowered asciiLower) := by
  unfold Numeral.read?
  dsimp only
  rw [takeSign_asciiLower, takeWhile_isDigit_asciiLower, dropWhile_asciiLower isDigit_toLower,
    takeFraction_asciiLower]
  dsimp only
  split
  · rfl
  · obtain ⟨hexponent, hrest⟩ := takeExponent_asciiLower
      (takeFraction ((takeSign cs).2.dropWhile Char.isDigit)).2
    simp only [Option.map_some, Prod.map_apply, id_eq, Numeral.lowered, hexponent, hrest]

/-! ## 7. Lexemes -/

/-- An atom with its texts in lower case. -/
def Atom.lowered : Atom → Atom
  | .whitespace text => .whitespace (asciiLower text)
  | .comment text => .comment (asciiLower text)
  | .literal text => .literal (asciiLower text)
  | .ident name => .ident (asciiLower name)
  | .atKeyword name => .atKeyword (asciiLower name)
  | .hash name isIdent => .hash (asciiLower name) isIdent
  | .string value closed => .string (asciiLower value) closed
  | .url value closed => .url (asciiLower value) closed
  | .unicodeRange first last => .unicodeRange first last
  | .number n => .number n.lowered
  | .percentage n => .percentage n.lowered
  | .dimension n unit => .dimension n.lowered (asciiLower unit)
  | .fault kind => .fault kind

/-- A lexeme with its texts in lower case. -/
def Lexeme.lowered : Lexeme → Lexeme
  | .atom a => .atom a.lowered
  | .openFunction name => .openFunction (asciiLower name)
  | .openBlock b => .openBlock b
  | .close b => .close b

/-- What a step takes from the text in lower case, in terms of what it takes from the text. -/
structure SameLexemes (lower found : List Lexeme × List Char) : Prop where
  lexemes : lower.1.map Lexeme.lowered = found.1.map Lexeme.lowered
  rest : lower.2 = asciiLower found.2

theorem stringLexemes_asciiLower {quote : Char} (hquote : quote = '"' ∨ quote = '\'')
    (cs : List Char) :
    SameLexemes (stringLexemes quote (asciiLower cs)) (stringLexemes quote cs) := by
  obtain ⟨hvalue, hending, hrest⟩ := takeString_asciiLower hquote cs
  unfold stringLexemes
  dsimp only
  rw [hending]
  split
  · exact ⟨by simp [Lexeme.lowered, Atom.lowered, hvalue], hrest⟩
  · exact ⟨by simp [Lexeme.lowered, Atom.lowered, hvalue], hrest⟩
  · exact ⟨rfl, hrest⟩

theorem urlLexemes_asciiLower (cs : List Char) :
    SameLexemes (urlLexemes (asciiLower cs)) (urlLexemes cs) := by
  obtain ⟨hvalue, hending, hrest⟩ := takeUrl_asciiLower (cs.dropWhile isWhitespace)
  unfold urlLexemes
  dsimp only
  rw [dropWhile_asciiLower isWhitespace_toLower, hending]
  split
  · exact ⟨by simp [Lexeme.lowered, Atom.lowered, hvalue], hrest⟩
  · exact ⟨by simp [Lexeme.lowered, Atom.lowered, hvalue], hrest⟩
  · exact ⟨rfl, by rw [hrest, dropBrokenUrl_asciiLower]⟩

/-- Whether a name opens a url is asked in lower case, so both texts take the same branch. -/
theorem nameLexemes_asciiLower (cs : List Char) :
    SameLexemes (nameLexemes (asciiLower cs)) (nameLexemes cs) := by
  have hquote : ∀ c ∈ capitals, (c.toLower == '"' || c.toLower == '\'') = (c == '"' || c == '\'') := by
    simp [capitals]
  obtain ⟨hname, hrest⟩ := takeName_asciiLower cs
  unfold nameLexemes
  dsimp only
  rw [hname, hrest]
  generalize (takeName cs).2 = after
  have hident : SameLexemes ([.atom (.ident (takeName (asciiLower cs)).1)], asciiLower after)
      ([.atom (.ident (takeName cs).1)], after) :=
    ⟨by simp [Lexeme.lowered, Atom.lowered, hname], rfl⟩
  cases after with
  | nil => exact hident
  | cons c rest =>
    by_cases hc : c = '('
    · subst hc
      simp only [asciiLower_cons, show '('.toLower = '(' from rfl,
        dropWhile_asciiLower isWhitespace_toLower,
        any_head?_asciiLower (p := fun c => c == '"' || c == '\'') hquote]
      split
      · exact urlLexemes_asciiLower rest
      · exact ⟨by simp [Lexeme.lowered, hname], rfl⟩
    · have hc' : c.toLower ≠ '(' := mt (toLower_eq_iff rfl c).mp hc
      simpa [hc, hc'] using hident

/-- What stands behind a numeral, for two numerals that may differ in the letter of an exponent. -/
theorem numberLexemes_asciiLower {n m : Numeral} (h : n.lowered = m.lowered) (cs : List Char) :
    SameLexemes (numberLexemes n (asciiLower cs)) (numberLexemes m cs) := by
  obtain ⟨hname, hrest⟩ := takeName_asciiLower cs
  unfold numberLexemes
  rw [startsIdent_asciiLower]
  split
  · exact ⟨by simp [Lexeme.lowered, Atom.lowered, hname, h], hrest⟩
  · have hnumber : SameLexemes ([.atom (.number n)], asciiLower cs) ([.atom (.number m)], cs) :=
      ⟨by simp [Lexeme.lowered, Atom.lowered, h], rfl⟩
    cases cs with
    | nil => exact hnumber
    | cons c rest =>
      by_cases hc : c = '%'
      · subst hc
        exact ⟨by simp [Lexeme.lowered, Atom.lowered, h], rfl⟩
      · have hc' : c.toLower ≠ '%' := mt (toLower_eq_iff rfl c).mp hc
        simpa [hc, hc'] using hnumber

/-- No punctuation is a letter, so the branches are the same. -/
theorem punctuation_asciiLower {c : Char} (hc : c.toLower = c) (cs : List Char) :
    (punctuation c (asciiLower cs)).1.lowered = (punctuation c cs).1.lowered ∧
      (punctuation c (asciiLower cs)).2 = asciiLower (punctuation c cs).2 := by
  fun_cases punctuation c cs with
  | case1 rest =>
    obtain ⟨hname, hrest⟩ := takeComment_asciiLower rest
    exact ⟨by simp [punctuation, Lexeme.lowered, Atom.lowered, hname], hrest⟩
  | case2 rest => exact ⟨rfl, rfl⟩
  | case3 rest => exact ⟨rfl, rfl⟩
  | case4 c rest hlong =>
    rw [asciiLower_cons, show '='.toLower = '=' from rfl, punctuation.eq_4, if_pos hlong]
    exact ⟨rfl, rfl⟩
  | case5 c rest hlong =>
    rw [asciiLower_cons, show '='.toLower = '=' from rfl, punctuation.eq_4, if_neg hlong]
    exact ⟨rfl, rfl⟩
  | case6 c rest hslash hless hbar hequals =>
    rw [punctuation.eq_5]
    · exact ⟨rfl, rfl⟩
    · intro r heq
      obtain ⟨r', hr, -⟩ := exists_of_asciiLower_eq_cons rfl heq
      exact hequals r' hr
    · intro r hc heq
      obtain ⟨r', hr, -⟩ := exists_of_asciiLower_eq_cons rfl heq
      exact hslash r' hc hr
    · intro r hc heq
      obtain ⟨r₁, rfl, heq₁⟩ := exists_of_asciiLower_eq_cons rfl heq
      obtain ⟨r₂, rfl, heq₂⟩ := exists_of_asciiLower_eq_cons rfl heq₁
      obtain ⟨r₃, rfl, -⟩ := exists_of_asciiLower_eq_cons rfl heq₂
      exact hless r₃ hc rfl
    · intro r hc heq
      obtain ⟨r', hr, -⟩ := exists_of_asciiLower_eq_cons rfl heq
      exact hbar r' hc hr

theorem symbolLexemes_asciiLower {c : Char} (hc : c.toLower = c) (cs : List Char) :
    SameLexemes (symbolLexemes c (asciiLower cs)) (symbolLexemes c cs) := by
  obtain ⟨hname, hrest⟩ := takeName_asciiLower cs
  unfold symbolLexemes
  rw [startsIdent_asciiLower, startsName_asciiLower]
  split_ifs with hat hhash _ _ _ _ _ _ hquote
  · exact ⟨by simp [Lexeme.lowered, Atom.lowered, hname], hrest⟩
  · exact ⟨by simp [Lexeme.lowered, Atom.lowered, hname], hrest⟩
  iterate 6 exact ⟨rfl, rfl⟩
  · exact stringLexemes_asciiLower (by simpa using hquote) cs
  · obtain ⟨hlexeme, hafter⟩ := punctuation_asciiLower hc cs
    exact ⟨congrArg (fun l => [l]) hlexeme, hafter⟩

theorem take_close_asciiLower (cs : List Char) :
    (asciiLower cs).take 2 = ['-', '>'] ↔ cs.take 2 = ['-', '>'] := by
  match cs with
  | [] => exact Iff.rfl
  | [c] => simp
  | c :: d :: cs => simp [toLower_eq_iff (d := '-') rfl, toLower_eq_iff (d := '>') rfl]

theorem u_toLower (c : Char) : c.toLower = 'u' ∨ c.toLower = 'U' ↔ c = 'u' ∨ c = 'U' := by
  have hu : ∀ c ∈ capitals, (c.toLower = 'u' ∨ c.toLower = 'U') = (c = 'u' ∨ c = 'U') := by
    simp [capitals]
  exact Eq.to_iff (apply_toLower (f := fun c => c = 'u' ∨ c = 'U') hu c)

/-- The lower form of a character that starts no identifier is that character. -/
theorem toLower_eq_of_not_startsIdent {c : Char} {cs : List Char}
    (h : startsIdent (c :: cs) = false) : c.toLower = c := by
  refine (toLower_eq_or_mem_capitals c).resolve_right fun hc => ?_
  have hstart : ∀ c ∈ capitals, isNameStart c = true ∧ c ≠ '-' := by simp [capitals, isNameStart]
  obtain ⟨hname, hne⟩ := hstart c hc
  rw [startsIdent_cons, if_neg hne, hname] at h
  cases h

/-- A step from the text in lower case gives the same lexemes up to case, and the same rest. -/
theorem next_asciiLower (c : Char) (cs : List Char) :
    SameLexemes (next c.toLower (asciiLower cs)) (next c cs) := by
  by_cases hw : isWhitespace c = true
  · rw [next_whitespace hw, next_whitespace (by rwa [apply_toLower isWhitespace_toLower]),
      takeWhile_asciiLower isWhitespace_toLower, dropWhile_asciiLower isWhitespace_toLower,
      ← asciiLower_cons]
    exact ⟨by simp [Lexeme.lowered, Atom.lowered, asciiLower_asciiLower], rfl⟩
  by_cases hrange : (c = 'u' ∨ c = 'U') ∧ startsRange cs = true
  · rw [next_range hrange.1 hrange.2,
      next_range ((u_toLower c).mpr hrange.1) (by rw [startsRange_asciiLower, hrange.2]),
      ← List.drop_one, drop_asciiLower, takeRange_asciiLower, List.drop_one]
    exact ⟨rfl, rfl⟩
  by_cases hclose : c = '-' ∧ cs.take 2 = ['-', '>']
  · obtain ⟨rfl, htwo⟩ := hclose
    have hcs : cs = '-' :: '>' :: cs.drop 2 := by
      rw [← List.take_append_drop 2 cs, htwo]
      rfl
    rw [hcs]
    exact ⟨rfl, rfl⟩
  -- The branches up to here look for whitespace, for a range and for a hyphen, alike in both texts.
  have hpasses : PassesEarly c cs :=
    ⟨by simpa using hw, fun hu => by simpa using fun hr => hrange ⟨hu, hr⟩,
      fun hc htwo => hclose ⟨hc, htwo⟩⟩
  have hpasses' : PassesEarly c.toLower (asciiLower cs) :=
    ⟨by rw [apply_toLower isWhitespace_toLower]; exact hpasses.whitespace,
      fun hu => by rw [startsRange_asciiLower]; exact hpasses.range ((u_toLower c).mp hu),
      fun hc => mt (take_close_asciiLower cs).mp (hpasses.close ((toLower_eq_iff rfl c).mp hc))⟩
  rw [next_late hpasses, next_late hpasses', ← asciiLower_cons, startsIdent_asciiLower]
  split
  · exact nameLexemes_asciiLower (c :: cs)
  next hident =>
    have hread := Numeral.read?_asciiLower (c :: cs)
    cases hn : Numeral.read? (c :: cs) with
    | some found =>
      rw [hn, Option.map_some] at hread
      obtain ⟨⟨n', rest'⟩, hn', heq⟩ := Option.map_eq_some_iff.mp hread
      obtain ⟨hnumeral, hrest⟩ := Prod.mk.inj heq
      obtain rfl : rest' = asciiLower found.2 := hrest
      rw [hn']
      exact numberLexemes_asciiLower hnumeral found.2
    | none =>
      rw [hn, Option.map_none, Option.map_eq_none_iff] at hread
      have hc := toLower_eq_of_not_startsIdent (Bool.eq_false_iff.mpr hident)
      rw [hread, hc]
      exact symbolLexemes_asciiLower hc cs

/-- A text and the text in lower case are cut in the same places. -/
theorem scan_asciiLower (cs : List Char) :
    (Lexeme.scan (asciiLower cs)).map Lexeme.lowered = (Lexeme.scan cs).map Lexeme.lowered := by
  fun_induction Lexeme.scan cs with
  | case1 => rw [asciiLower_nil, Lexeme.scan]
  | case2 c rest ih =>
    obtain ⟨hlexemes, hrest⟩ := next_asciiLower c rest
    rw [asciiLower_cons, Lexeme.scan_cons, hrest, List.map_append, List.map_append, hlexemes, ih]

/-! ## 8. Tokens -/

mutual

/-- A token with its texts in lower case. -/
def Token.lowered : Token → Token
  | .atom a => .atom a.lowered
  | .function name arguments => .function (asciiLower name) (listLowered arguments)
  | .block bracket content => .block bracket (listLowered content)

/-- Tokens with their texts in lower case. -/
def Token.listLowered : List Token → List Token
  | [] => []
  | t :: ts => t.lowered :: listLowered ts

end

theorem Token.listLowered_eq_map (ts : List Token) : listLowered ts = ts.map lowered := by
  induction ts with
  | nil => rfl
  | cons t ts ih => rw [listLowered, ih, List.map_cons]

/-- What was opened, with its name in lower case. -/
def Opener.lowered : Opener → Opener
  | .function name => .function (asciiLower name)
  | .block b => .block b

theorem Opener.bracket_lowered (o : Opener) : o.lowered.bracket = o.bracket := by cases o <;> rfl

/-- A frame with its texts in lower case. -/
def Frame.lowered (f : Frame) : Frame := ⟨f.opener.lowered, f.before.map Token.lowered⟩

theorem Frame.close_lowered (f : Frame) (content : List Token) :
    (f.close content).map Token.lowered = f.lowered.close (content.map Token.lowered) := by
  obtain ⟨opener, before⟩ := f
  cases opener <;>
    simp [close, Frame.lowered, Opener.lowered, Opener.token, Token.lowered,
      Token.listLowered_eq_map]

/-- Brackets are matched without regard to what stands in them, so nesting and lowering commute. The
induction is on the lexemes, with any brackets open. -/
theorem nest_lowered (frames : List Frame) (current : List Token) (ls : List Lexeme) :
    (nest frames current ls).map Token.lowered =
      nest (frames.map Frame.lowered) (current.map Token.lowered) (ls.map Lexeme.lowered) := by
  fun_induction nest frames current ls with
  | case1 frames current =>
    have hfold : (frames.foldl (fun content f => f.close content) current).map Token.lowered =
        (frames.map Frame.lowered).foldl (fun content f => f.close content)
          (current.map Token.lowered) := by
      induction frames generalizing current with
      | nil => rfl
      | cons f frames ih =>
        rw [List.foldl_cons, ih, Frame.close_lowered, List.map_cons, List.foldl_cons]
    rw [List.map_nil, nest, List.map_reverse, hfold]
  | case2 frames current a rest ih => exact ih
  | case3 frames current name rest ih => exact ih
  | case4 frames current b rest ih => exact ih
  | case5 current b rest ih => exact ih
  | case6 f frames current rest ih =>
    rw [List.map_cons, List.map_cons, Lexeme.lowered, nest,
      if_pos (show f.lowered.opener.bracket = f.opener.bracket from f.opener.bracket_lowered), ih,
      f.close_lowered]
  | case7 f frames current b rest h ih =>
    have h' : ¬ f.lowered.opener.bracket = b := by
      rw [Frame.lowered, f.opener.bracket_lowered]
      exact h
    rw [List.map_cons, List.map_cons, Lexeme.lowered, nest, if_neg h', ih]
    rfl

/-- The tokens of the text in lower case are the tokens of the text up to case. -/
theorem ofChars_asciiLower (cs : List Char) :
    (Token.ofChars (asciiLower cs)).map Token.lowered = (Token.ofChars cs).map Token.lowered := by
  rw [Token.ofChars, Token.ofChars, nest_lowered, nest_lowered, unifyBreaks_asciiLower,
    scan_asciiLower]

theorem Token.isComment_lowered (t : Token) : t.lowered.isComment = t.isComment := by
  cases t with
  | atom a => cases a <;> rfl
  | function name arguments => rfl
  | block bracket content => rfl

theorem Token.isSignificant_lowered (t : Token) : t.lowered.isSignificant = t.isSignificant := by
  cases t with
  | atom a => cases a <;> rfl
  | function name arguments => rfl
  | block bracket content => rfl

mutual

theorem Token.withoutComments_lowered : ∀ t : Token,
    t.lowered.withoutComments = t.withoutComments.lowered
  | .atom _ => rfl
  | .function name arguments => by
    rw [lowered, withoutComments, withoutComments, lowered, listWithoutComments_lowered arguments]
  | .block bracket content => by
    rw [lowered, withoutComments, withoutComments, lowered, listWithoutComments_lowered content]

theorem Token.listWithoutComments_lowered : ∀ ts : List Token,
    listWithoutComments (listLowered ts) = listLowered (listWithoutComments ts)
  | [] => rfl
  | t :: ts => by
    rw [listLowered, listWithoutComments, listWithoutComments, t.isComment_lowered,
      listWithoutComments_lowered ts, withoutComments_lowered t]
    split <;> rfl

end

/-- Letters of either case make integers of the same length. -/
theorem Lexeme.overlong?_lowered (l : Lexeme) : l.lowered.overlong? = l.overlong? := by
  have hnumeral : ∀ n : Numeral, n.lowered.overlong? = n.overlong? := fun n => by
    rw [Numeral.overlong?, n.isInteger_lowered]
    rfl
  cases l with
  | atom a => cases a <;> first | rfl | exact hnumeral _
  | openFunction name => rfl
  | openBlock b => rfl
  | close b => rfl

end CssExpand.Syntax
