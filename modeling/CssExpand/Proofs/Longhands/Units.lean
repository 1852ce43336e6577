import CssExpand.Proofs.Passes.Commuting
import CssExpand.Proofs.Passes.Refusals
import CssExpand.Proofs.Passes.SelfContained
import CssExpand.Proofs.Units.Filled
import CssExpand.Proofs.Value.Keywords
import Mathlib

/-!
# Longhands with units

A shorthand that takes lengths is taken apart by what its words are: a style, a width or a color, or
just the first or the second of them. A unit behind a zero changes none of that. A word with a digit
is no keyword, with or without the unit (`ReadBack.isOneOf_fill`), and a zero is a length either way
(`ReadBack.isLength_fill`). So the value with units is taken apart into the same longhands, with units
in their values (`Compound.takeApart_fill`).

`columns` takes no units, and its words are sorted by whether they have one. But then the width of the
columns is a dimension, which has its unit already (`Columns.anyBareZero_width`).
-/

set_option autoImplicit false

namespace CssExpand

open Syntax Value Forest

/-! ## 1. What a word with units is -/

/-- The rule for a property that is a length. -/
def lengthRule : UnitRule := ⟨.length, false⟩

theorem not_digitless_of_anyBareZero {r : UnitRule} {value : String}
    (h : r.anyBareZero (Token.ofChars value.toList) = true) : ¬Digitless value.toList := by
  intro hd
  obtain ⟨n, hn⟩ := number_mem_of_anyBareZero h
  exact number_not_mem_ofChars hd n hn

theorem digitless_styleKeywords : ∀ w ∈ BorderPart.styleKeywords, Digitless w.toList :=
  digitless_of_all (by decide +kernel)

theorem digitless_widthKeywords : ∀ w ∈ BorderPart.widthKeywords, Digitless w.toList :=
  digitless_of_all (by decide +kernel)

namespace Syntax.ReadBack

variable {w : String} (h : ReadBack w)
include h

theorem isOneOf_fill (r : UnitRule) {keywords : List String}
    (hk : ∀ k ∈ keywords, Digitless k.toList) : isOneOf keywords (r.fill w) = isOneOf keywords w := by
  cases hz : r.anyBareZero (Token.ofChars w.toList) with
  | false => rw [h.fill_eq_self r hz]
  | true =>
    have hw := not_digitless_of_anyBareZero hz
    rw [isOneOf_eq_false hk hw, isOneOf_eq_false hk ((h.padded_fill r).not_digitless hw)]

/-- A word of one token is one of the same token, with units. -/
theorem loneToken?_fill (r : UnitRule) : loneToken? (r.fill w) = (loneToken? w).map r.apply := by
  have hfilter : (tokens (r.fill w)).filter Token.isSignificant =
      ((tokens w).filter Token.isSignificant).map r.apply := by
    rw [h.tokens_fill, r.applyAll_eq_map, List.filter_map]
    congr 1
    exact List.filter_congr fun t _ => r.isSignificant_apply t
  rw [loneToken?, loneToken?, hfilter]
  rcases (tokens w).filter Token.isSignificant with - | ⟨t, - | ⟨u, ts⟩⟩
  · rfl
  · cases t with
    | atom a =>
      rcases r.apply_atom a with ha | ⟨n, rfl, -, ha⟩
      · cases a <;> simp [ha]
      · simp [ha]
    | function name arguments =>
      obtain ⟨inner, happly⟩ := r.apply_function name arguments
      simp [happly]
    | block b content =>
      obtain ⟨inner, happly⟩ := r.apply_block b content
      simp [happly]
  · simp

/-- A bare zero is a length before it has a unit and after. Any other word is not changed. -/
theorem isLength_fill : isLength (lengthRule.fill w) = isLength w := by
  rw [isLength, isLength, unit?, unit?, isZero, isZero, number?, number?, h.loneToken?_fill]
  cases loneToken? w with
  | none => rfl
  | some t =>
    rw [Option.map_some]
    cases t with
    | atom a =>
      cases a with
      | number n =>
        cases hz : n.isZero with
        | true =>
          have hpx : String.ofList (Text.asciiLower ['p', 'x']) ∈ lengthUnits := by decide +kernel
          have happly : lengthRule.apply (.atom (.number n)) = .atom (.dimension n ['p', 'x']) := by
            rw [UnitRule.apply, UnitRule.appliesTo, hz]
            rfl
          simpa [happly, hz] using hpx
        | false =>
          have happly : lengthRule.apply (.atom (.number n)) = .atom (.number n) := by
            rw [UnitRule.apply, UnitRule.appliesTo, hz]
            rfl
          simp [happly]
      | _ => rfl
    | function name arguments =>
      obtain ⟨inner, happly⟩ := lengthRule.apply_function name arguments
      rw [happly]
    | block b content =>
      obtain ⟨inner, happly⟩ := lengthRule.apply_block b content
      rw [happly]

theorem ofWord_fill : BorderPart.ofWord (lengthRule.fill w) = BorderPart.ofWord w := by
  rw [BorderPart.ofWord, BorderPart.ofWord, h.isLength_fill,
    h.isOneOf_fill _ digitless_styleKeywords, h.isOneOf_fill _ digitless_widthKeywords]

end Syntax.ReadBack

/-! ## 2. Taking apart a value with units -/

/-- A decision with other values. -/
def Decision.mapValues (f : String → String) : Decision → Decision
  | .replace pairs => .replace (pairs.map fun pair => (pair.1, f pair.2))
  | .keep reason => .keep reason

namespace Value

variable {f : String → String}

/-- Four sides with other words. -/
def Sides.mapWords (f : String → String) (s : Sides) : Sides :=
  ⟨f s.top, f s.right, f s.bottom, f s.left⟩

theorem Sides.ofWords?_map (f : String → String) (ws : List String) :
    Sides.ofWords? (ws.map f) = (Sides.ofWords? ws).map (mapWords f) := by
  match ws with
  | [] | [_] | [_, _] | [_, _, _] | [_, _, _, _] => rfl
  | _ :: _ :: _ :: _ :: _ :: _ => rfl

namespace Border

/-- A border line with other words. -/
def mapWords (f : String → String) (b : Border) : Border where
  width := b.width.map f
  style := b.style.map f
  color := b.color.map f
  collisions := b.collisions
  keywords := b.keywords.map f

theorem get_mapWords (b : Border) (p : BorderPart) : (b.mapWords f).get p = (b.get p).map f := by
  cases p <;> rfl

theorem isValid_mapWords (b : Border) : (b.mapWords f).isValid = b.isValid := by
  simp only [isValid, values, BorderPart.all, List.map_cons, get_mapWords, List.any_cons,
    Option.isSome_map]
  simp [mapWords]

theorem add_mapWords (b : Border) {w : String}
    (hk : isOneOf wideKeywords (f w) = isOneOf wideKeywords w)
    (hp : BorderPart.ofWord (f w) = BorderPart.ofWord w) :
    (b.mapWords f).add (f w) = (b.add w).mapWords f := by
  rw [add, add, hk, hp]
  split
  · simp [mapWords]
  · simp only [get_mapWords, Option.isSome_map]
    cases BorderPart.ofWord w <;> split <;> rfl

/-- A border line is sorted the same way if no word becomes one of another kind. -/
theorem ofWords_map {ws : List String}
    (h : ∀ w ∈ ws, isOneOf wideKeywords (f w) = isOneOf wideKeywords w ∧
      BorderPart.ofWord (f w) = BorderPart.ofWord w) :
    ofWords (ws.map f) = (ofWords ws).mapWords f := by
  have hfold : ∀ b : Border,
      (ws.map f).foldl add (b.mapWords f) = (ws.foldl add b).mapWords f := by
    induction ws with
    | nil => exact fun b => rfl
    | cons w ws ih =>
      intro b
      rw [List.forall_mem_cons] at h
      rw [List.map_cons, List.foldl_cons, List.foldl_cons, b.add_mapWords h.1.1 h.1.2, ih h.2]
  exact hfold {}

end Border

end Value

theorem readBack_openParts : ∀ w ∈ openParts, ReadBack w := fun w hw =>
  readBack_of_isLegible (isLegible_openParts w hw).1

/-- What stands for parts left out has no zero. -/
theorem fill_openParts : ∀ w ∈ openParts, lengthRule.fill w = w := by
  have hdigitless : ∀ w ∈ openParts, Digitless w.toList := digitless_of_all (by decide +kernel)
  intro w hw
  refine (readBack_openParts w hw).fill_eq_self _ (Bool.eq_false_iff.mpr fun hz => ?_)
  exact not_digitless_of_anyBareZero hz (hdigitless w hw)

/-- A shorthand of lengths with units is taken apart into the same longhands, with units. -/
theorem Compound.takeApart_fill {s : Compound} (hs : s ≠ .columns) {value : String}
    (h : ReadBack value) (hw : WordsAlone value) :
    s.takeApart (lengthRule.fill value) = (s.takeApart value).mapValues lengthRule.fill := by
  have hwords := words_fill h hw lengthRule
  have hline : Border.ofWords (words (lengthRule.fill value)) =
      (Border.ofWords (words value)).mapWords lengthRule.fill := by
    rw [hwords]
    refine Border.ofWords_map fun w hmem => ?_
    have hword := readBack_of_mem_words h hw hmem
    exact ⟨hword.isOneOf_fill _ digitless_wideKeywords, hword.ofWord_fill⟩
  have hsides : Sides.ofWords? (words (lengthRule.fill value)) =
      (Sides.ofWords? (words value)).map (Sides.mapWords lengthRule.fill) := by
    rw [hwords, Sides.ofWords?_map]
  cases s with
  | box name =>
    rw [takeApart, takeApart, boxLonghands, boxLonghands, hsides]
    cases Sides.ofWords? (words value) <;> rfl
  | columns => exact absurd rfl hs
  | border b =>
    cases b with
    | all =>
      rw [takeApart, takeApart, BorderShorthand.takeApart, BorderShorthand.takeApart, hline,
        Border.isValid_mapWords]
      split <;> rfl
    | side side =>
      rw [takeApart, takeApart, BorderShorthand.takeApart, BorderShorthand.takeApart]
      simp only [hline, Border.isValid_mapWords]
      split
      -- the stock words hold no bare zero, so an open slot may be filled before or after
      · have hopen : ∀ p : BorderPart, lengthRule.fill p.default = p.default := fun p =>
          fill_openParts _ (by cases p <;> simp [openParts, BorderPart.default])
        have hfilled : ∀ p, ((Border.ofWords (words value)).mapWords lengthRule.fill).getFilled p =
            lengthRule.fill ((Border.ofWords (words value)).getFilled p) := by
          intro p
          rw [Border.getFilled, Border.getFilled, Border.get_mapWords]
          cases (Border.ofWords (words value)).get p with
          | none => exact (hopen p).symm
          | some w => rfl
        simp only [hfilled, Decision.mapValues, List.map_map, Function.comp_def]
      · rfl
    | part part =>
      rw [takeApart, takeApart, BorderShorthand.takeApart, BorderShorthand.takeApart, hsides]
      cases Sides.ofWords? (words value) <;> rfl

/-! ## 3. Widths of columns -/

theorem UnitRule.anyBareZero_filter (r : UnitRule) (ts : List Token) :
    r.anyBareZero (ts.filter Token.isSignificant) = r.anyBareZero ts := by
  induction ts with
  | nil => rfl
  | cons t ts ih =>
    cases ht : t.isSignificant with
    | true => rw [List.filter_cons_of_pos ht, anyBareZero, anyBareZero, ih]
    | false =>
      have hnone : r.hasBareZero t = false := by
        cases t with
        | atom a => cases a <;> first | rfl | cases ht
        | _ => cases ht
      rw [List.filter_cons_of_neg (by simp [ht]), anyBareZero, hnone, Bool.false_or, ih]

/-- A dimension has its unit already. -/
theorem anyBareZero_of_isDimension {w : String} (h : isDimension w = true) (r : UnitRule) :
    r.anyBareZero (Token.ofChars w.toList) = false := by
  rw [← r.anyBareZero_listWithoutComments, ← tokens, ← r.anyBareZero_filter]
  rw [isDimension, loneToken?] at h
  rcases hts : (tokens w).filter Token.isSignificant with - | ⟨t, - | ⟨u, ts⟩⟩
  · rfl
  · rw [hts] at h
    cases t with
    | atom a => cases a <;> first | rfl | simp at h
    | _ => simp at h
  · rw [hts] at h
    simp at h

/-- The width of columns has no zero without a unit. -/
theorem Columns.anyBareZero_width {ws : List String} {c : Columns} (h : Columns.ofWords ws = .ok c) :
    lengthRule.anyBareZero (Token.ofChars (c.width.getD "auto").toList) = false := by
  cases hw : c.width with
  | none =>
    have hauto : ∀ w ∈ ["auto"], Digitless w.toList := digitless_of_all (by decide +kernel)
    refine Bool.eq_false_iff.mpr fun hz => not_digitless_of_anyBareZero hz ?_
    exact hauto _ List.mem_cons_self
  | some w => exact anyBareZero_of_isDimension (isDimension_of_ofWords h w hw) lengthRule

end CssExpand
