import CssExpand.Proofs.Longhands.Units
import CssExpand.Proofs.Shorthand.Interleaved
import CssExpand.Proofs.Value.Keywords
import Mathlib

/-!
# Words with units are of the same kind

A shorthand tells what a word is from its text: whether it is one of some keywords, whether it starts
like a function, whether it is a number or has a unit. A unit is put in behind a digit, and no keyword
and no name of a function that is asked for has digits. So all these questions have the same answer for
the word with units, but for one word: a zero, which is a number without its unit and a length or a
time with it. In an animation a zero is an iteration count (`AnimationWord.ofWord_of_isZero`), and in a
transition it is a property (`TransitionWord.ofWord_of_isZero`).
-/

set_option autoImplicit false

namespace CssExpand

open Syntax Value

/-! ## 1. The start of a word -/

namespace Text

/-- Lowering a sigma looks at the letters around it and past the characters that do not count. A digit
counts, so what is behind it does not matter. -/
theorem not_isCaseIgnorable_of_isDigit {d : Char} (hd : d.isDigit) : isCaseIgnorable d = false := by
  simp only [Char.isDigit, Bool.and_eq_true, decide_eq_true_eq, UInt32.le_iff_toNat_le] at hd
  obtain ⟨h0, h9⟩ := hd
  have h0' : 48 ≤ d.toNat := h0
  have h9' : d.toNat ≤ 57 := h9
  have hlow : d.toNat < 0x80 := by omega
  have hne : ∀ c : Char, c.toNat < 48 ∨ 57 < c.toNat → (d == c) = false := by
    intro c hc
    refine beq_false_of_ne fun heq => ?_
    subst heq
    omega
  rw [isCaseIgnorable, if_pos hlow, hne _ (by decide), hne _ (by decide), hne _ (by decide),
    hne _ (by decide), hne _ (by decide)]
  rfl

/-- Behind a digit it does not matter what comes. -/
theorem meetsCased_append_digit {d : Char} (hd : d.isDigit) (front cs : List Char) :
    meetsCased (front ++ d :: cs) = meetsCased (front ++ [d]) := by
  have hstop := not_isCaseIgnorable_of_isDigit hd
  induction front with
  | nil => rw [meetsCased, meetsCased]; simp [hstop]
  | cons c front ih =>
    rw [meetsCased, meetsCased] at ih ⊢
    cases hc : isCaseIgnorable c with
    | true => simpa [hc] using ih
    | false => simp [hc]

/-- What is in front of a digit is lowered whatever comes behind the digit. -/
theorem exists_lowerAfter_digit {d : Char} (hd : d.isDigit) (before front : List Char) :
    ∃ lowered, ∀ cs, ∃ rest, lowerAfter before (front ++ d :: cs) = lowered ++ d :: rest := by
  induction front generalizing before with
  | nil =>
    refine ⟨[], fun cs => ⟨lowerAfter (d :: before) cs, ?_⟩⟩
    have hsigma : d ≠ 'Σ' := by rintro rfl; exact absurd hd (by decide)
    have hdotted : d ≠ 'İ' := by rintro rfl; exact absurd hd (by decide)
    have hlow : d.toNat < 0x80 := by
      simp only [Char.isDigit, Bool.and_eq_true, decide_eq_true_eq, UInt32.le_iff_toNat_le] at hd
      have h9 : d.toNat ≤ 57 := hd.2
      omega
    rw [List.nil_append, lowerAfter, lowerBetween, if_neg hsigma, if_neg hdotted, simpleLower,
      if_pos hlow, toLower_of_isDigit hd]
    rfl
  | cons c front ih =>
    obtain ⟨lowered, hlowered⟩ := ih (c :: before)
    refine ⟨lowerBetween before c (front ++ [d]) ++ lowered, fun cs => ?_⟩
    obtain ⟨rest, hrest⟩ := hlowered cs
    refine ⟨rest, ?_⟩
    have hbetween : lowerBetween before c (front ++ d :: cs) =
        lowerBetween before c (front ++ [d]) := by
      rw [lowerBetween, lowerBetween, meetsCased_append_digit hd]
    rw [List.cons_append, lowerAfter, hbetween, hrest, List.append_assoc]

end Text

/-- Two texts are the same, or up to a digit. -/
theorem Padded.eq_or_digit {cs ds : List Char} (h : Padded cs ds) : ds = cs ∨
    ∃ front d cs' ds', d.isDigit = true ∧ cs = front ++ d :: cs' ∧ ds = front ++ d :: ds' := by
  induction h with
  | nil => exact .inl rfl
  | @keep c cs ds _ ih =>
    rcases ih with rfl | ⟨front, d, cs', ds', hd, rfl, rfl⟩
    · exact .inl rfl
    · exact .inr ⟨c :: front, d, cs', ds', hd, rfl, rfl⟩
  | @pad c pad cs ds hc _ _ _ => exact .inr ⟨[], c, cs, pad ++ ds, hc, rfl, rfl⟩

/-- A start without digits is not behind a digit. -/
theorem isPrefixOf_append_digit {start front : List Char} {d : Char} (hd : d.isDigit = true)
    (hs : Digitless start) (cs : List Char) :
    start.isPrefixOf (front ++ d :: cs) = start.isPrefixOf (front ++ [d]) := by
  have hnot : d ∉ start := fun hmem => by
    have := hs d hmem
    rw [hd] at this
    cases this
  have hmem : d ∈ front ++ [d] := List.mem_append_right front (List.mem_singleton_self d)
  have hiff := isPrefix_append_iff hmem hnot cs
  rw [List.append_assoc, List.singleton_append] at hiff
  rw [Bool.eq_iff_iff, List.isPrefixOf_iff_prefix, List.isPrefixOf_iff_prefix, hiff]

/-- A word that is one atom and no zero has no place for a unit. -/
theorem UnitRule.apply_of_loneToken? (r : UnitRule) {w : String} (hz : isZero w = false) {a : Atom}
    (ha : loneToken? w = some (.atom a)) : r.apply (.atom a) = .atom a := by
  refine apply_eq_self ?_
  cases a with
  | number n =>
    rw [isZero, number?, ha] at hz
    rw [hasBareZero, appliesTo, show n.isZero = false from hz]
    rfl
  | _ => rfl

/-! ## 2. Zeros -/

theorem isNumber_of_isZero {w : String} (h : isZero w = true) : isNumber w = true := by
  obtain ⟨n, hn, -⟩ := (Option.any_eq_true _ _).mp h
  rw [isNumber, hn]
  rfl

theorem isTime_of_isZero {w : String} (h : isZero w = true) : isTime w = false := by
  obtain ⟨n, hn⟩ := isNumber_iff.mp (isNumber_of_isZero h)
  rw [isTime, unit?, hn]
  rfl

theorem isEasing_of_isZero {w : String} (h : isZero w = true) : isEasing w = false := by
  have hnumber := isNumber_of_isZero h
  rw [isEasing, isOneOf_eq_false_of_isNumber (by decide) hnumber,
    startsWithOneOf_eq_false_of_isNumber (by decide) hnumber]
  rfl

/-- The value zero is not negative, however it is written. -/
theorem isCount_of_isZero {w : String} (h : isZero w = true) : Animation.isCount w = true := by
  obtain ⟨n, hn, hz⟩ := (Option.any_eq_true _ _).mp h
  rw [Animation.isCount, hn, Option.any_some, Numeral.isNonnegative, hz, Bool.or_true, Bool.or_true]

theorem AnimationWord.ofWord_of_isZero {w : String} (h : isZero w = true) :
    ofWord w = .iterationCount := by
  rw [ofWord, isTime_of_isZero h, isEasing_of_isZero h, isCount_of_isZero h]
  rfl

theorem TransitionWord.ofWord_of_isZero {w : String} (h : isZero w = true) :
    ofWord w = .property := by
  rw [ofWord, isTime_of_isZero h, isEasing_of_isZero h]
  rfl

/-! ## 3. Kinds of words -/

namespace Syntax.ReadBack

variable {w : String} (h : ReadBack w)
include h

/-- A start without digits is that of the word with units. -/
theorem startsWithOneOf_fill (r : UnitRule) {starts : List String}
    (hs : ∀ start ∈ starts, Digitless start.toList) :
    startsWithOneOf starts (r.fill w) = startsWithOneOf starts w := by
  rcases (h.padded_fill r).eq_or_digit with heq | ⟨front, d, cs, ds, hd, hw, hfill⟩
  · rw [String.toList_inj.mp heq]
  · obtain ⟨lowered, hlowered⟩ := Text.exists_lowerAfter_digit hd [] front
    obtain ⟨rest, hrest⟩ := hlowered cs
    obtain ⟨rest', hrest'⟩ := hlowered ds
    rw [Bool.eq_iff_iff, startsWithOneOf, startsWithOneOf, List.any_eq_true, List.any_eq_true,
      Text.lower, Text.lower, hw, hfill, hrest, hrest', String.toList_ofList, String.toList_ofList]
    refine exists_congr fun start => and_congr_right fun hstart => ?_
    rw [isPrefixOf_append_digit hd (hs start hstart) rest,
      isPrefixOf_append_digit hd (hs start hstart) rest']

theorem number?_fill (r : UnitRule) (hz : isZero w = false) : number? (r.fill w) = number? w := by
  rw [number?, number?, h.loneToken?_fill]
  cases ht : loneToken? w with
  | none => rfl
  | some t =>
    cases t with
    | atom a => rw [Option.map_some, r.apply_of_loneToken? hz ht]
    | function name arguments =>
      obtain ⟨inner, happly⟩ := r.apply_function name arguments
      rw [Option.map_some, happly]
    | block b content =>
      obtain ⟨inner, happly⟩ := r.apply_block b content
      rw [Option.map_some, happly]

theorem unit?_fill (r : UnitRule) (hz : isZero w = false) : unit? (r.fill w) = unit? w := by
  rw [unit?, unit?, h.loneToken?_fill]
  cases ht : loneToken? w with
  | none => rfl
  | some t =>
    cases t with
    | atom a => rw [Option.map_some, r.apply_of_loneToken? hz ht]
    | function name arguments =>
      obtain ⟨inner, happly⟩ := r.apply_function name arguments
      rw [Option.map_some, happly]
    | block b content =>
      obtain ⟨inner, happly⟩ := r.apply_block b content
      rw [Option.map_some, happly]

theorem isTime_fill (r : UnitRule) (hz : isZero w = false) : isTime (r.fill w) = isTime w := by
  rw [isTime, isTime, h.unit?_fill r hz]

theorem isEasing_fill (r : UnitRule) : isEasing (r.fill w) = isEasing w := by
  have hkeywords : ∀ k ∈ easingKeywords, Digitless k.toList := digitless_of_all (by decide +kernel)
  have hstarts : ∀ k ∈ easingStarts, Digitless k.toList := digitless_of_all (by decide +kernel)
  rw [isEasing, isEasing, h.isOneOf_fill r hkeywords, h.startsWithOneOf_fill r hstarts]

/-- A number with a unit is a number with a unit, and a function is the same function. -/
theorem yieldsNumber_fill (r : UnitRule) : yieldsNumber (r.fill w) = yieldsNumber w := by
  have hstarts : ∀ k ∈ mathStarts, Digitless k.toList := digitless_of_all (by decide +kernel)
  have hmath := h.startsWithOneOf_fill r hstarts
  rw [yieldsNumber, yieldsNumber, h.loneToken?_fill]
  cases loneToken? w with
  | none => rfl
  | some t =>
    cases t with
    | atom a =>
      rcases r.apply_atom a with ha | ⟨n, rfl, -, ha⟩
      · cases a <;> simp [ha, hmath]
      · simp [ha]
    | function name arguments =>
      obtain ⟨inner, happly⟩ := r.apply_function name arguments
      simp [happly, hmath]
    | block b content =>
      obtain ⟨inner, happly⟩ := r.apply_block b content
      simp [happly, hmath]

/-- A word of a transition stays what it is, unless it is a zero. -/
theorem transitionWord_fill (r : UnitRule) (hz : isZero w = false) :
    TransitionWord.ofWord (r.fill w) = TransitionWord.ofWord w := by
  rw [TransitionWord.ofWord, TransitionWord.ofWord, h.isTime_fill r hz, h.isEasing_fill]

/-- A word of an animation stays what it is, unless it is a zero. -/
theorem animationWord_fill (r : UnitRule) (hz : isZero w = false) :
    AnimationWord.ofWord (r.fill w) = AnimationWord.ofWord w := by
  have hdigitless : ([["infinite"], Animation.directionKeywords, Animation.fillModeKeywords,
      Animation.playStateKeywords].all fun keywords =>
        keywords.all fun k => k.toList.all (!·.isDigit)) = true := by decide +kernel
  have hkeywords := fun keywords hk =>
    h.isOneOf_fill r (digitless_of_all (List.all_eq_true.mp hdigitless keywords hk))
  rw [AnimationWord.ofWord, AnimationWord.ofWord, Animation.isCount, Animation.isCount,
    h.isTime_fill r hz, h.isEasing_fill, h.number?_fill r hz, hkeywords ["infinite"] (by simp),
    hkeywords Animation.directionKeywords (by simp),
    hkeywords Animation.fillModeKeywords (by simp), hkeywords Animation.playStateKeywords (by simp)]

end Syntax.ReadBack

end CssExpand
