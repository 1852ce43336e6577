import CssExpand.Proofs.Passes.Refusals
import CssExpand.Proofs.Shorthand.Font
import CssExpand.Proofs.Value.Keywords
import CssExpand.Proofs.Value.Kinds
import Mathlib

/-!
# The grammar of fonts

A font is cut at the rightmost of its words that holds a size (`Font.SizedAt`). The words before the
size may each be `normal`, a style, a variant, a weight or a stretch, in any order and number, and the
leftmost of a kind counts. A word is of one of these kinds at most (`FontWord.eq_of_fits`), so the order
in which the kinds are tried shows nowhere.
-/

set_option autoImplicit false

namespace CssExpand

open Syntax Value

/-! ## 1. Words before the size -/

namespace FontWord

/-- The words that are known to be of a kind. -/
def keywords : FontWord → List String
  | .normal => ["normal"]
  | .style => Font.styleKeywords
  | .variant => Font.variantKeywords
  | .weight => Font.weightKeywords
  | .stretch => Font.stretchKeywords

/-- Whether a word is of a kind, whatever else it is. A number in range is a weight, too. -/
def Fits (word : String) (kind : FontWord) : Bool :=
  isOneOf kind.keywords word || (kind == .weight && (number? word).any (·.isOneToThousand))

theorem digitless_keywords (kind : FontWord) :
    (kind.keywords.all fun w => w.toList.all (!·.isDigit)) = true := by
  cases kind <;> decide +kernel

theorem disjoint_keywords {kind other : FontWord} (h : kind ≠ other) :
    ∀ k ∈ kind.keywords, k ∉ other.keywords := by
  cases kind <;> cases other <;> first | exact absurd rfl h | decide +kernel

/-- A number is no keyword. -/
theorem not_isOneOf_of_number? {w : String} {p : Numeral → Bool} (h : (number? w).any p = true)
    (kind : FontWord) : isOneOf kind.keywords w = false := by
  obtain ⟨n, hn, -⟩ := (Option.any_eq_true ..).mp h
  refine isOneOf_eq_false_of_isNumber (digitless_keywords kind) ?_
  rw [isNumber, hn, Option.isSome_some]

/-- A word is of one kind at most. -/
theorem eq_of_fits {w : String} {kind other : FontWord} (h : Fits w kind = true)
    (ho : Fits w other = true) : kind = other := by
  rw [Fits, Bool.or_eq_true, Bool.and_eq_true, beq_iff_eq] at h ho
  rcases h with h | ⟨rfl, hn⟩
  · rcases ho with ho | ⟨rfl, hn⟩
    · by_contra hne
      rw [isOneOf_eq_false_of_disjoint (disjoint_keywords hne) h] at ho
      cases ho
    · rw [not_isOneOf_of_number? hn] at h
      cases h
  · rcases ho with ho | ⟨rfl, -⟩
    · rw [not_isOneOf_of_number? hn] at ho
      cases ho
    · rfl

theorem fits_eq {w : String} {kind : FontWord} (h : Fits w kind = true) (other : FontWord) :
    Fits w other = decide (kind = other) := by
  rw [Bool.eq_iff_iff, decide_eq_true_eq]
  exact ⟨eq_of_fits h, fun heq => heq ▸ h⟩

/-- The first rule that a word fits gives its kind, and there is none only if the word is of no
kind. -/
theorem fits_ofWord? (w : String) :
    (∃ kind, ofWord? w = some kind ∧ Fits w kind = true) ∨
      (ofWord? w = none ∧ ∀ kind, Fits w kind = false) := by
  rw [ofWord?]
  split
  · next h => exact .inl ⟨.normal, rfl, by simp [Fits, keywords, h]⟩
  · next hnormal =>
    split
    · next h => exact .inl ⟨.style, rfl, by simp [Fits, keywords, h]⟩
    · next hstyle =>
      split
      · next h => exact .inl ⟨.variant, rfl, by simp [Fits, keywords, h]⟩
      · next hvariant =>
        split
        · next h =>
          rw [Font.isWeight, Bool.or_eq_true] at h
          exact .inl ⟨.weight, rfl, by simpa [Fits, keywords] using h⟩
        · next hweight =>
          rw [Font.isWeight, Bool.or_eq_true, not_or] at hweight
          split
          · next h => exact .inl ⟨.stretch, rfl, by simp [Fits, keywords, h]⟩
          · next hstretch =>
            refine .inr ⟨rfl, fun kind => ?_⟩
            cases kind <;> simp [Fits, keywords, *]

theorem ofWord?_eq_some {w : String} {kind : FontWord} (h : Fits w kind = true) :
    ofWord? w = some kind := by
  rcases fits_ofWord? w with ⟨other, hother, hfits⟩ | ⟨-, hnone⟩
  · rw [hother, eq_of_fits hfits h]
  · rw [hnone kind] at h
    cases h

theorem ofWord?_eq_none {w : String} (h : ∀ kind, Fits w kind = false) : ofWord? w = none := by
  rcases fits_ofWord? w with ⟨kind, -, hfits⟩ | ⟨hnone, -⟩
  · rw [h kind] at hfits
    cases hfits
  · exact hnone

end FontWord

namespace Font

open FontWord (Fits)

/-- The words before the size are gone through from right to left, so the leftmost of a kind is the
last one that counts. -/
theorem foldlM_add?_eq_some {before : List String} (h : ∀ w ∈ before, ∃ kind, Fits w kind = true)
    (sized : Font) :
    before.reverse.foldlM add? sized = some { sized with
      style := (before.find? (Fits · .style)).or sized.style
      variant := (before.find? (Fits · .variant)).or sized.variant
      weight := (before.find? (Fits · .weight)).or sized.weight
      stretch := (before.find? (Fits · .stretch)).or sized.stretch } := by
  induction before with
  | nil => rfl
  | cons w before ih =>
    rw [List.forall_mem_cons] at h
    obtain ⟨⟨kind, hkind⟩, hbefore⟩ := h
    -- the leftmost word is sorted last, so it overrides what was found of its kind
    rw [List.reverse_cons, List.foldlM_append, ih hbefore]
    simp only [Option.bind_eq_bind, Option.bind_some, List.foldlM_cons, List.foldlM_nil, add?,
      FontWord.ofWord?_eq_some hkind, Option.map_some, List.find?_cons, FontWord.fits_eq hkind]
    cases kind <;> rfl

/-- A word that is of no kind refuses the font, wherever it stands before the size. -/
theorem foldlM_add?_eq_none {before : List String} {w : String} (hw : w ∈ before)
    (h : ∀ kind, Fits w kind = false) (sized : Font) :
    before.reverse.foldlM add? sized = none := by
  induction before with
  | nil => cases hw
  | cons v before ih =>
    rw [List.reverse_cons, List.foldlM_append]
    rcases List.mem_cons.mp hw with rfl | hw
    · -- the words to the right of it may have been refused already
      cases before.reverse.foldlM add? sized with
      | none => rfl
      | some f => simp [add?, FontWord.ofWord?_eq_none h]
    · rw [ih hw]
      rfl

/-! ## 2. The size -/

/-- Words with the rightmost one that holds a size, before its first slash if it has one. There is one
such cut at most, because a word behind it would be further to the right. -/
structure SizedAt (ws before : List String) (word : String) (after : List String) : Prop where
  eq : ws = before ++ word :: after
  size : isSize (beforeSlash word) = true
  after : ∀ w ∈ after, isSize (beforeSlash w) = false

theorem cutAtLast?_of_sizedAt {ws before after : List String} {word : String}
    (h : SizedAt ws before word after) :
    cutAtLast? (isSize ∘ beforeSlash) ws = some (before, word, after) := by
  have hsize : (isSize ∘ beforeSlash) word = true := by rw [Function.comp_apply, h.size]
  have hafter : ∀ w ∈ after, (isSize ∘ beforeSlash) w = false := fun w hw => by
    rw [Function.comp_apply, h.after w hw]
  rw [h.eq, cutAtLast?_append hsize hafter]

/-- What the word that holds the size and the words behind it say. -/
def sized (word : String) (after : List String) : Font where
  size := some (beforeSlash word)
  lineHeight := afterSlash? word
  family := if after.isEmpty then none else some (" ".intercalate after)

theorem ofWords?_of_sizedAt {ws before after : List String} {word : String}
    (h : SizedAt (glueSlashes ws) before word after) :
    ofWords? ws = before.reverse.foldlM add? (sized word after) := by
  rw [ofWords?, cutAtLast?_of_sizedAt h]
  rfl

theorem assign_of_sizedAt {ws before after : List String} {word : String}
    (h : SizedAt (glueSlashes ws) before word after) :
    Shorthand.font.assign ws = (before.reverse.foldlM add? (sized word after)).map slots := by
  rw [← ofWords?_of_sizedAt h]
  rfl

theorem assign_of_unsized {ws : List String}
    (h : ∀ w ∈ glueSlashes ws, isSize (beforeSlash w) = false) :
    Shorthand.font.assign ws = none := by
  have hcut : cutAtLast? (isSize ∘ beforeSlash) (glueSlashes ws) = none :=
    cutAtLast?_eq_none.mpr fun w hw => by rw [Function.comp_apply, h w hw]
  show (ofWords? ws).map slots = none
  rw [ofWords?, hcut]
  rfl

/-- Words either hold no size or have a rightmost one that does. -/
theorem unsized_or_sizedAt (ws : List String) :
    (∀ w ∈ ws, isSize (beforeSlash w) = false) ∨
      ∃ before word after, SizedAt ws before word after := by
  cases hcut : cutAtLast? (isSize ∘ beforeSlash) ws with
  | none =>
    refine .inl fun w hw => ?_
    rw [← Function.comp_apply (f := isSize), cutAtLast?_eq_none.mp hcut w hw]
  | some cut =>
    obtain ⟨before, word, after⟩ := cut
    obtain ⟨heq, hsize, hafter⟩ := of_cutAtLast? hcut
    simp only [Function.comp_apply] at hsize hafter
    exact .inr ⟨before, word, after, heq, hsize, hafter⟩

/-! ## 3. The grammar -/

/-- Words make up a font unless none of them holds a size, or one before the rightmost size is of no
kind. The size and the line height are that word cut at its first slash, the family is what stands
behind it, and of each kind before it the leftmost word counts. Nothing is read for it but words and
what stands before a slash in them.

The words before the size are gone through from the right, so the word that is left standing in a slot is
the leftmost. In which order the kinds are tried does not show, as no word is of two of them. -/
theorem assign_grammar (ws : List String) :
    (Shorthand.font.assign ws = none ↔
      (∀ w ∈ glueSlashes ws, isSize (beforeSlash w) = false) ∨
        ∃ before word after, SizedAt (glueSlashes ws) before word after ∧
          ∃ w ∈ before, ∀ kind, Fits w kind = false) ∧
    (∀ before word after, SizedAt (glueSlashes ws) before word after →
      (∀ w ∈ before, ∃ kind, Fits w kind = true) →
      Shorthand.font.assign ws =
        some [before.find? (Fits · .style), before.find? (Fits · .variant),
          before.find? (Fits · .weight), before.find? (Fits · .stretch),
          some (beforeSlash word), afterSlash? word,
          if after = [] then none else some (" ".intercalate after)]) ∧
    ((∀ w ∈ glueSlashes ws, checkIntegers w = .ok () ∧ checkIntegers (beforeSlash w) = .ok ()) →
      checkWords (Shorthand.font.reads ws) = .ok ()) := by
  refine ⟨⟨fun hnone => ?_, ?_⟩, fun before word after hcut hfit => ?_, fun hread => ?_⟩
  · -- a font that is refused for its words has one of no kind
    rcases unsized_or_sizedAt (glueSlashes ws) with hunsized | ⟨before, word, after, hcut⟩
    · exact .inl hunsized
    · refine .inr ⟨before, word, after, hcut, ?_⟩
      by_contra hall
      have hfit : ∀ w ∈ before, ∃ kind, Fits w kind = true := by
        intro w hw
        by_contra hno
        exact hall ⟨w, hw, fun kind => Bool.eq_false_iff.mpr fun h => hno ⟨kind, h⟩⟩
      rw [assign_of_sizedAt hcut, foldlM_add?_eq_some hfit] at hnone
      cases hnone
  · rintro (hunsized | ⟨before, word, after, hcut, w, hw, hno⟩)
    · rw [assign_of_unsized hunsized]
    · rw [assign_of_sizedAt hcut, foldlM_add?_eq_none hw hno, Option.map_none]
  · rw [assign_of_sizedAt hcut, foldlM_add?_eq_some hfit]
    simp [slots, sized, List.isEmpty_iff]
  · rw [checkWords_eq_ok]
    intro text htext
    rcases List.mem_append.mp (readParts_subset ws htext) with hmem | hmem
    · exact (hread text hmem).1
    · obtain ⟨w, hw, rfl⟩ := List.mem_map.mp hmem
      exact (hread w hw).2

/-- A weight before a size with a line height, the slash between them set off by spaces. -/
theorem assign_grammar_slash :
    SizedAt (glueSlashes ["bold", "12px", "/", "1.5", "serif"]) ["bold"] "12px/1.5" ["serif"] ∧
      (∀ w ∈ ["bold"], ∃ kind, Fits w kind = true) ∧
      Shorthand.font.assign ["bold", "12px", "/", "1.5", "serif"] =
        some [none, none, some "bold", none, some "12px", some "1.5", some "serif"] := by
  have hcut : SizedAt (glueSlashes ["bold", "12px", "/", "1.5", "serif"]) ["bold"] "12px/1.5"
      ["serif"] := by
    refine ⟨by decide, ?_, ?_⟩
    · have hlength : isLength "12px" = true := by cbv
      have hbefore : beforeSlash "12px/1.5" = "12px" := by decide
      rw [hbefore, isSize, isLengthPercentage, hlength]
      simp
    · rw [List.forall_mem_singleton]
      cbv
  have hbold : Fits "bold" .weight = true := by
    have h : isOneOf Font.weightKeywords "bold" = true := by cbv
    rw [Fits, FontWord.keywords, h, Bool.true_or]
  have hfit : ∀ w ∈ ["bold"], ∃ kind, Fits w kind = true := by
    rw [List.forall_mem_singleton]
    exact ⟨.weight, hbold⟩
  refine ⟨hcut, hfit, ?_⟩
  rw [(assign_grammar _).2.1 _ _ _ hcut hfit]
  simp [FontWord.fits_eq hbold, beforeSlash, afterSlash?]

end Font

end CssExpand
