import CssExpand.Proofs.Shorthand.Families
import CssExpand.Proofs.Value.Keywords
import Mathlib

/-!
# Flex settles its layer

Growth and shrinkage are plain numbers, and a third number is the basis. So the numbers have to come
back in their order, and none of the first two may be taken for a basis: every keyword and every
function that can be a basis starts with a letter, and a number does not (`Flex.not_isBasis`).
-/

set_option autoImplicit false

namespace CssExpand

open Syntax Value

namespace Flex

/-- A word that is a number is no other basis. -/
theorem not_isBasis {w : String} (h : isNumber w = true) : isBasis w = false := by
  have hkeyword : isOneOf ["auto", "content"] w = false :=
    isOneOf_eq_false_of_isNumber (by decide +kernel) h
  have hmath : startsWithOneOf mathStarts w = false :=
    startsWithOneOf_eq_false_of_isNumber (by decide +kernel) h
  obtain ⟨n, hn⟩ := isNumber_iff.mp h
  rw [isBasis, hkeyword, hmath, isDimension, isPercentage, hn]
  rfl

/-- Growth and shrinkage are numbers, and the basis is one by its looks or a number. -/
structure Sorted (p : String → Prop) (f : Flex) : Prop where
  grow : ∀ w ∈ f.grow, p w ∧ isNumber w = true
  shrink : ∀ w ∈ f.shrink, p w ∧ isNumber w = true
  basis : ∀ w ∈ f.basis, p w ∧ (isBasis w = true ∨ isNumber w = true)

/-- One more word of a flex, if there is a slot left for it. -/
theorem Sorted.add? {p : String → Prop} {f f' : Flex} (h : f.Sorted p) {w : String} (hw : p w)
    (ha : f.add? w = some f') : f'.Sorted p := by
  have hword : ∀ {q : String → Prop}, q w → ∀ v ∈ some w, p v ∧ q v := by
    rintro q hq v ⟨⟩
    exact ⟨hw, hq⟩
  rw [Flex.add?] at ha
  split at ha
  · next hbasis =>
    obtain rfl := Option.some.inj ha
    exact { h with basis := hword (.inl hbasis) }
  · split at ha
    · next hnumber =>
      split at ha
      · obtain rfl := Option.some.inj ha
        exact { h with grow := hword hnumber }
      · split at ha
        · obtain rfl := Option.some.inj ha
          exact { h with shrink := hword hnumber }
        · obtain rfl := Option.some.inj ha
          exact { h with basis := hword (.inr hnumber) }
    · cases ha

theorem isNumber_0 : isNumber "0" = true := by
  have h : number? "0" = some ⟨none, ['0'], none, none⟩ := by cbv
  rw [isNumber, h]
  rfl

theorem isNumber_1 : isNumber "1" = true := by
  have h : number? "1" = some ⟨none, ['1'], none, none⟩ := by cbv
  rw [isNumber, h]
  rfl

theorem isBasis_auto : isBasis "auto" = true := by
  have h : isOneOf ["auto", "content"] "auto" = true := by cbv
  rw [isBasis, h]
  rfl

theorem isBasis_zeroPercent : isBasis "0%" = true := by
  have h : loneToken? "0%" = some (.atom (.percentage ⟨none, ['0'], none, none⟩)) := by cbv
  rw [isBasis, isPercentage, h]
  simp

/-- The words of a flex, after the keywords that stand for all three slots. -/
theorem sorted_ofWords? {p : String → Prop} (hstock : ∀ w ∈ stockWords, p w) {ws : List String}
    {f : Flex} (h : ∀ w ∈ ws, p w) (hf : ofWords? ws = some f) : f.Sorted p := by
  have hnil : ({} : Flex).Sorted p := ⟨by simp, by simp, by simp⟩
  have hkeyword : ∀ {n : String}, n ∈ stockWords → isNumber n = true →
      (⟨some n, some n, some "auto"⟩ : Flex).Sorted p := by
    intro n hn hnumber
    refine ⟨?_, ?_, ?_⟩ <;> rintro w ⟨⟩
    · exact ⟨hstock n hn, hnumber⟩
    · exact ⟨hstock n hn, hnumber⟩
    · exact ⟨hstock "auto" (by simp [stockWords]), .inl isBasis_auto⟩
  unfold ofWords? at hf
  split at hf
  · next w =>
    rw [List.forall_mem_singleton] at h
    split at hf
    · obtain rfl := Option.some.inj hf
      exact hkeyword (by simp [stockWords]) isNumber_0
    · split at hf
      · obtain rfl := Option.some.inj hf
        exact hkeyword (by simp [stockWords]) isNumber_1
      · split at hf
        · next hnumber =>
          obtain rfl := Option.some.inj hf
          refine { hnil with grow := ?_ }
          rintro v ⟨⟩
          exact ⟨h, hnumber⟩
        · exact hnil.add? h hf
  · exact foldlM_keeps hnil (fun hw hc ha => hc.add? (h _ hw) ha) hf

/-- Two numbers and a basis are sorted into their slots. -/
theorem ofWords?_row {grow shrink basis : String} (hgrow : isNumber grow = true)
    (hshrink : isNumber shrink = true) (hbasis : isBasis basis = true ∨ isNumber basis = true) :
    ofWords? [grow, shrink, basis] = some ⟨some grow, some shrink, some basis⟩ := by
  have hg := not_isBasis hgrow
  have hs := not_isBasis hshrink
  cases hb : isBasis basis with
  | true => simp [ofWords?, add?, hg, hs, hb, hgrow, hshrink]
  | false =>
    have hnumber := hbasis.resolve_left (by simp [hb])
    simp [ofWords?, add?, hg, hs, hb, hgrow, hshrink, hnumber]

end Flex

/-- The slots of a flex as a row of three. -/
theorem Shorthand.settles_flex {p : String → Prop} (hp : Stocked p) {ws : List String}
    (h : ∀ w ∈ ws, p w) : Shorthand.flex.Settles p ws := by
  intro slots hslots
  obtain ⟨f, hf, rfl⟩ := Option.map_eq_some_iff.mp hslots
  have hs := Flex.sorted_ofWords? hp.stock h hf
  have hgrow := getD_cases hs.grow ⟨hp.stock "0" (by simp [stockWords]), Flex.isNumber_0⟩
  have hshrink := getD_cases hs.shrink ⟨hp.stock "1" (by simp [stockWords]), Flex.isNumber_1⟩
  have hbasis := getD_cases hs.basis
    ⟨hp.stock "0%" (by simp [stockWords]), .inl Flex.isBasis_zeroPercent⟩
  have hall : ∀ v ∈ Shorthand.flex.fill f.slots, p v := by
    simp only [Shorthand.fill, Shorthand.flex, Flex.slots, List.zipWith, List.forall_mem_cons]
    exact ⟨hgrow.1, hshrink.1, hbasis.1, by simp⟩
  have hrow := Flex.ofWords?_row hgrow.2 hshrink.2 hbasis.2
  rw [row_eq_fill fun v hv => hp.nonempty v (hall v hv)]
  refine ⟨?_, hall, _, congrArg (Option.map Flex.slots) hrow, rfl, rfl⟩
  simp [Shorthand.fill, Shorthand.flex, Flex.slots]

end CssExpand
