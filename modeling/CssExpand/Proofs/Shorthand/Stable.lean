import CssExpand.Proofs.Shorthand.Flex
import CssExpand.Proofs.Shorthand.Font
import CssExpand.Revision.Defaults
import Mathlib

/-!
# Completing once is enough

A value that was completed is left alone when it is completed again (`complete_completed`). This
holds of every known shorthand and every value whose words are read as they are written
(`Shorthand.accepts`). It does not hold of all values: a word that ends in an escape loses the blank
that ends the escape, and the space that comes after it in the completed value is taken for that
blank (`complete_escapedName`).
-/

set_option autoImplicit false

namespace CssExpand

open Syntax Value

/-! ## 1. The known shorthands -/

namespace Shorthand

/-- The words that a shorthand sorts; a font glues them at slashes first. -/
def sortedWords (s : Shorthand) (layer : String) : List String :=
  if s.name = "font" then glueSlashes (words layer) else words layer

/-- Whether a word that a shorthand sorts is found again where it is written. -/
def accepts (s : Shorthand) (w : String) : Bool :=
  isLegible w && (!s.layered || isCommaless w) && (s.name != "font" || isSided w)

theorem Writes.of_accepts {s : Shorthand} {p : String → Prop} {w : String}
    (h : s.accepts w = true) (hw : p w) : s.Writes p w ∧ (s.name = "font" → isSided w = true) := by
  simp only [accepts, Bool.and_eq_true, Bool.or_eq_true, Bool.not_eq_true', bne_iff_ne] at h
  obtain ⟨⟨hlegible, hcomma⟩, hsided⟩ := h
  exact ⟨⟨isWord_of_isLegible hlegible, fun hl => hcomma.resolve_left (by simp [hl]), hw⟩,
    fun hn => hsided.resolve_left (by simp [hn])⟩

/-- Every known shorthand but the font settles its layers, whatever their words have in common. -/
theorem settles_standard {s : Shorthand} (hs : s ∈ Registry.standard) (hn : s.name ≠ "font")
    {p : String → Prop} (hp : Stocked p) {ws : List String} (h : ∀ w ∈ ws, p w) :
    s.Settles p ws := by
  simp only [Registry.standard, List.mem_cons, List.not_mem_nil, or_false] at hs
  rcases hs with rfl | rfl | rfl | rfl | rfl | rfl | rfl | rfl
  · exact settles_animation hp h
  · exact settles_transition hp h
  · exact settles_boxShadow hp h
  · exact settles_flex hp h
  · exact settles_gap hp.nonempty h
  · exact settles_listStyle hp h
  · exact absurd rfl hn
  · exact settles_outline hp h

/-- Only the font joins its words by anything else than spaces. -/
theorem font_or_joinPresent {s : Shorthand} (hs : s ∈ Registry.standard) :
    s = .font ∨ s.name ≠ "font" ∧ s.join = joinPresent := by
  simp only [Registry.standard, List.mem_cons, List.not_mem_nil, or_false] at hs
  rcases hs with rfl | rfl | rfl | rfl | rfl | rfl | rfl | rfl
  case inr.inr.inr.inr.inr.inr.inl => exact .inl rfl
  all_goals exact .inr ⟨by decide, rfl⟩

/-- Every known shorthand restores the layers whose words it accepts. -/
theorem restores_standard {p : String → Prop} (hp : Admits p) {s : Shorthand}
    (hs : s ∈ Registry.standard) {layer : String}
    (h : ∀ w ∈ s.sortedWords layer, s.accepts w = true ∧ p w) : s.Restores p (words layer) := by
  have hwrites : ∀ w ∈ s.sortedWords layer, s.Writes p w ∧ (s.name = "font" → isSided w = true) :=
    fun w hw => Writes.of_accepts (h w hw).1 (h w hw).2
  rw [sortedWords] at hwrites
  rcases font_or_joinPresent hs with rfl | ⟨hn, hjoin⟩
  · -- a font is glued at its slashes first, and writes one of its own
    have hname : Shorthand.font.name = "font" := rfl
    rw [if_pos hname] at hwrites
    exact restores_font hp fun w hw => ⟨(hwrites w hw).1, (hwrites w hw).2 hname⟩
  · rw [if_neg hn] at hwrites
    have hsettles := settles_standard hs hn (stocked_writes hp s) fun w hw => (hwrites w hw).1
    exact hsettles.restores hjoin

end Shorthand

/-! ## 2. Values of declarations -/

theorem admits_all : Admits fun _ => True := ⟨fun _ _ => trivial, fun _ _ _ => trivial⟩

/-- What it takes for a value to be replaced by its completed form. -/
theorem complete_eq_replace {registry : Registry} {ignored : Ignored} {prop value : String}
    {pairs : List (String × String)} (h : complete registry ignored prop value = .replace pairs) :
    ∃ s completed, registry.find? (Text.lower prop) = some s ∧ s.complete value = some completed ∧
      completed ≠ value ∧ pairs = [(Text.lower prop, completed)] := by
  rw [complete] at h
  split at h
  · cases h
  · dsimp only at h
    split at h
    · cases h
    · next s hs =>
      split at h
      · cases h
      · next completed hcompleted =>
        split at h
        · cases h
        · next hne => exact ⟨s, completed, hs, hcompleted, hne, (Decision.replace.inj h).symm⟩

/-- Completing leaves a value alone that it gave for a value with acceptable words. Acceptable are words
that are read as they are written. Of any other word the completed value holds something else than was
meant, and then the second run completes that. -/
theorem complete_completed {ignored : Ignored} {prop value : String} {s : Shorthand}
    {pairs : List (String × String)} (hs : Registry.standard.find? (Text.lower prop) = some s)
    (hvalue : ∀ layer ∈ s.layersOf value, ∀ w ∈ s.sortedWords layer, s.accepts w = true)
    (hc : complete Registry.standard ignored prop value = .replace pairs) :
    ∃ completed, pairs = [(Text.lower prop, completed)] ∧ ∃ reason,
      complete Registry.standard ignored prop completed = .keep reason := by
  obtain ⟨s', completed, hs', hcompleted, -, rfl⟩ := complete_eq_replace hc
  obtain rfl : s' = s := Option.some.inj (hs'.symm.trans hs)
  have hmem : s' ∈ Registry.standard := List.mem_of_find?_eq_some hs
  have hagain := Shorthand.complete_complete
    (fun layer hl => Shorthand.restores_standard admits_all hmem fun w hw =>
      ⟨hvalue layer hl w hw, trivial⟩) hcompleted
  refine ⟨completed, rfl, ?_⟩
  rw [complete]
  split
  · exact ⟨_, rfl⟩
  · simp only [hs, hagain]
    exact ⟨_, rfl⟩

/-! ## 3. Names of animations -/

/-- What a value must not be to be looked at. -/
theorem protectedBy?_eq_none {ignored : Ignored} {prop value : String}
    (hcustom : isCustomName prop = false) (hcovers : ignored.covers prop = false)
    (hblank : Text.isBlankText value = false) (hwide : isWideKeyword value = false) :
    protectedBy? ignored prop value = none := by
  rw [protectedBy?, hcustom, hcovers, hblank, hwide]
  rfl

theorem find?_animation : Registry.standard.find? (Text.lower "animation") = some .animation := by
  have h : Text.lower "animation" = "animation" := by cbv
  rw [h]
  rfl

theorem ofWord_eq_name {w : String} (htime : isTime w = false) (heasing : isEasing w = false)
    (hcount : Animation.isCount w = false)
    (hdirection : isOneOf Animation.directionKeywords w = false)
    (hfill : isOneOf Animation.fillModeKeywords w = false)
    (hplay : isOneOf Animation.playStateKeywords w = false) : AnimationWord.ofWord w = .name := by
  rw [AnimationWord.ofWord, htime, heasing, hcount, hdirection, hfill, hplay]
  rfl

/-- An animation that is no whole keyword is completed by the words of its only layer. -/
theorem complete_animation {value layer : String} {ws : List String} {completed : String}
    (hblank : Text.isBlankText value = false) (hwide : isWideKeyword value = false)
    (hl : layers value = [layer]) (hw : words layer = ws) (hne : ws ≠ [])
    (hc : joinPresent (Shorthand.animation.fill (Animation.ofWords ws).slots) = completed)
    (hopen : completed ≠ value) :
    complete Registry.standard .nothing "animation" value =
      .replace [(Text.lower "animation", completed)] := by
  have hnone : protectedBy? .nothing "animation" value = none :=
    protectedBy?_eq_none (by cbv) rfl hblank hwide
  have hvalue : Shorthand.animation.complete value = some completed := by
    have hlayersOf : Shorthand.animation.layersOf value = [layer] := hl
    refine Shorthand.complete_eq_some.mpr ⟨by simp [hlayersOf], [(Animation.ofWords ws).slots], ?_,
      hc.symm⟩
    rw [hlayersOf]
    refine .cons (Shorthand.slotsOfLayer?_eq_some.mpr ?_) .nil
    rw [hw]
    exact ⟨hne, rfl, rfl⟩
  rw [complete, hnone]
  simp only [find?_animation, hvalue, hopen, if_false]

/-- The name of an animation is completed, and the completed value is left alone. -/
theorem complete_completed_spin :
    Registry.standard.find? (Text.lower "animation") = some .animation ∧
      complete Registry.standard .nothing "animation" "spin" =
        .replace [(Text.lower "animation", "spin 0s ease 0s 1 normal none running")] ∧
      ∃ completed,
        [(Text.lower "animation", "spin 0s ease 0s 1 normal none running")] =
          [(Text.lower "animation", completed)] ∧
        ∃ reason, complete Registry.standard .nothing "animation" completed = .keep reason := by
  have hlayers : layers "spin" = ["spin"] := by cbv
  have hwords : words "spin" = ["spin"] := by cbv
  have hname : AnimationWord.ofWord "spin" = .name :=
    ofWord_eq_name (by cbv) (by cbv) (by cbv) (by cbv) (by cbv) (by cbv)
  have hjoin : joinPresent (Shorthand.animation.fill (Animation.ofWords ["spin"]).slots) =
      "spin 0s ease 0s 1 normal none running" := by
    rw [Animation.ofWords, List.foldl_cons, List.foldl_nil, Animation.add, hname]
    decide
  have hc := complete_animation (by cbv) (by cbv) hlayers hwords (by simp) hjoin (by decide)
  have haccepts : ∀ layer ∈ Shorthand.animation.layersOf "spin",
      ∀ w ∈ Shorthand.animation.sortedWords layer, Shorthand.animation.accepts w = true := by
    have hlegible : isLegible "spin" = true := by cbv
    have hcommaless : isCommaless "spin" = true := by cbv
    have hsorted : Shorthand.animation.sortedWords "spin" = ["spin"] := hwords
    have hlayersOf : Shorthand.animation.layersOf "spin" = ["spin"] := hlayers
    simp only [hlayersOf, List.forall_mem_singleton, hsorted, Shorthand.accepts, hlegible, hcommaless]
    decide
  exact ⟨find?_animation, hc, complete_completed find?_animation haccepts hc⟩

/-- A name that is written as an escape takes the space after it, and the word behind that, into the
name when the completed value is read. So completing it again changes it again. -/
theorem complete_escapedName :
    Token.listHasFault (Token.ofChars "\\31 ".toList) = false ∧
      complete Registry.standard .nothing "animation" "\\31 " =
        .replace [(Text.lower "animation", "\\31 0s ease 0s 1 normal none running")] ∧
      complete Registry.standard .nothing "animation" "\\31 0s ease 0s 1 normal none running" =
        .replace [(Text.lower "animation", "\\31 0s 0s ease 0s 1 normal none running")] := by
  have hname : AnimationWord.ofWord "\\31" = .name :=
    ofWord_eq_name (by cbv) (by cbv) (by cbv) (by cbv) (by cbv) (by cbv)
  have hlonger : AnimationWord.ofWord "\\31 0s" = .name :=
    ofWord_eq_name (by cbv) (by cbv) (by cbv) (by cbv) (by cbv) (by cbv)
  refine ⟨by cbv, ?_, ?_⟩
  · have hlayers : layers "\\31 " = ["\\31"] := by cbv
    have hwords : words "\\31" = ["\\31"] := by cbv
    refine complete_animation (by cbv) (by cbv) hlayers hwords (by simp) ?_ (by decide)
    rw [Animation.ofWords, List.foldl_cons, List.foldl_nil, Animation.add, hname]
    decide
  · have hblank : Text.isBlankText "\\31 0s ease 0s 1 normal none running" = false := by cbv
    have hpieces : pieces Token.isComma (tokens "\\31 0s ease 0s 1 normal none running") =
        ["\\31 0s ease 0s 1 normal none running"] := by cbv
    have hlayers : layers "\\31 0s ease 0s 1 normal none running" =
        ["\\31 0s ease 0s 1 normal none running"] := by
      rw [layers, hblank, hpieces]
      rfl
    have hwords : words "\\31 0s ease 0s 1 normal none running" =
        ["\\31 0s", "ease", "0s", "1", "normal", "none", "running"] := by cbv
    refine complete_animation hblank (by cbv) hlayers hwords (by simp) ?_ (by decide)
    simp only [Animation.ofWords, List.foldl_cons, List.foldl_nil, Animation.add, hlonger,
      ofWord_ease, ofWord_0s, ofWord_1, ofWord_normal, ofWord_none, ofWord_running,
      Option.isNone_none, if_true]
    decide

end CssExpand
