import CssExpand.Proofs.Forest.Undecided
import CssExpand.Proofs.Shorthand.Accepted
import Mathlib

/-!
# Declarations whose words keep their places

What completing a declaration and adding units make of it is left alone by both from then on
(`Declaration.settled_rewrite_units`). Completing leaves alone what it made, so the question is whether
units disturb it. A zero with a unit is a time or a length where the zero was a number, and it can be
sorted into another slot for that. Two shorthands take a zero for something else than a time or a
length: the first word of a transition that is no time is its property, and a number in an animation is
its count, which gets no unit, provided it is found. `Declaration.KeepsPlaces` says that neither
happens, and that the words are read as they are written. Then the words of the new value are in the
slots of the old one (`Shorthand.SameSlots`), which is why it is complete as it stands
(`Shorthand.IsSettled`).
-/

set_option autoImplicit false

namespace CssExpand

open Syntax Value

/-! ## 1. Values with units -/

namespace Shorthand

variable {s : Shorthand} {value : String} {rows : List (List String)}

/-- A value is accepted by a shorthand and is complete, or is not classified. Either way there is
nothing for the pass to do, and that is what has to survive the adding of units. -/
structure IsSettled (s : Shorthand) (value : String) : Prop where
  check : s.check value = .ok ()
  complete : s.complete value = none ∨ s.complete value = some value

/-- One value has the words of another one in the same slots, but for units. -/
def SameSlots (s : Shorthand) (value value' : String) : Prop :=
  ∃ g : String → String, (∀ w, g w = w ∨ g w = s.rule.fill w) ∧
    s.layerSlots? value' = (s.layerSlots? value).map (List.map (List.map (Option.map g)))

theorem SameSlots.refl (s : Shorthand) (value : String) : s.SameSlots value value := by
  refine ⟨id, fun w => .inl rfl, ?_⟩
  simp

section Fill

variable (hs : s ∈ Registry.standard) (hc : UnitCategory.ofProperty s.name ≠ .none)
include hs hc

omit hs in
theorem ne_font_of_category : s.name ≠ "font" := by
  intro hn
  rw [hn] at hc
  exact hc (by decide +kernel)

/-- A value that is not classified is not classified with units. -/
theorem settled_fill_of_none (ha : s.name ≠ "animation") (h : ReadAgain value)
    (hw : s.WordsStand value) (hany : s.rule.anyBareZero (Token.ofChars value.toList) = true)
    (hnone : s.complete value = none) :
    s.IsSettled (s.rule.fill value) ∧ s.SameSlots value (s.rule.fill value) := by
  have hfill := complete_fill_eq_none hs hc ha h hw hany hnone
  refine ⟨⟨(hw.fill h s.rule hany).2.check hs (ne_font_of_category hc), .inl hfill⟩,
    s.rule.fill, fun w => .inr rfl, ?_⟩
  rw [Shorthand.complete, Option.map_eq_none_iff] at hfill hnone
  rw [hfill, hnone]
  rfl

/-- A completed value is complete with units. -/
theorem Completes.settled_fill (ha : s.name ≠ "animation")
    (h : s.Completes (fun w => checkIntegers w = .ok ()) value rows)
    (hz : s.name = "transition" → ∀ row ∈ rows, ∀ w ∈ row, isZero w = false)
    (hany : s.rule.anyBareZero (Token.ofChars (Value.layered rows).toList) = true) :
    s.IsSettled (s.rule.fill (Value.layered rows)) ∧
      s.SameSlots (Value.layered rows) (s.rule.fill (Value.layered rows)) := by
  have hn := ne_font_of_category hc
  have hjoin := ((font_or_joinPresent hs).resolve_left (by rintro rfl; exact hn rfl)).2
  obtain ⟨htext, hwords, hread⟩ := h.fill s.rule hany
  have hempty : ∀ row ∈ rows, ∀ w ∈ row, w.isEmpty = false :=
    fun row hrow w hw => (h.isWord row hrow w hw).1.isEmpty_eq
  obtain ⟨hcomplete, hslots⟩ := h.complete_map hjoin s.rule.fill_empty
    (fun row hrow => ⟨fun w hw => by
        rw [(h.readBack_of_mem row hrow w hw).isEmpty_fill, hempty row hrow w hw],
      s.sortsAlike_fill hs hc ha (h.readBack_of_mem row hrow) fun ht => hz ht row hrow⟩)
    (fun row hrow slots hslots => openAlike_fill hs hc ha hslots (hempty row hrow)) hwords
  exact ⟨⟨hread.check hs hn, .inr (htext ▸ hcomplete)⟩, _, fun w => .inr rfl, hslots⟩

end Fill

/-- A completed animation is complete with units, its counts excepted. -/
theorem Completes.settled_fillBut
    (h : Shorthand.animation.Completes (fun w => checkIntegers w = .ok ()) value rows)
    (hleads : CountsLead (Value.layered rows)) {counts : List (Option String)}
    (hcounts : countWords? (Value.layered rows) = some counts)
    (hany : Shorthand.animation.rule.anyUnmarked (markedTokens (Value.layered rows) counts) = true)
    {text : String} (htext : text = Token.write (Shorthand.animation.rule.applyMarked
      (markedTokens (Value.layered rows) counts))) :
    Shorthand.animation.IsSettled text ∧ Shorthand.animation.SameSlots (Value.layered rows) text := by
  have hs : Shorthand.animation ∈ Registry.standard := List.mem_cons_self
  obtain ⟨hrows, hwords, hread⟩ := h.fillBut Shorthand.animation.rule hleads hcounts hany htext
  have hback := h.readBack_of_mem
  obtain ⟨hcomplete, hslots⟩ := h.complete_map rfl (by simp [UnitRule.fillBut, UnitRule.fill_empty])
    (fun row hrow => ⟨fun w hw => by
        rw [isEmpty_fillBut (hback row hrow w hw), (h.isWord row hrow w hw).1.isEmpty_eq],
      sortsAlike_animation fun w hw => ofWord_fillBut (hback row hrow w hw) _⟩)
    (fun row hrow slots hslots =>
      openAlike_of_defaults (UnitRule.fillBut_defaults Shorthand.animation.rule)) hwords
  refine ⟨⟨hread.check hs (by decide), .inr (hrows ▸ hcomplete)⟩, _, fun w => ?_, hslots⟩
  rw [UnitRule.fillBut]
  split
  · exact .inl rfl
  · exact .inr rfl

end Shorthand

/-! ## 2. Decisions -/

/-- A shorthand is found by its name only, and no other name lowers to it. -/
theorem Registry.of_find? {prop : String} {s : Shorthand} (h : Registry.standard.find? prop = some s) :
    s ∈ Registry.standard ∧ s.name = prop ∧ Text.lower prop = prop := by
  have hlower : ∀ s ∈ Registry.standard, Text.lower s.name = s.name := by decide +kernel
  have hmem := List.mem_of_find?_eq_some h
  have hname : s.name = prop := by simpa using List.find?_some h
  exact ⟨hmem, hname, hname ▸ hlower s hmem⟩

theorem find?_of_lower {name : List Char} {s : Shorthand}
    (h : Registry.standard.find? (Text.lower (propertyName name)) = some s) :
    Registry.standard.find? (propertyName name) = some s := by
  have hplain : (Registry.standard.all fun s =>
      !isCustomName s.name && s.name.toList.all Text.isPlain) = true := by decide +kernel
  obtain ⟨hmem, hname, -⟩ := Registry.of_find? h
  have hs := List.all_eq_true.mp hplain s hmem
  rw [hname, Bool.and_eq_true, Bool.not_eq_true', List.all_eq_true] at hs
  have hc : isCustomName (propertyName name) = false := Bool.eq_false_iff.mpr fun hc => by
    rw [isCustomName_lower hc] at hs
    cases hs.1
  rwa [← eq_lower_propertyName hc hs.2] at h

section Defaults

variable {ignored : Ignored} {prop value : String} {s : Shorthand}

/-- A value that is settled is kept by completing. -/
theorem run_defaults_of_settled (hs : Registry.standard.find? prop = some s) (h : s.IsSettled value) :
    ∃ reason, (Revision.defaults .standard ignored).run prop value = .ok (.keep reason) := by
  have hlower := (Registry.of_find? hs).2.2
  have hcheck : checkComplete .standard ignored prop value = .ok () := by
    rw [checkComplete, hlower, hs]
    cases protectedBy? ignored prop value with
    | some reason => rfl
    | none => exact h.check
  have hkeep : ∃ reason, complete .standard ignored prop value = .keep reason := by
    rw [complete]
    cases protectedBy? ignored prop value with
    | some reason => exact ⟨_, rfl⟩
    | none =>
      simp only [hlower, hs]
      rcases h.complete with hnone | hsome
      · simp only [hnone]
        exact ⟨_, rfl⟩
      · simp only [hsome, if_true]
        exact ⟨_, rfl⟩
  obtain ⟨reason, hreason⟩ := hkeep
  exact ⟨reason, Revision.run_eq_ok.mpr ⟨hcheck, hreason⟩⟩

/-- So is a value that is protected. -/
theorem run_defaults_of_protectedBy? {reason : Reason}
    (h : protectedBy? ignored prop value = some reason) :
    (Revision.defaults .standard ignored).run prop value = .ok (.keep reason) := by
  have hcheck : checkComplete .standard ignored prop value = .ok () := by
    rw [checkComplete, h]
  have hkeep : complete .standard ignored prop value = .keep reason := by
    rw [complete, h]
  exact Revision.run_eq_ok.mpr ⟨hcheck, hkeep⟩

end Defaults

namespace Stage

variable {stage : Stage} {d : Declaration}

theorem decided?_singleton (stage : Stage) (d : Declaration) :
    decided? [stage] d = stage.pairs? d := by
  rw [decided?_cons]
  exact Option.or_none

/-- What a single stage accepts and decides about a declaration that it looks at. -/
theorem run_eq_of_considers (hc : stage.considers d = true) (ha : ∀ s ∈ [stage], s.check d = .ok ()) :
    stage.revision.run d.prop d.value = .ok (stage.revision.decide d.prop d.value) ∧
      decided? [stage] d = (stage.revision.decide d.prop d.value).pairs? := by
  have hcheck := ha stage List.mem_cons_self
  rw [check, if_pos hc] at hcheck
  rw [decided?_singleton, pairs?_eq, if_pos hc]
  exact ⟨Revision.run_eq_ok.mpr ⟨hcheck, rfl⟩, rfl⟩

/-- A stage that keeps what it looks at leaves a declaration alone. -/
theorem settled_of_run (h : stage.considers d = true →
    ∃ reason, stage.revision.run d.prop d.value = .ok (.keep reason)) : Settled [stage] d := by
  intro s hs
  obtain rfl := List.mem_singleton.mp hs
  cases hc : s.considers d with
  | false => exact ⟨check_of_not_considers hc, pairs?_of_not_considers hc⟩
  | true =>
    obtain ⟨reason, hrun⟩ := h hc
    obtain ⟨hcheck, hkeep⟩ := Revision.run_eq_ok.mp hrun
    rw [check, pairs?_eq, hc, if_pos rfl, if_pos rfl, hcheck, hkeep]
    exact ⟨rfl, rfl⟩

end Stage

/-! ## 3. Declarations -/

/-- Whether completing or adding units puts something in the place of a declaration. -/
def Declaration.IsReplaced (ignored : Ignored) (d : Declaration) : Prop :=
  (Stage.decided? (Pass.defaults .standard ignored).stages d).isSome ∨
    (Stage.decided? (Pass.units ignored).stages d).isSome

/-- The words of a declaration are read as they are written, and no zero of it can take another
place. This is asked of a declaration that is replaced; one that neither pass touches is left alone
whatever its value is. -/
structure Declaration.KeepsPlaces (d : Declaration) : Prop where
  faultless : Token.listHasFault (Token.ofChars d.value.toList) = false
  read : Token.listMisread (Token.ofChars d.value.toList) = false
  sorted : ∀ s completed, Registry.standard.find? d.prop = some s →
    s.complete d.value = some completed →
    ∀ layer ∈ s.layersOf d.value, ∀ w ∈ s.sortedWords layer, s.accepts w = true
  stands : ∀ s, Registry.standard.find? d.prop = some s → s.complete d.value = none →
    s.WordsStand d.value
  /-- No zero is the property of a transition, for with a unit it is a time. -/
  property : d.prop = "transition" → ∀ layer ∈ layers d.value,
    ∀ w ∈ (Transition.ofWords (words layer)).property, isZero w = false
  /-- The first zero in a layer of an animation that is written like the count is the count. -/
  count : ∀ completed, d.prop = "animation" →
    Shorthand.animation.complete d.value = some completed → CountsLead completed

/-- Nothing more is asked of a declaration that no shorthand is known for. -/
theorem Declaration.keepsPlaces_of_unknown {d : Declaration}
    (hf : Token.listHasFault (Token.ofChars d.value.toList) = false)
    (hm : Token.listMisread (Token.ofChars d.value.toList) = false)
    (h : Registry.standard.find? d.prop = none) : d.KeepsPlaces := by
  have hno : ∀ {s}, Registry.standard.find? d.prop ≠ some s := by
    rw [h]
    exact (Option.some_ne_none _).symm
  refine ⟨hf, hm, fun s _ hs => absurd hs hno, fun s hs => absurd hs hno, fun ht => ?_, fun _ ha => ?_⟩
  · exact absurd (ht ▸ rfl : Registry.standard.find? d.prop = some .transition) hno
  · exact absurd (ha ▸ rfl : Registry.standard.find? d.prop = some .animation) hno

/-- Where a value is completed, its words are asked for. -/
theorem Declaration.keepsPlaces_of_complete {d : Declaration} {s : Shorthand} {completed : String}
    (hf : Token.listHasFault (Token.ofChars d.value.toList) = false)
    (hm : Token.listMisread (Token.ofChars d.value.toList) = false)
    (hs : Registry.standard.find? d.prop = some s) (hc : s.complete d.value = some completed)
    (haccepts : ∀ layer ∈ s.layersOf d.value, ∀ w ∈ s.sortedWords layer, s.accepts w = true)
    (ht : d.prop ≠ "transition") (hcount : d.prop = "animation" → CountsLead completed) :
    d.KeepsPlaces := by
  refine ⟨hf, hm, fun s' _ hs' _ => ?_, fun s' hs' hnone => ?_, fun h => absurd h ht,
    fun completed' ha hc' => ?_⟩
  · obtain rfl := Option.some.inj (hs.symm.trans hs')
    exact haccepts
  · obtain rfl := Option.some.inj (hs.symm.trans hs')
    rw [hc] at hnone
    cases hnone
  · have hanimation : Registry.standard.find? "animation" = some .animation := rfl
    obtain rfl := Option.some.inj (hanimation.symm.trans (ha ▸ hs))
    obtain rfl := Option.some.inj (hc.symm.trans hc')
    exact hcount ha

section Declarations

variable {ignored : Ignored} {d d₁ : Declaration} {s : Shorthand}

/-- A declaration as completing leaves it: protected, not classified or completed. -/
theorem Declaration.rewrite_defaults_cases (hs : Registry.standard.find? d.prop = some s)
    (hhack : d.isHack = false) (ha : (Pass.defaults .standard ignored).Accepts d)
    (h : d₁ ∈ d.rewrite (Stage.decided? (Pass.defaults .standard ignored).stages)) :
    (d₁ = d ∧ ∃ reason, protectedBy? ignored d.prop d.value = some reason) ∨
      d₁.prop = d.prop ∧ s.check d.value = .ok () ∧
        (s.complete d.value = none ∧ d₁ = d ∨ s.complete d.value = some d₁.value) := by
  have hlower := (Registry.of_find? hs).2.2
  have hconsiders : ((Registry.standard.find? d.prop).isSome && !d.isHack) = true := by
    rw [hs, hhack]
    rfl
  have hcheck : checkComplete .standard ignored d.prop d.value = .ok () := by
    have hstage := ha _ (List.mem_singleton_self _)
    rwa [Stage.check, if_pos hconsiders] at hstage
  have hdecided : Stage.decided? (Pass.defaults .standard ignored).stages d =
      (complete .standard ignored d.prop d.value).pairs? :=
    (Stage.run_eq_of_considers hconsiders ha).2
  have hkept : ∀ {reason}, complete .standard ignored d.prop d.value = .keep reason → d₁ = d := by
    intro reason hkeep
    rw [hkeep] at hdecided
    rwa [Declaration.rewrite_none hdecided, List.mem_singleton] at h
  rw [checkComplete, hlower, hs] at hcheck
  rw [complete, hlower] at hdecided hkept
  -- the guards come first, then the family: what is left is what `Shorthand.complete` says
  cases hprotected : protectedBy? ignored d.prop d.value with
  | some reason =>
    rw [hprotected] at hkept
    exact .inl ⟨hkept rfl, reason, rfl⟩
  | none =>
    simp only [hprotected, hs] at hcheck hdecided hkept
    refine .inr ?_
    cases hcomplete : s.complete d.value with
    | none =>
      simp only [hcomplete] at hkept
      obtain rfl := hkept rfl
      exact ⟨rfl, hcheck, .inl ⟨rfl, rfl⟩⟩
    | some completed =>
      by_cases heq : completed = d.value
      · simp only [hcomplete, heq, if_true] at hkept
        obtain rfl := hkept rfl
        exact ⟨rfl, hcheck, .inr (by rw [heq])⟩
      · simp only [hcomplete, heq, if_false] at hdecided
        rw [Declaration.rewrite_some hdecided, List.map_singleton, List.mem_singleton] at h
        subst h
        exact ⟨rfl, hcheck, .inr rfl⟩

/-- Completing does not look at any other declaration. -/
theorem Declaration.eq_of_rewrite_defaults
    (hc : Registry.standard.find? d.prop = none ∨ d.isHack = true)
    (h : d₁ ∈ d.rewrite (Stage.decided? (Pass.defaults .standard ignored).stages)) : d₁ = d := by
  have hconsiders : ((Registry.standard.find? d.prop).isSome && !d.isHack) = false := by
    rcases hc with hnone | hhack
    · rw [hnone]
      rfl
    · rw [hhack, Bool.not_true, Bool.and_false]
  have hdecided : Stage.decided? (Pass.defaults .standard ignored).stages d = none :=
    (Stage.decided?_singleton _ d).trans (Stage.pairs?_of_not_considers hconsiders)
  rwa [Declaration.rewrite_none hdecided, List.mem_singleton] at h

/-- A declaration that adding units replaces, once it was completed, is replaced by one of the two. -/
theorem Declaration.isReplaced_of_mem
    (h : d₁ ∈ d.rewrite (Stage.decided? (Pass.defaults .standard ignored).stages))
    (hunits : (Stage.decided? (Pass.units ignored).stages d₁).isSome) : d.IsReplaced ignored := by
  cases hdecided : Stage.decided? (Pass.defaults .standard ignored).stages d with
  | none =>
    rw [Declaration.rewrite_none hdecided, List.mem_singleton] at h
    exact .inr (h ▸ hunits)
  | some pairs => exact .inl (hdecided ▸ rfl)

/-- A declaration as adding units leaves it: the same one, or one that is no hack and has another
value. -/
theorem Declaration.rewrite_units_cases (ha : (Pass.units ignored).Accepts d) :
    d.rewrite (Stage.decided? (Pass.units ignored).stages) = [d] ∧
        Stage.Settled (Pass.units ignored).stages d ∨
      (Stage.decided? (Pass.units ignored).stages d).isSome ∧ d.isHack = false ∧ ∃ value,
        d.rewrite (Stage.decided? (Pass.units ignored).stages) =
          [d.replacedBy (Text.lower d.prop, value)] ∧
        (Revision.units ignored).run d.prop d.value = .ok (.replace [(Text.lower d.prop, value)]) := by
  cases hdecided : Stage.decided? (Pass.units ignored).stages d with
  | none => exact .inl ⟨Declaration.rewrite_none hdecided, Stage.settled_of_decided? ha hdecided⟩
  | some pairs =>
    have hpairs := hdecided
    rw [Pass.units, Stage.decided?_singleton] at hpairs
    have hconsiders := Stage.considers_of_pairs? hpairs
    obtain ⟨hrun, hdecides⟩ := Stage.run_eq_of_considers hconsiders ha
    have hreplace := pairs?_eq_some.mp (hdecides.symm.trans hdecided)
    rw [hreplace] at hrun
    obtain ⟨-, -, -, kept, -, -, rfl⟩ := of_run_units_replace hrun
    exact .inr ⟨rfl, by simpa using hconsiders, _, Declaration.rewrite_some hdecided, hrun⟩

/-- What completing leaves of a declaration that it accepts, it leaves alone from then on. -/
theorem Declaration.settled_rewrite_defaults (hw : d.IsReplaced ignored → d.KeepsPlaces)
    (ha : (Pass.defaults .standard ignored).Accepts d)
    (h : d₁ ∈ d.rewrite (Stage.decided? (Pass.defaults .standard ignored).stages)) :
    Stage.Settled (Pass.defaults .standard ignored).stages d₁ := by
  cases hdecided : Stage.decided? (Pass.defaults .standard ignored).stages d with
  | none =>
    rw [Declaration.rewrite_none hdecided, List.mem_singleton] at h
    exact h ▸ Stage.settled_of_decided? ha hdecided
  | some pairs =>
    refine Stage.settled_of_run fun hc => ?_
    have hconsiders := Stage.considers_of_pairs? ((Stage.decided?_singleton _ d).symm.trans hdecided)
    simp only [Bool.and_eq_true, Option.isSome_iff_exists, Bool.not_eq_true'] at hconsiders
    obtain ⟨⟨s, hs⟩, hhack⟩ := hconsiders
    rcases Declaration.rewrite_defaults_cases hs hhack ha h with
      ⟨rfl, reason, hprotected⟩ | ⟨hprop, hcheck, ⟨hnone, rfl⟩ | hcompleted⟩
    · exact ⟨reason, run_defaults_of_protectedBy? hprotected⟩
    · exact run_defaults_of_settled hs ⟨hcheck, .inl hnone⟩
    · rw [hprop]
      have hk := hw (.inl (hdecided ▸ rfl))
      obtain ⟨hagain, hcomplete⟩ := Shorthand.check_completed (Registry.of_find? hs).1 hcheck
        (hk.sorted s _ hs hcompleted) hcompleted
      exact run_defaults_of_settled hs ⟨hagain, .inr hcomplete⟩

/-- The rule of a property that a shorthand is known for is the rule of the shorthand. -/
theorem rule_of_find? {prop : String} (hs : Registry.standard.find? prop = some s) :
    UnitRule.ofProperty (Text.lower prop) = s.rule := by
  obtain ⟨-, hname, hlower⟩ := Registry.of_find? hs
  rw [hlower, Shorthand.rule, hname]

section Units

variable (hk : d.KeepsPlaces) (hs : Registry.standard.find? d.prop = some s) {value₁ value₂ : String}
  (hvalue : s.complete d.value = none ∧ value₁ = d.value ∨ s.complete d.value = some value₁)
  (hrun : (Revision.units ignored).run d.prop value₁ = .ok (.replace [(d.prop, value₂)]))
include hk hs hvalue hrun

/-- In an animation the counts are told apart, and they get no units the second time either. -/
theorem Declaration.KeepsPlaces.settled_units_animation (ha : d.prop = "animation") :
    s.IsSettled value₂ ∧ s.SameSlots value₁ value₂ ∧
      ∃ reason, (Revision.units ignored).run d.prop value₂ = .ok (.keep reason) := by
  have hanimation : Registry.standard.find? "animation" = some .animation := rfl
  obtain rfl := Option.some.inj (hanimation.symm.trans (ha ▸ hs))
  obtain ⟨hmem, hname, hlower⟩ := Registry.of_find? hs
  obtain ⟨hc, hi, -, kept, hkept, hany, hpairs⟩ := of_run_units_replace hrun
  have hrule := rule_of_find? hs
  have htext := (Prod.mk.inj (List.cons.inj hpairs).1).2
  rw [hrule] at hany htext
  rw [keptTokens?_of_animation (hlower.trans ha)] at hkept
  obtain ⟨counts, hcounts, rfl⟩ := Option.map_eq_some_iff.mp hkept
  rcases hvalue with ⟨hnone, rfl⟩ | hcompleted
  · -- what is not classified has no counts
    rw [Shorthand.complete, Option.map_eq_none_iff] at hnone
    rw [countWords?, hnone] at hcounts
    cases hcounts
  · obtain ⟨rows, hrows, rfl⟩ := Shorthand.exists_completes_of_accepts hmem (by decide)
      (hk.sorted _ _ hs hcompleted) hcompleted
    have hleads := hk.count _ ha hcompleted
    obtain ⟨hsettled, hslots⟩ := hrows.settled_fillBut hleads hcounts hany htext
    obtain ⟨decision, hagain, hkeep⟩ := withUnits_again_animation hrows.inRows.readBack.readAgain
      (hrows.inRows.layersStand hrows.ne_nil (hrows.isLayer rfl)) hc hi (hlower.trans ha)
      hrule.symm hcounts hany
    rw [htext] at hsettled hslots ⊢
    exact ⟨hsettled, hslots, _, (hkeep.mpr hleads) ▸ hagain⟩

/-- Anywhere else all bare zeros get units, and there are none left. -/
theorem Declaration.KeepsPlaces.settled_units_of_ne (ha : d.prop ≠ "animation") :
    s.IsSettled value₂ ∧ s.SameSlots value₁ value₂ ∧
      ∃ reason, (Revision.units ignored).run d.prop value₂ = .ok (.keep reason) := by
  obtain ⟨hmem, hname, hlower⟩ := Registry.of_find? hs
  obtain ⟨hc, hi, haccepted, kept, hkept, hany, hpairs⟩ := of_run_units_replace hrun
  have hrule := rule_of_find? hs
  have htext := (Prod.mk.inj (List.cons.inj hpairs).1).2
  rw [hrule] at hany htext
  have hcategory : UnitCategory.ofProperty s.name ≠ .none := hname ▸ hc
  rw [keptTokens?_of_not_animation (hlower.symm ▸ ha)] at hkept
  obtain rfl := Option.some.inj hkept
  rw [(UnitRule.unmarked _ _).1] at hany
  rw [(UnitRule.unmarked _ _).2, ← UnitRule.fill] at htext
  subst htext
  have hagain : ∀ {value}, ReadAgain value →
      (Revision.units ignored).run d.prop (s.rule.fill value) = .ok (.keep .noBareZero) := by
    intro value h
    have hkeep := withUnits_again h hc hi (hlower.symm ▸ ha)
    rwa [hrule] at hkeep
  rcases hvalue with ⟨hnone, rfl⟩ | hcompleted
  · have hread : ReadAgain d.value :=
      ⟨Token.settled_parse haccepted hk.faultless hk.read, hk.faultless⟩
    obtain ⟨hsettled, hslots⟩ := Shorthand.settled_fill_of_none hmem hcategory (hname ▸ ha) hread
      (hk.stands s hs hnone) hany hnone
    exact ⟨hsettled, hslots, _, hagain hread⟩
  · obtain ⟨rows, hrows, rfl⟩ := Shorthand.exists_completes_of_accepts hmem
      (Shorthand.ne_font_of_category hcategory) (hk.sorted s _ hs hcompleted) hcompleted
    have hz : s.name = "transition" → ∀ row ∈ rows, ∀ w ∈ row, isZero w = false := by
      intro ht
      have hprop : d.prop = "transition" := hname.symm.trans ht
      have htransition : Registry.standard.find? "transition" = some .transition := rfl
      obtain rfl := Option.some.inj (htransition.symm.trans (hprop ▸ hs))
      exact hrows.not_isZero_transition (hk.property hprop)
    obtain ⟨hsettled, hslots⟩ := hrows.settled_fill hmem hcategory (hname ▸ ha) hz hany
    exact ⟨hsettled, hslots, _, hagain hrows.inRows.readBack.readAgain⟩

/-- A value that got its units is settled, and its words are in the same slots. -/
theorem Declaration.KeepsPlaces.settled_units :
    s.IsSettled value₂ ∧ s.SameSlots value₁ value₂ ∧
      ∃ reason, (Revision.units ignored).run d.prop value₂ = .ok (.keep reason) := by
  by_cases ha : d.prop = "animation"
  · exact hk.settled_units_animation hs hvalue hrun ha
  · exact hk.settled_units_of_ne hs hvalue hrun ha

end Units

/-- A value that got its units is kept, and its property is still unknown to all shorthands. -/
theorem Declaration.KeepsPlaces.settled_units_unknown (hk : d.KeepsPlaces)
    (hname : ∃ name, d.prop = propertyName name) (hs : Registry.standard.find? d.prop = none)
    {value₂ : String} (hrun : (Revision.units ignored).run d.prop d.value =
      .ok (.replace [(Text.lower d.prop, value₂)])) :
    Registry.standard.find? (Text.lower d.prop) = none ∧
      ∃ reason, (Revision.units ignored).run (Text.lower d.prop) value₂ = .ok (.keep reason) := by
  obtain ⟨hc, hi, haccepted, kept, hkept, -, hpairs⟩ := of_run_units_replace hrun
  have hlower : Registry.standard.find? (Text.lower d.prop) = none := by
    refine Option.eq_none_iff_forall_ne_some.mpr fun s h => ?_
    obtain ⟨name, hprop⟩ := hname
    rw [hprop] at h hs
    rw [find?_of_lower h] at hs
    cases hs
  have ha : Text.lower d.prop ≠ "animation" := by
    intro ha
    rw [ha] at hlower
    cases hlower
  rw [keptTokens?_of_not_animation ha] at hkept
  obtain rfl := Option.some.inj hkept
  have htext := (Prod.mk.inj (List.cons.inj hpairs).1).2
  rw [(UnitRule.unmarked _ _).2, ← UnitRule.fill] at htext
  have hread : ReadAgain d.value :=
    ⟨Token.settled_parse haccepted hk.faultless hk.read, hk.faultless⟩
  have hcovers : ignored.covers (Text.lower d.prop) = false := by
    rwa [Ignored.covers, Text.lower_lower]
  have hagain := withUnits_again hread (by rwa [UnitCategory.ofProperty_lower]) hcovers
    (by rwa [Text.lower_lower])
  rw [Text.lower_lower, ← htext] at hagain
  exact ⟨hlower, _, hagain⟩

/-- A declaration has the words of another one in the same slots, but for units. -/
def Declaration.KeepsSlots (d d' : Declaration) : Prop :=
  ∀ s, Registry.standard.find? d.prop = some s →
    d'.prop = d.prop ∧ s.SameSlots d.value d'.value

/-- What the two passes leave of a declaration, they leave alone from then on, and the second pass moves
no word to another slot. -/
theorem Declaration.settled_rewrite_units {d₂ : Declaration}
    (hname : ∃ name, d.prop = propertyName name) (hw : d.IsReplaced ignored → d.KeepsPlaces)
    (ha : (Pass.defaults .standard ignored).Accepts d)
    (h : d₁ ∈ d.rewrite (Stage.decided? (Pass.defaults .standard ignored).stages))
    (ha₁ : (Pass.units ignored).Accepts d₁)
    (h₁ : d₂ ∈ d₁.rewrite (Stage.decided? (Pass.units ignored).stages)) :
    Stage.Settled (Pass.defaults .standard ignored).stages d₂ ∧
      Stage.Settled (Pass.units ignored).stages d₂ ∧ d₁.KeepsSlots d₂ := by
  rcases Declaration.rewrite_units_cases ha₁ with
    ⟨hsame, hsettled⟩ | ⟨hunits, hhack₁, value₂, hnew, hrun⟩
  · rw [hsame, List.mem_singleton] at h₁
    subst h₁
    exact ⟨Declaration.settled_rewrite_defaults hw ha h, hsettled,
      fun s hs => ⟨rfl, Shorthand.SameSlots.refl s _⟩⟩
  -- the units pass has replaced it, so the condition is at hand
  have hk := hw (Declaration.isReplaced_of_mem h hunits)
  rw [hnew, List.mem_singleton] at h₁
  subst h₁
  by_cases hlooks : Registry.standard.find? d.prop = none ∨ d.isHack = true
  -- no family or a hack: the first pass has left it, and it has no slots to compare
  · obtain rfl := Declaration.eq_of_rewrite_defaults hlooks h
    have hnone := hlooks.resolve_right (by simp [hhack₁])
    obtain ⟨hlower, hkeep⟩ := hk.settled_units_unknown hname hnone hrun
    refine ⟨Stage.settled_of_run fun hc => ?_, Stage.settled_of_run fun _ => hkeep, fun s hs => ?_⟩
    · rw [Bool.and_eq_true] at hc
      have hsome : (Registry.standard.find? (Text.lower d₁.prop)).isSome = true := hc.1
      rw [hlower] at hsome
      cases hsome
    · rw [hnone] at hs
      cases hs
  · rw [not_or, Bool.not_eq_true] at hlooks
    obtain ⟨s, hs⟩ := Option.ne_none_iff_exists'.mp hlooks.1
    have hlower := (Registry.of_find? hs).2.2
    rcases Declaration.rewrite_defaults_cases hs hlooks.2 ha h with
      ⟨rfl, reason, hprotected⟩ | ⟨hprop, -, hvalue⟩
    · rw [protectedBy?_of_withUnits (Revision.run_eq_ok.mp hrun).2] at hprotected
      cases hprotected
    · rw [hprop, hlower] at hrun
      obtain ⟨hsettled, hslots, hkeep⟩ := hk.settled_units hs
        (hvalue.imp_left fun h => ⟨h.1, congrArg Declaration.value h.2⟩) hrun
      rw [hprop, hlower]
      refine ⟨Stage.settled_of_run fun _ => run_defaults_of_settled hs hsettled,
        Stage.settled_of_run fun _ => hkeep, fun s' hs' => ?_⟩
      obtain rfl := Option.some.inj (hs.symm.trans (hprop ▸ hs'))
      exact ⟨hprop.symm, hslots⟩

end Declarations

end CssExpand
