import CssExpand.Proofs.Longhands.Units
import CssExpand.Proofs.Passes.ValuesOnly
import CssExpand.Proofs.Sheet.Values
import Mathlib

/-!
# Units before or after taking apart

Taking shorthands apart and adding units meet in the shorthands of lengths: one order adds units by the
category of the shorthand and takes the result apart, the other adds units to each part by its own
category. Both give the same stylesheet (`longhands_units_eitherOrder`) if the parts agree with the
whole (`PartsAgreeIn`):

* No part without units has a bare zero. A border line is a length but its color is not, so in
  `border-top: 1px solid shade(0)` the zero gets a unit as long as it is part of the line
  (`not_eitherOrder_shadedLine`). Adding units knows the functions of colors and easings and leaves the
  numbers in them alone, but it knows them by name.
* No part looks like a hack. The units that the whole value gets would not be given to a hack.
* The words are plain (`PlainWords`). Adding units writes the value anew and taking apart reads its words
  anew, and both are to mean the same as before. That the value itself does is known of a parsed
  stylesheet (`readBack_of_parse`).

Declaration by declaration, the two orders give the same declarations (`Declaration.rewrite_comm`).
They also accept the same, since neither pass puts in what the other one refuses
(`Declaration.accepts_units_rewrite`, `Declaration.accepts_longhands_rewrite`).
-/

set_option autoImplicit false

namespace CssExpand

open Syntax Value Forest

/-! ## 1. Adding units to a declaration -/

/-- A name, in lower case, of lengths or of something without units. It is neither that of a custom
property nor that of a hack, and iteration counts do not come into it. -/
structure IsPlainName (name : String) : Prop where
  lower : Text.lower name = name
  custom : isCustomName name = false
  hack : isHackName name = false
  animation : (name == "animation") = false
  rule : UnitRule.ofProperty name = lengthRule ∨ UnitCategory.ofProperty name = .none

/-- The shorthands that are taken apart and their longhands have plain names. -/
theorem isPlainName_stageNames : ∀ n ∈ stageNames.flatten, IsPlainName n ∧
    ∀ output ∈ (Compound.ofName? n).elim [] Compound.outputs, IsPlainName output := by
  have h : ∀ n ∈ stageNames.flatten,
      ∀ m ∈ n :: (Compound.ofName? n).elim [] Compound.outputs, Text.lower m = m ∧
        isCustomName m = false ∧ isHackName m = false ∧ (m == "animation") = false ∧
        (UnitRule.ofProperty m = lengthRule ∨ UnitCategory.ofProperty m = .none) := by
    decide +kernel
  have hplain : ∀ n ∈ stageNames.flatten,
      ∀ m ∈ n :: (Compound.ofName? n).elim [] Compound.outputs, IsPlainName m := by
    intro n hn m hm
    obtain ⟨hlower, hcustom, hhack, hanimation, hrule⟩ := h n hn m hm
    exact ⟨hlower, hcustom, hhack, hanimation, hrule⟩
  intro n hn
  exact ⟨hplain n hn n List.mem_cons_self, fun m hm => hplain n hn m (List.mem_cons_of_mem n hm)⟩

theorem isPlainName_of_mem {name : String} (h : name ∈ stageNames.flatten) : IsPlainName name :=
  (isPlainName_stageNames name h).1

/-- What adding units decides about a declaration. -/
def withUnits? (d : Declaration) : Option (List (String × String)) :=
  Stage.decided? (Pass.units .nothing).stages d

theorem withUnits?_eq (d : Declaration) : withUnits? d =
    if d.isHack then none else (withUnits .nothing d.prop d.value).pairs? := by
  rw [withUnits?, Pass.units, Stage.decided?_cons, Stage.decided?, List.findSome?_nil,
    Option.or_none, Stage.pairs?_eq]
  cases hhack : d.isHack <;> simp [hhack, Revision.units]

theorem withUnits?_of_isHack {d : Declaration} (h : d.isHack = true) : withUnits? d = none := by
  rw [withUnits?_eq, if_pos h]

theorem withUnits_of_none {prop : String} (h : UnitCategory.ofProperty prop = .none)
    (hlower : Text.lower prop = prop) (value : String) :
    (withUnits .nothing prop value).pairs? = none := by
  rw [withUnits, hlower]
  split
  · rfl
  · split
    · rfl
    · simp [UnitRule.ofProperty, h, Decision.pairs?]

/-- Every token of a value that is no animation may get a unit. -/
theorem withUnits_of_length {prop : String} (h : IsPlainName prop)
    (hr : UnitRule.ofProperty prop = lengthRule) (value : String) :
    (withUnits .nothing prop value).pairs? =
      if lengthRule.anyBareZero (Token.ofChars value.toList) then
        some [(prop, lengthRule.fill value)]
      else none := by
  have hmarked : ∀ ts : List Token,
      ((ts.zip (ts.map fun _ => false)).any fun m => !m.2 && lengthRule.hasBareZero m.1) =
          lengthRule.anyBareZero ts ∧
        ((ts.zip (ts.map fun _ => false)).map fun m => if m.2 then m.1 else lengthRule.apply m.1) =
          lengthRule.applyAll ts := by
    intro ts
    induction ts with
    | nil => exact ⟨rfl, rfl⟩
    | cons t ts ih =>
      rw [List.map_cons, List.zip_cons_cons, List.any_cons, List.map_cons, ih.1, ih.2]
      exact ⟨rfl, rfl⟩
  have hcovers : Ignored.nothing.covers prop = false := rfl
  have hcategory : lengthRule.category ≠ .none := by decide
  simp only [withUnits, h.custom, hcovers, h.lower, hr, hcategory, keptTokens?, h.animation,
    if_false, Bool.false_eq_true, (hmarked _).1, (hmarked _).2]
  split <;> rfl

/-- A declaration of lengths that is read back gets a unit at every bare zero. -/
theorem Declaration.rewrite_withUnits {d : Declaration} (h : IsPlainName d.prop)
    (hr : UnitRule.ofProperty d.prop = lengthRule) (hhack : d.isHack = false)
    (hv : ReadBack d.value) :
    d.rewrite withUnits? = [d.replacedBy (d.prop, lengthRule.fill d.value)] := by
  cases hz : lengthRule.anyBareZero (Token.ofChars d.value.toList) with
  | false =>
    have hnone : withUnits? d = none := by
      rw [withUnits?_eq, hhack, withUnits_of_length h hr, hz]
      rfl
    rw [rewrite_none hnone, hv.fill_eq_self _ hz]
    rfl
  | true =>
    have hsome : withUnits? d = some [(d.prop, lengthRule.fill d.value)] := by
      rw [withUnits?_eq, hhack, withUnits_of_length h hr, hz]
      rfl
    rw [rewrite_some hsome]
    rfl

theorem Declaration.rewrite_withUnits_of_none {d : Declaration} (h : IsPlainName d.prop)
    (hc : UnitCategory.ofProperty d.prop = .none) : d.rewrite withUnits? = [d] := by
  refine rewrite_none ?_
  rw [withUnits?_eq, withUnits_of_none hc h.lower]
  split <;> rfl

/-! ## 2. Taking a declaration apart -/

/-- What taking apart decides about a declaration. -/
def longhands? (d : Declaration) : Option (List (String × String)) :=
  Stage.decided? (Pass.longhands .nothing).stages d

/-- The parts that a declaration is taken apart into, if it is. -/
def partsOf (prop value : String) : List (String × String) :=
  (longhands .nothing prop value).pairs?.getD []

/-- What has to hold of a shorthand of lengths so that its parts say the same about their zeros as the
whole value does. Whether a zero has a unit coming is asked of the part and of the whole; the two
answers come from different names. -/
structure PartsAgree (prop value : String) : Prop where
  /-- No part looks like a hack. -/
  plain : ∀ part ∈ partsOf prop value, isHackValue part.2 = false
  /-- A part without units has no bare zero. -/
  zeros : ∀ part ∈ partsOf prop value, UnitCategory.ofProperty part.1 = .none →
    lengthRule.anyBareZero (Token.ofChars part.2.toList) = false

/-- The parts agree with the whole value, and each word of it means the same alone. -/
structure PartsStand (prop value : String) : Prop extends PartsAgree prop value where
  readBack : ReadBack value
  words : WordsAlone value

theorem protectedBy?_fill {prop value : String} (h : ReadBack value) (r : UnitRule) :
    protectedBy? .nothing prop (r.fill value) = protectedBy? .nothing prop value := by
  cases hz : r.anyBareZero (Token.ofChars value.toList) with
  | false => rw [h.fill_eq_self r hz]
  | true =>
    have hdigit := not_digitless_of_anyBareZero hz
    have hplain : ∀ {v : String}, ¬Digitless v.toList →
        Text.isBlankText v = false ∧ isWideKeyword v = false := fun hd =>
      ⟨Bool.eq_false_iff.mpr fun hb => hd (digitless_of_isBlankText hb),
        Bool.eq_false_iff.mpr fun hw => hd (digitless_of_isWideKeyword hw)⟩
    obtain ⟨hblank, hwide⟩ := hplain hdigit
    obtain ⟨hblank', hwide'⟩ := hplain ((h.padded_fill r).not_digitless hdigit)
    rw [protectedBy?, protectedBy?, hblank, hwide, hblank', hwide']

theorem longhands_fill {prop value : String} {s : Compound}
    (hs : Compound.ofName? (Text.lower prop) = some s) (hc : s ≠ .columns) (h : ReadBack value)
    (hw : WordsAlone value) : longhands .nothing prop (lengthRule.fill value) =
      (longhands .nothing prop value).mapValues lengthRule.fill := by
  rw [longhands, longhands, protectedBy?_fill h]
  split
  · rfl
  · simp only [hs, s.takeApart_fill hc h hw]

/-- A declaration of a shorthand of lengths that is no hack. -/
structure Declaration.TakesLengths (d : Declaration) : Prop where
  hack : d.isHack = false
  mem : d.prop ∈ stageNames.flatten
  units : UnitCategory.ofProperty d.prop ≠ .none

/-- A declaration of a shorthand of lengths has parts that stand for themselves. -/
def Declaration.Agrees (d : Declaration) : Prop := d.TakesLengths → PartsStand d.prop d.value

/-! ## 3. One declaration -/

namespace Declaration

variable {d : Declaration}

theorem longhands?_eq (h : ∃ name, d.prop = propertyName name) : longhands? d =
    if d.isHack then none else (longhands .nothing d.prop d.value).pairs? :=
  decided?_longhands .nothing h

theorem longhands?_of_not_mem (h : d.prop ∉ stageNames.flatten) : longhands? d = none :=
  Stage.decided?_of_not_considers (not_considers_of_not_mem h)

/-- What is taken apart is a shorthand and no hack. -/
theorem of_longhands? {pairs : List (String × String)} (h : longhands? d = some pairs) :
    d.isHack = false ∧ longhands .nothing d.prop d.value = .replace pairs ∧
      ∃ s, Compound.ofName? d.prop = some s ∧ s.takeApart d.value = .replace pairs := by
  obtain ⟨t, ht, hp⟩ := List.exists_of_findSome?_eq_some h
  have hmay := exists_compound_of_may ⟨t, ht, hp⟩
  rw [stages_longhands] at ht
  obtain ⟨names, -, rfl⟩ := List.mem_map.mp ht
  rw [pairs?_longhandStage] at hp
  split at hp
  · next hc =>
    rw [Bool.and_eq_true, Bool.not_eq_true'] at hc
    exact ⟨hc.2, pairs?_eq_some.mp hp, hmay⟩
  · cases hp

theorem exists_ofName? (h : d.prop ∈ stageNames.flatten) :
    ∃ s, Compound.ofName? d.prop = some s := by
  have hall : ∀ n ∈ stageNames.flatten, (Compound.ofName? n).isSome := by decide +kernel
  exact Option.isSome_iff_exists.mp (hall d.prop h)

/-- A shorthand takes lengths, and then its parts stand for themselves, or it takes no units. -/
theorem Agrees.cases (h : d.Agrees) (hhack : d.isHack = false) (hmem : d.prop ∈ stageNames.flatten) :
    UnitRule.ofProperty d.prop = lengthRule ∧ PartsStand d.prop d.value ∨
      UnitCategory.ofProperty d.prop = .none := by
  refine (isPlainName_of_mem hmem).rule.imp_left fun hr => ⟨hr, h ⟨hhack, hmem, ?_⟩⟩
  rw [show UnitCategory.ofProperty d.prop = .length from congrArg UnitRule.category hr]
  decide

theorem isHack_replacedBy {pair : String × String} (hn : isHackName pair.1 = false)
    (hv : isHackValue pair.2 = false) : (d.replacedBy pair).isHack = false := by
  rw [isHack, replacedBy, hn, hv, Bool.or_false, Bool.and_false]

theorem isHack_fill (hp : IsPlainName d.prop) (hhack : d.isHack = false) (hv : ReadBack d.value)
    (r : UnitRule) : (d.replacedBy (d.prop, r.fill d.value)).isHack = false := by
  refine isHack_replacedBy hp.hack (Bool.eq_false_iff.mpr fun hw => ?_)
  have hvalue := (hv.padded_fill r).isHackValue hw
  rw [isHack, isCustom, hp.custom, hvalue] at hhack
  simp at hhack

/-- A declaration that is not taken apart is given a name that is not taken apart either. -/
theorem of_withUnits?_of_not_mem (hname : ∃ name, d.prop = propertyName name)
    (h : d.prop ∉ stageNames.flatten) {pairs : List (String × String)}
    (hu : withUnits? d = some pairs) :
    ∃ revised, pairs = [(Text.lower d.prop, revised)] ∧ Text.lower d.prop ∉ stageNames.flatten := by
  obtain ⟨name, hname⟩ := hname
  rw [withUnits?_eq] at hu
  split at hu
  · cases hu
  · obtain ⟨hcustom, revised, hpairs⟩ := lower_of_withUnits (pairs?_eq_some.mp hu)
    refine ⟨revised, hpairs, fun hm => h ?_⟩
    rw [hname] at hcustom hm ⊢
    exact mem_stageNames hcustom hm

section Parts

variable {s : Compound} {pairs : List (String × String)}

/-- What is put in for a shorthand has plain names. -/
theorem isPlainName_of_takeApart (hs : Compound.ofName? d.prop = some s)
    (h : s.takeApart d.value = .replace pairs) : ∀ pair ∈ pairs, IsPlainName pair.1 := by
  intro pair hpair
  have hmem := (Compound.name_of_ofName? hs).2
  refine (isPlainName_stageNames d.prop hmem).2 pair.1 ?_
  rw [hs, Option.elim_some, ← Compound.fst_takeApart h]
  exact List.mem_map_of_mem hpair

/-- The parts of a shorthand are read back. -/
theorem readBack_part (h : PartsStand d.prop d.value) (htake : s.takeApart d.value = .replace pairs) :
    ∀ pair ∈ pairs, ReadBack pair.2 := by
  intro pair hpair
  rcases mem_of_takeApart htake pair hpair with hvalue | hword | hopen
  · exact hvalue ▸ h.readBack
  · exact readBack_of_mem_words h.readBack h.words hword
  · exact readBack_openParts pair.2 hopen

/-- The parts of a shorthand of lengths get the units that the shorthand gets. -/
theorem rewrite_part (h : PartsStand d.prop d.value)
    (hl : longhands .nothing d.prop d.value = .replace pairs)
    (hs : Compound.ofName? d.prop = some s) (htake : s.takeApart d.value = .replace pairs) :
    ∀ pair ∈ pairs, (d.replacedBy pair).rewrite withUnits? =
      [d.replacedBy (pair.1, lengthRule.fill pair.2)] := by
  intro pair hpair
  have hplain := isPlainName_of_takeApart hs htake pair hpair
  have hread := readBack_part h htake pair hpair
  have hpart : pair ∈ partsOf d.prop d.value := by rwa [partsOf, hl]
  rcases hplain.rule with hr | hc
  · exact rewrite_withUnits (d := d.replacedBy pair) hplain hr
      (isHack_replacedBy hplain.hack (h.plain pair hpart)) hread
  · rw [rewrite_withUnits_of_none (d := d.replacedBy pair) hplain hc,
      hread.fill_eq_self _ (h.zeros pair hpart hc)]

/-- A shorthand without units has parts without units, but for the width of columns. -/
theorem part_cases (hs : Compound.ofName? d.prop = some s)
    (hc : UnitCategory.ofProperty d.prop = .none) (htake : s.takeApart d.value = .replace pairs) :
    ∀ pair ∈ pairs, UnitCategory.ofProperty pair.1 = .none ∨
      ∃ c, s = .columns ∧ Columns.ofWords (words d.value) = .ok c ∧
        pair = ("column-width", c.width.getD "auto") := by
  have hwidth : ∀ n ∈ stageNames.flatten, UnitCategory.ofProperty n = .none →
      n = "columns" ∨ ∀ output ∈ (Compound.ofName? n).elim [] Compound.outputs,
        UnitCategory.ofProperty output = .none := by
    decide +kernel
  have hcount : UnitCategory.ofProperty "column-count" = .none := by decide +kernel
  intro pair hpair
  rcases hwidth d.prop (Compound.name_of_ofName? hs).2 hc with hcolumns | hnone
  · rw [hcolumns] at hs
    obtain rfl : s = .columns := (Option.some.inj hs).symm
    rw [Compound.takeApart, columnLonghands] at htake
    split at htake
    · next c hwords =>
      obtain rfl := Decision.replace.inj htake
      simp only [List.mem_cons, List.not_mem_nil, or_false] at hpair
      rcases hpair with rfl | rfl
      · exact .inr ⟨c, rfl, hwords, rfl⟩
      · exact .inl hcount
    · cases htake
  · refine .inl (hnone pair.1 ?_)
    rw [hs, Option.elim_some, ← Compound.fst_takeApart htake]
    exact List.mem_map_of_mem hpair

/-- A shorthand without units has no longhand with units. -/
theorem rewrite_part_of_none (hs : Compound.ofName? d.prop = some s)
    (hc : UnitCategory.ofProperty d.prop = .none) (htake : s.takeApart d.value = .replace pairs) :
    ∀ pair ∈ pairs, (d.replacedBy pair).rewrite withUnits? = [d.replacedBy pair] := by
  intro pair hpair
  have hplain := isPlainName_of_takeApart hs htake pair hpair
  rcases part_cases hs hc htake pair hpair with hnone | ⟨c, -, hwords, rfl⟩
  · exact rewrite_withUnits_of_none (d := d.replacedBy pair) hplain hnone
  · -- the width is a dimension or `auto`
    have hrule : UnitRule.ofProperty "column-width" = lengthRule := by decide +kernel
    refine rewrite_none ?_
    rw [withUnits?_eq]
    split
    · rfl
    · exact (withUnits_of_length hplain hrule _).trans
        (if_neg (Bool.eq_false_iff.mp (Columns.anyBareZero_width hwords)))

end Parts

/-- A shorthand of lengths gives the same with units in its parts and with its parts with units. -/
theorem rewrite_comm_of_length (hname : ∃ name, d.prop = propertyName name)
    (hmem : d.prop ∈ stageNames.flatten) (hr : UnitRule.ofProperty d.prop = lengthRule)
    (hhack : d.isHack = false) (h : PartsStand d.prop d.value) :
    (d.rewrite longhands?).flatMap (rewrite withUnits?) =
      (d.rewrite withUnits?).flatMap (rewrite longhands?) := by
  have hplain := isPlainName_of_mem hmem
  obtain ⟨s, hs⟩ := exists_ofName? hmem
  have hcolumns : s ≠ .columns := by
    rintro rfl
    rw [← (Compound.name_of_ofName? hs).1] at hr
    exact absurd hr (by decide +kernel)
  have hfill : longhands? (d.replacedBy (d.prop, lengthRule.fill d.value)) =
      ((longhands .nothing d.prop d.value).mapValues lengthRule.fill).pairs? := by
    rw [longhands?_eq (d := d.replacedBy (d.prop, lengthRule.fill d.value)) hname,
      isHack_fill hplain hhack h.readBack]
    have hlower : Compound.ofName? (Text.lower d.prop) = some s := by rw [hplain.lower, hs]
    exact congrArg Decision.pairs? (longhands_fill hlower hcolumns h.readBack h.words)
  rw [rewrite_withUnits hplain hr hhack h.readBack, List.flatMap_singleton]
  cases hd : longhands? d with
  | none =>
    have hkeep : (longhands .nothing d.prop d.value).pairs? = none := by
      rwa [longhands?_eq hname, hhack] at hd
    have hnone : longhands? (d.replacedBy (d.prop, lengthRule.fill d.value)) = none := by
      rw [hfill]
      cases hl : longhands .nothing d.prop d.value with
      | keep reason => rfl
      | replace pairs =>
        rw [hl] at hkeep
        cases hkeep
    rw [rewrite_none hd, List.flatMap_singleton,
      rewrite_withUnits hplain hr hhack h.readBack, rewrite_none hnone]
  | some pairs =>
    obtain ⟨-, hl, s, hs, htake⟩ := of_longhands? hd
    rw [hl] at hfill
    rw [rewrite_some hd, rewrite_some hfill, List.flatMap_map,
      List.flatMap_congr (rewrite_part h hl hs htake), List.map_map, List.map_eq_flatMap]
    rfl

theorem rewrite_comm_of_none (hmem : d.prop ∈ stageNames.flatten)
    (hc : UnitCategory.ofProperty d.prop = .none) :
    (d.rewrite longhands?).flatMap (rewrite withUnits?) =
      (d.rewrite withUnits?).flatMap (rewrite longhands?) := by
  have hkept := rewrite_withUnits_of_none (isPlainName_of_mem hmem) hc
  rw [hkept, List.flatMap_singleton]
  cases hd : longhands? d with
  | none => rw [rewrite_none hd, List.flatMap_singleton, hkept]
  | some pairs =>
    obtain ⟨-, -, s, hs, htake⟩ := of_longhands? hd
    rw [rewrite_some hd, List.flatMap_map, List.flatMap_congr (rewrite_part_of_none hs hc htake),
      List.map_eq_flatMap]

/-- Taking a declaration apart and adding units give the same in either order. -/
theorem rewrite_comm (hname : ∃ name, d.prop = propertyName name) (h : d.Agrees) :
    (d.rewrite longhands?).flatMap (rewrite withUnits?) =
      (d.rewrite withUnits?).flatMap (rewrite longhands?) := by
  by_cases hmem : d.prop ∈ stageNames.flatten
  · cases hhack : d.isHack with
    | true =>
      have hl : longhands? d = none := by rw [longhands?_eq hname, if_pos hhack]
      have hu := withUnits?_of_isHack hhack
      rw [rewrite_none hl, rewrite_none hu, List.flatMap_singleton, List.flatMap_singleton,
        rewrite_none hl, rewrite_none hu]
    | false =>
      rcases h.cases hhack hmem with ⟨hr, hagree⟩ | hc
      · exact rewrite_comm_of_length hname hmem hr hhack hagree
      · exact rewrite_comm_of_none hmem hc
  · -- neither the declaration nor what it becomes is taken apart
    rw [rewrite_none (longhands?_of_not_mem hmem), List.flatMap_singleton]
    cases hu : withUnits? d with
    | none =>
      rw [rewrite_none hu, List.flatMap_singleton, rewrite_none (longhands?_of_not_mem hmem)]
    | some pairs =>
      obtain ⟨revised, rfl, hlower⟩ := of_withUnits?_of_not_mem hname hmem hu
      rw [rewrite_some hu, List.map_singleton, List.flatMap_singleton,
        rewrite_none (longhands?_of_not_mem (d := d.replacedBy (Text.lower d.prop, revised)) hlower)]

end Declaration

/-! ## 4. What is refused -/

theorem checkWords_of_readBack {ws : List String} (h : ∀ w ∈ ws, ReadBack w) :
    checkWords ws = .ok () :=
  Stage.forM_eq_ok.mpr fun w hw => (h w hw).accepted

/-- A shorthand accepts what is read back word by word. -/
theorem Compound.check_of_readBack (s : Compound) {value : String} (h : ReadBack value)
    (hw : ∀ w ∈ words value, ReadBack w) : s.check value = .ok () := by
  have hwords := checkWords_of_readBack hw
  have hread : checkWords (Columns.readWords (words value)) = .ok () :=
    checkWords_of_readBack fun w hmem => hw w (Columns.readWords_subset _ hmem)
  cases s with
  | box name => exact h.accepted
  | columns => rw [check, h.accepted]; exact hread
  | border b =>
    cases b with
    | part p =>
      rw [check, BorderShorthand.check, h.accepted]
      rfl
    | all | side s =>
      rw [check, BorderShorthand.check, h.accepted]
      · exact hwords
      · simp

/-- The width of columns is read when the columns are. -/
theorem Columns.checkIntegers_width {value : String} {c : Columns}
    (h : Columns.ofWords (words value) = .ok c) (hok : Compound.columns.check value = .ok ()) :
    checkIntegers (c.width.getD "auto") = .ok () := by
  have hwords : checkWords (words value) = .ok () := by
    have hread : Columns.readWords (words value) = words value := by
      rw [Columns.ofWords] at h
      split at h
      · cases h
      · next hlen =>
        rw [Bool.or_eq_true, not_or] at hlen
        exact if_neg (by simpa using hlen.2)
    rw [Compound.check] at hok
    cases hc : checkIntegers value with
    | error e => rw [hc] at hok; cases hok
    | ok => rwa [hc, hread] at hok
  cases hw : c.width with
  | none => exact (readBack_openParts "auto" (by simp [openParts])).accepted
  | some w => exact Stage.forM_eq_ok.mp hwords w ((Columns.mem_of_ofWords h).1 w hw)

namespace Declaration

variable {d : Declaration}

theorem accepts_units_iff :
    (Pass.units .nothing).Accepts d ↔
      d.isHack = true ∨ checkUnits .nothing d.prop d.value = .ok () := by
  rw [Pass.Accepts, Pass.units, List.forall_mem_singleton, Stage.check]
  cases hhack : d.isHack <;> simp [hhack, Revision.units]

theorem accepts_longhands_of_check
    (h : d.isHack = true ∨ checkLonghands .nothing d.prop d.value = .ok ()) :
    (Pass.longhands .nothing).Accepts d := by
  intro s hs
  rw [stages_longhands] at hs
  obtain ⟨names, -, rfl⟩ := List.mem_map.mp hs
  rw [check_longhandStage]
  split
  · next hc =>
    rw [Bool.and_eq_true, Bool.not_eq_true'] at hc
    exact h.resolve_left (by simp [hc.2])
  · rfl

theorem accepts_longhands_of_not_mem (h : d.prop ∉ stageNames.flatten) :
    (Pass.longhands .nothing).Accepts d := fun s hs =>
  Stage.check_of_not_considers (not_considers_of_not_mem h s hs)

theorem accepts_longhands_of_readBack (h : ReadBack d.value) (hw : ∀ w ∈ words d.value, ReadBack w) :
    (Pass.longhands .nothing).Accepts d := by
  refine accepts_longhands_of_check (.inr ?_)
  rw [checkLonghands]
  split
  · next s _ _ => exact s.check_of_readBack h hw
  · rfl

/-- For a plain name, adding units reads the value once, if at all. -/
theorem accepts_units (hp : IsPlainName d.prop)
    (h : UnitCategory.ofProperty d.prop = .none ∨ checkIntegers d.value = .ok ()) :
    (Pass.units .nothing).Accepts d := by
  refine accepts_units_iff.mpr (.inr ?_)
  rw [checkUnits]
  split
  · rfl
  · next hc =>
    have hok := h.resolve_left fun hnone => hc (by simp [hnone])
    rw [hp.lower, hp.animation, hok]
    rfl

/-- Adding units accepts the parts of a declaration that is taken apart, and the declaration. -/
theorem accepts_units_rewrite (hname : ∃ name, d.prop = propertyName name) (h : d.Agrees)
    (hok : (Pass.longhands .nothing).Accepts d) :
    (∀ e ∈ d.rewrite longhands?, (Pass.units .nothing).Accepts e) ↔
      (Pass.units .nothing).Accepts d := by
  cases hd : longhands? d with
  | none => rw [rewrite_none hd, List.forall_mem_singleton]
  | some pairs =>
    obtain ⟨hhack, hl, s, hs, htake⟩ := of_longhands? hd
    have hmem := (Compound.name_of_ofName? hs).2
    have hplain := isPlainName_of_mem hmem
    have hparts := isPlainName_of_takeApart hs htake
    rw [rewrite_some hd, List.forall_mem_map]
    rcases h.cases hhack hmem with ⟨-, hagree⟩ | hc
    · refine iff_of_true (fun pair hpair => ?_) (accepts_units hplain (.inr hagree.readBack.accepted))
      exact accepts_units (d := d.replacedBy pair) (hparts pair hpair)
        (.inr (readBack_part hagree htake pair hpair).accepted)
    · refine iff_of_true (fun pair hpair => ?_) (accepts_units hplain (.inl hc))
      refine accepts_units (d := d.replacedBy pair) (hparts pair hpair) ?_
      refine (part_cases hs hc htake pair hpair).imp_right ?_
      rintro ⟨c, rfl, hwords, rfl⟩
      refine Columns.checkIntegers_width hwords ?_
      have hall := checkAll_longhands_ok .nothing (List.forall_mem_singleton.mpr hname)
        ((separate_longhands .nothing).checkAll_eq_ok.mpr (List.forall_mem_singleton.mpr hok))
        d List.mem_cons_self hhack
      rw [checkLonghands, hplain.lower, hs] at hall
      have hprotected : protectedBy? .nothing d.prop d.value = none := by
        rw [longhands] at hl
        split at hl
        · cases hl
        · assumption
      rwa [hprotected] at hall

/-- Taking apart accepts a declaration with units if it accepts it without. -/
theorem accepts_longhands_rewrite (hname : ∃ name, d.prop = propertyName name) (h : d.Agrees) :
    (∀ e ∈ d.rewrite withUnits?, (Pass.longhands .nothing).Accepts e) ↔
      (Pass.longhands .nothing).Accepts d := by
  by_cases hmem : d.prop ∈ stageNames.flatten
  · have hplain := isPlainName_of_mem hmem
    cases hhack : d.isHack with
    | true =>
      rw [rewrite_none (withUnits?_of_isHack hhack), List.forall_mem_singleton]
    | false =>
      rcases h.cases hhack hmem with ⟨hr, hagree⟩ | hc
      · have hwords : ∀ w ∈ words d.value, ReadBack w := fun w hw =>
          readBack_of_mem_words hagree.readBack hagree.words hw
        rw [rewrite_withUnits hplain hr hhack hagree.readBack, List.forall_mem_singleton]
        refine iff_of_true (accepts_longhands_of_readBack (hagree.readBack.fill _) ?_)
          (accepts_longhands_of_readBack hagree.readBack hwords)
        change ∀ w ∈ words (lengthRule.fill d.value), ReadBack w
        rw [words_fill hagree.readBack hagree.words, List.forall_mem_map]
        exact fun w hw => (hwords w hw).fill _
      · rw [rewrite_withUnits_of_none hplain hc, List.forall_mem_singleton]
  · cases hu : withUnits? d with
    | none => rw [rewrite_none hu, List.forall_mem_singleton]
    | some pairs =>
      obtain ⟨revised, rfl, hlower⟩ := of_withUnits?_of_not_mem hname hmem hu
      rw [rewrite_some hu, List.map_singleton, List.forall_mem_singleton]
      exact iff_of_true
        (accepts_longhands_of_not_mem (d := d.replacedBy (Text.lower d.prop, revised)) hlower)
        (accepts_longhands_of_not_mem hmem)

end Declaration

/-! ## 5. Stylesheets -/

/-- Every shorthand of lengths in a rule of the stylesheet has plain words, and parts that agree with
it. -/
def PartsAgreeIn (sheet : Sheet) : Prop :=
  ∀ body ∈ (Pass.longhands .nothing).listBodies sheet, ∀ d ∈ Node.declarations body,
    d.TakesLengths → PlainWords d.value ∧ PartsAgree d.prop d.value

/-- Two passes give the same stylesheet in either order: in place, both orders end on the same tree,
or both are stopped by an overlong integer, namely if one of the passes refuses the stylesheet. -/
structure Pass.EitherOrder (p q : Pass) (sheet : Sheet) : Prop where
  trees : q.apply (p.apply sheet) = p.apply (q.apply sheet)
  forth : (Edit.runPasses [p, q]).Ends (ofSheet sheet)
    (fun _ g => (p.check sheet = .ok () ∧ q.check sheet = .ok ()) ∧
      g.sheet = q.apply (p.apply sheet))
    (fun e _ => (∃ cause, e = .overlong cause) ∧
      ¬(p.check sheet = .ok () ∧ q.check sheet = .ok ()))
  back : (Edit.runPasses [q, p]).Ends (ofSheet sheet)
    (fun _ g => (p.check sheet = .ok () ∧ q.check sheet = .ok ()) ∧
      g.sheet = q.apply (p.apply sheet))
    (fun e _ => (∃ cause, e = .overlong cause) ∧
      ¬(p.check sheet = .ok () ∧ q.check sheet = .ok ()))

/-- What a run of passes ends on, if the accepted stylesheets and the result are known. -/
theorem ends_runPasses_iff (kinds : List PassKind) {sheet result : Sheet} {accepted : Prop}
    (hcheck : checkPasses (kinds.map (PassKind.pass .nothing)) sheet = .ok () ↔ accepted)
    (hresult : applyPasses (kinds.map (PassKind.pass .nothing)) sheet = result) :
    (Edit.runPasses (kinds.map (PassKind.pass .nothing))).Ends (ofSheet sheet)
      (fun _ g => accepted ∧ g.sheet = result)
      (fun e _ => (∃ cause, e = .overlong cause) ∧ ¬accepted) := by
  have hrun := ends_runPasses_sheet .nothing kinds (sound_ofSheet sheet) (isSheet_ofSheet sheet)
  rw [sheet_ofSheet, hresult] at hrun
  refine hrun.mono (fun _ _ hg => ⟨hcheck.mp hg.1, hg.2⟩) ?_
  rintro e _ ⟨cause, he, hc⟩
  refine ⟨⟨cause, he⟩, fun ha => ?_⟩
  rw [hcheck.mpr ha] at hc
  cases hc

section Sheet

variable {css : String} {sheet : Sheet} (h : Sheet.parse css = .ok sheet)
include h

theorem exists_name_of_listBodies (p : Pass) {body : List Node} (hb : body ∈ p.listBodies sheet)
    {d : Declaration} (hd : d ∈ Node.declarations body) : ∃ name, d.prop = propertyName name :=
  exists_propertyName (inBody_of_listBodies p (inRules_of_parse h) body hb) hd

section Agreeing

variable (hagree : ∀ body ∈ (Pass.longhands .nothing).listBodies sheet,
  ∀ d ∈ Node.declarations body, d.Agrees)
include hagree

/-- The two passes give the same sheet in either order, declaration by declaration. -/
theorem apply_units_longhands : (Pass.units .nothing).apply ((Pass.longhands .nothing).apply sheet) =
    (Pass.longhands .nothing).apply ((Pass.units .nothing).apply sheet) := by
  have hlonghands := (Pass.longhands .nothing).applyBody_eq (separate_longhands .nothing).independent
  have hunits := (Pass.units .nothing).applyBody_eq (PassKind.units.independent .nothing)
  refine Pass.applyNodes_comm sheet fun body hb => ?_
  rw [hlonghands, hlonghands, hunits, hunits, List.flatMap_assoc, List.flatMap_assoc]
  refine List.flatMap_congr fun n hn => ?_
  cases n with
  | declaration d =>
    have hd : d ∈ Node.declarations body := List.mem_filterMap.mpr ⟨_, hn, rfl⟩
    have hcomm := d.rewrite_comm (exists_name_of_listBodies h _ hb hd) (hagree body hb d hd)
    have hmap := congrArg (List.map Node.declaration) hcomm
    rw [List.map_flatMap, List.map_flatMap] at hmap
    rw [Node.rewrite, Node.rewrite, List.flatMap_map, List.flatMap_map]
    exact hmap
  | _ => rfl

theorem check_units_longhands (hok : (Pass.longhands .nothing).check sheet = .ok ()) :
    (Pass.units .nothing).check ((Pass.longhands .nothing).apply sheet) = .ok () ↔
      (Pass.units .nothing).check sheet = .ok () := by
  have hseparate : Stage.Separate (Pass.units .nothing).stages := List.pairwise_singleton ..
  refine Pass.check_apply_eq_ok hseparate (separate_longhands .nothing).independent
    fun body _ hb d hd => ?_
  exact d.accepts_units_rewrite (exists_name_of_listBodies h _ hb hd) (hagree body hb d hd)
    ((Pass.check_eq_ok (separate_longhands .nothing)).mp hok body hb d hd)

theorem check_longhands_units :
    (Pass.longhands .nothing).check ((Pass.units .nothing).apply sheet) = .ok () ↔
      (Pass.longhands .nothing).check sheet = .ok () := by
  refine Pass.check_apply_eq_ok (separate_longhands .nothing)
    (PassKind.units.independent .nothing) fun body hb _ d hd => ?_
  exact d.accepts_longhands_rewrite (exists_name_of_listBodies h _ hb hd) (hagree body hb d hd)

/-- And they refuse the same sheets, so they can be exchanged. -/
theorem eitherOrder_of_agrees :
    (Pass.longhands .nothing).EitherOrder (.units .nothing) sheet := by
  have hboth : ∀ (p q : Pass), checkPasses [p, q] sheet = .ok () ↔
      p.check sheet = .ok () ∧ q.check (p.apply sheet) = .ok () := by
    intro p q
    simp only [checkPasses]
    cases p.check sheet with
    | error e => simp [bind, Except.bind]
    | ok => cases q.check (p.apply sheet) <;> simp [bind, Except.bind]
  refine ⟨apply_units_longhands h hagree, ?_, ?_⟩
  · exact ends_runPasses_iff [.longhands, .units]
      ((hboth _ _).trans (and_congr_right fun hok => check_units_longhands h hagree hok)) rfl
  · exact ends_runPasses_iff [.units, .longhands]
      ((hboth _ _).trans (and_comm.trans (and_congr_left fun _ => check_longhands_units h hagree)))
      (apply_units_longhands h hagree).symm

end Agreeing

/-- In a source without faults in which nothing is misread, plain words are enough for the parts to stand
for themselves. -/
theorem agrees_of_parse (hf : Token.listHasFault (Token.ofChars css.toList) = false)
    (hm : Token.listMisread (Token.ofChars css.toList) = false) (hparts : PartsAgreeIn sheet) :
    ∀ body ∈ (Pass.longhands .nothing).listBodies sheet, ∀ d ∈ Node.declarations body,
      d.Agrees := by
  intro body hb d hd hlengths
  obtain ⟨hwords, hagree⟩ := hparts body hb d hd hlengths
  have hvalue : isHackValue d.value = false := by
    have hhack := hlengths.hack
    rw [Declaration.isHack, Declaration.isCustom,
      (isPlainName_of_mem hlengths.mem).custom] at hhack
    simp only [Bool.not_false, Bool.true_and, Bool.or_eq_false_iff] at hhack
    exact hhack.2
  have hread := readBack_of_parse h hf hm (Sheet.mem_bodies hb) hd hvalue hwords.closed
  exact ⟨hagree, hread, hwords.wordsAlone hread⟩

/-- On a stylesheet that is parsed from a source without faults in which nothing is misread, taking
shorthands apart and adding units give the same in either order, if the parts of every shorthand of
lengths in a rule agree with it.

Where a part does not agree, the two orders differ for good reason: as part of a border line a zero in an
unknown function is a length, in the color of that line it is not. -/
theorem longhands_units_eitherOrder (hf : Token.listHasFault (Token.ofChars css.toList) = false)
    (hm : Token.listMisread (Token.ofChars css.toList) = false) (hparts : PartsAgreeIn sheet) :
    (Pass.longhands .nothing).EitherOrder (.units .nothing) sheet :=
  eitherOrder_of_agrees h (agrees_of_parse h hf hm hparts)

end Sheet

/-- A stylesheet with bare zeros in a margin and in a border line. -/
def zeroLine : Sheet :=
  [.rule "a" [.declaration ⟨"margin", "0 auto", false⟩,
    .declaration ⟨"border-top", "0 solid red", false⟩]]

/-- A sheet with zeros in two shorthands that have units. -/
theorem longhands_units_eitherOrder_zeroLine :
    Sheet.parse "a\x7bmargin:0 auto;border-top:0 solid red\x7d" = .ok zeroLine ∧
      Token.listHasFault
        (Token.ofChars "a\x7bmargin:0 auto;border-top:0 solid red\x7d".toList) = false ∧
      Token.listMisread
        (Token.ofChars "a\x7bmargin:0 auto;border-top:0 solid red\x7d".toList) = false ∧
      PartsAgreeIn zeroLine ∧ (Pass.longhands .nothing).EitherOrder (.units .nothing) zeroLine := by
  have h : Sheet.parse "a\x7bmargin:0 auto;border-top:0 solid red\x7d" = .ok zeroLine := by
    rw [zeroLine]
    cbv
  have hfault : Token.listHasFault
      (Token.ofChars "a\x7bmargin:0 auto;border-top:0 solid red\x7d".toList) = false := by
    decide +kernel
  have hmisread : Token.listMisread
      (Token.ofChars "a\x7bmargin:0 auto;border-top:0 solid red\x7d".toList) = false := by
    decide +kernel
  have hmargin : PlainWords "0 auto" ∧ PartsAgree "margin" "0 auto" :=
    ⟨⟨by decide +kernel, by decide, by decide +kernel, by decide +kernel⟩,
      by decide +kernel, by decide +kernel⟩
  have hborder : PlainWords "0 solid red" ∧ PartsAgree "border-top" "0 solid red" :=
    ⟨⟨by decide +kernel, by decide, by decide +kernel, by decide +kernel⟩,
      by decide +kernel, by decide +kernel⟩
  have hparts : PartsAgreeIn zeroLine := by
    intro body hbody d hd _
    obtain rfl := List.mem_singleton.mp hbody
    simp only [Node.declarations, Node.declaration?, List.filterMap_cons, List.filterMap_nil,
      List.mem_cons, List.not_mem_nil, or_false] at hd
    rcases hd with rfl | rfl
    · exact hmargin
    · exact hborder
  exact ⟨h, hfault, hmisread, hparts, longhands_units_eitherOrder h hfault hmisread hparts⟩

/-- A stylesheet with a zero in the color of a border line. -/
def shadedLine : Sheet :=
  [.rule "a" [.declaration ⟨"border-top", "1px solid shade(0)", false⟩]]

/-- The color gets a length as a part of the border line, but not by itself. -/
theorem not_eitherOrder_shadedLine :
    Sheet.parse "a\x7bborder-top:1px solid shade(0)\x7d" = .ok shadedLine ∧
      Token.listHasFault (Token.ofChars "a\x7bborder-top:1px solid shade(0)\x7d".toList) = false ∧
      (Token.listFlat (Token.ofChars "1px solid shade(0)".toList)).all (!isCommentLexeme ·) ∧
      (Edit.runPasses [.longhands .nothing, .units .nothing]).Ends (ofSheet shadedLine)
        (fun _ g => g.sheet = [.rule "a" [.declaration ⟨"border-top-width", "1px", false⟩,
          .declaration ⟨"border-top-style", "solid", false⟩,
          .declaration ⟨"border-top-color", "shade(0)", false⟩]])
        (fun _ _ => False) ∧
      (Edit.runPasses [.units .nothing, .longhands .nothing]).Ends (ofSheet shadedLine)
        (fun _ g => g.sheet = [.rule "a" [.declaration ⟨"border-top-width", "1px", false⟩,
          .declaration ⟨"border-top-style", "solid", false⟩,
          .declaration ⟨"border-top-color", "shade(0px)", false⟩]])
        (fun _ _ => False) := by
  -- what is taken apart stays in the forest, without a parent
  let after (value color : String) : Forest :=
    ⟨#[⟨.sheet [1], none⟩, ⟨.rule "a" [3, 4, 5], some 0⟩,
      ⟨.declaration ⟨"border-top", value, false⟩, none⟩,
      ⟨.declaration ⟨"border-top-width", "1px", false⟩, some 1⟩,
      ⟨.declaration ⟨"border-top-style", "solid", false⟩, some 1⟩,
      ⟨.declaration ⟨"border-top-color", color, false⟩, some 1⟩]⟩
  have hsheet : ∀ value color : String, (after value color).sheet =
      [.rule "a" [.declaration ⟨"border-top-width", "1px", false⟩,
        .declaration ⟨"border-top-style", "solid", false⟩,
        .declaration ⟨"border-top-color", color, false⟩]] := fun _ _ => rfl
  have hforth : (Edit.runPasses [.longhands .nothing, .units .nothing]).endsOn (ofSheet shadedLine)
      (after "1px solid shade(0)" "shade(0)") = true := by
    decide +kernel
  have hback : (Edit.runPasses [.units .nothing, .longhands .nothing]).endsOn (ofSheet shadedLine)
      (after "1px solid shade(0px)" "shade(0px)") = true := by
    decide +kernel
  refine ⟨?_, by decide +kernel, by decide +kernel, ?_, ?_⟩
  · rw [shadedLine]
    cbv
  · exact (Edit.Ends.of_endsOn hforth).mono (fun _ _ hg => hg ▸ hsheet _ _) fun _ _ => id
  · exact (Edit.Ends.of_endsOn hback).mono (fun _ _ hg => hg ▸ hsheet _ _) fun _ _ => id

end CssExpand
