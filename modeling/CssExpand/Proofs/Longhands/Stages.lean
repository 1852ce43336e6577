import CssExpand.Proofs.Pass
import CssExpand.Proofs.Sheet.Shape
import CssExpand.Proofs.Text.LetterCase

/-!
# The stages that take shorthands apart

Boxes, columns and borders are taken apart in four stages. This file says why they could as well be
one: no stage looks at a property that an earlier one looks at or puts in (`separate_longhands`).
The border stage puts in shorthands that it would take apart itself, but it does not meet these in
the same run.

Together the stages decide about a declaration what `longhands` decides, if it is no hack
(`decided?_longhands`). That needs the name to be one that the parser makes: the stages compare it as
it is, while `longhands` lowers it in full.
-/

set_option autoImplicit false

namespace CssExpand

open Value

/-- What a declaration is taken apart into when it is met, unless it is a hack. -/
def takenApart? (ignored : Ignored) (d : Declaration) : Option (List (String × String)) :=
  if d.isHack then none else (longhands ignored d.prop d.value).pairs?

/-! ## 1. Names -/

/-- The names of the shorthands, stage by stage. -/
def stageNames : List (List String) :=
  [["margin"], ["padding"], ["columns"], BorderShorthand.list.map BorderShorthand.name]

theorem stages_longhands (ignored : Ignored) :
    (Pass.longhands ignored).stages = stageNames.map (Pass.longhandStage ignored) := rfl

namespace Compound

/-- The name of a shorthand. -/
def name : Compound → String
  | .box n => n
  | .columns => "columns"
  | .border b => b.name

/-- The properties that a shorthand is taken apart into. -/
def outputs : Compound → List String
  | .box n => Side.all.map fun s => n ++ "-" ++ s.name
  | .columns => ["column-width", "column-count"]
  | .border .all => Side.all.map fun s => (BorderShorthand.side s).name
  | .border (.side s) => BorderPart.all.map (borderLonghand s)
  | .border (.part p) => Side.all.map (borderLonghand · p)

/-- The pairs that a value of a shorthand is taken apart into name its outputs. -/
theorem fst_takeApart {s : Compound} {value : String} {pairs : List (String × String)}
    (h : s.takeApart value = .replace pairs) : pairs.map Prod.fst = s.outputs := by
  match s with
  | .box n =>
    rw [takeApart, boxLonghands] at h
    split at h <;> cases h
    rfl
  | .columns =>
    rw [takeApart, columnLonghands] at h
    split at h <;> cases h
    rfl
  | .border .all =>
    rw [takeApart, BorderShorthand.takeApart] at h
    split at h <;> cases h
    rfl
  | .border (.side s) =>
    simp only [takeApart, BorderShorthand.takeApart] at h
    split at h <;> cases h
    rfl
  | .border (.part p) =>
    rw [takeApart, BorderShorthand.takeApart] at h
    split at h <;> cases h
    rfl

/-- A shorthand is taken apart into more than one declaration. -/
theorem two_le_takeApart {s : Compound} {value : String} {pairs : List (String × String)}
    (h : s.takeApart value = .replace pairs) : 2 ≤ pairs.length := by
  rw [← List.length_map, fst_takeApart h]
  rcases s with _ | _ | _ | _ | _ <;> simp [outputs, Side.all, BorderPart.all]

/-- A shorthand is found by its own name only, and each has a stage. -/
theorem name_of_ofName? {n : String} {s : Compound} (h : ofName? n = some s) :
    s.name = n ∧ n ∈ stageNames.flatten := by
  rw [ofName?] at h
  split at h
  · next hn =>
    cases h
    refine ⟨rfl, ?_⟩
    rw [Bool.or_eq_true, beq_iff_eq, beq_iff_eq] at hn
    rcases hn with rfl | rfl <;> decide
  · split at h
    · next hn =>
      cases h
      rw [beq_iff_eq] at hn
      subst hn
      exact ⟨rfl, by decide⟩
    · obtain ⟨b, hb, rfl⟩ := Option.map_eq_some_iff.mp h
      have hname : b.name = n := by simpa using List.find?_some hb
      refine ⟨hname, ?_⟩
      have hmem : n ∈ BorderShorthand.list.map BorderShorthand.name :=
        List.mem_map.mpr ⟨b, List.mem_of_find?_eq_some hb, hname⟩
      exact List.mem_flatten.mpr ⟨_, by simp [stageNames], hmem⟩

end Compound

/-- The names of shorthands are in lower case already. -/
theorem lower_stageNames : ∀ n ∈ stageNames.flatten, Text.lower n = n := by decide +kernel

theorem isPlain_stageNames :
    ∀ n ∈ stageNames.flatten, ∀ c ∈ n.toList, Text.isPlain c = true := by
  have h : (stageNames.flatten.all fun n => n.toList.all Text.isPlain) = true := by
    decide +kernel
  exact fun n hn => List.all_eq_true.mp (List.all_eq_true.mp h n hn)

/-- No stage puts in what a later one looks at, and no two look at the same. -/
theorem pairwise_stageNames : stageNames.Pairwise fun names later => ∀ n ∈ names,
    n ∉ later ∧ ∀ output ∈ (Compound.ofName? n).elim [] Compound.outputs, output ∉ later := by
  decide +kernel

/-! ## 2. What one declaration is taken apart into -/

/-- Only a shorthand that is not protected is taken apart. -/
theorem exists_compound {ignored : Ignored} {prop value : String}
    {pairs : List (String × String)} (h : longhands ignored prop value = .replace pairs) :
    isCustomName prop = false ∧ ∃ s, Compound.ofName? (Text.lower prop) = some s ∧
      s.takeApart value = .replace pairs := by
  rw [longhands] at h
  split at h
  · cases h
  · next hp =>
    split at h
    · next s hs =>
      refine ⟨?_, s, hs, h⟩
      rw [protectedBy?] at hp
      by_contra hc
      rw [Bool.not_eq_false] at hc
      simp [hc] at hp
    · cases h

theorem pairs?_eq_some {decision : Decision} {pairs : List (String × String)} :
    decision.pairs? = some pairs ↔ decision = .replace pairs := by
  cases decision <;> simp [Decision.pairs?]

/-- What a stage decides about a declaration. -/
theorem pairs?_longhandStage (ignored : Ignored) (names : List String) (d : Declaration) :
    (Pass.longhandStage ignored names).pairs? d =
      if names.contains d.prop && !d.isHack then (longhands ignored d.prop d.value).pairs?
      else none :=
  Stage.pairs?_eq _ d

/-- A stage replaces the shorthands of its names by what they are taken apart into. -/
theorem mem_outputs_of_pairs? {ignored : Ignored} {names : List String} (hnames : names ∈ stageNames)
    {d : Declaration} {pairs : List (String × String)}
    (h : (Pass.longhandStage ignored names).pairs? d = some pairs) : d.prop ∈ names ∧
      ∀ pair ∈ pairs, pair.1 ∈ (Compound.ofName? d.prop).elim [] Compound.outputs := by
  rw [pairs?_longhandStage] at h
  split at h
  · next hd =>
    rw [Bool.and_eq_true, List.contains_iff_mem] at hd
    obtain ⟨-, s, hs, htake⟩ := exists_compound (pairs?_eq_some.mp h)
    have hmem : d.prop ∈ stageNames.flatten := List.mem_flatten.mpr ⟨names, hnames, hd.1⟩
    rw [lower_stageNames d.prop hmem] at hs
    refine ⟨hd.1, fun pair hpair => ?_⟩
    rw [hs, Option.elim_some, ← Compound.fst_takeApart htake]
    exact List.mem_map_of_mem hpair
  · cases h

/-- No stage looks at a declaration with another name than those of shorthands. -/
theorem not_considers_of_not_mem {ignored : Ignored} {d : Declaration}
    (h : d.prop ∉ stageNames.flatten) :
    ∀ s ∈ (Pass.longhands ignored).stages, s.considers d = false := by
  intro s hs
  obtain ⟨names, hnames, rfl⟩ := List.mem_map.mp (stages_longhands ignored ▸ hs)
  have hnot : d.prop ∉ names := fun hd => h (List.mem_flatten.mpr ⟨names, hnames, hd⟩)
  simp [Pass.longhandStage, hnot]

theorem separate_longhands (ignored : Ignored) :
    Stage.Separate (Pass.longhands ignored).stages := by
  rw [stages_longhands, Stage.Separate, List.pairwise_map]
  refine pairwise_stageNames.imp_of_mem fun {names later} hnames _ hpair d hd => ?_
  simp only [Pass.longhandStage, Bool.and_eq_true, List.contains_iff_mem] at hd
  have hlater : ∀ e : Declaration, e.prop ∉ later →
      (Pass.longhandStage ignored later).considers e = false := by
    intro e he
    simp [Pass.longhandStage, he]
  refine ⟨hlater d (hpair d.prop hd.1).1, fun pairs hp pair hpair' => hlater _ ?_⟩
  exact (hpair d.prop hd.1).2 pair.1 ((mem_outputs_of_pairs? hnames hp).2 pair hpair')

/-- A name that the parser makes lowers to a plain name only if it is that name. -/
theorem eq_lower_propertyName {name : List Char} (hc : isCustomName (propertyName name) = false)
    (h : ∀ c ∈ (Text.lower (propertyName name)).toList, Text.isPlain c = true) :
    propertyName name = Text.lower (propertyName name) := by
  refine Text.eq_of_lower_eq rfl (fun c hm => ?_) h
  rw [propertyName] at hm hc
  split at hm
  · next hp =>
    rw [if_pos hp, isCustomName, String.toList_ofList, hp] at hc
    cases hc
  · rw [String.toList_ofList] at hm
    exact Text.toLower_of_mem_asciiLower hm

/-- A name that the parser makes is that of a shorthand if its lower form is. -/
theorem mem_stageNames {name : List Char} (hc : isCustomName (propertyName name) = false)
    (h : Text.lower (propertyName name) ∈ stageNames.flatten) :
    propertyName name ∈ stageNames.flatten := by
  rwa [← eq_lower_propertyName hc (isPlain_stageNames _ h)] at h

theorem findSome?_ite {α β : Type} (p : α → Bool) (x : Option β) (as : List α) :
    as.findSome? (fun a => if p a then x else none) = if as.any p then x else none := by
  induction as with
  | nil => rfl
  | cons a as ih =>
    rw [List.findSome?_cons, List.any_cons, ih]
    cases p a <;> cases x <;> simp

/-- The stages together decide what is decided about the declaration in one go. -/
theorem decided?_longhands (ignored : Ignored) {d : Declaration}
    (h : ∃ name, d.prop = propertyName name) :
    Stage.decided? (Pass.longhands ignored).stages d = takenApart? ignored d := by
  obtain ⟨name, hname⟩ := h
  rw [stages_longhands, Stage.decided?, List.findSome?_map]
  simp only [Function.comp_def, pairs?_longhandStage, findSome?_ite, takenApart?]
  cases d.isHack with
  | true => simp
  | false =>
    simp only [Bool.not_false, Bool.and_true, Bool.false_eq_true, if_false]
    split
    · rfl
    · next hany =>
      cases hl : longhands ignored d.prop d.value with
      | keep => rfl
      | replace pairs =>
        obtain ⟨hc, s, hs, -⟩ := exists_compound hl
        rw [hname] at hc hs
        have hmem := mem_stageNames hc (Compound.name_of_ofName? hs).2
        rw [← hname] at hmem
        obtain ⟨names, hnames, hin⟩ := List.mem_flatten.mp hmem
        exact absurd (List.any_eq_true.mpr ⟨names, hnames, by simpa using hin⟩) hany

/-- What a stage may put in for a declaration comes from taking it apart. -/
theorem exists_compound_of_may {ignored : Ignored} {d : Declaration}
    {pairs : List (String × String)}
    (h : ∃ s ∈ (Pass.longhands ignored).stages, s.may d pairs) :
    ∃ s, Compound.ofName? d.prop = some s ∧ s.takeApart d.value = .replace pairs := by
  obtain ⟨s, hs, hp⟩ := h
  rw [stages_longhands] at hs
  obtain ⟨names, hnames, rfl⟩ := List.mem_map.mp hs
  rw [Stage.may, pairs?_longhandStage] at hp
  split at hp
  · next hc =>
    rw [Bool.and_eq_true, List.contains_iff_mem] at hc
    obtain ⟨-, s, hs, htake⟩ := exists_compound (pairs?_eq_some.mp hp)
    rw [lower_stageNames _ (List.mem_flatten.mpr ⟨names, hnames, hc.1⟩)] at hs
    exact ⟨s, hs, htake⟩
  · cases hp

/-! ## 3. What is refused -/

/-- A stage refuses what it looks at and `longhands` cannot read. -/
theorem check_longhandStage (ignored : Ignored) (names : List String) (d : Declaration) :
    (Pass.longhandStage ignored names).check d =
      if names.contains d.prop && !d.isHack then checkLonghands ignored d.prop d.value
      else .ok () := by
  rw [Stage.check]
  rfl

/-- Only a shorthand is ever refused. -/
theorem mem_of_checkLonghands {ignored : Ignored} {name : List Char} {value : String}
    {e : Syntax.OverlongInteger}
    (h : checkLonghands ignored (propertyName name) value = .error e) :
    propertyName name ∈ stageNames.flatten := by
  rw [checkLonghands] at h
  split at h
  · next s hp hs =>
    refine mem_stageNames ?_ (Compound.name_of_ofName? hs).2
    by_contra hc
    rw [Bool.not_eq_false] at hc
    simp [protectedBy?, hc] at hp
  · cases h

/-- The stages accept declarations exactly if each of them is a hack or can be read. -/
theorem checkAll_longhands_ok (ignored : Ignored) {ds : List Declaration}
    (hds : ∀ d ∈ ds, ∃ name, d.prop = propertyName name)
    (h : Stage.checkAll (Pass.longhands ignored).stages ds = .ok ()) :
    ∀ d ∈ ds, d.isHack = false → checkLonghands ignored d.prop d.value = .ok () := by
  intro d hd hhack
  have hall := (separate_longhands ignored).checkAll_eq_ok.mp h d hd
  cases hc : checkLonghands ignored d.prop d.value with
  | ok => rfl
  | error e =>
    obtain ⟨name, hname⟩ := hds d hd
    rw [hname] at hc
    obtain ⟨names, hnames, hin⟩ := List.mem_flatten.mp (mem_of_checkLonghands hc)
    have hs := hall (Pass.longhandStage ignored names)
      (by rw [stages_longhands]; exact List.mem_map_of_mem hnames)
    rw [check_longhandStage, hname] at hs
    simp [hin, hhack, hc] at hs

theorem checkAll_longhands_error (ignored : Ignored) {ds : List Declaration}
    {e : Syntax.OverlongInteger}
    (h : Stage.checkAll (Pass.longhands ignored).stages ds = .error e) :
    ∃ d ∈ ds, d.isHack = false ∧ checkLonghands ignored d.prop d.value = .error e := by
  obtain ⟨d, hd, s, hs, he⟩ := (separate_longhands ignored).checkAll_eq_error h
  rw [stages_longhands] at hs
  obtain ⟨names, -, rfl⟩ := List.mem_map.mp hs
  rw [check_longhandStage] at he
  split at he
  · next hc =>
    rw [Bool.and_eq_true, Bool.not_eq_true'] at hc
    exact ⟨d, hd, hc.2, he⟩
  · cases he

end CssExpand
