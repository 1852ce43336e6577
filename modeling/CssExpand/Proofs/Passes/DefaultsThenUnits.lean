import CssExpand.Proofs.Passes.EitherOrder
import CssExpand.Proofs.Units.KeptPlaces
import Mathlib

/-!
# Defaults, then units, once

Completing the shorthands of a stylesheet and then adding units is done once and for all: both passes
leave the tree that they made as it is, cell by cell (`defaultsThenUnits_again`). The step is about one
declaration (`Declaration.settled_rewrite_units`); here it is carried to the declarations of all bodies
that the passes go to, which are the same for both. What the step asks of a declaration is not met by
`transition: 0`, whose zero is a property until it has a unit (`defaultsThenUnits_zeroTransition`).
-/

set_option autoImplicit false

namespace CssExpand

open Syntax Value Forest

/-! ## 1. The declarations of a stylesheet -/

namespace Pass

variable {p q : Pass}

mutual

theorem bodies_congr (h : p.reach = q.reach) : ∀ n : Node, p.bodies n = q.bodies n
  | .rule .. => rfl
  | .atBlock _ _ true nodes => listBodies_congr h nodes
  | .atBlock _ _ false _ => by rw [bodies, bodies, h]
  | .declaration _ | .raw _ | .comment _ | .atStatement .. => rfl

/-- The bodies that a pass goes to depend on its reach only. -/
theorem listBodies_congr (h : p.reach = q.reach) : ∀ ns : List Node, p.listBodies ns = q.listBodies ns
  | [] => rfl
  | n :: ns => by rw [listBodies, listBodies, bodies_congr h n, listBodies_congr h ns]

end

mutual

theorem bodies_applyNode (p : Pass) : ∀ n : Node,
    p.bodies (p.applyNode n) = (p.bodies n).map p.applyBody
  | .rule .. => rfl
  | .atBlock _ _ true nodes => listBodies_applyNodes p nodes
  | .atBlock _ _ false body => by
    rw [applyNode, bodies, bodies]
    split <;> rfl
  | .declaration _ | .raw _ | .comment _ | .atStatement .. => rfl

/-- The bodies that a pass goes to, once it changed them. -/
theorem listBodies_applyNodes (p : Pass) : ∀ ns : List Node,
    p.listBodies (p.applyNodes ns) = (p.listBodies ns).map p.applyBody
  | [] => rfl
  | n :: ns => by
    rw [applyNodes, listBodies, listBodies, bodies_applyNode p n, listBodies_applyNodes p ns,
      List.map_append]

end

end Pass

/-- The declarations in all bodies of a stylesheet. -/
def Sheet.declarations (sheet : Sheet) : List Declaration := sheet.bodies.flatMap Node.declarations

section Blocks

variable {p : Pass} (hp : p.reach = .blocks)
include hp

theorem Pass.listBodies_eq_bodies (sheet : Sheet) : p.listBodies sheet = sheet.bodies :=
  Pass.listBodies_congr hp sheet

theorem Pass.declarations_apply (hind : Stage.Independent p.stages) (sheet : Sheet) :
    (p.apply sheet).declarations =
      sheet.declarations.flatMap (Declaration.rewrite (Stage.decided? p.stages)) := by
  have hbodies : (p.apply sheet).bodies = sheet.bodies.map p.applyBody := by
    rw [← Pass.listBodies_eq_bodies hp, ← Pass.listBodies_eq_bodies hp]
    exact p.listBodies_applyNodes sheet
  rw [Sheet.declarations, Sheet.declarations, hbodies, List.flatMap_map, List.flatMap_assoc]
  exact List.flatMap_congr fun body _ => by
    rw [Pass.applyBody_eq hind, Node.declarations_rewrite]

theorem Pass.check_eq_ok_iff_declarations (hsep : Stage.Separate p.stages) {sheet : Sheet} :
    p.check sheet = .ok () ↔ ∀ d ∈ sheet.declarations, p.Accepts d := by
  rw [Pass.check_eq_ok hsep, Pass.listBodies_eq_bodies hp, Sheet.declarations]
  simp only [List.mem_flatMap, forall_exists_index, and_imp]
  exact ⟨fun h d body hbody hd => h body hbody d hd, fun h body hbody d hd => h d body hbody hd⟩

omit hp in
/-- A pass leaves a forest as it is if it leaves the declarations of its stylesheet alone. -/
theorem Edit.run_runPass_of_declarations (hind : Stage.Independent p.stages) {f : Forest} (hf : f.Sound)
    (h : ∀ d ∈ f.sheet.declarations, Stage.Settled p.stages d) : (runPass p).run f = .ok 0 f := by
  refine run_runPass_of_settled hind hf fun b hb d hd => ?_
  have hmem : f.declarationsIn b ∈ (p.listBodies f.sheet).map Node.declarations :=
    bodies_sheet hf p ▸ List.mem_map_of_mem hb
  obtain ⟨body, hbody, heq⟩ := List.mem_map.mp hmem
  exact h d (List.mem_flatMap.mpr ⟨body, Sheet.mem_bodies hbody, heq ▸ hd⟩)

end Blocks

/-! ## 2. Both passes -/

theorem forall₂_flatMap {α : Type} {R : α → α → Prop} {f : α → List α} {xs : List α}
    (h : ∀ x ∈ xs, ∃ y, f x = [y] ∧ R x y) : List.Forall₂ R xs (xs.flatMap f) := by
  induction xs with
  | nil => exact .nil
  | cons x xs ih =>
    rw [List.forall_mem_cons] at h
    obtain ⟨y, hy, hxy⟩ := h.1
    rw [List.flatMap_cons, hy]
    exact .cons hxy (ih h.2)

theorem separate_defaults (registry : Registry) (ignored : Ignored) :
    Stage.Separate (Pass.defaults registry ignored).stages := List.pairwise_singleton ..

theorem separate_units (ignored : Ignored) : Stage.Separate (Pass.units ignored).stages :=
  List.pairwise_singleton ..

section Declarations

variable {css : String} {sheet : Sheet} (h : Sheet.parse css = .ok sheet) {ignored : Ignored}
  (hw : ∀ d ∈ sheet.declarations, d.IsReplaced ignored → d.KeepsPlaces)
  (hcheck : (Pass.defaults .standard ignored).check sheet = .ok ())
  (hcheck' : (Pass.units ignored).check ((Pass.defaults .standard ignored).apply sheet) = .ok ())
include h hw hcheck hcheck'

/-- What both passes make of a declaration is left alone by both, and its words keep their slots. -/
theorem Sheet.settled_declarations :
    ∀ d₁ ∈ ((Pass.defaults .standard ignored).apply sheet).declarations,
      ∀ d₂ ∈ d₁.rewrite (Stage.decided? (Pass.units ignored).stages),
        Stage.Settled (Pass.defaults .standard ignored).stages d₂ ∧
          Stage.Settled (Pass.units ignored).stages d₂ ∧ d₁.KeepsSlots d₂ := by
  have hdefaults := separate_defaults .standard ignored
  have haccepts := (Pass.check_eq_ok_iff_declarations rfl hdefaults).mp hcheck
  have haccepts' := (Pass.check_eq_ok_iff_declarations rfl (separate_units ignored)).mp hcheck'
  intro d₁ hd₁ d₂ hd₂
  have hd := hd₁
  rw [Pass.declarations_apply rfl hdefaults.independent] at hd
  obtain ⟨d, hd, hrewrite⟩ := List.mem_flatMap.mp hd
  obtain ⟨body, hbody, hmem⟩ := List.mem_flatMap.mp hd
  exact Declaration.settled_rewrite_units (exists_name_of_listBodies h _ hbody hmem) (hw d hd)
    (haccepts d hd) hrewrite (haccepts' d₁ hd₁) hd₂

/-- Each declaration is followed by one in its place, with its words in the same slots. -/
theorem Sheet.keepsSlots_declarations : List.Forall₂ Declaration.KeepsSlots
    ((Pass.defaults .standard ignored).apply sheet).declarations
    (((Pass.defaults .standard ignored).apply sheet).declarations.flatMap
      (Declaration.rewrite (Stage.decided? (Pass.units ignored).stages))) := by
  have haccepts' := (Pass.check_eq_ok_iff_declarations rfl (separate_units ignored)).mp hcheck'
  refine forall₂_flatMap fun d₁ hd₁ => ?_
  obtain ⟨d₂, hd₂⟩ : ∃ d₂, d₁.rewrite (Stage.decided? (Pass.units ignored).stages) = [d₂] :=
    (Declaration.rewrite_units_cases (haccepts' d₁ hd₁)).elim (fun h => ⟨_, h.1⟩)
      fun ⟨_, _, _, h, _⟩ => ⟨_, h⟩
  have hmem : d₂ ∈ d₁.rewrite (Stage.decided? (Pass.units ignored).stages) :=
    hd₂ ▸ List.mem_singleton_self d₂
  obtain ⟨-, -, hslots⟩ := Sheet.settled_declarations h hw hcheck hcheck' d₁ hd₁ d₂ hmem
  exact ⟨d₂, hd₂, hslots⟩

end Declarations

/-- Completing the shorthands of a parsed stylesheet and adding units leaves a tree that doing both again
leaves as it is, and adding units moves no word to another slot. Of the declarations that are replaced,
the values are read as they are written and no zero can take another place; nothing is asked of the
others.

That nothing is to be done the second time is said of the tree in place, cell by cell and with no
declaration counted as changed, which is more than that the second text is the first one. An overlong
integer stops the passes as ever, and it is told which of the two refuses it. -/
theorem defaultsThenUnits_again {css : String} {sheet : Sheet} (h : Sheet.parse css = .ok sheet)
    {ignored : Ignored} (hw : ∀ d ∈ sheet.declarations, d.IsReplaced ignored → d.KeepsPlaces) :
    (Edit.runBoth (.defaults .standard ignored) (.units ignored)).Ends (ofSheet sheet)
      (fun _ f => (Edit.runBoth (.defaults .standard ignored) (.units ignored)).run f =
          .ok (0, 0) f ∧
        List.Forall₂ Declaration.KeepsSlots
          ((Pass.defaults .standard ignored).apply sheet).declarations f.sheet.declarations)
      (fun e _ => ∃ cause, e = .overlong cause ∧
        ((Pass.defaults .standard ignored).check sheet = .error cause ∨
          (Pass.units ignored).check ((Pass.defaults .standard ignored).apply sheet) =
            .error cause)) := by
  have hdefaults := separate_defaults .standard ignored
  have hunits := separate_units ignored
  have hfirst := Edit.ends_runPass_sheet hdefaults.independent (sound_ofSheet sheet)
    (isSheet_ofSheet sheet)
  rw [sheet_ofSheet] at hfirst
  refine .bind (hfirst.mono (fun _ _ h => h) ?_) ?_
  · rintro e g ⟨cause, he, hc⟩
    exact ⟨cause, he, .inl hc⟩
  rintro m g ⟨⟨hg, hroot⟩, -, hcheck, hsheet⟩
  have hnext := Edit.ends_runPass_sheet hunits.independent hg hroot
  rw [hsheet] at hnext
  refine .bind (hnext.mono (fun _ _ h => h) ?_) ?_
  · rintro e f ⟨cause, he, hc⟩
    exact ⟨cause, he, .inr hc⟩
  rintro n f ⟨⟨hf, -⟩, -, hcheck', hsheet'⟩
  -- both passes have run: what stands in the sheet now is settled under either
  have hfilled := Pass.declarations_apply (p := .units ignored) rfl hunits.independent
    ((Pass.defaults .standard ignored).apply sheet)
  rw [← hsheet'] at hfilled
  have hall : ∀ d ∈ f.sheet.declarations, Stage.Settled (Pass.defaults .standard ignored).stages d ∧
      Stage.Settled (Pass.units ignored).stages d := by
    intro d₂ hd₂
    rw [hfilled] at hd₂
    obtain ⟨d₁, hd₁, hd₂⟩ := List.mem_flatMap.mp hd₂
    obtain ⟨hd, hu, -⟩ := Sheet.settled_declarations h hw hcheck hcheck' d₁ hd₁ d₂ hd₂
    exact ⟨hd, hu⟩
  refine .pure ⟨?_, hfilled ▸ Sheet.keepsSlots_declarations h hw hcheck hcheck'⟩
  -- so the second round finds nothing to do, in the forest too
  have hidle := Edit.run_runPass_of_declarations hdefaults.independent hf fun d hd => (hall d hd).1
  have hidle' := Edit.run_runPass_of_declarations hunits.independent hf fun d hd => (hall d hd).2
  rw [Edit.runBoth, EStateM.run_bind, hidle]
  simp only
  rw [EStateM.run_bind, hidle']
  rfl

/-- Zeros of a shorthand without a grammar, of a gap, and of an animation whose count is a zero. -/
def zerosInPlace : Sheet :=
  [.rule "a" [.declaration ⟨"margin", "0", false⟩, .declaration ⟨"gap", "0", false⟩,
    .declaration ⟨"animation", "spin 0", false⟩]]

/-- Zeros that are given units without changing places: a box that no default fills, a gap and an
animation. -/
theorem defaultsThenUnits_again_zerosInPlace :
    Sheet.parse "a{margin:0;gap:0;animation:spin 0}" = .ok zerosInPlace ∧
      (∀ d ∈ zerosInPlace.declarations, d.IsReplaced .nothing → d.KeepsPlaces) ∧
      (Edit.runBoth (.defaults .standard .nothing) (.units .nothing)).Ends (ofSheet zerosInPlace)
        (fun _ f => (Edit.runBoth (.defaults .standard .nothing) (.units .nothing)).run f =
            .ok (0, 0) f ∧
          List.Forall₂ Declaration.KeepsSlots
            ((Pass.defaults .standard .nothing).apply zerosInPlace).declarations
            f.sheet.declarations)
        (fun e _ => ∃ cause, e = .overlong cause ∧
          ((Pass.defaults .standard .nothing).check zerosInPlace = .error cause ∨
            (Pass.units .nothing).check ((Pass.defaults .standard .nothing).apply zerosInPlace) =
              .error cause)) := by
  have h : Sheet.parse "a{margin:0;gap:0;animation:spin 0}" = .ok zerosInPlace := by
    rw [zerosInPlace]
    cbv
  have hw : ∀ d ∈ zerosInPlace.declarations, d.IsReplaced .nothing → d.KeepsPlaces := by
    have hall : zerosInPlace.declarations = [⟨"margin", "0", false⟩, ⟨"gap", "0", false⟩,
      ⟨"animation", "spin 0", false⟩] := rfl
    rw [hall]
    simp only [List.forall_mem_cons]
    refine ⟨fun _ => ?_, fun _ => ?_, fun _ => ?_, by simp⟩
    · exact Declaration.keepsPlaces_of_unknown (by decide +kernel) (by decide +kernel) (by decide)
    · exact Declaration.keepsPlaces_of_complete (s := .gap) (by decide +kernel) (by decide +kernel) rfl
        (show _ = some "0 0" by decide +kernel) (by decide +kernel) (by decide) (by decide)
    · exact Declaration.keepsPlaces_of_complete (s := .animation) (by decide +kernel)
        (by decide +kernel) rfl
        (show _ = some "spin 0s ease 0s 0 normal none running" by decide +kernel) (by decide +kernel)
        (by decide) fun _ => by decide +kernel
  exact ⟨h, hw, defaultsThenUnits_again h hw⟩

/-- A stylesheet with a transition of a bare zero. -/
def zeroTransition : Sheet := [.rule "a" [.declaration ⟨"transition", "0", false⟩]]

/-- A zero is the property of a transition, and with a unit it is the duration: when the transition is
completed again, it moves there. -/
theorem defaultsThenUnits_zeroTransition :
    Sheet.parse "a{transition:0}" = .ok zeroTransition ∧
      ((Pass.units .nothing).apply
          ((Pass.defaults .standard .nothing).apply zeroTransition)).declarations =
        [⟨"transition", "0s 0s ease 0s", false⟩] ∧
      ((Pass.units .nothing).apply ((Pass.defaults .standard .nothing).apply
          ((Pass.units .nothing).apply
            ((Pass.defaults .standard .nothing).apply zeroTransition)))).declarations =
        [⟨"transition", "all 0s ease 0s", false⟩] := by
  refine ⟨?_, by decide +kernel, by decide +kernel⟩
  rw [zeroTransition]
  cbv

end CssExpand
