import CssExpand.Proofs.Forest.Placed
import CssExpand.Proofs.Passes.Refusals

/-!
# Passes keep a stylesheet in shape

Passes are run in place, one after the other, each with its own ignored properties. Whatever they do
comes down to single edits of the forest, and after each of these the stylesheet and the nested
blocks hold rules, at-rules and comments, and all other blocks hold declarations, raw pieces and
comments (`runPasses_inShape`). So the stylesheet can be written at any time, in the middle of a pass
too, and after a pass that was stopped. Nothing stops a pass but an overlong integer: a declaration is
always found in the block that it is replaced in.
-/

set_option autoImplicit false

namespace CssExpand

open Syntax Forest

/-- The nodes of a forest stand where they may, and what it shows can be written. It is stated for
every moment of a run, so it must not speak of the pass or of how far it has come. -/
structure Forest.InShape (f : Forest) : Prop where
  placed : f.Placed
  written : ∀ indent, ∃ text, f.sheet.write indent = .ok text

/-- The forest `g` comes from `f` by edits, and after each of them it is in shape. -/
def Forest.StaysInShape (f g : Forest) : Prop :=
  f.InShape ∧ Relation.ReflTransGen (fun f g => f.Edited g ∧ g.InShape) f g

/-! ## 1. Writing what is placed -/

/-- The tree below a node that may stand in a list of rules can be written there. -/
theorem Forest.Placed.writable {f : Forest} (hf : f.Placed) : ∀ (depth : Nat) {id : NodeId}
    {kind : NodeKind} {n : Node}, f.kind? id = some kind → kind.inRules = true →
      f.nodeWithin depth id = some n → n.Writable
  | 0, _, _, _, _, _, hn => by cases hn
  | depth + 1, id, kind, n, hkind, hin, hn => by
    obtain ⟨c, hc, rfl⟩ := Option.map_eq_some_iff.mp hkind
    rw [nodeWithin, hc] at hn
    cases c with
    | declaration => cases hin
    | raw => cases hin
    | sheet => cases hin
    | comment text =>
      cases hn
      exact .comment text
    | rule selector cs =>
      cases hn
      exact .rule selector _
    | atStatement name prelude nested =>
      cases hn
      exact .atStatement name prelude nested
    | atBlock name prelude nested cs =>
      cases hn
      cases nested with
      | false => exact .atBody name prelude _
      | true =>
        refine .atRules name prelude fun m hm => ?_
        obtain ⟨k, hk, hkm⟩ := List.mem_filterMap.mp hm
        obtain ⟨kind, hkind, hin⟩ := hf id _ k hc (by rwa [children_of_content? hc])
        exact hf.writable depth hkind hin hkm

theorem Forest.Placed.inShape {f : Forest} (hf : f.Placed) (hroot : f.IsSheet) : f.InShape := by
  refine ⟨hf, exists_write fun n hn => ?_⟩
  obtain ⟨k, hk, hkn⟩ := List.mem_filterMap.mp hn
  obtain ⟨cs, hc⟩ := isSheet_iff.mp hroot
  obtain ⟨kind, hkind, hin⟩ := hf root _ k hc hk
  exact hf.writable _ hkind hin hkn

/-! ## 2. Edits one after the other -/

/-- Any number of edits keeps a forest in shape. -/
theorem Forest.Placed.staysInShape {f g : Forest} (hf : f.Placed) (hroot : f.IsSheet)
    (h : Relation.ReflTransGen Edited f g) : f.StaysInShape g := by
  refine ⟨hf.inShape hroot, ?_⟩
  suffices hall : (g.Placed ∧ g.IsSheet) ∧
      Relation.ReflTransGen (fun f g => f.Edited g ∧ g.InShape) f g from hall.2
  induction h with
  | refl => exact ⟨⟨hf, hroot⟩, .refl⟩
  | tail _ hedit ih =>
    obtain ⟨⟨hplaced, hsheet⟩, hchain⟩ := ih
    have hplaced := hplaced.edited hedit
    have hsheet := hedit.isSheet hsheet
    exact ⟨⟨hplaced, hsheet⟩, hchain.tail ⟨hedit, hplaced.inShape hsheet⟩⟩

/-- Whatever passes are run on a parsed stylesheet, each with its own ignored properties, the forest
is in shape after every edit, and nothing stops the passes but an overlong integer. The two errors that
the writer and the search in a block could give are thereby out of reach, not merely not seen. -/
theorem runPasses_inShape {css : String} {sheet : Sheet} (h : Sheet.parse css = .ok sheet)
    (passes : List (PassKind × Ignored)) :
    let ps := passes.map fun pass => pass.1.pass pass.2
    (Edit.runPasses ps).Ends (ofSheet sheet)
      (fun _ g => (ofSheet sheet).StaysInShape g ∧ checkPasses ps sheet = .ok () ∧
        g.sheet = applyPasses ps sheet)
      (fun e g => (ofSheet sheet).StaysInShape g ∧
        ∃ cause, e = .overlong cause ∧ checkPasses ps sheet = .error cause) := by
  intro ps
  have hind : ∀ p ∈ ps, Stage.Independent p.stages := by
    intro p hp
    obtain ⟨pass, -, rfl⟩ := List.mem_map.mp hp
    exact pass.1.independent pass.2
  have hroot := isSheet_ofSheet sheet
  have hplaced := placed_ofSheet (inRules_of_parse h)
  have hends := Edit.ends_runPasses hind (sound_ofSheet sheet) hroot
  rw [sheet_ofSheet] at hends
  refine hends.mono ?_ ?_
  · rintro _ g ⟨hr, hchecks, hsheet⟩
    exact ⟨hplaced.staysInShape hroot hr.edits, hchecks, hsheet⟩
  · rintro e g ⟨hr, hcause⟩
    exact ⟨hplaced.staysInShape hroot hr.edits, hcause⟩

/-- A stylesheet with a rule inside a block of rules, and a block of declarations. -/
def printBorder : Sheet :=
  [.atBlock "media" "print" true
    [.rule "a" [.declaration ⟨"border", "0", false⟩, .comment "!"], .comment "!"],
   .atBlock "page" "" false [.declaration ⟨"margin", "0", false⟩]]

/-- A border in a nested rule with comments around it, and passes in no usual order, one of them twice. -/
theorem runPasses_inShape_printBorder :
    let passes : List (PassKind × Ignored) :=
      [(.units, .nothing), (.longhands, .nothing), (.longhands, .nothing), (.defaults, .nothing)]
    let ps := passes.map fun pass => pass.1.pass pass.2
    Sheet.parse "@media print{a{border:0;/*!*/}/*!*/}@page{margin:0}" = .ok printBorder ∧
      (Edit.runPasses ps).Ends (ofSheet printBorder)
        (fun _ g => (ofSheet printBorder).StaysInShape g ∧ checkPasses ps printBorder = .ok () ∧
          g.sheet = applyPasses ps printBorder)
        (fun e g => (ofSheet printBorder).StaysInShape g ∧
          ∃ cause, e = .overlong cause ∧ checkPasses ps printBorder = .error cause) := by
  have h : Sheet.parse "@media print{a{border:0;/*!*/}/*!*/}@page{margin:0}" = .ok printBorder := by
    rw [printBorder]
    cbv
  exact ⟨h, runPasses_inShape h _⟩

end CssExpand
