import CssExpand.Sheet.Rules
import CssExpand.Proofs.Forest.EditRun
import CssExpand.Proofs.Forest.Linked
import Mathlib

/-!
# Edits that do not find their place

What an edit leaves behind when the node that is to say where is no child of the block. A removal
looks first and changes nothing. An insertion links the node to the block before it looks, and the
link stays: it is all that has changed (`setParent_changes`), and it is a change unless the node was
linked to the block already. A node that stood in another block can then no longer be taken out
through its parent, because its parent is now a block that does not list it
(`run_remove_of_unlisted`).
-/

set_option autoImplicit false

namespace CssExpand

namespace Forest

variable {f : Forest}

/-! ## 1. Linking one node -/

/-- How nodes are shown does not depend on their parents. -/
theorem displayWithin_setParent (f : Forest) (node : NodeId) (p : Option NodeId) :
    ∀ (depth : Nat) (around : List NodeId) (id : NodeId),
      (f.setParent node p).displayWithin around depth id = f.displayWithin around depth id
  | 0, _, _ => rfl
  | depth + 1, around, id => by
    have hinside : (f.setParent node p).displayWithin (id :: around) depth =
        f.displayWithin (id :: around) depth :=
      funext fun k => displayWithin_setParent f node p depth (id :: around) k
    rw [displayWithin, displayWithin, content?_setParent, hinside]

@[simp] theorem display_setParent (f : Forest) (node : NodeId) (p : Option NodeId) (id : NodeId) :
    (f.setParent node p).display id = f.display id := by
  have hdepth : (f.setParent node p).depth = f.depth := fresh_setParent f node p
  rw [display, display, hdepth, displayWithin_setParent]

/-- Linking a node changes nothing if it was linked like that already, or does not exist. -/
theorem setParent_eq_self {node : NodeId} {p : Option NodeId} :
    f.setParent node p = f ↔ f.fresh ≤ node ∨ f.parent? node = p := by
  constructor
  · intro h
    refine (Nat.lt_or_ge node f.fresh).symm.imp id fun hlt => ?_
    rw [← parent?_setParent_self (p := p) hlt, h]
  · intro h
    refine ext_cell? fun k => ?_
    rw [cell?_setParent]
    split
    · next hk =>
      subst hk
      cases hc : f.cell? k with
      | none => rfl
      | some c =>
        have hp : c.parent = p := by
          have hlink := h.resolve_left (Nat.not_le_of_lt (lt_fresh_of_cell? hc))
          rwa [parent?_eq, hc] at hlink
        rw [Option.map_some, ← hp]
    · rfl

end Forest

namespace Edit

open Forest

variable {f : Forest} {block ref node : NodeId} {cs : List NodeId}

/-! ## 2. Runs that fail -/

theorem run_indexOf_absent (hb : f.children? block = some cs) (hr : ref ∉ cs) :
    (indexOf block ref).run f = .error (.notAChild (f.display ref)) f := by
  have hi : cs.idxOf? ref = none := List.idxOf?_eq_none_iff.mpr hr
  rw [indexOf, EStateM.run_bind, run_childrenOf hb]
  simp only [hi]
  rfl

/-- A removal that does not find the child leaves the forest as it is. -/
theorem run_removeChild_absent (hb : f.children? block = some cs) (hr : ref ∉ cs) :
    (removeChild block ref).run f = .error (.notAChild (f.display ref)) f := by
  simp [removeChild, run_requireBlock hb, run_indexOf_absent hb hr]

/-- An insertion that does not find its place has linked the node. -/
theorem run_insertBefore_absent (hb : f.children? block = some cs) (hr : ref ∉ cs) :
    (insertBefore block ref node).run f =
      .error (.notAChild (f.display ref)) (f.setParent node (some block)) := by
  have hb' : (f.setParent node (some block)).children? block = some cs := by
    rw [children?_setParent, hb]
  simp [insertBefore, run_requireBlock hb, run_indexOf_absent hb' hr, display_setParent]

theorem run_insertAfter_absent (hb : f.children? block = some cs) (hr : ref ∉ cs) :
    (insertAfter block ref node).run f =
      .error (.notAChild (f.display ref)) (f.setParent node (some block)) := by
  have hb' : (f.setParent node (some block)).children? block = some cs := by
    rw [children?_setParent, hb]
  simp [insertAfter, run_requireBlock hb, run_indexOf_absent hb' hr, display_setParent]

/-- A declaration linked to a block that does not list it cannot be taken out. -/
theorem run_remove_of_unlisted {d : Declaration} (hd : f.declaration? node = some d)
    (hp : f.parent? node = some block) (hb : f.children? block = some cs) (hn : node ∉ cs) :
    (remove node).run f = .error (.notAChild (f.display node)) f := by
  simp [remove, run_requireDeclaration hd, hp, run_removeChild_absent hb hn]

/-! ## 3. What a failed edit leaves -/

/-- If `ref` is no child of the block, a removal leaves the forest as it was, and an
insertion leaves every node and every child list as it was and links no other node. The one node is
now linked to the block, so the forest is as it was only if it had that link already, and if it is a
declaration that the block does not list, it can no longer be taken out.

The two insertions leave the same forest behind, because they differ in the place only, and they get as
far as looking for it. Who catches the error has to set the link back. -/
theorem failed_leaves (hb : f.children? block = some cs) (hr : ref ∉ cs) :
    (removeChild block ref).run f = .error (.notAChild (f.display ref)) f ∧
      ∀ node < f.fresh, ∃ g,
        (insertBefore block ref node).run f = .error (.notAChild (f.display ref)) g ∧
        (insertAfter block ref node).run f = .error (.notAChild (f.display ref)) g ∧
        (∀ k, g.content? k = f.content? k) ∧ (∀ k, k ≠ node → g.parent? k = f.parent? k) ∧
        g.parent? node = some block ∧ (g = f ↔ f.parent? node = some block) ∧
        ∀ d, f.declaration? node = some d → node ∉ cs →
          (remove node).run g = .error (.notAChild (f.display node)) g := by
  refine ⟨run_removeChild_absent hb hr, fun node hnode => ⟨f.setParent node (some block),
    run_insertBefore_absent hb hr, run_insertAfter_absent hb hr, content?_setParent f node _,
    fun k hk => parent?_setParent_ne hk, parent?_setParent_self hnode, ?_, ?_⟩⟩
  · rw [setParent_eq_self, or_iff_right (Nat.not_le_of_lt hnode)]
  · intro d hd hn
    have hd' : (f.setParent node (some block)).declaration? node = some d := by
      rwa [declaration?, content?_setParent]
    have hb' : (f.setParent node (some block)).children? block = some cs := by
      rwa [children?_setParent]
    rw [run_remove_of_unlisted hd' (parent?_setParent_self hnode) hb' hn, display_setParent]

/-- Two rules, `a` with one declaration and `b` with another one. -/
def twoRules : Forest :=
  .ofSheet [.rule "a" [.declaration ⟨"x", "1", false⟩], .rule "b" [.declaration ⟨"y", "2", false⟩]]

theorem failed_leaves_twoRules :
    twoRules.children? 1 = some [2] ∧ 4 ∉ [2] ∧
      (removeChild 1 4).run twoRules = .error (.notAChild (twoRules.display 4)) twoRules ∧
      ∃ g, (insertBefore 1 4 4).run twoRules = .error (.notAChild (twoRules.display 4)) g ∧
        g.content? 4 = twoRules.content? 4 := by
  have hb : twoRules.children? 1 = some [2] := by decide
  obtain ⟨hremove, hinsert⟩ := failed_leaves hb (show 4 ∉ [2] by decide)
  obtain ⟨g, hrun, -, hcontent, -⟩ := hinsert 4 (by decide)
  exact ⟨hb, by decide, hremove, g, hrun, hcontent 4⟩

/-- The declaration of `b` is to go in front of itself in `a`. That fails, and afterwards `b` still
lists it, but it is linked to `a` and can no longer be taken out, as it could before. -/
theorem insertBefore_unlinks :
    ∃ sheet, Sheet.parse "a{x:1}b{y:2}" = .ok sheet ∧ ∃ g shown,
      (insertBefore 1 4 4).run (.ofSheet sheet) = .error (.notAChild shown) g ∧
        (Forest.ofSheet sheet).parent? 4 = some 3 ∧
        (∃ g', (remove 4).run (.ofSheet sheet) = .ok () g') ∧
        g ≠ .ofSheet sheet ∧ g.children? 3 = some [4] ∧ g.parent? 4 = some 1 ∧
        (remove 4).run g = .error (.notAChild shown) g := by
  have hb : twoRules.children? 1 = some [2] := by decide
  have hy : twoRules.declaration? 4 = some ⟨"y", "2", false⟩ := by decide
  have hlisted : twoRules.children? 3 = some ([] ++ 4 :: []) := by decide
  have hremove := run_remove hy (by decide) hlisted List.not_mem_nil
  have hlinked : (twoRules.setParent 4 (some 1)).parent? 4 = some 1 := by decide
  have hb' : (twoRules.setParent 4 (some 1)).children? 1 = some [2] := by decide
  have hlost := run_remove_of_unlisted (d := ⟨"y", "2", false⟩) (by decide) hlinked hb' (by decide)
  rw [display_setParent] at hlost
  exact ⟨_, by cbv, _, _, run_insertBefore_absent hb (by decide), by decide, ⟨_, hremove⟩, by decide,
    by decide, by decide, hlost⟩

end Edit

end CssExpand
