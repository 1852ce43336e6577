import CssExpand.Proofs.Forest.StageRun

/-!
# A declaration replaced at its place

What carrying out a decision about one declaration does to a forest, read by the place where the
declaration stands: the nodes before the place, those behind it, and the cells of all others.
Nothing is asked of the rest of the forest. The nodes of the one block are distinct and linked to
it, and that is enough, because the declaration is looked up by its identity; it may be equal to its
neighbours and to the declarations that take its place.
-/

set_option autoImplicit false

namespace CssExpand

namespace Forest

/-- A node of a list without repetitions stands between those before its place and those behind it,
and is not among the former. -/
theorem exists_place {cs : List NodeId} (hn : cs.Nodup) {i : Nat} {id : NodeId}
    (hi : cs[i]? = some id) : cs = cs.take i ++ id :: cs.drop (i + 1) ∧ id ∉ cs.take i := by
  obtain ⟨hlt, hget⟩ := List.getElem?_eq_some_iff.mp hi
  have hsplit : cs = cs.take i ++ id :: cs.drop (i + 1) := by
    rw [← hget, ← List.drop_eq_getElem_cons hlt, List.take_append_drop]
  refine ⟨hsplit, fun hmem => ?_⟩
  rw [hsplit] at hn
  exact (List.nodup_append.mp hn).2.2 id hmem id List.mem_cons_self rfl

/-- The cell of a declaration with a known parent. -/
theorem cell?_of_declaration? {f : Forest} {id : NodeId} {d : Declaration} {parent : Option NodeId}
    (hd : f.declaration? id = some d) (hp : f.parent? id = parent) :
    f.cell? id = some ⟨.declaration d, parent⟩ := by
  obtain ⟨⟨content, link⟩, hc, rfl⟩ := exists_cell?_of_declaration? hd
  rw [parent?_eq, hc] at hp
  rw [hc, ← hp]
  rfl

end Forest

namespace Edit

open Forest

/-- A decision about the declaration at the place `i` of a block: to keep it changes nothing, a
single new value for its own property is set in place, and anything else puts the new declarations,
which are linked to the block and as important as the old one, where the old one stood, and detaches
that. No other cell changes, and the block itself in nothing but its children.

The place is that of the id. There may be an equal declaration before it, and the copies are made one by
one in front of it, which moves it along; neither makes a difference to where they end up. -/
theorem carryOut_atPlace {f : Forest} {block : NodeId} {cs : List NodeId}
    (hb : f.children? block = some cs) (hlinked : ∀ k ∈ cs, f.parent? k = some block)
    (hn : cs.Nodup) {i : Nat} {id : NodeId} (hi : cs[i]? = some id) {d : Declaration}
    (hd : f.declaration? id = some d) :
    (∀ reason, (carryOut id (.keep reason)).run f = .ok () f) ∧
    (∀ value, ∃ g, (carryOut id (.replace [(d.prop, value)])).run f = .ok () g ∧
      g.fresh = f.fresh ∧ g.cell? id = some ⟨.declaration { d with value := value }, some block⟩ ∧
      ∀ k, k ≠ id → g.cell? k = f.cell? k) ∧
    ∀ pairs, (∀ value, pairs ≠ [(d.prop, value)]) →
      ∃ g, (carryOut id (.replace pairs)).run f = .ok () g ∧ g.fresh = f.fresh + pairs.length ∧
        g.children? block = some (cs.take i ++ f.nextIds pairs.length ++ cs.drop (i + 1)) ∧
        (f.nextIds pairs.length).map g.cell? =
          pairs.map (fun pair => some ⟨.declaration (d.replacedBy pair), some block⟩) ∧
        g.cell? id = some ⟨.declaration d, none⟩ ∧
        g.cell? block = (f.cell? block).map
          (·.withChildren (cs.take i ++ f.nextIds pairs.length ++ cs.drop (i + 1))) ∧
        ∀ k < f.fresh, k ≠ block → k ≠ id → g.cell? k = f.cell? k := by
  -- The index as a cut of the children, which is what the splice asks for.
  obtain ⟨hsplit, hpre⟩ := exists_place hn hi
  have hp : f.parent? id = some block := hlinked id (List.mem_of_getElem? hi)
  have hcell := cell?_of_declaration? hd hp
  have hne : id ≠ block := ne_block hd hb
  refine ⟨fun reason => rfl, fun value => ?_, fun pairs hpairs => ?_⟩
  · obtain ⟨g, hrun, hg⟩ := run_carryOut_revalue hd value
    refine ⟨g, hrun, hg.fresh, ?_, fun k hk => ?_⟩
    · rw [hg.cell, if_pos rfl, hcell]
      rfl
    · rw [hg.cell, if_neg hk]
  · have hr : d.isRevalued pairs = false := by
      refine Bool.eq_false_iff.mpr fun h => ?_
      obtain ⟨value, hvalue⟩ := Declaration.eq_of_isRevalued h
      exact hpairs value hvalue
    have hbody : f.children? block = some (cs.take i ++ id :: cs.drop (i + 1)) := by
      rw [hb, ← hsplit]
    obtain ⟨g, hrun, hg⟩ := run_carryOut_splice hd hp hbody hpre hr
    have hnew := hg.map_cell?_nextIds (lt_fresh_of_children? hb) (lt_fresh_of_declaration? hd)
    have hchildren := hg.children?_block hb
    have hblock := hg.cell block
    rw [if_pos rfl] at hblock
    simp only [List.length_map] at hnew hchildren hblock
    refine ⟨g, hrun, by rw [hg.fresh, List.length_map], hchildren, ?_, ?_, hblock, ?_⟩
    · rw [hnew, List.map_map]
      rfl
    · rw [hg.cell, if_neg hne, if_pos rfl, hcell]
      rfl
    · exact fun k hk hkb hki => hg.cell?_old hk hkb hki

/-- Two equal margins in one rule, and a comment between them. -/
def twinMargins : Forest :=
  .ofSheet [.rule "a" [.declaration ⟨"margin", "0 1px", true⟩, .comment "c",
    .declaration ⟨"margin", "0 1px", true⟩]]

/-- The second of two equal margins is taken apart where it stands, and the first one stays. -/
theorem carryOut_atPlace_twinMargins :
    twinMargins.children? 1 = some [2, 3, 4] ∧ (∀ k ∈ [2, 3, 4], twinMargins.parent? k = some 1) ∧
      [2, 3, 4].Nodup ∧ [2, 3, 4][2]? = some 4 ∧
      twinMargins.declaration? 2 = twinMargins.declaration? 4 ∧
      ∃ g, (carryOut 4 (.replace [("margin-top", "0"), ("margin", "1px")])).run twinMargins =
          .ok () g ∧
        g.children? 1 = some [2, 3, 5, 6] ∧
        g.cell? 6 = some ⟨.declaration ⟨"margin", "1px", true⟩, some 1⟩ := by
  have hb : twinMargins.children? 1 = some [2, 3, 4] := by decide
  have hlinked : ∀ k ∈ [2, 3, 4], twinMargins.parent? k = some 1 := by decide
  have hd : twinMargins.declaration? 4 = some ⟨"margin", "0 1px", true⟩ := by decide
  have hi : [2, 3, 4][2]? = some 4 := rfl
  obtain ⟨-, -, hsplice⟩ := carryOut_atPlace hb hlinked (by decide) hi hd
  obtain ⟨g, hrun, -, hchildren, hnew, -⟩ :=
    hsplice [("margin-top", "0"), ("margin", "1px")] (by simp)
  have hfresh : twinMargins.nextIds 2 = [5, 6] := by decide
  rw [List.length_cons, List.length_singleton, hfresh] at hchildren hnew
  obtain ⟨-, hlast⟩ := List.cons.inj hnew
  exact ⟨hb, hlinked, by decide, hi, by decide, g, hrun, hchildren, (List.cons.inj hlast).1⟩

end Edit

end CssExpand
