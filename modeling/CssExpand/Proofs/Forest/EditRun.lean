import CssExpand.Proofs.Forest.Cells

/-!
# What single edits do

One lemma for each edit that a pass is made of, about the case in which it succeeds: the forest it
leaves, written with the small changes of a forest. Where a child stands in its block is given by
the children before it and after it, and it is found there because none of those before it is the
same node. Equality of the nodes themselves plays no part in that.
-/

set_option autoImplicit false

namespace CssExpand

namespace Edit

/-! ## 1. Looking -/

theorem run_requireKind {f : Forest} {id : NodeId} {c : Content} {fits : NodeKind → Bool}
    (h : f.content? id = some c) (hk : fits c.kind = true) :
    (requireKind fits id).run f = .ok () f := by
  simp [requireKind, Forest.kind?, h, hk]

/-- What has children is a block. -/
theorem isBlock_of_children? {c : Content} {cs : List NodeId} (h : c.children? = some cs) :
    c.kind.isBlock = true := by
  cases c <;> simp_all [Content.children?, Content.kind, NodeKind.isBlock]

theorem run_requireBlock {f : Forest} {block : NodeId} {cs : List NodeId}
    (h : f.children? block = some cs) : (requireBlock block).run f = .ok () f := by
  obtain ⟨c, hc, hk⟩ := Forest.exists_cell?_of_children? h
  exact run_requireKind (Forest.content?_of_cell? hc) (isBlock_of_children? hk)

theorem run_requireDeclaration {f : Forest} {id : NodeId} {d : Declaration}
    (h : f.declaration? id = some d) : (requireKind (· == .declaration) id).run f = .ok () f := by
  obtain ⟨c, hc, hk⟩ := Forest.exists_cell?_of_declaration? h
  exact run_requireKind (Forest.content?_of_cell? hc) (by simp [hk, Content.kind])

theorem run_childrenOf {f : Forest} {block : NodeId} {cs : List NodeId}
    (h : f.children? block = some cs) : (childrenOf block).run f = .ok cs f := by
  simp [childrenOf, h]

theorem run_declarationOf {f : Forest} {id : NodeId} {d : Declaration}
    (h : f.declaration? id = some d) : (declarationOf id).run f = .ok d f := by
  simp [declarationOf, run_requireDeclaration h, h]

/-- The first place of a node is behind those that are not it. -/
theorem idxOf?_append_cons {pre post : List NodeId} {ref : NodeId} (h : ref ∉ pre) :
    (pre ++ ref :: post).idxOf? ref = some pre.length := by
  induction pre with
  | nil => simp [List.idxOf?_cons]
  | cons x xs ih =>
    have hx : x ≠ ref := fun he => h (he ▸ List.mem_cons_self)
    have hxs : ref ∉ xs := fun hm => h (List.mem_cons_of_mem x hm)
    simp [List.idxOf?_cons, hx, ih hxs]

theorem run_indexOf {f : Forest} {block ref : NodeId} {pre post : List NodeId}
    (h : f.children? block = some (pre ++ ref :: post)) (hpre : ref ∉ pre) :
    (indexOf block ref).run f = .ok pre.length f := by
  simp [indexOf, run_childrenOf h, idxOf?_append_cons hpre]

/-! ## 2. Inserting and removing -/

theorem insertIdx_length (pre post : List NodeId) (node : NodeId) :
    (pre ++ post).insertIdx pre.length node = pre ++ node :: post := by
  induction pre with
  | nil => rfl
  | cons x xs ih => simp [ih]

theorem eraseIdx_length (pre post : List NodeId) (node : NodeId) :
    (pre ++ node :: post).eraseIdx pre.length = pre ++ post := by
  induction pre with
  | nil => rfl
  | cons x xs ih => simp [ih]

theorem run_insertBefore {f : Forest} {block ref node : NodeId} {pre post : List NodeId}
    (h : f.children? block = some (pre ++ ref :: post)) (hpre : ref ∉ pre) :
    (insertBefore block ref node).run f =
      .ok () ((f.setParent node (some block)).setChildren block (pre ++ node :: ref :: post)) := by
  have h' : (f.setParent node (some block)).children? block = some (pre ++ ref :: post) := by
    rw [Forest.children?_setParent, h]
  simp [insertBefore, run_requireBlock h, run_indexOf h' hpre, run_childrenOf h', insertIdx_length]

theorem run_removeChild {f : Forest} {block child : NodeId} {pre post : List NodeId}
    (h : f.children? block = some (pre ++ child :: post)) (hpre : child ∉ pre) :
    (removeChild block child).run f =
      .ok () ((f.setChildren block (pre ++ post)).setParent child none) := by
  simp [removeChild, run_requireBlock h, run_indexOf h hpre, run_childrenOf h, eraseIdx_length]

theorem run_remove {f : Forest} {block id : NodeId} {d : Declaration} {pre post : List NodeId}
    (hd : f.declaration? id = some d) (hp : f.parent? id = some block)
    (h : f.children? block = some (pre ++ id :: post)) (hpre : id ∉ pre) :
    (remove id).run f = .ok () ((f.setChildren block (pre ++ post)).setParent id none) := by
  simp [remove, run_requireDeclaration hd, hp, run_removeChild h hpre]

theorem run_clone {f : Forest} {id : NodeId} {d : Declaration}
    (h : f.declaration? id = some d) (update : Declaration → Declaration) :
    (clone id update).run f = .ok f.fresh (f.push ⟨.declaration (update d), none⟩) := by
  simp [clone, make, run_declarationOf h, Forest.plant]

end Edit

end CssExpand
