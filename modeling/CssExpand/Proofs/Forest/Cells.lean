import CssExpand.Forest.Edit

/-!
# Forests cell by cell

Every change of a forest is a change of cells, so a forest is known once each of its cells is. This
file reads the views of a forest (`content?`, `parent?`, `children?`, `declaration?`) off its cells,
and says what each small change does to a cell.

Two forests that agree on a cell agree on everything the views say about the node in it
(`children?_congr` and its companions). That is the form in which later files use the frame
of an edit: they show which cells it leaves alone and never unfold it again.
-/

set_option autoImplicit false

namespace CssExpand

/-- The same node with other children, if it can have some. -/
def Cell.withChildren (c : Cell) (cs : List NodeId) : Cell :=
  { c with content := c.content.withChildren cs }

/-- The same node without a parent. -/
def Cell.detached (c : Cell) : Cell := { c with parent := none }

namespace Forest

/-- The cell of a node. -/
def cell? (f : Forest) (id : NodeId) : Option Cell := f.cells[id]?

/-! ## 1. Views are read off cells -/

theorem content?_eq (f : Forest) (id : NodeId) : f.content? id = (f.cell? id).map Cell.content := rfl

theorem parent?_eq (f : Forest) (id : NodeId) : f.parent? id = (f.cell? id).bind Cell.parent := rfl

theorem content?_congr {f g : Forest} {id : NodeId} (h : f.cell? id = g.cell? id) :
    f.content? id = g.content? id := by
  rw [content?_eq, content?_eq, h]

theorem parent?_congr {f g : Forest} {id : NodeId} (h : f.cell? id = g.cell? id) :
    f.parent? id = g.parent? id := by
  rw [parent?_eq, parent?_eq, h]

theorem children?_congr {f g : Forest} {id : NodeId} (h : f.cell? id = g.cell? id) :
    f.children? id = g.children? id := by
  rw [children?, children?, content?_congr h]

theorem declaration?_congr {f g : Forest} {id : NodeId} (h : f.cell? id = g.cell? id) :
    f.declaration? id = g.declaration? id := by
  rw [declaration?, declaration?, content?_congr h]

/-- A node has a cell exactly if its id was given out. -/
theorem cell?_isSome {f : Forest} {id : NodeId} : (f.cell? id).isSome ↔ id < f.fresh := by
  simp [cell?, fresh]

theorem cell?_eq_none {f : Forest} {id : NodeId} (h : f.fresh ≤ id) : f.cell? id = none := by
  simpa [cell?, fresh] using h

theorem lt_fresh_of_cell? {f : Forest} {id : NodeId} {c : Cell} (h : f.cell? id = some c) :
    id < f.fresh :=
  cell?_isSome.mp (by simp [h])

theorem content?_of_cell? {f : Forest} {id : NodeId} {c : Cell} (h : f.cell? id = some c) :
    f.content? id = some c.content := by
  simp [content?_eq, h]

/-- What has children has a cell that says so. -/
theorem exists_cell?_of_children? {f : Forest} {id : NodeId} {cs : List NodeId}
    (h : f.children? id = some cs) : ∃ c, f.cell? id = some c ∧ c.content.children? = some cs := by
  rw [children?, content?_eq] at h
  cases hc : f.cell? id with
  | none => simp [hc] at h
  | some c => exact ⟨c, rfl, by simpa [hc] using h⟩

theorem exists_cell?_of_declaration? {f : Forest} {id : NodeId} {d : Declaration}
    (h : f.declaration? id = some d) : ∃ c, f.cell? id = some c ∧ c.content = .declaration d := by
  rw [declaration?, content?_eq] at h
  cases hc : f.cell? id with
  | none => simp [hc] at h
  | some c =>
    refine ⟨c, rfl, ?_⟩
    simp only [hc, Option.map_some, Option.bind_some] at h
    cases hk : c.content <;> simp_all [Content.declaration?]

theorem lt_fresh_of_children? {f : Forest} {id : NodeId} {cs : List NodeId}
    (h : f.children? id = some cs) : id < f.fresh :=
  let ⟨_, hc, _⟩ := exists_cell?_of_children? h
  lt_fresh_of_cell? hc

theorem lt_fresh_of_declaration? {f : Forest} {id : NodeId} {d : Declaration}
    (h : f.declaration? id = some d) : id < f.fresh :=
  let ⟨_, hc, _⟩ := exists_cell?_of_declaration? h
  lt_fresh_of_cell? hc

theorem lt_fresh_of_parent? {f : Forest} {id b : NodeId} (h : f.parent? id = some b) :
    id < f.fresh := by
  rw [parent?_eq] at h
  cases hc : f.cell? id with
  | none => simp [hc] at h
  | some c => exact lt_fresh_of_cell? hc

/-- A declaration has no children, so it is no block. -/
theorem children?_of_declaration? {f : Forest} {id : NodeId} {d : Declaration}
    (h : f.declaration? id = some d) : f.children? id = none := by
  obtain ⟨c, hc, hd⟩ := exists_cell?_of_declaration? h
  simp [children?, content?_eq, hc, hd, Content.children?]

/-! ## 2. Small changes -/

@[simp, grind =] theorem fresh_push (f : Forest) (c : Cell) : (f.push c).fresh = f.fresh + 1 := by
  simp [fresh, push]

@[simp, grind =] theorem fresh_setParent (f : Forest) (id : NodeId) (p : Option NodeId) :
    (f.setParent id p).fresh = f.fresh := by
  simp [fresh, setParent]

@[simp, grind =] theorem fresh_updateContent (f : Forest) (id : NodeId) (u : Content → Content) :
    (f.updateContent id u).fresh = f.fresh := by
  simp [fresh, updateContent]

@[simp, grind =] theorem fresh_setChildren (f : Forest) (id : NodeId) (cs : List NodeId) :
    (f.setChildren id cs).fresh = f.fresh :=
  fresh_updateContent f id _

@[simp, grind =] theorem cell?_push (f : Forest) (c : Cell) (id : NodeId) :
    (f.push c).cell? id = if id = f.fresh then some c else f.cell? id := by
  simp only [cell?, push, Array.getElem?_push]
  rfl

@[simp, grind =] theorem cell?_setParent (f : Forest) (id : NodeId)
    (p : Option NodeId) (k : NodeId) :
    (f.setParent id p).cell? k =
      if k = id then (f.cell? k).map fun c => { c with parent := p } else f.cell? k := by
  simp only [cell?, setParent, Array.getElem?_modify, eq_comm (a := k)]

@[simp, grind =] theorem cell?_updateContent (f : Forest) (id : NodeId)
    (u : Content → Content) (k : NodeId) :
    (f.updateContent id u).cell? k =
      if k = id then (f.cell? k).map fun c => { c with content := u c.content } else f.cell? k := by
  simp only [cell?, updateContent, Array.getElem?_modify, eq_comm (a := k)]

@[simp, grind =] theorem cell?_setChildren (f : Forest) (id : NodeId)
    (cs : List NodeId) (k : NodeId) :
    (f.setChildren id cs).cell? k =
      if k = id then (f.cell? k).map (·.withChildren cs) else f.cell? k :=
  cell?_updateContent f id _ k

/-- Giving children to a node that can have some. -/
theorem children?_withChildren {c : Content} {cs ds : List NodeId} (h : c.children? = some cs) :
    (c.withChildren ds).children? = some ds := by
  cases c <;> simp_all [Content.children?, Content.withChildren]

@[simp] theorem withChildren_withChildren (c : Content) (cs ds : List NodeId) :
    (c.withChildren cs).withChildren ds = c.withChildren ds := by
  cases c <;> rfl

theorem withChildren_children {c : Content} {cs : List NodeId} (h : c.children? = some cs) :
    c.withChildren cs = c := by
  cases c <;> simp_all [Content.children?, Content.withChildren]

theorem children?_setChildren {f : Forest} {id : NodeId} {cs ds : List NodeId}
    (h : f.children? id = some cs) : (f.setChildren id ds).children? id = some ds := by
  obtain ⟨c, hc, hk⟩ := exists_cell?_of_children? h
  simp [children?, content?_eq, hc, Cell.withChildren, children?_withChildren hk]

@[simp] theorem children?_setParent (f : Forest) (id : NodeId) (p : Option NodeId) (k : NodeId) :
    (f.setParent id p).children? k = f.children? k := by
  rw [children?, children?, content?_eq, content?_eq, cell?_setParent]
  split <;> cases f.cell? k <;> rfl

@[simp] theorem content?_setParent (f : Forest) (id : NodeId) (p : Option NodeId) (k : NodeId) :
    (f.setParent id p).content? k = f.content? k := by
  rw [content?_eq, content?_eq, cell?_setParent]
  split <;> cases f.cell? k <;> rfl

theorem content?_push_of_lt {f : Forest} {c : Cell} {id : NodeId} (h : id < f.fresh) :
    (f.push c).content? id = f.content? id :=
  content?_congr (by simp [Nat.ne_of_lt h])

/-- Two forests with the same cells are the same. -/
theorem ext_cell? {f g : Forest} (h : ∀ id, f.cell? id = g.cell? id) : f = g := by
  obtain ⟨a⟩ := f
  obtain ⟨b⟩ := g
  rw [mk.injEq]
  exact Array.ext_getElem? h

end Forest

end CssExpand
