import CssExpand.Proofs.Forest.EditRun

/-!
# Carrying out a decision is a local splice

A decision about a declaration is carried out by several edits: a copy of the declaration is made
and inserted for each pair, and the declaration is removed at the end. This file adds them up. What
comes out is stated cell by cell: the block gets the new children where the old one stood
(`Spliced.cell`), the old declaration loses its parent, the new cells are the new declarations, and
no other cell is touched. A single pair for the same property only changes the value
(`Revalued.cell`).
-/

set_option autoImplicit false

namespace CssExpand

/-- A declaration with another property and value, just as important. -/
def Declaration.replacedBy (d : Declaration) (pair : String × String) : Declaration :=
  { d with prop := pair.1, value := pair.2 }

/-- Whether pairs are a single new value for the same property, which is set in place. -/
def Declaration.isRevalued (d : Declaration) : List (String × String) → Bool
  | [pair] => pair.1 == d.prop
  | _ => false

/-- The same node with another value, if it is a declaration. -/
def Cell.revalued (c : Cell) (value : String) : Cell :=
  match c.content with
  | .declaration d => { c with content := .declaration { d with value := value } }
  | _ => c

namespace Forest

/-- The ids that the next `n` new nodes get. -/
def nextIds (f : Forest) (n : Nat) : List NodeId := List.range' f.fresh n

/-- The forest `f'` is `f` with declarations put in front of the child `id` of a block. -/
structure Inserted (f f' : Forest) (block id : NodeId) (pre post : List NodeId)
    (ds : List Declaration) : Prop where
  fresh : f'.fresh = f.fresh + ds.length
  cell : ∀ k, f'.cell? k =
    if k = block then (f.cell? k).map (·.withChildren (pre ++ f.nextIds ds.length ++ id :: post))
    else if k < f.fresh then f.cell? k
    else ds[k - f.fresh]?.map fun d => ⟨.declaration d, some block⟩

/-- The forest `f'` is `f` with declarations in the place of the child `id` of a block. The cells are
given one by one, so that every question about `f'` is answered by a lookup. -/
structure Spliced (f f' : Forest) (block id : NodeId) (pre post : List NodeId)
    (ds : List Declaration) : Prop where
  fresh : f'.fresh = f.fresh + ds.length
  cell : ∀ k, f'.cell? k =
    if k = block then (f.cell? k).map (·.withChildren (pre ++ f.nextIds ds.length ++ post))
    else if k = id then (f.cell? k).map Cell.detached
    else if k < f.fresh then f.cell? k
    else ds[k - f.fresh]?.map fun d => ⟨.declaration d, some block⟩

/-- The forest `f'` is `f` with another value for the declaration `id`. -/
structure Revalued (f f' : Forest) (id : NodeId) (value : String) : Prop where
  fresh : f'.fresh = f.fresh
  cell : ∀ k, f'.cell? k =
    if k = id then (f.cell? k).map (·.revalued value) else f.cell? k

theorem nextIds_succ (f : Forest) (n : Nat) :
    f.nextIds (n + 1) = f.fresh :: List.range' (f.fresh + 1) n := rfl

theorem le_of_mem_nextIds {f : Forest} {n : Nat} {k : NodeId} (h : k ∈ f.nextIds n) :
    f.fresh ≤ k ∧ k < f.fresh + n := by
  simpa [nextIds] using h

/-! ## 1. Inserting copies -/

/-- Inserting nothing changes nothing. -/
theorem inserted_nil {f : Forest} {block id : NodeId} {pre post : List NodeId}
    (h : f.children? block = some (pre ++ id :: post)) : Inserted f f block id pre post [] where
  fresh := rfl
  cell k := by
    by_cases hk : k = block
    · obtain ⟨c, hc, hcs⟩ := exists_cell?_of_children? h
      subst hk
      simp [hc, nextIds, Cell.withChildren, withChildren_children hcs]
    · by_cases hl : k < f.fresh
      · simp [hk, hl]
      · simp [hk, hl, cell?_eq_none (Nat.le_of_not_lt hl)]

/-- The forest after one copy was made and inserted. -/
def insertOne (f : Forest) (block id : NodeId) (pre post : List NodeId) (d : Declaration) :
    Forest :=
  ((f.push ⟨.declaration d, none⟩).setParent f.fresh (some block)).setChildren block
    (pre ++ f.fresh :: id :: post)

@[simp] theorem fresh_insertOne (f : Forest) (block id : NodeId) (pre post : List NodeId)
    (d : Declaration) : (f.insertOne block id pre post d).fresh = f.fresh + 1 := by
  simp [insertOne]

theorem cell?_insertOne {f : Forest} {block : NodeId} (hb : block < f.fresh) (id : NodeId)
    (pre post : List NodeId) (d : Declaration) (k : NodeId) :
    (f.insertOne block id pre post d).cell? k =
      if k = block then (f.cell? k).map (·.withChildren (pre ++ f.fresh :: id :: post))
      else if k = f.fresh then some ⟨.declaration d, some block⟩ else f.cell? k := by
  have hne : block ≠ f.fresh := Nat.ne_of_lt hb
  grind [insertOne]

/-- One copy and then the others are all the copies. -/
theorem Inserted.cons {f f' : Forest} {block id : NodeId} {pre post : List NodeId}
    {d : Declaration} {ds : List Declaration} (hb : block < f.fresh)
    (h : Inserted (f.insertOne block id pre post d) f' block id (pre ++ [f.fresh]) post ds) :
    Inserted f f' block id pre post (d :: ds) where
  fresh := by rw [h.fresh, fresh_insertOne, List.length_cons, Nat.add_right_comm, Nat.add_assoc]
  cell k := by
    rw [h.cell k, cell?_insertOne hb, fresh_insertOne, nextIds, fresh_insertOne, List.length_cons,
      nextIds_succ]
    by_cases hk : k = block
    · simp only [hk, if_true, Option.map_map]
      congr 1
      funext c
      simp [Cell.withChildren, withChildren_withChildren]
    · by_cases hf : k = f.fresh
      · have hne : f.fresh ≠ block := (Nat.ne_of_lt hb).symm
        simp [hf, hne]
      · by_cases hl : k < f.fresh
        · simp [hk, hf, hl, Nat.lt_succ_of_lt hl]
        · have hlt : f.fresh < k := Nat.lt_of_le_of_ne (Nat.le_of_not_lt hl) (Ne.symm hf)
          have hs : k - f.fresh = (k - (f.fresh + 1)) + 1 := (Nat.sub_one_add_one_eq_of_pos
            (Nat.sub_pos_of_lt hlt)).symm
          simp only [hk, hf, hl, if_false, Nat.not_lt_of_le hlt, hs, List.getElem?_cons_succ]

theorem declaration?_insertOne {f : Forest} {block id : NodeId} (hb : block < f.fresh)
    (pre post : List NodeId) (e : Declaration) {d : Declaration} (hne : id ≠ block)
    (hd : f.declaration? id = some d) :
    (f.insertOne block id pre post e).declaration? id = some d := by
  rw [← hd]
  refine declaration?_congr ?_
  rw [cell?_insertOne hb, if_neg hne, if_neg (Nat.ne_of_lt (lt_fresh_of_declaration? hd))]

theorem children?_insertOne {f : Forest} {block id : NodeId} {pre post : List NodeId}
    (h : f.children? block = some (pre ++ id :: post)) (e : Declaration) :
    (f.insertOne block id pre post e).children? block = some (pre ++ f.fresh :: id :: post) := by
  have hb := lt_fresh_of_children? h
  have h' : ((f.push ⟨.declaration e, none⟩).setParent f.fresh (some block)).children? block =
      some (pre ++ id :: post) := by
    rw [children?_setParent, children?, content?_push_of_lt hb, ← children?, h]
  exact children?_setChildren h'

end Forest

namespace Edit

open Forest

/-- A declaration is no block. -/
theorem ne_block {f : Forest} {block id : NodeId} {d : Declaration} {cs : List NodeId}
    (hd : f.declaration? id = some d) (h : f.children? block = some cs) : id ≠ block := by
  rintro rfl
  rw [children?_of_declaration? hd] at h
  cases h

theorem run_insertCopy {f : Forest} {block id : NodeId} {d : Declaration} {pre post : List NodeId}
    (hd : f.declaration? id = some d) (h : f.children? block = some (pre ++ id :: post))
    (hpre : id ∉ pre) (pair : String × String) :
    (insertCopy (some block) id pair).run f =
      .ok () (f.insertOne block id pre post (d.replacedBy pair)) := by
  have hb := lt_fresh_of_children? h
  have h' : (f.push ⟨.declaration (d.replacedBy pair), none⟩).children? block =
      some (pre ++ id :: post) := by
    rw [children?, content?_push_of_lt hb, ← children?, h]
  have hc := run_clone hd fun d => d.replacedBy pair
  simp only [Declaration.replacedBy] at hc h'
  simp [insertCopy, hc, run_insertBefore h' hpre, insertOne, Declaration.replacedBy]

/-- The copies of a declaration, one for each pair, come in front of it in the order of the
pairs. The induction is on the pairs; each copy joins the children before the declaration. -/
theorem run_insertCopies {block id : NodeId} {d : Declaration} {post : List NodeId} :
    ∀ (pairs : List (String × String)) {f : Forest} {pre : List NodeId},
      f.declaration? id = some d → f.children? block = some (pre ++ id :: post) → id ∉ pre →
      ∃ f', (pairs.forM (insertCopy (some block) id)).run f = .ok () f' ∧
        Inserted f f' block id pre post (pairs.map d.replacedBy)
  | [], f, pre, _, h, _ => ⟨f, rfl, inserted_nil h⟩
  | pair :: pairs, f, pre, hd, h, hpre => by
    have hb := lt_fresh_of_children? h
    have hd' := declaration?_insertOne hb pre post (d.replacedBy pair) (ne_block hd h) hd
    have h' : (f.insertOne block id pre post (d.replacedBy pair)).children? block =
        some ((pre ++ [f.fresh]) ++ id :: post) := by
      rw [children?_insertOne h]
      simp
    have hpre' : id ∉ pre ++ [f.fresh] := by
      simp only [List.mem_append, List.mem_singleton, not_or]
      exact ⟨hpre, Nat.ne_of_lt (lt_fresh_of_declaration? hd)⟩
    obtain ⟨f', hrun, hins⟩ := run_insertCopies pairs hd' h' hpre'
    refine ⟨f', ?_, hins.cons hb⟩
    simpa [List.forM_cons, run_insertCopy hd h hpre] using hrun

/-! ## 2. The whole decision -/

/-- Removing the declaration after the copies were inserted completes the splice. -/
theorem spliced_of_inserted {f f' : Forest} {block id : NodeId} {pre post : List NodeId}
    {ds : List Declaration} (hne : id ≠ block) (hid : id < f.fresh)
    (h : Inserted f f' block id pre post ds) :
    Spliced f ((f'.setChildren block (pre ++ f.nextIds ds.length ++ post)).setParent id none)
      block id pre post ds where
  fresh := by simp [h.fresh]
  cell k := by
    rw [cell?_setParent, cell?_setChildren, h.cell k]
    by_cases hk : k = block
    · have : k ≠ id := fun he => hne (he.symm.trans hk)
      simp only [hk, if_true, if_neg (hk ▸ this), Option.map_map]
      congr 1
      funext c
      simp [Cell.withChildren, withChildren_withChildren]
    · by_cases hi : k = id
      · simp only [hi, if_neg hne, hid, if_true]
        rfl
      · simp [hk, hi]

/-- A decision that takes effect by insertion: what it comes to. -/
theorem run_carryOut_splice {f : Forest} {block id : NodeId} {d : Declaration}
    {pre post : List NodeId} (hd : f.declaration? id = some d) (hp : f.parent? id = some block)
    (h : f.children? block = some (pre ++ id :: post)) (hpre : id ∉ pre)
    {pairs : List (String × String)} (hr : d.isRevalued pairs = false) :
    ∃ f', (carryOut id (.replace pairs)).run f = .ok () f' ∧
      Spliced f f' block id pre post (pairs.map d.replacedBy) := by
  have hne := ne_block hd h
  have hid := lt_fresh_of_declaration? hd
  obtain ⟨f₁, hrun, hins⟩ := run_insertCopies pairs hd h hpre
  have hcell : f₁.cell? id = f.cell? id := by rw [hins.cell, if_neg hne, if_pos hid]
  have hd₁ : f₁.declaration? id = some d := (declaration?_congr hcell).trans hd
  have hp₁ : f₁.parent? id = some block := (parent?_congr hcell).trans hp
  have h₁ : f₁.children? block =
      some ((pre ++ f.nextIds (pairs.map d.replacedBy).length) ++ id :: post) := by
    obtain ⟨c, hc, hcs⟩ := exists_cell?_of_children? h
    rw [children?, content?_eq, hins.cell, if_pos rfl, hc]
    simp [Cell.withChildren, children?_withChildren hcs]
  have hpre₁ : id ∉ pre ++ f.nextIds (pairs.map d.replacedBy).length := by
    rw [List.mem_append, not_or]
    exact ⟨hpre, fun hm => Nat.not_lt_of_le (le_of_mem_nextIds hm).1 hid⟩
  refine ⟨_, ?_, spliced_of_inserted hne hid hins⟩
  rcases pairs with _ | ⟨pair, _ | ⟨next, rest⟩⟩
  · simp [carryOut, run_declarationOf hd] at hrun ⊢
    subst hrun
    simpa using run_remove hd₁ hp₁ h₁ hpre₁
  · have hprop : ¬ pair.1 = d.prop := by simpa [Declaration.isRevalued] using hr
    have hone : (insertCopy (some block) id (pair.1, pair.2)).run f = .ok () f₁ := by
      simpa [List.forM_cons] using hrun
    simp [carryOut, run_declarationOf hd, hprop, hp, hone]
    simpa using run_remove hd₁ hp₁ h₁ hpre₁
  · simp only [carryOut, EStateM.run_bind, run_declarationOf hd, EStateM.run_get, hp, hrun]
    exact run_remove hd₁ hp₁ h₁ hpre₁

/-- Setting the value of a declaration. -/
theorem revalued_updateDeclaration (f : Forest) (id : NodeId) (value : String) :
    Revalued f (f.updateDeclaration id fun d => { d with value := value }) id value := by
  refine ⟨by rw [updateDeclaration, fresh_updateContent], fun k => ?_⟩
  rw [updateDeclaration, cell?_updateContent]
  congr 2
  funext c
  obtain ⟨content, parent⟩ := c
  cases content <;> rfl

/-- A decision that takes effect in place: what it comes to. -/
theorem run_carryOut_revalue {f : Forest} {id : NodeId} {d : Declaration}
    (hd : f.declaration? id = some d) (value : String) :
    ∃ f', (carryOut id (.replace [(d.prop, value)])).run f = .ok () f' ∧
      Revalued f f' id value := by
  refine ⟨_, ?_, revalued_updateDeclaration f id value⟩
  simp [carryOut, run_declarationOf hd]

end Edit

end CssExpand
