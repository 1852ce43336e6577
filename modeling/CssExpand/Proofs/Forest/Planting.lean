import CssExpand.Proofs.Forest.Sound

/-!
# Planting a stylesheet

Planting a tree adds its nodes in document order, each before all that stands below it, and touches
no older cell. So the forest of a stylesheet is sound (`sound_ofSheet`), and reading it back as a
tree gives the stylesheet again (`sheet_ofSheet`).

The two facts about planting one tree and planting a list of them are the fields of `Planted` and
`PlantedAll`, which are proved together along the tree.
-/

set_option autoImplicit false

namespace CssExpand

namespace Forest

/-! ## 1. Trees depend on the cells below them only -/

/-- Two forests show the same tree below a node if they agree on a set of nodes that holds it and
is closed under taking children. -/
theorem nodeWithin_congr {f g : Forest} {P : NodeId → Prop}
    (hcell : ∀ k, P k → g.cell? k = f.cell? k)
    (hclosed : ∀ {k cs c}, P k → f.children? k = some cs → c ∈ cs → P c) :
    ∀ (depth : Nat) {k : NodeId}, P k → g.nodeWithin depth k = f.nodeWithin depth k
  | 0, _, _ => rfl
  | depth + 1, k, hk => by
    have below : ∀ {c : Content} {cs}, f.content? k = some c → c.children? = some cs →
        cs.filterMap (g.nodeWithin depth) = cs.filterMap (f.nodeWithin depth) := by
      intro c cs hc hcs
      refine List.filterMap_congr fun x hx => nodeWithin_congr hcell hclosed depth ?_
      exact hclosed hk ((children?_of_content? hc).trans hcs) hx
    rw [nodeWithin, nodeWithin, content?_congr (hcell k hk)]
    split <;> try rfl
    · next hc => rw [below hc rfl]
    · next hc => rw [below hc rfl]

/-! ## 2. Soundness of the small changes -/

theorem parent?_push_of_lt {f : Forest} {c : Cell} {id : NodeId} (h : id < f.fresh) :
    (f.push c).parent? id = f.parent? id :=
  parent?_congr (by simp [Nat.ne_of_lt h])

@[simp] theorem parent?_setChildren (f : Forest) (id : NodeId) (cs : List NodeId) (k : NodeId) :
    (f.setChildren id cs).parent? k = f.parent? k := by
  rw [parent?_eq, parent?_eq, cell?_setChildren]
  split <;> cases f.cell? k <;> rfl

/-- Whose children a node is when one has been added that has none. -/
theorem children?_of_push {f : Forest} {content : Content} {parent : Option NodeId}
    {b : NodeId} {cs : List NodeId} (hc : ∀ cs, content.children? = some cs → cs = [])
    (hb : (f.push ⟨content, parent⟩).children? b = some cs) : cs = [] ∨ f.children? b = some cs := by
  obtain ⟨c, hcell, hcs⟩ := exists_cell?_of_children? hb
  rw [cell?_push] at hcell
  split at hcell
  · exact .inl (hc cs (by rwa [← Option.some.inj hcell] at hcs))
  · exact .inr ((children?_of_content? (content?_of_cell? hcell)).trans hcs)

/-- The lists of other blocks stay when a block gets other children. -/
theorem children?_of_setChildren {f : Forest} {b a : NodeId} {ids cs : List NodeId}
    (ha : (f.setChildren b ids).children? a = some cs) :
    a = b ∧ cs = ids ∨ a ≠ b ∧ f.children? a = some cs := by
  by_cases he : a = b
  · subst he
    cases hold : f.children? a with
    | some old =>
      rw [children?_setChildren hold] at ha
      exact .inl ⟨rfl, (Option.some.inj ha).symm⟩
    | none =>
      obtain ⟨c, hcell, hcs⟩ := exists_cell?_of_children? ha
      rw [cell?_setChildren, if_pos rfl] at hcell
      obtain ⟨c₀, hc₀, rfl⟩ := Option.map_eq_some_iff.mp hcell
      have hnone : c₀.content.children? = none :=
        (children?_of_content? (content?_of_cell? hc₀)).symm.trans hold
      cases hc : c₀.content <;>
        simp_all [Cell.withChildren, Content.withChildren, Content.children?]
  · have hcell : (f.setChildren b ids).cell? a = f.cell? a := by simp [he]
    exact .inr ⟨he, (children?_congr hcell).symm.trans ha⟩

/-- A new node without children may have any older parent. -/
theorem Sound.push {f : Forest} (h : f.Sound) (content : Content) (parent : Option NodeId)
    (hc : ∀ cs, content.children? = some cs → cs = []) (hp : ∀ b, parent = some b → b < f.fresh) :
    (f.push ⟨content, parent⟩).Sound := by
  refine ⟨fun hb => ?_, fun hb hk => ?_, fun {k b} hk => ?_⟩
  · rcases children?_of_push hc hb with rfl | hb
    · exact List.nodup_nil
    · exact h.nodup hb
  · rcases children?_of_push hc hb with rfl | hb
    · cases hk
    · rw [parent?_push_of_lt (h.lt_fresh_of_mem hb hk), h.linked hb hk]
  · rw [parent?_eq, cell?_push] at hk
    split at hk
    · next he => exact he ▸ hp b hk
    · exact h.older hk

/-- A block may get any children that are linked to it. -/
theorem Sound.setChildren {f : Forest} (h : f.Sound) {b : NodeId} {ids : List NodeId}
    (hn : ids.Nodup) (hp : ∀ k ∈ ids, f.parent? k = some b) : (f.setChildren b ids).Sound := by
  refine ⟨fun ha => ?_, fun ha hk => ?_, fun hk => ?_⟩
  · rcases children?_of_setChildren ha with ⟨-, rfl⟩ | ⟨-, ha⟩
    · exact hn
    · exact h.nodup ha
  · rw [parent?_setChildren]
    rcases children?_of_setChildren ha with ⟨rfl, rfl⟩ | ⟨-, ha⟩
    · exact hp _ hk
    · exact h.linked ha hk
  · rw [parent?_setChildren] at hk
    exact h.older hk

/-! ## 3. Planting -/

/-- The forest `g` is `f` with a tree planted at the next id. The frame is needed for the sibling that
comes next, and the last part to know in the end that the tree is the one that was planted. -/
structure Planted (f : Forest) (parent : Option NodeId) (n : Node) (g : Forest) : Prop where
  sound : g.Sound
  grows : f.fresh < g.fresh
  frame : ∀ k < f.fresh, g.cell? k = f.cell? k
  link : g.parent? f.fresh = parent
  shows : ∀ depth, g.fresh ≤ f.fresh + depth → g.nodeWithin depth f.fresh = some n

/-- The forest `g` is `f` with trees planted at the ids `ids`. -/
structure PlantedAll (f : Forest) (parent : NodeId) (ns : List Node) (ids : List NodeId)
    (g : Forest) : Prop where
  sound : g.Sound
  grows : f.fresh ≤ g.fresh
  frame : ∀ k < f.fresh, g.cell? k = f.cell? k
  newer : ∀ k ∈ ids, f.fresh ≤ k
  nodup : ids.Nodup
  links : ∀ k ∈ ids, g.parent? k = some parent
  shows : ∀ depth, g.fresh ≤ f.fresh + depth → ids.filterMap (g.nodeWithin depth) = ns

/-- A node without children is planted by one new cell. -/
theorem planted_push {f : Forest} (h : f.Sound) {parent : Option NodeId}
    (hp : ∀ b, parent = some b → b < f.fresh) {content : Content} {n : Node}
    (hc : content.children? = none)
    (hn : ∀ depth, (f.push ⟨content, parent⟩).nodeWithin (depth + 1) f.fresh = some n) :
    Planted f parent n (f.push ⟨content, parent⟩) where
  sound := h.push content parent (by simp [hc]) hp
  grows := by simp
  frame k hk := by simp [Nat.ne_of_lt hk]
  link := by simp [parent?_eq]
  shows depth hd := by
    rw [fresh_push] at hd
    cases depth with
    | zero => exact absurd hd (Nat.not_succ_le_self _)
    | succ depth => exact hn depth

/-- A block is planted by one new cell, then its nodes, then the list of these. -/
theorem planted_block {f g : Forest} {parent : Option NodeId} {content : Content}
    {ns : List Node} {ids : List NodeId} {n : Node}
    (hg : PlantedAll (f.push ⟨content, parent⟩) f.fresh ns ids g)
    (hn : ∀ (g' : Forest) depth, g'.content? f.fresh = some (content.withChildren ids) →
      ids.filterMap (g'.nodeWithin depth) = ns → g'.nodeWithin (depth + 1) f.fresh = some n) :
    Planted f parent n (g.setChildren f.fresh ids) := by
  have hlt : f.fresh < (f.push ⟨content, parent⟩).fresh := by simp
  have hcell : g.cell? f.fresh = some ⟨content, parent⟩ := by simp [hg.frame _ hlt]
  refine ⟨hg.sound.setChildren hg.nodup hg.links, ?_, fun k hk => ?_, ?_, fun depth hd => ?_⟩
  · rw [fresh_setChildren]
    exact Nat.lt_of_lt_of_le hlt hg.grows
  · simp [Nat.ne_of_lt hk, hg.frame k (Nat.lt_trans hk hlt)]
  · simp [parent?_eq, hcell, Cell.withChildren]
  · rw [fresh_setChildren] at hd
    cases depth with
    | zero => exact absurd (Nat.le_trans hg.grows hd) (Nat.not_le_of_lt hlt)
    | succ depth =>
      refine hn _ depth ?_ ?_
      · simp [content?_eq, hcell, Cell.withChildren]
      · rw [← hg.shows depth (by rw [fresh_push, Nat.add_right_comm]; exact hd)]
        refine List.filterMap_congr fun k hk => ?_
        refine nodeWithin_congr (P := fun k => f.fresh < k) ?_ ?_ depth ?_
        · intro k hk
          simp [Nat.ne_of_gt hk]
        · intro k cs c hk hcs hc
          exact Nat.lt_trans hk (hg.sound.lt_of_mem hcs hc)
        · exact Nat.lt_of_lt_of_le hlt (hg.newer k hk)

/-- Planting one tree and then the others is planting them all. -/
theorem PlantedAll.cons {f g₁ g : Forest} {parent : NodeId} {n : Node} {ns : List Node}
    {ids : List NodeId} (h : PlantedAll g₁ parent ns ids g)
    (h₁ : Planted f (some parent) n g₁) : PlantedAll f parent (n :: ns) (f.fresh :: ids) g where
  sound := h.sound
  grows := Nat.le_trans (Nat.le_of_lt h₁.grows) h.grows
  frame k hk := (h.frame k (Nat.lt_trans hk h₁.grows)).trans (h₁.frame k hk)
  newer k hk := by
    rcases List.mem_cons.mp hk with rfl | hk
    · exact Nat.le_refl _
    · exact Nat.le_trans (Nat.le_of_lt h₁.grows) (h.newer k hk)
  nodup := List.nodup_cons.mpr
    ⟨fun hm => Nat.not_le_of_lt h₁.grows (h.newer _ hm), h.nodup⟩
  links k hk := by
    rcases List.mem_cons.mp hk with rfl | hk
    · rw [parent?_congr (h.frame _ h₁.grows), h₁.link]
    · exact h.links k hk
  shows depth hd := by
    have hfirst : g.nodeWithin depth f.fresh = some n := by
      rw [← h₁.shows depth (Nat.le_trans h.grows hd)]
      exact nodeWithin_congr (P := fun k => k < g₁.fresh) h.frame
        (fun _ hcs hc => h₁.sound.lt_fresh_of_mem hcs hc) depth h₁.grows
    have hothers := h.shows depth (Nat.le_trans hd (Nat.add_le_add_right
      (Nat.le_of_lt h₁.grows) depth))
    rw [List.filterMap_cons_some hfirst, hothers]

mutual

/-- A tree that was planted is seen again at its root, and nothing else in the forest has changed. By
induction on the tree. -/
theorem planted_plant {f : Forest} (h : f.Sound) (parent : Option NodeId)
    (hp : ∀ b, parent = some b → b < f.fresh) :
    ∀ n : Node, (f.plant parent n).1 = f.fresh ∧ Planted f parent n (f.plant parent n).2
  | .declaration _ => ⟨rfl, planted_push h hp rfl fun _ => by
      simp [nodeWithin, content?_eq]⟩
  | .raw _ => ⟨rfl, planted_push h hp rfl fun _ => by simp [nodeWithin, content?_eq]⟩
  | .comment _ => ⟨rfl, planted_push h hp rfl fun _ => by
      simp [nodeWithin, content?_eq]⟩
  | .atStatement _ _ _ => ⟨rfl, planted_push h hp rfl fun _ => by
      simp [nodeWithin, content?_eq]⟩
  | .rule selector nodes => by
    have hs := h.push (.rule selector []) parent (by simp [Content.children?]) hp
    have hall := planted_plantAll hs f.fresh (by simp) nodes
    refine ⟨rfl, planted_block hall fun g depth hc hns => ?_⟩
    rw [nodeWithin, hc]
    simp [Content.withChildren, hns]
  | .atBlock name prelude nested nodes => by
    have hs := h.push (.atBlock name prelude nested []) parent (by simp [Content.children?]) hp
    have hall := planted_plantAll hs f.fresh (by simp) nodes
    refine ⟨rfl, planted_block hall fun g depth hc hns => ?_⟩
    rw [nodeWithin, hc]
    simp [Content.withChildren, hns]

theorem planted_plantAll {f : Forest} (h : f.Sound) (parent : NodeId) (hp : parent < f.fresh) :
    ∀ ns : List Node,
      PlantedAll f parent ns (f.plantAll parent ns).1 (f.plantAll parent ns).2
  | [] => ⟨h, Nat.le_refl _, fun _ _ => rfl, by simp [plantAll], by simp [plantAll],
      by simp [plantAll], fun _ _ => by simp [plantAll]⟩
  | n :: ns => by
    obtain ⟨hid, hfirst⟩ := planted_plant h (some parent)
      (fun b hb => by rw [← Option.some.inj hb]; exact hp) n
    have hothers := planted_plantAll hfirst.sound parent (Nat.lt_trans hp hfirst.grows) ns
    rw [plantAll]
    simp only [hid]
    exact hothers.cons hfirst

end

/-! ## 4. The forest of a stylesheet -/

theorem sound_nil : (Forest.mk #[]).Sound where
  nodup hb := absurd (lt_fresh_of_children? hb) (Nat.not_lt_zero _)
  linked hb := absurd (lt_fresh_of_children? hb) (Nat.not_lt_zero _)
  older hk := absurd (lt_fresh_of_parent? hk) (Nat.not_lt_zero _)

/-- The nodes of a stylesheet are planted behind an empty root. -/
theorem plantedAll_sheet (sheet : Sheet) :
    ∃ ids g, ofSheet sheet = g.setChildren root ids ∧
      PlantedAll ⟨#[⟨.sheet [], none⟩]⟩ root sheet ids g := by
  have h := sound_nil.push (.sheet []) none (by simp [Content.children?]) (by simp)
  exact ⟨_, _, rfl, planted_plantAll h root Nat.zero_lt_one sheet⟩

theorem sound_ofSheet (sheet : Sheet) : (ofSheet sheet).Sound := by
  obtain ⟨ids, g, hf, h⟩ := plantedAll_sheet sheet
  rw [hf]
  exact h.sound.setChildren h.nodup h.links

/-- A stylesheet that becomes a forest is seen in it as it was. -/
@[simp] theorem sheet_ofSheet (sheet : Sheet) : (ofSheet sheet).sheet = sheet := by
  obtain ⟨ids, g, hf, h⟩ := plantedAll_sheet sheet
  have hroot : g.children? root = some [] := children?_congr (h.frame root Nat.zero_lt_one)
  have hids : (g.setChildren root ids).children root = ids := by
    rw [children, children?_setChildren hroot]
    rfl
  have hdepth : (g.setChildren root ids).depth = g.fresh := fresh_setChildren g root ids
  rw [hf, Forest.sheet, hids, ← h.shows g.fresh (Nat.le_add_left _ _)]
  refine List.filterMap_congr fun k hk => ?_
  rw [node?, hdepth]
  refine nodeWithin_congr (P := fun k => root < k) ?_ ?_ _ (h.newer k hk)
  · intro k hk
    rw [cell?_setChildren, if_neg (Nat.ne_of_gt hk)]
  · intro k cs c hk hcs hc
    exact Nat.lt_trans hk (h.sound.lt_of_mem hcs hc)

end Forest

end CssExpand
