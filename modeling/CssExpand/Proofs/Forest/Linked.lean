import CssExpand.Proofs.Forest.Planting

/-!
# Linked forests

While a stylesheet is edited, a node that was made late may end up above an older one, and a node may
even be put into itself, so `Forest.Sound` does not last. What does last is that child lists and
parent links agree (`Linked`): a child is linked to the block that lists it, and no list names a node
twice. A node without a parent is then in no list at all (`Linked.unlisted`), which is why it may be
inserted anywhere.

The converse is not part of it. A node may be linked to a block that does not list it: that is what
an insertion leaves behind when it does not find its place.
-/

set_option autoImplicit false

namespace CssExpand

namespace Forest

/-- Child lists and parent links agree. Nothing is said of nodes that no list names: they may be linked
to anything. -/
structure Linked (f : Forest) : Prop where
  nodup : ∀ {b cs}, f.children? b = some cs → cs.Nodup
  linked : ∀ {b cs k}, f.children? b = some cs → k ∈ cs → f.parent? k = some b

/-- No child list names the node. -/
def Unlisted (f : Forest) (k : NodeId) : Prop := ∀ {b cs}, f.children? b = some cs → k ∉ cs

variable {f g : Forest}

theorem Sound.isLinked (h : f.Sound) : f.Linked := ⟨h.nodup, h.linked⟩

namespace Linked

theorem lt_fresh_of_mem (h : f.Linked) {b k : NodeId} {cs : List NodeId}
    (hb : f.children? b = some cs) (hk : k ∈ cs) : k < f.fresh :=
  lt_fresh_of_parent? (h.linked hb hk)

/-- A node that is linked to nothing is listed nowhere. -/
theorem unlisted (h : f.Linked) {k : NodeId} (hk : f.parent? k = none) : f.Unlisted k := by
  intro b cs hb hm
  simp [h.linked hb hm] at hk

/-- The lists of two blocks have no node in common. -/
theorem disjoint (h : f.Linked) {a b : NodeId} {as bs : List NodeId} (hab : a ≠ b)
    (ha : f.children? a = some as) (hb : f.children? b = some bs) : as.Disjoint bs := by
  intro k hka hkb
  have hlink := (h.linked ha hka).symm.trans (h.linked hb hkb)
  exact hab (Option.some.inj hlink)

end Linked

/-! ## 1. The small changes -/

theorem parent?_setParent_self {k : NodeId} {p : Option NodeId} (hk : k < f.fresh) :
    (f.setParent k p).parent? k = p := by
  obtain ⟨c, hc⟩ := Option.isSome_iff_exists.mp (cell?_isSome.mpr hk)
  simp [parent?_eq, hc]

theorem parent?_setParent_ne {k x : NodeId} {p : Option NodeId} (hx : x ≠ k) :
    (f.setParent k p).parent? x = f.parent? x :=
  parent?_congr (by simp [hx])

namespace Linked

/-- A new node without children may be linked to anything. -/
theorem push (h : f.Linked) {content : Content} (parent : Option NodeId)
    (hc : ∀ cs, content.children? = some cs → cs = []) : (f.push ⟨content, parent⟩).Linked := by
  refine ⟨fun hb => ?_, fun hb hk => ?_⟩
  · rcases children?_of_push hc hb with rfl | hb
    · exact List.nodup_nil
    · exact h.nodup hb
  · rcases children?_of_push hc hb with rfl | hb
    · cases hk
    · rw [parent?_push_of_lt (h.lt_fresh_of_mem hb hk), h.linked hb hk]

/-- A block may get any children that are linked to it. -/
theorem setChildren (h : f.Linked) {b : NodeId} {ids : List NodeId} (hn : ids.Nodup)
    (hp : ∀ k ∈ ids, f.parent? k = some b) : (f.setChildren b ids).Linked := by
  refine ⟨fun ha => ?_, fun ha hk => ?_⟩
  · rcases children?_of_setChildren ha with ⟨-, rfl⟩ | ⟨-, ha⟩
    · exact hn
    · exact h.nodup ha
  · rw [parent?_setChildren]
    rcases children?_of_setChildren ha with ⟨rfl, rfl⟩ | ⟨-, ha⟩
    · exact hp _ hk
    · exact h.linked ha hk

/-- A node in no list may be linked to anything. -/
theorem setParent (h : f.Linked) {k : NodeId} (hk : f.Unlisted k) (p : Option NodeId) :
    (f.setParent k p).Linked := by
  refine ⟨fun hb => h.nodup (children?_setParent f k p _ ▸ hb), fun hb hx => ?_⟩
  rw [children?_setParent] at hb
  have hne : ∀ {x}, x ∈ _ → x ≠ k := fun hx he => hk hb (he ▸ hx)
  rw [parent?_setParent_ne (hne hx), h.linked hb hx]

/-- What the nodes are does not matter, only their children do. -/
theorem updateContent (h : f.Linked) {u : Content → Content}
    (hu : ∀ c, (u c).children? = c.children?) (id : NodeId) : (f.updateContent id u).Linked := by
  have hchildren : ∀ b, (f.updateContent id u).children? b = f.children? b := by
    intro b
    rw [children?, children?, content?_eq, content?_eq, cell?_updateContent]
    split <;> cases f.cell? b <;> simp [hu]
  have hparent : ∀ k, (f.updateContent id u).parent? k = f.parent? k := by
    intro k
    rw [parent?_eq, parent?_eq, cell?_updateContent]
    split <;> cases f.cell? k <;> rfl
  refine ⟨fun hb => h.nodup (hchildren _ ▸ hb), fun hb hk => ?_⟩
  rw [hparent, h.linked (hchildren _ ▸ hb) hk]

end Linked

/-! ## 2. Trees made on the way

`Planted` and `PlantedAll` say more, but of sound forests only. -/

/-- The forest `g` is the linked forest `f` with more nodes, the first of which has the parent. -/
structure Grown (f : Forest) (parent : Option NodeId) (g : Forest) : Prop where
  linked : g.Linked
  grows : f.fresh < g.fresh
  frame : ∀ k < f.fresh, g.cell? k = f.cell? k
  link : g.parent? f.fresh = parent

/-- The forest `g` is the linked forest `f` with more nodes, among them `ids` with the parent. -/
structure GrownAll (f : Forest) (parent : NodeId) (ids : List NodeId) (g : Forest) : Prop where
  linked : g.Linked
  grows : f.fresh ≤ g.fresh
  frame : ∀ k < f.fresh, g.cell? k = f.cell? k
  newer : ∀ k ∈ ids, f.fresh ≤ k
  nodup : ids.Nodup
  links : ∀ k ∈ ids, g.parent? k = some parent

theorem grown_push (h : f.Linked) {content : Content} (parent : Option NodeId)
    (hc : ∀ cs, content.children? = some cs → cs = []) :
    Grown f parent (f.push ⟨content, parent⟩) where
  linked := h.push parent hc
  grows := by simp
  frame k hk := by simp [Nat.ne_of_lt hk]
  link := by simp [parent?_eq]

/-- A block grows by its own cell, then its nodes, then the list of these. -/
theorem Grown.block {parent : Option NodeId} {ids : List NodeId} {f₁ : Forest}
    (h₁ : Grown f parent f₁) (h : GrownAll f₁ f.fresh ids g) :
    Grown f parent (g.setChildren f.fresh ids) where
  linked := h.linked.setChildren h.nodup h.links
  grows := by simpa using Nat.lt_of_lt_of_le h₁.grows h.grows
  frame k hk := by
    simp [Nat.ne_of_lt hk, h.frame k (Nat.lt_trans hk h₁.grows), h₁.frame k hk]
  link := by rw [parent?_setChildren, parent?_congr (h.frame _ h₁.grows), h₁.link]

/-- One more node in front of the others. -/
theorem GrownAll.cons {f₁ : Forest} {parent : NodeId} {ids : List NodeId}
    (h : GrownAll f₁ parent ids g) (h₁ : Grown f (some parent) f₁) :
    GrownAll f parent (f.fresh :: ids) g where
  linked := h.linked
  grows := Nat.le_trans (Nat.le_of_lt h₁.grows) h.grows
  frame k hk := (h.frame k (Nat.lt_trans hk h₁.grows)).trans (h₁.frame k hk)
  newer k hk := by
    rcases List.mem_cons.mp hk with rfl | hk
    · exact Nat.le_refl _
    · exact Nat.le_trans (Nat.le_of_lt h₁.grows) (h.newer k hk)
  nodup := List.nodup_cons.mpr
    ⟨fun hm => Nat.not_le_of_lt h₁.grows (h.newer _ hm), h.nodup⟩
  links k hk := by
    rcases List.mem_cons.mp hk with rfl | hk
    · rw [parent?_congr (h.frame _ h₁.grows), h₁.link]
    · exact h.links k hk

mutual

/-- Planting a tree keeps the links. By induction on the tree: a block is pushed empty, its children
are planted under it, and then it is given their names. -/
theorem grown_plant {f : Forest} (h : f.Linked) (parent : Option NodeId) :
    ∀ n : Node, (f.plant parent n).1 = f.fresh ∧ Grown f parent (f.plant parent n).2
  | .declaration _ => ⟨rfl, grown_push h parent (by simp [Content.children?])⟩
  | .raw _ => ⟨rfl, grown_push h parent (by simp [Content.children?])⟩
  | .comment _ => ⟨rfl, grown_push h parent (by simp [Content.children?])⟩
  | .atStatement _ _ _ => ⟨rfl, grown_push h parent (by simp [Content.children?])⟩
  | .rule selector nodes => by
    have hs : Grown f parent (f.push ⟨.rule selector [], parent⟩) :=
      grown_push h parent (by simp [Content.children?])
    exact ⟨rfl, hs.block (grown_plantAll hs.linked f.fresh nodes)⟩
  | .atBlock name prelude nested nodes => by
    have hs : Grown f parent (f.push ⟨.atBlock name prelude nested [], parent⟩) :=
      grown_push h parent (by simp [Content.children?])
    exact ⟨rfl, hs.block (grown_plantAll hs.linked f.fresh nodes)⟩

theorem grown_plantAll {f : Forest} (h : f.Linked) (parent : NodeId) :
    ∀ ns : List Node, GrownAll f parent (f.plantAll parent ns).1 (f.plantAll parent ns).2
  | [] => ⟨h, Nat.le_refl _, fun _ _ => rfl, by simp [plantAll], by simp [plantAll],
      by simp [plantAll]⟩
  | n :: ns => by
    obtain ⟨hid, hfirst⟩ := grown_plant h (some parent) n
    rw [plantAll]
    simp only [hid]
    exact (grown_plantAll hfirst.linked parent ns).cons hfirst

end

end Forest

end CssExpand
