import CssExpand.Proofs.Forest.Planting
import CssExpand.Proofs.Forest.Splice
import Mathlib.Logic.Relation

/-!
# Replacing one declaration after the other

Whatever a pass does to a forest, finished or not, it does by replacing declarations one at a time.
One such step (`Replacement`) splices new declarations into a body or sets a value in place, and
`Replacements` are any number of them. This is the step and run layer of the forest: what one
replacement keeps, every run keeps.

Kept are the soundness of the forest (`Replacements.sound`), what a walk sees of each node
(`Replacements.role?`), and every link that is not removed (`Replacements.parent?`).
-/

set_option autoImplicit false

namespace CssExpand

/-! ## 1. What a walk sees -/

/-- What a walk makes of a node: it stops at a body, goes on through a list of rules, and passes
over everything else. -/
inductive Role where
  | body (isRule : Bool)
  | rules (children : List NodeId)
  | sheet (children : List NodeId)
  | other
  deriving DecidableEq

/-- What a walk makes of a node with this content. -/
def Content.role : Content → Role
  | .rule _ _ => .body true
  | .atBlock _ _ true cs => .rules cs
  | .atBlock _ _ false _ => .body false
  | .sheet cs => .sheet cs
  | _ => .other

namespace Forest

/-- What a walk makes of a node. Where there is none there is nothing to see. -/
def role (f : Forest) (id : NodeId) : Role := (f.content? id).elim .other Content.role

/-- The node holds declarations. -/
def IsBody (f : Forest) (id : NodeId) : Prop := ∃ isRule, f.role id = .body isRule

theorem role_congr {f g : Forest} {id : NodeId} (h : f.cell? id = g.cell? id) :
    f.role id = g.role id := by
  rw [role, role, content?_congr h]

/-- Nothing but a stylesheet has the role of one. -/
theorem role_eq_sheet {f : Forest} {id : NodeId} {cs : List NodeId} :
    f.role id = .sheet cs ↔ f.content? id = some (.sheet cs) := by
  refine ⟨fun h => ?_, fun h => by rw [role, h]; rfl⟩
  rw [role] at h
  cases hc : f.content? id with
  | none => rw [hc] at h; cases h
  | some c =>
    rw [hc] at h
    cases c with
    | sheet ids => exact congrArg (some ∘ Content.sheet) (Role.sheet.inj h)
    | atBlock name prelude nested ids => cases nested <;> cases h
    | _ => cases h

/-- A body keeps its role whatever its children are. -/
theorem role_withChildren {c : Content} {isRule : Bool} (h : c.role = .body isRule)
    (cs : List NodeId) : (c.withChildren cs).role = .body isRule := by
  cases c <;> simp_all [Content.role, Content.withChildren]
  split at h <;> simp_all

/-! ## 2. One splice -/

namespace Spliced

variable {f g : Forest} {block id : NodeId} {pre post : List NodeId} {ds : List Declaration}

theorem cell?_new (h : Spliced f g block id pre post ds) {k : NodeId} (hk : f.fresh ≤ k)
    (hb : block < f.fresh) (hid : id < f.fresh) :
    g.cell? k = ds[k - f.fresh]?.map fun d => ⟨.declaration d, some block⟩ := by
  rw [h.cell, if_neg (Nat.ne_of_gt (Nat.lt_of_lt_of_le hb hk)),
    if_neg (Nat.ne_of_gt (Nat.lt_of_lt_of_le hid hk)), if_neg (Nat.not_lt_of_le hk)]

theorem cell?_old (h : Spliced f g block id pre post ds) {k : NodeId} (hk : k < f.fresh)
    (hb : k ≠ block) (hid : k ≠ id) : g.cell? k = f.cell? k := by
  rw [h.cell, if_neg hb, if_neg hid, if_pos hk]

/-- The new children of the block. -/
theorem children?_block (h : Spliced f g block id pre post ds) {cs : List NodeId}
    (hb : f.children? block = some cs) :
    g.children? block = some (pre ++ f.nextIds ds.length ++ post) := by
  obtain ⟨c, hc, hcs⟩ := exists_cell?_of_children? hb
  rw [children?, content?_eq, h.cell, if_pos rfl, hc]
  exact children?_withChildren hcs

/-- No other node gets other children. -/
theorem children?_other (h : Spliced f g block id pre post ds) {d : Declaration}
    (hd : f.declaration? id = some d) {cs : List NodeId} (hb : f.children? block = some cs)
    {k : NodeId} (hk : k ≠ block) : g.children? k = f.children? k := by
  by_cases hid : k = id
  · subst hid
    rw [children?_of_declaration? hd, children?, content?_eq, h.cell, if_neg hk, if_pos rfl]
    obtain ⟨c, hc, hcd⟩ := exists_cell?_of_declaration? hd
    simp [hc, Cell.detached, hcd, Content.children?]
  · by_cases hlt : k < f.fresh
    · exact children?_congr (h.cell?_old hlt hk hid)
    · have hle := Nat.le_of_not_lt hlt
      rw [children?, children?, content?_eq_none hle, content?_eq,
        h.cell?_new hle (lt_fresh_of_children? hb) (lt_fresh_of_declaration? hd)]
      cases ds[k - f.fresh]? <;> rfl

/-- The links after a splice: the old declaration has none, the new ones point to the block, and all
others are as before. -/
theorem parent?_eq (h : Spliced f g block id pre post ds) {d : Declaration}
    (hd : f.declaration? id = some d) {cs : List NodeId} (hb : f.children? block = some cs)
    (hne : id ≠ block) (k : NodeId) :
    g.parent? k = if k = id then none else if k < f.fresh then f.parent? k
      else ds[k - f.fresh]?.bind fun _ => some block := by
  by_cases hid : k = id
  · subst hid
    rw [Forest.parent?_eq, h.cell, if_neg hne, if_pos rfl, if_pos rfl]
    cases f.cell? k <;> rfl
  · rw [if_neg hid]
    by_cases hlt : k < f.fresh
    · rw [if_pos hlt]
      by_cases hk : k = block
      · rw [Forest.parent?_eq, h.cell, if_pos hk, Forest.parent?_eq]
        cases f.cell? k <;> rfl
      · exact parent?_congr (h.cell?_old hlt hk hid)
    · rw [if_neg hlt, Forest.parent?_eq, h.cell?_new (Nat.le_of_not_lt hlt)
        (lt_fresh_of_children? hb) (lt_fresh_of_declaration? hd)]
      cases ds[k - f.fresh]? <;> rfl

/-- The id of each new declaration is linked to the block. -/
theorem parent?_new (h : Spliced f g block id pre post ds) {d : Declaration}
    (hd : f.declaration? id = some d) {cs : List NodeId} (hb : f.children? block = some cs)
    {k : NodeId} (hk : k ∈ f.nextIds ds.length) : g.parent? k = some block := by
  obtain ⟨hle, hlt⟩ := le_of_mem_nextIds hk
  have hlen : k - f.fresh < ds.length := Nat.sub_lt_left_of_lt_add hle hlt
  rw [Forest.parent?_eq, h.cell?_new hle (lt_fresh_of_children? hb) (lt_fresh_of_declaration? hd),
    List.getElem?_eq_getElem hlen]
  rfl

/-- A splice keeps a forest sound. The fields of soundness are gone through one by one, and for each
the nodes are of four kinds: the block, the node that went, the ones that came and all others. -/
theorem sound (h : Spliced f g block id pre post ds) (hf : f.Sound) {d : Declaration}
    (hd : f.declaration? id = some d) (hb : f.children? block = some (pre ++ id :: post)) :
    g.Sound := by
  have hid : id ∈ pre ++ id :: post := List.mem_append_right _ List.mem_cons_self
  have hne : id ≠ block := Nat.ne_of_gt (hf.lt_of_mem hb hid)
  have hnodup := hf.nodup hb
  -- Only the block has other children than before.
  have hchildren : ∀ {b cs}, g.children? b = some cs →
      (b = block ∧ cs = pre ++ f.nextIds ds.length ++ post) ∨
      (b ≠ block ∧ f.children? b = some cs) := by
    intro b cs hcs
    by_cases hk : b = block
    · subst hk
      rw [h.children?_block hb] at hcs
      exact .inl ⟨rfl, (Option.some.inj hcs).symm⟩
    · exact .inr ⟨hk, by rw [← h.children?_other hd hb hk, hcs]⟩
  -- And only the node that went has another parent.
  have hkept : ∀ {b cs k}, f.children? b = some cs → k ∈ cs → k ≠ id → g.parent? k = some b := by
    intro b cs k hcs hk hki
    rw [h.parent?_eq hd hb hne, if_neg hki, if_pos (hf.lt_fresh_of_mem hcs hk), hf.linked hcs hk]
  refine ⟨fun hcs => ?_, fun {b cs k} hcs hk => ?_, fun {k b} hk => ?_⟩
  · rcases hchildren hcs with ⟨rfl, rfl⟩ | ⟨-, hcs⟩
    · have hold : (pre ++ post).Nodup := hnodup.sublist (by simp)
      have hnew : (f.nextIds ds.length).Nodup := List.nodup_range'
      -- The new names are fresh, so none of them is an old child.
      have hdisjoint : ∀ k ∈ pre ++ post, k ∉ f.nextIds ds.length := by
        intro k hk hn
        have hmem : k ∈ pre ++ id :: post := by
          rcases List.mem_append.mp hk with hk | hk <;> simp [hk]
        exact Nat.not_lt_of_le (le_of_mem_nextIds hn).1 (hf.lt_fresh_of_mem hb hmem)
      refine (List.perm_append_right_iff post |>.mpr List.perm_append_comm).nodup_iff.mpr ?_
      rw [List.append_assoc]
      exact hnew.append hold fun k hn hk => hdisjoint k hk hn
    · exact hf.nodup hcs
  · rcases hchildren hcs with ⟨rfl, rfl⟩ | ⟨hne', hcs⟩
    · rcases List.mem_append.mp hk with hk | hk
      · rcases List.mem_append.mp hk with hk | hk
        · refine hkept hb (List.mem_append_left _ hk) ?_
          rintro rfl
          exact (List.nodup_append.mp hnodup).2.2 _ hk _ List.mem_cons_self rfl
        · exact h.parent?_new hd hb hk
      · refine hkept hb (List.mem_append_right _ (List.mem_cons_of_mem _ hk)) ?_
        rintro rfl
        exact (List.nodup_cons.mp (List.nodup_append.mp hnodup).2.1).1 hk
    · refine hkept hcs hk ?_
      rintro rfl
      exact hne' (Option.some.inj ((hf.linked hcs hk).symm.trans (hf.linked hb hid)))
  · rw [h.parent?_eq hd hb hne] at hk
    split at hk
    · cases hk
    · split at hk
      · exact hf.older hk
      · next hlt =>
        cases hds : ds[k - f.fresh]? with
        | none => simp [hds] at hk
        | some e =>
          simp only [hds, Option.bind_some, Option.some.injEq] at hk
          subst hk
          exact Nat.lt_of_lt_of_le (lt_fresh_of_children? hb) (Nat.le_of_not_lt hlt)

/-- A walk sees the same after a splice into a body. -/
theorem role_eq (h : Spliced f g block id pre post ds) {d : Declaration}
    (hd : f.declaration? id = some d) {cs : List NodeId} (hb : f.children? block = some cs)
    (hbody : f.IsBody block) (k : NodeId) : g.role k = f.role k := by
  by_cases hk : k = block
  · subst hk
    obtain ⟨isRule, hr⟩ := hbody
    obtain ⟨c, hc, -⟩ := exists_cell?_of_children? hb
    rw [role, content?_of_cell? hc] at hr
    rw [role, role, content?_eq, h.cell, if_pos rfl, hc, content?_of_cell? hc]
    exact (role_withChildren hr _).trans hr.symm
  · by_cases hid : k = id
    · subst hid
      rw [role, role, content?_eq, content?_eq, h.cell, if_neg hk, if_pos rfl]
      cases f.cell? k <;> rfl
    · by_cases hlt : k < f.fresh
      · exact role_congr (h.cell?_old hlt hk hid)
      · have hle := Nat.le_of_not_lt hlt
        rw [role, role, content?_eq_none hle, content?_eq,
          h.cell?_new hle (lt_fresh_of_children? hb) (lt_fresh_of_declaration? hd)]
        cases ds[k - f.fresh]? <;> rfl

end Spliced

/-! ## 3. One new value -/

theorem parent_revalued (c : Cell) (value : String) : (c.revalued value).parent = c.parent := by
  obtain ⟨content, parent⟩ := c
  cases content <;> rfl

theorem children?_revalued (c : Cell) (value : String) :
    (c.revalued value).content.children? = c.content.children? := by
  obtain ⟨content, parent⟩ := c
  cases content <;> rfl

theorem role_revalued (c : Cell) (value : String) :
    (c.revalued value).content.role = c.content.role := by
  obtain ⟨content, parent⟩ := c
  cases content <;> rfl

namespace Revalued

variable {f g : Forest} {id : NodeId} {value : String}

theorem parent?_eq (h : Revalued f g id value) (k : NodeId) : g.parent? k = f.parent? k := by
  rw [Forest.parent?_eq, Forest.parent?_eq, h.cell]
  split
  · cases f.cell? k <;> simp [parent_revalued]
  · rfl

theorem children?_eq (h : Revalued f g id value) (k : NodeId) : g.children? k = f.children? k := by
  rw [children?, children?, content?_eq, content?_eq, h.cell]
  split
  · cases f.cell? k <;> simp [children?_revalued]
  · rfl

theorem role_eq (h : Revalued f g id value) (k : NodeId) : g.role k = f.role k := by
  rw [role, role, content?_eq, content?_eq, h.cell]
  split
  · cases f.cell? k <;> simp [role_revalued]
  · rfl

theorem sound (h : Revalued f g id value) (hf : f.Sound) : g.Sound where
  nodup hb := hf.nodup (by rwa [h.children?_eq] at hb)
  linked hb hk := by
    rw [h.parent?_eq]
    exact hf.linked (by rwa [h.children?_eq] at hb) hk
  older hk := hf.older (by rwa [h.parent?_eq] at hk)

end Revalued

/-! ## 4. Any number of replacements -/

/-- The forest `g` is `f` with one declaration of a body replaced as `may` allows it. -/
inductive Replacement (may : Declaration → List (String × String) → Prop) (f g : Forest) : Prop
  | splice {block id : NodeId} {pre post : List NodeId} {d : Declaration}
      {pairs : List (String × String)} (body : f.IsBody block)
      (children : f.children? block = some (pre ++ id :: post))
      (declared : f.declaration? id = some d) (allowed : may d pairs)
      (spliced : Spliced f g block id pre post (pairs.map d.replacedBy))
  | revalue {block id : NodeId} {cs : List NodeId} {d : Declaration} {value : String}
      (body : f.IsBody block) (children : f.children? block = some cs) (member : id ∈ cs)
      (declared : f.declaration? id = some d) (allowed : may d [(d.prop, value)])
      (revalued : Revalued f g id value)

namespace Replacement

variable {may : Declaration → List (String × String) → Prop} {f g : Forest}

theorem sound (h : Replacement may f g) (hf : f.Sound) : g.Sound := by
  cases h with
  | splice _ hb hd _ hs => exact hs.sound hf hd hb
  | revalue _ _ _ _ _ hr => exact hr.sound hf

theorem grows (h : Replacement may f g) : f.fresh ≤ g.fresh := by
  cases h with
  | splice _ _ _ _ hs => exact hs.fresh ▸ Nat.le_add_right _ _
  | revalue _ _ _ _ _ hr => exact Nat.le_of_eq hr.fresh.symm

theorem role_eq (h : Replacement may f g) (k : NodeId) : g.role k = f.role k := by
  cases h with
  | splice hbody hb hd _ hs => exact hs.role_eq hd hb hbody k
  | revalue _ _ _ _ _ hr => exact hr.role_eq k

/-- A link that is there after a replacement was there before. -/
theorem parent?_eq (h : Replacement may f g) (hf : f.Sound) {k b : NodeId} (hk : k < f.fresh)
    (hp : g.parent? k = some b) : f.parent? k = some b := by
  cases h with
  | splice _ hb hd _ hs =>
    have hid := hf.lt_of_mem hb (List.mem_append_right _ List.mem_cons_self)
    rw [hs.parent?_eq hd hb (Nat.ne_of_gt hid)] at hp
    split at hp
    · cases hp
    · exact hp
  | revalue _ _ _ _ _ hr => rwa [hr.parent?_eq] at hp

theorem mono {may' : Declaration → List (String × String) → Prop}
    (hm : ∀ d pairs, may d pairs → may' d pairs) (h : Replacement may f g) :
    Replacement may' f g := by
  cases h with
  | splice hbody hb hd ha hs => exact .splice hbody hb hd (hm _ _ ha) hs
  | revalue hbody hb hi hd ha hr => exact .revalue hbody hb hi hd (hm _ _ ha) hr

end Replacement

/-- The forest comes from another one by any number of replacements. -/
def Replacements (may : Declaration → List (String × String) → Prop) : Forest → Forest → Prop :=
  Relation.ReflTransGen (Replacement may)

namespace Replacements

variable {may : Declaration → List (String × String) → Prop} {f g : Forest}

/-- What every replacement in a sound forest keeps, a run of them keeps. -/
theorem keeps {P : Forest → Prop} (hstep : ∀ {f g}, f.Sound → P f → Replacement may f g → P g)
    (h : Replacements may f g) (hf : f.Sound) (hP : P f) : g.Sound ∧ P g := by
  induction h with
  | refl => exact ⟨hf, hP⟩
  | tail _ hs ih => exact ⟨hs.sound ih.1, hstep ih.1 ih.2 hs⟩

theorem sound (h : Replacements may f g) (hf : f.Sound) : g.Sound :=
  (h.keeps (P := fun _ => True) (fun _ _ _ => trivial) hf trivial).1

theorem grows (h : Replacements may f g) : f.fresh ≤ g.fresh := by
  induction h with
  | refl => exact Nat.le_refl _
  | tail _ hs ih => exact Nat.le_trans ih hs.grows

/-- A walk sees the same after a run. -/
theorem role_eq (h : Replacements may f g) (k : NodeId) : g.role k = f.role k := by
  induction h with
  | refl => rfl
  | tail _ hs ih => exact (hs.role_eq k).trans ih

theorem isBody (h : Replacements may f g) {b : NodeId} (hb : f.IsBody b) : g.IsBody b := by
  obtain ⟨isRule, hr⟩ := hb
  exact ⟨isRule, (h.role_eq b).trans hr⟩

/-- A link that is there after a run was there before. -/
theorem parent?_eq (h : Replacements may f g) (hf : f.Sound) {k b : NodeId} (hk : k < f.fresh)
    (hp : g.parent? k = some b) : f.parent? k = some b := by
  induction h with
  | refl => exact hp
  | tail h hs ih =>
    exact ih (hs.parent?_eq (sound h hf) (Nat.lt_of_lt_of_le hk (grows h)) hp)

theorem mono {may' : Declaration → List (String × String) → Prop}
    (hm : ∀ d pairs, may d pairs → may' d pairs) (h : Replacements may f g) :
    Replacements may' f g :=
  Relation.ReflTransGen.mono (fun _ _ => Replacement.mono hm) _ _ h

/-- Nodes that are apart stay apart. -/
theorem under (h : Replacements may f g) (hf : f.Sound) {a x : NodeId} (hx : x < f.fresh)
    (hu : g.Under a x) : f.Under a x := by
  induction hu with
  | self => exact .self
  | child hp _ ih =>
    have hp' := h.parent?_eq hf hx hp
    exact .child hp' (ih (Nat.lt_trans (hf.older hp') hx))

theorem apart (h : Replacements may f g) (hf : f.Sound) {a b : NodeId} (ha : a < f.fresh)
    (hb : b < f.fresh) (hab : f.Apart a b) : g.Apart a b :=
  ⟨fun hu => hab.1 (h.under hf hb hu), fun hu => hab.2 (h.under hf ha hu)⟩

end Replacements

end Forest

end CssExpand
