import CssExpand.Proofs.Forest.PassSheet
import CssExpand.Proofs.Sheet.Shape

/-!
# Every node stands where it may

The cells of a forest admit every node everywhere. In a forest that is `Placed` the stylesheet and the
nested blocks hold rules, at-rules and comments, and all other blocks hold declarations, raw pieces
and comments. A parsed stylesheet is planted so (`placed_ofSheet`), and the single edits that a pass is
made of (`Forest.Edited`) keep it (`Placed.edited`): they put declarations into bodies, take them out
there, or set a value.

That a pass is made of these edits is `Replacements.edits`. It refines the replacement of one
declaration, so that the forests in the middle of a replacement are accounted for, too.
-/

set_option autoImplicit false

namespace CssExpand

/-- The kinds of node that a list of rules may hold. -/
def NodeKind.inRules : NodeKind → Bool
  | .rule | .atRule | .comment => true
  | _ => false

/-- The kinds of node that a body may hold. -/
def NodeKind.inBody : NodeKind → Bool
  | .declaration | .raw | .comment => true
  | _ => false

/-- The kinds of node that may be among the children of a node. -/
def Content.admits : Content → NodeKind → Bool
  | .sheet _ | .atBlock _ _ true _ => NodeKind.inRules
  | .rule _ _ | .atBlock _ _ false _ => NodeKind.inBody
  | _ => fun _ => false

@[simp] theorem Content.admits_withChildren (c : Content) (cs : List NodeId) :
    (c.withChildren cs).admits = c.admits := by
  cases c with
  | atBlock name prelude nested => cases nested <;> rfl
  | _ => rfl

@[simp] theorem Content.kind_withChildren (c : Content) (cs : List NodeId) :
    (c.withChildren cs).kind = c.kind := by
  cases c <;> rfl

namespace Forest

variable {f g : Forest}

/-- All children of all nodes are nodes that may stand there. -/
def Placed (f : Forest) : Prop :=
  ∀ (b : NodeId) (c : Content) (k : NodeId), f.content? b = some c → k ∈ f.children b →
    ∃ kind, f.kind? k = some kind ∧ c.admits kind = true

/-! ## 1. Small changes -/

theorem children_of_content? {b : NodeId} {c : Content} (h : f.content? b = some c) :
    f.children b = c.children?.getD [] := by
  rw [children, children?_of_content? h]

@[simp] theorem content?_updateContent (f : Forest) (id : NodeId) (u : Content → Content)
    (k : NodeId) :
    (f.updateContent id u).content? k = if k = id then (f.content? k).map u else f.content? k := by
  rw [content?_eq, content?_eq, cell?_updateContent]
  split
  · cases f.cell? k <;> rfl
  · rfl

theorem kind?_updateContent {u : Content → Content} (hu : ∀ c, (u c).kind = c.kind) (f : Forest)
    (id k : NodeId) : (f.updateContent id u).kind? k = f.kind? k := by
  rw [kind?, kind?, content?_updateContent]
  split
  · cases f.content? k <;> simp [hu]
  · rfl

theorem kind?_congr {k : NodeId} (h : f.cell? k = g.cell? k) : f.kind? k = g.kind? k := by
  rw [kind?, kind?, content?_congr h]

theorem kind?_push (f : Forest) (c : Cell) : (f.push c).kind? f.fresh = some c.content.kind := by
  rw [kind?, content?_eq, cell?_push, if_pos rfl]
  rfl

theorem kind?_push_of_kind? {k : NodeId} {kind : NodeKind} (h : f.kind? k = some kind) (c : Cell) :
    (f.push c).kind? k = some kind := by
  obtain ⟨content, hcontent, -⟩ := Option.map_eq_some_iff.mp h
  obtain ⟨cell, hcell, -⟩ := Option.map_eq_some_iff.mp hcontent
  rwa [kind?, content?_push_of_lt (lt_fresh_of_cell? hcell)]

theorem Placed.push (hf : f.Placed) {content : Content} (parent : Option NodeId)
    (hc : content.children?.getD [] = []) : (f.push ⟨content, parent⟩).Placed := by
  intro b c k hb hk
  rw [children_of_content? hb] at hk
  rw [content?_eq, cell?_push] at hb
  split at hb
  · cases hb
    rw [hc] at hk
    cases hk
  · obtain ⟨kind, hkind, ha⟩ := hf b c k hb (by rwa [children_of_content? hb])
    exact ⟨kind, kind?_push_of_kind? hkind _, ha⟩

theorem Placed.setParent (hf : f.Placed) (id : NodeId) (p : Option NodeId) :
    (f.setParent id p).Placed := by
  intro b c k hc hk
  rw [content?_setParent] at hc
  rw [children, children?_setParent, ← children] at hk
  obtain ⟨kind, hkind, ha⟩ := hf b c k hc hk
  exact ⟨kind, by rwa [kind?, content?_setParent], ha⟩

/-- A node may get the children that it admits. -/
theorem Placed.setChildren (hf : f.Placed) {b : NodeId} {c : Content} (hc : f.content? b = some c)
    {cs : List NodeId} (hcs : ∀ k ∈ cs, ∃ kind, f.kind? k = some kind ∧ c.admits kind = true) :
    (f.setChildren b cs).Placed := by
  intro a c' k ha hk
  rw [children_of_content? ha] at hk
  rw [Forest.setChildren, content?_updateContent] at ha
  rw [Forest.setChildren, kind?_updateContent fun c => c.kind_withChildren cs]
  split at ha
  · next he =>
    rw [he, hc] at ha
    cases ha
    rw [Content.admits_withChildren]
    refine hcs k ?_
    cases hold : c.children? with
    | none => cases c <;> simp_all [Content.withChildren, Content.children?]
    | some old => rwa [children?_withChildren hold] at hk
  · exact hf a c' k ha (by rwa [children_of_content? ha])

theorem Placed.updateDeclaration (hf : f.Placed) (id : NodeId)
    (update : Declaration → Declaration) : (f.updateDeclaration id update).Placed := by
  intro b c k hb hk
  rw [children_of_content? hb] at hk
  rw [Forest.updateDeclaration, content?_updateContent] at hb
  rw [Forest.updateDeclaration, kind?_updateContent fun c => by cases c <;> rfl]
  split at hb
  · obtain ⟨c₀, hc₀, rfl⟩ := Option.map_eq_some_iff.mp hb
    cases c₀ with
    | declaration d => cases hk
    | _ => exact hf b _ k hc₀ (by rwa [children_of_content? hc₀])
  · exact hf b c k hb (by rwa [children_of_content? hb])

/-! ## 2. Planting -/

/-- Planting the node keeps forests placed and puts a node of one of some kinds there. -/
def PlantsAs (fits : NodeKind → Bool) (n : Node) : Prop :=
  ∀ (f : Forest) (parent : Option NodeId), f.Sound → f.Placed →
    (∀ b, parent = some b → b < f.fresh) →
    (f.plant parent n).2.Placed ∧
      ∃ kind, (f.plant parent n).2.kind? f.fresh = some kind ∧ fits kind = true

/-- Nodes that fit in a place are planted there one after the other, and each keeps the kind that the
others were planted beside. -/
theorem placed_plantAll {fits : NodeKind → Bool} : ∀ {ns : List Node},
    (∀ n ∈ ns, PlantsAs fits n) → ∀ {f : Forest} {parent : NodeId}, f.Sound → f.Placed →
      parent < f.fresh → (f.plantAll parent ns).2.Placed ∧
        ∀ k ∈ (f.plantAll parent ns).1,
          ∃ kind, (f.plantAll parent ns).2.kind? k = some kind ∧ fits kind = true
  | [], _, _, _, _, hf, _ => ⟨hf, fun _ hk => absurd hk List.not_mem_nil⟩
  | n :: ns, h, f, parent, hs, hf, hp => by
    rw [List.forall_mem_cons] at h
    have hlink : ∀ b, some parent = some b → b < f.fresh := fun b hb => Option.some.inj hb ▸ hp
    obtain ⟨hid, hfirst⟩ := planted_plant hs (some parent) hlink n
    obtain ⟨hplaced, kind, hkind, hfits⟩ := h.1 f (some parent) hs hf hlink
    have hp' := Nat.lt_trans hp hfirst.grows
    have hothers := planted_plantAll hfirst.sound parent hp' ns
    obtain ⟨hall, hkinds⟩ := placed_plantAll h.2 hfirst.sound hplaced hp'
    rw [plantAll]
    refine ⟨hall, fun k hk => ?_⟩
    rcases List.mem_cons.mp hk with rfl | hk
    · refine ⟨kind, ?_, hfits⟩
      rw [hid, kind?_congr (hothers.frame _ hfirst.grows), hkind]
    · exact hkinds k hk

/-- A block is planted by a node without children, which then gets the planted ones. -/
theorem placed_block (content : Content) (hc : content.children? = some []) {ns : List Node}
    (hns : ∀ n ∈ ns, PlantsAs content.admits n) {parent : Option NodeId} (hs : f.Sound)
    (hf : f.Placed) (hp : ∀ b, parent = some b → b < f.fresh) :
    let planted := (f.push ⟨content, parent⟩).plantAll f.fresh ns
    (planted.2.setChildren f.fresh planted.1).Placed ∧
      (planted.2.setChildren f.fresh planted.1).kind? f.fresh = some content.kind := by
  have hpush : (f.push ⟨content, parent⟩).Sound :=
    hs.push content parent (fun cs h => Option.some.inj (h.symm.trans hc)) hp
  have hlt : f.fresh < (f.push ⟨content, parent⟩).fresh := by
    rw [fresh_push]
    exact Nat.lt_succ_self _
  have hcell := (planted_plantAll hpush f.fresh hlt ns).frame _ hlt
  rw [cell?_push, if_pos rfl] at hcell
  obtain ⟨hall, hkinds⟩ := placed_plantAll hns hpush (hf.push parent (by rw [hc]; rfl)) hlt
  refine ⟨hall.setChildren (content?_of_cell? hcell) hkinds, ?_⟩
  rw [Forest.setChildren, kind?_updateContent fun c => c.kind_withChildren _, kind?,
    content?_of_cell? hcell]
  rfl

theorem plantsAs_of_inBody {n : Node} (h : n.InBody) : PlantsAs NodeKind.inBody n := by
  intro f parent hs hf hp
  cases h with
  | declaration name value important => exact ⟨hf.push parent rfl, _, kind?_push f _, rfl⟩
  | raw text => exact ⟨hf.push parent rfl, _, kind?_push f _, rfl⟩
  | comment text => exact ⟨hf.push parent rfl, _, kind?_push f _, rfl⟩

/-- A node that may stand among rules is planted as one, with all that is under it in its place. -/
theorem plantsAs_of_inRules {n : Node} (h : n.InRules) : PlantsAs NodeKind.inRules n := by
  induction h with
  | comment text => exact fun f parent _ hf _ => ⟨hf.push parent rfl, _, kind?_push f _, rfl⟩
  | atStatement name prelude nested =>
    exact fun f parent _ hf _ => ⟨hf.push parent rfl, _, kind?_push f _, rfl⟩
  | rule selector body =>
    intro f parent hs hf hp
    obtain ⟨hplaced, hkind⟩ := placed_block (.rule selector []) rfl
      (fun n hn => plantsAs_of_inBody (body n hn)) hs hf hp
    exact ⟨hplaced, _, hkind, rfl⟩
  | atRules name prelude rules ih =>
    intro f parent hs hf hp
    obtain ⟨hplaced, hkind⟩ := placed_block (.atBlock name prelude true []) rfl ih hs hf hp
    exact ⟨hplaced, _, hkind, rfl⟩
  | atBody name prelude body =>
    intro f parent hs hf hp
    obtain ⟨hplaced, hkind⟩ := placed_block (.atBlock name prelude false []) rfl
      (fun n hn => plantsAs_of_inBody (body n hn)) hs hf hp
    exact ⟨hplaced, _, hkind, rfl⟩

/-- A list of rules is planted so that every node stands where it may. -/
theorem placed_ofSheet {sheet : Sheet} (h : ∀ n ∈ sheet, n.InRules) : (ofSheet sheet).Placed := by
  have hempty : (Forest.mk #[]).Placed := by
    intro b c k hc
    cases hc
  have hroot : ∀ b, (none : Option NodeId) = some b → b < (Forest.mk #[]).fresh := by simp
  exact (placed_block (.sheet []) rfl (fun n hn => plantsAs_of_inRules (h n hn)) sound_nil hempty
    hroot).1

/-! ## 3. The edits that a pass is made of -/

/-- One edit of a forest by a pass: a declaration is put in front of another one in a body, taken out
of a body, or gets a value. A pass does nothing to a forest but such edits, however long it runs, so an
invariant has to be checked for these three. -/
inductive Edited (f : Forest) : Forest → Prop
  | inserted {block id : NodeId} {pre post : List NodeId} {d : Declaration} (body : f.IsBody block)
      (children : f.children? block = some (pre ++ id :: post))
      (declared : f.declaration? id = some d) (pair : String × String) :
      Edited f (f.insertOne block id pre post (d.replacedBy pair))
  | removed {block id : NodeId} {pre post : List NodeId} {d : Declaration} (body : f.IsBody block)
      (children : f.children? block = some (pre ++ id :: post))
      (declared : f.declaration? id = some d) :
      Edited f ((f.setChildren block (pre ++ post)).setParent id none)
  | revalued {id : NodeId} {d : Declaration} (declared : f.declaration? id = some d)
      (value : String) : Edited f (f.updateDeclaration id fun d => { d with value := value })

/-- A body admits what may stand in a body. -/
theorem admits_of_isBody {block : NodeId} (h : f.IsBody block) :
    ∃ c, f.content? block = some c ∧ c.admits = NodeKind.inBody := by
  obtain ⟨isRule, hr⟩ := h
  rw [role] at hr
  cases hc : f.content? block with
  | none => rw [hc] at hr; cases hr
  | some c =>
    rw [hc] at hr
    refine ⟨c, rfl, ?_⟩
    cases c with
    | rule => rfl
    | atBlock name prelude nested cs =>
      cases nested with
      | true => cases hr
      | false => rfl
    | _ => cases hr

/-- An edit keeps every node where it may stand. -/
theorem Placed.edited (hf : f.Placed) (h : f.Edited g) : g.Placed := by
  cases h with
  | @inserted block id pre post d hbody hcs hd pair =>
    obtain ⟨c, hc, hadmits⟩ := admits_of_isBody hbody
    have hb := lt_fresh_of_children? hcs
    have hpush : (f.push ⟨.declaration (d.replacedBy pair), none⟩).Placed := hf.push none rfl
    have hpushed := hpush.setParent f.fresh (some block)
    refine hpushed.setChildren (c := c) ?_ fun k hk => ?_
    · rw [content?_setParent, content?_push_of_lt hb, hc]
    · rw [kind?, content?_setParent, ← kind?]
      have hk' : k = f.fresh ∨ k ∈ f.children block := by
        rw [children, hcs]
        simp only [Option.getD_some, List.mem_append, List.mem_cons] at hk ⊢
        tauto
      rcases hk' with rfl | hk'
      · exact ⟨_, kind?_push f _, by rw [hadmits]; rfl⟩
      · obtain ⟨kind, hkind, ha⟩ := hf block c k hc hk'
        exact ⟨kind, kind?_push_of_kind? hkind _, ha⟩
  | @removed block id pre post d hbody hcs hd =>
    obtain ⟨c, hc, -⟩ := admits_of_isBody hbody
    refine (hf.setChildren hc fun k hk => hf block c k hc ?_).setParent id none
    rw [children, hcs]
    simp only [Option.getD_some, List.mem_append, List.mem_cons] at hk ⊢
    tauto
  | revalued hd value => exact hf.updateDeclaration _ _

theorem isSheet_iff : f.IsSheet ↔ ∃ cs, f.content? root = some (.sheet cs) :=
  exists_congr fun _ => role_eq_sheet

/-- An edit leaves the root alone. -/
theorem Edited.isSheet (h : f.Edited g) (hf : f.IsSheet) : g.IsSheet := by
  obtain ⟨cs, hroot⟩ := isSheet_iff.mp hf
  have hne : ∀ {block}, f.IsBody block → root ≠ block := by
    rintro _ ⟨isRule, hr⟩ rfl
    rw [role, hroot] at hr
    cases hr
  refine isSheet_iff.mpr ⟨cs, ?_⟩
  rw [← hroot]
  cases h with
  | inserted hbody hcs hd pair =>
    refine content?_congr ?_
    obtain ⟨cell, hcell, -⟩ := Option.map_eq_some_iff.mp hroot
    rw [cell?_insertOne (lt_fresh_of_children? hcs), if_neg (hne hbody),
      if_neg (Nat.ne_of_lt (lt_fresh_of_cell? hcell))]
  | removed hbody hcs hd =>
    rw [content?_setParent, Forest.setChildren, content?_updateContent, if_neg (hne hbody)]
  | revalued hd value =>
    rw [Forest.updateDeclaration, content?_updateContent]
    split
    · rw [hroot]
      rfl
    · rfl

/-! ## 4. From replacements to edits -/

section

variable {block id : NodeId} {pre post : List NodeId} {d : Declaration} {ds : List Declaration}

theorem Inserted.isBody (h : Inserted f g block id pre post ds) (hbody : f.IsBody block) :
    g.IsBody block := by
  obtain ⟨isRule, hr⟩ := hbody
  refine ⟨isRule, ?_⟩
  rw [role, content?_eq] at hr
  rw [role, content?_eq, h.cell, if_pos rfl]
  cases hc : f.cell? block with
  | none => rw [hc] at hr; cases hr
  | some c =>
    rw [hc] at hr
    exact role_withChildren hr _

theorem Inserted.children? (h : Inserted f g block id pre post ds)
    (hcs : f.children? block = some (pre ++ id :: post)) :
    g.children? block = some ((pre ++ f.nextIds ds.length) ++ id :: post) := by
  obtain ⟨c, hc, hcs⟩ := exists_cell?_of_children? hcs
  rw [Forest.children?, content?_eq, h.cell, if_pos rfl, hc]
  exact children?_withChildren hcs

theorem Inserted.declaration? (h : Inserted f g block id pre post ds) (hne : id ≠ block)
    (hd : f.declaration? id = some d) : g.declaration? id = some d := by
  rw [← hd]
  exact declaration?_congr (by rw [h.cell, if_neg hne, if_pos (lt_fresh_of_declaration? hd)])

/-- A splice determines what comes out. -/
theorem Spliced.unique {g' : Forest} (h : Spliced f g block id pre post ds)
    (h' : Spliced f g' block id pre post ds) : g = g' :=
  ext_cell? fun k => (h.cell k).trans (h'.cell k).symm

/-- The copies of a declaration can be inserted one at a time. -/
theorem exists_edits_inserted (post : List NodeId) (hne : id ≠ block) :
    ∀ (pairs : List (String × String)) {f : Forest} {pre : List NodeId}, f.IsBody block →
      f.children? block = some (pre ++ id :: post) → f.declaration? id = some d →
      ∃ g, Inserted f g block id pre post (pairs.map d.replacedBy) ∧
        Relation.ReflTransGen Edited f g
  | [], f, _, _, hcs, _ => ⟨f, inserted_nil hcs, .refl⟩
  | pair :: pairs, f, pre, hbody, hcs, hd => by
    have hb := lt_fresh_of_children? hcs
    have hcs₁ : (f.insertOne block id pre post (d.replacedBy pair)).children? block =
        some ((pre ++ [f.fresh]) ++ id :: post) := by
      rw [children?_insertOne hcs, List.append_assoc]
      rfl
    have hone : Inserted f (f.insertOne block id pre post (d.replacedBy pair)) block id pre post
        [d.replacedBy pair] := (inserted_nil hcs₁).cons hb
    obtain ⟨g, hins, hedits⟩ := exists_edits_inserted post hne pairs (hone.isBody hbody) hcs₁
      (hone.declaration? hne hd)
    exact ⟨g, hins.cons hb, hedits.head (.inserted hbody hcs hd pair)⟩

end

/-- The replacement of a declaration is made of edits. -/
theorem Replacement.edits {may : Declaration → List (String × String) → Prop}
    (h : Replacement may f g) : Relation.ReflTransGen Edited f g := by
  cases h with
  | @splice block id pre post d pairs hbody hcs hd _ hs =>
    have hne := Edit.ne_block hd hcs
    obtain ⟨f', hins, hedits⟩ := exists_edits_inserted post hne pairs hbody hcs hd
    have hspliced := Edit.spliced_of_inserted hne (lt_fresh_of_declaration? hd) hins
    rw [hs.unique hspliced]
    exact hedits.tail (.removed (hins.isBody hbody) (hins.children? hcs) (hins.declaration? hne hd))
  | @revalue block id cs d value _ _ _ hd _ hr =>
    have hsame : g = f.updateDeclaration id fun d => { d with value := value } :=
      ext_cell? fun k => (hr.cell k).trans ((Edit.revalued_updateDeclaration f id value).cell k).symm
    exact hsame ▸ .single (.revalued hd value)

theorem Replacements.edits {may : Declaration → List (String × String) → Prop}
    (h : Replacements may f g) : Relation.ReflTransGen Edited f g := by
  induction h with
  | refl => exact .refl
  | tail _ hs ih => exact ih.trans hs.edits

end Forest

end CssExpand
