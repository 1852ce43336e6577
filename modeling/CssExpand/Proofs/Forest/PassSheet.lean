import CssExpand.Proofs.Forest.PassRun
import CssExpand.Proofs.Pass

/-!
# A run shows the pass on trees

A pass changes a tree (`Pass.apply`), and a run of the same pass changes a forest in place. Seen as
a stylesheet, the forest after the run is the stylesheet before it with the pass applied
(`sheet_of_swept`), the run replaces as many declarations as the pass counts, and it refuses what
the pass refuses (`ends_runPass_sheet`).

The induction follows the walk. At each node it needs that no run touches what the walk passes over:
such a node is apart from every body that was rewritten, so the tree below it is the same in both
forests (`nodeWithin_of_apart`).
-/

set_option autoImplicit false

namespace CssExpand

namespace Forest

variable {f g : Forest} {q : Declaration → Option (List (String × String))} {bs : List NodeId}

instance : Std.Symm f.Apart := ⟨fun _ _ h => ⟨h.2, h.1⟩⟩

theorem siblings (hf : f.Sound) (b : NodeId) : (f.children b).Pairwise f.Apart := by
  rw [children]
  cases hc : f.children? b with
  | none => exact .nil
  | some cs => exact apart_children hf hc

/-! ## 1. What is apart from the bodies -/

/-- A run leaves alone all that is below a node apart from all bodies. -/
theorem Swept.cell?_of_apart (hf : f.Sound) (h : Swept q f g bs) {x : NodeId}
    (ha : ∀ b ∈ bs, f.Apart x b) {k : NodeId} (hk : k < f.fresh) (hu : f.Under x k) :
    g.cell? k = f.cell? k := by
  refine h.frame k hk (fun hm => (ha k hm).1 hu) fun b hb hm => ?_
  exact (hu.linear (under_children hf hm)).elim (ha b hb).1 (ha b hb).2

/-- A run shows the same tree below a node that is apart from all bodies. -/
theorem nodeWithin_of_apart (hf : f.Sound) (h : Swept q f g bs) {x : NodeId} (hx : x < f.fresh)
    (ha : ∀ b ∈ bs, f.Apart x b) (depth : Nat) :
    g.nodeWithin depth x = f.nodeWithin depth x := by
  refine nodeWithin_congr (P := fun k => k < f.fresh ∧ f.Under x k) ?_ ?_ depth ⟨hx, .self⟩
  · rintro k ⟨hk, hu⟩
    exact h.cell?_of_apart hf ha hk hu
  · rintro k cs c ⟨-, hu⟩ hcs hc
    exact ⟨hf.lt_fresh_of_mem hcs hc, hu.trans (.child (hf.linked hcs hc) .self)⟩

/-- A run shows the same tree below a child of a body whose own cell is the same. -/
theorem nodeWithin_of_child (hf : f.Sound) (h : Swept q f g bs) (hbs : bs.Pairwise f.Apart)
    {b x : NodeId} (hb : b ∈ bs) (hx : x ∈ f.children b) (hcell : g.cell? x = f.cell? x)
    (depth : Nat) : g.nodeWithin depth x = f.nodeWithin depth x := by
  have hbx : b < x := by
    cases hc : f.children? b with
    | none => simp [children, hc] at hx
    | some cs =>
      rw [children, hc] at hx
      exact hf.lt_of_mem hc hx
  refine nodeWithin_congr (P := fun k => k < f.fresh ∧ f.Under x k) ?_ ?_ depth
    ⟨lt_fresh_of_mem_children hf hx, .self⟩
  · rintro k ⟨hk, hu⟩
    by_cases hkx : k = x
    · rw [hkx, hcell]
    · have hbk : f.Under b k := (under_children hf hx).trans hu
      have heq : ∀ c ∈ bs, f.Under c k → c = b := by
        intro c hc hck
        by_contra hne
        have hap : f.Apart c b := hbs.forall hc hb hne
        exact (hck.linear hbk).elim hap.1 hap.2
      refine h.frame k hk (fun hm => ?_) fun c hc hm => ?_
      · exact Nat.not_lt_of_le (heq k hm .self ▸ hu.le hf) hbx
      · obtain rfl := heq c hc (under_children hf hm)
        exact ((siblings hf c).forall hx hm (Ne.symm hkx)).1 hu
  · rintro k cs c ⟨-, hu⟩ hcs hc
    exact ⟨hf.lt_fresh_of_mem hcs hc, hu.trans (.child (hf.linked hcs hc) .self)⟩

/-- A walk from some nodes reaches what a walk from one of them does. -/
theorem blocksWithin_mono {all : Bool} {depth : Nat} {ids : List NodeId} {id b : NodeId}
    (hid : id ∈ ids) (hb : b ∈ f.blocksWithin all depth [id]) :
    b ∈ f.blocksWithin all depth ids := by
  cases depth with
  | zero => simp [blocksWithin] at hb
  | succ depth =>
    rw [blocksWithin_succ, List.mem_flatMap] at hb ⊢
    obtain ⟨k, hk, hb⟩ := hb
    exact ⟨id, hid, List.mem_singleton.mp hk ▸ hb⟩

/-! ## 2. Bodies -/

/-- The nodes that are put in for a declaration, as trees. -/
theorem nodeWithin_news {block : NodeId} {d : Declaration} (depth : Nat) :
    ∀ {news : List NodeId} {pairs : List (String × String)},
      news.map g.cell? = pairs.map (fun p => some ⟨.declaration (d.replacedBy p), some block⟩) →
      news.filterMap (g.nodeWithin (depth + 1)) =
        (pairs.map d.replacedBy).map Node.declaration
  | [], [], _ => rfl
  | k :: news, p :: pairs, h => by
    rw [List.map_cons, List.map_cons, List.cons.injEq] at h
    have hk : g.nodeWithin (depth + 1) k = some (.declaration (d.replacedBy p)) := by
      rw [nodeWithin, content?_of_cell? h.1]
    rw [List.filterMap_cons_some hk, nodeWithin_news depth h.2]
    rfl
  | [], _ :: _, h => by cases h
  | _ :: _, [], h => by cases h

theorem nodeWithin_of_declaration? {id : NodeId} {d : Declaration}
    (h : f.declaration? id = some d) (depth : Nat) :
    f.nodeWithin (depth + 1) id = some (.declaration d) := by
  obtain ⟨c, hc, hd⟩ := exists_cell?_of_declaration? h
  rw [nodeWithin, content?_of_cell? hc, hd]

theorem declaration?_of_nodeWithin {id : NodeId} {d : Declaration} :
    ∀ {depth : Nat}, f.nodeWithin depth id = some (.declaration d) → f.declaration? id = some d
  | depth + 1, h => by
    rw [nodeWithin] at h
    rw [declaration?]
    split at h <;> simp_all [Content.declaration?]

/-- A rewritten list of children shows the old trees rewritten. -/
theorem Rewrites.filterMap_nodeWithin {block : NodeId} {cs cs' : List NodeId}
    (h : Rewrites q f g block cs cs') (depth : Nat)
    (hkept : ∀ x ∈ cs, g.cell? x = f.cell? x →
      g.nodeWithin (depth + 1) x = f.nodeWithin (depth + 1) x) :
    cs'.filterMap (g.nodeWithin (depth + 1)) =
      (cs.filterMap (f.nodeWithin (depth + 1))).flatMap (Node.rewrite q) := by
  induction h with
  | nil => rfl
  | @cons id out cs cs' first others ih =>
    rw [List.forall_mem_cons] at hkept
    rw [List.filterMap_append, ih hkept.2]
    cases first with
    | kept hu hs =>
      have hsame := hkept.1 hs
      cases hn : f.nodeWithin (depth + 1) id with
      | none => simp [hsame, hn]
      | some n =>
        have hrw : n.rewrite q = [n] := by
          cases n with
          | declaration d =>
            rw [Node.rewrite, Declaration.rewrite_none (hu d (declaration?_of_nodeWithin hn))]
            rfl
          | _ => rfl
        simp [hsame, hn, hrw]
    | replaced hd hp _ _ _ hn =>
      rw [List.filterMap_cons_some (nodeWithin_of_declaration? hd depth), nodeWithin_news depth hn,
        List.flatMap_cons, Node.rewrite, Declaration.rewrite_some hp]
    | revalued hd hp hc =>
      rw [List.filterMap_cons_some (nodeWithin_of_declaration? hd depth), List.flatMap_cons,
        List.filterMap_cons_some (nodeWithin_of_declaration? (declaration?_revalued hd hc) depth),
        Node.rewrite, Declaration.rewrite_some hp]
      rfl

/-- A rewritten body shows the old nodes rewritten. -/
theorem Swept.body (hf : f.Sound) (h : Swept q f g bs) (hbs : bs.Pairwise f.Apart) {b : NodeId}
    (hb : b ∈ bs) {cs' : List NodeId} (hr : Rewrites q f g b (f.children b) cs') :
    ∀ depth, cs'.filterMap (g.nodeWithin depth) =
      ((f.children b).filterMap (f.nodeWithin depth)).flatMap (Node.rewrite q)
  | 0 => by
    have hnone : ∀ (f : Forest) (cs : List NodeId), cs.filterMap (f.nodeWithin 0) = [] := by
      intro f cs
      rw [List.filterMap_eq_nil_iff]
      exact fun _ _ => rfl
    rw [hnone, hnone]
    rfl
  | depth + 1 => hr.filterMap_nodeWithin depth fun _ hx hc =>
      nodeWithin_of_child hf h hbs hb hx hc (depth + 1)

/-! ## 3. The whole tree -/

variable {p : Pass} {reached : List NodeId}

/-- The bodies that a run of a pass rewrote, among those that any walk reaches. -/
structure Reaches (p : Pass) (f : Forest) (bs reached : List NodeId) : Prop where
  apart : reached.Pairwise f.Apart
  reached : ∀ b ∈ bs, b ∈ reached
  nodup : bs.Pairwise f.Apart
  role : ∀ b ∈ bs, ∃ isRule, f.role b = .body isRule ∧ (isRule || walksAll p) = true

theorem Reaches.not_mem (h : Reaches p f bs reached) {id : NodeId}
    (hr : ∀ isRule, f.role id = .body isRule → (isRule || walksAll p) = false) : id ∉ bs := by
  intro hm
  obtain ⟨isRule, hrole, hw⟩ := h.role id hm
  rw [hr isRule hrole] at hw
  cases hw

/-- What a run of a pass makes of a body that it goes to. -/
theorem body_of_swept (hind : Stage.Independent p.stages) (hf : f.Sound)
    (hs : Swept (Stage.decided? p.stages) f g bs) (hbs : bs.Pairwise f.Apart) {id : NodeId}
    (hid : id ∈ bs) {c : Content} {cs : List NodeId} (hc : f.content? id = some c)
    (hcs : c.children? = some cs) :
    ∃ cs', g.content? id = some (c.withChildren cs') ∧ ∀ depth,
      cs'.filterMap (g.nodeWithin depth) = p.applyBody (cs.filterMap (f.nodeWithin depth)) := by
  obtain ⟨cs', hr, hcell⟩ := hs.bodies id hid
  have hchildren : f.children id = cs := by rw [children, children?_of_content? hc, hcs]; rfl
  refine ⟨cs', ?_, fun depth => ?_⟩
  · rw [content?_eq] at hc ⊢
    rw [hcell, Option.map_map]
    obtain ⟨cell, hcell', rfl⟩ := Option.map_eq_some_iff.mp hc
    rw [hcell']
    rfl
  · rw [hs.body hf hbs hid hr depth, hchildren, Pass.applyBody_eq hind]

/-- A node is a child of one node only, which its parent link names. -/
theorem Sound.eq_of_mem_children (hf : f.Sound) {id b k : NodeId} {cs : List NodeId}
    (hc : f.children? id = some cs) (hk : k ∈ cs) (hb : k ∈ f.children b) : b = id := by
  have hparent := hf.linked hc hk
  cases hcb : f.children? b with
  | none => simp [children, hcb] at hb
  | some ds =>
    rw [children, hcb] at hb
    exact Option.some.inj ((hf.linked hcb hb).symm.trans hparent)

/-- At every node the run shows what the pass makes of the tree there. The induction is on the depth of
the tree. A node under a walked one keeps its cell because no body among `bs` has it as a child, and a
block that is not walked keeps all that is under it because it is apart from the bodies that are. -/
theorem nodeWithin_of_swept (hind : Stage.Independent p.stages) (hf : f.Sound)
    (hs : Swept (Stage.decided? p.stages) f g bs) (hbs : Reaches p f bs reached) :
    ∀ (depth : Nat) {id : NodeId}, id < f.fresh → (∀ b ∈ bs, id ∉ f.children b) →
      (∀ b ∈ f.blocksWithin (walksAll p) depth [id], b ∈ bs) →
      (∀ b ∈ f.blocksWithin true depth [id], b ∈ reached) →
      g.nodeWithin depth id = (f.nodeWithin depth id).map p.applyNode
  | 0, _, _, _, _, _ => rfl
  | depth + 1, id, hlt, hfree, hwalk, hreach => by
    simp only [blocksWithin_succ, List.flatMap_singleton, blocksAt_of_role] at hwalk hreach
    -- a node that is no body keeps its cell
    have hsame : id ∉ bs → g.content? id = f.content? id := fun hm =>
      content?_congr (hs.frame id hlt hm hfree)
    cases hc : f.content? id with
    | none =>
      have hm : id ∉ bs := hbs.not_mem (by simp [role, hc])
      rw [nodeWithin, nodeWithin, hsame hm, hc]
      rfl
    | some c =>
      have hrole : f.role id = c.role := by rw [role, hc]; rfl
      rw [hrole] at hwalk hreach
      cases c with
      | rule selector cs =>
        obtain ⟨cs', hcs', hbody⟩ := body_of_swept hind hf hs hbs.nodup
          (hwalk id (by simp [Content.role])) hc rfl
        rw [nodeWithin, nodeWithin, hcs', hc]
        simp only [Content.withChildren, Option.map_some, Pass.applyNode, hbody]
      | atBlock name prelude nested cs =>
        cases nested with
        | true =>
          have hm : id ∉ bs := hbs.not_mem (by simp [hrole, Content.role])
          have hchild : ∀ k ∈ cs, g.nodeWithin depth k = (f.nodeWithin depth k).map p.applyNode := by
            intro k hk
            have hck : f.children? id = some cs := children?_of_content? hc
            refine nodeWithin_of_swept hind hf hs hbs depth (hf.lt_fresh_of_mem hck hk) ?_ ?_ ?_
            · exact fun b hb hkb => hm (hf.eq_of_mem_children hck hk hkb ▸ hb)
            · exact fun b hb => hwalk b (blocksWithin_mono hk hb)
            · exact fun b hb => hreach b (blocksWithin_mono hk hb)
          rw [nodeWithin, nodeWithin, hsame hm, hc]
          simp only [Option.map_some, Pass.applyNode, Pass.applyNodes_eq, List.map_filterMap]
          rw [List.filterMap_congr hchild]
        | false =>
          by_cases hall : walksAll p = true
          · obtain ⟨cs', hcs', hbody⟩ := body_of_swept hind hf hs hbs.nodup
              (hwalk id (by simp [Content.role, hall])) hc rfl
            rw [walksAll, decide_eq_true_eq] at hall
            rw [nodeWithin, nodeWithin, hcs', hc]
            simp only [Content.withChildren, Option.map_some, Pass.applyNode, hbody, hall, if_true]
          · have hm : id ∉ bs := hbs.not_mem (by simp [hrole, Content.role, hall])
            have hid : id ∈ reached := hreach id (by simp [Content.role])
            have hap : ∀ b ∈ bs, f.Apart id b := fun b hb =>
              hbs.apart.forall hid (hbs.reached b hb) fun he => hm (he ▸ hb)
            rw [nodeWithin_of_apart hf hs hlt hap, nodeWithin, hc]
            rw [walksAll, decide_eq_true_eq] at hall
            simp only [Option.map_some, Pass.applyNode, if_neg hall]
      | _ =>
        have hm : id ∉ bs := hbs.not_mem (by simp [hrole, Content.role])
        rw [nodeWithin, nodeWithin, hsame hm, hc]
        rfl

/-! ## 4. The stylesheet -/

/-- The root of the forest is a stylesheet. -/
def IsSheet (f : Forest) : Prop := ∃ cs, f.role root = .sheet cs

theorem isSheet_ofSheet (sheet : Sheet) : (ofSheet sheet).IsSheet := by
  obtain ⟨ids, g, hf, h⟩ := plantedAll_sheet sheet
  have hroot : g.cell? root = some ⟨.sheet [], none⟩ := h.frame root Nat.zero_lt_one
  refine ⟨ids, ?_⟩
  rw [hf, role, content?_eq, cell?_setChildren, if_pos rfl, hroot]
  rfl

theorem Replacements.isSheet {may : Declaration → List (String × String) → Prop}
    (h : Replacements may f g) (hf : f.IsSheet) : g.IsSheet := by
  obtain ⟨cs, hr⟩ := hf
  exact ⟨cs, (h.role_eq root).trans hr⟩

theorem children_root {cs : List NodeId} (h : f.role root = .sheet cs) : f.children root = cs := by
  rw [children, children?, role_eq_sheet.mp h]
  rfl

/-- Replacements leave the children of the stylesheet alone. -/
theorem Replacements.children_root {may : Declaration → List (String × String) → Prop}
    (h : Replacements may f g) (hf : f.IsSheet) : g.children root = f.children root := by
  obtain ⟨cs, hr⟩ := hf
  rw [Forest.children_root hr, Forest.children_root ((h.role_eq root).trans hr)]

theorem nodeWithin_of_le (hf : f.Sound) {depth depth' : Nat} {id : NodeId} (hle : depth ≤ depth')
    (hid : f.fresh ≤ id + depth) : f.nodeWithin depth' id = f.nodeWithin depth id := by
  induction hle with
  | refl => rfl
  | step hle ih =>
    rw [nodeWithin_deeper hf _ _ (Nat.le_trans hid (Nat.add_le_add_left hle id)), ih]

theorem blocksWithin_of_le (hf : f.Sound) (all : Bool) {depth depth' : Nat} {ids : List NodeId}
    (hle : depth ≤ depth') (hids : ∀ id ∈ ids, f.fresh ≤ id + depth) :
    f.blocksWithin all depth' ids = f.blocksWithin all depth ids := by
  induction hle with
  | refl => rfl
  | step hle ih =>
    rw [blocksWithin_deeper hf all _ _ fun id hid =>
      Nat.le_trans (hids id hid) (Nat.add_le_add_left hle id), ih]

/-- The walks after a run reach what the walks before it reach. -/
theorem Replacements.blocksWithin_root {may : Declaration → List (String × String) → Prop}
    (h : Replacements may f g) (hf : f.Sound) (hroot : f.IsSheet) (all : Bool) :
    g.blocksWithin all g.depth (g.children root) =
      f.blocksWithin all f.depth (f.children root) := by
  rw [h.children_root hroot, blocksWithin_of_role h.role_eq]
  exact blocksWithin_of_le hf all h.grows fun id _ => Nat.le_add_left _ id

/-- A walk through everything reaches what any walk reaches. -/
theorem blocksWithin_all {all : Bool} {b : NodeId} : ∀ {depth : Nat} {ids : List NodeId},
    b ∈ f.blocksWithin all depth ids → b ∈ f.blocksWithin true depth ids
  | 0, _, h => by simp [blocksWithin] at h
  | depth + 1, ids, h => by
    rw [blocksWithin_succ, List.mem_flatMap] at h ⊢
    obtain ⟨id, hid, h⟩ := h
    refine ⟨id, hid, ?_⟩
    rw [blocksAt_of_role] at h ⊢
    split at h
    · split at h
      · simpa using h
      · cases h
    · exact blocksWithin_all h
    · cases h

/-- A walk lists bodies only, and those that are no rules only if it is told to walk all. -/
theorem role_of_mem_blocksWithin {all : Bool} {b : NodeId} : ∀ {depth : Nat} {ids : List NodeId},
    b ∈ f.blocksWithin all depth ids →
      ∃ isRule, f.role b = .body isRule ∧ (isRule || all) = true
  | 0, _, h => by simp [blocksWithin] at h
  | depth + 1, ids, h => by
    rw [blocksWithin_succ, List.mem_flatMap] at h
    obtain ⟨id, -, h⟩ := h
    rw [blocksAt_of_role] at h
    split at h
    · next isRule hr =>
      split at h
      · next hw =>
        rw [List.mem_singleton.mp h]
        exact ⟨isRule, hr, hw⟩
      · cases h
    · exact role_of_mem_blocksWithin h
    · cases h

theorem reaches_bodiesFor (hf : f.Sound) (p : Pass) :
    Reaches p f (f.bodiesFor p) (f.blocksWithin true f.depth (f.children root)) where
  apart := apart_blocksWithin hf (siblings hf root)
  reached _ hb := blocksWithin_all hb
  nodup := apart_blocksWithin hf (siblings hf root)
  role _ hb := role_of_mem_blocksWithin hb

/-- After a run the forest shows the stylesheet with the pass applied. -/
theorem sheet_of_swept (hind : Stage.Independent p.stages) (hf : f.Sound) (hroot : f.IsSheet)
    {may : Declaration → List (String × String) → Prop} (hr : Replacements may f g)
    (hs : Swept (Stage.decided? p.stages) f g (f.bodiesFor p)) : g.sheet = p.apply f.sheet := by
  have hdeep : ∀ id ∈ f.children root, f.fresh ≤ id + f.depth := fun id _ => Nat.le_add_left _ _
  have hle : f.depth ≤ g.depth := hr.grows
  rw [sheet, sheet, Pass.apply, Pass.applyNodes_eq, List.map_filterMap, hr.children_root hroot]
  refine List.filterMap_congr fun id hid => ?_
  rw [node?, node?, ← nodeWithin_of_le hf hle (hdeep id hid)]
  refine nodeWithin_of_swept hind hf hs (reaches_bodiesFor hf p) g.depth
    (lt_fresh_of_mem_children hf hid) (fun b hb hib => ?_) (fun b hb => ?_) fun b hb => ?_
  · -- the parent of `id` is the root, which is above every body
    obtain ⟨k, hk, hu⟩ := under_of_mem_blocksWithin hf hb
    have hlink : ∀ {a x : NodeId}, x ∈ f.children a → f.parent? x = some a := by
      intro a x hx
      cases hc : f.children? a with
      | none => simp [children, hc] at hx
      | some cs =>
        rw [children, hc] at hx
        exact hf.linked hc hx
    have hbr : b = root := Option.some.inj ((hlink hib).symm.trans (hlink hid))
    exact Nat.not_lt_of_le (hu.le hf) (hbr ▸ hf.older (hlink hk))
  · rw [bodiesFor, ← blocksWithin_of_le hf _ hle hdeep]
    exact blocksWithin_mono hid hb
  · rw [← blocksWithin_of_le hf _ hle hdeep]
    exact blocksWithin_mono hid hb

/-! ## 5. Counts and refusals -/

/-- The declarations among the trees of some nodes. -/
theorem declarations_filterMap {depth : Nat} {cs : List NodeId} (h : ∀ k ∈ cs, 0 < depth) :
    Node.declarations (cs.filterMap (f.nodeWithin depth)) = f.declarationsAmong cs := by
  rw [Node.declarations, List.filterMap_filterMap, declarationsAmong]
  refine List.filterMap_congr fun k hk => ?_
  obtain ⟨depth, rfl⟩ := Nat.exists_eq_succ_of_ne_zero (Nat.ne_of_gt (h k hk))
  rw [nodeWithin, declaration?]
  split <;> simp_all [Node.declaration?, Content.declaration?]

/-- The bodies of the trees are the bodies that a walk reaches. -/
theorem bodies_filterMap (hf : f.Sound) (p : Pass) : ∀ (depth : Nat) (ids : List NodeId),
    (∀ id ∈ ids, f.fresh ≤ id + depth) →
    (p.listBodies (ids.filterMap (f.nodeWithin depth))).map Node.declarations =
      (f.blocksWithin (walksAll p) depth ids).map f.declarationsIn
  | 0, ids, _ => by
    have hnone : ids.filterMap (f.nodeWithin 0) = [] := List.filterMap_eq_nil_iff.mpr fun _ _ => rfl
    rw [hnone]
    rfl
  | depth + 1, [], _ => rfl
  | depth + 1, id :: ids, hids => by
    rw [List.forall_mem_cons] at hids
    have ih := bodies_filterMap hf p (depth + 1) ids hids.2
    have hfirst : (((f.nodeWithin (depth + 1) id).elim [] p.bodies)).map Node.declarations =
        (f.blocksAt (walksAll p) depth id).map f.declarationsIn := by
      -- The depth is enough for the children: each is younger than its parent.
      have hbody : ∀ {c : Content} {cs}, f.content? id = some c → c.children? = some cs →
          Node.declarations (cs.filterMap (f.nodeWithin depth)) = f.declarationsIn id := by
        intro c cs hc hcs
        have hck : f.children? id = some cs := (children?_of_content? hc).trans hcs
        rw [declarations_filterMap fun k hk => ?_, declarationsIn, children, hck]
        · rfl
        · by_contra hzero
          rw [Nat.eq_zero_of_not_pos hzero] at hids
          exact Nat.not_le_of_lt (hf.lt_fresh_of_mem hck hk)
            (le_add_of_lt hids.1 (hf.lt_of_mem hck hk))
      rw [nodeWithin, blocksAt]
      cases hc : f.content? id with
      | none => rfl
      | some c =>
        cases c with
        | rule selector cs => simp [Pass.bodies, hbody hc rfl]
        | atBlock name prelude nested cs =>
          cases nested with
          | true =>
            have hck : f.children? id = some cs := children?_of_content? hc
            exact bodies_filterMap hf p depth cs fun k hk =>
              le_add_of_lt hids.1 (hf.lt_of_mem hck hk)
          | false =>
            simp only [Option.elim_some, Pass.bodies, walksAll]
            by_cases h : p.reach = .blocks <;> simp [h, hbody hc rfl]
        | _ => rfl
    rw [blocksWithin_succ, List.flatMap_cons, List.map_append, ← hfirst, ← blocksWithin_succ, ← ih,
      ← List.map_append, Pass.listBodies_eq, Pass.listBodies_eq]
    cases hn : f.nodeWithin (depth + 1) id with
    | none => rw [List.filterMap_cons_none hn]; rfl
    | some n => rw [List.filterMap_cons_some hn, List.flatMap_cons]; rfl

theorem bodies_sheet (hf : f.Sound) (p : Pass) :
    (p.listBodies f.sheet).map Node.declarations = (f.bodiesFor p).map f.declarationsIn :=
  bodies_filterMap hf p f.depth (f.children root) fun _ _ => Nat.le_add_left _ _

/-- The number of declarations that the pass replaces, body by body. -/
theorem count_sheet (hind : Stage.Independent p.stages) (hf : f.Sound) :
    p.count f.sheet = ((f.bodiesFor p).flatMap f.declarationsIn).countP
      fun d => (Stage.decided? p.stages d).isSome := by
  rw [Pass.count_eq hind, List.flatMap_def, bodies_sheet hf, ← List.flatMap_def]

/-- What the pass refuses, body by body. -/
theorem check_sheet (hf : f.Sound) (p : Pass) :
    p.check f.sheet =
      (f.bodiesFor p).forM fun b => Stage.checkAll p.stages (f.declarationsIn b) := by
  rw [Pass.check_eq, ← forM_map, bodies_sheet hf, forM_map]

end Forest

/-- A run of a pass whose stages are independent shows the pass on the stylesheet, and refuses what
the pass refuses. -/
theorem Edit.ends_runPass_sheet {p : Pass} (hind : Stage.Independent p.stages) {f : Forest}
    (hf : f.Sound) (hroot : f.IsSheet) :
    (runPass p).Ends f
      (fun n g => (g.Sound ∧ g.IsSheet) ∧ n = p.count f.sheet ∧ p.check f.sheet = .ok () ∧
        g.sheet = p.apply f.sheet)
      (fun e _ => ∃ cause, e = .overlong cause ∧ p.check f.sheet = .error cause) := by
  rw [Forest.check_sheet hf]
  refine (ends_runPass hind hf).mono ?_ fun e g h => h.1
  rintro n g ⟨hr, hn, hc, hs⟩
  exact ⟨⟨hr.sound hf, hr.isSheet hroot⟩, hn.trans (Forest.count_sheet hind hf).symm, hc,
    Forest.sheet_of_swept hind hf hroot hr hs⟩

end CssExpand
