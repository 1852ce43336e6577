import CssExpand.Proofs.Forest.Cells
import Mathlib.Data.List.Nodup
import Mathlib.Data.List.Pairwise

/-!
# Sound forests

A forest that came from a stylesheet keeps its links in order: no child list names a node twice, a
child is linked to the block that lists it, and a parent is older than its children (`Sound`). The
last point is what makes walks by depth total: ids grow on the way down, so a walk that is as
deep as there are ids left sees everything, and a deeper one sees the same.

The other use of the invariant is that subtrees do not overlap. `Under f a x` follows parent links
from `x` up to `a`. Links form chains, so of two nodes above a third one is above the other, and two
children of one block have nothing below them in common (`apart_children`). The bodies that a walk
reaches are therefore pairwise apart (`apart_blocksWithin`): none is met twice, and none stands
inside another.
-/

set_option autoImplicit false

namespace CssExpand

namespace Forest

/-- Child lists and parent links agree, and parents are older than their children. That parents are
older makes every walk down a forest end, and it is what editing by hand destroys. -/
structure Sound (f : Forest) : Prop where
  nodup : ∀ {b cs}, f.children? b = some cs → cs.Nodup
  linked : ∀ {b cs k}, f.children? b = some cs → k ∈ cs → f.parent? k = some b
  older : ∀ {k b}, f.parent? k = some b → b < k

namespace Sound

variable {f : Forest}

theorem lt_of_mem (h : f.Sound) {b k : NodeId} {cs : List NodeId} (hb : f.children? b = some cs)
    (hk : k ∈ cs) : b < k :=
  h.older (h.linked hb hk)

theorem lt_fresh_of_mem (h : f.Sound) {b k : NodeId} {cs : List NodeId}
    (hb : f.children? b = some cs) (hk : k ∈ cs) : k < f.fresh :=
  lt_fresh_of_parent? (h.linked hb hk)

end Sound

/-! ## 1. Above and below -/

/-- The node `a` is `x` or stands above it. -/
inductive Under (f : Forest) (a : NodeId) : NodeId → Prop
  | self : Under f a a
  | child {x b : NodeId} : f.parent? x = some b → Under f a b → Under f a x

/-- Two nodes with nothing in common below them. -/
def Apart (f : Forest) (a b : NodeId) : Prop := ¬ f.Under a b ∧ ¬ f.Under b a

variable {f : Forest}

theorem Under.le (h : f.Sound) {a x : NodeId} (hu : f.Under a x) : a ≤ x := by
  induction hu with
  | self => exact Nat.le_refl a
  | child hp _ ih => exact Nat.le_trans ih (Nat.le_of_lt (h.older hp))

theorem Under.trans {a b c : NodeId} (hab : f.Under a b) (hbc : f.Under b c) : f.Under a c := by
  induction hbc with
  | self => exact hab
  | child hp _ ih => exact .child hp ih

/-- Parent links form chains: of two nodes above a third one is above the other. -/
theorem Under.linear {a b x : NodeId} (ha : f.Under a x) (hb : f.Under b x) :
    f.Under a b ∨ f.Under b a := by
  induction ha with
  | self => exact .inr hb
  | child hp ha ih =>
    cases hb with
    | self => exact .inl (.child hp ha)
    | child hq hb => exact ih (Option.some.inj (hp.symm.trans hq) ▸ hb)

/-- What is below two nodes apart is apart. -/
theorem Apart.below {a b x y : NodeId} (h : f.Apart a b) (ha : f.Under a x) (hb : f.Under b y) :
    f.Apart x y := by
  refine ⟨fun hxy => ?_, fun hyx => ?_⟩
  · exact (ha.trans hxy).linear hb |>.elim h.1 h.2
  · exact ha.linear (hb.trans hyx) |>.elim h.1 h.2

/-- The children of a block are pairwise apart. -/
theorem apart_children (h : f.Sound) {b : NodeId} {cs : List NodeId}
    (hb : f.children? b = some cs) : cs.Pairwise f.Apart := by
  have key : ∀ x ∈ cs, ∀ y ∈ cs, x ≠ y → ¬ f.Under x y := by
    intro x hx y hy hne hu
    cases hu with
    | self => exact hne rfl
    | child hp hu =>
      obtain rfl := Option.some.inj ((h.linked hb hy).symm.trans hp)
      exact Nat.not_lt_of_le (hu.le h) (h.lt_of_mem hb hx)
  exact (h.nodup hb).pairwise_of_forall_ne fun x hx y hy hne =>
    ⟨key x hx y hy hne, key y hy x hx hne.symm⟩

/-! ## 2. The bodies that a walk reaches -/

/-- The bodies that a walk reaches from one node. -/
def blocksAt (f : Forest) (all : Bool) (depth : Nat) (id : NodeId) : List NodeId :=
  match f.content? id with
  | some (.rule _ _) => [id]
  | some (.atBlock _ _ true cs) => f.blocksWithin all depth cs
  | some (.atBlock _ _ false _) => if all then [id] else []
  | _ => []

theorem blocksWithin_succ (f : Forest) (all : Bool) (depth : Nat) (ids : List NodeId) :
    f.blocksWithin all (depth + 1) ids = ids.flatMap (f.blocksAt all depth) := rfl

/-- Nodes are children of a block whose children the content names. -/
theorem children?_of_content? {id : NodeId} {c : Content} (h : f.content? id = some c) :
    f.children? id = c.children? := by
  rw [children?, h]
  rfl

/-- A walk stays below the nodes that it starts from. -/
theorem under_of_mem_blocksWithin (h : f.Sound) {all : Bool} {x : NodeId} :
    ∀ {depth : Nat} {ids : List NodeId}, x ∈ f.blocksWithin all depth ids →
      ∃ id ∈ ids, f.Under id x
  | 0, _, hx => by simp [blocksWithin] at hx
  | depth + 1, ids, hx => by
    rw [blocksWithin_succ, List.mem_flatMap] at hx
    obtain ⟨id, hid, hx⟩ := hx
    refine ⟨id, hid, ?_⟩
    rw [blocksAt] at hx
    split at hx
    · rw [List.mem_singleton.mp hx]
      exact .self
    · next name prelude cs hc =>
      obtain ⟨k, hk, hu⟩ := under_of_mem_blocksWithin h hx
      exact (Under.child (h.linked (children?_of_content? hc) hk) .self).trans hu
    · next hc =>
      split at hx
      · rw [List.mem_singleton.mp hx]
        exact .self
      · simp at hx
    · simp at hx

theorem under_of_mem_blocksAt (h : f.Sound) {all : Bool} {depth : Nat} {id x : NodeId}
    (hx : x ∈ f.blocksAt all depth id) : f.Under id x := by
  have hx' : x ∈ f.blocksWithin all (depth + 1) [id] := by simpa [blocksWithin_succ] using hx
  obtain ⟨k, hk, hu⟩ := under_of_mem_blocksWithin h hx'
  rwa [List.mem_singleton.mp hk] at hu

/-- The bodies that a walk reaches are pairwise apart if it starts from nodes that are. -/
theorem apart_blocksWithin (h : f.Sound) {all : Bool} :
    ∀ {depth : Nat} {ids : List NodeId}, ids.Pairwise f.Apart →
      (f.blocksWithin all depth ids).Pairwise f.Apart
  | 0, _, _ => List.Pairwise.nil
  | depth + 1, ids, hids => by
    rw [blocksWithin_succ, List.pairwise_flatMap]
    refine ⟨fun id _ => ?_, hids.imp fun hab x hx y hy => ?_⟩
    · rw [blocksAt]
      split
      · exact List.pairwise_singleton _ _
      · next hc => exact apart_blocksWithin h (apart_children h (children?_of_content? hc))
      · split
        · exact List.pairwise_singleton _ _
        · exact List.Pairwise.nil
      · exact List.Pairwise.nil
    · exact hab.below (under_of_mem_blocksAt h hx) (under_of_mem_blocksAt h hy)

/-! ## 3. How deep a walk has to go -/

/-- Beyond the ids that were given out there is nothing to walk. -/
theorem content?_eq_none {id : NodeId} (h : f.fresh ≤ id) : f.content? id = none := by
  rw [content?_eq, cell?_eq_none h]
  rfl

/-- One level of depth is worth at least one id. -/
theorem le_add_of_lt {n i k depth : Nat} (h : n ≤ i + (depth + 1)) (hk : i < k) : n ≤ k + depth := by
  omega

/-- Going deeper than there are ids left reaches no other bodies. -/
theorem blocksWithin_deeper (h : f.Sound) (all : Bool) :
    ∀ (depth : Nat) (ids : List NodeId), (∀ id ∈ ids, f.fresh ≤ id + depth) →
      f.blocksWithin all (depth + 1) ids = f.blocksWithin all depth ids
  | 0, ids, hids => by
    rw [blocksWithin_succ, blocksWithin, List.flatMap_eq_nil_iff]
    intro id hid
    have hn : f.content? id = none := content?_eq_none (hids id hid)
    rw [blocksAt, hn]
  | depth + 1, ids, hids => by
    rw [blocksWithin_succ, blocksWithin_succ]
    refine List.flatMap_congr fun id hid => ?_
    rw [blocksAt, blocksAt]
    split
    · rfl
    · next cs hc =>
      refine blocksWithin_deeper h all depth cs fun k hk => ?_
      exact le_add_of_lt (hids id hid) (h.lt_of_mem (children?_of_content? hc) hk)
    · rfl
    · rfl

/-- Going deeper than there are ids left shows the same tree. -/
theorem nodeWithin_deeper (h : f.Sound) :
    ∀ (depth : Nat) (id : NodeId), f.fresh ≤ id + depth →
      f.nodeWithin (depth + 1) id = f.nodeWithin depth id
  | 0, id, hid => by
    have hn : f.content? id = none := content?_eq_none hid
    rw [nodeWithin, nodeWithin, hn]
  | depth + 1, id, hid => by
    have below : ∀ {c : Content} {cs}, f.content? id = some c → c.children? = some cs →
        cs.filterMap (f.nodeWithin (depth + 1)) = cs.filterMap (f.nodeWithin depth) := by
      intro c cs hc hcs
      refine List.filterMap_congr fun k hk => nodeWithin_deeper h depth k ?_
      exact le_add_of_lt hid (h.lt_of_mem ((children?_of_content? hc).trans hcs) hk)
    rw [nodeWithin, nodeWithin]
    split <;> try rfl
    · next hc => rw [below hc rfl]
    · next hc => rw [below hc rfl]

end Forest

end CssExpand
