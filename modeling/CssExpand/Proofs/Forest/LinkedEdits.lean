import CssExpand.Forest.Pass
import CssExpand.Proofs.Forest.Linked
import CssExpand.Proofs.Forest.StageRun

/-!
# Edits keep a forest linked

One lemma for each edit, about every way in which it can end: a forest in which child lists and
parent links agree still is one (`Forest.Kept`), whether the edit succeeds or fails halfway. Only
the insertions ask for something, that the node is linked to nothing; the passes insert fresh copies
alone, so they ask for nothing.

The lemmas about looking say that it changes nothing and what was found. The lemmas about changing
are proved from them without opening an edit twice.
-/

set_option autoImplicit false

namespace CssExpand

namespace Forest

/-- The forest `g`, which came from `f`, is linked and has lost no node. -/
structure Kept (f g : Forest) : Prop where
  linked : g.Linked
  grows : f.fresh ≤ g.fresh

variable {f g h : Forest}

theorem Linked.kept (hf : f.Linked) : f.Kept f := ⟨hf, Nat.le_refl _⟩

theorem Kept.trans (hfg : f.Kept g) (hgh : g.Kept h) : f.Kept h :=
  ⟨hgh.linked, Nat.le_trans hfg.grows hgh.grows⟩

theorem Grown.kept {parent : Option NodeId} (h : Grown f parent g) : f.Kept g :=
  ⟨h.linked, Nat.le_of_lt h.grows⟩

end Forest

namespace Edit

open Forest

/-- However the edit ends on the forest, child lists and parent links still agree. -/
def Keeps {α : Type} (e : Edit α) (f : Forest) : Prop :=
  e.Ends f (fun _ g => f.Kept g) (fun _ g => f.Kept g)

variable {α β : Type} {f g : Forest}

/-- What keeps a forest keeps the one that it came from. -/
theorem Keeps.after {e : Edit α} (he : e.Keeps g) (hfg : f.Kept g) :
    e.Ends g (fun _ h => f.Kept h) (fun _ h => f.Kept h) :=
  he.mono (fun _ _ h => hfg.trans h) fun _ _ h => hfg.trans h

theorem Keeps.pure {a : α} (hf : f.Linked) : (Pure.pure a : Edit α).Keeps f :=
  Ends.pure hf.kept

/-- Two edits one after the other, the second of which keeps every linked forest. -/
theorem Keeps.bind {e : Edit α} {k : α → Edit β} (he : e.Keeps f)
    (hk : ∀ a g, g.Linked → (k a).Keeps g) : (e >>= k).Keeps f :=
  Ends.bind he fun a g hg => (hk a g hg.linked).after hg

/-- An edit after one that only looks. -/
theorem Ends.bindLook {e : Edit α} {k : α → Edit β} {found : α → Prop} {ok : β → Forest → Prop}
    {failed : EditError → Forest → Prop}
    (he : e.Ends f (fun a g => g = f ∧ found a) (fun _ g => g = f))
    (hfailed : ∀ cause, failed cause f) (hk : ∀ a, found a → (k a).Ends f ok failed) :
    (e >>= k).Ends f ok failed :=
  .bind (he.mono (fun _ _ h => h) fun cause _ h => h ▸ hfailed cause) fun a _ ⟨hg, ha⟩ =>
    hg ▸ hk a ha

theorem Keeps.forM {e : α → Edit Unit} (he : ∀ a g, g.Linked → (e a).Keeps g) :
    ∀ (as : List α) {f : Forest}, f.Linked → (as.forM e).Keeps f
  | [], _, hf => .pure hf
  | a :: as, f, hf => by
    change (e a >>= fun _ => as.forM e).Keeps f
    exact (he a f hf).bind fun _ _ hg => Keeps.forM he as hg

/-! ## 1. Looking -/

theorem ends_requireKind (f : Forest) (fits : NodeKind → Bool) (id : NodeId) :
    (requireKind fits id).Ends f (fun _ g => g = f ∧ True) (fun _ g => g = f) := by
  rw [requireKind]
  refine .bind_ok rfl ?_
  split
  · split
    · exact .pure ⟨rfl, trivial⟩
    · exact .of_error rfl rfl
  · exact .of_error rfl rfl

theorem ends_childrenOf (f : Forest) (block : NodeId) :
    (childrenOf block).Ends f (fun cs g => g = f ∧ f.children? block = some cs)
      (fun _ g => g = f) := by
  rw [childrenOf]
  refine .bind_ok rfl ?_
  split
  · next hcs => exact .pure ⟨rfl, hcs⟩
  · exact .of_error rfl rfl

/-- A place is given out only if the child stands there. -/
theorem ends_indexOf (f : Forest) (block child : NodeId) :
    (indexOf block child).Ends f
      (fun i g => g = f ∧ ∃ pre post, f.children? block = some (pre ++ child :: post) ∧
        child ∉ pre ∧ i = pre.length)
      (fun _ g => g = f) := by
  rw [indexOf]
  refine .bindLook (ends_childrenOf f block) (fun _ => rfl) fun cs hcs => ?_
  cases hi : cs.idxOf? child with
  | none => exact .of_error rfl rfl
  | some i =>
    have hmem : child ∈ cs := by
      by_contra hn
      rw [List.idxOf?_eq_none_iff.mpr hn] at hi
      cases hi
    obtain ⟨pre, post, rfl, hpre⟩ := List.eq_append_cons_of_mem hmem
    rw [idxOf?_append_cons hpre, Option.some.injEq] at hi
    exact .pure ⟨rfl, pre, post, hcs, hpre, hi.symm⟩

theorem ends_declarationOf (f : Forest) (id : NodeId) :
    (declarationOf id).Ends f (fun d g => g = f ∧ f.declaration? id = some d)
      (fun _ g => g = f) := by
  rw [declarationOf]
  refine .bindLook (ends_requireKind f _ id) (fun _ => rfl) fun _ _ => ?_
  refine .bind_ok rfl ?_
  split
  · next hd => exact .pure ⟨rfl, hd⟩
  · exact .of_error rfl rfl

/-! ## 2. Making nodes -/

/-- A new node is linked to nothing. -/
theorem ends_make (hf : f.Linked) (n : Node) :
    (make n).Ends f
      (fun id g => f.Kept g ∧ id < g.fresh ∧ g.parent? id = none) (fun _ _ => False) := by
  obtain ⟨hid, hg⟩ := grown_plant hf none n
  refine .of_ok rfl ⟨hg.kept, ?_, ?_⟩
  · rw [hid]
    exact hg.grows
  · rw [hid]
    exact hg.link

theorem ends_clone (hf : f.Linked) (id : NodeId) (update : Declaration → Declaration) :
    (clone id update).Ends f (fun copy g => f.Kept g ∧ copy < g.fresh ∧ g.parent? copy = none)
      (fun _ g => f.Kept g) := by
  rw [clone]
  refine .bindLook (ends_declarationOf f id) (fun _ => hf.kept) fun d _ => ?_
  exact (ends_make hf _).mono (fun _ _ h => h) fun _ _ h => h.elim

/-! ## 3. Inserting and removing -/

/-- A node that is linked to nothing may go to any place of any block. -/
theorem kept_insert (hf : f.Linked) {block node : NodeId} (hn : node < f.fresh)
    (hp : f.parent? node = none) {pre post : List NodeId}
    (hb : f.children? block = some (pre ++ post)) :
    f.Kept ((f.setParent node (some block)).setChildren block (pre ++ node :: post)) := by
  have hunlisted : f.Unlisted node := hf.unlisted hp
  have hmem : node ∉ pre ++ post := hunlisted hb
  refine ⟨(hf.setParent hunlisted _).setChildren ?_ fun k hk => ?_, ?_⟩
  · exact List.nodup_middle.mpr (List.nodup_cons.mpr ⟨hmem, hf.nodup hb⟩)
  · rw [List.perm_middle.mem_iff, List.mem_cons] at hk
    rcases hk with rfl | hk
    · exact parent?_setParent_self hn
    · rw [parent?_setParent_ne (fun he : k = node => hmem (he ▸ hk)), hf.linked hb hk]
  · exact Nat.le_of_eq (by simp)

theorem kept_setParent (hf : f.Linked) {node : NodeId} (hp : f.parent? node = none)
    (p : Option NodeId) : f.Kept (f.setParent node p) :=
  ⟨hf.setParent (hf.unlisted hp) p, Nat.le_of_eq (fresh_setParent f node p).symm⟩

/-- What a block loses may be linked to nothing. -/
theorem kept_remove (hf : f.Linked) {block child : NodeId} {pre post : List NodeId}
    (hb : f.children? block = some (pre ++ child :: post)) :
    f.Kept ((f.setChildren block (pre ++ post)).setParent child none) := by
  obtain ⟨hchild, hnodup⟩ := List.nodup_cons.mp (List.nodup_middle.mp (hf.nodup hb))
  have hset : (f.setChildren block (pre ++ post)).Linked :=
    hf.setChildren hnodup fun k hk => hf.linked hb (by
      rw [List.perm_middle.mem_iff]
      exact List.mem_cons_of_mem _ hk)
  refine ⟨hset.setParent ?_ none, Nat.le_of_eq (by simp)⟩
  intro b cs hcs hm
  rcases children?_of_setChildren hcs with ⟨-, rfl⟩ | ⟨hne, hcs⟩
  · exact hchild hm
  · have hlink := hf.linked hb (List.mem_append_right pre List.mem_cons_self)
    exact hne (Option.some.inj ((hf.linked hcs hm).symm.trans hlink))

theorem keeps_append (hf : f.Linked) {block node : NodeId} (hn : node < f.fresh)
    (hp : f.parent? node = none) : (append block node).Keeps f := by
  rw [append]
  refine .bindLook (ends_requireKind f _ block) (fun _ => hf.kept) fun _ _ => ?_
  refine .bind_ok rfl ?_
  have hset := kept_setParent hf hp (some block)
  refine .bind ((ends_childrenOf _ block).mono (fun _ _ h => h) fun _ _ h => h ▸ hset) ?_
  rintro cs g ⟨rfl, hcs⟩
  rw [children?_setParent] at hcs
  rw [← List.append_nil cs] at hcs
  exact .of_ok rfl (kept_insert hf hn hp hcs)

theorem keeps_insertBefore (hf : f.Linked) {block ref node : NodeId} (hn : node < f.fresh)
    (hp : f.parent? node = none) : (insertBefore block ref node).Keeps f := by
  rw [insertBefore]
  refine .bindLook (ends_requireKind f _ block) (fun _ => hf.kept) fun _ _ => ?_
  refine .bind_ok rfl ?_
  have hset := kept_setParent hf hp (some block)
  refine .bind ((ends_indexOf _ block ref).mono (fun _ _ h => h) fun _ _ h => h ▸ hset) ?_
  rintro i g ⟨rfl, pre, post, hcs, -, rfl⟩
  refine .bind_ok (run_childrenOf hcs) (.of_ok rfl ?_)
  rw [children?_setParent] at hcs
  rw [insertIdx_length]
  exact kept_insert hf hn hp hcs

theorem keeps_insertAfter (hf : f.Linked) {block ref node : NodeId} (hn : node < f.fresh)
    (hp : f.parent? node = none) : (insertAfter block ref node).Keeps f := by
  rw [insertAfter]
  refine .bindLook (ends_requireKind f _ block) (fun _ => hf.kept) fun _ _ => ?_
  refine .bind_ok rfl ?_
  have hset := kept_setParent hf hp (some block)
  refine .bind ((ends_indexOf _ block ref).mono (fun _ _ h => h) fun _ _ h => h ▸ hset) ?_
  rintro i g ⟨rfl, pre, post, hcs, -, rfl⟩
  refine .bind_ok (run_childrenOf hcs) (.of_ok rfl ?_)
  rw [children?_setParent, List.append_cons] at hcs
  have hplace : pre.length + 1 = (pre ++ [ref]).length := by simp
  rw [List.append_cons, hplace, insertIdx_length]
  exact kept_insert hf hn hp hcs

theorem keeps_removeChild (hf : f.Linked) (block child : NodeId) :
    (removeChild block child).Keeps f := by
  rw [removeChild]
  refine .bindLook (ends_requireKind f _ block) (fun _ => hf.kept) fun _ _ => ?_
  refine .bindLook (ends_indexOf f block child) (fun _ => hf.kept) ?_
  rintro i ⟨pre, post, hcs, -, rfl⟩
  refine .bind_ok (run_childrenOf hcs) (.bind_ok rfl (.of_ok rfl ?_))
  rw [eraseIdx_length]
  exact kept_remove hf hcs

theorem keeps_remove (hf : f.Linked) (node : NodeId) : (remove node).Keeps f := by
  rw [remove]
  refine .bindLook (ends_requireKind f _ node) (fun _ => hf.kept) fun _ _ => ?_
  refine .bind_ok rfl ?_
  split
  · exact keeps_removeChild hf _ node
  · exact Keeps.pure hf

/-! ## 4. Replacing declarations -/

theorem keeps_updateDeclaration (hf : f.Linked) (id : NodeId)
    (update : Declaration → Declaration) :
    (modify (·.updateDeclaration id update) : Edit Unit).Keeps f := by
  refine .of_ok rfl ⟨hf.updateContent (fun c => ?_) id, by
    simp only [updateDeclaration, fresh_updateContent, Nat.le_refl]⟩
  cases c <;> rfl

theorem keeps_insertCopy (hf : f.Linked) (parent : Option NodeId) (id : NodeId)
    (pair : String × String) : (insertCopy parent id pair).Keeps f := by
  cases parent with
  | none => exact .of_error rfl hf.kept
  | some block =>
    refine Ends.bind (ends_clone hf id _) ?_
    rintro copy g ⟨hg, hcopy, hlink⟩
    exact (keeps_insertBefore hg.linked hcopy hlink).after hg

/-- Each decision is one edit, or none. -/
theorem keeps_carryOut (hf : f.Linked) (id : NodeId) (decision : Decision) :
    (carryOut id decision).Keeps f := by
  cases decision with
  | keep reason => exact Keeps.pure hf
  | replace pairs =>
    rw [carryOut]
    refine .bindLook (ends_declarationOf f id) (fun _ => hf.kept) fun d _ => ?_
    split
    · split
      · exact keeps_updateDeclaration hf id _
      · refine .bind_ok rfl ?_
        exact (keeps_insertCopy hf _ id _).bind fun _ _ hg => keeps_remove hg id
    · refine .bind_ok rfl ?_
      refine Keeps.bind ?_ fun _ _ hg => keeps_remove hg id
      exact Keeps.forM (fun pair _ hg => keeps_insertCopy hg _ id pair) _ hf

/-! ## 5. Passes -/

theorem keeps_runStageAt (hf : f.Linked) (stage : Stage) (id : NodeId) :
    (runStageAt stage id).Keeps f := by
  rw [runStageAt]
  refine .bindLook (ends_declarationOf f id) (fun _ => hf.kept) fun d _ => ?_
  split
  · exact .of_error rfl hf.kept
  · split
    · exact (keeps_carryOut hf id _).bind fun _ _ hg => .pure hg
    · exact Keeps.pure hf

theorem keeps_runStageOn (stage : Stage) : ∀ (ids : List NodeId) {f : Forest}, f.Linked →
    (runStageOn stage ids).Keeps f
  | [], _, hf => .pure hf
  | id :: ids, _, hf => by
    rw [runStageOn]
    exact (keeps_runStageAt hf stage id).bind fun _ _ hg =>
      (keeps_runStageOn stage ids hg).bind fun _ _ hg => .pure hg

theorem keeps_runStages (block : NodeId) : ∀ (stages : List Stage) {f : Forest}, f.Linked →
    (runStages block stages).Keeps f
  | [], _, hf => .pure hf
  | stage :: stages, f, hf => by
    rw [runStages]
    refine .bind_ok rfl ?_
    exact (keeps_runStageOn stage _ hf).bind fun _ _ hg =>
      (keeps_runStages block stages hg).bind fun _ _ hg => .pure hg

theorem keeps_sumOver {visit : NodeId → Edit Nat} (hvisit : ∀ id g, g.Linked → (visit id).Keeps g) :
    ∀ (ids : List NodeId) {f : Forest}, f.Linked → (sumOver visit ids).Keeps f
  | [], _, hf => .pure hf
  | id :: ids, f, hf => by
    rw [sumOver]
    exact (hvisit id f hf).bind fun _ _ hg =>
      (keeps_sumOver hvisit ids hg).bind fun _ _ hg => .pure hg

theorem keeps_runAt (p : Pass) : ∀ (depth : Nat) (id : NodeId) {f : Forest}, f.Linked →
    (runAt p depth id).Keeps f
  | 0, _, _, hf => .pure hf
  | depth + 1, id, f, hf => by
    rw [runAt]
    refine .bind_ok rfl ?_
    split
    · exact keeps_runStages id p.stages hf
    · exact keeps_sumOver (fun id _ hg => keeps_runAt p depth id hg) _ hf
    · split
      · exact keeps_runStages id p.stages hf
      · exact Keeps.pure hf
    · exact Keeps.pure hf

theorem keeps_runPass (hf : f.Linked) (p : Pass) : (runPass p).Keeps f := by
  rw [runPass]
  refine .bind_ok rfl ?_
  exact keeps_sumOver (fun id _ hg => keeps_runAt p _ id hg) _ hf

theorem keeps_runPasses (hf : f.Linked) (ps : List Pass) : (runPasses ps).Keeps f :=
  Keeps.forM (fun p _ hg => (keeps_runPass hg p).bind fun _ _ hg => .pure hg) ps hf

theorem keeps_appendToRules (hf : f.Linked) (d : Declaration) : (appendToRules d).Keeps f := by
  rw [appendToRules]
  refine .bind_ok rfl (Keeps.forM (fun rule g hg => ?_) _ hf)
  refine Ends.bind ((ends_make hg _).mono (fun _ _ h => h) fun _ _ h => h.elim) ?_
  rintro node g' ⟨hg', hnode, hlink⟩
  exact (keeps_append hg'.linked hnode hlink).after hg'

end Edit

end CssExpand
