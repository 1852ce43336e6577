import CssExpand.Session
import CssExpand.Proofs.Forest.LinkedEdits
import Mathlib

/-!
# Parent links over a whole session

Whatever a session has been through, child lists and parent links agree, provided that each node was
linked to nothing when a step put it into a block. Steps fail halfway, hold nodes that are in no
block any more and run passes in between; none of that matters.

The invariant of the induction is `Session.Intact`. Besides the links it says that the nodes held
under names exist, since a step may insert one of them, and that the stylesheet does. A step keeps it
(`intact_after`), so every session that can be reached has it.
-/

set_option autoImplicit false

namespace CssExpand

namespace Session

open Forest

/-! ## 1. How actions end -/

/-- An action ends on a session with a result and a session that satisfy `ok`, or with an error and a
session that satisfies `failed`. -/
def Action.Ends {α : Type} (a : Action α) (s : Session) (ok : α → Session → Prop)
    (failed : Session → Prop) : Prop :=
  match a.run s with
  | .ok x t => ok x t
  | .error _ t => failed t

namespace Action.Ends

variable {α β : Type} {s : Session} {ok : α → Session → Prop} {failed : Session → Prop}

theorem of_ok {a : Action α} {x : α} {t : Session} (h : a.run s = .ok x t) (hok : ok x t) :
    a.Ends s ok failed := by
  rw [Ends, h]
  exact hok

theorem of_error {a : Action α} {cause : StepError} {t : Session} (h : a.run s = .error cause t)
    (hf : failed t) : a.Ends s ok failed := by
  rw [Ends, h]
  exact hf

theorem bind {a : Action α} {k : α → Action β} {ok' : β → Session → Prop}
    (ha : a.Ends s ok failed) (hk : ∀ x t, a.run s = .ok x t → ok x t → (k x).Ends t ok' failed) :
    (a >>= k).Ends s ok' failed := by
  rw [Ends] at ha ⊢
  rw [EStateM.run_bind]
  cases h : a.run s with
  | ok x t =>
    rw [h] at ha
    exact hk x t h ha
  | error cause t =>
    rw [h] at ha
    exact ha

/-- An action that looks at the session first. -/
theorem of_get {k : Session → Action α} (hk : (k s).Ends s ok failed) :
    (get >>= k).Ends s ok failed := hk

theorem mono {a : Action α} {ok' : α → Session → Prop} {failed' : Session → Prop}
    (h : a.Ends s ok failed) (hok : ∀ x t, ok x t → ok' x t) (hf : ∀ t, failed t → failed' t) :
    a.Ends s ok' failed' := by
  rw [Ends] at h ⊢
  split at h
  · exact hok _ _ h
  · exact hf _ h

end Action.Ends

/-! ## 2. Intact sessions -/

/-- Child lists and parent links agree, and the stylesheet and the nodes held under names exist. The
stylesheet is part of it because steps that run passes start from its root, and the held nodes because
a step may insert one. -/
structure Intact (s : Session) : Prop where
  linked : s.forest.Linked
  rooted : root < s.forest.fresh
  known : ∀ {name id}, (name, id) ∈ s.held → id < s.forest.fresh

/-- The session `t`, which came from `s`, is intact and has lost no node. -/
structure Advances (s t : Session) : Prop where
  intact : t.Intact
  grows : s.forest.fresh ≤ t.forest.fresh

variable {s t u : Session}

theorem Intact.advances (h : s.Intact) : s.Advances s := ⟨h, Nat.le_refl _⟩

theorem Advances.trans (hst : s.Advances t) (htu : t.Advances u) : s.Advances u :=
  ⟨htu.intact, Nat.le_trans hst.grows htu.grows⟩

/-- Going on with a forest that an edit kept. -/
theorem Intact.withForest (h : s.Intact) {g : Forest} (hg : s.forest.Kept g) :
    s.Advances { s with forest := g } where
  intact :=
    { linked := hg.linked
      rooted := Nat.lt_of_lt_of_le h.rooted hg.grows
      known := fun hm => Nat.lt_of_lt_of_le (h.known hm) hg.grows }
  grows := hg.grows

theorem intact_start {css : String} (h : start css = .ok s) : s.Intact := by
  rw [start] at h
  cases hp : Sheet.parse css with
  | error cause => simp [hp, bind, Except.bind] at h
  | ok sheet => 
  rw [hp] at h
  obtain rfl := Except.ok.inj h
  have hsound := sound_ofSheet sheet
  refine ⟨hsound.isLinked, ?_, fun hm => absurd hm List.not_mem_nil⟩
  obtain ⟨ids, g, hf, hg⟩ := plantedAll_sheet sheet
  change root < (ofSheet sheet).fresh
  rw [hf, fresh_setChildren]
  exact Nat.lt_of_lt_of_le Nat.zero_lt_one hg.grows

/-! ## 3. What actions keep -/

/-- However the action ends, the session is still intact. -/
def Action.Keeps {α : Type} (a : Action α) (s : Session) : Prop :=
  a.Ends s (fun _ t => t.Intact) (fun t => t.Intact)

/-- The action names a node of the session, and however it ends, the session is still intact. -/
def Action.Names (a : Action NodeId) (s : Session) : Prop :=
  a.Ends s (fun id t => s.Advances t ∧ id < t.forest.fresh) (fun t => t.Intact)

variable {α : Type}

theorem run_edit (e : Edit α) (s : Session) :
    (edit e).run s =
      match e.run s.forest with
      | .ok x g => .ok x { s with forest := g }
      | .error cause g => .error (.edit cause) { s with forest := g } := rfl

theorem Action.Ends.of_edit {e : Edit α} {ok : α → Session → Prop} {failed : Session → Prop}
    (h : e.Ends s.forest (fun x g => ok x { s with forest := g })
      (fun _ g => failed { s with forest := g })) : (edit e).Ends s ok failed := by
  rw [Edit.Ends] at h
  rw [Action.Ends, run_edit]
  cases hrun : e.run s.forest <;> rw [hrun] at h <;> exact h

theorem keeps_edit (hs : s.Intact) {e : Edit α} (he : e.Keeps s.forest) : (edit e).Keeps s :=
  .of_edit (he.mono (fun _ _ hg => (hs.withForest hg).intact)
    fun _ _ hg => (hs.withForest hg).intact)

theorem keeps_pure (hs : s.Intact) (x : α) : (pure x : Action α).Keeps s := .of_ok rfl hs

theorem keeps_remember (hs : s.Intact) {name : String} {id : NodeId} (hid : id < s.forest.fresh) :
    (remember name id).Keeps s := by
  refine .of_ok rfl ⟨hs.linked, hs.rooted, fun hm => ?_⟩
  rcases List.mem_cons.mp hm with he | hm
  · rw [(Prod.mk.inj he).2]
    exact hid
  · exact hs.known hm

/-- A path leads to nodes that exist. -/
theorem lt_fresh_of_nodeAt {f : Forest} (hf : f.Linked) : ∀ {path : List Nat} {id k : NodeId},
    id < f.fresh → nodeAt f id path = some k → k < f.fresh
  | [], id, k, hid, hk => Option.some.inj hk ▸ hid
  | i :: is, id, k, _, hk => by
    rw [nodeAt] at hk
    obtain ⟨child, hchild, hk⟩ := Option.bind_eq_some_iff.mp hk
    have hmem := List.mem_of_getElem? hchild
    rw [children] at hmem
    cases hcs : f.children? id with
    | none => simp [hcs] at hmem
    | some cs =>
      rw [hcs] at hmem
      exact lt_fresh_of_nodeAt hf (hf.lt_fresh_of_mem hcs hmem) hk

/-- What a reference resolves to is a node of the forest. -/
theorem names_resolve (hs : s.Intact) (r : NodeRef) : (resolve r).Names s := by
  cases r with
  | new node =>
    refine .of_edit ((Edit.ends_make hs.linked node).mono ?_ fun _ _ h => h.elim)
    exact fun id g ⟨hg, hid, _⟩ => ⟨hs.withForest hg, hid⟩
  | path indices =>
    rw [resolve]
    refine .of_get ?_
    split
    · next id hid => exact .of_ok rfl ⟨hs.advances, lt_fresh_of_nodeAt hs.linked hs.rooted hid⟩
    · exact .of_error rfl hs
  | held name =>
    rw [resolve]
    refine .of_get ?_
    split
    · next id hid =>
      obtain ⟨before, behind, hheld, -⟩ := List.lookup_eq_some_iff.mp hid
      have hmem : (name, id) ∈ s.held := by simp [hheld]
      exact .of_ok rfl ⟨hs.advances, hs.known hmem⟩
    · exact .of_error rfl hs

theorem names_clone (hs : s.Intact) (id : NodeId) (update : Declaration → Declaration) :
    (edit (Edit.clone id update)).Names s :=
  .of_edit ((Edit.ends_clone hs.linked id update).mono
    (fun _ _ ⟨hg, hcopy, _⟩ => ⟨hs.withForest hg, hcopy⟩) fun _ _ hg => (hs.withForest hg).intact)

/-- Two actions one after the other, the second of which keeps every intact session. -/
theorem Action.Keeps.bind {β : Type} {a : Action α} {k : α → Action β} (ha : a.Keeps s)
    (hk : ∀ x t, t.Intact → (k x).Keeps t) : (a >>= k).Keeps s :=
  Action.Ends.bind ha fun x t _ ht => hk x t ht

/-- An action that does something with the node that another one names. -/
theorem Action.Names.bind {a : Action NodeId} {k : NodeId → Action α} (ha : a.Names s)
    (hk : ∀ id t, a.run s = .ok id t → t.Intact → id < t.forest.fresh → (k id).Keeps t) :
    (a >>= k).Keeps s :=
  Action.Ends.bind ha fun id t hrun ht => hk id t hrun ht.1.intact ht.2

/-- An action that looks at the session first. -/
theorem Action.Keeps.of_get {k : Session → Action α} (hk : (k s).Keeps s) : (get >>= k).Keeps s := hk

theorem keeps_throw (hs : s.Intact) (cause : StepError) : (throw cause : Action α).Keeps s :=
  .of_error rfl hs

/-- The text of the stylesheet is made without a change. -/
theorem keeps_writeSheet (hs : s.Intact) (indent : String) : (writeSheet indent).Keeps s := by
  rw [writeSheet]
  refine .of_get ?_
  split
  · exact keeps_pure hs _
  · exact keeps_throw hs _

/-- Changing the fields of a node in place leaves its children. -/
theorem children?_content (c : FieldChanges) (k : Content) :
    (c.content k).children? = k.children? := by
  cases k <;> rfl

theorem keeps_set (hs : s.Intact) (c : FieldChanges) (id : NodeId) :
    (edit (modify (·.updateContent id c.content))).Keeps s := by
  refine keeps_edit hs (.of_ok rfl ⟨hs.linked.updateContent (children?_content c) id, ?_⟩)
  exact Nat.le_of_eq (fresh_updateContent s.forest id _).symm

/-! ## 4. Steps -/

/-- What a session is after a step, done or failed. -/
def after (s : Session) (step : Step) : Session :=
  match (run step).run s with
  | .ok _ t => t
  | .error _ t => t

/-- How a step that inserts a node finds it. -/
def insertedBy? : Step → Option (Action NodeId)
  | .insertBefore block ref node => some do
    let _ ← resolve block
    let _ ← resolve ref
    resolve node
  | .insertAfter block ref node => some do
    let _ ← resolve block
    let _ ← resolve ref
    resolve node
  | .append block node => some do
    let _ ← resolve block
    resolve node
  | _ => none

/-- If the step inserts a node, the node is linked to nothing at that moment. -/
def InsertsDetached (s : Session) (step : Step) : Prop :=
  ∀ find ∈ insertedBy? step, ∀ id t, find.run s = .ok id t → t.forest.parent? id = none

/-- Either way of inserting keeps the links if the node has no parent yet. The edits do not ask for that
themselves, so it is a condition on the session. -/
theorem keeps_insert (hs : s.Intact) {block ref node : NodeRef}
    {insert : NodeId → NodeId → NodeId → Edit Unit}
    (hinsert : ∀ {f : Forest}, f.Linked → ∀ {b r n : NodeId}, n < f.fresh → f.parent? n = none →
      (insert b r n).Keeps f)
    (hd : ∀ id t, (do
      let _ ← resolve block
      let _ ← resolve ref
      resolve node : Action NodeId).run s = .ok id t → t.forest.parent? id = none) :
    (do
      edit (insert (← resolve block) (← resolve ref) (← resolve node))
      pure .nothing : Action Answer).Keeps s := by
  refine (names_resolve hs block).bind fun b t₁ h₁ ht₁ _ => ?_
  refine (names_resolve ht₁ ref).bind fun r t₂ h₂ ht₂ _ => ?_
  refine (names_resolve ht₂ node).bind fun n t h ht hn => ?_
  have hlink : t.forest.parent? n = none := hd n t (by simp [h₁, h₂, h])
  exact (keeps_edit ht (hinsert ht.linked hn hlink)).bind fun _ _ hu => keeps_pure hu _

theorem keeps_clone (hs : s.Intact) (node : NodeRef) (name : String) (changes : FieldChanges) :
    (run (.clone node name changes)).Keeps s := by
  refine (names_resolve hs node).bind fun id t _ ht _ => ?_
  have hlook : (Edit.declarationOf id).Keeps t.forest :=
    (Edit.ends_declarationOf t.forest id).mono (fun _ _ hg => hg.1 ▸ ht.linked.kept)
      fun _ _ hg => hg ▸ ht.linked.kept
  refine (keeps_edit ht hlook).bind fun _ u hu => ?_
  split
  · exact keeps_throw hu _
  · exact (names_clone hu id _).bind fun _ _ _ hv hcopy =>
      (keeps_remember hv hcopy).bind fun _ _ hw => keeps_pure hw _

/-- One step, of any kind, whether it fails or not. -/
theorem keeps_run (hs : s.Intact) (step : Step) (hd : s.InsertsDetached step) :
    (run step).Keeps s := by
  cases step with
  | hold node name =>
    exact (names_resolve hs node).bind fun id t _ ht hid =>
      (keeps_remember ht hid).bind fun _ _ hu => keeps_pure hu _
  | clone node name changes => exact keeps_clone hs node name changes
  | insertBefore block ref node => exact keeps_insert hs Edit.keeps_insertBefore (hd _ rfl)
  | insertAfter block ref node => exact keeps_insert hs Edit.keeps_insertAfter (hd _ rfl)
  | append block node =>
    refine (names_resolve hs block).bind fun b t₁ h₁ ht₁ _ => ?_
    refine (names_resolve ht₁ node).bind fun n t h ht hn => ?_
    have hlink : t.forest.parent? n = none := hd _ rfl n t (by simp [h₁, h])
    exact (keeps_edit ht (Edit.keeps_append ht.linked hn hlink)).bind fun _ _ hu => keeps_pure hu _
  | remove node =>
    exact (names_resolve hs node).bind fun id t _ ht _ =>
      (keeps_edit ht (Edit.keeps_remove ht.linked id)).bind fun _ _ hu => keeps_pure hu _
  | removeChild block node =>
    refine (names_resolve hs block).bind fun b t₁ _ ht₁ _ => ?_
    exact (names_resolve ht₁ node).bind fun id t _ ht _ =>
      (keeps_edit ht (Edit.keeps_removeChild ht.linked b id)).bind fun _ _ hu => keeps_pure hu _
  | set node changes =>
    exact (names_resolve hs node).bind fun id t _ ht _ =>
      (keeps_set ht changes id).bind fun _ _ hu => keeps_pure hu _
  -- What only looks leaves the state as it is.
  | text node | parent node =>
    exact (names_resolve hs node).bind fun _ _ _ ht _ => .of_get (keeps_pure ht _)
  | equal a b =>
    refine (names_resolve hs a).bind fun _ _ _ ht _ => ?_
    exact (names_resolve ht b).bind fun _ _ _ ht _ => .of_get (keeps_pure ht _)
  | declarations node =>
    refine (names_resolve hs node).bind fun id t _ ht _ => ?_
    refine (keeps_edit ht ((Edit.ends_requireKind t.forest _ id).mono ?_ ?_)).bind ?_
    · exact fun _ _ hg => hg.1 ▸ ht.linked.kept
    · exact fun _ _ hg => hg ▸ ht.linked.kept
    · exact fun _ _ hu => .of_get (keeps_pure hu _)
  | rules | walk => exact .of_get (keeps_pure hs _)
  | serialize indent => exact (keeps_writeSheet hs indent).bind fun _ _ ht => keeps_pure ht _
  -- Parsing starts over with a new forest, and its links are those of any forest of a sheet.
  | reparse =>
    refine (keeps_writeSheet hs defaultIndent).bind fun css t ht => ?_
    split
    · next session h =>
      exact Action.Keeps.bind (.of_ok rfl (intact_start h)) fun _ _ hu => keeps_pure hu _
    · exact keeps_throw ht _
  | passes ps marks =>
    refine (keeps_edit hs (Edit.keeps_runPasses hs.linked ps)).bind fun _ t ht => ?_
    have hmarks : (marks.forM Edit.appendToRules).Keeps t.forest :=
      Edit.Keeps.forM (fun d _ hg => Edit.keeps_appendToRules hg d) marks ht.linked
    exact (keeps_edit ht hmarks).bind fun _ _ hu => keeps_pure hu _
  | carryOut node pairs =>
    refine (names_resolve hs node).bind fun id t _ ht _ => ?_
    cases pairs with
    | none => exact keeps_pure ht _
    | some pairs =>
      exact (keeps_edit ht (Edit.keeps_carryOut ht.linked id _)).bind fun _ _ hu => keeps_pure hu _

/-- A step keeps a session intact if what it inserts is linked to nothing. -/
theorem intact_after (hs : s.Intact) {step : Step} (hd : s.InsertsDetached step) :
    (s.after step).Intact := by
  have h := keeps_run hs step hd
  rw [Action.Keeps, Action.Ends] at h
  rw [after]
  cases hrun : (run step).run s <;> rw [hrun] at h <;> exact h

/-! ## 5. Whole sessions -/

/-- The sessions that steps lead to from a text, done or failed, when every node that a step inserts is
linked to nothing at that moment. A failed step is a step like any other: what it has done until it
failed stays done. -/
inductive Reachable (css : String) : Session → Prop
  | start {s : Session} (h : start css = .ok s) : Reachable css s
  | step {s : Session} {step : Step} (h : Reachable css s) (hd : s.InsertsDetached step) :
      Reachable css (s.after step)

theorem Reachable.intact {css : String} (h : Reachable css s) : s.Intact := by
  induction h with
  | start h => exact intact_start h
  | step _ hd ih => exact intact_after ih hd

/-- After any steps, done or failed, each child of each block is linked to that block, no list of
children names a node twice, and no node is in the lists of two blocks. The blocks need not be in the
stylesheet. The converse fails: a node may be linked to a block that does not list it, after an insertion
that did not find its place. -/
theorem links_of_reachable {css : String} (h : Reachable css s) :
    (∀ block cs, s.forest.children? block = some cs →
      cs.Nodup ∧ ∀ child ∈ cs, s.forest.parent? child = some block) ∧
    ∀ a b as bs, a ≠ b → s.forest.children? a = some as → s.forest.children? b = some bs →
      as.Disjoint bs :=
  ⟨fun _ _ hb => ⟨h.intact.linked.nodup hb, fun _ hc => h.intact.linked.linked hb hc⟩,
    fun _ _ _ _ hab ha hb => h.intact.linked.disjoint hab ha hb⟩

/-- A declaration is taken out, then put in front of a node that is no child, which fails: it stays
linked to the block that it did not get into. -/
theorem links_of_reachable_failedInsertion :
    ∃ s : Session, Reachable "a{x:1;y:2}" s ∧ s.forest.children? 1 = some [3] ∧
      s.forest.parent? 2 = some 1 ∧
      (∀ block cs, s.forest.children? block = some cs →
        cs.Nodup ∧ ∀ child ∈ cs, s.forest.parent? child = some block) ∧
      ∀ a b as bs, a ≠ b → s.forest.children? a = some as → s.forest.children? b = some bs →
        as.Disjoint bs := by
  let removed : Session :=
    ⟨⟨#[⟨.sheet [1], none⟩, ⟨.rule "a" [3], some 0⟩, ⟨.declaration ⟨"x", "1", false⟩, none⟩,
      ⟨.declaration ⟨"y", "2", false⟩, some 1⟩]⟩, [("x", 2)]⟩
  have hstart : ∃ s, start "a{x:1;y:2}" = .ok s ∧
      (s.after (.hold (.path [0, 0]) "x")).after (.remove (.held "x")) = removed :=
    ⟨_, by cbv, by cbv⟩
  obtain ⟨s, hs, hremoved⟩ := hstart
  have h₁ : Reachable "a{x:1;y:2}" removed := by
    rw [← hremoved]
    exact .step (.step (.start hs) (by rintro _ ⟨⟩)) (by rintro _ ⟨⟩)
  have h : Reachable "a{x:1;y:2}"
      (removed.after (.insertBefore (.path [0]) (.path []) (.held "x"))) := by
    refine .step h₁ ?_
    rintro _ ⟨⟩ id t ht
    cases ht
    cbv
  exact ⟨_, h, by rfl, by rfl, links_of_reachable h⟩

end Session

end CssExpand
