import CssExpand.Forest.Pass
import CssExpand.Proofs.Forest.Replacement

/-!
# Running one stage on a body

A stage takes a snapshot of the declarations of a body and treats them one after the other, while
the body changes around them. This file proves that nothing of that is visible in the outcome: the
children are rewritten node by node (`Rewrites`), each in its own place and as the stage decides
about it alone, and nothing but the body, its declarations and new cells is touched
(`Restaged.frame`).

The induction of `ends_runStageOn` is on the children that are still to come. Its invariant is that
the children of the body are those that are done, in their new form, followed by those to come in
their old form.
-/

set_option autoImplicit false

namespace CssExpand

/-! ## 1. How edits end -/

/-- An edit ends on a forest with a result and a forest that satisfy `ok`, or with an error and a
forest that satisfy `failed`. -/
def Edit.Ends {α : Type} (e : Edit α) (f : Forest) (ok : α → Forest → Prop)
    (failed : EditError → Forest → Prop) : Prop :=
  match e.run f with
  | .ok a g => ok a g
  | .error cause g => failed cause g

/-- Whether an edit ends on a given forest. -/
def Edit.endsOn {α : Type} (e : Edit α) (f g : Forest) : Bool :=
  match e.run f with
  | .ok _ g' => decide (g' = g)
  | .error _ _ => false

namespace Edit.Ends

variable {α β : Type} {f g : Forest} {ok ok' : α → Forest → Prop}
  {failed failed' : EditError → Forest → Prop}

theorem of_ok {e : Edit α} {a : α} (h : e.run f = .ok a g) (hok : ok a g) :
    e.Ends f ok failed := by
  rw [Ends, h]
  exact hok

theorem of_error {e : Edit α} {cause : EditError} (h : e.run f = .error cause g)
    (hf : failed cause g) : e.Ends f ok failed := by
  rw [Ends, h]
  exact hf

theorem of_endsOn {e : Edit α} (h : e.endsOn f g = true) :
    e.Ends f (fun _ g' => g' = g) (fun _ _ => False) := by
  rw [Ends]
  cases hrun : e.run f with
  | ok a g' =>
    rw [endsOn, hrun] at h
    exact of_decide_eq_true h
  | error cause g' =>
    rw [endsOn, hrun] at h
    cases h

theorem pure {a : α} (h : ok a f) : (Pure.pure a : Edit α).Ends f ok failed := of_ok rfl h

theorem bind {e : Edit α} {k : α → Edit β} {ok₁ : α → Forest → Prop} {ok : β → Forest → Prop}
    (he : e.Ends f ok₁ failed) (hk : ∀ a g, ok₁ a g → (k a).Ends g ok failed) :
    (e >>= k).Ends f ok failed := by
  rw [Ends] at he ⊢
  rw [EStateM.run_bind]
  cases h : e.run f with
  | ok a g =>
    rw [h] at he
    exact hk a g he
  | error cause g =>
    rw [h] at he
    exact he

theorem bind_ok {e : Edit α} {k : α → Edit β} {a : α} {ok : β → Forest → Prop}
    (h : e.run f = .ok a g) (hk : (k a).Ends g ok failed) : (e >>= k).Ends f ok failed := by
  rw [Ends] at hk ⊢
  rw [EStateM.run_bind, h]
  exact hk

theorem mono {e : Edit α} (h : e.Ends f ok failed) (hok : ∀ a g, ok a g → ok' a g)
    (hfailed : ∀ cause g, failed cause g → failed' cause g) : e.Ends f ok' failed' := by
  rw [Ends] at h ⊢
  split at h
  · exact hok _ _ h
  · exact hfailed _ _ h

end Edit.Ends

/-! ## 2. What becomes of the children of a body -/

namespace Forest

/-- What became of one child of a block, by a decision about declarations: the same node, new nodes in
its place, or the same node with a new value. The node that is asked about is looked up in `f`, and
what became of it in `g`, possibly many steps later. -/
inductive Outcome (pairs? : Declaration → Option (List (String × String))) (f g : Forest)
    (block id : NodeId) : List NodeId → Prop
  | kept (undecided : ∀ d, f.declaration? id = some d → pairs? d = none)
      (same : g.cell? id = f.cell? id) : Outcome pairs? f g block id [id]
  | replaced {d : Declaration} {pairs : List (String × String)} {news : List NodeId}
      (declared : f.declaration? id = some d) (decided : pairs? d = some pairs)
      (apart : d.isRevalued pairs = false) (detached : g.cell? id = (f.cell? id).map Cell.detached)
      (fresh : ∀ k ∈ news, f.fresh ≤ k)
      (cells : news.map g.cell? =
        pairs.map fun p => some ⟨.declaration (d.replacedBy p), some block⟩) :
      Outcome pairs? f g block id news
  | revalued {d : Declaration} {value : String} (declared : f.declaration? id = some d)
      (decided : pairs? d = some [(d.prop, value)])
      (cell : g.cell? id = (f.cell? id).map (·.revalued value)) : Outcome pairs? f g block id [id]

/-- What became of the children of a block, one after the other. -/
inductive Rewrites (pairs? : Declaration → Option (List (String × String))) (f g : Forest)
    (block : NodeId) : List NodeId → List NodeId → Prop
  | nil : Rewrites pairs? f g block [] []
  | cons {id : NodeId} {out cs cs' : List NodeId} (first : Outcome pairs? f g block id out)
      (others : Rewrites pairs? f g block cs cs') :
      Rewrites pairs? f g block (id :: cs) (out ++ cs')

variable {pairs? : Declaration → Option (List (String × String))}

/-- An outcome depends on the first forest only at the node itself. -/
theorem Outcome.of_before {f f₀ g : Forest} {block id : NodeId} {out : List NodeId}
    (h : Outcome pairs? f g block id out) (hcell : f.cell? id = f₀.cell? id)
    (hfresh : f₀.fresh ≤ f.fresh) : Outcome pairs? f₀ g block id out := by
  cases h with
  | kept hu hs => exact .kept (by rwa [declaration?_congr hcell] at hu) (hs.trans hcell)
  | replaced hd hp ha hc hf hn =>
    exact .replaced (by rwa [declaration?_congr hcell] at hd) hp ha (by rw [hc, hcell])
      (fun k hk => Nat.le_trans hfresh (hf k hk)) hn
  | revalued hd hp hc =>
    exact .revalued (by rwa [declaration?_congr hcell] at hd) hp (by rw [hc, hcell])

/-- An outcome depends on the second forest only at the node and at what came of it. -/
theorem Outcome.of_after {f g g₁ : Forest} {block id : NodeId} {out : List NodeId}
    (h : Outcome pairs? f g block id out) (hcell : g₁.cell? id = g.cell? id)
    (hout : ∀ k ∈ out, g₁.cell? k = g.cell? k) : Outcome pairs? f g₁ block id out := by
  cases h with
  | kept hu hs => exact .kept hu (hcell.trans hs)
  | replaced hd hp ha hc hf hn =>
    refine .replaced hd hp ha (hcell.trans hc) hf ?_
    rw [← hn]
    exact List.map_congr_left hout
  | revalued hd hp hc => exact .revalued hd hp (hcell.trans hc)

theorem Rewrites.of_before {f f₀ g : Forest} {block : NodeId} {cs cs' : List NodeId}
    (h : Rewrites pairs? f g block cs cs') (hcell : ∀ k ∈ cs, f.cell? k = f₀.cell? k)
    (hfresh : f₀.fresh ≤ f.fresh) : Rewrites pairs? f₀ g block cs cs' := by
  induction h with
  | nil => exact .nil
  | cons h _ ih =>
    rw [List.forall_mem_cons] at hcell
    exact .cons (h.of_before hcell.1 hfresh) (ih hcell.2)

theorem Rewrites.of_after {f g g₁ : Forest} {block : NodeId} {cs cs' : List NodeId}
    (h : Rewrites pairs? f g block cs cs') (hcell : ∀ k ∈ cs, g₁.cell? k = g.cell? k)
    (hout : ∀ k ∈ cs', g₁.cell? k = g.cell? k) : Rewrites pairs? f g₁ block cs cs' := by
  induction h with
  | nil => exact .nil
  | cons h _ ih =>
    rw [List.forall_mem_cons] at hcell
    rw [List.forall_mem_append] at hout
    exact .cons (h.of_after hcell.1 hout.1) (ih hcell.2 hout.2)

/-- The children `cs` of a body, which stand between `pre` and `post`, were rewritten to `cs'`, and
nothing else was changed. -/
structure Restaged (pairs? : Declaration → Option (List (String × String))) (f g : Forest)
    (block : NodeId) (pre cs post cs' : List NodeId) : Prop where
  rewrites : Rewrites pairs? f g block cs cs'
  grows : f.fresh ≤ g.fresh
  body : g.cell? block = (f.cell? block).map (·.withChildren (pre ++ cs' ++ post))
  frame : ∀ k < f.fresh, k ≠ block → k ∉ cs → g.cell? k = f.cell? k

theorem Restaged.children? {f g : Forest} {block : NodeId} {pre cs post cs' : List NodeId}
    (h : Restaged pairs? f g block pre cs post cs') {old : List NodeId}
    (hb : f.children? block = some old) : g.children? block = some (pre ++ cs' ++ post) := by
  obtain ⟨c, hc, hcs⟩ := exists_cell?_of_children? hb
  rw [Forest.children?, content?_eq, h.body, hc]
  exact children?_withChildren hcs

/-- Giving a block the children that it has changes nothing. -/
theorem cell?_same_children {f : Forest} {block : NodeId} {cs : List NodeId}
    (h : f.children? block = some cs) :
    f.cell? block = (f.cell? block).map (·.withChildren cs) := by
  obtain ⟨c, hc, hcs⟩ := exists_cell?_of_children? h
  rw [hc, Option.map_some, Cell.withChildren, withChildren_children hcs]

/-- Nothing is rewritten to nothing. -/
theorem restaged_nil {f : Forest} {block : NodeId} {pre post : List NodeId}
    (h : f.children? block = some (pre ++ post)) :
    Restaged pairs? f f block pre [] post [] where
  rewrites := .nil
  grows := Nat.le_refl _
  body := by
    rw [List.append_nil]
    exact cell?_same_children h
  frame _ _ _ _ := rfl

/-- A child about which nothing is decided stays. -/
theorem restaged_kept {f : Forest} {block id : NodeId} {pre post : List NodeId}
    (h : f.children? block = some (pre ++ id :: post))
    (hu : ∀ d, f.declaration? id = some d → pairs? d = none) :
    Restaged pairs? f f block pre [id] post [id] where
  rewrites := .cons (.kept hu rfl) .nil
  grows := Nat.le_refl _
  body := cell?_same_children (by simpa using h)
  frame _ _ _ _ := rfl

/-- What the new cells of a splice hold. -/
theorem Spliced.map_cell?_nextIds {f g : Forest} {block id : NodeId} {pre post : List NodeId}
    {ds : List Declaration} (h : Spliced f g block id pre post ds) (hb : block < f.fresh)
    (hid : id < f.fresh) : (f.nextIds ds.length).map g.cell? =
      ds.map fun d => some ⟨.declaration d, some block⟩ := by
  refine List.ext_getElem? fun i => ?_
  simp only [List.getElem?_map, nextIds]
  by_cases hi : i < ds.length
  · simp [hi, h.cell?_new (Nat.le_add_right f.fresh i) hb hid]
  · simp [hi]

/-- A splice rewrites the child that it is about. -/
theorem restaged_replaced {f g : Forest} {block id : NodeId} {pre post : List NodeId}
    {d : Declaration} {pairs : List (String × String)} (hne : id ≠ block)
    (hb : f.children? block = some (pre ++ id :: post)) (hd : f.declaration? id = some d)
    (hp : pairs? d = some pairs) (ha : d.isRevalued pairs = false)
    (h : Spliced f g block id pre post (pairs.map d.replacedBy)) :
    Restaged pairs? f g block pre [id] post (f.nextIds pairs.length) where
  rewrites := by
    have hcells := h.map_cell?_nextIds (lt_fresh_of_children? hb) (lt_fresh_of_declaration? hd)
    rw [List.length_map, List.map_map] at hcells
    have hdetached : g.cell? id = (f.cell? id).map Cell.detached := by
      rw [h.cell, if_neg hne, if_pos rfl]
    have := Rewrites.cons (.replaced hd hp ha hdetached
      (fun k hk => (le_of_mem_nextIds hk).1) hcells) (Rewrites.nil : Rewrites pairs? f g block [] [])
    rwa [List.append_nil] at this
  grows := h.fresh ▸ Nat.le_add_right _ _
  body := by
    rw [h.cell, if_pos rfl, List.length_map]
  frame k hk hkb hkc := h.cell?_old hk hkb fun he => hkc (List.mem_singleton.mpr he)

/-- A new value rewrites the child that it is about. -/
theorem restaged_revalued {f g : Forest} {block id : NodeId} {pre post : List NodeId}
    {d : Declaration} {value : String} (hne : id ≠ block)
    (hb : f.children? block = some (pre ++ id :: post)) (hd : f.declaration? id = some d)
    (hp : pairs? d = some [(d.prop, value)]) (h : Revalued f g id value) :
    Restaged pairs? f g block pre [id] post [id] where
  rewrites := .cons (.revalued hd hp (by rw [h.cell, if_pos rfl])) .nil
  grows := Nat.le_of_eq h.fresh.symm
  body := by
    rw [h.cell, if_neg hne.symm]
    exact cell?_same_children (by simpa using hb)
  frame k _ _ hkc := by rw [h.cell, if_neg fun he => hkc (List.mem_singleton.mpr he)]

/-- Rewriting one child and then those behind it is rewriting them all. -/
theorem Restaged.cons {f g₁ g : Forest} {block id : NodeId} {pre cs post out cs' : List NodeId}
    (hf : f.Sound) (hg₁ : g₁.Sound) (hb : f.children? block = some (pre ++ id :: cs ++ post))
    (h₁ : Restaged pairs? f g₁ block pre [id] (cs ++ post) out)
    (h : Restaged pairs? g₁ g block (pre ++ out) cs post cs') :
    Restaged pairs? f g block pre (id :: cs) post (out ++ cs') := by
  have hb₁ : g₁.children? block = some (pre ++ out ++ (cs ++ post)) := h₁.children? hb
  have hidc : id ∈ pre ++ id :: cs ++ post := by simp
  have hnodup : (id :: cs).Nodup := (hf.nodup hb).sublist (by
    rw [List.append_assoc]
    exact (List.sublist_append_left _ _).trans (List.sublist_append_right _ _))
  -- the first step has touched `id` alone, the others touch neither `id` nor its outcome
  have hcs : ∀ k ∈ cs, g₁.cell? k = f.cell? k := by
    intro k hk
    have hmem : k ∈ pre ++ id :: cs ++ post := by simp [hk]
    refine h₁.frame k (hf.lt_fresh_of_mem hb hmem) (Nat.ne_of_gt (hf.lt_of_mem hb hmem)) ?_
    rintro hki
    exact (List.nodup_cons.mp hnodup).1 (List.mem_singleton.mp hki ▸ hk)
  have hid : g.cell? id = g₁.cell? id :=
    h.frame id (Nat.lt_of_lt_of_le (hf.lt_fresh_of_mem hb hidc) h₁.grows)
      (Nat.ne_of_gt (hf.lt_of_mem hb hidc)) (List.nodup_cons.mp hnodup).1
  have hout : ∀ k ∈ out, g.cell? k = g₁.cell? k := by
    intro k hk
    have hmem : k ∈ pre ++ out ++ (cs ++ post) := by simp [hk]
    refine h.frame k (hg₁.lt_fresh_of_mem hb₁ hmem) (Nat.ne_of_gt (hg₁.lt_of_mem hb₁ hmem)) ?_
    intro hkc
    exact (List.nodup_append.mp (hg₁.nodup hb₁)).2.2 k (List.mem_append_right _ hk) k
      (List.mem_append_left _ hkc) rfl
  refine ⟨?_, Nat.le_trans h₁.grows h.grows, ?_, fun k hk hkb hkc => ?_⟩
  · have hfirst : Outcome pairs? f g₁ block id out := by
      have := h₁.rewrites
      cases this with
      | cons first others =>
        cases others
        rwa [List.append_nil]
    exact .cons (hfirst.of_after hid hout) (h.rewrites.of_before hcs h₁.grows)
  · rw [h.body, h₁.body, Option.map_map]
    congr 1
    funext c
    simp [Cell.withChildren, withChildren_withChildren]
  · rw [List.mem_cons, not_or] at hkc
    rw [h.frame k (Nat.lt_of_lt_of_le hk h₁.grows) hkb hkc.2,
      h₁.frame k hk hkb fun hm => hkc.1 (List.mem_singleton.mp hm)]

end Forest

/-! ## 3. One declaration -/

namespace Stage

/-- A stage may replace a declaration as it decides. -/
def may (s : Stage) (d : Declaration) (pairs : List (String × String)) : Prop :=
  s.pairs? d = some pairs

theorem pairs?_of_visit? {s : Stage} {d : Declaration} {v : Visit} (h : s.visit? d = some v) :
    s.pairs? d = v.decision.pairs? := by
  rw [pairs?, h]
  rfl

theorem changes_of_visit? {s : Stage} {d : Declaration} {v : Visit} (h : s.visit? d = some v) :
    v.changes = (s.pairs? d).isSome := by
  rw [pairs?_of_visit? h]
  rfl

end Stage

/-- The only pairs that are set in place. -/
theorem Declaration.eq_of_isRevalued {d : Declaration} {pairs : List (String × String)}
    (h : d.isRevalued pairs = true) : ∃ value, pairs = [(d.prop, value)] := by
  match pairs, h with
  | [(prop, value)], h =>
    rw [isRevalued, beq_iff_eq] at h
    exact ⟨value, by rw [← h]⟩

namespace Edit

open Forest

variable {f : Forest} {block : NodeId} {stage : Stage}

/-- Carrying out a decision about a child of a body rewrites that child. -/
theorem ends_carryOut (hf : f.Sound) (hbody : f.IsBody block) {id : NodeId} {d : Declaration}
    {pre post : List NodeId} (hb : f.children? block = some (pre ++ id :: post))
    (hd : f.declaration? id = some d) {decision : Decision}
    (hp : stage.pairs? d = decision.pairs?) :
    (carryOut id decision).Ends f
      (fun _ g => Replacements stage.may f g ∧
        ∃ out, Restaged stage.pairs? f g block pre [id] post out)
      (fun _ _ => False) := by
  have hmem : id ∈ pre ++ id :: post := List.mem_append_right _ List.mem_cons_self
  have hne : id ≠ block := Nat.ne_of_gt (hf.lt_of_mem hb hmem)
  cases decision with
  | keep reason =>
    refine .of_ok rfl ⟨.refl, _, restaged_kept hb fun e he => ?_⟩
    rw [hd, Option.some.injEq] at he
    rw [← he, hp]
    rfl
  | replace pairs =>
    by_cases hr : d.isRevalued pairs = true
    · obtain ⟨value, rfl⟩ := Declaration.eq_of_isRevalued hr
      obtain ⟨g, hrun, hg⟩ := run_carryOut_revalue hd value
      exact .of_ok hrun ⟨.single (.revalue hbody hb hmem hd hp hg), _,
        restaged_revalued hne hb hd hp hg⟩
    · rw [Bool.not_eq_true] at hr
      have hpre : id ∉ pre := fun hm =>
        (List.nodup_append.mp (hf.nodup hb)).2.2 id hm id List.mem_cons_self rfl
      obtain ⟨g, hrun, hg⟩ := run_carryOut_splice hd (hf.linked hb hmem) hb hpre hr
      exact .of_ok hrun ⟨.single (.splice hbody hb hd hp hg), _,
        restaged_replaced hne hb hd hp hr hg⟩

/-- A stage on one declaration refuses it, or rewrites it as the stage decides. -/
theorem ends_runStageAt (hf : f.Sound) (hbody : f.IsBody block) {id : NodeId} {d : Declaration}
    {pre post : List NodeId} (hb : f.children? block = some (pre ++ id :: post))
    (hd : f.declaration? id = some d) :
    (runStageAt stage id).Ends f
      (fun changed g => stage.check d = .ok () ∧ changed = (stage.pairs? d).isSome ∧
        Replacements stage.may f g ∧ ∃ out, Restaged stage.pairs? f g block pre [id] post out)
      (fun e g => (∃ cause, e = .overlong cause ∧ stage.check d = .error cause) ∧
        Replacements stage.may f g) := by
  rw [runStageAt]
  refine .bind_ok (run_declarationOf hd) ?_
  split
  · next cause hc => exact .of_error rfl ⟨⟨cause, rfl, hc⟩, .refl⟩
  · next hc =>
    split
    · next visit hv =>
      refine .bind ((ends_carryOut hf hbody hb hd (Stage.pairs?_of_visit? hv)).mono
        (fun _ _ h => h) fun _ _ h => h.elim) fun _ g h => ?_
      exact .pure ⟨hc, Stage.changes_of_visit? hv, h⟩
    · next hv =>
      have hn : stage.pairs? d = none := by
        rw [Stage.pairs?, hv]
        rfl
      refine .pure ⟨hc, by rw [hn]; rfl, .refl, _, restaged_kept hb fun e he => ?_⟩
      rw [hd, Option.some.injEq] at he
      rw [← he, hn]

end Edit

/-! ## 4. A whole body -/

/-- The declarations among some nodes. -/
def Forest.declarationsAmong (f : Forest) (cs : List NodeId) : List Declaration :=
  cs.filterMap f.declaration?

/-- The number of declarations that a stage replaces. -/
def Stage.replaced (s : Stage) (ds : List Declaration) : Nat :=
  ds.countP fun d => (s.pairs? d).isSome

theorem forM_cons_ok {α ε : Type} {check : α → Except ε Unit} {a : α} {as : List α}
    {r : Except ε Unit} (h : check a = .ok ()) (hs : as.forM check = r) :
    (a :: as).forM check = r := by
  change (check a).bind (fun _ => as.forM check) = _
  rw [h]
  exact hs

theorem forM_cons_error {α ε : Type} {check : α → Except ε Unit} {a : α} {as : List α} {e : ε}
    (h : check a = .error e) : (a :: as).forM check = .error e := by
  change (check a).bind (fun _ => as.forM check) = _
  rw [h]
  rfl

theorem forM_congr {α ε : Type} {check check' : α → Except ε Unit} :
    ∀ {as : List α}, (∀ a ∈ as, check a = check' a) → as.forM check = as.forM check'
  | [], _ => rfl
  | a :: as, h => by
    rw [List.forall_mem_cons] at h
    change (check a).bind (fun _ => as.forM check) = (check' a).bind fun _ => as.forM check'
    rw [h.1, forM_congr h.2]

theorem forM_map {α β ε : Type} (h : α → β) (check : β → Except ε Unit) :
    ∀ as : List α, (as.map h).forM check = as.forM fun a => check (h a)
  | [] => rfl
  | a :: as => by
    change (check (h a)).bind (fun _ => (as.map h).forM check) = _
    rw [forM_map h check as]
    rfl

/-- Children of a body that a replacement of others leaves alone. -/
theorem Forest.Restaged.cell?_behind {pairs? : Declaration → Option (List (String × String))}
    {f g : Forest} {block id : NodeId} {pre cs out : List NodeId} (hf : f.Sound)
    (hb : f.children? block = some (pre ++ id :: cs))
    (h : Restaged pairs? f g block pre [id] cs out) : ∀ k ∈ cs, g.cell? k = f.cell? k := by
  intro k hk
  have hmem : k ∈ pre ++ id :: cs := by simp [hk]
  refine h.frame k (hf.lt_fresh_of_mem hb hmem) (Nat.ne_of_gt (hf.lt_of_mem hb hmem)) ?_
  intro hki
  rw [List.mem_singleton.mp hki] at hk
  exact (List.nodup_cons.mp (List.nodup_append.mp (hf.nodup hb)).2.1).1 hk

namespace Edit

open Forest

variable {block : NodeId} {stage : Stage}

/-- A stage on the declarations among some last children of a body refuses one of them, or rewrites
them all as it decides about each. -/
theorem ends_runStageOn : ∀ (cs : List NodeId) {f : Forest} {pre : List NodeId}, f.Sound →
    f.IsBody block → f.children? block = some (pre ++ cs) →
    (runStageOn stage (cs.filter fun k => (f.declaration? k).isSome)).Ends f
      (fun n g => Replacements stage.may f g ∧ n = stage.replaced (f.declarationsAmong cs) ∧
        (f.declarationsAmong cs).forM stage.check = .ok () ∧
        ∃ cs', Restaged stage.pairs? f g block pre cs [] cs')
      (fun e g => (∃ cause, e = .overlong cause ∧
        (f.declarationsAmong cs).forM stage.check = .error cause) ∧ Replacements stage.may f g)
  | [], f, pre, _, _, hb => .of_ok rfl ⟨.refl, rfl, rfl, [], restaged_nil hb⟩
  | id :: cs, f, pre, hf, hbody, hb => by
    have hb' : f.children? block = some (pre ++ id :: cs ++ []) := by rw [hb, List.append_nil]
    cases hd : f.declaration? id with
    | none =>
      have hkept : Restaged stage.pairs? f f block pre [id] (cs ++ []) [id] :=
        restaged_kept (by rw [List.append_nil, hb]) (by simp [hd])
      have hb₁ : f.children? block = some (pre ++ [id] ++ cs) := by simpa using hb
      have ih := ends_runStageOn cs hf hbody hb₁
      simp only [declarationsAmong, List.filterMap_cons, List.filter_cons, hd, Option.isSome_none,
        Bool.false_eq_true, if_false] at ih ⊢
      exact ih.mono (fun n g ⟨hr, hn, hc, cs', h⟩ => ⟨hr, hn, hc, _, hkept.cons hf hf hb' h⟩)
        fun _ _ h => h
    | some d =>
      simp only [declarationsAmong, List.filterMap_cons, List.filter_cons, hd, Option.isSome_some,
        if_true]
      rw [runStageOn]
      refine .bind ((ends_runStageAt hf hbody hb hd).mono (fun _ _ h => h) ?_) ?_
      · rintro e g ⟨⟨cause, he, hc⟩, hr⟩
        exact ⟨⟨cause, he, forM_cons_error hc⟩, hr⟩
      · rintro changed g ⟨hc, rfl, hr, out, h₁⟩
        -- what stands behind the cursor is as it was, so the rest of the run is the induction
        -- hypothesis in the changed sheet
        have hcell := h₁.cell?_behind hf hb
        have hfilter : cs.filter (fun k => (g.declaration? k).isSome) =
            cs.filter fun k => (f.declaration? k).isSome :=
          List.filter_congr fun k hk => by rw [declaration?_congr (hcell k hk)]
        have hamong : g.declarationsAmong cs = f.declarationsAmong cs :=
          List.filterMap_congr fun k hk => declaration?_congr (hcell k hk)
        have ih := ends_runStageOn cs (hr.sound hf) (hr.isBody hbody) (h₁.children? hb)
        rw [hfilter, hamong] at ih
        rw [← List.append_nil cs] at h₁
        refine .bind (ih.mono (fun _ _ h => h) ?_) ?_
        · rintro e g' ⟨⟨cause, he, hc'⟩, hr'⟩
          exact ⟨⟨cause, he, forM_cons_ok hc hc'⟩, hr.trans hr'⟩
        · rintro n g' ⟨hr', rfl, hc', cs', h'⟩
          refine .pure ⟨hr.trans hr', ?_, forM_cons_ok hc hc', _,
            h₁.cons hf (hr.sound hf) hb' h'⟩
          rw [Stage.replaced, Stage.replaced, List.countP_cons]
          cases stage.pairs? d <;> rfl

end Edit

end CssExpand
