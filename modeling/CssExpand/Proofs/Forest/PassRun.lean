import CssExpand.Proofs.Forest.StagesRun

/-!
# Running a pass over a forest

The walk of a pass looks at a node when it comes to it, at a time when the bodies before it have
been rewritten already. Since rewriting a body leaves alone what a walk sees of every node, the
bodies that the walk reaches are those that it would have found at the start (`run_walk`). They are
apart, so each of them is rewritten as if it were the only one (`ends_sumOver`).

`ends_runPass` says all that a run does: which declarations it refuses, how many it replaces, what
becomes of the children of each body, and that no other cell is touched.
-/

set_option autoImplicit false

namespace CssExpand

namespace Forest

/-! ## 1. Bodies by their roles -/

/-- Whether a pass stops at the declaration blocks of at-rules. -/
def walksAll (p : Pass) : Bool := p.reach = .blocks

/-- The bodies that a pass goes to. -/
def bodiesFor (f : Forest) (p : Pass) : List NodeId :=
  f.blocksWithin (walksAll p) f.depth (f.children root)

theorem blocksAt_of_role {f : Forest} (all : Bool) (depth : Nat) (id : NodeId) :
    f.blocksAt all depth id =
      match f.role id with
      | .body isRule => if isRule || all then [id] else []
      | .rules cs => f.blocksWithin all depth cs
      | _ => [] := by
  rw [blocksAt, role]
  cases f.content? id with
  | none => rfl
  | some c =>
    cases c with
    | atBlock name prelude nested cs => cases nested <;> rfl
    | _ => rfl

/-- Walks that see the same reach the same bodies. -/
theorem blocksWithin_of_role {f g : Forest} (h : ∀ k, g.role k = f.role k) (all : Bool) :
    ∀ (depth : Nat) (ids : List NodeId), g.blocksWithin all depth ids = f.blocksWithin all depth ids
  | 0, _ => rfl
  | depth + 1, ids => by
    rw [blocksWithin_succ, blocksWithin_succ]
    refine List.flatMap_congr fun id _ => ?_
    rw [blocksAt_of_role, blocksAt_of_role, h id]
    split
    · rfl
    · exact blocksWithin_of_role h all depth _
    · rfl

/-- A walk lists bodies only. -/
theorem isBody_of_mem_blocksWithin {f : Forest} {all : Bool} {b : NodeId} :
    ∀ {depth : Nat} {ids : List NodeId}, b ∈ f.blocksWithin all depth ids → f.IsBody b
  | 0, _, h => by simp [blocksWithin] at h
  | depth + 1, ids, h => by
    rw [blocksWithin_succ, List.mem_flatMap] at h
    obtain ⟨id, -, h⟩ := h
    rw [blocksAt_of_role] at h
    split at h
    · next isRule hr =>
      split at h
      · rw [List.mem_singleton.mp h]
        exact ⟨isRule, hr⟩
      · cases h
    · exact isBody_of_mem_blocksWithin h
    · cases h

theorem IsBody.lt_fresh {f : Forest} {b : NodeId} (h : f.IsBody b) : b < f.fresh := by
  by_contra hlt
  obtain ⟨isRule, hr⟩ := h
  rw [role, content?_eq_none (Nat.le_of_not_lt hlt)] at hr
  cases hr

/-- A body has children, if only none at all. -/
theorem IsBody.children? {f : Forest} {b : NodeId} (h : f.IsBody b) :
    f.children? b = some (f.children b) := by
  obtain ⟨isRule, hr⟩ := h
  rw [role] at hr
  rw [children, Forest.children?]
  cases hc : f.content? b with
  | none => rw [hc] at hr; cases hr
  | some c =>
    rw [hc] at hr
    cases c with
    | rule => rfl
    | atBlock => rfl
    | _ => cases hr

/-- The children that a walk goes through. -/
theorem children?_of_role {f : Forest} {id : NodeId} {cs : List NodeId}
    (h : f.role id = .rules cs) : f.children? id = some cs := by
  rw [role] at h
  rw [Forest.children?]
  cases hc : f.content? id with
  | none => rw [hc] at h; cases h
  | some c =>
    rw [hc] at h
    cases c with
    | atBlock name prelude nested ids =>
      cases nested with
      | true => exact congrArg some (Role.rules.inj h)
      | false => cases h
    | _ => cases h

/-! ## 2. Bodies one after the other -/

/-- The declarations in a body. -/
def declarationsIn (f : Forest) (b : NodeId) : List Declaration :=
  f.declarationsAmong (f.children b)

/-- A body was rewritten by a decision about declarations. -/
def Reworked (pairs? : Declaration → Option (List (String × String))) (f g : Forest)
    (b : NodeId) : Prop :=
  ∃ cs', Rewrites pairs? f g b (f.children b) cs' ∧
    g.cell? b = (f.cell? b).map (·.withChildren cs')

/-- The bodies `bs` were rewritten, and nothing else was changed. The frame leaves out the bodies and
their children only, so two sweeps of separate bodies can be put together. -/
structure Swept (pairs? : Declaration → Option (List (String × String))) (f g : Forest)
    (bs : List NodeId) : Prop where
  bodies : ∀ b ∈ bs, Reworked pairs? f g b
  frame : ∀ k < f.fresh, k ∉ bs → (∀ b ∈ bs, k ∉ f.children b) → g.cell? k = f.cell? k

variable {pairs? : Declaration → Option (List (String × String))} {f g g₁ : Forest}

/-- The children of a body after it was rewritten. -/
theorem Reworked.children {b : NodeId} (h : Reworked pairs? f g b) (hb : f.IsBody b) :
    Rewrites pairs? f g b (f.children b) (g.children b) ∧
      g.cell? b = (f.cell? b).map (·.withChildren (g.children b)) := by
  obtain ⟨cs', hrw, hcell⟩ := h
  obtain ⟨c, hc, hcs⟩ := exists_cell?_of_children? hb.children?
  have hcs' : g.children b = cs' := by
    rw [Forest.children, children?, content?_eq, hcell, hc]
    simp [Cell.withChildren, children?_withChildren hcs]
  rw [hcs']
  exact ⟨hrw, hcell⟩

/-- The declarations in a body after it was rewritten. -/
theorem Reworked.declarationsIn {b : NodeId} (h : Reworked pairs? f g b) (hb : f.IsBody b) :
    g.declarationsIn b = (f.declarationsIn b).flatMap (Declaration.rewrite pairs?) :=
  (h.children hb).1.declarationsAmong

/-- Rewriting a body leaves alone all that is below a node apart from it. -/
theorem Restaged.cell?_apart (hf : f.Sound) {b b' : NodeId} {cs cs' : List NodeId}
    (hb : f.children? b = some cs) (h : Restaged pairs? f g b [] cs [] cs') (ha : f.Apart b b')
    {k : NodeId} (hk : k < f.fresh) (hu : f.Under b' k) : g.cell? k = f.cell? k := by
  refine h.frame k hk ?_ fun hm => ?_
  · rintro rfl
    exact ha.2 hu
  · exact ((Under.child (hf.linked hb hm) .self).linear hu).elim ha.1 ha.2

theorem under_children (hf : f.Sound) {b k : NodeId} (hk : k ∈ f.children b) : f.Under b k := by
  cases hc : f.children? b with
  | none => simp [children, hc] at hk
  | some cs =>
    rw [children, hc] at hk
    exact .child (hf.linked hc hk) .self

theorem lt_fresh_of_mem_children (hf : f.Sound) {b k : NodeId} (hk : k ∈ f.children b) :
    k < f.fresh := by
  cases hc : f.children? b with
  | none => simp [children, hc] at hk
  | some cs =>
    rw [children, hc] at hk
    exact hf.lt_fresh_of_mem hc hk

theorem swept_nil (f : Forest) : Swept pairs? f f [] where
  bodies _ hb := absurd hb List.not_mem_nil
  frame _ _ _ _ := rfl

/-- Rewriting one body and then the others is rewriting them all. -/
theorem Swept.cons (hf : f.Sound) (hg₁ : g₁.Sound) {b : NodeId} {bs cs' : List NodeId} (hbody : f.IsBody b)
    (hbodies : ∀ c ∈ bs, f.IsBody c) (hapart : ∀ c ∈ bs, f.Apart b c)
    (hsame : ∀ c ∈ bs, ∀ k, f.Under c k → k < f.fresh → g₁.cell? k = f.cell? k)
    (h₁ : Restaged pairs? f g₁ b [] (f.children b) [] cs') (h : Swept pairs? g₁ g bs) :
    Swept pairs? f g (b :: bs) := by
  have hchildren : ∀ c ∈ bs, g₁.children c = f.children c := fun c hc => by
    rw [children, children, children?_congr (hsame c hc c .self (hbodies c hc).lt_fresh)]
  -- what is below the first body, or new with it, is not touched any more
  have hdone : ∀ k, k < g₁.fresh → f.Under b k ∨ f.fresh ≤ k → g.cell? k = g₁.cell? k := by
    intro k hk hor
    refine h.frame k hk (fun hm => ?_) fun c hc hm => ?_
    · rcases hor with hu | hle
      · exact (hapart k hm).1 hu
      · exact Nat.not_lt_of_le hle (hbodies k hm).lt_fresh
    · rw [hchildren c hc] at hm
      rcases hor with hu | hle
      · exact (hu.linear (under_children hf hm)).elim (hapart c hc).1 (hapart c hc).2
      · exact Nat.not_lt_of_le hle (lt_fresh_of_mem_children hf hm)
  have hlt : ∀ {k}, k < f.fresh → k < g₁.fresh := fun hk => Nat.lt_of_lt_of_le hk h₁.grows
  have hcs : ∀ k ∈ f.children b, g.cell? k = g₁.cell? k := fun k hk =>
    hdone k (hlt (lt_fresh_of_mem_children hf hk)) (.inl (under_children hf hk))
  refine ⟨List.forall_mem_cons.mpr ⟨⟨cs', ?_, ?_⟩, fun c hc => ?_⟩, fun k hk hkb hkc => ?_⟩
  · refine h₁.rewrites.of_after hcs fun k hk => ?_
    rcases h₁.rewrites.mem hk with hk | hle
    · exact hcs k hk
    · have hb₁ : g₁.children? b = some cs' := by simpa using h₁.children? hbody.children?
      exact hdone k (hg₁.lt_fresh_of_mem hb₁ hk) (.inr hle)
  · rw [hdone b (hlt hbody.lt_fresh) (.inl .self), h₁.body]
    simp
  · obtain ⟨ds', hr, hcell⟩ := h.bodies c hc
    rw [hchildren c hc] at hr
    refine ⟨ds', hr.of_before (fun k hk => ?_) h₁.grows, ?_⟩
    · exact hsame c hc k (under_children hf hk) (lt_fresh_of_mem_children hf hk)
    · rw [hcell, hsame c hc c .self (hbodies c hc).lt_fresh]
  · rw [List.mem_cons, not_or] at hkb
    rw [List.forall_mem_cons] at hkc
    rw [h.frame k (hlt hk) hkb.2 fun c hc => by rw [hchildren c hc]; exact hkc.2 c hc,
      h₁.frame k hk hkb.1 hkc.1]

end Forest

namespace Edit

open Forest

variable {stages : List Stage}

/-- Stages on bodies that are apart refuse a declaration in one of them, or rewrite them all. -/
theorem ends_sumOver (hind : Stage.Independent stages) : ∀ {bs : List NodeId} {f : Forest},
    f.Sound → (∀ b ∈ bs, f.IsBody b) → bs.Pairwise f.Apart →
    (sumOver (fun b => runStages b stages) bs).Ends f
      (fun n g => Replacements (fun d pairs => ∃ s ∈ stages, s.may d pairs) f g ∧
        n = (bs.flatMap f.declarationsIn).countP (fun d => (Stage.decided? stages d).isSome) ∧
        (bs.forM fun b => Stage.checkAll stages (f.declarationsIn b)) = .ok () ∧
        Swept (Stage.decided? stages) f g bs)
      (fun e g => (∃ cause, e = .overlong cause ∧
        (bs.forM fun b => Stage.checkAll stages (f.declarationsIn b)) = .error cause) ∧
        Replacements (fun d pairs => ∃ s ∈ stages, s.may d pairs) f g)
  | [], f, _, _, _ => .of_ok rfl ⟨.refl, rfl, rfl, swept_nil f⟩
  | b :: bs, f, hf, hbodies, hapart => by
    rw [List.forall_mem_cons] at hbodies
    rw [List.pairwise_cons] at hapart
    rw [sumOver]
    refine .bind ((ends_runStages hind hf hbodies.1 hbodies.1.children?).mono (fun _ _ h => h) ?_) ?_
    · rintro e g ⟨⟨cause, he, hc⟩, hr⟩
      exact ⟨⟨cause, he, forM_cons_error hc⟩, hr⟩
    · rintro n g₁ ⟨hr₁, rfl, hc₁, cs', h₁⟩
      -- The first body is apart from the others, so they are as they were when their turn comes.
      have hsame : ∀ c ∈ bs, ∀ k, f.Under c k → k < f.fresh → g₁.cell? k = f.cell? k :=
        fun c hc k hu hk => h₁.cell?_apart hf hbodies.1.children? (hapart.1 c hc) hk hu
      have hin : ∀ c ∈ bs, g₁.declarationsIn c = f.declarationsIn c := by
        intro c hc
        have hcell := hsame c hc c .self (hbodies.2 c hc).lt_fresh
        rw [declarationsIn, declarationsIn, children, children, children?_congr hcell]
        refine List.filterMap_congr fun k hk => declaration?_congr ?_
        exact hsame c hc k (under_children hf hk) (lt_fresh_of_mem_children hf hk)
      have hflat : bs.flatMap g₁.declarationsIn = bs.flatMap f.declarationsIn :=
        List.flatMap_congr hin
      have hcheck : (bs.forM fun b => Stage.checkAll stages (g₁.declarationsIn b)) =
          bs.forM fun b => Stage.checkAll stages (f.declarationsIn b) :=
        forM_congr fun c hc => by rw [hin c hc]
      have ih := ends_sumOver hind (hr₁.sound hf) (fun c hc => hr₁.isBody (hbodies.2 c hc))
        (hapart.2.imp_of_mem fun hx hy h =>
          hr₁.apart hf (hbodies.2 _ hx).lt_fresh (hbodies.2 _ hy).lt_fresh h)
      rw [hflat, hcheck] at ih
      refine .bind (ih.mono (fun _ _ h => h) ?_) ?_
      · rintro e g ⟨⟨cause, he, hc⟩, hr⟩
        exact ⟨⟨cause, he, forM_cons_ok hc₁ hc⟩, hr₁.trans hr⟩
      · rintro m g ⟨hr, rfl, hc, h⟩
        refine .pure ⟨hr₁.trans hr, ?_, forM_cons_ok hc₁ hc,
          h.cons hf (hr₁.sound hf) hbodies.1 hbodies.2 hapart.1 hsame h₁⟩
        rw [List.flatMap_cons, List.countP_append]
        rfl

/-! ## 3. The walk -/

theorem run_bind_congr {α β : Type} {e e' : Edit α} {k k' : α → Edit β} {f : Forest}
    (he : e.run f = e'.run f) (hk : ∀ a g, e'.run f = .ok a g → (k a).run g = (k' a).run g) :
    (e >>= k).run f = (e' >>= k').run f := by
  rw [EStateM.run_bind, EStateM.run_bind, he]
  cases h : e'.run f with
  | ok a g => exact hk a g h
  | error => rfl

/-- Visiting two lists is visiting one after the other. -/
theorem sumOver_append (visit : NodeId → Edit Nat) (xs ys : List NodeId) :
    sumOver visit (xs ++ ys) = (do
      let here ← sumOver visit xs
      let later ← sumOver visit ys
      pure (here + later)) := by
  induction xs with
  | nil => simp only [List.nil_append, sumOver, pure_bind, Nat.zero_add, bind_pure]
  | cons x xs ih =>
    simp only [List.cons_append, sumOver, ih, bind_assoc, pure_bind, Nat.add_assoc]

/-- What a pass does at a node depends on what a walk sees of it. -/
theorem run_runAt (p : Pass) (depth : Nat) (id : NodeId) (f : Forest) :
    (runAt p (depth + 1) id).run f =
      match f.role id with
      | .body isRule => if isRule || walksAll p then (runStages id p.stages).run f else .ok 0 f
      | .rules cs => (sumOver (runAt p depth) cs).run f
      | _ => .ok 0 f := by
  rw [runAt, EStateM.run_bind, EStateM.run_get]
  simp only [role]
  cases f.content? id with
  | none => rfl
  | some c =>
    cases c with
    | atBlock name prelude nested cs =>
      cases nested with
      | true => rfl
      | false => by_cases h : p.reach = .blocks <;> simp [h, Content.role, walksAll]
    | _ => rfl

/-- The bodies that the walk meets are those that it would find at the start. -/
theorem run_walk {p : Pass} (hind : Stage.Independent p.stages) : ∀ (depth : Nat)
    (ids : List NodeId) {f : Forest}, f.Sound → ids.Pairwise f.Apart → (∀ id ∈ ids, id < f.fresh) →
    (sumOver (runAt p depth) ids).run f =
      (sumOver (fun b => runStages b p.stages) (f.blocksWithin (walksAll p) depth ids)).run f
  | 0, [], _, _, _, _ => rfl
  | 0, _ :: ids, f, hf, ha, hlt => by
    rw [List.pairwise_cons] at ha
    rw [List.forall_mem_cons] at hlt
    rw [sumOver, EStateM.run_bind]
    change ((sumOver (runAt p 0) ids) >>= fun later => pure (0 + later)).run f = _
    simp only [Nat.zero_add, bind_pure]
    exact run_walk hind 0 ids hf ha.2 hlt.2
  | depth + 1, [], _, _, _, _ => rfl
  | depth + 1, id :: ids, f, hf, ha, hlt => by
    rw [List.pairwise_cons] at ha
    rw [List.forall_mem_cons] at hlt
    -- The first node, with all that is under it.
    have hfirst : (runAt p (depth + 1) id).run f = (sumOver (fun b => runStages b p.stages)
        (f.blocksAt (walksAll p) depth id)).run f := by
      rw [run_runAt, blocksAt_of_role]
      cases hr : f.role id with
      | body isRule =>
        dsimp only
        split
        · simp [sumOver]
        · rfl
      | rules cs =>
        have hc : f.children? id = some cs := children?_of_role hr
        exact run_walk hind depth cs hf (apart_children hf hc) fun k hk => hf.lt_fresh_of_mem hc hk
      | _ => rfl
    rw [blocksWithin_succ, List.flatMap_cons, sumOver_append, sumOver]
    -- The others are walked in the forest that the first has left. What a walk visits depends on the roles
    -- of the nodes, and a run changes none.
    refine run_bind_congr hfirst fun n g hrun => ?_
    have hbodies : ∀ b ∈ f.blocksAt (walksAll p) depth id, f.IsBody b := fun b hb =>
      have hb' : b ∈ f.blocksWithin (walksAll p) (depth + 1) [id] := by
        simpa [blocksWithin_succ] using hb
      isBody_of_mem_blocksWithin hb'
    have hapart : (f.blocksAt (walksAll p) depth id).Pairwise f.Apart := by
      have h : (f.blocksWithin (walksAll p) (depth + 1) [id]).Pairwise f.Apart :=
        apart_blocksWithin hf (List.pairwise_singleton f.Apart id)
      simpa [blocksWithin_succ] using h
    have hends := ends_sumOver hind hf hbodies hapart
    rw [Ends, hrun] at hends
    have hr := hends.1
    refine run_bind_congr ?_ fun _ _ _ => rfl
    rw [← blocksWithin_succ, ← blocksWithin_of_role hr.role_eq]
    refine run_walk hind (depth + 1) ids (hr.sound hf) (ha.2.imp_of_mem fun hx hy h => ?_) ?_
    · exact hr.apart hf (hlt.2 _ hx) (hlt.2 _ hy) h
    · exact fun k hk => Nat.lt_of_lt_of_le (hlt.2 k hk) hr.grows

/-! ## 4. The pass -/

/-- A pass whose stages are independent refuses a declaration in one of the bodies that it goes to,
or rewrites all these bodies as its stages decide about each declaration. -/
theorem ends_runPass {p : Pass} (hind : Stage.Independent p.stages) {f : Forest} (hf : f.Sound) :
    (runPass p).Ends f
      (fun n g => Replacements (fun d pairs => ∃ s ∈ p.stages, s.may d pairs) f g ∧
        n = ((f.bodiesFor p).flatMap f.declarationsIn).countP
          (fun d => (Stage.decided? p.stages d).isSome) ∧
        ((f.bodiesFor p).forM fun b => Stage.checkAll p.stages (f.declarationsIn b)) = .ok () ∧
        Swept (Stage.decided? p.stages) f g (f.bodiesFor p))
      (fun e g => (∃ cause, e = .overlong cause ∧
        ((f.bodiesFor p).forM fun b => Stage.checkAll p.stages (f.declarationsIn b)) =
          .error cause) ∧
        Replacements (fun d pairs => ∃ s ∈ p.stages, s.may d pairs) f g) := by
  rw [runPass]
  refine .bind_ok rfl ?_
  have hroot : (f.children root).Pairwise f.Apart := by
    rw [children]
    cases hc : f.children? root with
    | none => exact .nil
    | some cs => exact apart_children hf hc
  have hbodies : ∀ b ∈ f.bodiesFor p, f.IsBody b := fun b hb => isBody_of_mem_blocksWithin hb
  have hends := ends_sumOver hind hf hbodies (apart_blocksWithin hf hroot)
  rw [Ends] at hends ⊢
  rw [run_walk hind f.depth _ hf hroot fun k hk => lt_fresh_of_mem_children hf hk]
  exact hends

end Edit

end CssExpand
