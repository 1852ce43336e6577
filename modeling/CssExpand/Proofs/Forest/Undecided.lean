import CssExpand.Proofs.Forest.PassSheet

/-!
# Runs that change nothing

A pass looks at the declarations of the bodies that it goes to, and changes the forest only where it
replaces one of them. If its stages accept these declarations and decide nothing about them, the run
leaves the forest as it is, cell by cell, and counts nothing (`run_runPass_of_settled`).
-/

set_option autoImplicit false

namespace CssExpand

/-- The stages accept a declaration and leave it alone. -/
def Stage.Settled (stages : List Stage) (d : Declaration) : Prop :=
  ∀ s ∈ stages, s.check d = .ok () ∧ s.pairs? d = none

/-- Together the stages decide nothing about a declaration that they leave alone. -/
theorem Stage.Settled.decided? {stages : List Stage} {d : Declaration} (h : Settled stages d) :
    decided? stages d = none :=
  List.findSome?_eq_none_iff.mpr fun s hs => (h s hs).2

theorem Stage.settled_of_decided? {stages : List Stage} {d : Declaration}
    (hc : ∀ s ∈ stages, s.check d = .ok ()) (hd : Stage.decided? stages d = none) :
    Settled stages d :=
  fun s hs => ⟨hc s hs, List.findSome?_eq_none_iff.mp hd s hs⟩

namespace Edit

open Forest

variable {f : Forest} {stage : Stage} {stages : List Stage}

/-- A stage that has nothing to do with a declaration leaves the forest as it is. -/
theorem run_runStageAt_of_undecided {id : NodeId} {d : Declaration}
    (hd : f.declaration? id = some d) (hc : stage.check d = .ok ())
    (hp : stage.pairs? d = none) : (runStageAt stage id).run f = .ok false f := by
  rw [runStageAt, EStateM.run_bind, run_declarationOf hd]
  simp only [hc]
  cases hv : stage.visit? d with
  | none => rfl
  | some v =>
    rw [Stage.pairs?_of_visit? hv] at hp
    cases hk : v.decision with
    | keep reason => simp [carryOut, Visit.changes, hk, Decision.pairs?]
    | replace pairs =>
      rw [hk] at hp
      cases hp

theorem run_runStageOn_of_undecided : ∀ {ids : List NodeId},
    (∀ id ∈ ids, ∃ d, f.declaration? id = some d ∧ stage.check d = .ok () ∧
      stage.pairs? d = none) → (runStageOn stage ids).run f = .ok 0 f
  | [], _ => rfl
  | id :: ids, h => by
    rw [List.forall_mem_cons] at h
    obtain ⟨⟨d, hd, hc, hp⟩, hids⟩ := h
    rw [runStageOn, EStateM.run_bind, run_runStageAt_of_undecided hd hc hp]
    simp only
    rw [EStateM.run_bind, run_runStageOn_of_undecided hids]
    rfl

/-- So do all the stages of a pass on a body whose declarations are settled. -/
theorem run_runStages_of_settled {block : NodeId} (hbody : f.IsBody block) :
    ∀ {stages : List Stage}, (∀ d ∈ f.declarationsIn block, Stage.Settled stages d) →
      (runStages block stages).run f = .ok 0 f
  | [], _ => rfl
  | s :: stages, h => by
    have hfirst : (runStageOn s (f.declarationsOf block)).run f = .ok 0 f := by
      refine run_runStageOn_of_undecided fun id hid => ?_
      rw [declarationsOf_body hbody hbody.children?, List.mem_filter] at hid
      obtain ⟨d, hd⟩ := Option.isSome_iff_exists.mp hid.2
      exact ⟨d, hd, h d (List.mem_filterMap.mpr ⟨id, hid.1, hd⟩) s List.mem_cons_self⟩
    have hothers : (runStages block stages).run f = .ok 0 f :=
      run_runStages_of_settled hbody fun d hd t ht => h d hd t (List.mem_cons_of_mem s ht)
    rw [runStages, EStateM.run_bind, EStateM.run_get]
    simp only
    rw [EStateM.run_bind, hfirst]
    simp only
    rw [EStateM.run_bind, hothers]
    rfl

theorem run_sumOver_of_idle {visit : NodeId → Edit Nat} : ∀ {ids : List NodeId},
    (∀ id ∈ ids, (visit id).run f = .ok 0 f) → (sumOver visit ids).run f = .ok 0 f
  | [], _ => rfl
  | id :: ids, h => by
    rw [List.forall_mem_cons] at h
    rw [sumOver, EStateM.run_bind, h.1]
    simp only
    rw [EStateM.run_bind, run_sumOver_of_idle h.2]
    rfl

/-- A pass that leaves alone all declarations that it meets leaves the forest as it is. -/
theorem run_runPass_of_settled {p : Pass} (hind : Stage.Independent p.stages) (hf : f.Sound)
    (h : ∀ b ∈ f.bodiesFor p, ∀ d ∈ f.declarationsIn b, Stage.Settled p.stages d) :
    (runPass p).run f = .ok 0 f := by
  have hidle : ∀ b ∈ f.bodiesFor p, (runStages b p.stages).run f = .ok 0 f := fun b hb =>
    run_runStages_of_settled (isBody_of_mem_blocksWithin hb) (h b hb)
  rw [runPass, EStateM.run_bind, EStateM.run_get]
  simp only
  rw [run_walk hind f.depth _ hf (siblings hf root) fun k hk => lt_fresh_of_mem_children hf hk]
  exact run_sumOver_of_idle hidle

end Edit

end CssExpand
