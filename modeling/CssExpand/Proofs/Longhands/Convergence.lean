import CssExpand.Proofs.Forest.Undecided
import CssExpand.Proofs.Longhands.Stages

/-!
# Taking shorthands apart comes to an end

A run takes every shorthand apart by one level. Only `border` has two levels: its sides are shorthands
themselves, of the same stage, so that the run which puts them in does not meet them. After a second
run there is nothing left to take apart, and if the first run met no `border` that it could take
apart, there is nothing left after it (`longhands_settle`).

The two lemmas that carry this are about one declaration and what a run puts in its place. Whatever
the run leaves is no `border` that could be taken apart (`isShallow_of_mem_rewrite`), and what it
leaves of a declaration of that kind is left alone from then on (`settled_of_mem_rewrite`).
-/

set_option autoImplicit false

namespace CssExpand

open Value Forest

variable {ignored : Ignored} {d e : Declaration}

/-! ## 1. One declaration -/

/-- What the pass decides about a declaration, whichever stage does. -/
def levelDown? (ignored : Ignored) : Declaration → Option (List (String × String)) :=
  Stage.decided? (Pass.longhands ignored).stages

/-- A declaration that the pass accepts and that is no `border` for it to take apart. It is what the
first run makes of every declaration, and what the second run needs to be the last one that does
anything. -/
structure Declaration.IsShallow (ignored : Ignored) (d : Declaration) : Prop where
  accepted : (Pass.longhands ignored).Accepts d
  border : d.prop = "border" → levelDown? ignored d = none

/-- All shorthands but `border` are taken apart into properties that are no shorthands. -/
theorem outputs_not_mem_stageNames : ∀ n ∈ stageNames.flatten, n ≠ "border" →
    ∀ output ∈ (Compound.ofName? n).elim [] Compound.outputs, output ∉ stageNames.flatten := by
  decide +kernel

theorem settled_of_not_mem (h : d.prop ∉ stageNames.flatten) :
    Stage.Settled (Pass.longhands ignored).stages d := fun s hs =>
  have hc := not_considers_of_not_mem h s hs
  ⟨Stage.check_of_not_considers hc, Stage.pairs?_of_not_considers hc⟩

/-- What is decided about a declaration is decided by a stage of its name. -/
theorem mem_stageNames_of_levelDown? {pairs : List (String × String)}
    (h : levelDown? ignored d = some pairs) : d.prop ∈ stageNames.flatten ∧
      ∀ pair ∈ pairs, pair.1 ∈ (Compound.ofName? d.prop).elim [] Compound.outputs := by
  obtain ⟨s, hs, hp⟩ := List.exists_of_findSome?_eq_some h
  rw [stages_longhands] at hs
  obtain ⟨names, hnames, rfl⟩ := List.mem_map.mp hs
  obtain ⟨hmem, hout⟩ := mem_outputs_of_pairs? hnames hp
  exact ⟨List.mem_flatten.mpr ⟨names, hnames, hmem⟩, hout⟩

/-- What is taken apart is neither protected nor a hack. -/
theorem of_levelDown? {pairs : List (String × String)} (h : levelDown? ignored d = some pairs) :
    d.isHack = false ∧ protectedBy? ignored d.prop d.value = none := by
  obtain ⟨s, hs, hp⟩ := List.exists_of_findSome?_eq_some h
  rw [stages_longhands] at hs
  obtain ⟨names, -, rfl⟩ := List.mem_map.mp hs
  rw [pairs?_longhandStage] at hp
  split at hp
  · next hc =>
    rw [Bool.and_eq_true, Bool.not_eq_true'] at hc
    refine ⟨hc.2, ?_⟩
    rw [pairs?_eq_some, longhands] at hp
    split at hp
    · cases hp
    · assumption
  · cases hp

/-- A `border` is taken apart into sides that have its value. -/
theorem pairs_of_border {pairs : List (String × String)} (hd : d.prop = "border")
    (h : levelDown? ignored d = some pairs) :
    pairs = Side.all.map fun s => ((BorderShorthand.side s).name, d.value) := by
  obtain ⟨s, hs, hp⟩ := List.exists_of_findSome?_eq_some h
  obtain ⟨s, hname, htake⟩ := exists_compound_of_may ⟨s, hs, hp⟩
  rw [hd, show Compound.ofName? "border" = some (.border .all) by decide] at hname
  obtain rfl := Option.some.inj hname
  rw [Compound.takeApart, BorderShorthand.takeApart] at htake
  split at htake
  · exact (Decision.replace.inj htake).symm
  · cases htake

/-- The pass accepts a shorthand exactly if it is a hack or its value can be read. -/
theorem accepts_longhands_iff (h : d.prop ∈ stageNames.flatten) :
    (Pass.longhands ignored).Accepts d ↔
      (d.isHack = false → checkLonghands ignored d.prop d.value = .ok ()) := by
  obtain ⟨names, hnames, hin⟩ := List.mem_flatten.mp h
  constructor
  · intro ha hhack
    have hs := ha (Pass.longhandStage ignored names)
      (by rw [stages_longhands]; exact List.mem_map_of_mem hnames)
    rw [check_longhandStage] at hs
    simpa [hin, hhack] using hs
  · intro hc s hs
    rw [stages_longhands] at hs
    obtain ⟨names, -, rfl⟩ := List.mem_map.mp hs
    rw [check_longhandStage]
    split
    · next hcond =>
      rw [Bool.and_eq_true, Bool.not_eq_true'] at hcond
      exact hc hcond.2
    · rfl

/-- A side of a `border` that was accepted is accepted: the same words are read again. -/
theorem accepts_side (side : Side) (hd : d.prop = "border")
    (ha : (Pass.longhands ignored).Accepts d) {pairs : List (String × String)}
    (h : levelDown? ignored d = some pairs) :
    (Pass.longhands ignored).Accepts (d.replacedBy ((BorderShorthand.side side).name, d.value)) := by
  obtain ⟨hhack, hprot⟩ := of_levelDown? h
  have hline : BorderShorthand.all.check d.value = .ok () := by
    have hc := (accepts_longhands_iff (mem_stageNames_of_levelDown? h).1).mp ha hhack
    rw [checkLonghands, hprot, hd, show Compound.ofName? (Text.lower "border") =
      some (.border .all) by decide +kernel] at hc
    exact hc
  have hmem : (BorderShorthand.side side).name ∈ stageNames.flatten := by
    cases side <;> decide
  refine (accepts_longhands_iff hmem).mpr fun _ => ?_
  change checkLonghands ignored (BorderShorthand.side side).name d.value = .ok ()
  rw [checkLonghands, lower_stageNames _ hmem,
    show Compound.ofName? (BorderShorthand.side side).name = some (.border (.side side)) by
      cases side <;> decide]
  split
  · next s _ hs =>
    obtain rfl := Option.some.inj hs
    exact hline
  · rfl

/-- What a run leaves of a declaration that it accepts is no `border` that could be taken apart. -/
theorem isShallow_of_mem_rewrite (ha : (Pass.longhands ignored).Accepts d)
    (he : e ∈ d.rewrite (levelDown? ignored)) : e.IsShallow ignored := by
  cases h : levelDown? ignored d with
  | none =>
    rw [Declaration.rewrite_none h, List.mem_singleton] at he
    exact he ▸ ⟨ha, fun _ => h⟩
  | some pairs =>
    rw [Declaration.rewrite_some h] at he
    obtain ⟨pair, hpair, rfl⟩ := List.mem_map.mp he
    by_cases hd : d.prop = "border"
    · rw [pairs_of_border hd h] at hpair
      obtain ⟨side, -, rfl⟩ := List.mem_map.mp hpair
      refine ⟨accepts_side side hd ha h, fun hs => ?_⟩
      have hne : (BorderShorthand.side side).name ≠ "border" := by cases side <;> decide
      exact absurd hs hne
    · obtain ⟨hmem, hout⟩ := mem_stageNames_of_levelDown? h
      have hset : Stage.Settled (Pass.longhands ignored).stages (d.replacedBy pair) :=
        settled_of_not_mem (outputs_not_mem_stageNames _ hmem hd _ (hout pair hpair))
      exact ⟨fun s hs => (hset s hs).1, fun _ => hset.decided?⟩

/-- What a run leaves of any other declaration is left alone from then on. -/
theorem settled_of_mem_rewrite (hd : d.IsShallow ignored)
    (he : e ∈ d.rewrite (levelDown? ignored)) :
    Stage.Settled (Pass.longhands ignored).stages e := by
  cases h : levelDown? ignored d with
  | none =>
    rw [Declaration.rewrite_none h, List.mem_singleton] at he
    exact he ▸ Stage.settled_of_decided? hd.accepted h
  | some pairs =>
    rw [Declaration.rewrite_some h] at he
    obtain ⟨pair, hpair, rfl⟩ := List.mem_map.mp he
    obtain ⟨hmem, hout⟩ := mem_stageNames_of_levelDown? h
    have hne : d.prop ≠ "border" := by
      intro hb
      rw [hd.border hb] at h
      cases h
    exact settled_of_not_mem (outputs_not_mem_stageNames _ hmem hne _ (hout pair hpair))

/-! ## 2. Visits -/

/-- A declaration that the stages decide about is visited and replaced. -/
theorem exists_visit : ∀ {stages : List Stage} {body : List Node}, d ∈ Node.declarations body →
    (Stage.decided? stages d).isSome = true →
    ∃ v ∈ (Pass.stageBodies stages body).flatMap fun m => m.1.visits m.2,
      v.changes = true ∧ v.declaration = d
  | [], _, _, h => by cases h
  | s :: stages, body, hd, h => by
    rw [Pass.stageBodies, List.flatMap_cons]
    rw [Stage.decided?_cons] at h
    cases hp : s.pairs? d with
    | some pairs =>
      obtain ⟨v, hv, hdecided⟩ := Option.bind_eq_some_iff.mp hp
      have hdecl : v.declaration = d := by
        rw [Stage.visit?] at hv
        split at hv
        · exact Option.some.inj hv ▸ rfl
        · cases hv
      refine ⟨v, List.mem_append_left _ (List.mem_filterMap.mpr ⟨d, hd, hv⟩), ?_, hdecl⟩
      rw [Visit.changes, hdecided, Option.isSome_some]
    | none =>
      -- the stage leaves the declaration where it is, for the later ones to meet
      have hstays : d ∈ Node.declarations (s.apply body) := by
        rw [Stage.apply_eq, Node.declarations_rewrite]
        exact List.mem_flatMap.mpr ⟨d, hd, by simp [Declaration.rewrite_none hp]⟩
      rw [hp, Option.none_or] at h
      obtain ⟨v, hv, hfound⟩ := exists_visit hstays h
      exact ⟨v, List.mem_append_right _ hv, hfound⟩

/-- No `border` is taken apart in a stylesheet. -/
def LeavesBorders (ignored : Ignored) (sheet : Sheet) : Prop :=
  ∀ v ∈ (Pass.longhands ignored).visits sheet, v.changes = true → v.declaration.prop ≠ "border"

theorem isShallow_of_leavesBorders {sheet : Sheet} (h : LeavesBorders ignored sheet)
    {body : List Node} (hbody : body ∈ (Pass.longhands ignored).listBodies sheet)
    (hd : d ∈ Node.declarations body)
    (ha : (Pass.longhands ignored).Accepts d) : d.IsShallow ignored := by
  refine ⟨ha, fun hborder => ?_⟩
  by_contra hdecided
  obtain ⟨v, hv, hchanges, rfl⟩ := exists_visit hd (Option.isSome_iff_ne_none.mpr hdecided)
  rw [List.mem_flatMap] at hv
  obtain ⟨m, hm, hv⟩ := hv
  have hvisit : v ∈ (Pass.longhands ignored).visits sheet :=
    List.mem_flatMap.mpr ⟨m, List.mem_flatMap.mpr ⟨body, hbody, hm⟩, hv⟩
  exact h v hvisit hchanges hborder

/-! ## 3. Runs -/

variable {f : Forest}

/-- All declarations that the pass meets in a forest have a property. -/
def Forest.AllMet (ignored : Ignored) (f : Forest) (P : Declaration → Prop) : Prop :=
  ∀ b ∈ f.bodiesFor (.longhands ignored), ∀ d ∈ f.declarationsIn b, P d

theorem check_eq_ok_iff_allMet (hf : f.Sound) :
    (Pass.longhands ignored).check f.sheet = .ok () ↔
      f.AllMet ignored (Pass.longhands ignored).Accepts := by
  rw [check_sheet hf, Stage.forM_eq_ok]
  exact forall₂_congr fun b _ => (separate_longhands ignored).checkAll_eq_ok

/-- After a run a forest holds, in place of all declarations that the run met, what it made of
them. -/
theorem Edit.ends_level (hf : f.Sound) (hroot : f.IsSheet) {P Q : Declaration → Prop}
    (hP : f.AllMet ignored P)
    (hstep : ∀ d, (Pass.longhands ignored).Accepts d → P d →
      ∀ e ∈ d.rewrite (levelDown? ignored), Q e) :
    (runPass (.longhands ignored)).Ends f
      (fun _ g => (g.Sound ∧ g.IsSheet) ∧ g.AllMet ignored Q)
      (fun e _ => ∃ cause, e = .overlong cause ∧
        (Pass.longhands ignored).check f.sheet = .error cause) := by
  have hind := (separate_longhands ignored).independent
  rw [check_sheet hf]
  refine (ends_runPass hind hf).mono ?_ fun e g h => h.1
  rintro n g ⟨hr, -, hc, hs⟩
  have haccepts := (check_eq_ok_iff_allMet hf).mp ((check_sheet hf _).trans hc)
  refine ⟨⟨hr.sound hf, hr.isSheet hroot⟩, fun b hb e he => ?_⟩
  rw [bodiesFor, hr.blocksWithin_root hf hroot] at hb
  rw [(hs.bodies b hb).declarationsIn (isBody_of_mem_blocksWithin hb)] at he
  obtain ⟨d, hd, he⟩ := List.mem_flatMap.mp he
  exact hstep d (haccepts b hb d hd) (hP b hb d hd) e he

/-- Once there is no `border` left to take apart, one more run takes apart all that is left. -/
theorem Edit.exists_last_level (hf : f.Sound) (hroot : f.IsSheet)
    (h : f.AllMet ignored (Declaration.IsShallow ignored)) :
    ∃ n g, (runPass (.longhands ignored)).run f = .ok n g ∧
      (runPass (.longhands ignored)).run g = .ok 0 g := by
  have hind := (separate_longhands ignored).independent
  have hends := ends_level hf hroot h fun d _ hd e he => settled_of_mem_rewrite hd he
  have hcheck := (check_eq_ok_iff_allMet hf).mpr fun b hb d hd => (h b hb d hd).accepted
  rw [Ends] at hends
  split at hends
  · next n g hrun =>
    obtain ⟨⟨hg, -⟩, hsettled⟩ := hends
    exact ⟨n, g, hrun, run_runPass_of_settled hind hg hsettled⟩
  · obtain ⟨cause, -, hrefused⟩ := hends
    rw [hcheck] at hrefused
    cases hrefused

/-- Two runs take apart all that can be taken apart, so that a third one leaves the forest as it is,
and if the first run takes no `border` apart, so does the second one. The first run fails only on an
overlong integer, and the later ones do not fail at all. -/
theorem longhands_settle (sheet : Sheet) (ignored : Ignored) :
    (Edit.runPass (.longhands ignored)).Ends (ofSheet sheet)
      (fun _ f => ∃ n g, (Edit.runPass (.longhands ignored)).run f = .ok n g ∧
        (Edit.runPass (.longhands ignored)).run g = .ok 0 g ∧
        (LeavesBorders ignored sheet → n = 0 ∧ g = f))
      (fun e _ => ∃ cause, e = .overlong cause ∧
        (Pass.longhands ignored).check sheet = .error cause) := by
  have hind := (separate_longhands ignored).independent
  have hf := sound_ofSheet sheet
  -- every declaration is shallow after the first run, and settled if it was shallow before
  have hends := Edit.ends_level hf (isSheet_ofSheet sheet)
    (P := fun d => LeavesBorders ignored sheet → (Pass.longhands ignored).Accepts d →
      d.IsShallow ignored)
    (Q := fun e => e.IsShallow ignored ∧
      (LeavesBorders ignored sheet → Stage.Settled (Pass.longhands ignored).stages e))
    (?_ : (ofSheet sheet).AllMet ignored _) ?_
  · rw [sheet_ofSheet] at hends
    refine hends.mono ?_ fun e g h => h
    rintro - f ⟨⟨hsound, hsheet⟩, hall⟩
    obtain ⟨n, g, hsecond, hthird⟩ :=
      Edit.exists_last_level hsound hsheet fun b hb d hd => (hall b hb d hd).1
    refine ⟨n, g, hsecond, hthird, fun hnone => ?_⟩
    have hidle := Edit.run_runPass_of_settled hind hsound fun b hb d hd => (hall b hb d hd).2 hnone
    rw [hidle] at hsecond
    cases hsecond
    exact ⟨rfl, rfl⟩
  · intro b hb d hd hnone ha
    have hbodies := bodies_sheet hf (.longhands ignored)
    rw [sheet_ofSheet] at hbodies
    have hmem : (ofSheet sheet).declarationsIn b ∈
        ((Pass.longhands ignored).listBodies sheet).map Node.declarations :=
      hbodies ▸ List.mem_map_of_mem hb
    obtain ⟨body, hbody, heq⟩ := List.mem_map.mp hmem
    exact isShallow_of_leavesBorders hnone hbody (heq ▸ hd) ha
  · intro d ha hP e he
    exact ⟨isShallow_of_mem_rewrite ha he, fun hnone => settled_of_mem_rewrite (hP hnone ha) he⟩

/-- The second run is needed for a `border`. -/
example : let sheet : Sheet := [.rule "a" [.declaration ⟨"border", "0", false⟩]]
    ((Pass.longhands .nothing).count sheet,
      (Pass.longhands .nothing).count ((Pass.longhands .nothing).apply sheet)) = (1, 4) := by
  decide +kernel

end CssExpand
