import CssExpand.Proofs.Forest.PassSheet
import CssExpand.Proofs.Longhands.Stages

/-!
# Taking shorthands apart keeps the cascade

A body is read as a cascade by letting every declaration stand for its longhands, where the value of
a shorthand has the shape that its grammar asks for, and for itself otherwise (`standsFor`). The
declaration that wins a property is the last important one of the cascade, or the last one if none is
important (`winner`).

Taking a shorthand apart by one level does not change the cascade at all: what a declaration stands
for is, in the same order, what the declarations that take its place stand for
(`standsFor_takeApart`). That holds of the two levels of `border` as well, because a side of it
stands for the same line. So no run changes a cascade, wherever it stops, and after any number of runs
every property has the winner that it had before (`winner_afterRuns`).
-/

set_option autoImplicit false

namespace CssExpand

open Value

/-! ## 1. Cascades -/

/-- The longhands of a shorthand with their values, if the value has the shape it asks for. The
longhands of a border come side by side. -/
def Compound.reading? (s : Compound) (value : String) : Option (List (String × String)) :=
  match s with
  | .box name =>
    (Sides.ofWords? (words value)).map fun sides =>
      Side.all.map fun s => (name ++ "-" ++ s.name, sides.get s)
  | .columns =>
    match Columns.ofWords (words value) with
    | .ok c => some [("column-width", c.width.getD "auto"), ("column-count", c.count.getD "auto")]
    | .error _ => none
  | .border .all =>
    let line := Border.ofWords (words value)
    if line.isValid then
      some (Side.all.flatMap fun s =>
        BorderPart.all.map fun p => (borderLonghand s p, line.getFilled p))
    else none
  | .border (.side s) =>
    let line := Border.ofWords (words value)
    if line.isValid then some (BorderPart.all.map fun p => (borderLonghand s p, line.getFilled p))
    else none
  | .border (.part p) =>
    (Sides.ofWords? (words value)).map fun sides =>
      Side.all.map fun s => (borderLonghand s p, sides.get s)

/-- The entries of a cascade that a declaration stands for, as important as it is. -/
def Declaration.standsFor (d : Declaration) : List Declaration :=
  match (Compound.ofName? d.prop).bind (·.reading? d.value) with
  | some pairs => pairs.map d.replacedBy
  | none => [d]

/-- The cascade of a body. -/
def Forest.cascade (f : Forest) (body : NodeId) : List Declaration :=
  (f.declarationsIn body).flatMap Declaration.standsFor

/-- The value of a property in a cascade, and whether it is important. -/
def winner (entries : List Declaration) (prop : String) : Option (String × Bool) :=
  let mine := entries.filter (·.prop = prop)
  ((mine.filter (·.important)).getLast?.or mine.getLast?).map fun d => (d.value, d.important)

/-! ## 2. One level of taking apart -/

theorem standsFor_of_reading? {d : Declaration} {s : Compound} {pairs : List (String × String)}
    (hs : Compound.ofName? d.prop = some s) (h : s.reading? d.value = some pairs) :
    d.standsFor = pairs.map d.replacedBy := by
  rw [Declaration.standsFor, hs, Option.bind_some, h]

/-- What is no shorthand stands for itself. -/
theorem standsFor_of_ofName? {d : Declaration} (h : Compound.ofName? d.prop = none) :
    d.standsFor = [d] := by
  rw [Declaration.standsFor, h]
  rfl

theorem flatMap_standsFor_map {d : Declaration} {pairs : List (String × String)}
    (h : ∀ p ∈ pairs, Compound.ofName? p.1 = none) :
    (pairs.map d.replacedBy).flatMap Declaration.standsFor = pairs.map d.replacedBy := by
  have hself : ∀ e ∈ pairs.map d.replacedBy, e.standsFor = [e] := by
    intro e he
    obtain ⟨p, hp, rfl⟩ := List.mem_map.mp he
    exact standsFor_of_ofName? (h p hp)
  rw [List.flatMap_congr hself, List.flatMap_singleton']

/-- The box shorthands that there are. -/
theorem box_of_ofName? {n name : String} (h : Compound.ofName? n = some (.box name)) :
    name = "margin" ∨ name = "padding" := by
  rw [Compound.ofName?] at h
  split at h
  · next hn =>
    cases h
    simpa using hn
  · split at h
    · cases h
    · cases hb : BorderShorthand.ofName? n <;> simp [hb] at h

/-- The outputs of these shorthands are no shorthands themselves. -/
theorem ofName?_boxLonghand (s : Side) : Compound.ofName? ("margin" ++ "-" ++ s.name) = none ∧
    Compound.ofName? ("padding" ++ "-" ++ s.name) = none := by
  cases s <;> decide

theorem ofName?_borderLonghand (s : Side) (p : BorderPart) :
    Compound.ofName? (borderLonghand s p) = none := by
  cases s <;> cases p <;> decide

theorem ofName?_side (s : Side) :
    Compound.ofName? (BorderShorthand.side s).name = some (.border (.side s)) := by
  cases s <;> decide

theorem reading?_all {value : String} (h : (Border.ofWords (words value)).isValid = true) :
    (Compound.border .all).reading? value = some (Side.all.flatMap fun s =>
      BorderPart.all.map fun p =>
        (borderLonghand s p, (Border.ofWords (words value)).getFilled p)) :=
  if_pos h

theorem reading?_side {value : String} (h : (Border.ofWords (words value)).isValid = true)
    (s : Side) : (Compound.border (.side s)).reading? value = some (BorderPart.all.map fun p =>
      (borderLonghand s p, (Border.ofWords (words value)).getFilled p)) :=
  if_pos h

/-- Where one level gives the longhands themselves, they stand for what the shorthand stands for. -/
theorem standsFor_longhands {d : Declaration} {s : Compound} {pairs : List (String × String)}
    (hs : Compound.ofName? d.prop = some s) (h : s.reading? d.value = some pairs)
    (hplain : ∀ p ∈ pairs, Compound.ofName? p.1 = none) :
    d.standsFor = (pairs.map d.replacedBy).flatMap Declaration.standsFor := by
  rw [standsFor_of_reading? hs h, flatMap_standsFor_map hplain]

/-- The sides of a border each have the whole line as their value, so together they stand for what the
border stands for. This is the one shorthand with two levels. -/
theorem standsFor_border {d : Declaration} (hs : Compound.ofName? d.prop = some (.border .all))
    (hv : (Border.ofWords (words d.value)).isValid = true) :
    d.standsFor = ((Side.all.map fun side => ((BorderShorthand.side side).name, d.value)).map
      d.replacedBy).flatMap Declaration.standsFor := by
  have hside : ∀ side : Side,
      (d.replacedBy ((BorderShorthand.side side).name, d.value)).standsFor =
        BorderPart.all.map fun p => d.replacedBy
          (borderLonghand side p, (Border.ofWords (words d.value)).getFilled p) := by
    intro side
    have hs' : Compound.ofName? (d.replacedBy ((BorderShorthand.side side).name, d.value)).prop =
        some (.border (.side side)) := ofName?_side side
    rw [standsFor_of_reading? hs' (reading?_side hv side), List.map_map]
    rfl
  rw [standsFor_of_reading? hs (reading?_all hv), List.map_flatMap, List.map_map, List.flatMap_map]
  refine List.flatMap_congr fun side _ => ?_
  rw [Function.comp_apply, hside, List.map_map]
  rfl

/-- A declaration stands for what the declarations stand for that it is taken apart into. -/
theorem standsFor_takeApart {d : Declaration} {s : Compound} {pairs : List (String × String)}
    (hs : Compound.ofName? d.prop = some s) (h : s.takeApart d.value = .replace pairs) :
    d.standsFor = (pairs.map d.replacedBy).flatMap Declaration.standsFor := by
  match s with
  | .box name =>
    rw [Compound.takeApart, boxLonghands] at h
    split at h
    · next sides hsides =>
      cases h
      rw [standsFor_of_reading? hs (by rw [Compound.reading?, hsides]; rfl),
        flatMap_standsFor_map]
      · simp [Sides.toList]
      · intro p hp
        simp only [Sides.toList, List.map_map, List.mem_map] at hp
        obtain ⟨side, -, rfl⟩ := hp
        rcases box_of_ofName? hs with rfl | rfl
        · exact (ofName?_boxLonghand side).1
        · exact (ofName?_boxLonghand side).2
    · cases h
  | .columns =>
    rw [Compound.takeApart, columnLonghands] at h
    split at h
    · next c hc =>
      cases h
      refine standsFor_longhands hs (by rw [Compound.reading?, hc]) fun p hp => ?_
      simp only [List.mem_cons, List.not_mem_nil, or_false] at hp
      rcases hp with rfl | rfl
      · exact (by decide : Compound.ofName? "column-width" = none)
      · exact (by decide : Compound.ofName? "column-count" = none)
    · cases h
  | .border .all =>
    rw [Compound.takeApart, BorderShorthand.takeApart] at h
    split at h
    · next hv =>
      cases h
      exact standsFor_border hs hv
    · cases h
  | .border (.side side) =>
    simp only [Compound.takeApart, BorderShorthand.takeApart] at h
    split at h
    · next hv =>
      cases h
      refine standsFor_longhands hs (reading?_side hv side) fun p hp => ?_
      obtain ⟨part, -, rfl⟩ := List.mem_map.mp hp
      exact ofName?_borderLonghand side part
    · cases h
  | .border (.part part) =>
    rw [Compound.takeApart, BorderShorthand.takeApart] at h
    split at h
    · next sides hsides =>
      cases h
      rw [standsFor_of_reading? hs (by rw [Compound.reading?, hsides]; rfl),
        flatMap_standsFor_map]
      · simp [Sides.toList]
      · intro p hp
        simp only [Sides.toList, List.map_map, List.mem_map] at hp
        obtain ⟨side, -, rfl⟩ := hp
        exact ofName?_borderLonghand side part
    · cases h

/-! ## 3. Runs -/

namespace Forest

/-- The declarations in a body before and after one of them was replaced. -/
theorem Spliced.declarationsIn {f g : Forest} {block id : NodeId} {pre post : List NodeId}
    {d : Declaration} {pairs : List (String × String)}
    (h : Spliced f g block id pre post (pairs.map d.replacedBy)) (hf : f.Sound)
    (hd : f.declaration? id = some d) (hb : f.children? block = some (pre ++ id :: post)) :
    f.declarationsIn block = f.declarationsAmong pre ++ [d] ++ f.declarationsAmong post ∧
      g.declarationsIn block =
        f.declarationsAmong pre ++ pairs.map d.replacedBy ++ f.declarationsAmong post := by
  have hnodup := List.nodup_append.mp (hf.nodup hb)
  have hkept : ∀ k, k ∈ pre ++ id :: post → k ≠ id → g.declaration? k = f.declaration? k :=
    fun k hk hne => declaration?_congr
      (h.cell?_old (hf.lt_fresh_of_mem hb hk) (Nat.ne_of_gt (hf.lt_of_mem hb hk)) hne)
  have hpre : g.declarationsAmong pre = f.declarationsAmong pre :=
    List.filterMap_congr fun k hk => hkept k (List.mem_append_left _ hk) fun he =>
      hnodup.2.2 k hk id List.mem_cons_self he
  have hpost : g.declarationsAmong post = f.declarationsAmong post :=
    List.filterMap_congr fun k hk => hkept k (by simp [hk]) fun he =>
      (List.nodup_cons.mp hnodup.2.1).1 (he ▸ hk)
  have hnew : g.declarationsAmong (f.nextIds (pairs.map d.replacedBy).length) =
      pairs.map d.replacedBy := by
    have hcells := h.map_cell?_nextIds (lt_fresh_of_children? hb) (lt_fresh_of_declaration? hd)
    rw [List.map_map] at hcells
    exact (declarationsAmong_news hcells).1
  constructor
  · rw [Forest.declarationsIn, children, hb]
    simp [declarationsAmong, hd]
  · rw [Forest.declarationsIn, children, h.children?_block hb]
    simp only [Option.getD_some, declarationsAmong, List.filterMap_append] at hpre hpost hnew ⊢
    rw [hpre, hpost, hnew]

/-- The declarations in any other body stay. -/
theorem Spliced.declarationsIn_other {f g : Forest} {block id : NodeId} {pre post : List NodeId}
    {d : Declaration} {ds : List Declaration} (h : Spliced f g block id pre post ds) (hf : f.Sound)
    (hd : f.declaration? id = some d) (hb : f.children? block = some (pre ++ id :: post))
    {body : NodeId} (hne : body ≠ block) : g.declarationsIn body = f.declarationsIn body := by
  rw [Forest.declarationsIn, children, h.children?_other hd hb hne, ← children]
  refine List.filterMap_congr fun k hk => ?_
  have hlink : f.parent? k = some body := by
    cases hc : f.children? body with
    | none => simp [children, hc] at hk
    | some cs =>
      rw [children, hc] at hk
      exact hf.linked hc hk
  by_cases hkb : k = block
  · -- a body is no declaration, and neither is what it becomes
    have hnone : ∀ {f : Forest} {cs}, f.children? k = some cs → f.declaration? k = none := by
      intro f cs hc
      by_contra hsome
      obtain ⟨e, he⟩ := Option.ne_none_iff_exists'.mp hsome
      rw [children?_of_declaration? he] at hc
      cases hc
    rw [hnone (hkb ▸ h.children?_block hb), hnone (hkb ▸ hb)]
  · refine declaration?_congr (h.cell?_old (lt_fresh_of_mem_children hf hk) hkb ?_)
    rintro rfl
    have hid := hf.linked hb (List.mem_append_right pre List.mem_cons_self)
    exact hne (Option.some.inj (hlink.symm.trans hid))

/-- A step of the pass changes no cascade. -/
theorem cascade_replacement {ignored : Ignored} {f g : Forest} (hf : f.Sound)
    (h : Replacement (fun d pairs => ∃ s ∈ (Pass.longhands ignored).stages, s.may d pairs) f g)
    (body : NodeId) : g.cascade body = f.cascade body := by
  cases h with
  | @splice block id pre post d pairs _ hb hd hmay hs =>
    rw [cascade, cascade]
    by_cases hbody : body = block
    · obtain ⟨hold, hnew⟩ := hs.declarationsIn hf hd hb
      subst hbody
      rw [hold, hnew]
      obtain ⟨s, hname, htake⟩ := exists_compound_of_may hmay
      simp only [List.flatMap_append, List.flatMap_singleton, standsFor_takeApart hname htake]
    · rw [hs.declarationsIn_other hf hd hb hbody]
  | revalue _ _ _ _ hmay =>
    -- a shorthand is never given another value in place
    obtain ⟨s, -, htake⟩ := exists_compound_of_may hmay
    exact absurd (Compound.two_le_takeApart htake) (by simp)

/-- A run of the pass changes no cascade, wherever it stops. -/
theorem cascade_replacements {ignored : Ignored} {f g : Forest} (hf : f.Sound)
    (h : Replacements (fun d pairs => ∃ s ∈ (Pass.longhands ignored).stages, s.may d pairs) f g)
    (body : NodeId) : g.cascade body = f.cascade body :=
  (h.keeps (P := fun k => k.cascade body = f.cascade body)
    (fun hf hP hs => (cascade_replacement hf hs body).trans hP) hf rfl).2

end Forest

/-- The forest that an edit leaves, whether it fails or not. -/
def Edit.leaves {α : Type} (e : Edit α) (f : Forest) : Forest :=
  match e.run f with
  | .ok _ g => g
  | .error _ g => g

/-- The forest after runs of the pass, each with its own ignored properties. A run that fails leaves
what it did before, and the next one goes on from there. -/
def Forest.afterRuns (f : Forest) (sets : List Ignored) : Forest :=
  sets.foldl (fun f ignored => (Edit.runPass (.longhands ignored)).leaves f) f

open Forest

/-- What a single run leaves comes from replacements. -/
theorem replacements_leaves {f : Forest} (hf : f.Sound) (ignored : Ignored) :
    Replacements (fun d pairs => ∃ s ∈ (Pass.longhands ignored).stages, s.may d pairs) f
      ((Edit.runPass (.longhands ignored)).leaves f) := by
  have h := Edit.ends_runPass (separate_longhands ignored).independent hf
  rw [Edit.Ends] at h
  rw [Edit.leaves]
  cases hrun : (Edit.runPass (.longhands ignored)).run f with
  | ok n g =>
    rw [hrun] at h
    exact h.1
  | error e g =>
    rw [hrun] at h
    exact h.2

theorem afterRuns_keeps : ∀ (sets : List Ignored) {f : Forest}, f.Sound → f.IsSheet →
    (f.afterRuns sets).rules = f.rules ∧ ∀ body, (f.afterRuns sets).cascade body = f.cascade body
  | [], _, _, _ => ⟨rfl, fun _ => rfl⟩
  | ignored :: sets, f, hf, hroot => by
    have hr := replacements_leaves hf ignored
    obtain ⟨hrules, hcascade⟩ := afterRuns_keeps sets (hr.sound hf) (hr.isSheet hroot)
    exact ⟨hrules.trans (hr.blocksWithin_root hf hroot false),
      fun body => (hcascade body).trans (cascade_replacements hf hr body)⟩

/-- After any number of runs there are the same rules, and in each of them every property has the
value and the importance that it had before. Each run may leave other properties alone, and a run that
fails counts with what it did until then: the cascade is the same after every single replacement, so
it does not matter where the run stops. -/
theorem winner_afterRuns (sheet : Sheet) (sets : List Ignored) :
    ((ofSheet sheet).afterRuns sets).rules = (ofSheet sheet).rules ∧
      ∀ rule ∈ (ofSheet sheet).rules, ∀ prop,
        winner (((ofSheet sheet).afterRuns sets).cascade rule) prop =
          winner ((ofSheet sheet).cascade rule) prop := by
  obtain ⟨hrules, hcascade⟩ := afterRuns_keeps sets (sound_ofSheet sheet) (isSheet_ofSheet sheet)
  exact ⟨hrules, fun rule _ prop => by rw [hcascade rule]⟩

end CssExpand
