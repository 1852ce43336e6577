import CssExpand.Proofs.Forest.StageRun

/-!
# Running the stages of a pass on a body

Each stage meets the body as the one before it left it. If no stage decides anything about what an
earlier one put in (`Stage.Independent`), the stages together do what one stage would do that asks
them in turn about every declaration (`Stage.decided?`): two rewritings in a row are one
(`Restaged.trans`), and the order in which they ran cannot be seen in the result.

What the stages refuse and how many declarations they replace are read off the declarations of the
body alone (`Stage.checkAll`, `Stage.replacedBy?`).
-/

set_option autoImplicit false

namespace CssExpand

/-- What a decision makes of a declaration. -/
def Declaration.rewrite (pairs? : Declaration → Option (List (String × String)))
    (d : Declaration) : List Declaration :=
  match pairs? d with
  | some pairs => pairs.map d.replacedBy
  | none => [d]

namespace Stage

/-- No stage decides anything about what an earlier one put in. -/
def Independent (stages : List Stage) : Prop :=
  stages.Pairwise fun s t => ∀ d pairs, s.pairs? d = some pairs →
    ∀ pair ∈ pairs, t.pairs? (d.replacedBy pair) = none

/-- What the first stage decides that decides anything about a declaration. -/
def decided? (stages : List Stage) (d : Declaration) : Option (List (String × String)) :=
  stages.findSome? (·.pairs? d)

/-- Refuses declarations of which some stage that comes to them refuses one. -/
def checkAll : List Stage → List Declaration → Except Syntax.OverlongInteger Unit
  | [], _ => .ok ()
  | s :: stages, ds => do
    ds.forM s.check
    checkAll stages (ds.flatMap (Declaration.rewrite s.pairs?))

theorem decided?_cons (s : Stage) (stages : List Stage) (d : Declaration) :
    decided? (s :: stages) d = (s.pairs? d).or (decided? stages d) := by
  rw [decided?, List.findSome?_cons]
  cases s.pairs? d <;> rfl

/-- Later stages together decide nothing about what the first one put in. -/
theorem Independent.later {s : Stage} {stages : List Stage} (h : Independent (s :: stages))
    (d : Declaration) (pairs : List (String × String)) (hd : s.pairs? d = some pairs) :
    ∀ pair ∈ pairs, decided? stages (d.replacedBy pair) = none := fun pair hp =>
  List.findSome?_eq_none_iff.mpr fun t ht => (List.pairwise_cons.mp h).1 t ht d pairs hd pair hp

end Stage

namespace Forest

variable {q q₁ q₂ : Declaration → Option (List (String × String))}

/-! ## 1. Reading rewritten children -/

/-- A rewritten child is an old one or a new node. -/
theorem Rewrites.mem {f g : Forest} {block : NodeId} {cs cs' : List NodeId}
    (h : Rewrites q f g block cs cs') {k : NodeId} (hk : k ∈ cs') : k ∈ cs ∨ f.fresh ≤ k := by
  induction h with
  | nil => cases hk
  | @cons id out cs cs' first _ ih =>
    rcases List.mem_append.mp hk with hk | hk
    · cases first with
      | kept => exact .inl (List.mem_singleton.mp hk ▸ List.mem_cons_self)
      | replaced _ _ _ _ hf => exact .inr (hf k hk)
      | revalued => exact .inl (List.mem_singleton.mp hk ▸ List.mem_cons_self)
    · exact (ih hk).imp_left (List.mem_cons_of_mem id)

/-- The parts of a list are rewritten by themselves. -/
theorem Rewrites.of_append {f g : Forest} {block : NodeId} :
    ∀ {xs ys zs : List NodeId}, Rewrites q f g block (xs ++ ys) zs →
      ∃ a b, zs = a ++ b ∧ Rewrites q f g block xs a ∧ Rewrites q f g block ys b
  | [], _, zs, h => ⟨[], zs, rfl, .nil, h⟩
  | x :: xs, ys, _, h => by
    cases h with
    | @cons _ out _ cs' first others =>
      obtain ⟨a, b, rfl, ha, hb⟩ := others.of_append
      exact ⟨out ++ a, b, (List.append_assoc out a b).symm, .cons first ha, hb⟩

/-- What nothing is decided about stays as it is. -/
theorem Rewrites.of_undecided {f g : Forest} {block : NodeId} {cs cs' : List NodeId}
    (h : Rewrites q f g block cs cs')
    (hu : ∀ k ∈ cs, ∀ d, f.declaration? k = some d → q d = none) :
    cs' = cs ∧ ∀ k ∈ cs, g.cell? k = f.cell? k := by
  induction h with
  | nil => exact ⟨rfl, fun _ hk => absurd hk List.not_mem_nil⟩
  | cons first _ ih =>
    rw [List.forall_mem_cons] at hu
    obtain ⟨rfl, hcs⟩ := ih hu.2
    cases first with
    | kept _ hs => exact ⟨rfl, List.forall_mem_cons.mpr ⟨hs, hcs⟩⟩
    | replaced hd hp => rw [hu.1 _ hd] at hp; cases hp
    | revalued hd hp => rw [hu.1 _ hd] at hp; cases hp

/-- An outcome depends on what is decided about the node itself only. -/
theorem Outcome.of_decision {f g : Forest} {block id : NodeId} {out : List NodeId}
    (h : Outcome q₁ f g block id out) (hq : ∀ d, f.declaration? id = some d → q₂ d = q₁ d) :
    Outcome q₂ f g block id out := by
  cases h with
  | kept hu hs => exact .kept (fun d hd => (hq d hd).trans (hu d hd)) hs
  | replaced hd hp ha hc hf hn => exact .replaced hd ((hq _ hd).trans hp) ha hc hf hn
  | revalued hd hp hc => exact .revalued hd ((hq _ hd).trans hp) hc

theorem declaration?_of_cell? {f : Forest} {id : NodeId} {c : Cell} (h : f.cell? id = some c) :
    f.declaration? id = c.content.declaration? := by
  rw [declaration?, content?_of_cell? h]
  rfl

/-- The declaration that gets a value in place. -/
theorem declaration?_revalued {f g : Forest} {id : NodeId} {d : Declaration} {value : String}
    (hd : f.declaration? id = some d) (hc : g.cell? id = (f.cell? id).map (·.revalued value)) :
    g.declaration? id = some (d.replacedBy (d.prop, value)) := by
  obtain ⟨⟨content, parent⟩, hcell, rfl⟩ := exists_cell?_of_declaration? hd
  rw [hcell] at hc
  exact declaration?_of_cell? hc

/-- The declarations that a splice put in. -/
theorem declarationsAmong_news {g : Forest} {block : NodeId} {d : Declaration} :
    ∀ {news : List NodeId} {pairs : List (String × String)},
      news.map g.cell? = pairs.map (fun p => some ⟨.declaration (d.replacedBy p), some block⟩) →
      g.declarationsAmong news = pairs.map d.replacedBy ∧
        ∀ k ∈ news, ∀ e, g.declaration? k = some e → ∃ p ∈ pairs, e = d.replacedBy p
  | [], [], _ => ⟨rfl, fun _ hk => absurd hk List.not_mem_nil⟩
  | k :: news, p :: pairs, h => by
    rw [List.map_cons, List.map_cons, List.cons.injEq] at h
    have hk : g.declaration? k = some (d.replacedBy p) := declaration?_of_cell? h.1
    obtain ⟨hnews, hmem⟩ := declarationsAmong_news h.2
    refine ⟨?_, List.forall_mem_cons.mpr ⟨fun e he => ?_, fun k' hk' e he => ?_⟩⟩
    · rw [declarationsAmong, List.filterMap_cons, hk, List.map_cons, ← hnews]
      rfl
    · rw [hk, Option.some.injEq] at he
      exact ⟨p, List.mem_cons_self, he.symm⟩
    · obtain ⟨p', hp', rfl⟩ := hmem k' hk' e he
      exact ⟨p', List.mem_cons_of_mem _ hp', rfl⟩
  | [], _ :: _, h => by cases h
  | _ :: _, [], h => by cases h

/-- The declarations among rewritten children are the old ones rewritten. -/
theorem Rewrites.declarationsAmong {f g : Forest} {block : NodeId} {cs cs' : List NodeId}
    (h : Rewrites q f g block cs cs') :
    g.declarationsAmong cs' = (f.declarationsAmong cs).flatMap (Declaration.rewrite q) := by
  induction h with
  | nil => rfl
  | @cons id out cs cs' first others ih =>
    rw [Forest.declarationsAmong, List.filterMap_append]
    rw [Forest.declarationsAmong] at ih
    rw [ih]
    cases first with
    | kept hu hs =>
      cases hd : f.declaration? id with
      | none => simp [Forest.declarationsAmong, declaration?_congr hs, hd]
      | some d =>
        simp [Forest.declarationsAmong, declaration?_congr hs, hd, Declaration.rewrite, hu d hd]
    | @replaced d pairs _ hd hp _ _ _ hn =>
      have hnews := (declarationsAmong_news hn).1
      rw [Forest.declarationsAmong] at hnews
      simp [Forest.declarationsAmong, hd, Declaration.rewrite, hp, hnews]
    | @revalued d value hd hp hc =>
      simp [Forest.declarationsAmong, hd, Declaration.rewrite, hp, declaration?_revalued hd hc]

/-! ## 2. Two rewritings in a row -/

/-- A node that was taken out is no child of the block any more. -/
theorem not_mem_of_detached {f g : Forest} (hg : g.Sound) {block id : NodeId} {cs : List NodeId}
    (hb : g.children? block = some cs) (hc : g.cell? id = (f.cell? id).map Cell.detached) :
    id ∉ cs := by
  intro hk
  have hp := hg.linked hb hk
  rw [parent?_eq, hc] at hp
  cases h : f.cell? id <;> simp [h, Cell.detached] at hp

/-- A child rewritten by one decision and then, with what came of it, by another one is rewritten by
the first of them that decides anything. -/
theorem Outcome.trans {f g₁ g : Forest} {block id : NodeId} {out out' : List NodeId}
    (hind : ∀ d pairs, q₁ d = some pairs → ∀ p ∈ pairs, q₂ (d.replacedBy p) = none)
    (h₁ : Outcome q₁ f g₁ block id out) (h : Rewrites q₂ g₁ g block out out')
    (hgrows : f.fresh ≤ g₁.fresh)
    (hgone : g₁.cell? id = (f.cell? id).map Cell.detached → g.cell? id = g₁.cell? id) :
    Outcome (fun d => (q₁ d).or (q₂ d)) f g block id out' := by
  cases h₁ with
  | kept hu hs =>
    cases h with
    | cons first others =>
      cases others
      rw [List.append_nil]
      refine (first.of_before hs hgrows).of_decision fun d hd => ?_
      simp [hu d hd]
  | @replaced d pairs news hd hp ha hc hf hn =>
    have hu : ∀ k ∈ out, ∀ e, g₁.declaration? k = some e → q₂ e = none := by
      intro k hk e he
      obtain ⟨p, hpm, rfl⟩ := (declarationsAmong_news hn).2 k hk e he
      exact hind d pairs hp p hpm
    obtain ⟨rfl, hcells⟩ := h.of_undecided hu
    refine .replaced hd (by simp [hp]) ha ((hgone hc).trans hc) hf ?_
    rw [← hn]
    exact List.map_congr_left hcells
  | @revalued d value hd hp hc =>
    have hu : ∀ k ∈ [id], ∀ e, g₁.declaration? k = some e → q₂ e = none := by
      intro k hk e he
      rw [List.mem_singleton.mp hk, declaration?_revalued hd hc, Option.some.injEq] at he
      exact he ▸ hind d _ hp _ List.mem_cons_self
    obtain ⟨rfl, hcells⟩ := h.of_undecided hu
    exact .revalued hd (by simp [hp]) ((hcells id List.mem_cons_self).trans hc)

/-- Two rewritings one after the other are one, if the second leaves alone what the first has made. -/
theorem Rewrites.trans {f g₁ g : Forest} {block : NodeId} {cs cs₁ cs' : List NodeId}
    (hind : ∀ d pairs, q₁ d = some pairs → ∀ p ∈ pairs, q₂ (d.replacedBy p) = none)
    (h₁ : Rewrites q₁ f g₁ block cs cs₁) (h : Rewrites q₂ g₁ g block cs₁ cs')
    (hgrows : f.fresh ≤ g₁.fresh)
    (hgone : ∀ id ∈ cs, g₁.cell? id = (f.cell? id).map Cell.detached →
      g.cell? id = g₁.cell? id) :
    Rewrites (fun d => (q₁ d).or (q₂ d)) f g block cs cs' := by
  induction h₁ generalizing cs' with
  | nil =>
    cases h
    exact .nil
  | cons first _ ih =>
    rw [List.forall_mem_cons] at hgone
    obtain ⟨out', rest, rfl, hout, hrest⟩ := h.of_append
    exact .cons (first.trans hind hout hgrows hgone.1) (ih hrest hgone.2)

/-- Two rewritings of a body in a row are one if the second one decides nothing about what the
first one put in. -/
theorem Restaged.trans {f g₁ g : Forest} {block : NodeId} {cs cs₁ cs' : List NodeId}
    (hf : f.Sound) (hg₁ : g₁.Sound) (hb : f.children? block = some cs)
    (hind : ∀ d pairs, q₁ d = some pairs → ∀ p ∈ pairs, q₂ (d.replacedBy p) = none)
    (h₁ : Restaged q₁ f g₁ block [] cs [] cs₁) (h : Restaged q₂ g₁ g block [] cs₁ [] cs') :
    Restaged (fun d => (q₁ d).or (q₂ d)) f g block [] cs [] cs' := by
  have hb₁ : g₁.children? block = some cs₁ := by simpa using h₁.children? hb
  refine ⟨h₁.rewrites.trans hind h.rewrites h₁.grows fun id hid hc => ?_,
    Nat.le_trans h₁.grows h.grows, ?_, fun k hk hkb hkc => ?_⟩
  · exact h.frame id (Nat.lt_of_lt_of_le (hf.lt_fresh_of_mem hb hid) h₁.grows)
      (Nat.ne_of_gt (hf.lt_of_mem hb hid)) (not_mem_of_detached hg₁ hb₁ hc)
  · rw [h.body, h₁.body, Option.map_map]
    congr 1
    funext c
    simp [Cell.withChildren, withChildren_withChildren]
  · rw [h.frame k (Nat.lt_of_lt_of_le hk h₁.grows) hkb, h₁.frame k hk hkb hkc]
    intro hm
    exact (h₁.rewrites.mem hm).elim hkc (Nat.not_le_of_lt hk)

end Forest

/-! ## 3. All stages -/

/-- Counting what two decisions replace one after the other. -/
theorem countP_rewrite {q₁ q₂ : Declaration → Option (List (String × String))}
    (hind : ∀ d pairs, q₁ d = some pairs → ∀ p ∈ pairs, q₂ (d.replacedBy p) = none)
    (ds : List Declaration) :
    ds.countP (fun d => (q₁ d).isSome) +
        (ds.flatMap (Declaration.rewrite q₁)).countP (fun d => (q₂ d).isSome) =
      ds.countP fun d => ((q₁ d).or (q₂ d)).isSome := by
  induction ds with
  | nil => rfl
  | cons d ds ih =>
    rw [List.flatMap_cons, List.countP_append, List.countP_cons, List.countP_cons, ← ih,
      Declaration.rewrite]
    cases hq : q₁ d with
    | none =>
      cases hq' : q₂ d <;> simp [hq']
      omega
    | some pairs =>
      have hnone : (pairs.map d.replacedBy).countP (fun d => (q₂ d).isSome) = 0 := by
        rw [List.countP_eq_zero]
        intro e he
        obtain ⟨p, hp, rfl⟩ := List.mem_map.mp he
        simp [hind d pairs hq p hp]
      simp only [hnone, Option.some_or, Option.isSome_some]
      simp
      omega

namespace Edit

open Forest

/-- The declarations of a body are those among its children. -/
theorem declarationsOf_body {f : Forest} {block : NodeId} {cs : List NodeId}
    (hbody : f.IsBody block) (hb : f.children? block = some cs) :
    f.declarationsOf block = cs.filter fun k => (f.declaration? k).isSome := by
  obtain ⟨isRule, hr⟩ := hbody
  obtain ⟨c, hc, hcs⟩ := exists_cell?_of_children? hb
  rw [role, content?_of_cell? hc] at hr
  rw [declarationsOf, content?_of_cell? hc]
  cases hk : c.content with
  | atBlock name prelude nested ids =>
    rw [hk] at hcs hr
    cases nested with
    | true => cases hr
    | false => simp [hcs]
  | _ =>
    rw [hk] at hcs
    simp [hcs]

/-- Stages on a body refuse one of its declarations, or rewrite the body as they decide about each
declaration. -/
theorem ends_runStages {block : NodeId} : ∀ {stages : List Stage}, Stage.Independent stages →
    ∀ {f : Forest} {cs : List NodeId}, f.Sound → f.IsBody block → f.children? block = some cs →
    (runStages block stages).Ends f
      (fun n g => Replacements (fun d pairs => ∃ s ∈ stages, s.may d pairs) f g ∧
        n = (f.declarationsAmong cs).countP (fun d => (Stage.decided? stages d).isSome) ∧
        Stage.checkAll stages (f.declarationsAmong cs) = .ok () ∧
        ∃ cs', Restaged (Stage.decided? stages) f g block [] cs [] cs')
      (fun e g => (∃ cause, e = .overlong cause ∧
        Stage.checkAll stages (f.declarationsAmong cs) = .error cause) ∧
        Replacements (fun d pairs => ∃ s ∈ stages, s.may d pairs) f g)
  | [], _, f, cs, _, _, hb => by
    refine .of_ok rfl ⟨.refl, ?_, rfl, cs, ?_, Nat.le_refl _, cell?_same_children (by simpa using hb),
      fun _ _ _ _ => rfl⟩
    · simp [Stage.decided?]
    · clear hb
      induction cs with
      | nil => exact .nil
      | cons id cs ih => exact .cons (.kept (fun _ _ => rfl) rfl) ih
  | s :: stages, hind, f, cs, hf, hbody, hb => by
    have hfirst : ∀ {f g : Forest}, Replacements s.may f g →
        Replacements (fun d pairs => ∃ t ∈ s :: stages, t.may d pairs) f g :=
      fun h => h.mono fun d pairs hm => ⟨s, List.mem_cons_self, hm⟩
    have hothers : ∀ {f g : Forest},
        Replacements (fun d pairs => ∃ t ∈ stages, t.may d pairs) f g →
        Replacements (fun d pairs => ∃ t ∈ s :: stages, t.may d pairs) f g :=
      fun h => h.mono fun d pairs ⟨t, ht, hm⟩ => ⟨t, List.mem_cons_of_mem _ ht, hm⟩
    -- The first stage, then all others on what it has left. A refusal of the others is one of the whole,
    -- since the first stage has accepted and the others are asked about what was not replaced.
    rw [runStages]
    refine .bind_ok rfl ?_
    rw [declarationsOf_body hbody hb]
    have hb₀ : f.children? block = some ([] ++ cs) := hb
    refine .bind ((ends_runStageOn cs hf hbody hb₀).mono (fun _ _ h => h) ?_) ?_
    · rintro e g ⟨⟨cause, he, hc⟩, hr⟩
      exact ⟨⟨cause, he, by rw [Stage.checkAll, hc]; rfl⟩, hfirst hr⟩
    · rintro n g₁ ⟨hr₁, rfl, hc₁, cs₁, h₁⟩
      have hg₁ := hr₁.sound hf
      have hb₁ : g₁.children? block = some cs₁ := by simpa using h₁.children? hb
      have hamong := h₁.rewrites.declarationsAmong
      have ih := ends_runStages (List.pairwise_cons.mp hind).2 hg₁ (hr₁.isBody hbody) hb₁
      rw [hamong] at ih
      refine .bind (ih.mono (fun _ _ h => h) ?_) ?_
      · rintro e g ⟨⟨cause, he, hc⟩, hr⟩
        exact ⟨⟨cause, he, by rw [Stage.checkAll, hc₁]; exact hc⟩, (hfirst hr₁).trans (hothers hr)⟩
      · rintro m g ⟨hr, rfl, hc, cs', h⟩
        refine .pure ⟨(hfirst hr₁).trans (hothers hr), ?_, by rw [Stage.checkAll, hc₁]; exact hc,
          cs', ?_⟩
        · simp only [Stage.replaced, countP_rewrite hind.later, Stage.decided?_cons]
        · simp only [funext (Stage.decided?_cons s stages)]
          exact h₁.trans hf hg₁ hb hind.later h

end Edit

end CssExpand
