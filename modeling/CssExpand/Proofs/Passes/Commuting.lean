import CssExpand.Proofs.Forest.PassSheet
import CssExpand.Proofs.Longhands.Stages
import CssExpand.Proofs.Shorthand.Stable
import CssExpand.Settings

/-!
# Passes that commute

Two passes are disjoint if no stage of one looks at what a stage of the other looks at or puts in
(`Pass.Disjoint`). Whatever stages of either look at comes through the other pass as it was, in the
same order. So the two passes accept and count the same in whichever order they run, and give the same
stylesheet (`Pass.Disjoint.commute`). That they may reach different bodies does not matter, because a
body that only one of them reaches is left to that one in both orders.

Taking shorthands apart and writing out defaults are disjoint: the names of the shorthands that are
taken apart, and of their longhands, are none of those whose defaults are known.
-/

set_option autoImplicit false

namespace CssExpand

open Forest

/-! ## 1. What a stage looks at comes through -/

/-- Declarations that a decision neither touches nor puts in come through it, in the same order. -/
theorem Declaration.filter_rewrite {q : Declaration → Option (List (String × String))}
    {looks : Declaration → Bool} (h : ∀ d pairs, q d = some pairs → looks d = false ∧
      ∀ pair ∈ pairs, looks (d.replacedBy pair) = false) (ds : List Declaration) :
    (ds.flatMap (rewrite q)).filter looks = ds.filter looks := by
  induction ds with
  | nil => rfl
  | cons d ds ih =>
    rw [List.flatMap_cons, List.filter_append, ih]
    cases hq : q d with
    | none => rw [rewrite_none hq, ← List.filter_append, List.singleton_append]
    | some pairs =>
      obtain ⟨hd, hnew⟩ := h d pairs hq
      have hnone : (d.rewrite q).filter looks = [] := by
        rw [rewrite_some hq, List.filter_eq_nil_iff]
        intro e he
        obtain ⟨pair, hpair, rfl⟩ := List.mem_map.mp he
        rw [hnew pair hpair]
        exact Bool.false_ne_true
      rw [hnone, List.nil_append, List.filter_cons_of_neg (by rw [hd]; exact Bool.false_ne_true)]

namespace Stage

/-- A stage refuses only what it looks at. -/
theorem forM_check (s : Stage) (ds : List Declaration) :
    ds.forM s.check = (ds.filter s.considers).forM s.check := by
  induction ds with
  | nil => rfl
  | cons d ds ih =>
    cases hc : s.considers d with
    | false =>
      rw [List.filter_cons_of_neg (by simp [hc]), ← ih]
      exact forM_cons_ok (check_of_not_considers hc) rfl
    | true =>
      rw [List.filter_cons_of_pos hc]
      change (s.check d).bind (fun _ => ds.forM s.check) =
        (s.check d).bind fun _ => (ds.filter s.considers).forM s.check
      rw [ih]

/-- What separate stages refuse depends on the declarations that they look at. -/
theorem Separate.checkAll_congr : ∀ {stages : List Stage}, Separate stages →
    ∀ {ds ds' : List Declaration},
      (∀ s ∈ stages, ds.filter s.considers = ds'.filter s.considers) →
      checkAll stages ds = checkAll stages ds'
  | [], _, _, _, _ => rfl
  | s :: stages, h, ds, ds', heq => by
    rw [List.forall_mem_cons] at heq
    have hthrough : ∀ t ∈ stages, ∀ es : List Declaration,
        (es.flatMap (Declaration.rewrite s.pairs?)).filter t.considers =
          es.filter t.considers := by
      refine fun t ht => Declaration.filter_rewrite fun d pairs hp => ?_
      have hst := (List.pairwise_cons.mp h).1 t ht d (considers_of_pairs? hp)
      exact ⟨hst.1, hst.2 pairs hp⟩
    have hrest : checkAll stages (ds.flatMap (Declaration.rewrite s.pairs?)) =
        checkAll stages (ds'.flatMap (Declaration.rewrite s.pairs?)) :=
      checkAll_congr (List.pairwise_cons.mp h).2 fun t ht => by
        rw [hthrough t ht, hthrough t ht, heq.2 t ht]
    rw [checkAll, checkAll, forM_check, heq.1, ← forM_check, hrest]

theorem decided?_append (ss ts : List Stage) (d : Declaration) :
    decided? (ss ++ ts) d = (decided? ss d).or (decided? ts d) :=
  List.findSome?_append

theorem decided?_of_not_considers {stages : List Stage} {d : Declaration}
    (h : ∀ s ∈ stages, s.considers d = false) : decided? stages d = none :=
  List.findSome?_eq_none_iff.mpr fun s hs => pairs?_of_not_considers (h s hs)

end Stage

/-! ## 2. Trees -/

namespace Pass

variable {p q : Pass}

mutual

/-- Passes commute on a node if they commute on the bodies that the first of them reaches there. -/
theorem applyNode_comm : ∀ n : Node,
    (∀ body ∈ p.bodies n, q.applyBody (p.applyBody body) = p.applyBody (q.applyBody body)) →
    q.applyNode (p.applyNode n) = p.applyNode (q.applyNode n)
  | .rule selector body, h => by
    rw [applyNode, applyNode, applyNode, applyNode, h body List.mem_cons_self]
  | .atBlock name prelude true nodes, h => by
    rw [applyNode, applyNode, applyNode, applyNode, applyNodes_comm nodes h]
  | .atBlock name prelude false body, h => by
    rw [applyNode, applyNode, applyNode, applyNode]
    by_cases hp : p.reach = .blocks
    · have hbody := h body (by rw [bodies, if_pos hp]; exact List.mem_cons_self)
      by_cases hq : q.reach = .blocks
      · rw [if_pos hp, if_pos hq, if_pos hq, if_pos hp, hbody]
      · rw [if_pos hp, if_neg hq, if_neg hq, if_pos hp]
    · rw [if_neg hp, if_neg hp]
  | .atStatement .., _ => rfl
  | .declaration _, _ => rfl
  | .raw _, _ => rfl
  | .comment _, _ => rfl

theorem applyNodes_comm : ∀ ns : List Node,
    (∀ body ∈ p.listBodies ns, q.applyBody (p.applyBody body) = p.applyBody (q.applyBody body)) →
    q.applyNodes (p.applyNodes ns) = p.applyNodes (q.applyNodes ns)
  | [], _ => rfl
  | n :: ns, h => by
    rw [listBodies] at h
    rw [applyNodes, applyNodes, applyNodes, applyNodes,
      applyNode_comm n fun body hb => h body (List.mem_append_left _ hb),
      applyNodes_comm ns fun body hb => h body (List.mem_append_right _ hb)]

end

mutual

/-- What a pass leaves of each body that two passes reach, it leaves of the bodies that the other one
reaches. -/
theorem map_bodies_applyNode {α : Type} {kept : List Node → α} : ∀ n : Node,
    (∀ body ∈ p.bodies n, body ∈ q.bodies n → kept (q.applyBody body) = kept body) →
    (p.bodies (q.applyNode n)).map kept = (p.bodies n).map kept
  | .rule selector body, h => by
    simp only [applyNode, bodies, List.map_cons, h body List.mem_cons_self List.mem_cons_self]
  | .atBlock name prelude true nodes, h => by
    rw [applyNode, bodies, bodies, map_listBodies_applyNodes nodes h]
  | .atBlock name prelude false body, h => by
    rw [applyNode, bodies, bodies]
    by_cases hp : p.reach = .blocks
    · by_cases hq : q.reach = .blocks
      · simp [hp, hq, h body (by simp [bodies, hp]) (by simp [bodies, hq])]
      · simp [hp, hq]
    · rw [if_neg hp, if_neg hp]
  | .atStatement .., _ => rfl
  | .declaration _, _ => rfl
  | .raw _, _ => rfl
  | .comment _, _ => rfl

theorem map_listBodies_applyNodes {α : Type} {kept : List Node → α} : ∀ ns : List Node,
    (∀ body ∈ p.listBodies ns, body ∈ q.listBodies ns →
      kept (q.applyBody body) = kept body) →
    (p.listBodies (q.applyNodes ns)).map kept = (p.listBodies ns).map kept
  | [], _ => rfl
  | n :: ns, h => by
    rw [listBodies, listBodies] at h
    rw [applyNodes, listBodies, listBodies, List.map_append, List.map_append,
      map_bodies_applyNode n fun body hp hq =>
        h body (List.mem_append_left _ hp) (List.mem_append_left _ hq),
      map_listBodies_applyNodes ns fun body hp hq =>
        h body (List.mem_append_right _ hp) (List.mem_append_right _ hq)]

end

/-- What a pass accepts after another one, if the other one puts in what is accepted exactly where
something accepted was. -/
theorem check_apply_eq_ok (hp : Stage.Separate p.stages) (hq : Stage.Independent q.stages)
    {sheet : Sheet} (h : ∀ body ∈ p.listBodies sheet, body ∈ q.listBodies sheet →
      ∀ d ∈ Node.declarations body,
        (∀ e ∈ d.rewrite (Stage.decided? q.stages), p.Accepts e) ↔ p.Accepts d) :
    p.check (q.apply sheet) = .ok () ↔ p.check sheet = .ok () := by
  let kept (body : List Node) : Prop := ∀ d ∈ Node.declarations body, p.Accepts d
  have hkept : ∀ body ∈ p.listBodies sheet, body ∈ q.listBodies sheet →
      kept (q.applyBody body) = kept body := by
    intro body hpb hqb
    refine propext ?_
    change (∀ e ∈ Node.declarations (q.applyBody body), p.Accepts e) ↔ _
    rw [applyBody_eq hq, Node.declarations_rewrite]
    simp only [List.mem_flatMap, forall_exists_index, and_imp]
    exact ⟨fun hall d hd => (h body hpb hqb d hd).mp fun e he => hall e d hd he,
      fun hall e d hd he => (h body hpb hqb d hd).mpr (hall d hd) e he⟩
  have hall : ∀ ns : List Node, p.check ns = .ok () ↔ ∀ P ∈ (p.listBodies ns).map kept, P := by
    intro ns
    rw [check_eq_ok hp, List.forall_mem_map]
  rw [hall, hall, apply, map_listBodies_applyNodes sheet hkept]

/-! ## 3. Disjoint passes -/

/-- No stage of one pass looks at what a stage of the other looks at, or at what it puts in. It goes by
names only, whatever the values are. -/
structure Disjoint (p q : Pass) : Prop where
  forth : Stage.Separate (p.stages ++ q.stages)
  back : Stage.Separate (q.stages ++ p.stages)

namespace Disjoint

theorem symm (h : p.Disjoint q) : q.Disjoint p := ⟨h.back, h.forth⟩

theorem left (h : p.Disjoint q) : Stage.Separate p.stages := (List.pairwise_append.mp h.forth).1

/-- No stage of the first pass looks at what the second one replaces or puts in. -/
theorem considers (h : p.Disjoint q) {s : Stage} (hs : s ∈ p.stages) {d : Declaration}
    {pairs : List (String × String)} (hd : Stage.decided? q.stages d = some pairs) :
    s.considers d = false ∧ ∀ pair ∈ pairs, s.considers (d.replacedBy pair) = false := by
  obtain ⟨t, ht, hp⟩ := List.exists_of_findSome?_eq_some hd
  have hts := (List.pairwise_append.mp h.back).2.2 t ht s hs d (Stage.considers_of_pairs? hp)
  exact ⟨hts.1, hts.2 pairs hp⟩

/-- The first pass decides nothing about what the second one replaces or puts in. -/
theorem decided? (h : p.Disjoint q) {d : Declaration} {pairs : List (String × String)}
    (hd : Stage.decided? q.stages d = some pairs) : Stage.decided? p.stages d = none ∧
      ∀ pair ∈ pairs, Stage.decided? p.stages (d.replacedBy pair) = none :=
  ⟨Stage.decided?_of_not_considers fun _ hs => (h.considers hs hd).1, fun pair hpair =>
    Stage.decided?_of_not_considers fun _ hs => (h.considers hs hd).2 pair hpair⟩

/-- At most one of the two passes decides anything about a declaration. -/
theorem decided?_append_comm (h : p.Disjoint q) (d : Declaration) :
    Stage.decided? (p.stages ++ q.stages) d = Stage.decided? (q.stages ++ p.stages) d := by
  rw [Stage.decided?_append, Stage.decided?_append]
  cases hd : Stage.decided? q.stages d with
  | none => rw [Option.or_none, Option.none_or]
  | some pairs => rw [(h.decided? hd).1, Option.none_or, Option.some_or]

theorem applyBody_comm (h : p.Disjoint q) (body : List Node) :
    q.applyBody (p.applyBody body) = p.applyBody (q.applyBody body) := by
  have hone : Stage.decided? (p.stages ++ q.stages) = Stage.decided? (q.stages ++ p.stages) :=
    funext h.decided?_append_comm
  calc q.applyBody (p.applyBody body)
      = (p.stages ++ q.stages).foldl (fun body stage => stage.apply body) body :=
        List.foldl_append.symm
    _ = body.flatMap (Node.rewrite (Stage.decided? (p.stages ++ q.stages))) :=
        foldl_apply h.forth.independent body
    _ = body.flatMap (Node.rewrite (Stage.decided? (q.stages ++ p.stages))) := by rw [hone]
    _ = (q.stages ++ p.stages).foldl (fun body stage => stage.apply body) body :=
        (foldl_apply h.back.independent body).symm
    _ = p.applyBody (q.applyBody body) := List.foldl_append

theorem apply_comm (h : p.Disjoint q) (sheet : Sheet) :
    q.apply (p.apply sheet) = p.apply (q.apply sheet) :=
  applyNodes_comm sheet fun body _ => h.applyBody_comm body

/-- What the first pass looks at in a body comes through the second one. -/
theorem filter_applyBody (h : p.Disjoint q) {looks : Declaration → Bool}
    (hl : ∀ d pairs, Stage.decided? q.stages d = some pairs → looks d = false ∧
      ∀ pair ∈ pairs, looks (d.replacedBy pair) = false) (body : List Node) :
    (Node.declarations (q.applyBody body)).filter looks =
      (Node.declarations body).filter looks := by
  rw [applyBody_eq h.symm.left.independent, Node.declarations_rewrite,
    Declaration.filter_rewrite hl]

/-- The first pass refuses the same before and after the second one. -/
theorem check_apply (h : p.Disjoint q) (sheet : Sheet) :
    p.check (q.apply sheet) = p.check sheet := by
  have hbody : ∀ body, Stage.checkAll p.stages (Node.declarations (q.applyBody body)) =
      Stage.checkAll p.stages (Node.declarations body) := fun body =>
    h.left.checkAll_congr fun s hs => h.filter_applyBody (fun _ _ => h.considers hs) body
  let refused (body : List Node) := Stage.checkAll p.stages (Node.declarations body)
  rw [check_eq, check_eq]
  change (p.listBodies (q.apply sheet)).forM (fun body => id (refused body)) =
    (p.listBodies sheet).forM fun body => id (refused body)
  rw [← forM_map refused id, ← forM_map refused id]
  exact congrArg (List.forM · id) (map_listBodies_applyNodes sheet fun body _ _ => hbody body)

/-- The first pass replaces the same before and after the second one. -/
theorem count_apply (h : p.Disjoint q) (sheet : Sheet) :
    p.count (q.apply sheet) = p.count sheet := by
  have hbody : ∀ body,
      (Node.declarations (q.applyBody body)).filter (fun d => (Stage.decided? p.stages d).isSome) =
        (Node.declarations body).filter fun d => (Stage.decided? p.stages d).isSome := by
    refine h.filter_applyBody fun d pairs hd => ?_
    obtain ⟨hnone, hnew⟩ := h.decided? hd
    refine ⟨by rw [hnone]; rfl, fun pair hpair => by rw [hnew pair hpair]; rfl⟩
  have hflat : ∀ bodies : List (List Node),
      (bodies.flatMap Node.declarations).filter (fun d => (Stage.decided? p.stages d).isSome) =
        (bodies.map fun body => (Node.declarations body).filter fun d =>
          (Stage.decided? p.stages d).isSome).flatten := by
    intro bodies
    rw [List.flatMap_def, List.filter_flatten, List.map_map]
    rfl
  rw [count_eq h.left.independent, count_eq h.left.independent, List.countP_eq_length_filter,
    List.countP_eq_length_filter, hflat, hflat, apply,
    map_listBodies_applyNodes sheet fun body _ _ => hbody body]

end Disjoint

end Pass

/-! ## 4. In place -/

/-- Runs a pass and then another one, and says how many declarations each of them replaced. -/
def Edit.runBoth (p q : Pass) : Edit (Nat × Nat) := do
  let m ← runPass p
  let n ← runPass q
  pure (m, n)

/-- Two passes commute on a stylesheet: in either order they refuse a declaration that one of them
refuses by itself, or they end on the same tree and replace as many declarations as by themselves. That
the logs agree is not part of it: each pass tells its own story, in the order in which they run. -/
structure Pass.Commute (p q : Pass) (sheet : Sheet) : Prop where
  trees : q.apply (p.apply sheet) = p.apply (q.apply sheet)
  forth : (Edit.runBoth p q).Ends (ofSheet sheet)
    (fun n g => p.check sheet = .ok () ∧ q.check sheet = .ok () ∧
      n = (p.count sheet, q.count sheet) ∧ g.sheet = q.apply (p.apply sheet))
    (fun e _ => ∃ cause, e = .overlong cause ∧
      (p.check sheet = .error cause ∨ q.check sheet = .error cause))
  back : (Edit.runBoth q p).Ends (ofSheet sheet)
    (fun n g => p.check sheet = .ok () ∧ q.check sheet = .ok () ∧
      n = (q.count sheet, p.count sheet) ∧ g.sheet = q.apply (p.apply sheet))
    (fun e _ => ∃ cause, e = .overlong cause ∧
      (p.check sheet = .error cause ∨ q.check sheet = .error cause))

/-- One of the two orders. -/
theorem Pass.Disjoint.ends_runBoth {p q : Pass} (h : p.Disjoint q) (sheet : Sheet) :
    (Edit.runBoth p q).Ends (ofSheet sheet)
      (fun n g => (p.check sheet = .ok () ∧ q.check sheet = .ok ()) ∧
        n = (p.count sheet, q.count sheet) ∧ g.sheet = q.apply (p.apply sheet))
      (fun e _ => ∃ cause, e = .overlong cause ∧
        (p.check sheet = .error cause ∨ q.check sheet = .error cause)) := by
  have hfirst := Edit.ends_runPass_sheet h.left.independent (sound_ofSheet sheet)
    (isSheet_ofSheet sheet)
  rw [sheet_ofSheet] at hfirst
  refine .bind (hfirst.mono (fun _ _ h => h) ?_) ?_
  · rintro e g ⟨cause, he, hc⟩
    exact ⟨cause, he, .inl hc⟩
  · rintro m g ⟨⟨hg, hroot⟩, rfl, hcheck, hsheet⟩
    have hnext := Edit.ends_runPass_sheet h.symm.left.independent hg hroot
    rw [hsheet, h.symm.check_apply, h.symm.count_apply] at hnext
    refine .bind (hnext.mono (fun _ _ h => h) ?_) ?_
    · rintro e g' ⟨cause, he, hc⟩
      exact ⟨cause, he, .inr hc⟩
    · rintro n g' ⟨-, rfl, hcheck', hsheet'⟩
      exact .pure ⟨⟨hcheck, hcheck'⟩, rfl, hsheet'⟩

theorem Pass.Disjoint.commute {p q : Pass} (h : p.Disjoint q) (sheet : Sheet) :
    p.Commute q sheet where
  trees := h.apply_comm sheet
  forth := (h.ends_runBoth sheet).mono (fun _ _ h => ⟨h.1.1, h.1.2, h.2⟩) fun _ _ h => h
  back := by
    refine (h.symm.ends_runBoth sheet).mono ?_ ?_
    · rintro n g ⟨⟨hq, hp⟩, hn, hg⟩
      exact ⟨hp, hq, hn, hg.trans (h.apply_comm sheet).symm⟩
    · rintro e g ⟨cause, he, hc⟩
      exact ⟨cause, he, hc.symm⟩

/-! ## 5. Taking shorthands apart and writing out defaults -/

/-- Neither the shorthands that are taken apart nor their longhands have known defaults. -/
theorem find?_stageNames : ∀ n ∈ stageNames.flatten, Registry.standard.find? n = none ∧
    ∀ output ∈ (Compound.ofName? n).elim [] Compound.outputs,
      Registry.standard.find? output = none := by
  decide +kernel

/-- No shorthand that is taken apart is one that is completed, and none of the longhands is, so neither
pass makes work for the other. -/
theorem disjoint_longhands_defaults (ignored₁ ignored₂ : Ignored) :
    (Pass.longhands ignored₁).Disjoint (.defaults .standard ignored₂) where
  forth := by
    refine List.pairwise_append.mpr
      ⟨separate_longhands ignored₁, List.pairwise_singleton .., fun s hs t ht d hd => ?_⟩
    rw [stages_longhands] at hs
    obtain ⟨names, hnames, rfl⟩ := List.mem_map.mp hs
    obtain rfl := List.mem_singleton.mp ht
    simp only [Pass.longhandStage, Bool.and_eq_true, List.contains_iff_mem] at hd
    have hname := find?_stageNames d.prop (List.mem_flatten.mpr ⟨names, hnames, hd.1⟩)
    refine ⟨by simp [hname.1], fun pairs hp pair hpair => ?_⟩
    have hout := hname.2 pair.1 ((mem_outputs_of_pairs? hnames hp).2 pair hpair)
    simp [Declaration.replacedBy, hout]
  back := by
    refine List.pairwise_append.mpr
      ⟨List.pairwise_singleton .., separate_longhands ignored₁, fun t ht s hs d hd => ?_⟩
    rw [stages_longhands] at hs
    obtain ⟨names, hnames, rfl⟩ := List.mem_map.mp hs
    obtain rfl := List.mem_singleton.mp ht
    have hknown : ∀ e : Declaration, (Registry.standard.find? e.prop).isSome = true →
        (Pass.longhandStage ignored₁ names).considers e = false := by
      intro e he
      by_contra hc
      simp only [Pass.longhandStage, Bool.not_eq_false, Bool.and_eq_true,
        List.contains_iff_mem] at hc
      rw [(find?_stageNames e.prop (List.mem_flatten.mpr ⟨names, hnames, hc.1⟩)).1] at he
      cases he
    rw [Bool.and_eq_true] at hd
    refine ⟨hknown d hd.1, fun pairs hp pair hpair => hknown _ ?_⟩
    rw [Stage.pairs?_eq, Revision.defaults] at hp
    split at hp
    · obtain ⟨s, completed, hs, -, -, rfl⟩ := complete_eq_replace (pairs?_eq_some.mp hp)
      obtain rfl := List.mem_singleton.mp hpair
      exact Option.isSome_iff_exists.mpr ⟨s, hs⟩
    · cases hp

/-- Whatever each of them leaves alone, taking shorthands apart and writing out defaults commute on
every stylesheet: they accept the same in either order, count the same and give the same stylesheet. No
value is looked into for this, as the names alone keep the two apart. -/
theorem commute_longhands_defaults (ignored₁ ignored₂ : Ignored) (sheet : Sheet) :
    (Pass.longhands ignored₁).Commute (.defaults .standard ignored₂) sheet :=
  (disjoint_longhands_defaults ignored₁ ignored₂).commute sheet

end CssExpand
