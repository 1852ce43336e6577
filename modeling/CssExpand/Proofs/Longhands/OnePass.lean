import CssExpand.Proofs.Forest.PassSheet
import CssExpand.Proofs.Longhands.Stages
import Mathlib

/-!
# Taking shorthands apart is one traversal

The pass that takes shorthands apart runs four stages over a stylesheet that it changes in place.
Its outcome is that of one traversal from left to right (`longhands_oneTraversal`): a declaration
that is no hack and that `longhands` takes apart gives way to new declarations where it stands, and
every other node is the same node as before, in the same order. Equal declarations are not confused,
since the statement is about ids and not about looks.
-/

set_option autoImplicit false

namespace CssExpand

open Forest

/-- One traversal of the children of a rule, from those in `f` to those in `g`: a node about which
`step` says nothing is the same node, and any other one gives way to new nodes. Ids are in the order of
the children, so it is also said where everything stands. -/
inductive Traversed (step : Declaration → Option (List (String × String))) (f g : Forest)
    (rule : NodeId) : List NodeId → List NodeId → Prop
  | nil : Traversed step f g rule [] []
  | stays {id : NodeId} {cs cs' : List NodeId}
      (undecided : ∀ d, f.declaration? id = some d → step d = none)
      (same : g.cell? id = f.cell? id) (others : Traversed step f g rule cs cs') :
      Traversed step f g rule (id :: cs) (id :: cs')
  | replaced {id : NodeId} {d : Declaration} {pairs : List (String × String)}
      {news cs cs' : List NodeId} (declared : f.declaration? id = some d)
      (decided : step d = some pairs) (fresh : ∀ k ∈ news, f.fresh ≤ k)
      (cells : news.map g.cell? =
        pairs.map fun p => some ⟨.declaration ⟨p.1, p.2, d.important⟩, some rule⟩)
      (others : Traversed step f g rule cs cs') :
      Traversed step f g rule (id :: cs) (news ++ cs')

/-- The forest `g` comes from `f` by one traversal of every rule that takes `n` shorthands apart. -/
structure OneTraversal (ignored : Ignored) (f g : Forest) (n : Nat) : Prop where
  rules : g.rules = f.rules
  children : ∀ rule ∈ f.rules,
    Traversed (takenApart? ignored) f g rule (f.children rule) (g.children rule)
  /-- Nothing else of a rule is changed. -/
  headers : ∀ rule ∈ f.rules, g.cell? rule = (f.cell? rule).map (·.withChildren (g.children rule))
  /-- Nothing outside the rules is changed. -/
  frame : ∀ id < f.fresh, id ∉ f.rules → (∀ rule ∈ f.rules, id ∉ f.children rule) →
    g.cell? id = f.cell? id
  /-- The declaration blocks of at-rules and what is in them stay. -/
  blocks : ∀ block ∈ f.blocks, block ∉ f.rules → ∀ id ∈ block :: f.children block,
    g.cell? id = f.cell? id
  count : n = (f.rules.flatMap f.declarationsIn).countP fun d => (takenApart? ignored d).isSome

/-! ## 1. No shorthand is given a value in place -/

/-- A shorthand is taken apart into more than one declaration. -/
theorem isRevalued_takenApart? {ignored : Ignored} {d : Declaration}
    {pairs : List (String × String)} (h : takenApart? ignored d = some pairs) :
    d.isRevalued pairs = false := by
  rw [takenApart?] at h
  split at h
  · cases h
  · obtain ⟨-, s, -, hs⟩ := exists_compound (pairs?_eq_some.mp h)
    have htwo := Compound.two_le_takeApart hs
    rcases pairs with _ | ⟨pair, _ | ⟨next, rest⟩⟩
    · simp at htwo
    · simp at htwo
    · rfl

/-- A rewriting by what is taken apart is a traversal. -/
theorem Forest.Rewrites.traversed {ignored : Ignored}
    {q : Declaration → Option (List (String × String))} {f g : Forest} {rule : NodeId}
    {cs cs' : List NodeId} (h : Rewrites q f g rule cs cs')
    (hq : ∀ id ∈ cs, ∀ d, f.declaration? id = some d → q d = takenApart? ignored d) :
    Traversed (takenApart? ignored) f g rule cs cs' := by
  induction h with
  | nil => exact .nil
  | cons first _ ih =>
    rw [List.forall_mem_cons] at hq
    cases first with
    | kept hu hs => exact .stays (fun d hd => hq.1 d hd ▸ hu d hd) hs (ih hq.2)
    | replaced hd hp _ _ hf hn => exact .replaced hd (hq.1 _ hd ▸ hp) hf hn (ih hq.2)
    | revalued hd hp =>
      have hr := isRevalued_takenApart? (hq.1 _ hd ▸ hp)
      rw [Declaration.isRevalued, beq_self_eq_true] at hr
      cases hr

/-! ## 2. The theorem -/

/-- The declarations of a parsed stylesheet that a pass goes to have names that the parser makes. -/
theorem exists_name_of_bodiesFor {css : String} {sheet : Sheet} (h : Sheet.parse css = .ok sheet)
    (p : Pass) {d : Declaration}
    (hd : d ∈ ((ofSheet sheet).bodiesFor p).flatMap (ofSheet sheet).declarationsIn) :
    ∃ name, d.prop = propertyName name := by
  have hbodies := bodies_sheet (sound_ofSheet sheet) p
  rw [sheet_ofSheet] at hbodies
  rw [List.flatMap_def] at hd
  obtain ⟨ds, hds, hd⟩ := List.mem_flatten.mp hd
  rw [← hbodies] at hds
  obtain ⟨body, hbody, rfl⟩ := List.mem_map.mp hds
  exact exists_propertyName (inBody_of_listBodies _ (inRules_of_parse h) body hbody) hd

theorem exists_name_of_parse {css : String} {sheet : Sheet} (h : Sheet.parse css = .ok sheet)
    {d : Declaration} (hd : d ∈ (ofSheet sheet).rules.flatMap (ofSheet sheet).declarationsIn) :
    ∃ name, d.prop = propertyName name :=
  exists_name_of_bodiesFor h (.longhands .nothing) hd

/-- Taking the shorthands of a parsed stylesheet apart in place is one traversal of its rules. The
run fails exactly if a shorthand that is no hack holds an overlong integer; otherwise the number of
declarations that were replaced is the one that is logged at the end.

The four stages could step on each other: what one of them puts in is there when the next one looks for
declarations. But what a stage puts in has names that no later stage looks for, and the sides of a
`border`, whose names its own stage knows, come too late to be met by it. -/
theorem longhands_oneTraversal {css : String} {sheet : Sheet} (h : Sheet.parse css = .ok sheet)
    (ignored : Ignored) :
    (Edit.runPass (.longhands ignored)).Ends (ofSheet sheet)
      (fun n g => OneTraversal ignored (ofSheet sheet) g n ∧
        ((Pass.longhands ignored).log sheet).getLast? =
          some ((Pass.longhands ignored).summaryLine n) ∧
        ∀ d ∈ (ofSheet sheet).rules.flatMap (ofSheet sheet).declarationsIn, d.isHack = false →
          checkLonghands ignored d.prop d.value = .ok ())
      (fun e _ => ∃ d ∈ (ofSheet sheet).rules.flatMap (ofSheet sheet).declarationsIn,
        d.isHack = false ∧ ∃ cause, checkLonghands ignored d.prop d.value = .error cause ∧
          e = .overlong cause) := by
  have hf := sound_ofSheet sheet
  have hroot := isSheet_ofSheet sheet
  have hind := (separate_longhands ignored).independent
  -- The pass compares names with their lower case, and those that were parsed are names of properties.
  have hname : ∀ {rule d}, rule ∈ (ofSheet sheet).rules →
      d ∈ (ofSheet sheet).declarationsIn rule → ∃ name, d.prop = propertyName name :=
    fun hrule hd => exists_name_of_parse h (List.mem_flatMap.mpr ⟨_, hrule, hd⟩)
  refine (Edit.ends_runPass hind hf).mono ?_ ?_
  · rintro n g ⟨hr, hn, hc, hs⟩
    -- What the stages made of a rule, read off its children.
    have hchildren : ∀ rule ∈ (ofSheet sheet).rules, ∃ cs',
        Rewrites (Stage.decided? (Pass.longhands ignored).stages) (ofSheet sheet) g rule
          ((ofSheet sheet).children rule) cs' ∧ g.children rule = cs' ∧
        g.cell? rule = ((ofSheet sheet).cell? rule).map (·.withChildren cs') := by
      intro rule hrule
      obtain ⟨cs', hrw, hcell⟩ := hs.bodies rule hrule
      refine ⟨cs', hrw, ?_, hcell⟩
      have hb := (isBody_of_mem_blocksWithin hrule).children?
      obtain ⟨c, hc, hcs⟩ := exists_cell?_of_children? hb
      rw [children, children?, content?_eq, hcell, hc]
      simp [Cell.withChildren, children?_withChildren hcs]
    refine ⟨⟨hr.blocksWithin_root hf hroot false, fun rule hrule => ?_, fun rule hrule => ?_,
      hs.frame, fun block hblock hnot id hid => ?_, ?_⟩, ?_, ?_⟩
    · obtain ⟨cs', hrw, hcs', -⟩ := hchildren rule hrule
      rw [hcs']
      refine hrw.traversed fun id hid d hd => decided?_longhands ignored (hname hrule ?_)
      exact List.mem_filterMap.mpr ⟨id, hid, hd⟩
    · obtain ⟨cs', -, hcs', hcell⟩ := hchildren rule hrule
      rw [hcs', hcell]
    · -- a block that is no rule is apart from all rules
      have hreach := reaches_bodiesFor hf (.longhands ignored)
      have hap : ∀ rule ∈ (ofSheet sheet).rules, (ofSheet sheet).Apart block rule :=
        fun rule hrule => hreach.apart.forall hblock (hreach.reached rule hrule)
          fun he => hnot (he ▸ hrule)
      have hlt := (isBody_of_mem_blocksWithin hblock).lt_fresh
      rcases List.mem_cons.mp hid with rfl | hid
      · exact hs.cell?_of_apart hf hap hlt .self
      · exact hs.cell?_of_apart hf hap (lt_fresh_of_mem_children hf hid) (under_children hf hid)
    · rw [hn]
      refine List.countP_congr fun d hd => ?_
      rw [decided?_longhands ignored (exists_name_of_parse h hd)]
    · rw [hn, Pass.log, List.getLast?_append, ← sheet_ofSheet sheet, count_sheet hind hf]
      simp [sheet_ofSheet]
    · intro d hd hhack
      obtain ⟨rule, hrule, hd⟩ := List.mem_flatMap.mp hd
      have hc' := Stage.forM_eq_ok.mp hc rule hrule
      exact checkAll_longhands_ok ignored (fun d hd => hname hrule hd) hc' d hd hhack
  · rintro e g ⟨⟨cause, he, hc⟩, -⟩
    obtain ⟨rule, hrule, hc⟩ := Stage.exists_of_forM_eq_error hc
    obtain ⟨d, hd, hhack, hde⟩ := checkAll_longhands_error ignored hc
    exact ⟨d, List.mem_flatMap.mpr ⟨rule, hrule, hd⟩, hhack, cause, hde, he⟩

/-- A stylesheet with two equal shorthands around a declaration that stays, and a font face. -/
def equalMargins : Sheet :=
  [.rule "a"
    [.declaration ⟨"margin", "0", false⟩, .declaration ⟨"color", "red", false⟩,
     .declaration ⟨"margin", "0", false⟩],
   .atBlock "font-face" "" false [.declaration ⟨"margin", "0", false⟩]]

/-- Two equal declarations with another between them, and one in a block that is no rule: the order of
the nodes and the count tell them apart. -/
theorem longhands_oneTraversal_equalMargins :
    Sheet.parse "a{margin:0;color:red;margin:0}@font-face{margin:0}" =
        .ok equalMargins ∧
      (Edit.runPass (.longhands .nothing)).Ends (ofSheet equalMargins)
        (fun n g => OneTraversal .nothing (ofSheet equalMargins) g n ∧
          ((Pass.longhands .nothing).log equalMargins).getLast? =
            some ((Pass.longhands .nothing).summaryLine n) ∧
          ∀ d ∈ (ofSheet equalMargins).rules.flatMap (ofSheet equalMargins).declarationsIn,
            d.isHack = false → checkLonghands .nothing d.prop d.value = .ok ())
        (fun e _ => ∃ d ∈ (ofSheet equalMargins).rules.flatMap
            (ofSheet equalMargins).declarationsIn,
          d.isHack = false ∧ ∃ cause, checkLonghands .nothing d.prop d.value = .error cause ∧
            e = .overlong cause) := by
  have h : Sheet.parse "a{margin:0;color:red;margin:0}@font-face{margin:0}" =
      .ok equalMargins := by
    rw [equalMargins]
    cbv
  exact ⟨h, longhands_oneTraversal h .nothing⟩

end CssExpand
