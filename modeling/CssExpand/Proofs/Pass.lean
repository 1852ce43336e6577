import CssExpand.Proofs.Forest.StagesRun

/-!
# Passes on bodies

A pass on trees runs its stages one after the other over a body. With independent stages this is a
single traversal (`Pass.applyBody_eq`): every declaration is replaced where it stands by what the
first stage decides that decides anything, and every other node stays. What the stages count and
refuse on the way depends on the declarations of the body only (`Stage.countP_visits`,
`Stage.check_bodies`).
-/

set_option autoImplicit false

namespace CssExpand

/-- Checks that come one after the other pass one after the other. -/
theorem bind_eq_ok {ε α β : Type} {x : Except ε α} {f : α → Except ε β} {b : β} :
    x >>= f = .ok b ↔ ∃ a, x = .ok a ∧ f a = .ok b := by
  cases x with
  | error e => exact iff_of_false (fun h => by cases h) (fun ⟨_, h, _⟩ => by cases h)
  | ok a =>
    refine ⟨fun h => ⟨a, rfl, h⟩, ?_⟩
    rintro ⟨_, h, hb⟩
    cases h
    exact hb

/-- What a decision about declarations makes of a node. -/
def Node.rewrite (pairs? : Declaration → Option (List (String × String))) : Node → List Node
  | .declaration d => (d.rewrite pairs?).map .declaration
  | n => [n]

theorem Declaration.rewrite_none {pairs? : Declaration → Option (List (String × String))}
    {d : Declaration} (h : pairs? d = none) : d.rewrite pairs? = [d] := by
  rw [rewrite, h]

theorem Declaration.rewrite_some {pairs? : Declaration → Option (List (String × String))}
    {d : Declaration} {pairs : List (String × String)} (h : pairs? d = some pairs) :
    d.rewrite pairs? = pairs.map d.replacedBy := by
  rw [rewrite, h]

/-- Two decisions in a row are one if the second one leaves alone what the first one put in. -/
theorem Declaration.rewrite_rewrite {q₁ q₂ : Declaration → Option (List (String × String))}
    (hind : ∀ d pairs, q₁ d = some pairs → ∀ p ∈ pairs, q₂ (d.replacedBy p) = none)
    (d : Declaration) :
    (d.rewrite q₁).flatMap (rewrite q₂) = d.rewrite fun d => (q₁ d).or (q₂ d) := by
  cases h : q₁ d with
  | none =>
    rw [rewrite_none h, List.flatMap_singleton, rewrite, rewrite, h, Option.none_or]
  | some pairs =>
    have hor : (fun d => (q₁ d).or (q₂ d)) d = some pairs := by simp only [h, Option.some_or]
    rw [rewrite_some h, rewrite_some hor, List.flatMap_map]
    have hkept : ∀ p ∈ pairs, rewrite q₂ (d.replacedBy p) = [d.replacedBy p] :=
      fun p hp => rewrite_none (hind d pairs h p hp)
    rw [List.flatMap_congr hkept, List.map_eq_flatMap]

theorem Node.rewrite_rewrite {q₁ q₂ : Declaration → Option (List (String × String))}
    (hind : ∀ d pairs, q₁ d = some pairs → ∀ p ∈ pairs, q₂ (d.replacedBy p) = none) (n : Node) :
    (n.rewrite q₁).flatMap (rewrite q₂) = n.rewrite fun d => (q₁ d).or (q₂ d) := by
  cases n with
  | declaration d =>
    rw [rewrite, rewrite, ← Declaration.rewrite_rewrite hind d, List.flatMap_map, List.map_flatMap]
    rfl
  | _ => rfl

theorem Node.declarations_rewrite (q : Declaration → Option (List (String × String)))
    (ns : List Node) :
    declarations (ns.flatMap (rewrite q)) = (declarations ns).flatMap (Declaration.rewrite q) := by
  induction ns with
  | nil => rfl
  | cons n ns ih =>
    rw [declarations] at ih
    rw [List.flatMap_cons, declarations, List.filterMap_append, ih]
    cases n with
    | declaration d =>
      simp [rewrite, declarations, declaration?, List.filterMap_map, Function.comp_def]
    | _ => rfl

namespace Stage

theorem apply_eq (s : Stage) (body : List Node) :
    s.apply body = body.flatMap (Node.rewrite s.pairs?) := by
  refine List.flatMap_congr fun n _ => ?_
  cases n with
  | declaration d =>
    rw [applyNode, Node.rewrite, Declaration.rewrite]
    cases s.pairs? d with
    | none => rfl
    | some pairs => simp [Declaration.replacedBy]
  | _ => rfl

/-- The number of visits that replace something. -/
theorem countP_visits (s : Stage) (body : List Node) :
    (s.visits body).countP Visit.changes = s.replaced (Node.declarations body) := by
  rw [visits, replaced]
  induction Node.declarations body with
  | nil => rfl
  | cons d ds ih =>
    rw [List.filterMap_cons, List.countP_cons]
    cases hv : s.visit? d with
    | none =>
      have : s.pairs? d = none := by rw [pairs?, hv]; rfl
      simpa [this] using ih
    | some v => simp only [List.countP_cons, changes_of_visit? hv, ih]

/-- Independent stages replace as many declarations of a body as they decide about together. -/
theorem countP_bodies : ∀ {stages : List Stage}, Independent stages → ∀ body : List Node,
    ((Pass.stageBodies stages body).flatMap fun m => m.1.visits m.2).countP Visit.changes =
      (Node.declarations body).countP fun d => (decided? stages d).isSome
  | [], _, body => by simp [Pass.stageBodies, decided?]
  | s :: stages, hind, body => by
    rw [Pass.stageBodies, List.flatMap_cons, List.countP_append, countP_visits,
      countP_bodies (List.pairwise_cons.mp hind).2, apply_eq, Node.declarations_rewrite, replaced,
      countP_rewrite hind.later]
    simp only [decided?_cons]

/-- What the stages refuse in a body. -/
theorem check_bodies : ∀ (stages : List Stage) (body : List Node),
    ((Pass.stageBodies stages body).forM fun m => (Node.declarations m.2).forM m.1.check) =
      checkAll stages (Node.declarations body)
  | [], _ => rfl
  | s :: stages, body => by
    change ((Node.declarations body).forM s.check).bind (fun _ =>
      (Pass.stageBodies stages (s.apply body)).forM fun m =>
        (Node.declarations m.2).forM m.1.check) = _
    rw [check_bodies stages, apply_eq, Node.declarations_rewrite]
    rfl

end Stage

/-! ## Stages that stay out of each other's way -/

namespace Stage

/-- No stage looks at what an earlier one looks at, or at what it puts in. -/
def Separate (stages : List Stage) : Prop :=
  stages.Pairwise fun s t => ∀ d, s.considers d = true → t.considers d = false ∧
    ∀ pairs, s.pairs? d = some pairs → ∀ pair ∈ pairs, t.considers (d.replacedBy pair) = false

theorem pairs?_eq (s : Stage) (d : Declaration) : s.pairs? d =
    if s.considers d then (s.revision.decide d.prop d.value).pairs? else none := by
  rw [pairs?, visit?]
  cases s.considers d <;> rfl

theorem pairs?_of_not_considers {s : Stage} {d : Declaration} (h : s.considers d = false) :
    s.pairs? d = none := by
  rw [pairs?_eq, h]
  rfl

theorem considers_of_pairs? {s : Stage} {d : Declaration} {pairs : List (String × String)}
    (h : s.pairs? d = some pairs) : s.considers d = true := by
  by_contra hc
  rw [pairs?_of_not_considers (Bool.eq_false_iff.mpr hc)] at h
  cases h

theorem check_of_not_considers {s : Stage} {d : Declaration} (h : s.considers d = false) :
    s.check d = .ok () := by
  simp [check, h]

theorem Separate.independent {stages : List Stage} (h : Separate stages) : Independent stages :=
  h.imp fun hst d pairs hd pair hp =>
    pairs?_of_not_considers ((hst d (considers_of_pairs? hd)).2 pairs hd pair hp)

theorem forM_eq_ok {α ε : Type} {check : α → Except ε Unit} :
    ∀ {as : List α}, as.forM check = .ok () ↔ ∀ a ∈ as, check a = .ok ()
  | [] => ⟨fun _ _ h => absurd h List.not_mem_nil, fun _ => rfl⟩
  | a :: as => by
    rw [List.forall_mem_cons]
    cases h : check a with
    | error e =>
      rw [forM_cons_error h]
      exact ⟨fun h => (nomatch h), fun h => (nomatch h.1)⟩
    | ok =>
      rw [forM_cons_ok h rfl, forM_eq_ok]
      exact ⟨fun h => ⟨rfl, h⟩, fun h => h.2⟩

theorem exists_of_forM_eq_error {α ε : Type} {check : α → Except ε Unit} {e : ε} :
    ∀ {as : List α}, as.forM check = .error e → ∃ a ∈ as, check a = .error e
  | a :: as, he => by
    cases h : check a with
    | error e' =>
      rw [forM_cons_error h] at he
      exact ⟨a, List.mem_cons_self, by rw [h, Except.error.inj he]⟩
    | ok =>
      rw [forM_cons_ok h rfl] at he
      obtain ⟨b, hb, hbe⟩ := exists_of_forM_eq_error he
      exact ⟨b, List.mem_cons_of_mem a hb, hbe⟩

/-- A declaration that a later stage looks at has come through the first stage unchanged. -/
theorem Separate.mem_rewrite {s t : Stage} {stages : List Stage} (h : Separate (s :: stages))
    (ht : t ∈ stages) {ds : List Declaration} {d : Declaration} (hd : t.considers d = true) :
    d ∈ ds.flatMap (Declaration.rewrite s.pairs?) ↔ d ∈ ds := by
  have hst := (List.pairwise_cons.mp h).1 t ht
  rw [List.mem_flatMap]
  constructor
  · rintro ⟨e, he, hde⟩
    cases hp : s.pairs? e with
    | none =>
      rw [Declaration.rewrite_none hp, List.mem_singleton] at hde
      exact hde ▸ he
    | some pairs =>
      rw [Declaration.rewrite_some hp] at hde
      obtain ⟨pair, hpair, rfl⟩ := List.mem_map.mp hde
      rw [(hst e (considers_of_pairs? hp)).2 pairs hp pair hpair] at hd
      cases hd
  · intro hm
    have hs : s.considers d = false := by
      by_contra hc
      rw [(hst d (Bool.not_eq_false _ ▸ hc)).1] at hd
      cases hd
    exact ⟨d, hm, by rw [Declaration.rewrite_none (pairs?_of_not_considers hs)]; simp⟩

/-- Separate stages accept declarations exactly if each of them accepts each declaration. -/
theorem Separate.checkAll_eq_ok {stages : List Stage} (h : Separate stages)
    {ds : List Declaration} : checkAll stages ds = .ok () ↔
      ∀ d ∈ ds, ∀ s ∈ stages, s.check d = .ok () := by
  induction stages generalizing ds with
  | nil => exact ⟨fun _ _ _ _ hs => absurd hs List.not_mem_nil, fun _ => rfl⟩
  | cons s stages ih =>
    have ih : checkAll stages (ds.flatMap (Declaration.rewrite s.pairs?)) = .ok () ↔ _ :=
      ih (List.pairwise_cons.mp h).2
    have hrest : (∀ d ∈ ds.flatMap (Declaration.rewrite s.pairs?), ∀ t ∈ stages,
        t.check d = .ok ()) ↔ ∀ d ∈ ds, ∀ t ∈ stages, t.check d = .ok () := by
      constructor
      all_goals
        intro hall d hd t ht
        by_cases hc : t.considers d = true
        · first
          | exact hall d ((h.mem_rewrite ht hc).mpr hd) t ht
          | exact hall d ((h.mem_rewrite ht hc).mp hd) t ht
        · exact check_of_not_considers (Bool.eq_false_iff.mpr hc)
    rw [checkAll]
    cases hf : ds.forM s.check with
    | error e =>
      refine ⟨fun h => (by cases h), fun hall => ?_⟩
      rw [forM_eq_ok.mpr fun d hd => hall d hd s List.mem_cons_self] at hf
      cases hf
    | ok =>
      refine Iff.trans ih (hrest.trans ⟨fun hall d hd t ht => ?_, fun hall d hd t ht =>
        hall d hd t (List.mem_cons_of_mem s ht)⟩)
      rcases List.mem_cons.mp ht with rfl | ht
      · exact forM_eq_ok.mp hf d hd
      · exact hall d hd t ht

/-- What separate stages refuse is a declaration that one of them looks at. -/
theorem Separate.checkAll_eq_error : ∀ {stages : List Stage}, Separate stages →
    ∀ {ds : List Declaration} {e : Syntax.OverlongInteger}, checkAll stages ds = .error e →
      ∃ d ∈ ds, ∃ s ∈ stages, s.check d = .error e
  | s :: stages, h, ds, e, he => by
    rw [checkAll] at he
    cases hf : ds.forM s.check with
    | error e' =>
      rw [hf] at he
      cases he
      obtain ⟨d, hd, hde⟩ := exists_of_forM_eq_error hf
      exact ⟨d, hd, s, List.mem_cons_self, hde⟩
    | ok =>
      rw [hf] at he
      obtain ⟨d, hd, t, ht, hde⟩ := checkAll_eq_error (List.pairwise_cons.mp h).2 he
      have hc : t.considers d = true := by
        by_contra hc
        rw [check_of_not_considers (Bool.eq_false_iff.mpr hc)] at hde
        cases hde
      exact ⟨d, (h.mem_rewrite ht hc).mp hd, t, List.mem_cons_of_mem s ht, hde⟩

end Stage

namespace Pass

/-- Independent stages together are one traversal of a body. -/
theorem foldl_apply : ∀ {stages : List Stage}, Stage.Independent stages → ∀ body : List Node,
    stages.foldl (fun body stage => stage.apply body) body =
      body.flatMap (Node.rewrite (Stage.decided? stages))
  | [], _, body => by
    have hid : ∀ n ∈ body, Node.rewrite (Stage.decided? []) n = [n] := by
      intro n _
      cases n <;> rfl
    rw [List.foldl_nil, List.flatMap_congr hid, List.flatMap_singleton']
  | s :: stages, hind, body => by
    rw [List.foldl_cons, foldl_apply (List.pairwise_cons.mp hind).2, Stage.apply_eq,
      List.flatMap_assoc]
    refine List.flatMap_congr fun n _ => ?_
    rw [Node.rewrite_rewrite hind.later]
    exact congrArg (Node.rewrite · n) (funext (Stage.decided?_cons s stages)).symm

theorem applyBody_eq {p : Pass} (hind : Stage.Independent p.stages) (body : List Node) :
    p.applyBody body = body.flatMap (Node.rewrite (Stage.decided? p.stages)) :=
  foldl_apply hind body

theorem applyNodes_eq (p : Pass) (ns : List Node) : p.applyNodes ns = ns.map p.applyNode := by
  induction ns with
  | nil => rfl
  | cons n ns ih => rw [applyNodes, List.map_cons, ih]

theorem listBodies_eq (p : Pass) (ns : List Node) : p.listBodies ns = ns.flatMap p.bodies := by
  induction ns with
  | nil => rfl
  | cons n ns ih => rw [listBodies, List.flatMap_cons, ih]

/-- The number of declarations that a pass replaces, body by body. -/
theorem count_eq {p : Pass} (hind : Stage.Independent p.stages) (sheet : Sheet) :
    p.count sheet = ((p.listBodies sheet).flatMap Node.declarations).countP
      fun d => (Stage.decided? p.stages d).isSome := by
  rw [count, visits, meetings, List.flatMap_assoc]
  induction p.listBodies sheet with
  | nil => rfl
  | cons body bodies ih =>
    rw [List.flatMap_cons, List.countP_append, ih, Stage.countP_bodies hind, List.flatMap_cons,
      List.countP_append]

/-- Checking a flattened list is checking its parts one by one, and the first refusal is the same. -/
theorem forM_flatMap {α β ε : Type} (part : α → List β) (check : β → Except ε Unit) :
    ∀ as : List α, (as.flatMap part).forM check = as.forM fun a => (part a).forM check
  | [] => rfl
  | a :: as => by
    change _ = ((part a).forM check).bind fun _ => as.forM fun a => (part a).forM check
    rw [List.flatMap_cons, ← forM_flatMap part check as]
    induction part a with
    | nil => rfl
    | cons b bs ih =>
      change (check b).bind (fun _ => (bs ++ as.flatMap part).forM check) =
        ((check b).bind fun _ => bs.forM check).bind _
      cases check b with
      | error => rfl
      | ok => exact ih

/-- What a pass refuses, body by body. -/
theorem check_eq (p : Pass) (sheet : Sheet) :
    p.check sheet = (p.listBodies sheet).forM fun body =>
      Stage.checkAll p.stages (Node.declarations body) := by
  rw [check, meetings, forM_flatMap]
  exact forM_congr fun body _ => Stage.check_bodies p.stages body

/-- The stages of a pass refuse nothing about a declaration. -/
def Accepts (p : Pass) (d : Declaration) : Prop := ∀ s ∈ p.stages, s.check d = .ok ()

/-- A pass with separate stages accepts a stylesheet if it accepts each declaration that it meets. -/
theorem check_eq_ok {p : Pass} (h : Stage.Separate p.stages) {sheet : Sheet} :
    p.check sheet = .ok () ↔
      ∀ body ∈ p.listBodies sheet, ∀ d ∈ Node.declarations body, p.Accepts d := by
  rw [check_eq, Stage.forM_eq_ok]
  exact forall₂_congr fun body _ => h.checkAll_eq_ok

end Pass

end CssExpand
