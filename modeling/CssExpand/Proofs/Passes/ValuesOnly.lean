import CssExpand.Proofs.Longhands.OnePass
import CssExpand.Proofs.Passes.Refusals
import CssExpand.Proofs.Passes.SelfContained

/-!
# Passes that change values only

Writing out defaults and adding units decide about one declaration at a time, and what they decide is
one pair. If the name in the pair is that of the declaration, the value is set in place and the tree
around it is not touched at all: every node is the same node, with the same parent and the same
children (`ValuesOnly`). That a name comes out as it went in needs a reason, since the parser lowers
names by their ASCII letters and the passes lower them in full.

* Names of shorthands with known defaults are plain, so the two ways of lowering agree on them
  (`prop_of_complete`). Writing out defaults changes values only, whatever the stylesheet.
* Adding units looks names up after lowering them in full. It changes values only if that changes
  none of the names it meets. With a Kelvin sign in `mask-size` it puts a new node with the name that
  it looked up in the place of the old one (`units_kelvinSign`).
-/

set_option autoImplicit false

namespace CssExpand

open Forest

/-! ## 1. Values set in place -/

/-- The value that a revision gives a declaration, unless it is a hack or stays as it is. -/
def Revision.newValue? (r : Revision) (d : Declaration) : Option String :=
  if d.isHack then none
  else (r.decide d.prop d.value).pairs?.bind fun pairs => pairs.head?.map Prod.snd

/-- What a node becomes if declarations are given new values. -/
def Forest.revaluedCell? (f : Forest) (newValue? : Declaration → Option String) (id : NodeId) :
    Option Cell :=
  match (f.declaration? id).bind newValue? with
  | some value => (f.cell? id).map (·.revalued value)
  | none => f.cell? id

/-- Between `f` and `g` nothing is changed but values of declarations in the blocks of the stylesheet:
each becomes what `newValue?` says, and stays if that says nothing. Every node keeps its id, which is
more than that the two trees have the same shape. -/
structure ValuesOnly (newValue? : Declaration → Option String) (f g : Forest) : Prop where
  declarations : ∀ block ∈ f.blocks, ∀ id ∈ f.children block,
    g.cell? id = f.revaluedCell? newValue? id
  /-- Every other node is what it was, with the same children and the same parent. -/
  nodes : ∀ id < f.fresh, (∀ block ∈ f.blocks, id ∉ f.children block) → g.cell? id = f.cell? id

/-- A rewriting that keeps the names of declarations sets values and leaves the children alone. -/
theorem Forest.Rewrites.revalued {q : Declaration → Option (List (String × String))}
    {newValue? : Declaration → Option String} {f g : Forest} {block : NodeId}
    {cs cs' : List NodeId} (h : Rewrites q f g block cs cs')
    (hq : ∀ id ∈ cs, ∀ d, f.declaration? id = some d →
      q d = (newValue? d).map fun value => [(d.prop, value)]) :
    cs' = cs ∧ ∀ id ∈ cs, g.cell? id = f.revaluedCell? newValue? id := by
  induction h with
  | nil => exact ⟨rfl, fun _ hid => absurd hid List.not_mem_nil⟩
  | @cons id out cs cs' first _ ih =>
    rw [List.forall_mem_cons] at hq
    obtain ⟨rfl, hcells⟩ := ih hq.2
    rw [List.forall_mem_cons]
    cases first with
    | kept hu hs =>
      refine ⟨rfl, hs.trans ?_, hcells⟩
      rw [revaluedCell?]
      cases hd : f.declaration? id with
      | none => rfl
      | some d =>
        have hnone : newValue? d = none := by
          rw [← Option.map_eq_none_iff, ← hq.1 d hd]
          exact hu d hd
        rw [Option.bind_some, hnone]
    | @replaced d pairs news hd hp ha =>
      -- a pair with the name of the declaration is set in place
      rw [hq.1 d hd] at hp
      obtain ⟨value, -, rfl⟩ := Option.map_eq_some_iff.mp hp
      rw [Declaration.isRevalued, beq_self_eq_true] at ha
      cases ha
    | @revalued d value hd hp hc =>
      rw [hq.1 d hd] at hp
      obtain ⟨value', hv, heq⟩ := Option.map_eq_some_iff.mp hp
      obtain rfl : value' = value := by simpa using heq
      refine ⟨rfl, ?_, hcells⟩
      rw [revaluedCell?, hd, Option.bind_some, hv, hc]

/-- A sweep over the blocks that keeps the names of declarations changes values only. -/
theorem Forest.Swept.valuesOnly {q : Declaration → Option (List (String × String))}
    {newValue? : Declaration → Option String} {f g : Forest} (h : Swept q f g f.blocks)
    (hq : ∀ d ∈ f.blocks.flatMap f.declarationsIn,
      q d = (newValue? d).map fun value => [(d.prop, value)]) : ValuesOnly newValue? f g := by
  have hin : ∀ block ∈ f.blocks, ∀ id ∈ f.children block, ∀ d, f.declaration? id = some d →
      q d = (newValue? d).map fun value => [(d.prop, value)] := fun block hb id hid d hd =>
    hq d (List.mem_flatMap.mpr ⟨block, hb, List.mem_filterMap.mpr ⟨id, hid, hd⟩⟩)
  refine ⟨fun block hb => ?_, fun id hid hfree => ?_⟩
  · obtain ⟨cs', hr, -⟩ := h.bodies block hb
    exact (hr.revalued (hin block hb)).2
  · by_cases hb : id ∈ f.blocks
    · obtain ⟨cs', hr, hcell⟩ := h.bodies id hb
      obtain ⟨rfl, -⟩ := hr.revalued (hin id hb)
      rw [hcell]
      exact (cell?_same_children (isBody_of_mem_blocksWithin hb).children?).symm
    · exact h.frame id hid hb hfree

/-! ## 2. Names -/

/-- The names of the shorthands with known defaults lower to themselves, and letter by letter. -/
theorem standard_names : ∀ s ∈ Registry.standard, Text.lower s.name = s.name ∧
    ∀ c ∈ s.name.toList, Text.isPlain c = true := by
  have h : (Registry.standard.all fun s =>
      Text.lower s.name == s.name && s.name.toList.all Text.isPlain) = true := by
    decide +kernel
  intro s hs
  have hs := List.all_eq_true.mp h s hs
  rw [Bool.and_eq_true, beq_iff_eq] at hs
  exact ⟨hs.1, List.all_eq_true.mp hs.2⟩

/-- Defaults are written out only for a name that is known as it is, if the parser made it. -/
theorem prop_of_complete {ignored : Ignored} {prop value : String} {pairs : List (String × String)}
    (hname : ∃ name, prop = propertyName name)
    (h : complete .standard ignored prop value = .replace pairs) :
    (Registry.standard.find? prop).isSome = true ∧ ∃ completed, pairs = [(prop, completed)] := by
  obtain ⟨name, rfl⟩ := hname
  have hcustom : isCustomName (propertyName name) = false := by
    by_contra hc
    rw [Bool.not_eq_false] at hc
    simp [complete, protectedBy?, hc] at h
  obtain ⟨s, completed, hs, -, -, rfl⟩ := complete_eq_replace h
  have hlower : s.name = Text.lower (propertyName name) := by simpa using List.find?_some hs
  have hplain := (standard_names s (List.mem_of_find?_eq_some hs)).2
  have heq := eq_lower_propertyName hcustom (hlower ▸ hplain)
  rw [← heq] at hs
  exact ⟨by rw [hs]; rfl, completed, by rw [← heq]⟩

theorem lower_of_withUnits {ignored : Ignored} {prop value : String}
    {pairs : List (String × String)} (h : withUnits ignored prop value = .replace pairs) :
    isCustomName prop = false ∧ ∃ revised, pairs = [(Text.lower prop, revised)] := by
  refine ⟨?_, ?_⟩
  · by_contra hc
    rw [Bool.not_eq_false] at hc
    simp [withUnits, hc] at h
  · obtain ⟨r, marked, -, rfl⟩ := withUnits_eq_replace h
    exact ⟨_, rfl⟩

/-- A pass with one stage decides what its revision decides, under the name of the declaration. -/
theorem decided?_eq_newValue? {kind : PassKind} (hkind : kind ≠ .longhands) (ignored : Ignored)
    {d : Declaration} (hname : ∃ name, d.prop = propertyName name)
    (hlower : kind = .units → d.isCustom = false → Text.lower d.prop = d.prop) :
    Stage.decided? (kind.pass ignored).stages d =
      ((kind.revision ignored).newValue? d).map fun value => [(d.prop, value)] := by
  have hone : ∀ s : Stage, Stage.decided? [s] d = s.pairs? d := fun s => by
    rw [Stage.decided?_cons, Stage.decided?, List.findSome?_nil, Option.or_none]
  cases kind with
  | longhands => exact absurd rfl hkind
  | defaults =>
    rw [PassKind.pass, Pass.defaults, hone, Stage.pairs?_eq, Revision.newValue?]
    cases hhack : d.isHack with
    | true => simp [hhack]
    | false =>
      cases hdecide : complete .standard ignored d.prop d.value with
      | keep reason => simp [PassKind.revision, Revision.defaults, hdecide, Decision.pairs?]
      | replace pairs =>
        obtain ⟨hknown, completed, rfl⟩ := prop_of_complete hname hdecide
        simp [PassKind.revision, Revision.defaults, hhack, hdecide, hknown, Decision.pairs?]
  | units =>
    rw [PassKind.pass, Pass.units, hone, Stage.pairs?_eq, Revision.newValue?]
    cases hhack : d.isHack with
    | true => simp [hhack]
    | false =>
      cases hdecide : withUnits ignored d.prop d.value with
      | keep reason => simp [PassKind.revision, Revision.units, hdecide, Decision.pairs?]
      | replace pairs =>
        obtain ⟨hcustom, revised, rfl⟩ := lower_of_withUnits hdecide
        simp [PassKind.revision, Revision.units, hhack, hdecide, hlower rfl hcustom,
          Decision.pairs?]

/-! ## 3. The theorem -/

/-- What a pass with one stage refuses is a declaration that is no hack and that its revision
cannot read. -/
theorem exists_of_checkAll_error {kind : PassKind} (hkind : kind ≠ .longhands) {ignored : Ignored}
    {ds : List Declaration} {cause : Syntax.OverlongInteger}
    (h : Stage.checkAll (kind.pass ignored).stages ds = .error cause) :
    ∃ d ∈ ds, d.isHack = false ∧
      (kind.revision ignored).check d.prop d.value = .error cause := by
  have hone : ∃ s, (kind.pass ignored).stages = [s] ∧
      ∀ d : Declaration, s.considers d = true → d.isHack = false := by
    cases kind with
    | longhands => exact absurd rfl hkind
    | defaults => exact ⟨_, rfl, fun d hd => by simpa using (Bool.and_eq_true_iff.mp hd).2⟩
    | units => exact ⟨_, rfl, fun d hd => by simpa using hd⟩
  obtain ⟨s, hs, hhack⟩ := hone
  have hsep : Stage.Separate (kind.pass ignored).stages := hs ▸ List.pairwise_singleton ..
  obtain ⟨d, hd, t, ht, hdt⟩ := hsep.checkAll_eq_error h
  rw [Stage.check] at hdt
  split at hdt
  · next hc =>
    rw [PassKind.revision_of_mem_stages ht] at hdt
    rw [hs, List.mem_singleton] at ht
    exact ⟨d, hd, hhack d (ht ▸ hc), hdt⟩
  · cases hdt

/-- On a parsed stylesheet, writing out defaults and adding units change values only. A declaration
is given a new value exactly if it is no hack and the revision decides about it, and then it is the
value that the revision says. Adding units has to meet names that lowering in full leaves alone: of any
other name it makes a new declaration, which is no longer the same node. -/
theorem valuesOnly_of_parse {css : String} {sheet : Sheet} (h : Sheet.parse css = .ok sheet)
    {kind : PassKind} (hkind : kind ≠ .longhands) (ignored : Ignored)
    (hlower : kind = .units → ∀ d ∈ (ofSheet sheet).blocks.flatMap (ofSheet sheet).declarationsIn,
      d.isCustom = false → Text.lower d.prop = d.prop) :
    (Edit.runPass (kind.pass ignored)).Ends (ofSheet sheet)
      (fun _ g => ValuesOnly (kind.revision ignored).newValue? (ofSheet sheet) g)
      (fun e _ => ∃ d ∈ (ofSheet sheet).blocks.flatMap (ofSheet sheet).declarationsIn,
        d.isHack = false ∧ ∃ cause,
          (kind.revision ignored).check d.prop d.value = .error cause ∧ e = .overlong cause) := by
  have hreach : (ofSheet sheet).bodiesFor (kind.pass ignored) = (ofSheet sheet).blocks := by
    cases kind with
    | longhands => exact absurd rfl hkind
    | defaults => rfl
    | units => rfl
  have hname : ∀ d ∈ (ofSheet sheet).blocks.flatMap (ofSheet sheet).declarationsIn,
      ∃ name, d.prop = propertyName name := fun d hd =>
    exists_name_of_bodiesFor h (kind.pass ignored) (hreach ▸ hd)
  have hends := Edit.ends_runPass (kind.independent ignored) (sound_ofSheet sheet)
  rw [hreach] at hends
  refine hends.mono ?_ ?_
  · rintro n g ⟨-, -, -, hswept⟩
    exact hswept.valuesOnly fun d hd =>
      decided?_eq_newValue? hkind ignored (hname d hd) fun hunits => hlower hunits d hd
  · rintro e g ⟨⟨cause, he, hc⟩, -⟩
    obtain ⟨block, hblock, hc⟩ := Stage.exists_of_forM_eq_error hc
    obtain ⟨d, hd, hhack, hcheck⟩ := exists_of_checkAll_error hkind hc
    exact ⟨d, List.mem_flatMap.mpr ⟨block, hblock, hd⟩, hhack, cause, hcheck, he⟩

/-- A stylesheet with a zero that takes on a unit, a hack and a custom property. -/
def zeroMargins : Sheet :=
  [.rule "a"
    [.declaration ⟨"margin", "0", false⟩, .declaration ⟨"_margin", "0", false⟩,
     .declaration ⟨"--K", "0", false⟩]]

/-- A sheet with a zero to change, a hacked name and a custom property with a capital. -/
theorem valuesOnly_of_parse_zeroMargins :
    Sheet.parse "a\x7bmargin:0;_margin:0;--K:0\x7d" = .ok zeroMargins ∧
      (Edit.runPass (PassKind.units.pass .nothing)).Ends (ofSheet zeroMargins)
        (fun _ g => ValuesOnly (PassKind.units.revision .nothing).newValue? (ofSheet zeroMargins) g)
        (fun e _ => ∃ d ∈ (ofSheet zeroMargins).blocks.flatMap (ofSheet zeroMargins).declarationsIn,
          d.isHack = false ∧ ∃ cause,
            (PassKind.units.revision .nothing).check d.prop d.value = .error cause ∧
              e = .overlong cause) := by
  have h : Sheet.parse "a\x7bmargin:0;_margin:0;--K:0\x7d" = .ok zeroMargins := by
    rw [zeroMargins]
    cbv
  have hdeclarations : (ofSheet zeroMargins).blocks.flatMap (ofSheet zeroMargins).declarationsIn =
      [⟨"margin", "0", false⟩, ⟨"_margin", "0", false⟩, ⟨"--K", "0", false⟩] := by
    decide +kernel
  refine ⟨h, valuesOnly_of_parse h (by decide) .nothing fun _ d hd hcustom => ?_⟩
  rw [hdeclarations] at hd
  simp only [List.mem_cons, List.not_mem_nil, or_false] at hd
  rcases hd with rfl | rfl | rfl
  · decide +kernel
  · decide +kernel
  · cases hcustom

/-- A stylesheet with a property that is `mask-size` but for a Kelvin sign. -/
def kelvinMask : Sheet := [.rule "a" [.declaration ⟨"mas\u212A-size", "0", false⟩]]

/-- A Kelvin sign lowers to `k`, but not letter by letter. So adding units puts a new node, which has
another name, in the place of the declaration. -/
theorem units_kelvinSign :
    Sheet.parse "a\x7bmas\u212A-size:0\x7d" = .ok kelvinMask ∧
      (ofSheet kelvinMask).blocks = [1] ∧ (ofSheet kelvinMask).children 1 = [2] ∧
      (PassKind.units.revision .nothing).newValue? ⟨"mas\u212A-size", "0", false⟩ = some "0px" ∧
      (Edit.runPass (PassKind.units.pass .nothing)).Ends (ofSheet kelvinMask)
        (fun _ g => g.children 1 = [3] ∧
          g.sheet = [.rule "a" [.declaration ⟨"mask-size", "0px", false⟩]])
        (fun _ _ => False) := by
  refine ⟨?_, ?_, ?_, ?_, ?_⟩
  · rw [kelvinMask]
    cbv
  · decide +kernel
  · decide +kernel
  · decide +kernel
  · let after : Forest :=
      ⟨#[⟨.sheet [1], none⟩, ⟨.rule "a" [3], some 0⟩,
        ⟨.declaration ⟨"mas\u212A-size", "0", false⟩, none⟩,
        ⟨.declaration ⟨"mask-size", "0px", false⟩, some 1⟩]⟩
    have hrun : (Edit.runPass (PassKind.units.pass .nothing)).endsOn (ofSheet kelvinMask) after =
        true := by
      decide +kernel
    exact (Edit.Ends.of_endsOn hrun).mono (fun _ _ hg => hg ▸ ⟨rfl, rfl⟩) fun _ _ => id

end CssExpand
