import CssExpand.Convert
import CssExpand.Proofs.Passes.Protected
import CssExpand.Proofs.Syntax.Overlong
import CssExpand.Proofs.Syntax.Tractable

/-!
# What stops a conversion

Every revision decides about every value, and a stylesheet that was read is always written, with one
exception: an integer with more digits than a number may have stops whatever reads it. The theorem
(`stoppedByOverlong`) says so for single values, for border lines, for whole texts and for the passes
in place, and it says where the digits stand: in the text, or in what a value falls into when it is
read (`readings`). Such a text need not be part of the value as it was written. A word is written
from its tokens and then stripped of blanks, and what is left of a name can be digits only.

There are two more ways to be stopped that have no place here, as nothing here can run out of stack or
hold half a character. Brackets that nest too deep and the escape of a surrogate stop whoever reads
them. So the theorem is about tractable texts (`Tractable`): every text that is read has to be one, the
source itself and what the values fall into that are met on the way (`ReadsTractable`).

Each check of the code is traced to the texts that it reads (`RefusesOnly`), from the shorthands up.
-/

set_option autoImplicit false

namespace CssExpand

open Syntax Value Forest

/-! ## 1. Checks that read some texts -/

/-- The digits of an overlong integer stand in one of the texts. -/
def Syntax.OverlongInteger.StandsIn (e : OverlongInteger) (texts : List String) : Prop :=
  Numeral.digitLimit < e.digits ∧ ∃ text ∈ texts, HasDigitRun e.digits text

/-- A check refuses nothing but an overlong integer in one of the texts. -/
def RefusesOnly (texts : List String) (check : Except OverlongInteger Unit) : Prop :=
  ∀ e, check = .error e → e.StandsIn texts

namespace RefusesOnly

variable {texts : List String}

theorem pass : RefusesOnly texts (.ok ()) := by
  intro e h
  cases h

theorem bind {first : Except OverlongInteger Unit} {next : Unit → Except OverlongInteger Unit}
    (h : RefusesOnly texts first) (hn : RefusesOnly texts (next ())) :
    RefusesOnly texts (first >>= next) := by
  cases first with
  | error e => exact fun e' he => h e' he
  | ok => exact hn

theorem mono {texts' : List String} {check : Except OverlongInteger Unit}
    (h : RefusesOnly texts check) (hs : texts ⊆ texts') : RefusesOnly texts' check := by
  intro e he
  obtain ⟨hlimit, text, htext, hrun⟩ := h e he
  exact ⟨hlimit, text, hs htext, hrun⟩

theorem checkIntegers {text : String} (h : text ∈ texts) :
    RefusesOnly texts (checkIntegers text) := by
  intro e he
  obtain ⟨hlimit, hrun⟩ := digitRun_of_checkIntegers he
  exact ⟨hlimit, text, h, hrun⟩

theorem checkWords {ws : List String} (h : ws ⊆ texts) : RefusesOnly texts (checkWords ws) := by
  intro e he
  obtain ⟨w, hw, hwe⟩ := Stage.exists_of_forM_eq_error he
  exact checkIntegers (h hw) e hwe

/-- What is decided after such a check is decided, unless there is an overlong integer. -/
theorem run {r : Revision} {prop value : String} (h : RefusesOnly texts (r.check prop value)) :
    r.run prop value = .ok (r.decide prop value) ∨
      ∃ e, r.run prop value = .error e ∧ e.StandsIn texts := by
  rw [Revision.run]
  cases hc : r.check prop value with
  | ok => exact .inl rfl
  | error e => exact .inr ⟨e, rfl, h e hc⟩

end RefusesOnly

/-- A decision is made about a value that is accepted. -/
theorem Revision.run_eq_ok {r : Revision} {prop value : String} {decision : Decision} :
    r.run prop value = .ok decision ↔
      r.check prop value = .ok () ∧ r.decide prop value = decision := by
  rw [run, bind_eq_ok]
  exact ⟨fun ⟨_, h, hd⟩ => ⟨h, Except.ok.inj hd⟩, fun ⟨h, hd⟩ => ⟨(), h, congrArg Except.ok hd⟩⟩

/-! ## 2. What a value falls into -/

/-- The texts of a layer that may be read: the layer, its words, the words glued at slashes, and the
parts of these before a slash. -/
def layerReadings (layer : String) : List String :=
  layer :: (words layer ++ (glueSlashes (words layer) ++
    (glueSlashes (words layer)).map beforeSlash))

/-- The texts of a value that may be read: those of the value as one layer, and of its layers. -/
def readings (value : String) : List String := (value :: layers value).flatMap layerReadings

theorem words_subset_layerReadings (layer : String) : words layer ⊆ layerReadings layer :=
  fun _ h => List.mem_cons_of_mem _ (List.mem_append_left _ h)

theorem layerReadings_subset {layer value : String} (h : layer ∈ value :: layers value) :
    layerReadings layer ⊆ readings value :=
  fun _ ht => List.mem_flatMap.mpr ⟨layer, h, ht⟩

theorem mem_readings (value : String) : value ∈ readings value :=
  layerReadings_subset List.mem_cons_self List.mem_cons_self

theorem words_subset_readings (value : String) : words value ⊆ readings value :=
  List.Subset.trans (words_subset_layerReadings value) (layerReadings_subset List.mem_cons_self)

theorem takeThrough_subset {α : Type} (p : α → Bool) (xs : List α) : takeThrough p xs ⊆ xs := by
  induction xs with
  | nil => exact fun _ h => h
  | cons x xs ih =>
    rw [takeThrough]
    split
    · exact List.cons_subset_cons x (List.nil_subset xs)
    · exact List.cons_subset_cons x ih

theorem Shadow.readWords_subset (room : Nat) (ws : List String) :
    Shadow.readWords room ws ⊆ ws := by
  induction ws generalizing room with
  | nil => cases room <;> exact fun _ h => h
  | cons w ws ih =>
    cases room with
    | zero => exact List.nil_subset _
    | succ room => exact List.cons_subset_cons w (ih _)

/-- The parts that a font is read by are words glued at slashes, or stand before a slash there. -/
theorem Font.readParts_subset (ws : List String) :
    Font.readParts ws ⊆ glueSlashes ws ++ (glueSlashes ws).map beforeSlash := by
  have hglued : ∀ {part}, part ∈ (glueSlashes ws).reverse → part ∈ glueSlashes ws :=
    List.mem_reverse.mp
  intro text h
  rcases List.mem_append.mp h with h | h
  · obtain ⟨part, hpart, rfl⟩ := List.mem_map.mp h
    exact List.mem_append_right _
      (List.mem_map_of_mem (hglued (takeThrough_subset _ _ hpart)))
  · exact List.mem_append_left _
      (hglued (List.mem_of_mem_drop (takeThrough_subset _ _ h)))

/-- To classify the words of a layer, a known shorthand reads nothing but texts of the layer. -/
theorem reads_subset {s : Shorthand} (hs : s ∈ Registry.standard) (layer : String) :
    s.reads (words layer) ⊆ layerReadings layer := by
  have hwords := words_subset_layerReadings layer
  simp only [Registry.standard, List.mem_cons, List.not_mem_nil, or_false] at hs
  rcases hs with rfl | rfl | rfl | rfl | rfl | rfl | rfl | rfl
  · exact hwords
  · exact hwords
  · exact List.Subset.trans (Shadow.readWords_subset _ _) hwords
  · exact List.Subset.trans (takeThrough_subset _ _) hwords
  · exact List.nil_subset _
  · exact List.nil_subset _
  · refine List.Subset.trans (Font.readParts_subset (words layer)) fun text h => ?_
    exact List.mem_cons_of_mem _ (List.mem_append_right _ h)
  · change (if (words layer).any (isOneOf wideKeywords) then [] else words layer) ⊆ _
    split
    · exact List.nil_subset _
    · exact hwords

/-! ## 3. The checks of the revisions -/

namespace Shorthand

variable {s : Shorthand}

theorem refusesOnly_checkLayers (hs : s ∈ Registry.standard) {texts : List String} :
    ∀ {ls : List String}, (∀ layer ∈ ls, layerReadings layer ⊆ texts) →
      RefusesOnly texts (s.checkLayers ls)
  | [], _ => .pass
  | layer :: ls, h => by
    rw [List.forall_mem_cons] at h
    rw [checkLayers]
    refine .bind (.checkIntegers (h.1 List.mem_cons_self)) ?_
    refine .bind (.checkWords (List.Subset.trans (reads_subset hs layer) h.1)) ?_
    split
    · exact refusesOnly_checkLayers hs h.2
    · exact .pass

/-- The layers of a value are its layers or the value itself. -/
theorem layersOf_subset (s : Shorthand) (value : String) :
    s.layersOf value ⊆ value :: layers value := by
  rw [layersOf]
  split
  · exact List.subset_cons_self ..
  · exact List.cons_subset_cons value (List.nil_subset _)

theorem refusesOnly_check (hs : s ∈ Registry.standard) (value : String) :
    RefusesOnly (readings value) (s.check value) := by
  have hlayers : RefusesOnly (readings value) (s.checkLayers (s.layersOf value)) :=
    refusesOnly_checkLayers hs fun layer hl => layerReadings_subset (s.layersOf_subset value hl)
  rw [check]
  split
  · exact .bind (.checkIntegers (mem_readings value)) hlayers
  · exact hlayers

end Shorthand

/-- Reading the words of a border, of a side or of a part on all sides. -/
theorem BorderShorthand.refusesOnly_check (b : BorderShorthand) (value : String) :
    RefusesOnly (readings value) (b.check value) := by
  refine .bind (.checkIntegers (mem_readings value)) ?_
  cases b with
  | part p => exact .pass
  | all => exact .checkWords (words_subset_readings value)
  | side s => exact .checkWords (words_subset_readings value)

theorem Columns.readWords_subset (ws : List String) : Columns.readWords ws ⊆ ws := by
  rw [Columns.readWords]
  split
  · exact List.nil_subset _
  · exact fun _ h => h

theorem Compound.refusesOnly_check (s : Compound) (value : String) :
    RefusesOnly (readings value) (s.check value) := by
  cases s with
  | box name => exact .checkIntegers (mem_readings value)
  | columns =>
    refine .bind (.checkIntegers (mem_readings value)) (.checkWords ?_)
    exact List.Subset.trans (Columns.readWords_subset _) (words_subset_readings value)
  | border b => exact b.refusesOnly_check value

/-- How the pass of a kind changes single declarations. -/
def PassKind.revision (ignored : Ignored) : PassKind → Revision
  | .longhands => .longhands ignored
  | .defaults => .defaults .standard ignored
  | .units => .units ignored

/-- Every revision refuses nothing but overlong integers in what the value falls into. -/
theorem PassKind.refusesOnly_check (kind : PassKind) (ignored : Ignored) (prop value : String) :
    RefusesOnly (readings value) ((kind.revision ignored).check prop value) := by
  cases kind with
  | longhands =>
    change RefusesOnly _ (checkLonghands ignored prop value)
    rw [checkLonghands]
    split
    · exact Compound.refusesOnly_check _ value
    · exact .pass
  | defaults =>
    change RefusesOnly _ (checkComplete .standard ignored prop value)
    rw [checkComplete]
    split
    · next hs => exact Shorthand.refusesOnly_check (List.mem_of_find?_eq_some hs) value
    · exact .pass
  | units =>
    change RefusesOnly _ (checkUnits ignored prop value)
    rw [checkUnits]
    split
    · exact .pass
    · refine .bind (.checkIntegers (mem_readings value)) ?_
      split
      · exact Shorthand.refusesOnly_check List.mem_cons_self value
      · exact .pass

/-! ## 4. The declarations that passes meet -/

namespace Pass

/-- The declarations that a pass meets, stage by stage. -/
def met (p : Pass) (sheet : Sheet) : List Declaration :=
  (p.meetings sheet).flatMap fun m => Node.declarations m.2

theorem mem_of_mem_stageBodies {stages : List Stage} {body : List Node} {m : Stage × List Node}
    (h : m ∈ stageBodies stages body) : m.1 ∈ stages := by
  induction stages generalizing body with
  | nil => cases h
  | cons stage stages ih =>
    rcases List.mem_cons.mp h with rfl | h
    · exact List.mem_cons_self
    · exact List.mem_cons_of_mem stage (ih h)

/-- What a pass refuses is a declaration that it meets. -/
theorem exists_of_check {p : Pass} {sheet : Sheet} {e : OverlongInteger}
    (h : p.check sheet = .error e) : ∃ s ∈ p.stages, ∃ d ∈ p.met sheet, s.check d = .error e := by
  obtain ⟨m, hm, h⟩ := Stage.exists_of_forM_eq_error h
  obtain ⟨d, hd, h⟩ := Stage.exists_of_forM_eq_error h
  obtain ⟨body, -, hbody⟩ := List.mem_flatMap.mp hm
  exact ⟨m.1, mem_of_mem_stageBodies hbody, d, List.mem_flatMap.mpr ⟨m, hm, hd⟩, h⟩

end Pass

theorem PassKind.revision_of_mem_stages {kind : PassKind} {ignored : Ignored} {s : Stage}
    (h : s ∈ (kind.pass ignored).stages) : s.revision = kind.revision ignored := by
  cases kind with
  | longhands =>
    obtain ⟨names, -, rfl⟩ := List.mem_map.mp h
    rfl
  | defaults =>
    obtain rfl := List.mem_singleton.mp h
    rfl
  | units =>
    obtain rfl := List.mem_singleton.mp h
    rfl

/-- The declarations that passes meet which run one after the other. -/
def metInTurn : List Pass → Sheet → List Declaration
  | [], _ => []
  | p :: ps, sheet => p.met sheet ++ metInTurn ps (p.apply sheet)

/-- What passes refuse is an overlong integer in the value of a declaration that they meet. -/
theorem standsIn_of_checkPasses {ignored : Ignored} {e : OverlongInteger} :
    ∀ {kinds : List PassKind} {sheet : Sheet},
      checkPasses (kinds.map (PassKind.pass ignored)) sheet = .error e →
      ∃ d ∈ metInTurn (kinds.map (PassKind.pass ignored)) sheet, e.StandsIn (readings d.value)
  | kind :: kinds, sheet, h => by
    change (((kind.pass ignored).check sheet).bind fun _ => checkPasses _ _) = _ at h
    cases hc : (kind.pass ignored).check sheet with
    | error e' =>
      rw [hc] at h
      obtain rfl := Except.error.inj h
      obtain ⟨s, hs, d, hd, hde⟩ := Pass.exists_of_check hc
      rw [Stage.check] at hde
      split at hde
      · rw [PassKind.revision_of_mem_stages hs] at hde
        exact ⟨d, List.mem_append_left _ hd, kind.refusesOnly_check ignored _ _ _ hde⟩
      · cases hde
    | ok =>
      rw [hc] at h
      obtain ⟨d, hd, he⟩ := standsIn_of_checkPasses h
      exact ⟨d, List.mem_append_right _ hd, he⟩

/-! ## 5. Writing -/

/-- A node that can be written in a list of rules, whatever stands in its bodies. -/
inductive Node.Writable : Node → Prop
  | comment (text : String) : Writable (.comment text)
  | rule (selector : String) (body : List Node) : Writable (.rule selector body)
  | atStatement (name prelude : String) (nested : Bool) : Writable (.atStatement name prelude nested)
  | atRules (name prelude : String) {nodes : List Node} (rules : ∀ n ∈ nodes, n.Writable) :
    Writable (.atBlock name prelude true nodes)
  | atBody (name prelude : String) (body : List Node) : Writable (.atBlock name prelude false body)

theorem Node.InRules.writable {n : Node} (h : n.InRules) : n.Writable := by
  induction h with
  | comment text => exact .comment text
  | rule selector body => exact .rule selector _
  | atStatement name prelude nested => exact .atStatement name prelude nested
  | atRules name prelude rules ih => exact .atRules name prelude ih
  | atBody name prelude body => exact .atBody name prelude _

/-- A pass goes into rules and at-rules, and leaves what they are. -/
theorem Node.Writable.applyNode (p : Pass) {n : Node} (h : n.Writable) :
    (p.applyNode n).Writable := by
  induction h with
  | comment text => exact .comment text
  | rule selector body => exact .rule selector _
  | atStatement name prelude nested => exact .atStatement name prelude nested
  | atRules name prelude rules ih =>
    rw [Pass.applyNode, Pass.applyNodes_eq]
    refine .atRules name prelude fun m hm => ?_
    obtain ⟨n, hn, rfl⟩ := List.mem_map.mp hm
    exact ih n hn
  | atBody name prelude body => exact .atBody name prelude _

theorem writable_applyPasses {ps : List Pass} : ∀ {sheet : Sheet}, (∀ n ∈ sheet, n.Writable) →
    ∀ n ∈ applyPasses ps sheet, n.Writable := by
  induction ps with
  | nil => exact fun h => h
  | cons p ps ih =>
    intro sheet h
    have happly : ∀ m ∈ p.apply sheet, m.Writable := by
      rw [Pass.apply, Pass.applyNodes_eq]
      intro m hm
      obtain ⟨n, hn, rfl⟩ := List.mem_map.mp hm
      exact (h n hn).applyNode p
    exact ih happly

/-- Nodes that can be written one by one can be written as a list. -/
theorem exists_layoutAll {indent pad : String} {ns : List Node}
    (h : ∀ n ∈ ns, ∃ text, n.layout indent pad = .ok text) :
    ∃ texts, layoutAll indent pad ns = .ok texts := by
  induction ns with
  | nil => exact ⟨[], rfl⟩
  | cons n ns ih =>
    rw [List.forall_mem_cons] at h
    obtain ⟨⟨text, hn⟩, hns⟩ := h
    obtain ⟨texts, hns⟩ := ih hns
    refine ⟨text :: texts, ?_⟩
    rw [layoutAll, hn, hns]
    rfl

theorem Node.Writable.layout {indent : String} {n : Node} (h : n.Writable) (pad : String) :
    ∃ text, n.layout indent pad = .ok text := by
  induction h generalizing pad with
  | comment text => exact ⟨_, rfl⟩
  | rule selector body => exact ⟨_, rfl⟩
  | atStatement name prelude nested => exact ⟨_, rfl⟩
  | atRules name prelude rules ih =>
    obtain ⟨lines, hlines⟩ := exists_layoutAll fun n hn => ih n hn (pad ++ indent)
    refine ⟨blockText pad (atHeader name prelude) lines, ?_⟩
    rw [Node.layout, hlines]
    rfl
  | atBody name prelude body => exact ⟨_, rfl⟩

theorem exists_write {sheet : Sheet} (h : ∀ n ∈ sheet, n.Writable) (indent : String) :
    ∃ text, sheet.write indent = .ok text := by
  have hlayout : ∀ n ∈ sheet, ∃ text, n.layout indent "" = .ok text := fun n hn => (h n hn).layout ""
  obtain ⟨texts, htexts⟩ := exists_layoutAll hlayout
  refine ⟨if texts.isEmpty then "" else "\n\n".intercalate texts ++ "\n", ?_⟩
  rw [Sheet.write, htexts]
  rfl

/-! ## 6. The theorem -/

/-- Why a text is not converted: a rule in it has no block, an integer in it is overlong, or one in the
value of a declaration that a pass meets. It names the text in which the digits stand, which need not
be a part of the source. -/
inductive Failure.Expected (settings : Settings) (css : String) : Failure → Prop
  | unfinished (position : Position) : Expected settings css (.parse (.unfinished position))
  | text {e : OverlongInteger} (digits : e.StandsIn [css]) :
    Expected settings css (.parse (.overlong e))
  | value {e : OverlongInteger} {sheet : Sheet} {d : Declaration}
      (read : Sheet.parse css = .ok sheet) (met : d ∈ metInTurn settings.passes sheet)
      (digits : e.StandsIn (readings d.value)) :
    Expected settings css (.overlong e)

/-- The texts that are read while a text is converted are tractable: the text itself, and all that the
values fall into which the passes meet, one pass after the other. -/
structure ReadsTractable (settings : Settings) (css : String) : Prop where
  source : Tractable css
  values : ∀ sheet, Sheet.parse css = .ok sheet → ∀ d ∈ metInTurn settings.passes sheet,
    ∀ text ∈ readings d.value, Tractable text

/-- Under these settings only overlong integers stop what reads values, and nothing else stops the
conversion of a text that reads as a stylesheet, as long as the texts that are read are tractable. The
parts are the ways in which a program is entered: by a value, by a border line, by a text, and by a
stylesheet that is there already. -/
structure StoppedByOverlong (settings : Settings) : Prop where
  /-- Every revision decides about every value. -/
  decides : ∀ (kind : PassKind) (prop value : String), (∀ text ∈ readings value, Tractable text) →
    let r := kind.revision settings.ignored
    r.run prop value = .ok (r.decide prop value) ∨
      ∃ e, r.run prop value = .error e ∧ e.StandsIn (readings value)
  /-- Every value can be read as a border line or as the words for four sides. -/
  lines : ∀ (b : BorderShorthand) (value : String), (∀ text ∈ readings value, Tractable text) →
    b.check value = .ok () ∨ ∃ e, b.check value = .error e ∧ e.StandsIn (readings value)
  /-- Every text is converted and written, or has an unfinished rule. -/
  converts : ∀ css : String, ReadsTractable settings css →
    (∃ converted, convertWith settings css = .ok converted) ∨
      ∃ failure, convertWith settings css = .error failure ∧ failure.Expected settings css
  /-- In place, no step of a pass fails on a stylesheet that was read: not the search for a
  declaration in its block, and no insertion or removal. -/
  inPlace : ∀ (css : String) (sheet : Sheet), ReadsTractable settings css →
    Sheet.parse css = .ok sheet → (Edit.runPasses settings.passes).Ends (ofSheet sheet)
      (fun _ g => checkPasses settings.passes sheet = .ok () ∧
        g.sheet = applyPasses settings.passes sheet)
      (fun e _ => ∃ cause, e = .overlong cause ∧ checkPasses settings.passes sheet = .error cause)

/-- Passes that are run in place replace declarations one at a time and show the passes on the
stylesheet. They fail on an overlong integer only. -/
theorem Edit.ends_runPasses : ∀ {ps : List Pass}, (∀ p ∈ ps, Stage.Independent p.stages) →
    ∀ {f : Forest}, f.Sound → f.IsSheet → (Edit.runPasses ps).Ends f
      (fun _ g => Replacements (fun _ _ => True) f g ∧ checkPasses ps f.sheet = .ok () ∧
        g.sheet = applyPasses ps f.sheet)
      (fun e g => Replacements (fun _ _ => True) f g ∧
        ∃ cause, e = .overlong cause ∧ checkPasses ps f.sheet = .error cause)
  | [], _, _, _, _ => .of_ok rfl ⟨.refl, rfl, rfl⟩
  | p :: ps, hind, f, hf, hroot => by
    rw [List.forall_mem_cons] at hind
    rw [Edit.runPasses]
    -- the checks of the passes to come are met once the first pass has come through
    have hchecks : ∀ {r}, p.check f.sheet = .ok () → checkPasses ps (p.apply f.sheet) = r →
        checkPasses (p :: ps) f.sheet = r := by
      intro r hc hr
      rw [checkPasses, hc]
      exact hr
    have hfirst : (Edit.runPass p >>= fun _ => pure ()).Ends f
        (fun _ g => Replacements (fun _ _ => True) f g ∧ p.check f.sheet = .ok () ∧
          g.sheet = p.apply f.sheet)
        (fun e g => Replacements (fun _ _ => True) f g ∧
          ∃ cause, e = .overlong cause ∧ checkPasses (p :: ps) f.sheet = .error cause) := by
      refine .bind ((Edit.ends_runPass hind.1 hf).mono (fun _ _ h => h) ?_) ?_
      · rintro e g ⟨⟨cause, he, hc⟩, hr⟩
        refine ⟨hr.mono fun _ _ _ => trivial, cause, he, ?_⟩
        rw [checkPasses, check_sheet hf, hc]
        rfl
      · rintro n g ⟨hr, -, hc, hs⟩
        exact .pure ⟨hr.mono fun _ _ _ => trivial, (check_sheet hf p).trans hc,
          sheet_of_swept hind.1 hf hroot hr hs⟩
    refine .bind hfirst ?_
    rintro _ g ⟨hr, hc, hsheet⟩
    have ih := ends_runPasses hind.2 (hr.sound hf) (hr.isSheet hroot)
    rw [hsheet] at ih
    refine ih.mono ?_ ?_
    · rintro _ _ ⟨hr', hc', hs'⟩
      exact ⟨hr.trans hr', hchecks hc hc', hs'⟩
    · rintro e _ ⟨hr', cause, he, hfail⟩
      exact ⟨hr.trans hr', cause, he, hchecks hc hfail⟩

/-- Running passes in place shows the passes on the stylesheet. -/
theorem ends_runPasses_sheet (ignored : Ignored) (kinds : List PassKind) {f : Forest}
    (hf : f.Sound) (hroot : f.IsSheet) :
    (Edit.runPasses (kinds.map (PassKind.pass ignored))).Ends f
      (fun _ g => checkPasses (kinds.map (PassKind.pass ignored)) f.sheet = .ok () ∧
        g.sheet = applyPasses (kinds.map (PassKind.pass ignored)) f.sheet)
      (fun e _ => ∃ cause, e = .overlong cause ∧
        checkPasses (kinds.map (PassKind.pass ignored)) f.sheet = .error cause) := by
  have hind : ∀ p ∈ kinds.map (PassKind.pass ignored), Stage.Independent p.stages := by
    intro p hp
    obtain ⟨kind, -, rfl⟩ := List.mem_map.mp hp
    exact kind.independent ignored
  exact (Edit.ends_runPasses hind hf hroot).mono (fun _ _ h => h.2) fun _ _ h => h.2

/-- A text is converted, or it fails for a reason that is expected. -/
theorem convertWith_cases (settings : Settings) (css : String) :
    (∃ converted, convertWith settings css = .ok converted) ∨
      ∃ failure, convertWith settings css = .error failure ∧ failure.Expected settings css := by
  rw [convertWith, convertText]
  cases hparse : Sheet.parse css with
  | error cause =>
    refine .inr ⟨.parse cause, rfl, ?_⟩
    cases cause with
    | unfinished position => exact .unfinished position
    | overlong e =>
      rw [Sheet.parse] at hparse
      cases hc : checkIntegers css with
      | error e' =>
        rw [hc] at hparse
        obtain rfl : e' = e := by
          cases hparse
          rfl
        exact .text (RefusesOnly.checkIntegers List.mem_cons_self _ hc)
      | ok =>
        rw [hc] at hparse
        change Except.mapError _ _ = _ at hparse
        cases hs : Sheet.ofChars css.toList with
        | error => rw [hs] at hparse; cases hparse
        | ok => rw [hs] at hparse; cases hparse
  | ok sheet =>
    cases hc : checkPasses settings.passes sheet with
    | error e =>
      obtain ⟨d, hd, he⟩ := standsIn_of_checkPasses hc
      refine .inr ⟨.overlong e, ?_, .value hparse hd he⟩
      simp only [Except.mapError, bind, Except.bind, hc]
    | ok =>
      have hwritable : ∀ n ∈ applyPasses settings.passes sheet, n.Writable :=
        writable_applyPasses fun n hn => (inRules_of_parse hparse n hn).writable
      obtain ⟨text, htext⟩ := exists_write hwritable defaultIndent
      refine .inl ⟨⟨text, logPasses settings.passes sheet⟩, ?_⟩
      simp only [Except.mapError, bind, Except.bind, hc, htext]
      rfl

/-- Whatever the settings, only overlong integers stop what reads tractable texts. -/
theorem stoppedByOverlong (settings : Settings) : StoppedByOverlong settings where
  decides kind prop value _ := (kind.refusesOnly_check settings.ignored prop value).run
  lines b value _ := by
    cases h : b.check value with
    | ok => exact .inl rfl
    | error e => exact .inr ⟨e, rfl, b.refusesOnly_check value e h⟩
  converts css _ := convertWith_cases settings css
  inPlace _ sheet _ _ := by
    have h := ends_runPasses_sheet settings.ignored settings.kinds (sound_ofSheet sheet)
      (isSheet_ofSheet sheet)
    rw [sheet_ofSheet] at h
    exact h

/-- Two words, one of them with brackets in brackets, are read by themselves and as one layer. -/
theorem readings_subset_twoWords :
    readings "0 f([0])" ⊆ ["0 f([0])", "0", "f([0])"] := by
  have hwords : words "0 f([0])" = ["0", "f([0])"] := by cbv
  have hblank : Text.isBlankText "0 f([0])" = false := by cbv
  have hpieces : pieces Token.isComma (tokens "0 f([0])") = ["0 f([0])"] := by cbv
  rw [readings, layers, hblank, hpieces, if_neg Bool.false_ne_true]
  simp only [List.flatMap_cons, List.flatMap_nil, layerReadings, hwords]
  decide

/-- A gap of two words is decided, as no text has room for the digits of an overlong integer. -/
theorem stoppedByOverlong_twoWords :
    (∀ text ∈ readings "0 f([0])", Tractable text) ∧
      (Revision.units .nothing).run "gap" "0 f([0])" =
        .ok ((Revision.units .nothing).decide "gap" "0 f([0])") := by
  have htexts : ∀ text ∈ ["0 f([0])", "0", "f([0])"], Tractable text ∧
      text.toList.length ≤ Numeral.digitLimit := by
    simp only [List.forall_mem_cons]
    exact ⟨⟨⟨by cbv, by cbv⟩, by decide⟩, ⟨⟨by cbv, by cbv⟩, by decide⟩,
      ⟨⟨by cbv, by cbv⟩, by decide⟩, List.forall_mem_nil _⟩
  have hread : ∀ text ∈ readings "0 f([0])", Tractable text := fun text h =>
    (htexts text (readings_subset_twoWords h)).1
  refine ⟨hread, ?_⟩
  rcases (stoppedByOverlong {}).decides .units "gap" "0 f([0])" hread with
    h | ⟨e, -, hlimit, text, htext, ds, hds, -, hinfix⟩
  · exact h
  · have hshort := (htexts text (readings_subset_twoWords htext)).2
    have hlength := hinfix.length_le
    omega

/-- A margin with a digit in it is refused if its value is. -/
theorem run_margin {value : String} {e : OverlongInteger} (hd : ¬ Digitless value.toList)
    (h : checkIntegers value = .error e) :
    (Revision.longhands .nothing).run "margin" value = .error e := by
  have hprotected : protectedBy? .nothing "margin" value = none := by
    rw [protectedBy?, if_neg (by decide), if_neg (by decide +kernel),
      if_neg fun h => hd (digitless_of_isBlankText h),
      if_neg fun h => hd (digitless_of_isWideKeyword h)]
  have hbox : Compound.ofName? (Text.lower "margin") = some (.box "margin") := by decide +kernel
  have hcheck : (Revision.longhands .nothing).check "margin" value = .error e := by
    change checkLonghands .nothing "margin" value = _
    rw [checkLonghands, hprotected, hbox]
    exact h
  rw [Revision.run, hcheck]
  rfl

/-- A value of 4301 digits has no decision, though it is nothing but one word for four sides. -/
theorem run_margin_overlong :
    (Revision.longhands .nothing).run "margin" (String.ofList (List.replicate 4301 '1')) =
      .error ⟨4301⟩ := by
  have hdigits : ∀ c ∈ List.replicate 4301 '1', c.isDigit := by
    intro c hc
    rw [List.eq_of_mem_replicate hc]
    rfl
  refine run_margin (fun h => ?_) ?_
  · have hmem : '1' ∈ List.replicate 4301 '1' := List.mem_replicate.mpr ⟨by decide, rfl⟩
    rw [String.toList_ofList] at h
    exact nomatch h '1' hmem
  · have h := checkIntegers_digits hdigits (by rw [List.length_replicate]; decide)
    rwa [List.length_replicate] at h

end CssExpand
