import CssExpand.Convert
import CssExpand.Proofs.Pass
import CssExpand.Proofs.Sheet.Bundle

/-!
# Converting texts one after the other

Nothing that is done to a rule depends on the other rules of its sheet. The passes go from node to
node, they refuse a sheet for a declaration in one of them, and the layout puts the texts of the
nodes side by side. So two texts may be converted together or each by itself (`normalized_bundle`),
if the first one is whole; that the seam does nothing to the reading is `parse_bundle`.
-/

set_option autoImplicit false

namespace CssExpand

/-! ## 1. Passes over two sheets -/

theorem Pass.apply_append (p : Pass) (sheet sheet' : Sheet) :
    p.apply (sheet ++ sheet') = p.apply sheet ++ p.apply sheet' := by
  simp only [Pass.apply, Pass.applyNodes_eq, List.map_append]

theorem Pass.check_append_eq_ok {p : Pass} {sheet sheet' : Sheet} :
    p.check (sheet ++ sheet') = .ok () ↔ p.check sheet = .ok () ∧ p.check sheet' = .ok () := by
  simp only [Pass.check_eq, Pass.listBodies_eq, List.flatMap_append, Stage.forM_eq_ok,
    List.forall_mem_append]

theorem applyPasses_append (ps : List Pass) (sheet sheet' : Sheet) :
    applyPasses ps (sheet ++ sheet') = applyPasses ps sheet ++ applyPasses ps sheet' := by
  unfold applyPasses
  induction ps generalizing sheet sheet' with
  | nil => rfl
  | cons p ps ih => rw [List.foldl_cons, Pass.apply_append, ih, List.foldl_cons, List.foldl_cons]

theorem checkPasses_cons_eq_ok {p : Pass} {ps : List Pass} {sheet : Sheet} :
    checkPasses (p :: ps) sheet = .ok () ↔
      p.check sheet = .ok () ∧ checkPasses ps (p.apply sheet) = .ok () := by
  rw [checkPasses, bind_eq_ok]
  constructor
  · rintro ⟨_, h, h'⟩
    exact ⟨h, h'⟩
  · rintro ⟨h, h'⟩
    exact ⟨(), h, h'⟩

theorem checkPasses_append_eq_ok {ps : List Pass} {sheet sheet' : Sheet} :
    checkPasses ps (sheet ++ sheet') = .ok () ↔
      checkPasses ps sheet = .ok () ∧ checkPasses ps sheet' = .ok () := by
  induction ps generalizing sheet sheet' with
  | nil => exact ⟨fun _ => ⟨rfl, rfl⟩, fun _ => rfl⟩
  | cons p ps ih =>
    simp only [checkPasses_cons_eq_ok, Pass.check_append_eq_ok, Pass.apply_append, ih]
    exact and_and_and_comm

/-! ## 2. The layout of two sheets -/

theorem layoutAll_cons_eq_ok {indent pad : String} {n : Node} {ns : List Node}
    {texts : List String} : layoutAll indent pad (n :: ns) = .ok texts ↔
      ∃ text rest, n.layout indent pad = .ok text ∧ layoutAll indent pad ns = .ok rest ∧
        texts = text :: rest := by
  rw [layoutAll, bind_eq_ok]
  constructor
  · rintro ⟨text, htext, h⟩
    obtain ⟨rest, hrest, heq⟩ := bind_eq_ok.mp h
    exact ⟨text, rest, htext, hrest, (Except.ok.inj heq).symm⟩
  · rintro ⟨text, rest, htext, hrest, rfl⟩
    exact ⟨text, htext, bind_eq_ok.mpr ⟨rest, hrest, rfl⟩⟩

theorem layoutAll_append_eq_ok {indent pad : String} {ns ms : List Node} {texts : List String} :
    layoutAll indent pad (ns ++ ms) = .ok texts ↔
      ∃ front back, layoutAll indent pad ns = .ok front ∧ layoutAll indent pad ms = .ok back ∧
        texts = front ++ back := by
  induction ns generalizing texts with
  | nil => simp [layoutAll]
  | cons n ns ih =>
    simp only [List.cons_append, layoutAll_cons_eq_ok, ih]
    constructor
    · rintro ⟨text, rest, htext, ⟨front, back, hfront, hback, rfl⟩, rfl⟩
      exact ⟨_, back, ⟨text, front, htext, hfront, rfl⟩, hback, rfl⟩
    · rintro ⟨_, back, ⟨text, front, htext, hfront, rfl⟩, hback, rfl⟩
      exact ⟨text, _, htext, ⟨front, back, hfront, hback, rfl⟩, rfl⟩

/-- The text of a sheet whose nodes have these texts. -/
def sheetText (texts : List String) : String :=
  if texts.isEmpty then "" else "\n\n".intercalate texts ++ "\n"

theorem write_eq_ok {indent : String} {sheet : Sheet} {text : String} :
    sheet.write indent = .ok text ↔
      ∃ texts, layoutAll indent "" sheet = .ok texts ∧ text = sheetText texts := by
  rw [Sheet.write, bind_eq_ok]
  constructor
  · rintro ⟨texts, h, heq⟩
    exact ⟨texts, h, (Except.ok.inj heq).symm⟩
  · rintro ⟨texts, h, rfl⟩
    exact ⟨texts, h, rfl⟩

/-- Two written texts with a line break between them, or the one that is not empty. -/
def joined (first second : String) : String :=
  if first.isEmpty then second else if second.isEmpty then first else bundle first second

/-- The line break between two written texts is the second half of the blank line between their
nodes. -/
theorem sheetText_append (front back : List String) :
    sheetText (front ++ back) = joined (sheetText front) (sheetText back) := by
  have hempty : ∀ {texts : List String}, texts ≠ [] → (sheetText texts).isEmpty = false ∧
      sheetText texts = "\n\n".intercalate texts ++ "\n" := by
    intro texts h
    have htext : sheetText texts = "\n\n".intercalate texts ++ "\n" := if_neg (by simpa using h)
    exact ⟨by simp [htext], htext⟩
  by_cases hf : front = []
  · subst hf
    rfl
  by_cases hb : back = []
  · subst hb
    rw [List.append_nil, joined, if_neg (by simp [(hempty hf).1])]
    rfl
  have hboth : front ++ back ≠ [] := by simp [hf]
  rw [joined, if_neg (by simp [(hempty hf).1]), if_neg (by simp [(hempty hb).1]), bundle,
    (hempty hboth).2, (hempty hf).2, (hempty hb).2, String.intercalate_append_of_ne_nil hf hb]
  simp [String.append_assoc]

theorem write_append_eq_ok {indent : String} {sheet sheet' : Sheet} {text : String} :
    Sheet.write indent (sheet ++ sheet') = .ok text ↔
      ∃ first second, sheet.write indent = .ok first ∧ sheet'.write indent = .ok second ∧
        text = joined first second := by
  simp only [write_eq_ok, layoutAll_append_eq_ok]
  constructor
  · rintro ⟨_, ⟨front, back, hfront, hback, rfl⟩, rfl⟩
    exact ⟨_, _, ⟨front, hfront, rfl⟩, ⟨back, hback, rfl⟩, sheetText_append front back⟩
  · rintro ⟨_, _, ⟨front, hfront, rfl⟩, ⟨back, hback, rfl⟩, rfl⟩
    exact ⟨_, ⟨front, back, hfront, hback, rfl⟩, (sheetText_append front back).symm⟩

/-! ## 3. The theorem -/

/-- The text that a text is converted to, if it is converted. -/
def normalized (settings : Settings) (css : String) : Option String :=
  (convertWith settings css).toOption.map Converted.css

/-- What a text normalizes to, through the sheet that it is read as. -/
theorem normalized_eq_some {settings : Settings} {css text : String} {sheet : Sheet}
    (h : Sheet.parse css = .ok sheet) : normalized settings css = some text ↔
      checkPasses settings.passes sheet = .ok () ∧
        (applyPasses settings.passes sheet).write defaultIndent = .ok text := by
  have hconvert : ∀ converted : Converted, convertWith settings css = .ok converted ↔
      checkPasses settings.passes sheet = .ok () ∧
        ∃ text, (applyPasses settings.passes sheet).write defaultIndent = .ok text ∧
          ⟨text, logPasses settings.passes sheet⟩ = converted := by
    intro converted
    rw [convertWith, convertText, h, bind_eq_ok]
    constructor
    · rintro ⟨_, ⟨⟩, hrest⟩
      obtain ⟨_, hcheck, hrest⟩ := bind_eq_ok.mp hrest
      obtain ⟨text, hwrite, heq⟩ := bind_eq_ok.mp hrest
      exact ⟨of_mapError hcheck, text, of_mapError hwrite, Except.ok.inj heq⟩
    · rintro ⟨hcheck, text, hwrite, rfl⟩
      refine ⟨sheet, rfl, ?_⟩
      rw [hcheck, hwrite]
      rfl
  have hsome : ∀ converted : Converted, (convertWith settings css).toOption = some converted ↔
      convertWith settings css = .ok converted := by
    intro converted
    cases convertWith settings css <;> simp [Except.toOption]
  simp only [normalized, Option.map_eq_some_iff, hsome, hconvert]
  constructor
  · rintro ⟨_, ⟨hcheck, text, hwrite, rfl⟩, rfl⟩
    exact ⟨hcheck, hwrite⟩
  · rintro ⟨hcheck, hwrite⟩
    exact ⟨_, ⟨hcheck, text, hwrite, rfl⟩, rfl⟩

/-- The rules of two texts, the first of them whole, are those of each, and they are converted as
each text is by itself. If one of the texts is refused, both together are. A text that is not whole would
take the start of the other one into its last rule, and no blank line between them could prevent that. -/
theorem normalized_bundle (settings : Settings) {first second : String} {sheet sheet' : Sheet}
    (hwhole : Sheet.isWhole first) (h : Sheet.parse first = .ok sheet)
    (h' : Sheet.parse second = .ok sheet') :
    Sheet.parse (bundle first second) = .ok (sheet ++ sheet') ∧
      normalized settings (bundle first second) =
        (normalized settings first).bind fun text =>
          (normalized settings second).map (joined text) := by
  have hboth := parse_bundle hwhole h h'
  refine ⟨hboth, Option.ext fun text => ?_⟩
  simp only [Option.bind_eq_some_iff, Option.map_eq_some_iff, normalized_eq_some h,
    normalized_eq_some h', normalized_eq_some hboth, checkPasses_append_eq_ok, applyPasses_append,
    write_append_eq_ok]
  constructor
  · rintro ⟨⟨hcheck, hcheck'⟩, text, text', hwrite, hwrite', rfl⟩
    exact ⟨text, ⟨hcheck, hwrite⟩, text', ⟨hcheck', hwrite'⟩, rfl⟩
  · rintro ⟨text, ⟨hcheck, hwrite⟩, text', ⟨hcheck', hwrite'⟩, rfl⟩
    exact ⟨⟨hcheck, hcheck'⟩, text, text', hwrite, hwrite', rfl⟩

/-- A statement that ends in a line break, and a rule behind a comment. -/
theorem normalized_bundle_import :
    Sheet.isWhole "@import x;\n" = true ∧
      Sheet.parse "@import x;\n" = .ok [.atStatement "import" "x" false] ∧
      Sheet.parse "/**/a\x7bgap:0" =
        .ok [.comment "", .rule "a" [.declaration ⟨"gap", "0", false⟩]] ∧
      normalized {} (bundle "@import x;\n" "/**/a\x7bgap:0") =
        (normalized {} "@import x;\n").bind fun text =>
          (normalized {} "/**/a\x7bgap:0").map (joined text) := by
  have hwhole : Sheet.isWhole "@import x;\n" = true := by cbv
  have h : Sheet.parse "@import x;\n" = .ok [.atStatement "import" "x" false] := by cbv
  have h' : Sheet.parse "/**/a\x7bgap:0" =
      .ok [.comment "", .rule "a" [.declaration ⟨"gap", "0", false⟩]] := by cbv
  exact ⟨hwhole, h, h', (normalized_bundle {} hwhole h h').2⟩

end CssExpand
