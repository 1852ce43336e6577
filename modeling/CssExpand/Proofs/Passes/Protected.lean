import CssExpand.Proofs.Forest.PassSheet
import CssExpand.Proofs.Longhands.Stages
import CssExpand.Proofs.Syntax.Digits
import CssExpand.Proofs.Text.LetterCase
import CssExpand.Settings
import Mathlib

/-!
# What no pass touches

A declaration is protected if it is one of a custom property, a hack, ignored by name, blank, or one
keyword for the whole value (`Declaration.isProtected`). Comments, raw pieces, rules and at-rules are
never touched at all. So a node stays, with all that it says and in its block, unless it is an
unprotected declaration (`Forest.stays`), and the nodes that stay keep their order
(`protected_kept`), whichever passes run and wherever they stop.

Two of the passes ask whether a declaration is protected. The third one, which adds units, asks for
custom properties, hacks and ignored names only; that it leaves blank values and keywords alone has
another reason, namely that it needs a digit (`digitless_of_isWideKeyword`).
-/

set_option autoImplicit false

namespace CssExpand

open Syntax Value

/-- Whether no pass may touch a declaration. -/
def Declaration.isProtected (ignored : Ignored) (d : Declaration) : Bool :=
  d.isHack || (protectedBy? ignored d.prop d.value).isSome

namespace Forest

/-- Whether a node is there and no pass may touch it. -/
def stays (f : Forest) (ignored : Ignored) (id : NodeId) : Bool :=
  match f.content? id with
  | some (.declaration d) => d.isProtected ignored
  | some _ => true
  | none => false

/-- A node and those below it in document order, to a depth. -/
def nodesWithin (f : Forest) : Nat → NodeId → List NodeId
  | 0, id => [id]
  | depth + 1, id => id :: (f.children id).flatMap (f.nodesWithin depth)

/-- The stylesheet and all its nodes in document order. -/
def inOrder (f : Forest) : List NodeId := f.nodesWithin f.depth root

/-- The forest `g` has all nodes of `f` that no pass may touch, unchanged. The order is part of it: a
list of children is compared after the nodes that may go are struck out of it. -/
structure KeepsProtected (ignored : Ignored) (f g : Forest) : Prop where
  /-- A node that stays says the same and has the same parent. The children of a block are another
  matter. -/
  same : ∀ id, f.stays ignored id →
    g.cell? id = (f.cell? id).map (·.withChildren (g.children id))
  /-- A block has the same nodes among its children that stay, in the same order. -/
  children : ∀ block,
    (g.children block).filter (f.stays ignored) = (f.children block).filter (f.stays ignored)
  /-- The nodes that stay have the same order in the whole stylesheet. -/
  order : g.inOrder.filter (f.stays ignored) = f.inOrder.filter (f.stays ignored)

end Forest

/-! ## 1. Values without digits -/

namespace Text

theorem not_isBlank_of_isDigit {c : Char} (h : c.isDigit) : isBlank c = false := by
  simp only [Char.isDigit, Bool.and_eq_true, decide_eq_true_eq, ge_iff_le,
    UInt32.le_iff_toNat_le] at h
  have hlow : '0'.val.toNat = 48 := rfl
  have hhigh : '9'.val.toNat = 57 := rfl
  have hn : c.toNat = c.val.toNat := rfl
  simp only [isBlank, Bool.or_eq_false_iff, Bool.and_eq_false_iff, decide_eq_false_iff_not,
    beq_eq_false_iff_ne]
  omega

theorem mem_dropWhile {cs : List Char} {p : Char → Bool} {c : Char} (hc : c ∈ cs)
    (hp : p c = false) : c ∈ cs.dropWhile p := by
  rw [← List.takeWhile_append_dropWhile (p := p) (l := cs), List.mem_append] at hc
  refine hc.resolve_left fun hm => ?_
  rw [List.mem_takeWhile_imp hm] at hp
  cases hp

/-- Trimming takes nothing but blanks. -/
theorem mem_trim {cs : List Char} {c : Char} (hc : c ∈ cs) (hb : isBlank c = false) :
    c ∈ trim cs :=
  List.mem_reverse.mpr
    (mem_dropWhile (List.mem_reverse.mpr (mem_dropWhile hc hb)) hb)

end Text

theorem digitless_of_isBlankText {value : String} (h : Text.isBlankText value = true) :
    Digitless value.toList := by
  intro c hc
  by_contra hd
  have hb := Text.not_isBlank_of_isDigit (Bool.eq_true_of_not_eq_false hd)
  rw [List.all_eq_true.mp h c hc] at hb
  cases hb

theorem digitless_wideKeywords : ∀ word ∈ wideKeywords, Digitless word.toList := by
  have h : (wideKeywords.all fun word => word.toList.all (!·.isDigit)) = true := by decide +kernel
  intro word hword c hc
  simpa using List.all_eq_true.mp (List.all_eq_true.mp h word hword) c hc

theorem digitless_of_isWideKeyword {value : String} (h : isWideKeyword value = true) :
    Digitless value.toList := by
  intro c hc
  by_contra hd
  have hd := Bool.eq_true_of_not_eq_false hd
  rw [isWideKeyword, isOneOf] at h
  have hword := List.contains_iff_mem.mp h
  have hm : c ∈ (Text.lower (Text.strip value)).toList := by
    rw [Text.lower, Text.strip, String.toList_ofList, String.toList_ofList]
    exact Text.mem_lowerAfter_of_isDigit hd (Text.mem_trim hc (Text.not_isBlank_of_isDigit hd))
  rw [digitless_wideKeywords _ hword c hm] at hd
  cases hd

/-! ## 2. No revision changes what is protected -/

/-- Taking apart asks first whether a declaration is protected. -/
theorem protectedBy?_of_longhands {ignored : Ignored} {prop value : String}
    {pairs : List (String × String)} (h : longhands ignored prop value = .replace pairs) :
    protectedBy? ignored prop value = none := by
  rw [longhands] at h
  split at h
  · cases h
  · assumption

/-- So does writing out defaults. -/
theorem protectedBy?_of_complete {registry : Registry} {ignored : Ignored} {prop value : String}
    {pairs : List (String × String)} (h : complete registry ignored prop value = .replace pairs) :
    protectedBy? ignored prop value = none := by
  rw [complete] at h
  split at h
  · cases h
  · assumption

mutual

/-- A bare zero is a number among the lexemes of the token, however deep it stands. -/
theorem number_mem_of_hasBareZero : ∀ {r : UnitRule} {t : Token}, r.hasBareZero t = true →
    ∃ n, Lexeme.atom (.number n) ∈ t.flat
  | r, .atom a, h => by
    cases a with
    | number n => exact ⟨n, by simp [Token.flat]⟩
    | _ => simp [UnitRule.hasBareZero] at h
  | r, .function name arguments, h => by
    rw [UnitRule.hasBareZero] at h
    split at h
    · obtain ⟨n, hn⟩ := number_mem_of_anyBareZero h
      exact ⟨n, by simp [Token.flat, hn]⟩
    · cases h
  | r, .block bracket content, h => by
    cases bracket with
    | curly => simp [UnitRule.hasBareZero] at h
    | round =>
      obtain ⟨n, hn⟩ := number_mem_of_anyBareZero (by simpa [UnitRule.hasBareZero] using h)
      exact ⟨n, by simp [Token.flat, hn]⟩
    | square =>
      obtain ⟨n, hn⟩ := number_mem_of_anyBareZero (by simpa [UnitRule.hasBareZero] using h)
      exact ⟨n, by simp [Token.flat, hn]⟩

theorem number_mem_of_anyBareZero : ∀ {r : UnitRule} {ts : List Token}, r.anyBareZero ts = true →
    ∃ n, Lexeme.atom (.number n) ∈ Token.listFlat ts
  | r, t :: ts, h => by
    rw [UnitRule.anyBareZero, Bool.or_eq_true] at h
    rcases h with h | h
    · obtain ⟨n, hn⟩ := number_mem_of_hasBareZero h
      exact ⟨n, by simp [Token.listFlat, hn]⟩
    · obtain ⟨n, hn⟩ := number_mem_of_anyBareZero h
      exact ⟨n, by simp [Token.listFlat, hn]⟩

end

/-- Adding units needs a digit, so it has no use for blank values and keywords. -/
theorem protectedBy?_of_withUnits {ignored : Ignored} {prop value : String}
    {pairs : List (String × String)} (h : withUnits ignored prop value = .replace pairs) :
    protectedBy? ignored prop value = none := by
  rw [withUnits] at h
  split at h
  · cases h
  · next hcustom =>
    split at h
    · cases h
    · next hignored =>
      dsimp only at h
      split at h
      · cases h
      · split at h
        · cases h
        · next kept _ =>
          split at h
          · next hany =>
            obtain ⟨m, hm, hzero⟩ := List.any_eq_true.mp hany
            obtain ⟨n, hn⟩ := number_mem_of_hasBareZero (Bool.and_eq_true_iff.mp hzero).2
            have hmem := Token.mem_listFlat (List.of_mem_zip hm).1 hn
            have hdigit : ¬ Digitless value.toList := fun hd => number_not_mem_ofChars hd n hmem
            rw [protectedBy?, if_neg hcustom, if_neg hignored,
              if_neg fun hb => hdigit (digitless_of_isBlankText hb),
              if_neg fun hw => hdigit (digitless_of_isWideKeyword hw)]
          · cases h

/-- No stage of a pass may replace a declaration that is protected. -/
theorem PassKind.not_isProtected {kind : PassKind} {ignored : Ignored} {d : Declaration}
    {pairs : List (String × String)}
    (h : ∃ s ∈ (kind.pass ignored).stages, s.may d pairs) : d.isProtected ignored = false := by
  obtain ⟨s, hs, hmay⟩ := h
  rw [Stage.may, Stage.pairs?_eq] at hmay
  split at hmay
  · next hc =>
    have hdecide := pairs?_eq_some.mp hmay
    rw [Declaration.isProtected, Bool.or_eq_false_iff]
    cases kind with
    | longhands =>
      obtain ⟨names, -, rfl⟩ := List.mem_map.mp (stages_longhands ignored ▸ hs)
      refine ⟨?_, by rw [protectedBy?_of_longhands hdecide]; rfl⟩
      simpa using (Bool.and_eq_true_iff.mp hc).2
    | defaults =>
      obtain rfl := List.mem_singleton.mp hs
      refine ⟨?_, by rw [protectedBy?_of_complete hdecide]; rfl⟩
      simpa using (Bool.and_eq_true_iff.mp hc).2
    | units =>
      obtain rfl := List.mem_singleton.mp hs
      exact ⟨by simpa using hc, by rw [protectedBy?_of_withUnits hdecide]; rfl⟩
  · cases hmay

theorem PassKind.independent (kind : PassKind) (ignored : Ignored) :
    Stage.Independent (kind.pass ignored).stages := by
  cases kind with
  | longhands => exact (separate_longhands ignored).independent
  | defaults => exact List.pairwise_singleton ..
  | units => exact List.pairwise_singleton ..

/-! ## 3. One replacement after the other -/

namespace Forest

variable {ignored : Ignored} {f g g' : Forest}

/-- What a run keeps of the nodes of `f` that stay. The new nodes are none of them. -/
structure Untouched (ignored : Ignored) (f g : Forest) : Prop where
  grows : f.fresh ≤ g.fresh
  same : ∀ id, f.stays ignored id →
    g.cell? id = (f.cell? id).map (·.withChildren (g.children id))
  children : ∀ block,
    (g.children block).filter (f.stays ignored) = (f.children block).filter (f.stays ignored)

theorem lt_fresh_of_stays {id : NodeId} (h : f.stays ignored id) : id < f.fresh := by
  by_contra hlt
  rw [stays, content?_eq_none (Nat.le_of_not_lt hlt)] at h
  cases h

theorem cell?_withChildren_children (f : Forest) (id : NodeId) :
    f.cell? id = (f.cell? id).map (·.withChildren (f.children id)) := by
  cases hc : f.cell? id with
  | none => rfl
  | some c =>
    obtain ⟨content, parent⟩ := c
    have hchildren : f.children? id = content.children? :=
      children?_of_content? (content?_of_cell? hc)
    rw [children, hchildren]
    cases content <;> rfl

theorem Untouched.refl (f : Forest) : Untouched ignored f f :=
  ⟨Nat.le_refl _, fun id _ => cell?_withChildren_children f id, fun _ => rfl⟩

/-- What is a declaration without protection by now is none of the nodes that stay. -/
theorem Untouched.not_stays (h : Untouched ignored f g) {id : NodeId} {d : Declaration}
    (hd : g.declaration? id = some d) (hp : d.isProtected ignored = false) :
    f.stays ignored id = false := by
  by_contra hs
  have hs := Bool.eq_true_of_not_eq_false hs
  obtain ⟨c, hc, hcd⟩ := exists_cell?_of_declaration? hd
  rw [h.same id hs] at hc
  obtain ⟨c₀, hc₀, rfl⟩ := Option.map_eq_some_iff.mp hc
  have hcontent : c₀.content = .declaration d := by
    rw [Cell.withChildren] at hcd
    cases hk : c₀.content <;> rw [hk] at hcd <;> first | exact hcd | cases hcd
  rw [stays, content?_of_cell? hc₀, hcontent] at hs
  exact absurd hp (by simpa using hs)

/-- New nodes are none of the nodes that stay. -/
theorem Untouched.not_stays_of_le (h : Untouched ignored f g) {id : NodeId} (hid : g.fresh ≤ id) :
    f.stays ignored id = false := by
  by_contra hs
  have hlt := lt_fresh_of_stays (Bool.eq_true_of_not_eq_false hs)
  exact Nat.not_le_of_lt hlt (Nat.le_trans h.grows hid)

/-- Replacing a declaration that is not protected touches no node that stays. -/
theorem Untouched.step {may : Declaration → List (String × String) → Prop}
    (hmay : ∀ d pairs, may d pairs → d.isProtected ignored = false)
    (h : Untouched ignored f g) (hs : Replacement may g g') : Untouched ignored f g' := by
  refine ⟨Nat.le_trans h.grows hs.grows, fun k hk => ?_, fun b => ?_⟩
  · cases hs with
    | @splice block id pre post d pairs _ hb hd ha hspliced =>
      have hne : k ≠ id := fun he => by
        rw [he, h.not_stays hd (hmay _ _ ha)] at hk
        cases hk
      by_cases hkb : k = block
      · subst hkb
        rw [Forest.children, hspliced.children?_block hb, Option.getD_some, hspliced.cell, if_pos rfl,
          h.same k hk, Option.map_map]
        congr 1
        funext c
        simp [Cell.withChildren, withChildren_withChildren]
      · have hlt := Nat.lt_of_lt_of_le (lt_fresh_of_stays hk) h.grows
        rw [hspliced.cell?_old hlt hkb hne, Forest.children, hspliced.children?_other hd hb hkb, h.same k hk,
          Forest.children]
    | @revalue block id cs d value _ _ _ hd ha hrevalued =>
      have hne : k ≠ id := fun he => by
        rw [he, h.not_stays hd (hmay _ _ ha)] at hk
        cases hk
      rw [hrevalued.cell, if_neg hne, Forest.children, hrevalued.children?_eq, h.same k hk, Forest.children]
  · rw [← h.children b]
    cases hs with
    | @splice block id pre post d pairs _ hb hd ha hspliced =>
      by_cases hbb : b = block
      · subst hbb
        have hnew : ∀ k ∈ g.nextIds pairs.length, f.stays ignored k = false :=
          fun k hk => h.not_stays_of_le (le_of_mem_nextIds hk).1
        rw [Forest.children, hspliced.children?_block hb, Forest.children, hb]
        simpa [List.filter_append, h.not_stays hd (hmay _ _ ha)] using hnew
      · rw [Forest.children, hspliced.children?_other hd hb hbb, Forest.children]
    | revalue _ _ _ _ _ hrevalued => rw [Forest.children, hrevalued.children?_eq, Forest.children]

/-! ## 4. Document order -/

/-- A parent is older than its children, so a walk that is as deep as the forest has nodes sees all,
and going one deeper shows no more. -/
theorem nodesWithin_deeper (hf : f.Sound) : ∀ (depth : Nat) (id : NodeId), f.fresh ≤ id + depth →
    f.nodesWithin (depth + 1) id = f.nodesWithin depth id
  | 0, id, hid => by
    have hn : f.content? id = none := content?_eq_none hid
    rw [nodesWithin, nodesWithin, children, children?, hn]
    rfl
  | depth + 1, id, hid => by
    rw [nodesWithin, nodesWithin]
    congr 1
    refine List.flatMap_congr fun k hk => nodesWithin_deeper hf depth k ?_
    cases hc : f.children? id with
    | none => simp [children, hc] at hk
    | some cs =>
      rw [children, hc] at hk
      exact le_add_of_lt hid (hf.lt_of_mem hc hk)

theorem nodesWithin_of_le (hf : f.Sound) {depth depth' : Nat} {id : NodeId} (hle : depth ≤ depth')
    (hid : f.fresh ≤ id + depth) : f.nodesWithin depth' id = f.nodesWithin depth id := by
  induction hle with
  | refl => rfl
  | step hle ih =>
    rw [nodesWithin_deeper hf _ _ (Nat.le_trans hid (Nat.add_le_add_left hle id)), ih]

/-- What a walk passes over has no children. -/
theorem children_of_role_other {k : NodeId} (h : f.role k = .other) : f.children k = [] := by
  rw [role] at h
  rw [children, children?]
  cases hc : f.content? k with
  | none => rfl
  | some c =>
    rw [hc] at h
    cases c with
    | atBlock name prelude nested ids => cases nested <;> cases h
    | _ => first | rfl | cases h

/-- A node that does not stay is a declaration, or not there. -/
theorem role_of_not_stays {k : NodeId} (h : f.stays ignored k = false) : f.role k = .other := by
  rw [stays] at h
  rw [role]
  split at h
  · next d hc => rw [hc]; rfl
  · cases h
  · next hc => rw [hc]; rfl

theorem flatMap_filter_of_nil {α β : Type} {p : α → Bool} {list : α → List β}
    (h : ∀ a, p a = false → list a = []) (as : List α) :
    (as.filter p).flatMap list = as.flatMap list := by
  induction as with
  | nil => rfl
  | cons a as ih =>
    cases hp : p a with
    | true => rw [List.filter_cons_of_pos hp, List.flatMap_cons, List.flatMap_cons, ih]
    | false =>
      rw [List.filter_cons_of_neg (by simp [hp]), List.flatMap_cons, h a hp, List.nil_append, ih]

/-- If the nodes that stay keep their order in each block, they keep it everywhere. -/
theorem filter_nodesWithin (hrole : ∀ k, g.role k = f.role k)
    (hchildren : ∀ block, (g.children block).filter (f.stays ignored) =
      (f.children block).filter (f.stays ignored)) :
    ∀ (depth : Nat) (id : NodeId), (g.nodesWithin depth id).filter (f.stays ignored) =
      (f.nodesWithin depth id).filter (f.stays ignored)
  | 0, _ => rfl
  | depth + 1, id => by
    -- what is below a child counts only if the child stays
    have hnone : ∀ {h : Forest}, (∀ k, h.role k = f.role k) → ∀ k, f.stays ignored k = false →
        (h.nodesWithin depth k).filter (f.stays ignored) = [] := by
      intro h hr k hk
      have hc : h.children k = [] := children_of_role_other ((hr k).trans (role_of_not_stays hk))
      cases depth with
      | zero => simp [nodesWithin, hk]
      | succ depth => simp [nodesWithin, hk, hc]
    rw [nodesWithin, nodesWithin, List.filter_cons, List.filter_cons, List.filter_flatMap,
      List.filter_flatMap, ← flatMap_filter_of_nil (hnone hrole), hchildren id,
      flatMap_filter_of_nil (hnone hrole), List.flatMap_congr fun k _ =>
        filter_nodesWithin hrole hchildren depth k]

theorem Untouched.keepsProtected (h : Untouched ignored f g) (hf : f.Sound)
    (hrole : ∀ k, g.role k = f.role k) : KeepsProtected ignored f g where
  same := h.same
  children := h.children
  order := by
    have hdepth : f.nodesWithin f.depth root = f.nodesWithin g.depth root :=
      (nodesWithin_of_le hf h.grows (Nat.le_add_left _ _)).symm
    rw [inOrder, inOrder, hdepth]
    exact filter_nodesWithin hrole h.children g.depth root

end Forest

/-! ## 5. Any run of passes -/

open Forest

/-- A forest that came from `f` without touching what stays. -/
structure Reached (ignored : Ignored) (f g : Forest) : Prop where
  sound : g.Sound
  role : ∀ k, g.role k = f.role k
  untouched : Untouched ignored f g

/-- A pass, finished or not, goes on from there. -/
theorem Reached.ends_runPass {ignored : Ignored} {f g : Forest} (h : Reached ignored f g)
    (kind : PassKind) :
    (Edit.runPass (kind.pass ignored)).Ends g (fun _ g' => Reached ignored f g')
      (fun e g' => (∃ cause, e = .overlong cause) ∧ Reached ignored f g') := by
  have hrun : ∀ {g'}, Replacements (fun d pairs => ∃ s ∈ (kind.pass ignored).stages, s.may d pairs)
      g g' → Reached ignored f g' := fun hr =>
    have hkeeps := hr.keeps (P := Untouched ignored f)
      (fun _ hP hs => hP.step (fun _ _ => PassKind.not_isProtected) hs) h.sound h.untouched
    ⟨hkeeps.1, fun k => (hr.role_eq k).trans (h.role k), hkeeps.2⟩
  refine (Edit.ends_runPass (kind.independent ignored) h.sound).mono (fun _ g' hg => ?_) ?_
  · exact hrun hg.1
  · rintro e g' ⟨⟨cause, he, -⟩, hr⟩
    exact ⟨⟨cause, he⟩, hrun hr⟩

theorem Reached.ends_runPasses {ignored : Ignored} {f : Forest} :
    ∀ (kinds : List PassKind) {g : Forest}, Reached ignored f g →
      (Edit.runPasses (kinds.map (PassKind.pass ignored))).Ends g (fun _ g' => Reached ignored f g')
        (fun e g' => (∃ cause, e = .overlong cause) ∧ Reached ignored f g')
  | [], _, h => .of_ok rfl h
  | kind :: kinds, _, h => by
    rw [Edit.runPasses, List.map_cons]
    have hfirst : (Edit.runPass (kind.pass ignored) >>= fun _ => pure ()).Ends _
        (fun _ g' => Reached ignored f g')
        (fun e g' => (∃ cause, e = .overlong cause) ∧ Reached ignored f g') :=
      (h.ends_runPass kind).bind fun _ _ h => .pure h
    exact .bind hfirst fun _ _ h => ends_runPasses kinds h

/-- Whatever the settings, the passes leave every node that no pass may touch in its block, in its
order and as it was. Only an overlong integer stops them, and they have kept to that until then.

It is about nodes by their ids, so a protected declaration is not mistaken for an equal one that a pass
puts in beside it. -/
theorem protected_kept (sheet : Sheet) (settings : Settings) :
    (Edit.runPasses settings.passes).Ends (ofSheet sheet)
      (fun _ g => KeepsProtected settings.ignored (ofSheet sheet) g)
      (fun e g => (∃ cause, e = .overlong cause) ∧
        KeepsProtected settings.ignored (ofSheet sheet) g) := by
  have hf := sound_ofSheet sheet
  have hreached : ∀ {g}, Reached settings.ignored (ofSheet sheet) g →
      KeepsProtected settings.ignored (ofSheet sheet) g :=
    fun h => h.untouched.keepsProtected hf h.role
  refine (Reached.ends_runPasses settings.kinds ⟨hf, fun _ => rfl, .refl _⟩).mono ?_ ?_
  · exact fun _ _ h => hreached h
  · exact fun _ _ h => ⟨h.1, hreached h.2⟩

end CssExpand
