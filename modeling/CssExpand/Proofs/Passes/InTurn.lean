import CssExpand.Convert
import CssExpand.Proofs.Passes.Commuting
import CssExpand.Proofs.Sheet.Hacks
import CssExpand.Proofs.Sheet.Spelled

/-!
# Texts between passes

Passes can run over one sheet, or each of them on the text that the one before it wrote. Both ways
come to the same text, the same log and the same refusal if every sheet in between is read again as it
was written (`convertInTurn_eq_convertText`). The last sheet need not be: nobody reads it.

What a pass makes of a sheet is read again if what it read is, and if the declarations that it puts in
are (`Pass.lasts_apply`). These carry words of the old value, alone or in rows and layers, so it is
enough that the words which are moved are legible and quiet (`Declaration.PassesOn`). One of the
conditions cannot be left out: a font that ends in a star behind a slash opens a comment
(`convertInTurn_commentOpener`).
-/

set_option autoImplicit false

namespace CssExpand

open Syntax Value

/-! ## 1. One pass after the other -/

/-- Runs passes one after the other, each on the text that the one before it wrote. -/
def convertInTurn (ignored : Ignored) : List PassKind → String → Except Failure Converted
  | [], css => .ok ⟨css, []⟩
  | kind :: kinds, css => do
    let first ← convertAlone kind ignored css
    let rest ← convertInTurn ignored kinds first.css
    pure ⟨rest.css, first.log ++ rest.log⟩

/-- Every sheet that is left to a later pass is one whose nodes last. -/
def LastsBetween : List Pass → Sheet → Prop
  | [], _ => True
  | [_], _ => True
  | p :: q :: ps, sheet => (∀ n ∈ p.apply sheet, n.Lasts true) ∧ LastsBetween (q :: ps) (p.apply sheet)

theorem convertText_eq {ps : List Pass} {css : String} {sheet : Sheet}
    (h : Sheet.parse css = .ok sheet) : convertText ps css =
      ((checkPasses ps sheet).mapError .overlong).bind fun _ =>
        ((Sheet.write defaultIndent (applyPasses ps sheet)).mapError .unwritable).bind fun text =>
          .ok ⟨text, logPasses ps sheet⟩ := by
  rw [convertText, h]
  rfl

theorem isBlank_defaultIndent : IsBlank defaultIndent.toList := by
  simp [IsBlank, defaultIndent, Syntax.isWhitespace]

/-- A pass writes the sheet that it makes, and the next pass reads that sheet. -/
theorem exists_convertText_one {p : Pass} {css : String} {sheet : Sheet}
    (h : Sheet.parse css = .ok sheet) (hl : ∀ n ∈ p.apply sheet, n.Lasts true) :
    ∃ text, Sheet.parse text = .ok (p.apply sheet) ∧ convertText [p] css =
      ((p.check sheet).mapError .overlong).bind fun _ => .ok ⟨text, p.log sheet⟩ := by
  obtain ⟨text, hwrite, hparse⟩ := parse_write hl isBlank_defaultIndent
  refine ⟨text, hparse, ?_⟩
  have happly : applyPasses [p] sheet = p.apply sheet := rfl
  have hlog : logPasses [p] sheet = p.log sheet := List.append_nil _
  have hcheck : checkPasses [p] sheet = (p.check sheet).bind fun _ => .ok () := rfl
  rw [convertText_eq h, happly, hwrite, hlog, hcheck]
  cases p.check sheet <;> rfl

/-- Passes with texts in between do what they do on one sheet. -/
theorem convertInTurn_eq_convertText {ignored : Ignored} {kinds : List PassKind} (hne : kinds ≠ [])
    {css : String} {sheet : Sheet} (h : Sheet.parse css = .ok sheet)
    (hl : LastsBetween (kinds.map (PassKind.pass ignored)) sheet) :
    convertInTurn ignored kinds css = convertText (kinds.map (PassKind.pass ignored)) css := by
  induction kinds generalizing css sheet with
  | nil => exact absurd rfl hne
  | cons kind kinds ih =>
    cases kinds with
    | nil =>
      -- the last sheet is written and not read
      rw [convertInTurn, convertAlone, List.map_singleton]
      cases convertText [kind.pass ignored] css with
      | error e => rfl
      | ok converted =>
        change Except.ok (Converted.mk converted.css (converted.log ++ [])) = _
        rw [List.append_nil]
    | cons next kinds =>
      obtain ⟨hfirst, hrest⟩ := hl
      obtain ⟨text, hparse, hone⟩ := exists_convertText_one h hfirst
      have hnext := ih (by simp) hparse hrest
      rw [convertText_eq hparse] at hnext
      rw [convertInTurn, convertAlone, hone, List.map_cons, convertText_eq h]
      change _ = ((((kind.pass ignored).check sheet).bind fun _ => checkPasses _ _).mapError _).bind _
      cases (kind.pass ignored).check sheet with
      | error e => rfl
      | ok =>
        change (convertInTurn ignored (next :: kinds) text).bind _ =
          ((checkPasses _ ((kind.pass ignored).apply sheet)).mapError _).bind _
        rw [hnext]
        cases checkPasses ((next :: kinds).map (PassKind.pass ignored))
            ((kind.pass ignored).apply sheet) with
        | error e => rfl
        | ok =>
          change (((Sheet.write defaultIndent (applyPasses _ _)).mapError _).bind _).bind _ =
            ((Sheet.write defaultIndent (applyPasses _ ((kind.pass ignored).apply sheet))).mapError _).bind _
          cases Sheet.write defaultIndent (applyPasses ((next :: kinds).map (PassKind.pass ignored))
              ((kind.pass ignored).apply sheet)) with
          | error e => rfl
          | ok => rfl

/-! ## 2. What a pass makes of nodes that last -/

namespace Pass

/-- A node lasts with other nodes in its bodies if these last. -/
theorem lasts_applyNode {p : Pass} {top : Bool} {n : Node} (h : n.Lasts top)
    (hb : ∀ body ∈ p.bodies n, (∀ m ∈ body, m.LastsInBody) → ∀ m ∈ p.applyBody body, m.LastsInBody) :
    (p.applyNode n).Lasts top := by
  induction h with
  | comment h => exact .comment h
  | rule phrase start body => exact .rule phrase start (hb _ List.mem_cons_self body)
  | atStatement hn phrase semicolon => exact .atStatement hn phrase semicolon
  | @atRules top name prelude ts nodes hn phrase semicolon holds rules ih =>
    rw [applyNode, applyNodes_eq]
    refine .atRules hn phrase semicolon holds fun m hm => ?_
    obtain ⟨n, hn, rfl⟩ := List.mem_map.mp hm
    refine ih n hn fun body hbody => hb body ?_
    rw [bodies, listBodies_eq]
    exact List.mem_flatMap.mpr ⟨n, hn, hbody⟩
  | @atBody top name prelude ts nodes hn phrase semicolon holds body =>
    rw [applyNode]
    rw [bodies] at hb
    split
    · next hr =>
      rw [if_pos hr] at hb
      exact .atBody hn phrase semicolon holds (hb _ List.mem_cons_self body)
    · exact .atBody hn phrase semicolon holds body

/-- What a pass makes of a sheet that lasts lasts if every declaration does that the pass puts in. -/
theorem lasts_apply {p : Pass} (hind : Stage.Independent p.stages) {sheet : Sheet}
    (h : ∀ n ∈ sheet, n.Lasts true)
    (hnew : ∀ body ∈ p.listBodies sheet, ∀ d ∈ Node.declarations body,
      (Node.declaration d).LastsInBody → ∀ pairs, Stage.decided? p.stages d = some pairs →
        ∀ pair ∈ pairs, (Node.declaration (d.replacedBy pair)).LastsInBody) :
    ∀ n ∈ p.apply sheet, n.Lasts true := by
  rw [apply, applyNodes_eq, List.forall_mem_map]
  intro n hn
  refine lasts_applyNode (h n hn) fun body hbody hlasts m hm => ?_
  have hmem : body ∈ p.listBodies sheet := by
    rw [listBodies_eq]
    exact List.mem_flatMap.mpr ⟨n, hn, hbody⟩
  rw [applyBody_eq hind, List.mem_flatMap] at hm
  obtain ⟨k, hk, hm⟩ := hm
  cases k with
  | declaration d =>
    rw [Node.rewrite] at hm
    obtain ⟨e, he, rfl⟩ := List.mem_map.mp hm
    cases hd : Stage.decided? p.stages d with
    | none =>
      rw [Declaration.rewrite_none hd, List.mem_singleton] at he
      exact he ▸ hlasts _ hk
    | some pairs =>
      rw [Declaration.rewrite_some hd] at he
      obtain ⟨pair, hpair, rfl⟩ := List.mem_map.mp he
      exact hnew body hmem d (List.mem_filterMap.mpr ⟨_, hk, rfl⟩) (hlasts _ hk) pairs hd pair hpair
  | _ =>
    obtain rfl := List.mem_singleton.mp hm
    exact hlasts _ hk

end Pass

/-! ## 3. Declarations that are put in -/

/-- The words of a declaration that a pass moves are legible and quiet: those that become values of
their own, and those that a completed shorthand sorts. Words that stay where they are need no such
condition, since the value that they are in is read back as a whole. -/
structure Declaration.PassesOn (ignored : Ignored) (d : Declaration) : Prop where
  apart : ∀ pairs, longhands ignored d.prop d.value = .replace pairs → ∀ q ∈ pairs,
    q.2 ∈ words d.value → q.2 = d.value ∨ isLegible q.2 = true ∧ isQuiet q.2 = true
  sorted : ∀ s pairs, Registry.standard.find? d.prop = some s →
    complete .standard ignored d.prop d.value = .replace pairs → ∀ layer ∈ s.layersOf d.value,
      ∀ w ∈ s.sortedWords layer, s.accepts w = true ∧ isQuiet w = true

theorem isSimpleProperty_stageNames : ∀ n ∈ stageNames.flatten, isSimpleProperty n.toList = true ∧
    ∀ output ∈ (Compound.ofName? n).elim [] Compound.outputs, isSimpleProperty output.toList = true := by
  decide +kernel

theorem isSimpleProperty_standard :
    ∀ s ∈ Registry.standard, isSimpleProperty s.name.toList = true ∧ Text.lower s.name = s.name := by
  decide +kernel

theorem quiet_openParts : ∀ w ∈ openParts, isQuiet w = true := by
  have h : openParts.all isQuiet = true := by
    rw [openParts]
    cbv
  exact List.all_eq_true.mp h

/-- The longhands that a declaration is taken apart into last. -/
theorem lastsInBody_longhands {ignored : Ignored} {d : Declaration} {pairs : List (String × String)}
    (h : (Node.declaration d).LastsInBody) (hw : d.isHack = false → d.PassesOn ignored)
    (hd : Stage.decided? (Pass.longhands ignored).stages d = some pairs) :
    ∀ pair ∈ pairs, (Node.declaration (d.replacedBy pair)).LastsInBody := by
  intro pair hpair
  obtain ⟨s, hs, hp⟩ := List.exists_of_findSome?_eq_some hd
  rw [stages_longhands] at hs
  obtain ⟨names, hnames, rfl⟩ := List.mem_map.mp hs
  obtain ⟨hprop, hout⟩ := mem_outputs_of_pairs? hnames hp
  obtain ⟨hold, hsimple⟩ := isSimpleProperty_stageNames d.prop (List.mem_flatten.mpr ⟨names, hnames, hprop⟩)
  have hnew := hsimple pair.1 (hout pair hpair)
  rw [pairs?_longhandStage] at hp
  split at hp
  · next hc =>
    rw [Bool.and_eq_true, Bool.not_eq_true'] at hc
    have hlonghands := pairs?_eq_some.mp hp
    have hword : ∀ {w : String}, isLegible w = true → isQuiet w = true → pair.2 = w →
        (Node.declaration (d.replacedBy pair)).LastsInBody := by
      rintro w hl hq rfl
      exact (Spelled.of_word (isWord_of_isLegible hl) (quiet_of_isLegible hl hq)).lastsInBody hnew
    have hwhole : pair.2 = d.value → (Node.declaration (d.replacedBy pair)).LastsInBody := by
      intro hvalue
      rw [Declaration.replacedBy, hvalue]
      exact lastsInBody_renamed h hold hnew
    obtain ⟨-, c, -, htake⟩ := takeApart_of_longhands hlonghands
    rcases mem_of_takeApart htake pair hpair with hvalue | hmem | hopen
    · exact hwhole hvalue
    · rcases (hw hc.2).apart pairs hlonghands pair hpair hmem with hvalue | ⟨hl, hq⟩
      · exact hwhole hvalue
      · exact hword hl hq rfl
    · exact hword (isLegible_openParts _ hopen).1 (quiet_openParts _ hopen) rfl
  · cases hp

/-- What the defaults bring is quiet, and so is what is made of quiet words with blanks, commas and
slashes. -/
theorem admits_quiet : Admits Quiet := by
  refine ⟨?_, fun w hw hq => ?_⟩
  · have h : stockWords.all (fun w => isLegible w && isQuiet w) = true := by
      rw [stockWords]
      cbv
    intro w hw
    have := List.all_eq_true.mp h w hw
    rw [Bool.and_eq_true] at this
    exact quiet_of_isLegible this.1 this.2
  · have hlegible : isLegible "normal" = true := by cbv
    have hnormal : Quiet "normal" := quiet_of_isLegible hlegible (by cbv)
    have h := Legible.slash hw (isWord_of_isLegible hlegible) (by decide)
    have htext : (w ++ "/" ++ "normal").toList = w.toList ++ '/' :: "normal".toList := by simp
    have htokens := h.ofChars_eq
    refine ⟨?_, ?_⟩
    · rw [htext, htokens, Token.listFlat_append]
      refine List.forall_mem_append.mpr ⟨hq.short, ?_⟩
      rw [Token.listFlat]
      refine List.forall_mem_append.mpr ⟨fun l hl => ?_, hnormal.short⟩
      rw [List.mem_singleton.mp hl]
      rfl
    · have hloud : ∀ t ∈ Token.ofChars w.toList ++ slashToken :: Token.ofChars "normal".toList,
          (!isLoud t) = true := by
        rw [List.forall_mem_append, List.forall_mem_cons]
        exact ⟨fun t ht => by rw [hq.not_isLoud t ht]; rfl, rfl,
          fun t ht => by rw [hnormal.not_isLoud t ht]; rfl⟩
      rw [isQuiet, htext, htokens, List.all_eq_true.mpr hloud, Bool.true_and, Bool.not_eq_true']
      refine Bool.eq_false_iff.mpr fun hsuffix => ?_
      obtain ⟨z, hz⟩ := List.isSuffixOf_iff_suffix.mp hsuffix
      have hlast := congrArg List.getLast? hz
      simp at hlast

/-- There is something in a value that is completed. -/
theorem Shorthand.complete_empty (s : Shorthand) : s.complete "" = none := by
  have hlayers : layers "" = [] := by cbv
  have hwords : words "" = [] := by cbv
  rw [complete, layerSlots?, layersOf, hlayers]
  cases s.layered with
  | true => rfl
  | false =>
    simp only [Bool.false_eq_true, if_false, List.mapM_cons, slotsOfLayer?, hwords]
    rfl

/-- A completed shorthand lasts. -/
theorem lastsInBody_defaults {ignored : Ignored} {d : Declaration} {pairs : List (String × String)}
    (hw : d.isHack = false → d.PassesOn ignored)
    (hd : Stage.decided? (Pass.defaults .standard ignored).stages d = some pairs) :
    ∀ pair ∈ pairs, (Node.declaration (d.replacedBy pair)).LastsInBody := by
  obtain ⟨stage, hstage, hp⟩ := List.exists_of_findSome?_eq_some hd
  obtain rfl := List.mem_singleton.mp hstage
  rw [Stage.pairs?_eq] at hp
  split at hp
  · next hc =>
    rw [Bool.and_eq_true, Bool.not_eq_true', Option.isSome_iff_exists] at hc
    obtain ⟨⟨s, hs⟩, hhack⟩ := hc
    have hcomplete : complete .standard ignored d.prop d.value = .replace pairs := pairs?_eq_some.mp hp
    have hmem := List.mem_of_find?_eq_some hs
    have hname : s.name = d.prop := by simpa using List.find?_some hs
    obtain ⟨hsimple, hlower⟩ := isSimpleProperty_standard s hmem
    obtain ⟨s', completed, hs', hcompleted, -, rfl⟩ := complete_eq_replace hcomplete
    rw [← hname, hlower, hname, hs] at hs'
    obtain rfl := Option.some.inj hs'
    have hrestores : ∀ layer ∈ s.layersOf d.value, s.Restores Quiet (words layer) := by
      refine fun layer hl => Shorthand.restores_standard admits_quiet hmem fun w hword => ?_
      obtain ⟨haccepts, hq⟩ := (hw hhack).sorted s _ hs hcomplete layer hl w hword
      refine ⟨haccepts, quiet_of_isLegible ?_ hq⟩
      simp only [Shorthand.accepts, Bool.and_eq_true] at haccepts
      exact haccepts.1.1
    -- a completed value is complete, so that there is something in it
    have hagain := Shorthand.complete_complete hrestores hcompleted
    have hne : completed ≠ "" := by
      rintro rfl
      rw [Shorthand.complete_empty] at hagain
      cases hagain
    obtain ⟨ts, hts⟩ : ∃ ts, Spelled completed.toList ts := by
      rcases Shorthand.complete_eq_rows hrestores hcompleted with
        ⟨rows, hrows, rfl⟩ | ⟨row, hrow, rfl⟩
      · refine exists_spelled_layered (fun h => hne (by rw [h]; rfl)) fun row hr => ?_
        exact ⟨(hrows row hr).1, fun w hw => ⟨((hrows row hr).2 w hw).1.1, ((hrows row hr).2 w hw).2⟩⟩
      · exact exists_spelled_spaced (fun h => hne (by rw [h]; rfl)) fun w hw =>
          ⟨(hrow w hw).1, (hrow w hw).2.2⟩
    rw [List.forall_mem_singleton]
    refine hts.lastsInBody ?_
    rw [← hname, hlower]
    exact hsimple
  · cases hp

/-! ## 4. All three passes -/

/-- What completing decides about after shorthands were taken apart, stood in the sheet before. -/
theorem mem_of_decided?_defaults {ignored : Ignored} {sheet : Sheet} {body : List Node}
    (hb : body ∈ (Pass.defaults .standard ignored).listBodies ((Pass.longhands ignored).apply sheet))
    {d : Declaration} (hd : d ∈ Node.declarations body)
    (hdecided : (Stage.decided? (Pass.defaults .standard ignored).stages d).isSome = true) :
    ∃ body ∈ sheet.bodies, d ∈ Node.declarations body := by
  have hdisjoint := (disjoint_longhands_defaults ignored ignored).symm
  let decided (d : Declaration) : Bool :=
    (Stage.decided? (Pass.defaults .standard ignored).stages d).isSome
  let kept (body : List Node) : List Declaration := (Node.declarations body).filter decided
  -- taking apart leaves of each body what completing decides about
  have hkept : ∀ body, kept ((Pass.longhands ignored).applyBody body) = kept body := by
    refine hdisjoint.filter_applyBody fun d pairs hp => ?_
    obtain ⟨hold, hnew⟩ := hdisjoint.decided? hp
    exact ⟨by simp only [decided, hold]; rfl, fun pair hpair => by
      simp only [decided, hnew pair hpair]; rfl⟩
  have hmap := Pass.map_listBodies_applyNodes (p := Pass.defaults .standard ignored)
    (q := Pass.longhands ignored) sheet fun body _ _ => hkept body
  have hmem : kept body ∈ ((Pass.defaults .standard ignored).listBodies sheet).map kept :=
    hmap ▸ List.mem_map_of_mem hb
  obtain ⟨body', hb', heq⟩ := List.mem_map.mp hmem
  have hin : d ∈ kept body' := heq ▸ List.mem_filter.mpr ⟨hd, hdecided⟩
  exact ⟨body', Sheet.mem_bodies hb', (List.mem_filter.mp hin).1⟩

/-- The sheets between the three passes last. -/
theorem lastsBetween_all {ignored : Ignored} {sheet : Sheet} (h : ∀ n ∈ sheet, n.Lasts true)
    (hw : ∀ body ∈ sheet.bodies, ∀ d ∈ Node.declarations body, d.isHack = false →
      d.PassesOn ignored) :
    LastsBetween ([.longhands, .defaults, .units].map (PassKind.pass ignored)) sheet := by
  have hlonghands : ∀ n ∈ (Pass.longhands ignored).apply sheet, n.Lasts true :=
    Pass.lasts_apply (separate_longhands ignored).independent h fun body hb d hd hlasts pairs hp =>
      lastsInBody_longhands hlasts (hw body (Sheet.mem_bodies hb) d hd) hp
  have hindependent : Stage.Independent (Pass.defaults .standard ignored).stages :=
    List.pairwise_singleton ..
  refine ⟨hlonghands, Pass.lasts_apply hindependent hlonghands fun body hb d hd _ pairs hp => ?_,
    trivial⟩
  obtain ⟨body', hb', hd'⟩ := mem_of_decided?_defaults hb hd (by rw [hp]; rfl)
  exact lastsInBody_defaults (hw body' hb' d hd') hp

/-- Taking apart, completing and adding units each on the text that the pass before wrote comes to what
they come to on one sheet, text, log and refusal. The source has no faults and is not misread, its
sheet is plain, and the words that are moved are legible and quiet.

The conditions are those of reading one text back, for the source and for what the passes put in. They
are asked for the source only: what is said of its declarations holds of those that a pass makes of
them, and the text of the last pass is read by nobody. -/
theorem convertInTurn_eq_convertWith {css : String} {sheet : Sheet} (h : Sheet.parse css = .ok sheet)
    (hf : Token.listHasFault (Token.ofChars css.toList) = false)
    (hm : Token.listMisread (Token.ofChars css.toList) = false) (hp : listIsPlain sheet)
    {ignored : Ignored} (hw : ∀ body ∈ sheet.bodies, ∀ d ∈ Node.declarations body,
      d.isHack = false → d.PassesOn ignored) :
    convertInTurn ignored [.longhands, .defaults, .units] css = convertWith ⟨ignored, true, true, true⟩ css :=
  convertInTurn_eq_convertText (by simp) h (lastsBetween_all (lasts_of_parse h hf hm hp) hw)

/-- A source with a margin that is taken apart and a transition that is completed. -/
def twoShorthands : String := "a\x7bmargin:0 auto!important;transition:x 2s\x7d"

/-- The sheet that `twoShorthands` is read as. -/
def twoShorthandsSheet : Sheet :=
  [.rule "a" [.declaration ⟨"margin", "0 auto", true⟩, .declaration ⟨"transition", "x 2s", false⟩]]

/-- A sheet on which each of the three passes has something to do. -/
theorem convertInTurn_eq_convertWith_twoShorthands :
    Sheet.parse twoShorthands = .ok twoShorthandsSheet ∧
      Token.listHasFault (Token.ofChars twoShorthands.toList) = false ∧
      Token.listMisread (Token.ofChars twoShorthands.toList) = false ∧
      listIsPlain twoShorthandsSheet ∧
      (∀ body ∈ Sheet.bodies twoShorthandsSheet, ∀ d ∈ Node.declarations body,
        d.isHack = false → d.PassesOn .nothing) ∧
      convertInTurn .nothing [.longhands, .defaults, .units] twoShorthands =
        convertWith ⟨.nothing, true, true, true⟩ twoShorthands := by
  have hparse : Sheet.parse twoShorthands = .ok twoShorthandsSheet := by
    rw [twoShorthands, twoShorthandsSheet]
    cbv
  have hfault : Token.listHasFault (Token.ofChars twoShorthands.toList) = false := by cbv
  have hmisread : Token.listMisread (Token.ofChars twoShorthands.toList) = false := by cbv
  have hmargin : Declaration.PassesOn .nothing ⟨"margin", "0 auto", true⟩ := by
    have hwords : words "0 auto" = ["0", "auto"] := by cbv
    have hgood : ∀ w ∈ ["0", "auto"], isLegible w = true ∧ isQuiet w = true := by
      have h : (["0", "auto"].all fun w => isLegible w && isQuiet w) = true := by cbv
      simpa using h
    refine ⟨fun pairs _ q _ hq => .inr ?_, fun s pairs hs => ?_⟩
    · rw [hwords] at hq
      exact hgood q.2 hq
    · have hnone : Registry.standard.find? "margin" = none := by decide
      rw [hnone] at hs
      cases hs
  have htransition : Declaration.PassesOn .nothing ⟨"transition", "x 2s", false⟩ := by
    have hlayers : layers "x 2s" = ["x 2s"] := by cbv
    have hwords : words "x 2s" = ["x", "2s"] := by cbv
    have hgood : ∀ w ∈ ["x", "2s"], Shorthand.transition.accepts w = true ∧ isQuiet w = true := by
      have h : (["x", "2s"].all fun w => Shorthand.transition.accepts w && isQuiet w) = true := by cbv
      simpa using h
    refine ⟨fun pairs h => ?_, fun s pairs hs _ layer hl w hw => ?_⟩
    · have hkeep : (longhands .nothing "transition" "x 2s").pairs? = none := by decide +kernel
      rw [h] at hkeep
      cases hkeep
    · obtain rfl : Shorthand.transition = s := Option.some.inj hs
      have hlayersOf : Shorthand.transition.layersOf "x 2s" = ["x 2s"] := hlayers
      rw [hlayersOf, List.mem_singleton] at hl
      rw [hl] at hw
      have hsorted : Shorthand.transition.sortedWords "x 2s" = ["x", "2s"] := hwords
      exact hgood w (hsorted ▸ hw)
  have hplain : listIsPlain twoShorthandsSheet := by decide
  have hpasses : ∀ body ∈ Sheet.bodies twoShorthandsSheet, ∀ d ∈ Node.declarations body,
      d.isHack = false → d.PassesOn .nothing := by
    intro body hbody d hd _
    obtain rfl := List.mem_singleton.mp hbody
    rcases List.mem_cons.mp hd with rfl | hd
    · exact hmargin
    · obtain rfl := List.mem_singleton.mp hd
      exact htransition
  exact ⟨hparse, hfault, hmisread, hplain, hpasses,
    convertInTurn_eq_convertWith hparse hfault hmisread hplain hpasses⟩

/-- A slash that ends a word and a star that starts the next one are glued to the opening of a comment.
In the text between the passes it swallows the end of the rule. -/
theorem convertInTurn_commentOpener :
    Sheet.parse "a\x7bfont:12px/ *\x7d" = .ok [.rule "a" [.declaration ⟨"font", "12px/ *", false⟩]] ∧
      Token.listHasFault (Token.ofChars "a\x7bfont:12px/ *\x7d".toList) = false ∧
      (convertInTurn .nothing [.longhands, .defaults, .units] "a\x7bfont:12px/ *\x7d").toOption.map
          Converted.css =
        some "a \x7b\n    font: normal normal normal normal 12px/* sans-serif;\n\x7d\n*/;\n\x7d\n" ∧
      (convertWith ⟨.nothing, true, true, true⟩ "a\x7bfont:12px/ *\x7d").toOption.map Converted.css =
        some "a \x7b\n    font: normal normal normal normal 12px/* sans-serif;\n\x7d\n" ∧
      convertInTurn .nothing [.longhands, .defaults, .units] "a\x7bfont:12px/ *\x7d" ≠
        convertWith ⟨.nothing, true, true, true⟩ "a\x7bfont:12px/ *\x7d" := by
  have hturn : (convertInTurn .nothing [.longhands, .defaults, .units]
      "a\x7bfont:12px/ *\x7d").toOption.map Converted.css = some
        "a \x7b\n    font: normal normal normal normal 12px/* sans-serif;\n\x7d\n*/;\n\x7d\n" := by
    decide +kernel
  have hwith : (convertWith ⟨.nothing, true, true, true⟩
      "a\x7bfont:12px/ *\x7d").toOption.map Converted.css = some
        "a \x7b\n    font: normal normal normal normal 12px/* sans-serif;\n\x7d\n" := by
    decide +kernel
  refine ⟨by cbv, by cbv, hturn, hwith, fun heq => ?_⟩
  rw [heq, hwith] at hturn
  exact absurd hturn (by decide)

end CssExpand
