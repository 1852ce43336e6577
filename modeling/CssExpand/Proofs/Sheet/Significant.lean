import CssExpand.Proofs.Syntax.Rereading
import CssExpand.Sheet.Body
import Mathlib.Data.List.Forall2

/-!
# What declarations are read from

Whitespace and comments have no say in what a chunk of a body is: only its significant tokens have,
and of those only what `Mark` notes. So chunks whose significant tokens match are read alike, however
much whitespace and how many comments stand between them (`reads_alike`). The writer changes just
that.
-/

set_option autoImplicit false

namespace CssExpand

open Syntax

/-! ## 1. Significant tokens -/

/-- The tokens that are neither whitespace nor comments. -/
def significant (ts : List Token) : List Token := ts.filter Token.isSignificant

@[simp] theorem significant_append (as bs : List Token) :
    significant (as ++ bs) = significant as ++ significant bs := List.filter_append ..

theorem significant_eq_nil {ts : List Token} (h : ∀ t ∈ ts, t.isSignificant = false) :
    significant ts = [] := by
  rw [significant, List.filter_eq_nil_iff]
  intro t ht
  simp [h t ht]

/-- Where the first significant token stands. -/
theorem significant_eq_cons {ts us : List Token} {t : Token} (h : significant ts = t :: us) :
    ∃ before after, ts = before ++ t :: after ∧ (∀ b ∈ before, b.isSignificant = false) ∧
      t.isSignificant ∧ significant after = us := by
  obtain ⟨before, after, heq, hb, ht, ha⟩ := List.filter_eq_cons_iff.mp h
  exact ⟨before, after, heq, by simpa using hb, ht, ha⟩

theorem dropWhile_insignificant {before after : List Token} {t : Token}
    (hb : ∀ b ∈ before, b.isSignificant = false) (ht : t.isSignificant) :
    (before ++ t :: after).dropWhile (!·.isSignificant) = t :: after := by
  refine dropWhile_stop (fun b hm => by simp [hb b hm]) ?_
  rintro c ⟨⟩
  simp [ht]

@[simp] theorem isSignificant_reread (t : Token) : t.reread.isSignificant = t.isSignificant := by
  cases t with
  | atom a => cases a <;> rfl
  | function name arguments => rfl
  | block b content => rfl

/-- Reading back changes the significant tokens one by one. -/
@[simp] theorem significant_listReread (ts : List Token) :
    significant (Token.listReread ts) = (significant ts).map Token.reread := by
  induction ts with
  | nil => rfl
  | cons t ts ih =>
    have hjoin : significant (t.join ts) = [] := by
      refine significant_eq_nil fun u hu => ?_
      cases ts with
      | nil => cases hu
      | cons v vs =>
        rw [Token.join] at hu
        split at hu
        · rw [List.mem_singleton.mp hu]
          rfl
        · cases hu
    rw [Token.listReread, ← List.singleton_append, significant_append, significant_append, hjoin,
      ih, List.nil_append]
    cases ht : t.isSignificant <;> simp [significant, isSignificant_reread, ht]

/-- Trimming drops whitespace at the ends, which is not significant. -/
@[simp] theorem significant_trim (ts : List Token) :
    significant (Token.trim ts) = significant ts := by
  have hdrop : ∀ us : List Token, significant (us.dropWhile Token.isWhitespace) = significant us := by
    intro us
    induction us with
    | nil => rfl
    | cons u us ih =>
      rw [List.dropWhile_cons]
      split
      · rename_i hu
        rw [ih]
        simp [significant, Token.isSignificant, hu]
      · rfl
  have hreverse : ∀ us : List Token, significant us.reverse = (significant us).reverse :=
    fun us => List.filter_reverse ..
  rw [Token.trim, hreverse, hdrop, hreverse, hdrop, List.reverse_reverse]

/-! ## 2. Marks -/

/-- Two tokens that mean the same to a reader of values. A reader of values asks these three questions
of a token and no others. -/
structure SameMark (t u : Token) : Prop where
  bang : t.isLiteral ['!'] = u.isLiteral ['!']
  word : isImportantWord t = isImportantWord u
  block : isCurlyBlock t = isCurlyBlock u

theorem sameMark_reread (t : Token) : SameMark t t.reread := by
  cases t with
  | atom a => cases a <;> exact ⟨rfl, rfl, rfl⟩
  | function name arguments => exact ⟨rfl, rfl, rfl⟩
  | block b content => cases b <;> exact ⟨rfl, rfl, rfl⟩

/-- Two lists of tokens with the same marks in the same order. -/
def SameMarks (ts us : List Token) : Prop :=
  List.Forall₂ SameMark (significant ts) (significant us)

theorem SameMarks.append {ts us vs ws : List Token} (h : SameMarks ts us) (h' : SameMarks vs ws) :
    SameMarks (ts ++ vs) (us ++ ws) := by
  unfold SameMarks at *
  rw [significant_append, significant_append]
  exact List.rel_append h h'

theorem sameMarks_of_eq {ts us : List Token}
    (h : significant us = (significant ts).map Token.reread) : SameMarks ts us := by
  rw [SameMarks, h]
  induction significant ts with
  | nil => exact .nil
  | cons t ts ih => exact .cons (sameMark_reread t) ih

/-! ## 3. The importance of a value -/

/-- How far the reading of `!important` has come. -/
inductive Importance.Stage where
  | none
  | bang
  | important
  deriving DecidableEq

/-- The stage that the importance of a value stands for. -/
def Importance.stage : Importance → Importance.Stage
  | .none => .none
  | .bang _ => .bang
  | .important _ => .important

namespace ValueReading

/-- Two readings that are equally far. What has been read differs, how it is read on does not. -/
structure Alike (r s : ValueReading) : Prop where
  stage : r.importance.stage = s.importance.stage
  started : r.started = s.started
  misplaced : r.misplaced = s.misplaced

/-- One step: two significant tokens with the same mark take alike readings to alike readings. -/
theorem Alike.take {r s : ValueReading} {t u : Token} (h : Alike r s) (hm : SameMark t u)
    (ht : t.isSignificant) (hu : u.isSignificant) : Alike (r.take t) (s.take u) := by
  have hplain : Alike { r.takePlain t with read := t :: r.read }
      { s.takePlain u with read := u :: s.read } := by
    simp only [takePlain, ht, hu, if_true]
    exact ⟨rfl, rfl, by rw [h.misplaced, h.started, hm.block]⟩
  have hstage := h.stage
  unfold ValueReading.take
  cases hr : r.importance <;> cases hs : s.importance <;>
    simp only [hr, hs, Importance.stage, reduceCtorEq] at hstage
  · dsimp only
    rw [hm.bang]
    split
    · exact ⟨rfl, h.started, h.misplaced⟩
    · exact hplain
  · dsimp only
    rw [hm.word]
    split
    · exact ⟨rfl, h.started, h.misplaced⟩
    · exact hplain
  · exact hplain

/-- A token that is not significant leaves a reading as far as it is. -/
theorem alike_take_insignificant (r : ValueReading) {t : Token} (ht : t.isSignificant = false) :
    Alike (r.take t) r := by
  have hbang : t.isLiteral ['!'] = false := by
    cases t with
    | atom a => cases a <;> simp_all [Token.isSignificant, Token.isWhitespace, Token.isComment,
        Token.isLiteral]
    | _ => rfl
  have hword : isImportantWord t = false := by
    cases t with
    | atom a => cases a <;> simp_all [Token.isSignificant, Token.isWhitespace, Token.isComment,
        isImportantWord]
    | _ => rfl
  unfold ValueReading.take
  cases hr : r.importance <;>
    simp only [hbang, hword, takePlain, ht, Bool.false_eq_true, if_false] <;>
    exact ⟨by simp [hr], rfl, rfl⟩

theorem Alike.trans {r s q : ValueReading} (h : Alike r s) (h' : Alike s q) : Alike r q :=
  ⟨h.stage.trans h'.stage, h.started.trans h'.started, h.misplaced.trans h'.misplaced⟩

theorem Alike.symm {r s : ValueReading} (h : Alike r s) : Alike s r :=
  ⟨h.stage.symm, h.started.symm, h.misplaced.symm⟩

/-- Reading tokens comes as far as reading the significant ones. -/
theorem alike_significant (ts : List Token) {r s : ValueReading} (h : Alike r s) :
    Alike (ts.foldl take r) ((significant ts).foldl take s) := by
  induction ts generalizing r s with
  | nil => exact h
  | cons t ts ih =>
    cases ht : t.isSignificant with
    | true =>
      have : significant (t :: ts) = t :: significant ts := by simp [significant, ht]
      rw [this]
      exact ih (h.take ⟨rfl, rfl, rfl⟩ ht ht)
    | false =>
      have : significant (t :: ts) = significant ts := by simp [significant, ht]
      rw [this]
      exact ih ((alike_take_insignificant r ht).trans h)

/-- Tokens with the same marks are read alike. -/
theorem reads_alike {ts us : List Token} (h : SameMarks ts us) :
    Alike (ts.foldl take {}) (us.foldl take {}) := by
  have key : ∀ {vs ws : List Token}, List.Forall₂ SameMark vs ws →
      (∀ v ∈ vs, v.isSignificant) → (∀ w ∈ ws, w.isSignificant) → ∀ {r s : ValueReading},
      Alike r s → Alike (vs.foldl take r) (ws.foldl take s) := by
    intro vs ws hf
    induction hf with
    | nil => exact fun _ _ _ _ h => h
    | cons hm _ ih =>
      intro hv hw r s h
      rw [List.forall_mem_cons] at hv hw
      exact ih hv.2 hw.2 (h.take hm hv.1 hw.1)
  have hsig : ∀ vs, ∀ v ∈ significant vs, v.isSignificant :=
    fun vs v hv => (List.mem_filter.mp hv).2
  have hstart : Alike {} {} := ⟨rfl, rfl, rfl⟩
  exact ((alike_significant ts hstart).trans (key h (hsig ts) (hsig us) hstart)).trans
    (alike_significant us hstart).symm

end ValueReading

/-! ## 4. The tokens before the exclamation mark -/

theorem isSignificant_of_isLiteral {t : Token} {text : List Char} (h : t.isLiteral text) :
    t.isSignificant := by
  cases t with
  | atom a => cases a <;> simp_all [Token.isLiteral, Token.isSignificant, Token.isWhitespace,
      Token.isComment]
  | _ => simp [Token.isLiteral] at h

theorem isSignificant_of_isImportantWord {t : Token} (h : isImportantWord t) :
    t.isSignificant := by
  cases t with
  | atom a => cases a <;> simp_all [isImportantWord, Token.isSignificant, Token.isWhitespace,
      Token.isComment]
  | _ => simp [isImportantWord] at h

/-- What the importance of a value says of the tokens that were read, the last one first. -/
def Importance.Of (read : List Token) : Importance → Prop
  | .none => True
  | .bang before => ∃ gap t, read = gap ++ t :: before ∧ (∀ g ∈ gap, g.isSignificant = false) ∧
      t.isLiteral ['!']
  | .important before => ∃ gap w gap' t, read = gap ++ w :: (gap' ++ t :: before) ∧
      (∀ g ∈ gap ++ gap', g.isSignificant = false) ∧ isImportantWord w ∧ t.isLiteral ['!']

namespace ValueReading

/-- One step keeps what the stage of the importance says of the tokens that were read. -/
theorem of_take {r : ValueReading} (h : r.importance.Of r.read) (t : Token) :
    (r.take t).importance.Of (r.take t).read := by
  have hplain : (r.takePlain t).importance.Of (t :: r.read) := by
    unfold takePlain
    split
    · trivial
    · rename_i ht
      have ht : t.isSignificant = false := by simpa using ht
      cases hr : r.importance with
      | none => trivial
      | bang before =>
        rw [hr] at h
        obtain ⟨gap, b, heq, hgap, hb⟩ := h
        exact ⟨t :: gap, b, by rw [heq]; rfl, List.forall_mem_cons.mpr ⟨ht, hgap⟩, hb⟩
      | important before =>
        rw [hr] at h
        obtain ⟨gap, w, gap', b, heq, hgap, hw, hb⟩ := h
        exact ⟨t :: gap, w, gap', b, by rw [heq]; rfl, List.forall_mem_cons.mpr ⟨ht, hgap⟩, hw, hb⟩
  unfold take
  cases hr : r.importance with
  | none =>
    dsimp only
    split
    · rename_i hb
      exact ⟨[], t, rfl, by simp, hb⟩
    · exact hplain
  | bang before =>
    dsimp only
    split
    · rename_i hw
      rw [hr] at h
      obtain ⟨gap, b, heq, hgap, hb⟩ := h
      exact ⟨[], t, gap, b, by rw [← heq]; rfl, by simpa using hgap, hw, hb⟩
    · exact hplain
  | important before => exact hplain

theorem of_foldl (ts : List Token) {r : ValueReading} (h : r.importance.Of r.read) :
    (ts.foldl take r).importance.Of (ts.foldl take r).read := by
  induction ts generalizing r with
  | nil => exact h
  | cons t ts ih => exact ih (of_take h t)

theorem read_foldl (ts : List Token) (r : ValueReading) :
    (ts.foldl take r).read = ts.reverse ++ r.read := by
  induction ts generalizing r with
  | nil => rfl
  | cons t ts ih =>
    rw [List.foldl_cons, ih]
    simp [take]

end ValueReading

/-! ## 5. Values -/

theorem readValue?_eq_none {ts us : List Token} (h : SameMarks ts us) (hn : readValue? ts = none) :
    readValue? us = none := by
  have halike := ValueReading.reads_alike h
  unfold readValue? ValueReading.result? at hn ⊢
  rw [← halike.misplaced]
  split at hn
  · rename_i hm
    rw [if_pos hm]
  · split at hn <;> cases hn

/-- What a value is that was read. -/
theorem readValue?_eq_some {ts value : List Token} {important : Bool}
    (h : readValue? ts = some (value, important)) :
    (ts.foldl ValueReading.take {}).misplaced = false ∧
      ((ts.foldl ValueReading.take {}).importance.stage = .important ↔ important) ∧
      if important then
        ∃ t gap w gap', ts = value ++ t :: gap ++ w :: gap' ∧
          (∀ g ∈ gap ++ gap', g.isSignificant = false) ∧ isImportantWord w ∧ t.isLiteral ['!']
      else value = ts := by
  have hof : (ts.foldl ValueReading.take {}).importance.Of (ts.foldl ValueReading.take {}).read :=
    ValueReading.of_foldl ts trivial
  -- the fold keeps what it has read, backwards, and splits it where the mark stands
  have hread := ValueReading.read_foldl ts {}
  rw [List.append_nil] at hread
  unfold readValue? ValueReading.result? at h
  split at h
  · cases h
  · rename_i hm
    refine ⟨by simpa using hm, ?_⟩
    split at h
    · rename_i before hi
      cases h
      rw [hi, hread] at hof
      obtain ⟨gap, w, gap', t, heq, hgap, hw, ht⟩ := hof
      refine ⟨by simp [hi, Importance.stage], ?_⟩
      rw [if_pos rfl]
      refine ⟨t, gap'.reverse, w, gap.reverse, ?_, ?_, hw, ht⟩
      · rw [← List.reverse_reverse ts, heq]
        simp
      · intro g hg
        refine hgap g ?_
        rw [List.mem_append, List.mem_reverse, List.mem_reverse] at hg
        exact List.mem_append.mpr hg.symm
    · rename_i hi
      cases h
      refine ⟨⟨fun hs => ?_, fun hs => by cases hs⟩, ?_⟩
      · cases hc : (ts.foldl ValueReading.take {}).importance with
        | important before => exact absurd hc (hi before)
        | none => simp [hc, Importance.stage] at hs
        | bang before => simp [hc, Importance.stage] at hs
      · rw [if_neg (by simp), hread, List.reverse_reverse]

theorem isInfix_of_readValue? {ts value : List Token} {important : Bool}
    (h : readValue? ts = some (value, important)) : value <:+: ts := by
  obtain ⟨-, -, hvalue⟩ := readValue?_eq_some h
  cases important with
  | true =>
    obtain ⟨t, gap, w, gap', rfl, -⟩ := hvalue
    exact ⟨[], t :: gap ++ w :: gap', by simp⟩
  | false =>
    obtain rfl : value = ts := hvalue
    exact List.infix_refl value

/-- Tokens with the marks of a value that is not important are such a value. -/
theorem readValue?_plain {ts us value : List Token} (h : SameMarks ts us)
    (hv : readValue? ts = some (value, false)) : readValue? us = some (us, false) := by
  have halike := ValueReading.reads_alike h
  obtain ⟨hm, hs, -⟩ := readValue?_eq_some hv
  have hread := ValueReading.read_foldl us {}
  rw [List.append_nil] at hread
  unfold readValue? ValueReading.result?
  rw [← halike.misplaced, hm, if_neg (by simp)]
  split
  · rename_i before hi
    have := halike.stage
    rw [hi] at this
    exact absurd (hs.mp this) (by simp)
  · rw [hread, List.reverse_reverse]

/-- Tokens with the marks of an important value that end in the two words for it are such a value. -/
theorem readValue?_important {ts us value : List Token} {t w : Token} (ht : t.isLiteral ['!'])
    (hw : isImportantWord w) (h : SameMarks ts (us ++ [t, w]))
    (hv : readValue? ts = some (value, true)) : readValue? (us ++ [t, w]) = some (us, true) := by
  have halike := ValueReading.reads_alike h
  obtain ⟨hm, hs, -⟩ := readValue?_eq_some hv
  have hof : ((us ++ [t, w]).foldl ValueReading.take {}).importance.Of
      ((us ++ [t, w]).foldl ValueReading.take {}).read := ValueReading.of_foldl _ trivial
  have hread := ValueReading.read_foldl (us ++ [t, w]) {}
  rw [List.append_nil, List.reverse_append] at hread
  have hstage := halike.stage
  rw [hs.mpr rfl] at hstage
  unfold readValue? ValueReading.result?
  rw [← halike.misplaced, hm, if_neg (by simp)]
  cases hi : ((us ++ [t, w]).foldl ValueReading.take {}).importance with
  | none =>
    rw [hi] at hstage
    cases hstage
  | bang before =>
    rw [hi] at hstage
    cases hstage
  | important before =>
    rw [hi, hread] at hof
    obtain ⟨gap, w', gap', t', heq, hgap, -, -⟩ := hof
    -- Nothing that is not significant stands after the two words.
    have hnil : ∀ {gap : List Token} {v v' : Token} {vs vs' : List Token}, v.isSignificant →
        (∀ g ∈ gap, g.isSignificant = false) → v :: vs = gap ++ v' :: vs' → vs = vs' := by
      intro gap v v' vs vs' hv hgap heq
      cases gap with
      | nil => exact (List.cons.inj heq).2
      | cons g gap =>
        obtain ⟨rfl, -⟩ := List.cons.inj heq
        rw [hgap v List.mem_cons_self] at hv
        cases hv
    rw [List.forall_mem_append] at hgap
    have h1 := hnil (isSignificant_of_isImportantWord hw) hgap.1 heq
    have h2 := hnil (isSignificant_of_isLiteral ht) hgap.2 h1
    simp [← h2]

/-! ## 6. Declarations -/

/-- A declaration is a name, a colon and a value, with nothing significant between them. -/
theorem readDeclaration?_parts {before between value : List Token} {name : List Char} {colon : Token}
    (hb : ∀ t ∈ before, t.isSignificant = false) (hg : ∀ t ∈ between, t.isSignificant = false)
    (hc : colon.isLiteral [':']) :
    readDeclaration? (before ++ .atom (.ident name) :: (between ++ colon :: value)) =
      (readValue? value).map fun v => ⟨propertyName name, authoredText v.1, v.2⟩ := by
  unfold readDeclaration?
  rw [dropWhile_insignificant hb rfl]
  dsimp only
  rw [dropWhile_insignificant hg (isSignificant_of_isLiteral hc)]
  simp only [hc, if_true]

/-- And a list that is read as a declaration consists of these parts. -/
theorem exists_parts {ts : List Token} {d : Declaration} (h : readDeclaration? ts = some d) :
    ∃ before name between colon value w important,
      ts = before ++ .atom (.ident name) :: (between ++ colon :: value) ∧
      (∀ t ∈ before, t.isSignificant = false) ∧ (∀ t ∈ between, t.isSignificant = false) ∧
      colon.isLiteral [':'] ∧ readValue? value = some (w, important) ∧
      d = ⟨propertyName name, authoredText w, important⟩ := by
  have hsplit : ∀ us : List Token, us = us.takeWhile (!·.isSignificant) ++
      us.dropWhile (!·.isSignificant) := fun us => (List.takeWhile_append_dropWhile ..).symm
  have hplain : ∀ us : List Token, ∀ t ∈ us.takeWhile (!·.isSignificant),
      t.isSignificant = false := fun us t ht => by simpa using List.mem_takeWhile_imp ht
  unfold readDeclaration? at h
  split at h
  · rename_i name rest hrest
    split at h
    · rename_i colon value hvalue
      split at h
      · rename_i hc
        obtain ⟨⟨w, important⟩, hv, rfl⟩ := Option.map_eq_some_iff.mp h
        refine ⟨_, name, _, colon, value, w, important, ?_, hplain ts, hplain rest, hc, hv, rfl⟩
        rw [← hvalue, ← hsplit rest, ← hrest, ← hsplit ts]
      · cases h
    · cases h
  · cases h

/-- What is no declaration is none after it was read back. -/
theorem readDeclaration?_eq_none {ts us : List Token}
    (h : significant us = (significant ts).map Token.reread) (hn : readDeclaration? ts = none) :
    readDeclaration? us = none := by
  refine Option.eq_none_iff_forall_ne_some.mpr fun d hd => ?_
  obtain ⟨before, name, between, colon, value, w, important, rfl, hb, hg, hc, hv, -⟩ :=
    exists_parts hd
  have hident : significant [Token.atom (.ident name)] = [.atom (.ident name)] := rfl
  have hcolon : significant [colon] = [colon] := by
    simp [significant, isSignificant_of_isLiteral hc]
  rw [significant_append, significant_eq_nil hb, ← List.singleton_append, significant_append,
    significant_append, significant_eq_nil hg, ← List.singleton_append (l := value),
    significant_append, hident, hcolon] at h
  simp only [List.nil_append, List.singleton_append] at h
  obtain ⟨t, ts₁, hts, ht, h₁⟩ := List.map_eq_cons_iff.mp h.symm
  obtain ⟨c, ts₂, hts₁, hct, h₂⟩ := List.map_eq_cons_iff.mp h₁
  obtain rfl : t = .atom (.ident name) := by
    cases t with
    | atom a => cases a <;> simp_all [Token.reread, Atom.reread]
    | _ => simp [Token.reread] at ht
  have hc' : c.isLiteral [':'] := by
    rw [← Token.isLiteral_reread, hct]
    exact hc
  subst hts₁
  obtain ⟨before', after, rfl, hb', -, hafter⟩ := significant_eq_cons hts
  obtain ⟨between', value', rfl, hg', -, hvalue⟩ := significant_eq_cons hafter
  rw [readDeclaration?_parts hb' hg' hc', Option.map_eq_none_iff] at hn
  have : SameMarks value' value := sameMarks_of_eq (by rw [hvalue, h₂])
  rw [readValue?_eq_none this hn] at hv
  cases hv

/-! ## 7. Chunks -/

theorem readChunk_whitespace (text : List Char) (ts : List Token) :
    readChunk (.atom (.whitespace text) :: ts) = readChunk ts := rfl

theorem readChunk_comment (text : List Char) (ts : List Token) :
    readChunk (.atom (.comment text) :: ts) = .comment (String.ofList text) :: readChunk ts := rfl

theorem readChunk_significant {t : Token} {ts : List Token} (ht : t.isSignificant) :
    readChunk (t :: ts) = [(readDeclaration? (t :: ts)).elim (.raw (authoredText (t :: ts)))
      Node.declaration] := by
  have hstop : (!t.isSignificant) = false := by simp [ht]
  cases hd : readDeclaration? (t :: ts) <;> simp [readChunk, hstop, hd]

theorem splitAt_ne_nil (separates : Token → Bool) (ts : List Token) :
    Token.splitAt separates ts ≠ [] := by
  cases ts with
  | nil => simp [Token.splitAt]
  | cons t ts =>
    rw [Token.splitAt]
    split
    · simp
    · split <;> simp

theorem splitAt_cons (separates : Token → Bool) {t : Token} (ht : separates t = false)
    (ts : List Token) : ∃ piece pieces, Token.splitAt separates ts = piece :: pieces ∧
      Token.splitAt separates (t :: ts) = (t :: piece) :: pieces := by
  obtain ⟨piece, pieces, h⟩ := List.exists_cons_of_ne_nil (splitAt_ne_nil separates ts)
  exact ⟨piece, pieces, h, by simp [Token.splitAt, h, ht]⟩

theorem splitAt_append {separates : Token → Bool} {chunk : List Token} {t : Token}
    (hc : ∀ c ∈ chunk, separates c = false) (ht : separates t) (ts : List Token) :
    Token.splitAt separates (chunk ++ t :: ts) = chunk :: Token.splitAt separates ts := by
  induction chunk with
  | nil =>
    obtain ⟨piece, pieces, h⟩ := List.exists_cons_of_ne_nil (splitAt_ne_nil separates ts)
    simp [Token.splitAt, h, ht]
  | cons c chunk ih =>
    rw [List.forall_mem_cons] at hc
    rw [List.cons_append, Token.splitAt, ih hc.2]
    simp [hc.1]

/-- A piece of a list of tokens is a part of it in which nothing separates. -/
theorem of_mem_splitAt {separates : Token → Bool} {ts piece : List Token}
    (h : piece ∈ Token.splitAt separates ts) :
    piece <:+: ts ∧ ∀ t ∈ piece, separates t = false := by
  -- The first piece is a start of the list, which the token in front of the list prolongs.
  have key : ∀ us : List Token, ∃ first others, Token.splitAt separates us = first :: others ∧
      first <+: us ∧ (∀ t ∈ first, separates t = false) ∧
      ∀ q ∈ others, q <:+: us ∧ ∀ t ∈ q, separates t = false := by
    intro us
    induction us with
    | nil => exact ⟨[], [], rfl, List.prefix_refl _, by simp, by simp⟩
    | cons u us ih =>
      obtain ⟨first, others, heq, hfirst, hsep, hothers⟩ := ih
      have hmore : ∀ q, q <:+: us → q <:+: u :: us := fun q hq => hq.trans (List.infix_cons_iff.mpr
        (.inr (List.infix_refl us)))
      cases hu : separates u with
      | true =>
        refine ⟨[], first :: others, by simp [Token.splitAt, heq, hu], List.nil_prefix, by simp, ?_⟩
        rw [List.forall_mem_cons]
        exact ⟨⟨hmore _ hfirst.isInfix, hsep⟩, fun q hq => ⟨hmore _ (hothers q hq).1,
          (hothers q hq).2⟩⟩
      | false =>
        refine ⟨u :: first, others, by simp [Token.splitAt, heq, hu],
          List.cons_prefix_cons.mpr ⟨rfl, hfirst⟩, List.forall_mem_cons.mpr ⟨hu, hsep⟩, ?_⟩
        exact fun q hq => ⟨hmore _ (hothers q hq).1, (hothers q hq).2⟩
  obtain ⟨first, others, heq, hfirst, hsep, hothers⟩ := key ts
  rw [heq, List.mem_cons] at h
  rcases h with rfl | h
  · exact ⟨hfirst.isInfix, hsep⟩
  · exact hothers piece h

theorem readBody_whitespace (text : List Char) (ts : List Token) :
    readBody (.atom (.whitespace text) :: ts) = readBody ts := by
  obtain ⟨piece, pieces, h, h'⟩ := splitAt_cons Token.isSemicolon
    (t := .atom (.whitespace text)) rfl ts
  rw [readBody, readBody, h, h', List.flatMap_cons, List.flatMap_cons, readChunk_whitespace]

theorem readBody_comment (text : List Char) (ts : List Token) :
    readBody (.atom (.comment text) :: ts) = .comment (String.ofList text) :: readBody ts := by
  obtain ⟨piece, pieces, h, h'⟩ := splitAt_cons Token.isSemicolon
    (t := .atom (.comment text)) rfl ts
  rw [readBody, readBody, h, h', List.flatMap_cons, List.flatMap_cons, readChunk_comment]
  rfl

theorem readBody_chunk {chunk : List Token} (h : ∀ t ∈ chunk, t.isSemicolon = false)
    (ts : List Token) : readBody (chunk ++ .atom (.literal [';']) :: ts) =
      readChunk chunk ++ readBody ts := by
  rw [readBody, splitAt_append h rfl, List.flatMap_cons]
  rfl

end CssExpand
