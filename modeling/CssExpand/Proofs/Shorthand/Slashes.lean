import CssExpand.Shorthand.Font
import Mathlib.Data.List.SplitBy

/-!
# Words glued at slashes

Gluing goes through words from left to right and asks the word that it is building, not the last one
it took, whether a slash is at its end. For words with something in them that comes to the same: a
word ends in a slash if the last part of it does (`gluedBySlash_join_left`). So the glued words are
the runs of neighbours with a slash between them, each written as one word (`glueSlashes_eq_runs`),
and everything else is read off the runs.

An empty word would break this. It has no slash at its ends, and it hides those of the words around
it.
-/

set_option autoImplicit false

namespace CssExpand

/-! ## 1. Neighbours -/

/-- No word but the first starts with a slash, and no word but the last ends in one. -/
structure SlashesInside (ws : List String) : Prop where
  starts : ∀ w ∈ ws.tail, w.toList.head? ≠ some '/'
  ends : ∀ w ∈ ws.dropLast, w.toList.getLast? ≠ some '/'

theorem gluedBySlash_eq_false {v w : String} : gluedBySlash v w = false ↔
    v.toList.getLast? ≠ some '/' ∧ w.toList.head? ≠ some '/' := by
  rw [gluedBySlash, Bool.or_eq_false_iff, beq_eq_false_iff_ne, beq_eq_false_iff_ne, and_comm]

/-- Slashes are inside words if there is none between two neighbours. -/
theorem slashesInside_iff_isChain {ws : List String} :
    SlashesInside ws ↔ ws.IsChain fun v w => gluedBySlash v w = false := by
  constructor
  · rintro ⟨hstarts, hends⟩
    induction ws with
    | nil => exact List.isChain_nil
    | cons v ws ih =>
      cases ws with
      | nil => exact List.isChain_singleton v
      | cons w ws =>
        rw [List.tail_cons] at hstarts
        rw [List.dropLast_cons_cons, List.forall_mem_cons] at hends
        refine List.isChain_cons_cons.mpr ⟨gluedBySlash_eq_false.mpr
          ⟨hends.1, hstarts w List.mem_cons_self⟩, ih ?_ hends.2⟩
        exact fun u hu => hstarts u (List.mem_cons_of_mem w hu)
  · intro h
    induction ws with
    | nil => exact ⟨by simp, by simp⟩
    | cons v ws ih =>
      cases ws with
      | nil => exact ⟨by simp, by simp⟩
      | cons w ws =>
        obtain ⟨hvw, hws⟩ := List.isChain_cons_cons.mp h
        obtain ⟨hv, hw⟩ := gluedBySlash_eq_false.mp hvw
        obtain ⟨hstarts, hends⟩ := ih hws
        refine ⟨List.forall_mem_cons.mpr ⟨hw, hstarts⟩, ?_⟩
        rw [List.dropLast_cons_cons]
        exact List.forall_mem_cons.mpr ⟨hv, hends⟩

/-- Words without a slash between them stay as they are. -/
theorem glueOnto_of_isChain {w : String} {ws : List String}
    (h : (w :: ws).IsChain fun v w => gluedBySlash v w = false) : glueOnto w ws = w :: ws := by
  induction ws generalizing w with
  | nil => rfl
  | cons v vs ih =>
    obtain ⟨hwv, hvs⟩ := List.isChain_cons_cons.mp h
    rw [glueOnto, hwv, ih hvs]
    rfl

theorem glueSlashes_of_slashesInside {ws : List String} (h : SlashesInside ws) :
    glueSlashes ws = ws := by
  cases ws with
  | nil => rfl
  | cons w ws => exact glueOnto_of_isChain (slashesInside_iff_isChain.mp h)

/-! ## 2. Runs -/

/-- The end of a word is the end of its last part. -/
theorem gluedBySlash_join_left {run : List String} (hne : run ≠ []) (h : ∀ w ∈ run, w ≠ "")
    (w : String) : gluedBySlash (String.join run) w = gluedBySlash (run.getLast hne) w := by
  have hlast : (run.getLast hne).toList ≠ [] := by simpa using h _ (List.getLast_mem hne)
  have hsplit : String.join run = String.join run.dropLast ++ run.getLast hne := by
    conv_lhs => rw [← List.dropLast_append_getLast hne, String.join_append]
    simp
  rw [gluedBySlash, hsplit, String.toList_append, List.getLast?_append_of_ne_nil _ hlast,
    gluedBySlash]

/-- The start of a word is the start of its first part. -/
theorem gluedBySlash_join_right {run : List String} (hne : run ≠ []) (h : ∀ w ∈ run, w ≠ "")
    (v : String) : gluedBySlash v (String.join run) = gluedBySlash v (run.head hne) := by
  have hhead : (run.head hne).toList ≠ [] := by simpa using h _ (List.head_mem hne)
  have hsplit : String.join run = run.head hne ++ String.join run.tail := by
    conv_lhs => rw [← List.cons_head_tail hne, String.join_cons]
  rw [gluedBySlash, hsplit, String.toList_append, List.head?_append_of_ne_nil _ hhead,
    gluedBySlash]

/-- The word that is being built is a run of neighbours. The induction is on the words that are
left; each of them joins the run or starts the next one. -/
theorem glueOnto_eq_runs {run ws : List String} (hne : run ≠ []) (h : ∀ w ∈ run ++ ws, w ≠ "")
    (hrun : run.IsChain fun v w => gluedBySlash v w = true) :
    glueOnto (String.join run) ws = ((run ++ ws).splitBy gluedBySlash).map String.join := by
  induction ws generalizing run with
  | nil => rw [List.append_nil, List.splitBy_of_isChain hne hrun, glueOnto, List.map_singleton]
  | cons w ws ih =>
    have hlast := gluedBySlash_join_left hne (fun v hv => h v (List.mem_append_left _ hv)) w
    rw [glueOnto, hlast]
    cases hg : gluedBySlash (run.getLast hne) w with
    | true =>
      have hjoin : String.join run ++ w = String.join (run ++ [w]) := by
        simp [String.join_append, String.join_cons]
      rw [if_pos rfl, hjoin, List.append_cons run w ws]
      refine ih (by simp) (by simpa using h) (List.isChain_append.mpr ⟨hrun, by simp, ?_⟩)
      intro u hu v hv
      obtain rfl : w = v := by simpa using hv
      rw [List.getLast?_eq_some_getLast hne, Option.mem_some] at hu
      rw [← hu, hg]
    | false =>
      have hws : ∀ v ∈ [w] ++ ws, v ≠ "" := fun v hv => h v (List.mem_append_right _ hv)
      have hword : String.join [w] = w := by simp [String.join_cons]
      have hnext : glueOnto (String.join [w]) ws =
          (([w] ++ ws).splitBy gluedBySlash).map String.join := ih (by simp) hws (by simp)
      rw [hword] at hnext
      rw [if_neg Bool.false_ne_true, hnext, List.splitBy_append_cons ws ?_,
        List.splitBy_of_isChain hne hrun]
      · rfl
      · intro u hu
        rw [List.getLast?_eq_some_getLast hne, Option.mem_some] at hu
        rw [← hu, hg]

/-- Glued words are the longest runs of words with slashes between them. -/
theorem glueSlashes_eq_runs {ws : List String} (h : ∀ w ∈ ws, w ≠ "") :
    glueSlashes ws = (ws.splitBy gluedBySlash).map String.join := by
  cases ws with
  | nil => rfl
  | cons w ws =>
    have hword : String.join [w] = w := by simp [String.join_cons]
    have hruns : glueOnto (String.join [w]) ws =
        (([w] ++ ws).splitBy gluedBySlash).map String.join :=
      glueOnto_eq_runs (by simp) h (by simp)
    rwa [hword] at hruns

theorem join_map_join (runs : List (List String)) :
    String.join (runs.map String.join) = String.join runs.flatten := by
  induction runs with
  | nil => rfl
  | cons run runs ih =>
    rw [List.map_cons, String.join_cons, List.flatten_cons, String.join_append, ih]

theorem join_glueSlashes {ws : List String} (h : ∀ w ∈ ws, w ≠ "") :
    String.join (glueSlashes ws) = String.join ws := by
  rw [glueSlashes_eq_runs h, join_map_join, List.flatten_splitBy]

/-- Two runs have no slash between them, so neither have the words that they make. -/
theorem slashesInside_glueSlashes {ws : List String} (h : ∀ w ∈ ws, w ≠ "") :
    SlashesInside (glueSlashes ws) := by
  have hparts : ∀ run ∈ ws.splitBy gluedBySlash, ∀ w ∈ run, w ≠ "" := by
    intro run hrun w hw
    refine h w ?_
    rw [← List.flatten_splitBy gluedBySlash ws]
    exact List.mem_flatten.mpr ⟨run, hrun, hw⟩
  rw [slashesInside_iff_isChain, glueSlashes_eq_runs h, List.isChain_map]
  refine (List.isChain_getLast_head_splitBy gluedBySlash ws).imp_of_mem_imp ?_
  rintro first second hfirst hsecond ⟨hne, hne', hapart⟩
  rw [gluedBySlash_join_left hne (hparts first hfirst),
    gluedBySlash_join_right hne' (hparts second hsecond), hapart]

/-! ## 3. The normal form -/

/-- Gluing keeps the text of the words and leaves slashes inside words only. Words of that form are
the ones that it leaves alone, so gluing once is enough. It glues no more than it has to: what comes
out are the runs of words with slashes between them. The last part alone determines the result, and the
others are what its users need of it. -/
theorem glueSlashes_normalForm {ws : List String} (h : ∀ w ∈ ws, w ≠ "") :
    String.join (glueSlashes ws) = String.join ws ∧ SlashesInside (glueSlashes ws) ∧
      glueSlashes (glueSlashes ws) = glueSlashes ws ∧
      (glueSlashes ws = ws ↔ SlashesInside ws) ∧
      glueSlashes ws = (ws.splitBy gluedBySlash).map String.join := by
  have hinside := slashesInside_glueSlashes h
  refine ⟨join_glueSlashes h, hinside, glueSlashes_of_slashesInside hinside, ⟨fun heq => ?_, ?_⟩,
    glueSlashes_eq_runs h⟩
  · rwa [heq] at hinside
  · exact glueSlashes_of_slashesInside

/-- A slash alone glues on both sides, and two of them glue each other. -/
theorem glueSlashes_normalForm_slashRun :
    (∀ w ∈ ["bold", "12px/", "/", "1.5", "/", "serif", "a/"], w ≠ "") ∧
      glueSlashes ["bold", "12px/", "/", "1.5", "/", "serif", "a/"] =
        ["bold", "12px//1.5/serif", "a/"] ∧
      SlashesInside ["bold", "12px//1.5/serif", "a/"] := by
  have h : ∀ w ∈ ["bold", "12px/", "/", "1.5", "/", "serif", "a/"], w ≠ "" := by decide
  have hglued : glueSlashes ["bold", "12px/", "/", "1.5", "/", "serif", "a/"] =
      ["bold", "12px//1.5/serif", "a/"] := by decide
  exact ⟨h, hglued, hglued ▸ (glueSlashes_normalForm h).2.1⟩

end CssExpand
