import CssExpand.Proofs.Passes.Refusals
import CssExpand.Proofs.Value.Kinds
import Mathlib

/-!
# Layers whose words are told apart by kind

An animation, a transition and a box shadow know every word by its looks, and go by its kind only. So
the slots of a layer can be told from the words of each kind, and two layers that interleave the kinds
differently have the same slots (`Shorthand.sortsByKind_layered`). Each of the three has a closed form
that one more word brings to the closed form with one more word (`Animation.add_ofKinds` and its like).

A box shadow goes by kinds as long as there is room for its lengths: a fifth numeric word is a color,
and which one is the fifth does depend on the order. The single word `none` is no layer at all.
-/

set_option autoImplicit false

namespace CssExpand

open Syntax Value

/-! ## 1. Sorting by kind -/

/-- A shorthand sorts words by their kinds: the slots of a layer are told from the words of each kind
in their order. The layers it does so for are those that fit. It says in one what the order of the
words can do: within a kind it counts, between the kinds it does not. -/
structure Shorthand.SortsByKind {κ : Type} [DecidableEq κ] (s : Shorthand) (kind : String → κ)
    (fits : List String → Prop) (slots : (κ → List String) → Slots) : Prop where
  assign_eq : ∀ ws, fits ws → s.assign ws = some (slots fun k => ofKind kind k ws)
  /-- How the kinds stand between each other changes nothing. -/
  interleaved : ∀ ws vs, fits ws → Interleaved kind ws vs → s.assign vs = s.assign ws
  /-- Where every word can be read, nothing else is read. -/
  reads : ∀ ws vs, Interleaved kind ws vs → checkWords ws = .ok () →
    checkWords (s.reads ws) = .ok () ∧ checkWords (s.reads vs) = .ok ()

/-- It is enough to tell the slots from the words of each kind, and to know that what fits still fits
when it is interleaved differently. -/
theorem Shorthand.SortsByKind.of_assign {κ : Type} [DecidableEq κ] {s : Shorthand}
    {kind : String → κ} {fits : List String → Prop} {slots : (κ → List String) → Slots}
    (hassign : ∀ ws, fits ws → s.assign ws = some (slots fun k => ofKind kind k ws))
    (hfits : ∀ ws vs, Interleaved kind ws vs → fits ws → fits vs)
    (hreads : ∀ ws, s.reads ws ⊆ ws) : s.SortsByKind kind fits slots where
  assign_eq := hassign
  interleaved ws vs hws h := by
    have hkinds : (fun k => ofKind kind k vs) = fun k => ofKind kind k ws := funext fun k => (h k).symm
    rw [hassign ws hws, hassign vs (hfits ws vs h hws), hkinds]
  reads ws vs h hws := by
    have hvs := h.checkWords_eq_ok.mp hws
    exact ⟨checkWords_of_subset hws (hreads ws), checkWords_of_subset hvs (hreads vs)⟩

/-! ## 2. Animation -/

namespace Animation

/-- The animation of the words of each kind. -/
def ofKinds (of : AnimationWord → List String) : Animation where
  name := (of .name).getLast?
  duration := (of .time).head?
  timing := (of .timing).getLast?
  delay := if 2 ≤ (of .time).length then (of .time).getLast? else none
  iterationCount := (of .iterationCount).head?
  direction := (of .direction).getLast?
  fillMode := (of .fillMode).getLast?
  playState := (of .playState).getLast?

theorem add_ofKinds (ws : List String) (w : String) :
    (ofKinds fun k => ofKind AnimationWord.ofWord k ws).add w =
      ofKinds fun k => ofKind AnimationWord.ofWord k (ws ++ [w]) := by
  cases h : AnimationWord.ofWord w with
  | time =>
    -- the first time is the duration, the second one the delay, and a third one replaces it
    rcases htimes : ofKind AnimationWord.ofWord .time ws with - | ⟨t, - | ⟨u, ts⟩⟩ <;>
      simp [add, ofKinds, ofKind_concat, h, htimes, List.getLast?_cons]
  | iterationCount =>
    -- only the first count counts
    cases hcounts : ofKind AnimationWord.ofWord .iterationCount ws <;>
      simp [add, ofKinds, ofKind_concat, h, hcounts]
  | _ => simp [add, ofKinds, ofKind_concat, h]

theorem ofWords_eq_ofKinds (ws : List String) :
    ofWords ws = ofKinds fun k => ofKind AnimationWord.ofWord k ws :=
  foldl_eq_of_concat add_ofKinds ws

end Animation

/-! ## 3. Transition -/

namespace Transition

/-- The transition of the words of each kind. -/
def ofKinds (of : TransitionWord → List String) : Transition where
  property := (of .property).getLast?
  duration := (of .time).head?
  timing := (of .timing).getLast?
  delay := if 2 ≤ (of .time).length then (of .time).getLast? else none

theorem add_ofKinds (ws : List String) (w : String) :
    (ofKinds fun k => ofKind TransitionWord.ofWord k ws).add w =
      ofKinds fun k => ofKind TransitionWord.ofWord k (ws ++ [w]) := by
  cases h : TransitionWord.ofWord w with
  | time =>
    rcases htimes : ofKind TransitionWord.ofWord .time ws with - | ⟨t, - | ⟨u, ts⟩⟩ <;>
      simp [add, ofKinds, ofKind_concat, h, htimes, List.getLast?_cons]
  | _ => simp [add, ofKinds, ofKind_concat, h]

theorem ofWords_eq_ofKinds (ws : List String) :
    ofWords ws = ofKinds fun k => ofKind TransitionWord.ofWord k ws :=
  foldl_eq_of_concat add_ofKinds ws

end Transition

/-! ## 4. Box shadow -/

/-- What a word of a box shadow can be. -/
inductive ShadowWord where
  | inset
  | length
  | color
  deriving DecidableEq, Repr

/-- The kind of a word, by the first rule that it fits. -/
def ShadowWord.ofWord (word : String) : ShadowWord :=
  if isOneOf ["inset"] word then .inset else if yieldsNumber word then .length else .color

namespace Shadow

/-- The shadow of the words of each kind. -/
def ofKinds (of : ShadowWord → List String) : Shadow where
  lengths := of .length
  color := (of .color).getLast?
  inset := !(of .inset).isEmpty

/-- A list of words that is a layer with room for all of its lengths. -/
structure Fits (ws : List String) : Prop where
  room : (ofKind ShadowWord.ofWord .length ws).length ≤ maxLengths
  shadow : ∀ w, ws = [w] → isOneOf ["none"] w = false

/-- One more word of a shadow, where the words before it are sorted already. -/
theorem add_ofKinds {ws : List String} {w : String}
    (h : (ofKind ShadowWord.ofWord .length (ws ++ [w])).length ≤ maxLengths) :
    (ofKinds fun k => ofKind ShadowWord.ofWord k ws).add w =
      ofKinds fun k => ofKind ShadowWord.ofWord k (ws ++ [w]) := by
  rw [ofKind_concat] at h
  by_cases hinset : isOneOf ["inset"] w
  · have hkind : ShadowWord.ofWord w = .inset := if_pos hinset
    simp [add, ofKinds, ofKind_concat, hinset, hkind]
  · by_cases hnumber : yieldsNumber w
    · have hkind : ShadowWord.ofWord w = .length := by
        rw [ShadowWord.ofWord, if_neg hinset, if_pos hnumber]
      rw [if_pos hkind, List.length_append, List.length_singleton] at h
      have hroom : (ofKind ShadowWord.ofWord .length ws).length < maxLengths := h
      simp [add, ofKinds, ofKind_concat, hinset, hnumber, hkind, hroom]
    · have hkind : ShadowWord.ofWord w = .color := by
        rw [ShadowWord.ofWord, if_neg hinset, if_neg hnumber]
      simp [add, ofKinds, ofKind_concat, hinset, hnumber, hkind]

theorem foldl_add_eq_ofKinds {ws : List String}
    (h : (ofKind ShadowWord.ofWord .length ws).length ≤ maxLengths) :
    ws.foldl add {} = ofKinds fun k => ofKind ShadowWord.ofWord k ws := by
  induction ws using List.reverseRecOn with
  | nil => rfl
  | append_singleton ws w ih =>
    have hws : (ofKind ShadowWord.ofWord .length ws).length ≤ maxLengths := by
      refine Nat.le_trans (List.Sublist.length_le ?_) h
      exact (List.sublist_append_left ws [w]).filter _
    rw [List.foldl_append, List.foldl_cons, List.foldl_nil, ih hws, add_ofKinds h]

/-- A list of words is a layer unless it is the single word `none`. -/
theorem ofWords?_eq {ws : List String} (h : ∀ w, ws = [w] → isOneOf ["none"] w = false) :
    ofWords? ws = some (ws.foldl add {}) := by
  rcases ws with - | ⟨w, - | ⟨v, vs⟩⟩
  · rfl
  · rw [ofWords?, if_neg (by simp [h w rfl])]
    rfl
  · rfl

/-- The slots of a box shadow: the lengths in their order, then the color and the switch. -/
def slotsOfKinds (of : ShadowWord → List String) : Slots :=
  [(of .length)[0]?, (of .length)[1]?, (of .length)[2]?, (of .length)[3]?, (of .color).getLast?,
    if (of .inset).isEmpty then none else some "inset"]

/-- The slots of words that are sorted, read off kind by kind. -/
theorem slots_ofKinds {of : ShadowWord → List String} (h : (of .length).length ≤ maxLengths) :
    (ofKinds of).slots = slotsOfKinds of := by
  have hinset : (if !(of .inset).isEmpty then some "inset" else none) =
      if (of .inset).isEmpty then none else some "inset" := by
    cases (of .inset).isEmpty <;> rfl
  rw [slots, slotsOfKinds, ofKinds, hinset]
  rcases hlengths : of .length with - | ⟨a, - | ⟨b, - | ⟨c, - | ⟨d, - | ⟨e, rest⟩⟩⟩⟩⟩
  · rfl
  · rfl
  · rfl
  · rfl
  · rfl
  · rw [hlengths, maxLengths] at h
    simp only [List.length_cons] at h
    omega

theorem assign_eq {ws : List String} (h : Fits ws) :
    Shorthand.boxShadow.assign ws = some (slotsOfKinds fun k => ofKind ShadowWord.ofWord k ws) := by
  have hws : ofWords? ws = some (ofKinds fun k => ofKind ShadowWord.ofWord k ws) := by
    rw [ofWords?_eq h.shadow, foldl_add_eq_ofKinds h.room]
  show (ofWords? ws).map slots = _
  rw [hws, Option.map_some, slots_ofKinds h.room]

theorem Fits.of_interleaved {ws vs : List String} (hi : Interleaved ShadowWord.ofWord ws vs)
    (h : Fits ws) : Fits vs := by
  refine ⟨hi .length ▸ h.room, ?_⟩
  rintro w rfl
  exact h.shadow w hi.eq_singleton

end Shadow

/-! ## 5. The layered shorthands -/

/-- Animations, transitions and box shadows are told from the words of each kind, for a box shadow as
long as the lengths have room. Of the times of an animation or a transition the first one is the
duration and the last one, if there are two, the delay; of the iteration counts the first one counts,
and of any other kind the last word. -/
theorem Shorthand.sortsByKind_layered :
    Shorthand.animation.SortsByKind AnimationWord.ofWord (fun _ => True)
      (fun of => (Animation.ofKinds of).slots) ∧
    Shorthand.transition.SortsByKind TransitionWord.ofWord (fun _ => True)
      (fun of => (Transition.ofKinds of).slots) ∧
    Shorthand.boxShadow.SortsByKind ShadowWord.ofWord Shadow.Fits Shadow.slotsOfKinds := by
  refine ⟨?_, ?_, ?_⟩
  · refine .of_assign (fun ws _ => ?_) (fun _ _ _ _ => trivial) fun ws => List.Subset.refl ws
    rw [← Animation.ofWords_eq_ofKinds]
    rfl
  · refine .of_assign (fun ws _ => ?_) (fun _ _ _ _ => trivial) fun ws => List.Subset.refl ws
    rw [← Transition.ofWords_eq_ofKinds]
    rfl
  · exact .of_assign (fun _ => Shadow.assign_eq) (fun _ _ => Shadow.Fits.of_interleaved)
      (Shadow.readWords_subset Shadow.maxLengths)

/-- The switch of a box shadow may stand in front of its length and color or behind them. -/
theorem Shorthand.sortsByKind_layered_inset :
    Shadow.Fits ["inset", "1px", "red"] ∧
      Interleaved ShadowWord.ofWord ["inset", "1px", "red"] ["1px", "red", "inset"] ∧
      Shorthand.boxShadow.assign ["1px", "red", "inset"] =
        Shorthand.boxShadow.assign ["inset", "1px", "red"] := by
  have hinset : ShadowWord.ofWord "inset" = .inset := if_pos (by cbv)
  have hlength : ShadowWord.ofWord "1px" = .length := by
    have hno : isOneOf ["inset"] "1px" = false := by cbv
    have hnumber : yieldsNumber "1px" = true := by cbv
    rw [ShadowWord.ofWord, hno, hnumber]
    rfl
  have hcolor : ShadowWord.ofWord "red" = .color := by
    have hno : isOneOf ["inset"] "red" = false := by cbv
    have hnumber : yieldsNumber "red" = false := by cbv
    rw [ShadowWord.ofWord, hno, hnumber]
    rfl
  have hfits : Shadow.Fits ["inset", "1px", "red"] := by
    refine ⟨?_, by simp⟩
    simp [ofKind, hinset, hlength, hcolor, Shadow.maxLengths]
  have hi : Interleaved ShadowWord.ofWord ["inset", "1px", "red"] ["1px", "red", "inset"] := by
    intro k
    cases k <;> simp [ofKind, hinset, hlength, hcolor]
  exact ⟨hfits, hi, Shorthand.sortsByKind_layered.2.2.interleaved _ _ hfits hi⟩

end CssExpand
