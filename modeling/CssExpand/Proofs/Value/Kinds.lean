import CssExpand.Proofs.Pass
import CssExpand.Value.Words
import Mathlib

/-!
# Words by their kinds

A grammar that goes through words one at a time gives each of them a kind, by the first rule that the
word fits. What such a grammar finds can be told from the words of each kind in their order
(`ofKind`). How the kinds stand between each other does not matter then (`Interleaved`).

Words are read for it, and one with an overlong integer stops the reading. That happens in one order
of the words if it happens in another (`Interleaved.checkWords_eq_ok`).
-/

set_option autoImplicit false

namespace CssExpand.Value

open Syntax

/-! ## 1. Reading words -/

theorem checkWords_eq_ok {ws : List String} :
    checkWords ws = .ok () ↔ ∀ w ∈ ws, checkIntegers w = .ok () :=
  Stage.forM_eq_ok

/-- Words can be read if words can be read that take in all of them. -/
theorem checkWords_of_subset {ws vs : List String} (h : checkWords ws = .ok ()) (hs : vs ⊆ ws) :
    checkWords vs = .ok () :=
  checkWords_eq_ok.mpr fun w hw => checkWords_eq_ok.mp h w (hs hw)

/-! ## 2. The words of a kind -/

/-- What words are folded to has a closed form if one more word brings the closed form to the closed
form with one more word. -/
theorem foldl_eq_of_concat {σ : Type} {add : σ → String → σ} {closed : List String → σ}
    (h : ∀ ws w, add (closed ws) w = closed (ws ++ [w])) (ws : List String) :
    ws.foldl add (closed []) = closed ws := by
  induction ws using List.reverseRecOn with
  | nil => rfl
  | append_singleton ws w ih => rw [List.foldl_append, ih, List.foldl_cons, List.foldl_nil, h]

section

variable {κ : Type} [DecidableEq κ]

/-- The words of one kind, in their order. -/
def ofKind (kind : String → κ) (k : κ) (ws : List String) : List String :=
  ws.filter fun w => kind w = k

/-- The same words of each kind in the same order, however the kinds stand between each other. -/
def Interleaved (kind : String → κ) (ws vs : List String) : Prop :=
  ∀ k, ofKind kind k ws = ofKind kind k vs

variable {kind : String → κ}

theorem mem_ofKind {k : κ} {w : String} {ws : List String} :
    w ∈ ofKind kind k ws ↔ w ∈ ws ∧ kind w = k := by
  rw [ofKind, List.mem_filter, decide_eq_true_eq]

/-- One more word is one more word of its kind. -/
theorem ofKind_concat (k : κ) (ws : List String) (w : String) :
    ofKind kind k (ws ++ [w]) = if kind w = k then ofKind kind k ws ++ [w] else ofKind kind k ws := by
  rw [ofKind, List.filter_append]
  by_cases h : kind w = k
  · rw [if_pos h, List.filter_cons_of_pos (by simpa using h), List.filter_nil, ofKind]
  · rw [if_neg h, List.filter_cons_of_neg (by simpa using h), List.filter_nil, List.append_nil, ofKind]

/-- In any order there are as many words of a kind. -/
theorem length_ofKind_of_perm {ws vs : List String} (h : ws.Perm vs) (k : κ) :
    (ofKind kind k ws).length = (ofKind kind k vs).length :=
  (h.filter _).length_eq

namespace Interleaved

variable {ws vs : List String} (h : Interleaved kind ws vs)
include h

theorem symm : Interleaved kind vs ws := fun k => (h k).symm

theorem subset : vs ⊆ ws := by
  intro w hw
  have hmem : w ∈ ofKind kind (kind w) vs := mem_ofKind.mpr ⟨hw, rfl⟩
  rw [← h] at hmem
  exact (mem_ofKind.mp hmem).1

theorem checkWords_eq_ok : checkWords ws = .ok () ↔ checkWords vs = .ok () :=
  ⟨fun hws => checkWords_of_subset hws h.subset, fun hvs => checkWords_of_subset hvs h.symm.subset⟩

end Interleaved

/-- A single word cannot be interleaved with itself. -/
theorem Interleaved.eq_singleton {ws : List String} {w : String} (h : Interleaved kind ws [w]) :
    ws = [w] := by
  have hall : ∀ v ∈ ws, kind v = kind w := fun v hv => by rw [List.mem_singleton.mp (h.symm.subset hv)]
  have hws : ofKind kind (kind w) ws = ws :=
    List.filter_eq_self.mpr fun v hv => decide_eq_true (hall v hv)
  have hw : ofKind kind (kind w) [w] = [w] :=
    List.filter_eq_self.mpr fun v hv => decide_eq_true (by rw [List.mem_singleton.mp hv])
  rw [← hws, h, hw]

end

end CssExpand.Value
