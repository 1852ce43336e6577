import CssExpand.Proofs.Value.Legible
import CssExpand.Shorthand.Registry
import Mathlib

/-!
# Completed values are complete

Completing a value sorts the words of each layer into slots, fills the open slots with defaults and
writes the slots in their order. A shorthand restores a layer (`Shorthand.Restores`) if the words that
it writes are sorted into slots that are filled the same. Where all layers are restored, completing a
completed value changes nothing (`complete_complete`). A shorthand that joins by spaces alone writes the
words of the slots as they are, and restores what these words settle (`Shorthand.Settles.restores`).

The shorthands that write their slots one after the other have that in common that every slot holds a
word of the kind that belongs there, and that a default is of the kind of its slot too. There is one
exception to the latter: the default name of an animation is a fill mode. But the fill mode is written
after the name and overrides it, and the name is left to its default again.
-/

set_option autoImplicit false

namespace CssExpand

open Syntax Value

/-- The words that completing puts in. -/
def stockWords : List String :=
  ["none", "0s", "ease", "1", "normal", "running", "all", "0", "currentcolor", "inset", "0%", "auto",
   "disc", "outside", "medium", "sans-serif"]

/-- A class of words with all those that completing puts in, also behind a slash. The slash is there
for the one value that is not a row: the size of a font with its line height. -/
structure Admits (p : String → Prop) : Prop where
  stock : ∀ w ∈ stockWords, p w
  slash : ∀ w, IsWord w → p w → p (w ++ "/" ++ "normal")

/-- Whether a shorthand may write a word: it is read as it is, has no comma if commas separate, and is
of the class `p`. -/
def Shorthand.Writes (s : Shorthand) (p : String → Prop) (w : String) : Prop :=
  IsWord w ∧ (s.layered = true → isCommaless w = true) ∧ p w

/-- Completing the words of a layer writes words that are completed to the same layer. -/
def Shorthand.Restores (s : Shorthand) (p : String → Prop) (ws : List String) : Prop :=
  ∀ slots, s.assign ws = some slots → ∃ vs slots', vs ≠ [] ∧ (∀ v ∈ vs, s.Writes p v) ∧
    s.join (s.fill slots) = spaced vs ∧ s.assign vs = some slots' ∧
    slots'.length = slots.length ∧ s.fill slots' = s.fill slots

/-- The words that are written for the slots of a layer: a slot that is filled with nothing has
none. -/
def Shorthand.row (s : Shorthand) (slots : Slots) : List String :=
  (s.fill slots).filter (!·.isEmpty)

/-- The words that are written for a layer are of the class `p`, and are sorted into slots that are
filled the same. -/
def Shorthand.Settles (s : Shorthand) (p : String → Prop) (ws : List String) : Prop :=
  ∀ slots, s.assign ws = some slots → s.row slots ≠ [] ∧ (∀ v ∈ s.row slots, p v) ∧
    ∃ slots', s.assign (s.row slots) = some slots' ∧ slots'.length = slots.length ∧
      s.fill slots' = s.fill slots

/-- What `Settles` says of the slots that words are sorted into. -/
def Shorthand.SettlesAs (s : Shorthand) (p : String → Prop) (slots : Slots) : Prop :=
  s.row slots ≠ [] ∧ (∀ v ∈ s.row slots, p v) ∧
    ∃ slots', s.assign (s.row slots) = some slots' ∧ slots'.length = slots.length ∧
      s.fill slots' = s.fill slots

/-- Words that are joined by spaces are written as they are sorted. -/
theorem Shorthand.Settles.restores {s : Shorthand} {p : String → Prop} {ws : List String}
    (h : s.Settles (s.Writes p) ws) (hj : s.join = joinPresent) : s.Restores p ws := by
  intro slots hslots
  obtain ⟨hne, hwrites, slots', hassign, hlength, hfill⟩ := h slots hslots
  refine ⟨s.row slots, slots', hne, hwrites, ?_, hassign, hlength, hfill⟩
  rw [hj]
  rfl

/-! ## 1. Whole values -/

theorem mapM_eq_some {α β : Type} {f : α → Option β} : ∀ {as : List α} {bs : List β},
    as.mapM f = some bs ↔ List.Forall₂ (fun a b => f a = some b) as bs
  | [], bs => by
    rw [List.mapM_nil, Option.pure_def, Option.some.injEq]
    exact ⟨fun h => h ▸ .nil, fun h => by cases h; rfl⟩
  | a :: as, bs => by
    rw [List.mapM_cons]
    simp only [Option.bind_eq_bind, Option.pure_def, Option.bind_eq_some_iff, Option.some.injEq]
    constructor
    · rintro ⟨b, hb, bs, hbs, rfl⟩
      exact .cons hb (mapM_eq_some.mp hbs)
    · rintro (_ | ⟨hb, hbs⟩)
      exact ⟨_, hb, _, mapM_eq_some.mpr hbs, rfl⟩

namespace Shorthand

variable {s : Shorthand} {p : String → Prop}

theorem slotsOfLayer?_eq_some {layer : String} {slots : Slots} :
    s.slotsOfLayer? layer = some slots ↔
      words layer ≠ [] ∧ s.assign (words layer) = some slots ∧ slots.length = s.slots.length := by
  rw [slotsOfLayer?]
  cases hw : words layer with
  | nil => simp
  | cons w ws => simp [Option.filter_eq_some_iff]

/-- A layer that was completed is written as words that are completed to the same layer. -/
theorem exists_row {layer : String} {slots : Slots} (hr : s.Restores p (words layer))
    (h : s.slotsOfLayer? layer = some slots) :
    ∃ vs, vs ≠ [] ∧ (∀ v ∈ vs, s.Writes p v) ∧ s.join (s.fill slots) = spaced vs ∧
      ∃ slots', s.slotsOfLayer? (spaced vs) = some slots' ∧ s.fill slots' = s.fill slots := by
  obtain ⟨-, ha, hlen⟩ := slotsOfLayer?_eq_some.mp h
  obtain ⟨vs, slots', hne, hwrites, hjoin, hassign, hlen', hfill⟩ := hr slots ha
  have hwords := words_spaced fun v hv => (hwrites v hv).1
  refine ⟨vs, hne, hwrites, hjoin, slots', slotsOfLayer?_eq_some.mpr ?_, hfill⟩
  rw [hwords]
  exact ⟨hne, hassign, hlen'.trans hlen⟩

/-- Each layer has a row that it is written as, by induction on the layers. -/
theorem exists_rows {ls : List String} {slotss : List Slots}
    (h : List.Forall₂ (fun layer slots => s.slotsOfLayer? layer = some slots) ls slotss)
    (hr : ∀ layer ∈ ls, s.Restores p (words layer)) :
    ∃ rows : List (List String), (∀ row ∈ rows, row ≠ [] ∧ ∀ v ∈ row, s.Writes p v) ∧
      (slotss.map fun slots => s.join (s.fill slots)) = rows.map spaced ∧
      ∃ slotss', List.Forall₂ (fun row slots' => s.slotsOfLayer? (spaced row) = some slots') rows
        slotss' ∧ slotss'.map s.fill = slotss.map s.fill := by
  induction h with
  | nil => exact ⟨[], by simp, rfl, [], .nil, rfl⟩
  | cons hslots _ ih =>
    rw [List.forall_mem_cons] at hr
    obtain ⟨vs, hne, hwrites, hjoin, slots', hslots', hfill⟩ := exists_row hr.1 hslots
    obtain ⟨rows, hrows, hjoins, slotss', hall, hfills⟩ := ih hr.2
    refine ⟨vs :: rows, List.forall_mem_cons.mpr ⟨⟨hne, hwrites⟩, hrows⟩, ?_, slots' :: slotss',
      .cons hslots' hall, ?_⟩
    · rw [List.map_cons, List.map_cons, hjoin, hjoins]
    · rw [List.map_cons, List.map_cons, hfill, hfills]

/-- What it means that a value is completed: each of its layers has slots, and the slots are written
with their defaults. -/
theorem complete_eq_some {value completed : String} :
    s.complete value = some completed ↔ s.layersOf value ≠ [] ∧ ∃ slotss,
      List.Forall₂ (fun layer slots => s.slotsOfLayer? layer = some slots) (s.layersOf value) slotss ∧
      completed = ", ".intercalate (slotss.map fun slots => s.join (s.fill slots)) := by
  rw [complete, layerSlots?]
  cases hl : s.layersOf value with
  | nil => simp
  | cons l ls =>
    simp only [Option.map_eq_some_iff, mapM_eq_some]
    refine ⟨?_, ?_⟩
    · rintro ⟨slotss, hall, rfl⟩
      exact ⟨by simp, slotss, hall, rfl⟩
    · rintro ⟨-, slotss, hall, rfl⟩
      exact ⟨slotss, hall, rfl⟩

/-- A value whose layers are restored is completed to rows of words: layers, or a single row. -/
theorem complete_eq_rows {value completed : String}
    (hr : ∀ layer ∈ s.layersOf value, s.Restores p (words layer))
    (h : s.complete value = some completed) :
    (∃ rows : List (List String), (∀ row ∈ rows, row ≠ [] ∧ ∀ w ∈ row,
      (IsWord w ∧ isCommaless w = true) ∧ p w) ∧ completed = Value.layered rows) ∨
    ∃ row : List String, (∀ w ∈ row, s.Writes p w) ∧ completed = spaced row := by
  obtain ⟨-, slotss, hall, rfl⟩ := complete_eq_some.mp h
  obtain ⟨rows, hrows, hjoins, -⟩ := exists_rows hall hr
  rw [hjoins]
  cases hlayered : s.layered with
  | true =>
    refine .inl ⟨rows, fun row hrow => ⟨(hrows row hrow).1, fun w hw => ?_⟩, rfl⟩
    obtain ⟨hword, hcomma, hp⟩ := (hrows row hrow).2 w hw
    exact ⟨⟨hword, hcomma hlayered⟩, hp⟩
  | false =>
    have hlen : rows.length = 1 := by
      have := congrArg List.length hjoins
      rw [List.length_map, List.length_map, ← hall.length_eq, layersOf, hlayered] at this
      exact this.symm
    obtain ⟨row, rfl⟩ := List.length_eq_one_iff.mp hlen
    exact .inr ⟨row, (hrows row List.mem_cons_self).2, by simp⟩

/-- A value whose layers are restored is complete once it is completed. -/
theorem complete_complete {value completed : String}
    (hr : ∀ layer ∈ s.layersOf value, s.Restores p (words layer))
    (h : s.complete value = some completed) : s.complete completed = some completed := by
  obtain ⟨hne, slotss, hall, rfl⟩ := complete_eq_some.mp h
  obtain ⟨rows, hrows, hjoins, slotss', hall', hfills⟩ := exists_rows hall hr
  have hlen : rows.length = (s.layersOf value).length := by
    rw [hall.length_eq, ← List.length_map (f := fun slots => s.join (s.fill slots)), hjoins,
      List.length_map]
  have hrne : rows ≠ [] := by
    rintro rfl
    exact hne (List.length_eq_zero_iff.mp hlen.symm)
  -- what was written is read back row by row
  have hlayers : s.layersOf (", ".intercalate (rows.map spaced)) = rows.map spaced := by
    rw [layersOf] at hlen ⊢
    cases hlayered : s.layered with
    | true =>
      refine layers_layered hrne fun row hrow => ⟨(hrows row hrow).1, fun w hw => ?_⟩
      exact ⟨((hrows row hrow).2 w hw).1, ((hrows row hrow).2 w hw).2.1 hlayered⟩
    | false =>
      rw [hlayered] at hlen
      obtain ⟨row, rfl⟩ := List.length_eq_one_iff.mp hlen
      simp
  rw [hjoins]
  refine complete_eq_some.mpr ⟨by rw [hlayers]; simpa using hrne, slotss', ?_, ?_⟩
  · rw [hlayers, List.forall₂_map_left_iff]
    exact hall'
  · have hmap : ∀ ss : List Slots, (ss.map fun slots => s.join (s.fill slots)) =
        (ss.map s.fill).map s.join := fun ss => by rw [List.map_map]; rfl
    rw [← hjoins, hmap, hmap, hfills]

end Shorthand

end CssExpand
