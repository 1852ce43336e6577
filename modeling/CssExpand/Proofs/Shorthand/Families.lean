import CssExpand.Proofs.Shorthand.Restored
import CssExpand.Proofs.Value.Border

/-!
# The families settle their layers

One theorem for each shorthand whose words are told apart by their looks: the words that are written
for the slots of a layer are sorted into slots that are filled the same (`Shorthand.Settles`). Each
proof has two halves. Along the fold over the words of a layer, every slot holds a word of the layer
that is of its kind; and a row with one word of each kind, the words in the order of the slots, is
sorted into these slots. Nothing else is asked of the words, so they may be of any class that has the
words that completing puts in (`Stocked`).
-/

set_option autoImplicit false

namespace CssExpand

open Syntax Value

/-! ## 1. Words that are written for slots left out -/

theorem isLegible_stockWords : ∀ w ∈ stockWords, isLegible w = true ∧ isCommaless w = true := by
  have h : (stockWords.all fun w => isLegible w && isCommaless w) = true := by
    rw [stockWords]
    cbv
  intro w hw
  simpa using List.all_eq_true.mp h w hw

theorem writes_stockWords {p : String → Prop} (hp : Admits p) (s : Shorthand) :
    ∀ w ∈ stockWords, s.Writes p w := by
  intro w hw
  obtain ⟨hlegible, hcomma⟩ := isLegible_stockWords w hw
  exact ⟨isWord_of_isLegible hlegible, fun _ => hcomma, hp.stock w hw⟩

/-- A class of words, none of them empty, with all those that completing puts in. The class is a
parameter because the same sorting is gone through for words that are legible, contained, accepted or
just not empty. -/
structure Stocked (p : String → Prop) : Prop where
  stock : ∀ w ∈ stockWords, p w
  nonempty : ∀ w, p w → w.isEmpty = false

theorem Shorthand.Writes.nonempty {s : Shorthand} {p : String → Prop} {w : String}
    (h : s.Writes p w) : w.isEmpty = false := by
  have := h.1.nonempty
  simpa using this

theorem stocked_writes {p : String → Prop} (hp : Admits p) (s : Shorthand) : Stocked (s.Writes p) :=
  ⟨writes_stockWords hp s, fun _ h => h.nonempty⟩

/-- A slot that is filled holds its word or its default. -/
theorem getD_cases {p : String → Prop} {slot : Option String} {default : String}
    (hslot : ∀ w ∈ slot, p w) (hdefault : p default) : p (slot.getD default) := by
  cases slot with
  | none => exact hdefault
  | some w => exact hslot w rfl

/-- Words that are all there are all written. -/
theorem Shorthand.row_eq_fill {s : Shorthand} {slots : Slots}
    (h : ∀ w ∈ s.fill slots, w.isEmpty = false) : s.row slots = s.fill slots := by
  rw [row, List.filter_eq_self]
  intro w hw
  rw [h w hw]
  rfl

/-- What every step along words keeps that is not refused holds in the end. -/
theorem foldlM_keeps {σ : Type} {add? : σ → String → Option σ} {q : σ → Prop} {ws : List String}
    {b b' : σ} (hb : q b)
    (hstep : ∀ {c c' : σ} {w : String}, w ∈ ws → q c → add? c w = some c' → q c')
    (h : ws.foldlM add? b = some b') : q b' := by
  induction ws generalizing b with
  | nil => exact Option.some.inj h ▸ hb
  | cons w ws ih =>
    rw [List.foldlM_cons, Option.bind_eq_bind, Option.bind_eq_some_iff] at h
    obtain ⟨c, hc, h⟩ := h
    exact ih (hstep List.mem_cons_self hb hc) (fun hw => hstep (List.mem_cons_of_mem w hw)) h

/-! ## 2. Animation -/

namespace Animation

/-- Every slot holds a word of its kind. -/
structure Sorted (p : String → Prop) (a : Animation) : Prop where
  name : ∀ w ∈ a.name, p w ∧ AnimationWord.ofWord w = .name
  duration : ∀ w ∈ a.duration, p w ∧ AnimationWord.ofWord w = .time
  timing : ∀ w ∈ a.timing, p w ∧ AnimationWord.ofWord w = .timing
  delay : ∀ w ∈ a.delay, p w ∧ AnimationWord.ofWord w = .time
  iterationCount : ∀ w ∈ a.iterationCount, p w ∧ AnimationWord.ofWord w = .iterationCount
  direction : ∀ w ∈ a.direction, p w ∧ AnimationWord.ofWord w = .direction
  fillMode : ∀ w ∈ a.fillMode, p w ∧ AnimationWord.ofWord w = .fillMode
  playState : ∀ w ∈ a.playState, p w ∧ AnimationWord.ofWord w = .playState

/-- One more word: it goes to the slot of its kind, and the other slots stay. -/
theorem Sorted.add {p : String → Prop} {a : Animation} (h : a.Sorted p) {w : String} (hw : p w) :
    (a.add w).Sorted p := by
  have hword : ∀ {kind}, AnimationWord.ofWord w = kind →
      ∀ v ∈ some w, p v ∧ AnimationWord.ofWord v = kind := by
    rintro kind hk v ⟨⟩
    exact ⟨hw, hk⟩
  rw [Animation.add]
  split
  · next hk =>
    split
    · exact { h with duration := hword hk }
    · exact { h with delay := hword hk }
  · next hk => exact { h with timing := hword hk }
  · next hk =>
    refine { h with iterationCount := ?_ }
    cases hc : a.iterationCount with
    | none => exact hword hk
    | some c => exact fun v hv => h.iterationCount v (hc ▸ hv)
  · next hk => exact { h with direction := hword hk }
  · next hk => exact { h with fillMode := hword hk }
  · next hk => exact { h with playState := hword hk }
  · next hk => exact { h with name := hword hk }

theorem sorted_ofWords {p : String → Prop} {ws : List String} (h : ∀ w ∈ ws, p w) :
    (ofWords ws).Sorted p :=
  List.foldlRecOn ws add (by constructor <;> simp) fun _ ha w hw => ha.add (h w hw)

end Animation

theorem ofWord_none : AnimationWord.ofWord "none" = .fillMode := by
  have htime : isTime "none" = false := by cbv
  have heasing : isEasing "none" = false := by cbv
  have hcount : Animation.isCount "none" = false := by cbv
  have hdirection : isOneOf Animation.directionKeywords "none" = false := by cbv
  have hfill : isOneOf Animation.fillModeKeywords "none" = true := by cbv
  rw [AnimationWord.ofWord, htime, heasing, hcount, hdirection, hfill]
  rfl

theorem isTime_0s : isTime "0s" = true := by
  have h : loneToken? "0s" = some (.atom (.dimension ⟨none, ['0'], none, none⟩ ['s'])) := by cbv
  rw [isTime, unit?, h]
  decide +kernel

theorem ofWord_0s : AnimationWord.ofWord "0s" = .time := by
  rw [AnimationWord.ofWord, isTime_0s]
  rfl

theorem isTime_ease : isTime "ease" = false := by cbv

theorem isEasing_ease : isEasing "ease" = true := by
  have h : isOneOf easingKeywords "ease" = true := by cbv
  rw [isEasing, h, Bool.true_or]

theorem ofWord_ease : AnimationWord.ofWord "ease" = .timing := by
  rw [AnimationWord.ofWord, isTime_ease, isEasing_ease]
  rfl

theorem ofWord_1 : AnimationWord.ofWord "1" = .iterationCount := by
  have htime : isTime "1" = false := by cbv
  have heasing : isEasing "1" = false := by cbv
  have hnumber : number? "1" = some ⟨none, ['1'], none, none⟩ := by cbv
  have hcount : Animation.isCount "1" = true := by
    rw [Animation.isCount, hnumber, Option.any_some, Bool.or_eq_true]
    exact .inr (by decide +kernel)
  rw [AnimationWord.ofWord, htime, heasing, hcount]
  rfl

theorem ofWord_normal : AnimationWord.ofWord "normal" = .direction := by
  have htime : isTime "normal" = false := by cbv
  have heasing : isEasing "normal" = false := by cbv
  have hcount : Animation.isCount "normal" = false := by cbv
  have hdirection : isOneOf Animation.directionKeywords "normal" = true := by cbv
  rw [AnimationWord.ofWord, htime, heasing, hcount, hdirection]
  rfl

theorem ofWord_running : AnimationWord.ofWord "running" = .playState := by
  have htime : isTime "running" = false := by cbv
  have heasing : isEasing "running" = false := by cbv
  have hcount : Animation.isCount "running" = false := by cbv
  have hdirection : isOneOf Animation.directionKeywords "running" = false := by cbv
  have hfill : isOneOf Animation.fillModeKeywords "running" = false := by cbv
  have hplay : isOneOf Animation.playStateKeywords "running" = true := by cbv
  rw [AnimationWord.ofWord, htime, heasing, hcount, hdirection, hfill, hplay]
  rfl

namespace Animation

variable {name duration timing delay count direction fill play : String}

/-- One word of each kind in the order of the slots is sorted into these slots. The name may be
missing and stand as a fill mode. -/
theorem ofWords_row (hname : AnimationWord.ofWord name = .name ∨ name = "none")
    (hduration : AnimationWord.ofWord duration = .time)
    (htiming : AnimationWord.ofWord timing = .timing) (hdelay : AnimationWord.ofWord delay = .time)
    (hcount : AnimationWord.ofWord count = .iterationCount)
    (hdirection : AnimationWord.ofWord direction = .direction)
    (hfill : AnimationWord.ofWord fill = .fillMode)
    (hplay : AnimationWord.ofWord play = .playState) :
    Shorthand.animation.fill
      (ofWords [name, duration, timing, delay, count, direction, fill, play]).slots =
      [name, duration, timing, delay, count, direction, fill, play] := by
  rcases hname with hname | rfl
  · simp [ofWords, add, hname, hduration, htiming, hdelay, hcount, hdirection, hfill, hplay, slots,
      Shorthand.fill, Shorthand.animation]
  · simp [ofWords, add, ofWord_none, hduration, htiming, hdelay, hcount, hdirection, hfill, hplay,
      slots, Shorthand.fill, Shorthand.animation]

/-- A word of the kind of each slot, in the order of the slots. -/
structure IsFull (p : String → Prop) (name duration timing delay count direction fill play : String) :
    Prop where
  name : p name ∧ (AnimationWord.ofWord name = .name ∨ name = "none")
  duration : p duration ∧ AnimationWord.ofWord duration = .time
  timing : p timing ∧ AnimationWord.ofWord timing = .timing
  delay : p delay ∧ AnimationWord.ofWord delay = .time
  count : p count ∧ AnimationWord.ofWord count = .iterationCount
  direction : p direction ∧ AnimationWord.ofWord direction = .direction
  fill : p fill ∧ AnimationWord.ofWord fill = .fillMode
  play : p play ∧ AnimationWord.ofWord play = .playState

/-- Slots that are filled hold words of their kinds. -/
theorem exists_fill {p : String → Prop} (hp : Stocked p) {a : Animation} (hs : a.Sorted p) :
    ∃ name duration timing delay count direction fill play,
      IsFull p name duration timing delay count direction fill play ∧
      Shorthand.animation.fill a.slots =
        [name, duration, timing, delay, count, direction, fill, play] := by
  have hname := getD_cases (p := fun w => p w ∧ (AnimationWord.ofWord w = .name ∨ w = "none"))
    (fun w hw => ⟨(hs.name w hw).1, .inl (hs.name w hw).2⟩)
    ⟨hp.stock "none" (by simp [stockWords]), .inr rfl⟩
  have hduration := getD_cases hs.duration ⟨hp.stock _ (by simp [stockWords]), ofWord_0s⟩
  have htiming := getD_cases hs.timing ⟨hp.stock _ (by simp [stockWords]), ofWord_ease⟩
  have hdelay := getD_cases hs.delay ⟨hp.stock _ (by simp [stockWords]), ofWord_0s⟩
  have hcount := getD_cases hs.iterationCount ⟨hp.stock _ (by simp [stockWords]), ofWord_1⟩
  have hdirection := getD_cases hs.direction ⟨hp.stock _ (by simp [stockWords]), ofWord_normal⟩
  have hfill := getD_cases hs.fillMode ⟨hp.stock _ (by simp [stockWords]), ofWord_none⟩
  have hplay := getD_cases hs.playState ⟨hp.stock _ (by simp [stockWords]), ofWord_running⟩
  exact ⟨_, _, _, _, _, _, _, _,
    ⟨hname, hduration, htiming, hdelay, hcount, hdirection, hfill, hplay⟩, rfl⟩

end Animation

theorem Shorthand.settles_animation {p : String → Prop} (hp : Stocked p) {ws : List String}
    (h : ∀ w ∈ ws, p w) : Shorthand.animation.Settles p ws := by
  rintro slots ⟨⟩
  obtain ⟨name, duration, timing, delay, count, direction, fill, play, hfull, heq⟩ :=
    Animation.exists_fill hp (Animation.sorted_ofWords h)
  have hall : ∀ v ∈ [name, duration, timing, delay, count, direction, fill, play], p v := by
    simp only [List.forall_mem_cons]
    exact ⟨hfull.name.1, hfull.duration.1, hfull.timing.1, hfull.delay.1, hfull.count.1,
      hfull.direction.1, hfull.fill.1, hfull.play.1, by simp⟩
  rw [row_eq_fill fun v hv => hp.nonempty v (hall v (heq ▸ hv)), heq]
  exact ⟨by simp, hall, _, rfl, rfl, Animation.ofWords_row hfull.name.2 hfull.duration.2
    hfull.timing.2 hfull.delay.2 hfull.count.2 hfull.direction.2 hfull.fill.2 hfull.play.2⟩

/-! ## 3. Transition -/

namespace Transition

/-- Every slot holds a word of its kind. -/
structure Sorted (p : String → Prop) (t : Transition) : Prop where
  property : ∀ w ∈ t.property, p w ∧ TransitionWord.ofWord w = .property
  duration : ∀ w ∈ t.duration, p w ∧ TransitionWord.ofWord w = .time
  timing : ∀ w ∈ t.timing, p w ∧ TransitionWord.ofWord w = .timing
  delay : ∀ w ∈ t.delay, p w ∧ TransitionWord.ofWord w = .time

/-- One more word of a transition. -/
theorem Sorted.add {p : String → Prop} {t : Transition} (h : t.Sorted p) {w : String} (hw : p w) :
    (t.add w).Sorted p := by
  have hword : ∀ {kind}, TransitionWord.ofWord w = kind →
      ∀ v ∈ some w, p v ∧ TransitionWord.ofWord v = kind := by
    rintro kind hk v ⟨⟩
    exact ⟨hw, hk⟩
  rw [Transition.add]
  split
  · next hk =>
    split
    · exact { h with duration := hword hk }
    · exact { h with delay := hword hk }
  · next hk => exact { h with timing := hword hk }
  · next hk => exact { h with property := hword hk }

theorem sorted_ofWords {p : String → Prop} {ws : List String} (h : ∀ w ∈ ws, p w) :
    (ofWords ws).Sorted p :=
  List.foldlRecOn ws add (by constructor <;> simp) fun _ ht w hw => ht.add (h w hw)

/-- One word of each kind in the order of the slots is sorted into these slots. -/
theorem ofWords_row {property duration timing delay : String}
    (hproperty : TransitionWord.ofWord property = .property)
    (hduration : TransitionWord.ofWord duration = .time)
    (htiming : TransitionWord.ofWord timing = .timing)
    (hdelay : TransitionWord.ofWord delay = .time) :
    Shorthand.transition.fill (ofWords [property, duration, timing, delay]).slots =
      [property, duration, timing, delay] := by
  simp [ofWords, add, hproperty, hduration, htiming, hdelay, slots, Shorthand.fill,
    Shorthand.transition]

end Transition

theorem transitionWord_all : TransitionWord.ofWord "all" = .property := by
  have htime : isTime "all" = false := by cbv
  have heasing : isEasing "all" = false := by cbv
  rw [TransitionWord.ofWord, htime, heasing]
  rfl

theorem transitionWord_0s : TransitionWord.ofWord "0s" = .time := by
  rw [TransitionWord.ofWord, isTime_0s]
  rfl

theorem transitionWord_ease : TransitionWord.ofWord "ease" = .timing := by
  rw [TransitionWord.ofWord, isTime_ease, isEasing_ease]
  rfl

namespace Transition

/-- A word of the kind of each slot, in the order of the slots. -/
structure IsFull (p : String → Prop) (property duration timing delay : String) : Prop where
  property : p property ∧ TransitionWord.ofWord property = .property
  duration : p duration ∧ TransitionWord.ofWord duration = .time
  timing : p timing ∧ TransitionWord.ofWord timing = .timing
  delay : p delay ∧ TransitionWord.ofWord delay = .time

/-- Slots that are filled hold words of their kinds. -/
theorem exists_fill {p : String → Prop} (hp : Stocked p) {t : Transition} (hs : t.Sorted p) :
    ∃ duration timing delay, IsFull p (t.property.getD "all") duration timing delay ∧
      Shorthand.transition.fill t.slots =
        [t.property.getD "all", duration, timing, delay] := by
  have hproperty := getD_cases hs.property ⟨hp.stock _ (by simp [stockWords]), transitionWord_all⟩
  have hduration := getD_cases hs.duration ⟨hp.stock _ (by simp [stockWords]), transitionWord_0s⟩
  have htiming := getD_cases hs.timing ⟨hp.stock _ (by simp [stockWords]), transitionWord_ease⟩
  have hdelay := getD_cases hs.delay ⟨hp.stock _ (by simp [stockWords]), transitionWord_0s⟩
  exact ⟨_, _, _, ⟨hproperty, hduration, htiming, hdelay⟩, rfl⟩

end Transition

theorem Shorthand.settles_transition {p : String → Prop} (hp : Stocked p) {ws : List String}
    (h : ∀ w ∈ ws, p w) : Shorthand.transition.Settles p ws := by
  rintro slots ⟨⟩
  obtain ⟨duration, timing, delay, hfull, heq⟩ :=
    Transition.exists_fill hp (Transition.sorted_ofWords h)
  have hall : ∀ v ∈ [(Transition.ofWords ws).property.getD "all", duration, timing, delay], p v := by
    simp only [List.forall_mem_cons]
    exact ⟨hfull.property.1, hfull.duration.1, hfull.timing.1, hfull.delay.1, by simp⟩
  rw [row_eq_fill fun v hv => hp.nonempty v (hall v (heq ▸ hv)), heq]
  exact ⟨by simp, hall, _, rfl, rfl, Transition.ofWords_row hfull.property.2 hfull.duration.2
    hfull.timing.2 hfull.delay.2⟩

/-! ## 4. Box shadow -/

namespace Shadow

/-- The first lengths are numeric words, and a color is none of them as long as there is room. -/
structure Sorted (p : String → Prop) (s : Shadow) : Prop where
  room : s.lengths.length ≤ maxLengths
  lengths : ∀ w ∈ s.lengths, p w ∧ isOneOf ["inset"] w = false ∧ yieldsNumber w = true
  color : ∀ w ∈ s.color, p w ∧ isOneOf ["inset"] w = false

/-- One more word of a shadow. A number that comes when the slots for lengths are full goes to the color. -/
theorem Sorted.add {p : String → Prop} {s : Shadow} (h : s.Sorted p) {w : String} (hw : p w) :
    (s.add w).Sorted p := by
  rw [Shadow.add]
  split
  · exact ⟨h.room, h.lengths, h.color⟩
  · next hinset =>
    rw [Bool.not_eq_true] at hinset
    split
    · next hroom =>
      rw [Bool.and_eq_true, decide_eq_true_eq] at hroom
      refine ⟨by simpa using hroom.1, ?_, h.color⟩
      rw [List.forall_mem_append, List.forall_mem_singleton]
      exact ⟨h.lengths, hw, hinset, hroom.2⟩
    · refine ⟨h.room, h.lengths, ?_⟩
      rintro v ⟨⟩
      exact ⟨hw, hinset⟩

/-- Words that are a shadow are found one after the other. -/
theorem foldl_of_ofWords? {ws : List String} {s : Shadow} (h : ofWords? ws = some s) :
    ws.foldl add {} = s := by
  unfold ofWords? at h
  split at h
  · split at h
    · cases h
    · exact Option.some.inj h
  · exact Option.some.inj h

theorem sorted_ofWords? {p : String → Prop} {ws : List String} {s : Shadow} (h : ∀ w ∈ ws, p w)
    (hs : ofWords? ws = some s) : s.Sorted p := by
  have hnil : ({} : Shadow).Sorted p := ⟨Nat.zero_le _, by simp, by simp⟩
  rw [← foldl_of_ofWords? hs]
  exact List.foldlRecOn ws Shadow.add hnil fun _ hs w hw => hs.add (h w hw)

/-- Whatever their number, the lengths that are written are four. -/
theorem exists_fill {q : String → Prop} {s : Shadow} (hroom : s.lengths.length ≤ maxLengths)
    (hlengths : ∀ w ∈ s.lengths, q w) (hzero : q "0") :
    ∃ a b c d, (∀ w ∈ [a, b, c, d], q w) ∧ Shorthand.boxShadow.fill s.slots =
      [a, b, c, d, s.color.getD "currentcolor", if s.inset then "inset" else ""] := by
  obtain ⟨lengths, color, inset⟩ := s
  rcases lengths with _ | ⟨a, _ | ⟨b, _ | ⟨c, _ | ⟨d, _ | ⟨e, rest⟩⟩⟩⟩⟩
  · refine ⟨"0", "0", "0", "0", by simp [hzero], ?_⟩
    cases inset <;> rfl
  · refine ⟨a, "0", "0", "0", by simpa [hzero] using hlengths, ?_⟩
    cases inset <;> rfl
  · refine ⟨a, b, "0", "0", by simpa [hzero] using hlengths, ?_⟩
    cases inset <;> rfl
  · refine ⟨a, b, c, "0", by simpa [hzero] using hlengths, ?_⟩
    cases inset <;> rfl
  · refine ⟨a, b, c, d, hlengths, ?_⟩
    cases inset <;> rfl
  · simp only [maxLengths, List.length_cons] at hroom
    omega

/-- Four lengths and a color, with the switch after them if it is on, are sorted into their slots. -/
theorem ofWords?_row {a b c d color : String}
    (hlengths : ∀ w ∈ [a, b, c, d], isOneOf ["inset"] w = false ∧ yieldsNumber w = true)
    (hcolor : isOneOf ["inset"] color = false) (inset : Bool) :
    ofWords? ([a, b, c, d, color] ++ if inset then ["inset"] else []) =
      some ⟨[a, b, c, d], some color, inset⟩ := by
  simp only [List.forall_mem_cons] at hlengths
  obtain ⟨ha, hb, hc, hd, -⟩ := hlengths
  have hinset : isOneOf ["inset"] "inset" = true := by cbv
  cases inset <;>
    simp [ofWords?, add, maxLengths, ha, hb, hc, hd, hcolor, hinset]

end Shadow

/-- The slots of a shadow as a row: the switch, the lengths and the color, each in its place. The word
`none` alone is a row of its own. -/
theorem Shorthand.settles_boxShadow {p : String → Prop} (hp : Stocked p) {ws : List String}
    (h : ∀ w ∈ ws, p w) : Shorthand.boxShadow.Settles p ws := by
  intro slots hslots
  obtain ⟨s, hs, rfl⟩ := Option.map_eq_some_iff.mp hslots
  have hsorted := Shadow.sorted_ofWords? h hs
  have hzero : p "0" ∧ isOneOf ["inset"] "0" = false ∧ yieldsNumber "0" = true :=
    ⟨hp.stock _ (by simp [stockWords]), by cbv, by cbv⟩
  have hcolor := getD_cases hsorted.color
    ⟨hp.stock _ (by simp [stockWords]), (by cbv : isOneOf ["inset"] "currentcolor" = false)⟩
  obtain ⟨a, b, c, d, hlengths, hfill⟩ := Shadow.exists_fill hsorted.room hsorted.lengths hzero
  have hwords : ∀ v ∈ [a, b, c, d, s.color.getD "currentcolor"] ++
      (if s.inset then ["inset"] else []), p v := by
    simp only [List.forall_mem_cons] at hlengths
    obtain ⟨ha, hb, hc, hd, -⟩ := hlengths
    refine List.forall_mem_append.mpr ⟨?_, ?_⟩
    · simp only [List.forall_mem_cons]
      exact ⟨ha.1, hb.1, hc.1, hd.1, hcolor.1, by simp⟩
    · split
      · exact fun v hv => List.mem_singleton.mp hv ▸ hp.stock "inset" (by simp [stockWords])
      · simp
  have hrow : Shorthand.boxShadow.row s.slots =
      [a, b, c, d, s.color.getD "currentcolor"] ++ if s.inset then ["inset"] else [] := by
    have hall : ([a, b, c, d, s.color.getD "currentcolor"] ++
        if s.inset then ["inset"] else []).filter (!·.isEmpty) = _ :=
      List.filter_eq_self.mpr fun w hw => by rw [hp.nonempty w (hwords w hw)]; rfl
    rw [row, hfill, ← hall]
    cases s.inset <;> simp [List.filter_cons]
  have hassign := Shadow.ofWords?_row (fun w hw => (hlengths w hw).2) hcolor.2 s.inset
  rw [hrow]
  refine ⟨by simp, hwords, _, congrArg (Option.map Shadow.slots) hassign, ?_, ?_⟩
  · have hroom := hsorted.room
    rw [Shadow.maxLengths] at hroom
    simp only [Shadow.slots, Shadow.maxLengths, List.length_append, List.length_map,
      List.length_replicate, List.length_cons, List.length_nil]
    omega
  · rw [hfill]
    cases s.inset <;> rfl

/-! ## 5. Gap -/

/-- One gap stands for two. -/
theorem Shorthand.settles_gap {p : String → Prop} (hne : ∀ w, p w → w.isEmpty = false)
    {ws : List String} (h : ∀ w ∈ ws, p w) : Shorthand.gap.Settles p ws := by
  have hsettled : ∀ {row column : String}, p row → p column →
      Shorthand.gap.row [some row, some column] ≠ [] ∧
        (∀ v ∈ Shorthand.gap.row [some row, some column], p v) ∧
        ∃ slots', Shorthand.gap.assign (Shorthand.gap.row [some row, some column]) = some slots' ∧
          slots'.length = 2 ∧
          Shorthand.gap.fill slots' = Shorthand.gap.fill [some row, some column] := by
    intro row column hrow hcolumn
    have hall : ∀ v ∈ Shorthand.gap.fill [some row, some column], p v := by
      show ∀ v ∈ [row, column], p v
      simp only [List.forall_mem_cons]
      exact ⟨hrow, hcolumn, by simp⟩
    rw [row_eq_fill fun v hv => hne v (hall v hv)]
    exact ⟨by simp [Shorthand.fill, Shorthand.gap], hall, _, rfl, rfl, rfl⟩
  intro slots hslots
  rcases ws with _ | ⟨row, _ | ⟨column, _ | ⟨w, ws⟩⟩⟩
  · cases hslots
  · cases hslots
    exact hsettled (h row (by simp)) (h row (by simp))
  · cases hslots
    exact hsettled (h row (by simp)) (h column (by simp))
  · cases hslots

/-! ## 6. List style -/

namespace ListStyle

/-- A position is a position keyword, an image is one by its looks or the word `none`, and neither is
the type. -/
structure Sorted (p : String → Prop) (l : ListStyle) : Prop where
  kind : ∀ w ∈ l.kind, p w ∧ isOneOf positionKeywords w = false ∧
    startsWithOneOf imageStarts w = false
  position : ∀ w ∈ l.position, p w ∧ isOneOf ["none"] w = false ∧ isOneOf positionKeywords w = true
  image : ∀ w ∈ l.image, p w ∧ (isOneOf ["none"] w = true ∨
    (isOneOf positionKeywords w = false ∧ startsWithOneOf imageStarts w = true))

/-- The word `none` is no position. -/
theorem not_isPosition {w : String} (h : isOneOf ["none"] w = true) :
    isOneOf positionKeywords w = false := by
  rw [isOneOf, List.contains_iff_mem, List.mem_singleton] at h
  rw [isOneOf, h]
  decide

/-- One more word of a list style. The word `none` may be a type or an image, so where it goes depends
on the words before it. -/
theorem Sorted.add {p : String → Prop} {l : ListStyle} (h : l.Sorted p) {w : String} (hw : p w) :
    (l.add w).Sorted p := by
  rw [ListStyle.add]
  split
  · next hnone =>
    rw [Bool.and_eq_true] at hnone
    refine { h with image := ?_ }
    rintro v ⟨⟩
    exact ⟨hw, .inl hnone.1⟩
  · split
    · next hposition =>
      refine { h with position := ?_ }
      rintro v ⟨⟩
      refine ⟨hw, Bool.eq_false_iff.mpr fun hnone => ?_, hposition⟩
      rw [not_isPosition hnone] at hposition
      cases hposition
    · next hposition =>
      rw [Bool.not_eq_true] at hposition
      split
      · next himage =>
        refine { h with image := ?_ }
        rintro v ⟨⟩
        exact ⟨hw, .inr ⟨hposition, himage⟩⟩
      · next himage =>
        refine { h with kind := ?_ }
        rintro v ⟨⟩
        exact ⟨hw, hposition, by simpa using himage⟩

theorem sorted_ofWords {p : String → Prop} {ws : List String} (h : ∀ w ∈ ws, p w) :
    (ofWords ws).Sorted p :=
  List.foldlRecOn ws add (by constructor <;> simp) fun _ hl w hw => hl.add (h w hw)

/-- A type, a position and an image in this order are sorted into their slots. -/
theorem ofWords_row {kind position image : String}
    (hkind : isOneOf positionKeywords kind = false ∧ startsWithOneOf imageStarts kind = false)
    (hposition : isOneOf ["none"] position = false ∧ isOneOf positionKeywords position = true)
    (himage : isOneOf ["none"] image = true ∨
      (isOneOf positionKeywords image = false ∧ startsWithOneOf imageStarts image = true)) :
    ofWords [kind, position, image] = ⟨some kind, some position, some image⟩ := by
  cases hnone : isOneOf ["none"] image with
  | true => simp [ofWords, add, hkind.1, hkind.2, hposition.1, hposition.2, hnone]
  | false =>
    have himage := himage.resolve_left (by simp [hnone])
    simp [ofWords, add, hkind.1, hkind.2, hposition.1, hposition.2, hnone, himage.1, himage.2]

end ListStyle

/-- The slots of a list style as a row. -/
theorem Shorthand.settles_listStyle {p : String → Prop} (hp : Stocked p) {ws : List String}
    (h : ∀ w ∈ ws, p w) : Shorthand.listStyle.Settles p ws := by
  rintro slots ⟨⟩
  have hs := ListStyle.sorted_ofWords h
  generalize ListStyle.ofWords ws = l at hs ⊢
  have hkind := getD_cases hs.kind ⟨hp.stock "disc" (by simp [stockWords]), by cbv, by cbv⟩
  have hposition := getD_cases hs.position ⟨hp.stock "outside" (by simp [stockWords]), by cbv, by cbv⟩
  have himage := getD_cases hs.image ⟨hp.stock "none" (by simp [stockWords]), .inl (by cbv)⟩
  have hall : ∀ v ∈ Shorthand.listStyle.fill l.slots, p v := by
    simp only [Shorthand.fill, Shorthand.listStyle, ListStyle.slots, List.zipWith,
      List.forall_mem_cons]
    exact ⟨hkind.1, hposition.1, himage.1, by simp⟩
  have hrow := ListStyle.ofWords_row hkind.2 hposition.2 himage.2
  rw [row_eq_fill fun v hv => hp.nonempty v (hall v hv)]
  refine ⟨?_, hall, _, congrArg (fun l => some (ListStyle.slots l)) hrow, rfl, rfl⟩
  simp [Shorthand.fill, Shorthand.listStyle, ListStyle.slots]

/-! ## 7. Outline -/

namespace Value.Border

/-- Every part holds a word that belongs to it. -/
def Sorted (p : String → Prop) (b : Border) : Prop :=
  ∀ part, ∀ w ∈ b.get part, p w ∧ BorderPart.ofWord w = part

/-- One more word of a line. -/
theorem Sorted.add {p : String → Prop} {b : Border} (h : b.Sorted p) {w : String} (hw : p w) :
    (b.add w).Sorted p := by
  rw [Border.add]
  split
  · intro part
    have := h part
    cases part <;> exact this
  · intro part v hv
    by_cases hpart : part = BorderPart.ofWord w
    · have hvw : v = w := by
        subst hpart
        revert hv
        dsimp only
        cases BorderPart.ofWord w <;> split <;> rintro ⟨⟩ <;> rfl
      exact ⟨hvw ▸ hw, hvw ▸ hpart.symm⟩
    · refine h part v ?_
      revert hv hpart
      dsimp only
      cases BorderPart.ofWord w <;> cases part <;> split <;> simp [set, get]

theorem sorted_ofWords {p : String → Prop} {ws : List String} (h : ∀ w ∈ ws, p w) :
    (ofWords ws).Sorted p :=
  List.foldlRecOn ws add (by intro part; cases part <;> simp [get]) fun _ hb w hw =>
    hb.add (h w hw)

end Value.Border

theorem not_isWide_of_isAuto {w : String} (h : isOneOf ["auto"] w = true) :
    isOneOf wideKeywords w = false := by
  rw [isOneOf, List.contains_iff_mem, List.mem_singleton] at h
  rw [isOneOf, h]
  decide

/-- A width, a style and a color in this order are the parts of an outline. -/
theorem outlineSlots_row {width style color : String}
    (hwidth : isOneOf wideKeywords width = false ∧ isOneOf ["auto"] width = false ∧
      BorderPart.ofWord width = .width)
    (hstyle : isOneOf ["auto"] style = true ∨ isOneOf wideKeywords style = false ∧
      isOneOf ["auto"] style = false ∧ BorderPart.ofWord style = .style)
    (hcolor : isOneOf wideKeywords color = false ∧ isOneOf ["auto"] color = false ∧
      BorderPart.ofWord color = .color) :
    outlineSlots [width, style, color] = some [some width, some style, some color] := by
  obtain ⟨hw, hwa, hwk⟩ := hwidth
  obtain ⟨hc, hca, hck⟩ := hcolor
  rcases hstyle with hsa | ⟨hs, hsa, hsk⟩
  · have hs := not_isWide_of_isAuto hsa
    simp [outlineSlots, List.find?, hw, hs, hc, hwa, hsa, hca, Border.ofWords, Border.add, hwk, hck,
      Border.get, Border.set]
  · simp [outlineSlots, List.find?, hw, hs, hc, hwa, hsa, hca, Border.ofWords, Border.add, hwk, hsk,
      hck, Border.get, Border.set]

/-- A global keyword fills all three slots, and the row of them is read as the same keyword. -/
theorem Shorthand.settles_outline_wide {p : String → Prop} (hp : Stocked p) {keyword : String}
    (hk : p keyword) (hwide : isOneOf wideKeywords keyword = true) :
    Shorthand.outline.SettlesAs p [some keyword, some keyword, some keyword] := by
  have hall : ∀ v ∈ Shorthand.outline.fill [some keyword, some keyword, some keyword], p v := by
    show ∀ v ∈ [keyword, keyword, keyword], p v
    simpa using hk
  rw [SettlesAs, row_eq_fill fun v hv => hp.nonempty v (hall v hv)]
  refine ⟨by simp [Shorthand.fill, Shorthand.outline, BorderPart.all], hall,
    [some keyword, some keyword, some keyword], ?_, rfl, rfl⟩
  show outlineSlots [keyword, keyword, keyword] = _
  simp [outlineSlots, List.find?, hwide]

/-- Words of which none is a global keyword. An outline may have the style `auto`, which is no word of a
border, so that one is taken out before the others are sorted as those of a line. -/
theorem Shorthand.settles_outline_line {p : String → Prop} (hp : Stocked p) {ws : List String}
    (h : ∀ w ∈ ws, p w ∧ isOneOf wideKeywords w = false) :
    Shorthand.outline.SettlesAs p
      [(Border.ofWords (ws.filter (!isOneOf ["auto"] ·))).width,
        (ws.filter (isOneOf ["auto"])).head?.or (Border.ofWords (ws.filter (!isOneOf ["auto"] ·))).style,
        (Border.ofWords (ws.filter (!isOneOf ["auto"] ·))).color] := by
  have hborder : ∀ w ∈ ws.filter (!isOneOf ["auto"] ·), p w ∧
      isOneOf wideKeywords w = false ∧ isOneOf ["auto"] w = false := by
    intro w hw
    obtain ⟨hmem, hauto⟩ := List.mem_filter.mp hw
    exact ⟨(h w hmem).1, (h w hmem).2, by simpa using hauto⟩
  have hsorted := Border.sorted_ofWords hborder
  generalize Border.ofWords (ws.filter (!isOneOf ["auto"] ·)) = line at hsorted ⊢
  have hwidth := getD_cases (hsorted .width)
    ⟨⟨hp.stock "medium" (by simp [stockWords]), by cbv, by cbv⟩,
      (Border.kind_eq_some.mp (Border.kind_default .width)).2⟩
  have hcolor := getD_cases (hsorted .color)
    ⟨⟨hp.stock "currentcolor" (by simp [stockWords]), by cbv, by cbv⟩,
      (Border.kind_eq_some.mp (Border.kind_default .color)).2⟩
  have hstyles : ∀ w ∈ (ws.filter (isOneOf ["auto"])).head?.or line.style,
      p w ∧ (isOneOf ["auto"] w = true ∨ isOneOf wideKeywords w = false ∧
        isOneOf ["auto"] w = false ∧ BorderPart.ofWord w = .style) := by
    intro w hw
    rcases Option.or_eq_some_iff.mp hw with hw | ⟨-, hw⟩
    · obtain ⟨hmem, hauto⟩ := List.mem_filter.mp (List.mem_of_mem_head? hw)
      exact ⟨(h w hmem).1, .inl hauto⟩
    · have := hsorted .style w hw
      exact ⟨this.1.1, .inr ⟨this.1.2.1, this.1.2.2, this.2⟩⟩
  have hstyle := getD_cases hstyles ⟨hp.stock "none" (by simp [stockWords]),
    .inr ⟨by cbv, by cbv, (Border.kind_eq_some.mp (Border.kind_default .style)).2⟩⟩
  have hrow := outlineSlots_row ⟨hwidth.1.2.1, hwidth.1.2.2, hwidth.2⟩ hstyle.2
    ⟨hcolor.1.2.1, hcolor.1.2.2, hcolor.2⟩
  have hall : ∀ v ∈ Shorthand.outline.fill
      [line.width, (ws.filter (isOneOf ["auto"])).head?.or line.style, line.color], p v :=
    List.forall_mem_cons.mpr ⟨hwidth.1.1, List.forall_mem_cons.mpr ⟨hstyle.1,
      List.forall_mem_singleton.mpr hcolor.1.1⟩⟩
  rw [SettlesAs, row_eq_fill fun v hv => hp.nonempty v (hall v hv)]
  exact ⟨by simp [Shorthand.fill, Shorthand.outline, BorderPart.all], hall, _, hrow, rfl, rfl⟩

/-- The slots of an outline as a row. -/
theorem Shorthand.settles_outline {p : String → Prop} (hp : Stocked p) {ws : List String}
    (h : ∀ w ∈ ws, p w) : Shorthand.outline.Settles p ws := by
  intro slots hslots
  replace hslots : outlineSlots ws = some slots := hslots
  rw [outlineSlots] at hslots
  split at hslots
  · next keyword hfind =>
    obtain rfl := Option.some.inj hslots
    exact settles_outline_wide hp (h keyword (List.mem_of_find?_eq_some hfind))
      (List.find?_some hfind)
  · next hnone =>
    dsimp only at hslots
    split at hslots
    · cases hslots
    · obtain rfl := Option.some.inj hslots
      exact settles_outline_line hp fun w hw =>
        ⟨h w hw, by simpa using List.find?_eq_none.mp hnone w hw⟩

end CssExpand
