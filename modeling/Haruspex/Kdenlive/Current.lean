import Haruspex.Kdenlive.Timeline

/-! The current main track as placements (`current`): what a layout makes of them, and where groups'
leaves go. -/
namespace Haruspex.Kdenlive
open Spans
set_option autoImplicit false

variable (doc : Doc) (laid : List Laid)

/-! ## Moves -/

/-- Where an item is laid. -/
def newStart (i : ℕ) : Option ℤ := (laid.reverse.find? (fun l => l.source = .existing i)).map Laid.start

/-- The moves of an item's entries. -/
def itemMoves (items : List Item) (i : ℕ) : List ((ℕ × ℤ) × Option ℤ) :=
  ((items[i]!.video.map (fun v => ((doc.mainVideo, v.start), newStart laid i))).toList) ++
    ((items[i]!.audio.map (fun a => ((doc.mainAudio, a.start), newStart laid i))).toList)

def moveList (items : List Item) : List ((ℕ × ℤ) × Option ℤ) :=
  (List.range items.length).flatMap (itemMoves doc laid items)

/-- Where the clip at a position goes. Of two clips at one position the later counts. -/
def moves (items : List Item) : Moves := fun key =>
  ((moveList doc laid items).reverse.find? (fun m => m.1 = key)).map Prod.snd

/-! ## What an edit that changes nothing is -/

/-- An item lies where it lay: each entry at its start, with its frames, on its lane. -/
def Keeps (item : Item) (l : Laid) : Prop :=
  ∀ part e, item.entry part = some e → l.place = e.place ∧ l.lane part = e.lane

/-- What `rewrite_playlist` gets for a lane are the entries there. -/
def KeepsLane (texts : Texts) (part : Part) (lane : ℕ) : Prop :=
  ((wantedLane doc doc.items texts laid part lane).map (fun w => (w.node, w.place))).Perm
    ((doc.entries ((doc.track part).playlist lane) lane).map (fun e => (some e.node.index, e.place)))

/-- The current cut, laid out and written, changes nothing. -/
def ChangesNothing (texts : Texts) : Prop :=
  ∃ laid notes, layout doc doc.items (current doc) = .ok (laid, notes) ∧
    (∀ (k : ℕ) (item : Item), doc.items[k]? = some item →
      ∃ l, laid[k]? = some l ∧ l.source = .existing k ∧ Keeps item l) ∧
    remapGroups (moves doc laid doc.items) doc.groups = (doc.groups, false) ∧
    ∀ part lane, lane < 2 → KeepsLane doc laid texts part lane

/-! ## Cuts that are kept -/

/-- The mix of the user between an item and the one before. -/
def mixInto (k : ℕ) : Option ItemMix :=
  mixBetween (itemMixes doc doc.items) (.existing (k - 1)) (.existing k)

/-- Haruspex's crossfade carried over into an item: at its start, where it overlaps the one before and
no mix of the user joins them. -/
def fadedInto (k : ℕ) : Bool :=
  0 < k && doc.items[k]!.start ∈ ourStarts doc && doc.items[k]!.start < doc.items[k - 1]!.endFrame &&
    (mixInto doc k).isNone

/-- The lane an item's picture counts on. -/
def laneAt (k : ℕ) : ℕ :=
  if inUserMix (itemMixes doc doc.items) (.existing k) then laneOf doc.items[k]!.video
  else doc.items[k]!.any.lane

/-- The lane of an item without a mix of the user. -/
def plainLane (k : ℕ) : ℕ := if fadedInto doc k then 1 - laneAt doc (k - 1) else 0

/-- An entry of the main track lies there. -/
def AtEntry (key : ℕ × ℤ) : Prop :=
  ∃ item ∈ doc.items, ∃ part e, item.entry part = some e ∧ key = (doc.mainTrack part, e.start)

/-- An item meets the next: in a mix of the user they overlap, in a crossfade of Haruspex's by half the
shorter at most, else not at all. -/
def Joint (k : ℕ) : Prop :=
  let a := doc.items[k]!
  let b := doc.items[k + 1]!
  if (mixInto doc (k + 1)).isSome then b.start ≤ a.endFrame
  else a.endFrame ≤ b.start ∨
    b.start ∈ ourStarts doc ∧ 2 * (a.endFrame - b.start) ≤ min a.any.len b.any.len

/-- The frames of an item, in order and inside its media. -/
def InMedia (item : Item) : Prop :=
  0 ≤ item.any.inFrame ∧ item.any.inFrame ≤ item.any.outFrame ∧
    ∀ len, binLength doc item = some len → item.any.outFrame < len

/-- Picture and sound of an item show the same frames at the same time. -/
def Linked (item : Item) : Prop := ∀ part e, item.entry part = some e → e.place = item.any.place

structure PlainCut : Prop where
  frames : ∀ item ∈ doc.items, InMedia doc item
  linked : ∀ item ∈ doc.items, Linked item
  /-- Neighbours overlap in a mix only. -/
  joints : ∀ k, k + 1 < doc.items.length → Joint doc k
  /-- Lanes are A, and the other one after a crossfade. -/
  lanes : ∀ (k : ℕ) (item : Item), doc.items[k]? = some item →
    inUserMix (itemMixes doc doc.items) (.existing k) = false →
    ∀ part e, item.entry part = some e → e.lane = plainLane doc k
  /-- No two items overlap on one lane. -/
  apart : ∀ (j k : ℕ) (a b : Item), j < k → doc.items[j]? = some a → doc.items[k]? = some b →
    laneAt doc j = laneAt doc k → Apart Item.start Item.endFrame a b
  groups : Settled (AtEntry doc) doc.groups

variable {doc laid}

/-! ## Items -/

theorem any_entry (item : Item) : ∃ part, item.entry part = some item.any := by
  obtain ⟨video, audio, occupied⟩ := item
  cases video with
  | some v => exact ⟨.video, rfl⟩
  | none =>
    cases audio with
    | some a => exact ⟨.audio, rfl⟩
    | none => cases occupied

/-- Picture and sound together end where each of them does. -/
theorem endFrame_of_linked {item : Item} (h : Linked item) :
    item.endFrame = item.start + item.any.len := by
  have hend : ∀ part e, item.entry part = some e → e.endFrame = item.start + item.any.len := by
    intro part e he
    obtain ⟨hstart, hframes⟩ := Prod.mk.inj (h part e he)
    obtain ⟨hin, hout⟩ := Prod.mk.inj hframes
    unfold Entry.endFrame Entry.len Item.start
    rw [hstart, hin, hout]
  unfold Item.endFrame
  cases hv : item.video with
  | some v =>
    have hvideo := hend .video v hv
    cases ha : item.audio with
    | some a =>
      have haudio := hend .audio a ha
      show max v.endFrame a.endFrame = _
      rw [hvideo, haudio, max_self]
    | none => exact hvideo
  | none =>
    cases ha : item.audio with
    | some a => exact hend .audio a ha
    | none =>
      have hocc := item.occupied
      simp [hv, ha] at hocc

/-! ## Mixes of the user -/

theorem addMix_mem {items : List Item} {out : List ItemMix} {mix : Mix} {m : ItemMix}
    (h : m ∈ addMix items out mix) : m ∈ out ∨ ∃ b, 0 < b ∧ b < items.length ∧
      m = ⟨b - 1, b, max (items[b - 1]!.endFrame - items[b]!.start) 0⟩ := by
  unfold addMix at h
  split at h
  · exact Or.inl h
  · rename_i b hb
    obtain ⟨hb, hpos⟩ := Option.filter_eq_some_iff.mp hb
    have hlt : b < items.length := (List.findIdx?_eq_some_iff_getElem.mp hb).1
    dsimp only at h
    split at h
    · exact Or.inl h
    · cases List.mem_append.mp h with
      | inl h => exact Or.inl h
      | inr h => exact Or.inr ⟨b, by simpa using hpos, hlt, List.mem_singleton.mp h⟩

/-- A mix joins an item and the next, by the frames they overlap. -/
theorem mem_itemMixes {items : List Item} {m : ItemMix} (h : m ∈ itemMixes doc items) :
    ∃ b, 0 < b ∧ b < items.length ∧
      m = ⟨b - 1, b, max (items[b - 1]!.endFrame - items[b]!.start) 0⟩ := by
  have hfold : ∀ (mixes : List Mix) (out : List ItemMix), m ∈ mixes.foldl (addMix items) out →
      m ∈ out ∨ ∃ b, 0 < b ∧ b < items.length ∧
        m = ⟨b - 1, b, max (items[b - 1]!.endFrame - items[b]!.start) 0⟩ := by
    intro mixes
    induction mixes with
    | nil => intro out h; exact Or.inl h
    | cons mix rest ih =>
      intro out h
      cases ih (addMix items out mix) h with
      | inl h => exact addMix_mem h
      | inr h => exact Or.inr h
  cases hfold (userMixes doc) [] h with
  | inl h => cases h
  | inr h => exact h

theorem mixInto_frames {k : ℕ} {mix : ItemMix} (h : mixInto doc (k + 1) = some mix) :
    mix.frames = max (doc.items[k]!.endFrame - doc.items[k + 1]!.start) 0 := by
  have hmem := List.mem_of_find?_eq_some h
  have hends := List.find?_some h
  obtain ⟨b, hpos, hlt, rfl⟩ := mem_itemMixes hmem
  simp only [Nat.add_sub_cancel, decide_eq_true_eq] at hends
  obtain ⟨-, rfl⟩ := hends
  rfl

/-! ## The current placements -/

theorem current_getElem? {k : ℕ} {item : Item} (h : doc.items[k]? = some item) :
    (current doc)[k]? = some (currentClip doc doc.items k) := by
  have hlt := (List.getElem?_eq_some_iff.mp h).1
  simp [current, hlt]

theorem current_of_getElem? {k : ℕ} {p : Placement} (h : (current doc)[k]? = some p) :
    p = currentClip doc doc.items k ∧ ∃ item, doc.items[k]? = some item := by
  have hlt : k < doc.items.length := by
    have := (List.getElem?_eq_some_iff.mp h).1
    simpa [current] using this
  have hitem := List.getElem?_eq_getElem hlt
  rw [current_getElem? hitem] at h
  exact ⟨(Option.some.inj h).symm, _, hitem⟩

theorem currentClip_source (items : List Item) (k : ℕ) :
    (currentClip doc items k).source = .existing k ∧ (currentClip doc items k).inFrame = none ∧
      (currentClip doc items k).outFrame = none := by
  unfold currentClip
  split <;> exact ⟨rfl, rfl, rfl⟩

/-- An item is shown as it is, its frames inside its media. -/
theorem current_shown {k : ℕ} {item : Item} (h : doc.items[k]? = some item) :
    shownIn doc doc.items (currentClip doc doc.items k) = max item.any.inFrame 0 ∧
      shownOut doc doc.items (currentClip doc doc.items k) =
        match binLength doc item with
        | some len => min item.any.outFrame (len - 1)
        | none => item.any.outFrame := by
  obtain ⟨hsource, hin, hout⟩ := @currentClip_source doc doc.items k
  have hitem : doc.items[k]! = item := List.getElem!_of_getElem? h
  unfold shownIn shownOut clampOut askedOut
  rw [hsource, hin, hout]
  simp only [defaults, hitem, Option.getD_none]
  refine ⟨trivial, ?_⟩
  cases binLength doc item with
  | none => rfl
  | some len =>
    simp only [Option.map_some]
    split <;> dsimp only <;> omega

theorem fadedInto_iff (k : ℕ) : fadedInto doc (k + 1) = true ↔
    doc.items[k + 1]!.start ∈ ourStarts doc ∧ doc.items[k + 1]!.start < doc.items[k]!.endFrame ∧
      mixInto doc (k + 1) = none := by
  unfold fadedInto
  simp only [Bool.and_eq_true, decide_eq_true_eq, Nat.add_sub_cancel, Option.isNone_iff_eq_none]
  have hpos : 0 < k + 1 := Nat.succ_pos k
  tauto

/-- The crossfade a layout is asked for into an item. -/
theorem currentClip_mixIn (k : ℕ) :
    (currentClip doc doc.items (k + 1)).mixIn.filter (fun d => 0 < d) =
      if doc.items[k + 1]!.start ∈ ourStarts doc ∧ doc.items[k + 1]!.start < doc.items[k]!.endFrame then
        some (doc.items[k]!.endFrame - doc.items[k + 1]!.start)
      else none := by
  unfold currentClip
  by_cases hours : doc.items[k + 1]!.start ∈ ourStarts doc
  · rw [if_pos ⟨Nat.succ_pos k, hours⟩, Nat.add_sub_cancel]
    dsimp only
    by_cases hover : doc.items[k + 1]!.start < doc.items[k]!.endFrame
    · have hmax : max (doc.items[k]!.endFrame - doc.items[k + 1]!.start) 0 =
          doc.items[k]!.endFrame - doc.items[k + 1]!.start := max_eq_left (by omega)
      rw [if_pos ⟨hours, hover⟩, hmax]
      have hpos : 0 < doc.items[k]!.endFrame - doc.items[k + 1]!.start := by omega
      generalize doc.items[k]!.endFrame - doc.items[k + 1]!.start = d at hpos
      simp [hpos]
    · have hmax : max (doc.items[k]!.endFrame - doc.items[k + 1]!.start) 0 = 0 :=
        max_eq_right (by omega)
      rw [if_neg (fun h => hover h.2), hmax]
      rfl
  · rw [if_neg (fun h => hours h.2), if_neg (fun h => hours h.1)]
    rfl

end Haruspex.Kdenlive
