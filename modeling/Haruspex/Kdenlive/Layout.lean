import Haruspex.Kdenlive.Doc

/-! Laying a wanted main track out on the timeline (`video/kdenlive/edit.rs`). -/
namespace Haruspex.Kdenlive
set_option autoImplicit false

/-! ## What is wanted, and what is laid -/

/-- Media a new clip comes from. -/
structure Media where
  resource : String
  length : ℤ
  videoIndex : Option ℕ
  audioIndex : Option ℕ
  fileSize : ℕ
  fileHash : String
deriving DecidableEq

/-- An item of the main track, another copy of one, or new media. -/
inductive Source where
  | existing (i : ℕ)
  | piece (i : ℕ)
  | new (media : Media)
deriving DecidableEq

/-- One clip of the wanted main track. `none` keeps an item's point, or is the start or end of new
media. -/
structure Placement where
  source : Source
  inFrame : Option ℤ
  outFrame : Option ℤ
  mixIn : Option ℤ
  gainDb : Option Float
  limiter : Bool

namespace Placement

/-- `Placement::of` -/
def of (source : Source) : Placement := ⟨source, none, none, none, none, false⟩

end Placement

instance : Inhabited Placement := ⟨.of (.existing 0)⟩

instance : Inhabited Entry := ⟨⟨⟨0, none, none, none, none, [], ""⟩, 0, 0, 0, 0, "", "", 0⟩⟩

instance : Inhabited Item := ⟨.ofVideo default none⟩

/-- A clip as laid out. `mixIn` is Haruspex's crossfade from the clip before, after clamping. -/
structure Laid where
  source : Source
  start : ℤ
  inFrame : ℤ
  outFrame : ℤ
  videoLane : ℕ
  audioLane : ℕ
  mixIn : Option ℤ
  gainDb : Option Float
  limiter : Bool
  binId : String

namespace Laid

def len (l : Laid) : ℤ := l.outFrame - l.inFrame + 1

/-- `Laid::end` -/
def endFrame (l : Laid) : ℤ := l.start + l.len

def lane (l : Laid) (part : Part) : ℕ :=
  match part with
  | .video => l.videoLane
  | .audio => l.audioLane

/-- Where it lies, and which frames of its media it shows. -/
def place (l : Laid) : ℤ × ℤ × ℤ := (l.start, l.inFrame, l.outFrame)

end Laid

variable (doc : Doc) (items : List Item)

/-! ## Mixes made in Kdenlive -/

/-- A mix joins two items, `frames` of which overlap. -/
structure ItemMix where
  first : ℕ
  second : ℕ
  frames : ℤ

/-- The mixes of the user, the picture's then the sound's. -/
def userMixes : List Mix :=
  (doc.mixes (doc.track .video)).filter (fun m => !m.ours) ++
    (doc.mixes (doc.track .audio)).filter (fun m => !m.ours)

/-- The item that starts in a mix. -/
def mixedItem (mix : Mix) : Option ℕ := items.findIdx? (fun i => i.start = mix.inFrame)

def addMix (out : List ItemMix) (mix : Mix) : List ItemMix :=
  match (mixedItem items mix).filter (fun b => 0 < b) with
  | none => out
  | some b =>
    -- How far the two clips overlap now, which is what the layout must keep.
    let frames := max (items[b - 1]!.endFrame - items[b]!.start) 0
    if out.any (fun m => m.second = b) then out else out ++ [⟨b - 1, b, frames⟩]

/-- The mixes joining main-track items. -/
def itemMixes : List ItemMix := (userMixes doc).foldl (addMix items) []

def binLength (item : Item) : Option ℤ :=
  ((doc.binClip item.any.binId).map BinClip.length).filter (fun l => 0 < l)

/-! ## What may not be asked for -/

def checkSources : List ℕ → List Placement → Except String Unit
  | _, [] => .ok ()
  | seen, p :: rest =>
    match p.source with
    | .piece i =>
      if items.length ≤ i then .error s!"There is no clip {i + 1} on the main track."
      else checkSources seen rest
    | .existing i =>
      if items.length ≤ i then
        .error s!"There is no clip {i + 1} on the main track (it has {items.length})."
      else if i ∈ seen then .error s!"Clip {i + 1} is listed twice."
      else checkSources (i :: seen) rest
    | .new _ => checkSources seen rest

def positionOf (wanted : List Placement) (i : ℕ) : Option ℕ :=
  wanted.findIdx? (fun p => p.source = .existing i)

/-- The two clips of a mix stand together, as they were where they meet. -/
def keepsMix (wanted : List Placement) (mix : ItemMix) : Bool :=
  let pa := positionOf wanted mix.first
  let pb := positionOf wanted mix.second
  let together :=
    match pa, pb with
    | some x, some y => y = x + 1
    | _, _ => false
  let aTrimmedEnd := pa.any (fun x =>
    wanted[x]!.outFrame.any (fun o => o ≠ items[mix.first]!.any.outFrame))
  let bTrimmedStart := pb.any (fun y =>
    wanted[y]!.inFrame.any (fun i => i ≠ items[mix.second]!.any.inFrame))
  together && !aTrimmedEnd && !bTrimmedStart

def checkMixes (wanted : List Placement) : List ItemMix → Except String Unit
  | [] => .ok ()
  | mix :: rest =>
    if keepsMix items wanted mix then checkMixes wanted rest
    else
      .error (s!"Clips {mix.first + 1} and {mix.second + 1} are joined by a crossfade made in " ++
        "Kdenlive; remove it there first, or keep them together.")

/-! ## One clip -/

/-- What a source says where a placement does not, and the last frame there is. -/
structure Defaults where
  inFrame : ℤ
  outFrame : ℤ
  maxOut : Option ℤ
  binId : String
  videoLane : ℕ
  audioLane : ℕ

def laneOf (entry : Option Entry) : ℕ := entry.elim 0 Entry.lane

def defaults (source : Source) : Defaults :=
  match source with
  | .existing i | .piece i =>
    let item := items[i]!
    { inFrame := item.any.inFrame
      outFrame := item.any.outFrame
      maxOut := (binLength doc item).map (fun l => l - 1)
      binId := item.any.binId
      videoLane := laneOf item.video
      audioLane := laneOf item.audio }
  | .new media => ⟨0, media.length - 1, some (media.length - 1), "", 0, 0⟩

/-- The first frame a placement shows. -/
def shownIn (p : Placement) : ℤ := max (p.inFrame.getD (defaults doc items p.source).inFrame) 0

def askedOut (p : Placement) : ℤ := p.outFrame.getD (defaults doc items p.source).outFrame

/-- The end, and whether it was past the clip's. -/
def clampOut (p : Placement) : ℤ × Bool :=
  match (defaults doc items p.source).maxOut with
  | some last => if last < askedOut doc items p then (last, true) else (askedOut doc items p, false)
  | none => (askedOut doc items p, false)

/-- The last frame a placement shows. -/
def shownOut (p : Placement) : ℤ := (clampOut doc items p).1

/-- Frames a placement shows. -/
def length (p : Placement) : ℤ := shownOut doc items p - shownIn doc items p + 1

/-- Whether two clips are joined by a mix of the user. -/
def mixBetween (mixes : List ItemMix) (prev source : Source) : Option ItemMix :=
  match prev, source with
  | .existing a, .existing b => mixes.find? (fun m => m.first = a ∧ m.second = b)
  | _, _ => none

/-- The crossfade into a clip from one of a length, and whether it is shortened. -/
def crossfade (mixes : List ItemMix) (prev : Source) (prevLen : ℤ) (p : Placement) :
    Option ℤ × Bool :=
  match p.mixIn.filter (fun d => 0 < d) with
  | some want =>
    if (mixBetween mixes prev p.source).isSome then (none, false)
    else
      let most := min prevLen (length doc items p) / 2
      ((some (min want most)).filter (fun d => 0 < d), most < want)
  | none => (none, false)

def crossfadeFrom (mixes : List ItemMix) (prev : Option Laid) (p : Placement) : Option ℤ × Bool :=
  match prev with
  | some prev => crossfade doc items mixes prev.source prev.len p
  | none => (none, false)

/-- Frames from the end of the clip before: less than none for a mix, more for the gap the user left
between the two. -/
def gapAfter (mixes : List ItemMix) (prev : Source) (mixIn : Option ℤ) (source : Source) : ℤ :=
  match mixIn, source with
  | some frames, _ => -frames
  | none, .existing i =>
    match mixBetween mixes prev source with
    | some mix => -mix.frames
    | none =>
      if prev = .existing (i - 1) ∧ 0 < i then max (items[i]!.start - items[i - 1]!.endFrame) 0 else 0
  | none, .new _ | none, .piece _ => 0

def startOf (mixes : List ItemMix) (prev : Option Laid) (mixIn : Option ℤ) (source : Source) : ℤ :=
  match prev with
  | none => if source = .existing 0 then items[0]!.start else 0
  | some prev => prev.endFrame + gapAfter items mixes prev.source mixIn source

/-- One clip laid after another, and what is worth telling of it. -/
def layClip (mixes : List ItemMix) (prev : Option Laid) (pos : ℕ) (p : Placement) :
    Except String (Laid × List String) :=
  let clamped := if (clampOut doc items p).2 then
    [s!"Clip {pos + 1}: the end was past the clip's end, so it ends there."] else []
  if shownOut doc items p < shownIn doc items p then
    .error s!"Clip {pos + 1}: it would end before it starts."
  else
    let d := defaults doc items p.source
    let fade := crossfadeFrom doc items mixes prev p
    let shortened := if fade.2 then
      [s!"Clip {pos + 1}: the crossfade is shortened to half the shorter clip."] else []
    .ok (
      { source := p.source
        start := startOf items mixes prev fade.1 p.source
        inFrame := shownIn doc items p
        outFrame := shownOut doc items p
        videoLane := d.videoLane
        audioLane := d.audioLane
        mixIn := fade.1
        gainDb := p.gainDb
        limiter := p.limiter
        binId := d.binId }, clamped ++ shortened)

def layClips (mixes : List ItemMix) :
    Option Laid → ℕ → List Placement → Except String (List Laid × List String)
  | _, _, [] => .ok ([], [])
  | prev, pos, p :: rest => do
    let (laid, told) ← layClip doc items mixes prev pos p
    let (later, more) ← layClips mixes (some laid) (pos + 1) rest
    return (laid :: later, told ++ more)

/-! ## Lanes -/

/-- Items with a mix of the user. -/
def inUserMix (mixes : List ItemMix) (source : Source) : Bool :=
  match source with
  | .existing i => mixes.any (fun m => m.first = i ∨ m.second = i)
  | _ => false

/-- The lane of a clip: with a crossfade into it the other one from the clip before, else A. Clips
joined by a crossfade the user made keep the lanes they have. -/
def assignLane (mixes : List ItemMix) (prev : Option Laid) (l : Laid) : Laid :=
  if inUserMix mixes l.source then l
  else
    let lane :=
      match prev, l.mixIn with
      | some prev, some _ => 1 - min prev.videoLane 1
      | _, _ => 0
    { l with videoLane := lane, audioLane := lane }

def assignFrom (mixes : List ItemMix) : Option Laid → List Laid → List Laid
  | _, [] => []
  | prev, l :: rest =>
    let l' := assignLane mixes prev l
    l' :: assignFrom mixes (some l') rest

/-- A clip on a lane: its start, its end and its number. -/
abbrev OnLane := ℤ × ℤ × ℕ

def onLaneOrder (x y : OnLane) : Prop :=
  x.1 < y.1 ∨ x.1 = y.1 ∧ (x.2.1 < y.2.1 ∨ x.2.1 = y.2.1 ∧ x.2.2 ≤ y.2.2)

instance : DecidableRel onLaneOrder := fun x y =>
  inferInstanceAs (Decidable (x.1 < y.1 ∨ x.1 = y.1 ∧ (x.2.1 < y.2.1 ∨ x.2.1 = y.2.1 ∧ x.2.2 ≤ y.2.2)))

def onLane (laid : List Laid) (lane : ℕ) : List OnLane :=
  ((laid.zipIdx.filter (fun l => l.1.videoLane = lane)).map
    (fun l => (l.1.start, l.1.endFrame, l.2))).insertionSort onLaneOrder

/-- Two neighbours of a lane that overlap. -/
def overlapping (laid : List Laid) (lane : ℕ) : Option (OnLane × OnLane) :=
  let on := onLane laid lane
  (on.zip on.tail).find? (fun w => w.2.1 < w.1.2.1)

/-- Two clips on one lane may not overlap. -/
def checkLanes (laid : List Laid) : Except String Unit :=
  match (overlapping laid 0).or (overlapping laid 1) with
  | none => .ok ()
  | some w =>
    .error (s!"Clips {w.1.2.2 + 1} and {w.2.2.2 + 1} would overlap next to a crossfade made in " ++
      "Kdenlive; change one of them there first.")

/-- Lay the wanted clips out on the timeline. -/
def layout (wanted : List Placement) : Except String (List Laid × List String) := do
  let mixes := itemMixes doc items
  checkSources items [] wanted
  checkMixes items wanted mixes
  let (laid, notes) ← layClips doc items mixes none 0 wanted
  let laid := assignFrom mixes none laid
  checkLanes laid
  return (laid, notes)

/-- The current main track as placements that change nothing: Haruspex's own crossfades are carried
over at their length. -/
def ourStarts : List ℤ :=
  ((doc.mixes (doc.track .video) ++ doc.mixes (doc.track .audio)).filter (fun m => m.ours)).map
    Mix.inFrame

def currentClip (i : ℕ) : Placement :=
  if 0 < i ∧ items[i]!.start ∈ ourStarts doc then
    { Placement.of (.existing i) with
      mixIn := (some (max (items[i - 1]!.endFrame - items[i]!.start) 0)).filter (fun d => 0 < d) }
  else .of (.existing i)

def current : List Placement :=
  (List.range doc.items.length).map (currentClip doc doc.items)

end Haruspex.Kdenlive
