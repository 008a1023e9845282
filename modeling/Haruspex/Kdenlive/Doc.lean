import Mathlib.Data.List.Sort
import Haruspex.Kdenlive.Groups

/-! What a project says of its main track (`video/kdenlive/doc.rs`). Of the tree the parts that are
read stand here: an `<entry>` or a `<blank>` is its attributes, the main track its two tracks with two
playlists each. -/
namespace Haruspex.Kdenlive
open JavaScript (Json)
set_option autoImplicit false

/-! ## What is written -/

/-- The times of a profile's frame rate. The floating point of `timecode` and `parse` is not modelled;
`parse` undoes `timecode`. -/
structure Fps where
  timecode : ℤ → String
  parse : String → Option ℤ
  parse_timecode : ∀ frames : ℤ, 0 ≤ frames → parse (timecode frames) = some frames

/-- An `<entry>`: `index` is its place in the tree, `filters` says which of them are Haruspex's, `body`
is the rest of its text. -/
structure Element where
  index : ℕ
  inTime : Option String
  outTime : Option String
  producer : Option String
  kdenliveId : Option String
  filters : List Bool
  body : String
deriving DecidableEq

/-- What a playlist holds after its properties. -/
inductive Clip where
  | blank (length : Option String)
  | entry (element : Element)
deriving DecidableEq

/-- A `<transition>` in a track's tractor. -/
structure Transition where
  inTime : Option String
  outTime : Option String
  ours : Bool

/-- A track's two playlists, A then B, and its mixes. -/
structure Track where
  playlistA : List Clip
  playlistB : List Clip
  transitions : List Transition

/-- A chain or producer of the project, by its id. -/
structure Chain where
  id : String
  kdenliveId : Option String

structure BinClip where
  kdenliveId : String
  length : ℤ

/-- A clip's two entries are one on each main track. -/
inductive Part where
  | video
  | audio
deriving DecidableEq

/-- `main_video` and `main_audio` count the tracks: the sound is on the last track of sound before the
first of pictures. -/
structure Doc where
  fps : Fps
  chains : List Chain
  bin : List BinClip
  groups : Json
  track : Part → Track
  mainVideo : ℕ
  mainAudio : ℕ
  audio_before_video : mainAudio < mainVideo

namespace Track

def playlist (t : Track) (lane : ℕ) : List Clip := if lane = 0 then t.playlistA else t.playlistB

end Track

/-! ## What it means -/

/-- One `<entry>` on a playlist, placed on the timeline. -/
structure Entry where
  node : Element
  lane : ℕ
  start : ℤ
  inFrame : ℤ
  outFrame : ℤ
  chain : String
  binId : String
  filters : ℕ
deriving DecidableEq

namespace Entry

def len (e : Entry) : ℤ := e.outFrame - e.inFrame + 1

/-- `Entry::end` -/
def endFrame (e : Entry) : ℤ := e.start + e.len

/-- Where it lies, and which frames of its media it shows. -/
def place (e : Entry) : ℤ × ℤ × ℤ := (e.start, e.inFrame, e.outFrame)

end Entry

/-- A same-track mix. -/
structure Mix where
  inFrame : ℤ
  outFrame : ℤ
  ours : Bool

/-- A clip on the main track: its picture and its sound, one of them at least. -/
structure Item where
  video : Option Entry
  audio : Option Entry
  occupied : (video.or audio).isSome

namespace Item

def any (i : Item) : Entry := (i.video.or i.audio).get i.occupied

def entry (i : Item) (part : Part) : Option Entry :=
  match part with
  | .video => i.video
  | .audio => i.audio

def start (i : Item) : ℤ := i.any.start

/-- `Item::end` -/
def endFrame (i : Item) : ℤ :=
  match i.video, i.audio with
  | some v, some a => max v.endFrame a.endFrame
  | some v, none => v.endFrame
  | none, some a => a.endFrame
  | none, none => 0

def ofVideo (v : Entry) (a : Option Entry) : Item := ⟨some v, a, rfl⟩

def ofAudio (a : Entry) : Item := ⟨none, some a, rfl⟩

end Item

namespace Doc

variable (doc : Doc)

def byId (id : String) : Option Chain := doc.chains.find? (fun c => c.id = id)

/-- The entry at `t` on a playlist. -/
def entryAt (lane : ℕ) (t : ℤ) (c : Element) : Entry :=
  let inFrame := (c.inTime.bind doc.fps.parse).getD 0
  let chain := c.producer.getD ""
  { node := c
    lane
    start := t
    inFrame
    outFrame := (c.outTime.bind doc.fps.parse).getD inFrame
    chain
    binId := (c.kdenliveId.or ((doc.byId chain).bind Chain.kdenliveId)).getD ""
    filters := c.filters.countP (fun ours => !ours) }

def entriesFrom (lane : ℕ) : ℤ → List Clip → List Entry
  | _, [] => []
  | t, .blank length :: rest => entriesFrom lane (t + (length.bind doc.fps.parse).getD 0) rest
  | t, .entry c :: rest =>
    let e := doc.entryAt lane t c
    e :: entriesFrom lane e.endFrame rest

/-- Every entry on one playlist, placed. -/
def entries (playlist : List Clip) (lane : ℕ) : List Entry := doc.entriesFrom lane 0 playlist

def entryOrder (e f : Entry) : Prop := e.start < f.start ∨ e.start = f.start ∧ e.lane ≤ f.lane

instance : DecidableRel entryOrder :=
  fun e f => inferInstanceAs (Decidable (e.start < f.start ∨ e.start = f.start ∧ e.lane ≤ f.lane))

/-- Every entry on a track, both lanes, by start. -/
def trackEntries (t : Track) : List Entry :=
  (doc.entries t.playlistA 0 ++ doc.entries t.playlistB 1).insertionSort entryOrder

def readMix (t : Transition) : Mix where
  inFrame := (t.inTime.bind doc.fps.parse).getD 0
  outFrame := (t.outTime.bind doc.fps.parse).getD 0
  ours := t.ours

/-- Same-track mixes on a track. -/
def mixes (t : Track) : List Mix := t.transitions.map doc.readMix

/-- Which sound goes with a picture: the one of its group, else the one that starts with it. -/
def partner (pairs : List (ℤ × ℤ)) (v : Entry) (audio : List Entry) : Option ℕ :=
  (audio.findIdx? (fun a => (v.start, a.start) ∈ pairs ∧ a.binId = v.binId)).or
    (audio.findIdx? (fun a => a.start = v.start ∧ a.binId = v.binId))

def pairUp (pairs : List (ℤ × ℤ)) : List Entry → List Entry → List Item
  | [], audio => audio.map Item.ofAudio
  | v :: video, audio =>
    match partner pairs v audio with
    | some i => Item.ofVideo v audio[i]? :: pairUp pairs video (audio.eraseIdx i)
    | none => Item.ofVideo v none :: pairUp pairs video audio

/-- The main track's clips, picture and sound paired, by start. -/
def items : List Item :=
  (pairUp (avPairs doc.groups doc.mainVideo doc.mainAudio) (doc.trackEntries (doc.track .video))
    (doc.trackEntries (doc.track .audio))).insertionSort (fun i j => i.start ≤ j.start)

def binClip (kdenliveId : String) : Option BinClip :=
  doc.bin.find? (fun b => b.kdenliveId = kdenliveId)

/-- The track of a part, as groups count tracks. -/
def mainTrack (part : Part) : ℕ :=
  match part with
  | .video => doc.mainVideo
  | .audio => doc.mainAudio

end Doc

end Haruspex.Kdenlive
