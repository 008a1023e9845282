import Haruspex.Kdenlive.Layout
import Haruspex.Library.Spans

/-! Writing laid clips into the main track's playlists (`rewrite_playlist`), and reading them back. -/
namespace Haruspex.Kdenlive
open Spans
set_option autoImplicit false

/-! ## Playlists as gaps and lengths -/

variable (doc : Doc)

/-- The frames an `<entry>` says, wherever it lies. -/
def readIn (c : Element) : ℤ := (c.inTime.bind doc.fps.parse).getD 0

def readOut (c : Element) : ℤ := (c.outTime.bind doc.fps.parse).getD (readIn doc c)

def readLen (c : Element) : ℤ := readOut doc c - readIn doc c + 1

def readCell (clip : Clip) : Cell Element ℤ :=
  match clip with
  | .blank length => .gap ((length.bind doc.fps.parse).getD 0)
  | .entry c => .span c

def elements (playlist : List Clip) : List Element :=
  playlist.filterMap fun clip =>
    match clip with
    | .blank _ => none
    | .entry c => some c

variable {doc}

/-- Reading a playlist is reading its gaps and lengths. -/
theorem entriesFrom_eq_read (lane : ℕ) (t : ℤ) (playlist : List Clip) :
    doc.entriesFrom lane t playlist =
      (read (readLen doc) t (playlist.map (readCell doc))).map (fun x => doc.entryAt lane x.1 x.2) := by
  induction playlist generalizing t with
  | nil => rfl
  | cons clip rest ih =>
    cases clip with
    | blank length => exact ih _
    | entry c =>
      show doc.entryAt lane t c :: doc.entriesFrom lane _ rest = _
      rw [ih]
      rfl

/-- The frames of the entries are those the elements say. -/
theorem entriesFrom_frames (lane : ℕ) (t : ℤ) (playlist : List Clip) :
    (doc.entriesFrom lane t playlist).map (fun e => (e.inFrame, e.outFrame)) =
      (elements playlist).map (fun c => (readIn doc c, readOut doc c)) := by
  induction playlist generalizing t with
  | nil => rfl
  | cons clip rest ih =>
    cases clip with
    | blank length => exact ih _
    | entry c =>
      show (readIn doc c, readOut doc c) :: _ = (readIn doc c, readOut doc c) :: _
      rw [ih]
      rfl

theorem mem_entriesFrom {lane : ℕ} {t : ℤ} {playlist : List Clip} {e : Entry}
    (h : e ∈ doc.entriesFrom lane t playlist) : ∃ u, e = doc.entryAt lane u e.node := by
  rw [entriesFrom_eq_read] at h
  obtain ⟨x, -, rfl⟩ := List.mem_map.mp h
  exact ⟨x.1, rfl⟩

/-! ## What is written -/

/-- A clip wanted on a playlist: `text` is its entry, `node` the index of the original one. -/
structure Wanted where
  start : ℤ
  len : ℤ
  text : Element
  node : Option ℕ
  inFrame : ℤ
  outFrame : ℤ

def Wanted.place (w : Wanted) : ℤ × ℤ × ℤ := (w.start, w.inFrame, w.outFrame)

def blanks (playlist : List Clip) : ℕ :=
  playlist.countP fun clip =>
    match clip with
    | .blank _ => true
    | .entry _ => false

def gaps : ℤ → List Wanted → ℕ
  | _, [] => 0
  | t, w :: rest => (if t < w.start then 1 else 0) + gaps (w.start + w.len) rest

variable (doc)

/-- An entry of a playlist is what is wanted in its place. -/
def unchanged (c : Entry) (w : Wanted) : Bool :=
  w.node = some c.node.index && c.node = w.text && c.start = w.start && c.len = w.len &&
    c.inFrame = w.inFrame && c.outFrame = w.outFrame

def sameLane (playlist : List Clip) (lane : ℕ) (wanted : List Wanted) : Bool :=
  let current := doc.entries playlist lane
  current.length = wanted.length && (current.zip wanted).all (fun x => unchanged x.1 x.2) &&
    blanks playlist = gaps 0 wanted

def written : ℤ → List Wanted → List Clip
  | _, [] => []
  | t, w :: rest =>
    (if t < w.start then [.blank (some (doc.fps.timecode (w.start - t)))] else []) ++
      .entry w.text :: written (w.start + w.len) rest

/-- Rewrite a playlist's clips, or leave it alone when nothing about them changed. -/
def rewritePlaylist (playlist : List Clip) (lane : ℕ) (wanted : List Wanted) : List Clip :=
  if sameLane doc playlist lane wanted then playlist else written doc 0 wanted

/-- What `apply` writes of a clip besides its times: the chain's id where it is a new one, and what its
gain makes of an entry's filters and of the rest of its text. -/
structure Texts where
  chain : Laid → Part → String
  filters : Laid → Element → List Bool
  body : Laid → Element → String

variable (items : List Item) (texts : Texts)

def Media.index (m : Media) (part : Part) : Option ℕ :=
  match part with
  | .video => m.videoIndex
  | .audio => m.audioIndex

/-- The entry a clip has on a track, when it has one: `some none` is a new entry. -/
def entryOn (source : Source) (part : Part) : Option (Option Entry) :=
  match source with
  | .existing i => (items[i]!.entry part).map some
  | .piece i => ((items[i]!.entry part).filter (fun e => (doc.byId e.chain).isSome)).map some
  | .new m => (m.index part).map (fun _ => none)

/-- Times and chain set in a start tag, where it has them. -/
def retag (c : Element) (inTime outTime chain : String) : Element :=
  { c with
    inTime := c.inTime.map (fun _ => inTime)
    outTime := c.outTime.map (fun _ => outTime)
    producer := c.producer.map (fun _ => chain) }

def bareEntry (inTime outTime chain binId : String) : Element :=
  ⟨0, some inTime, some outTime, some chain, some binId, [], ""⟩

/-- The entry of a laid clip on one track. -/
def entryText (l : Laid) (part : Part) (old : Option Entry) : Element :=
  let inTime := doc.fps.timecode l.inFrame
  let outTime := doc.fps.timecode l.outFrame
  let tag :=
    match l.source, old with
    | .existing _, some e => retag e.node inTime outTime e.chain
    | _, some e => retag e.node inTime outTime (texts.chain l part)
    | _, none => bareEntry inTime outTime (texts.chain l part) l.binId
  { tag with filters := texts.filters l tag, body := texts.body l tag }

def wantedClip (part : Part) (l : Laid) : Option Wanted :=
  (entryOn doc items l.source part).map fun old =>
    { start := l.start
      len := l.len
      text := entryText doc texts l part old
      node := old.map (fun e => e.node.index)
      inFrame := l.inFrame
      outFrame := l.outFrame }

/-- What a playlist shall hold of the laid clips. -/
def wantedLane (laid : List Laid) (part : Part) (lane : ℕ) : List Wanted :=
  (laid.filter (fun l => min (l.lane part) 1 = lane)).filterMap (wantedClip doc items texts part)

/-! ## What is read back -/

variable {items texts}

/-- An entry says the frames it is wanted for. -/
def Says (doc : Doc) (w : Wanted) : Prop :=
  readIn doc w.text = w.inFrame ∧ readOut doc w.text = w.outFrame

variable {doc}

theorem elements_written (t : ℤ) (wanted : List Wanted) :
    elements (written doc t wanted) = wanted.map Wanted.text := by
  induction wanted generalizing t with
  | nil => rfl
  | cons w rest ih =>
    have hrest := ih (w.start + w.len)
    unfold elements at hrest ⊢
    unfold written
    split <;> simp [hrest]

theorem cells_written {wanted : List Wanted} (hlen : ∀ w ∈ wanted, readLen doc w.text = w.len) (t : ℤ) :
    (written doc t wanted).map (readCell doc) =
      write (readLen doc) t (wanted.map (fun w => (w.start, w.text))) := by
  induction wanted generalizing t with
  | nil => rfl
  | cons w rest ih =>
    have hrest := ih (fun v hv => hlen v (List.mem_cons_of_mem w hv)) (w.start + w.len)
    have hw := hlen w List.mem_cons_self
    unfold written
    by_cases hgap : t < w.start
    · have htime := doc.fps.parse_timecode (w.start - t) (by omega)
      simp [hgap, write, readCell, hrest, hw, htime]
    · simp [hgap, write, readCell, hrest, hw]

/-- What is written in line is read back where it was wanted. -/
theorem entries_written {wanted : List Wanted} (hlen : ∀ w ∈ wanted, readLen doc w.text = w.len)
    {t : ℤ} (hline : InLine (readLen doc) t (wanted.map (fun w => (w.start, w.text)))) (lane : ℕ) :
    doc.entriesFrom lane t (written doc t wanted) =
      wanted.map (fun w => doc.entryAt lane w.start w.text) := by
  rw [entriesFrom_eq_read, cells_written hlen, read_write hline, List.map_map]
  rfl

theorem unchanged_place {c : Entry} {w : Wanted} (h : unchanged c w = true) :
    c.place = w.place ∧ c.node = w.text := by
  unfold unchanged at h
  simp only [Bool.and_eq_true, decide_eq_true_eq] at h
  obtain ⟨⟨⟨⟨⟨-, hnode⟩, hstart⟩, -⟩, hin⟩, hout⟩ := h
  exact ⟨by simp [Entry.place, Wanted.place, hstart, hin, hout], hnode⟩

theorem map_eq_of_zip {A B C : Type} {f : A → C} {g : B → C} {l : List A} {m : List B}
    (hlen : l.length = m.length) (h : ∀ x ∈ l.zip m, f x.1 = g x.2) : l.map f = m.map g := by
  induction l generalizing m with
  | nil => cases m with
    | nil => rfl
    | cons b m => cases hlen
  | cons a l ih =>
    cases m with
    | nil => cases hlen
    | cons b m =>
      rw [List.map_cons, List.map_cons, h (a, b) (by simp),
        ih (by simpa using hlen) (fun x hx => h x (by simp [hx]))]

theorem sameLane_places {playlist : List Clip} {lane : ℕ} {wanted : List Wanted}
    (h : sameLane doc playlist lane wanted = true) :
    (doc.entries playlist lane).map Entry.place = wanted.map Wanted.place := by
  unfold sameLane at h
  simp only [Bool.and_eq_true, decide_eq_true_eq, List.all_eq_true] at h
  exact map_eq_of_zip h.1.1 (fun x hx => (unchanged_place (h.1.2 x hx)).1)

theorem sameLane_texts {playlist : List Clip} {lane : ℕ} {wanted : List Wanted}
    (h : sameLane doc playlist lane wanted = true) :
    (doc.entries playlist lane).map Entry.node = wanted.map Wanted.text := by
  unfold sameLane at h
  simp only [Bool.and_eq_true, decide_eq_true_eq, List.all_eq_true] at h
  exact map_eq_of_zip h.1.1 (fun x hx => (unchanged_place (h.1.2 x hx)).2)

/-- A playlist reads back as wanted. -/
def ReadsBack (doc : Doc) (playlist : List Clip) (lane : ℕ) (wanted : List Wanted) : Prop :=
  (doc.entries (rewritePlaylist doc playlist lane wanted) lane).map Entry.place =
    wanted.map Wanted.place

theorem readsBack_of_line {playlist : List Clip} {lane : ℕ} {wanted : List Wanted}
    (hspans : ∀ w ∈ wanted, Says doc w) (hlen : ∀ w ∈ wanted, w.len = w.outFrame - w.inFrame + 1)
    (hstart : ∀ w ∈ wanted, 0 ≤ w.start)
    (hline : wanted.Pairwise (fun v w => v.start + v.len ≤ w.start)) :
    ReadsBack doc playlist lane wanted := by
  unfold ReadsBack rewritePlaylist
  split
  · rename_i hsame
    exact sameLane_places hsame
  · have hread : ∀ w ∈ wanted, readLen doc w.text = w.len := by
      intro w hw
      obtain ⟨hin, hout⟩ := hspans w hw
      rw [readLen, hin, hout, hlen w hw]
    have hin : InLine (readLen doc) 0 (wanted.map (fun w => (w.start, w.text))) := by
      apply inLine_of_pairwise
      · intro x hx
        obtain ⟨w, hw, rfl⟩ := List.mem_map.mp hx
        exact hstart w hw
      · rw [List.pairwise_map]
        exact hline.imp_of_mem fun {v w} hv _ h => by rw [hread v hv]; exact h
    unfold Doc.entries
    rw [entries_written hread hin, List.map_map]
    refine List.map_congr_left fun w hw => ?_
    obtain ⟨hin, hout⟩ := hspans w hw
    show (w.start, readIn doc w.text, readOut doc w.text) = _
    rw [hin, hout]
    rfl

theorem says_of_readsBack {playlist : List Clip} {lane : ℕ} {wanted : List Wanted}
    (h : ReadsBack doc playlist lane wanted) : ∀ w ∈ wanted, Says doc w := by
  have hframes : wanted.map (fun w => (readIn doc w.text, readOut doc w.text)) =
      wanted.map (fun w => (w.inFrame, w.outFrame)) := by
    have hplaces : (doc.entries (rewritePlaylist doc playlist lane wanted) lane).map
        (fun e => (e.inFrame, e.outFrame)) = wanted.map (fun w => (w.inFrame, w.outFrame)) := by
      have hsnd := congrArg (List.map Prod.snd) h
      rwa [List.map_map, List.map_map] at hsnd
    rw [← hplaces]
    unfold rewritePlaylist
    split
    · rename_i hsame
      have htexts := congrArg (List.map (fun c => (readIn doc c, readOut doc c)))
        (sameLane_texts hsame)
      rw [List.map_map, List.map_map] at htexts
      refine htexts.symm.trans (List.map_congr_left fun e he => ?_)
      obtain ⟨u, hu⟩ := mem_entriesFrom he
      rw [hu]
      rfl
    · unfold Doc.entries
      rw [entriesFrom_frames, elements_written, List.map_map]
      rfl
  intro w hw
  have hpair := List.map_inj_left.mp hframes w hw
  exact Prod.mk.inj hpair

end Haruspex.Kdenlive
