import Haruspex.Library.KeyedMap
import Haruspex.Library.Runs
import Mathlib.Data.List.Count

/-! The watches of every editor window (`EditorWatches` of `fs_tools/editor.rs`). Whether the debounce thread, a watcher
and a watch can be made is the system's; events are left to `flush`, which may come at any time. -/
namespace Haruspex.Editor.Watches
open KeyedMap Runs
set_option autoImplicit false

variable {P L K : Type} [DecidableEq P]

/-! ## State -/

/-- A path's directory, and whether a directory is in a WSL distro. -/
structure Paths (P : Type) where
  parent : P → Option P
  polled : P → Bool

/-- What the system does when a directory is to be watched: start the thread, make the watcher, watch. -/
structure Attempt where
  thread : Bool
  made : Bool
  watched : Bool

/-- `known` is the hash a window last saw. A watcher is the directories it watches. -/
structure State (P L K : Type) where
  files : Dict P (Dict L K)
  dirs : Dict P ℕ
  watcher : Option (List P)
  poller : Option (List P)
  failed : List P
  events : Bool

namespace State

def empty : State P L K := ⟨∅, ∅, none, none, [], false⟩

section
variable (paths : Paths P) (s : State P L K)

/-- The watcher that is to hear of a directory. -/
def watcherOf (dir : P) : Option (List P) := if paths.polled dir then s.poller else s.watcher

def withWatcher (dir : P) (watched : List P) : State P L K :=
  if paths.polled dir then { s with poller := some watched } else { s with watcher := some watched }

def watchDir (dir : P) (a : Attempt) : State P L K × Bool :=
  if !s.events && !a.thread then (s, false)
  else
    let s := { s with events := true }
    if (s.watcherOf paths dir).isNone && !a.made then (s, false)
    else
      let watched := (s.watcherOf paths dir).getD []
      (s.withWatcher paths dir (if a.watched then dir :: watched else watched), a.watched)

/-- The answer tells whether changes will be heard. -/
def watch [DecidableEq L] (label : L) (path : P) (known : K) (a : Attempt) : State P L K × Bool :=
  let newFile := (s.files.lookup path).isNone
  let s := { s with files := s.files.insert path (((s.files.lookup path).getD ∅).insert label known) }
  match paths.parent path with
  | none => (s, false)
  | some dir =>
    if !newFile then (s, decide (dir ∉ s.failed))
    else
      let count := (s.dirs.lookup dir).getD 0 + 1
      let s := { s with dirs := s.dirs.insert dir count }
      if count > 1 then (s, decide (dir ∉ s.failed))
      else
        let tried := s.watchDir paths dir a
        if tried.2 then (tried.1, true) else ({ tried.1 with failed := dir :: tried.1.failed }, false)

def setKnown [DecidableEq L] (label : L) (path : P) (known : K) : State P L K :=
  match s.files.lookup path with
  | none => s
  | some labels =>
    if (labels.lookup label).isSome then { s with files := s.files.insert path (labels.insert label known) } else s

def dropDir (dir : P) : State P L K :=
  let s :=
    { s with
      dirs := s.dirs.erase dir
      failed := s.failed.filter fun d => d ≠ dir
      watcher := s.watcher.map fun watched => watched.filter fun d => d ≠ dir
      poller := s.poller.map fun watched => watched.filter fun d => d ≠ dir }
  if s.files.keys = [] then { s with watcher := none, poller := none, events := false } else s

/-- `unwatch_locked` -/
def unwatch [DecidableEq L] (label : L) (path : P) : State P L K :=
  match s.files.lookup path with
  | none => s
  | some labels =>
    if (labels.erase label).keys ≠ [] then { s with files := s.files.insert path (labels.erase label) }
    else
      let s := { s with files := s.files.erase path }
      match paths.parent path with
      | none => s
      | some dir =>
        match s.dirs.lookup dir with
        | none => s
        | some count => if count - 1 > 0 then { s with dirs := s.dirs.insert dir (count - 1) } else s.dropDir dir

def unwatchAll [DecidableEq L] (label : L) : List P → State P L K → State P L K
  | [], s => s
  | path :: rest, s => unwatchAll label rest (s.unwatch paths label path)

/-- Which of a window's paths goes first is the map's. -/
def unwatchLabel [DecidableEq L] (label : L) : State P L K :=
  unwatchAll paths label
    ((s.files.entries.filter fun e => (e.2.lookup label).isSome).map Sigma.fst) s

def stopAll : State P L K := ⟨∅, ∅, none, none, [], false⟩

/-- The windows that hear of a change: those whose last-seen hash differs. -/
def flush [DecidableEq K] (path : P) (now : K) : State P L K × List L :=
  match s.files.lookup path with
  | none => (s, [])
  | some labels =>
    ({ s with files := s.files.insert path (mapValues (fun _ => now) labels) },
      (labels.entries.filter fun e => e.2 ≠ now).map Sigma.fst)

end

end State

inductive Step (P L K : Type) where
  | watch (label : L) (path : P) (known : K) (attempt : Attempt)
  | setKnown (label : L) (path : P) (known : K)
  | unwatch (label : L) (path : P)
  | unwatchLabel (label : L)
  | flush (path : P) (now : K)
  | stopAll

def apply [DecidableEq L] [DecidableEq K] (paths : Paths P) : Step P L K → State P L K → State P L K
  | .watch label path known attempt, s => (s.watch paths label path known attempt).1
  | .setKnown label path known, s => s.setKnown label path known
  | .unwatch label path, s => s.unwatch paths label path
  | .unwatchLabel label, s => s.unwatchLabel paths label
  | .flush path now, s => (s.flush path now).1
  | .stopAll, _ => .stopAll

/-! ## Counting -/

variable {paths : Paths P} {s : State P L K}

/-- A directory some watcher watches. -/
def Heard (paths : Paths P) (s : State P L K) (dir : P) : Prop := ∃ watched, s.watcherOf paths dir = some watched ∧ dir ∈ watched

/-- The open files in a directory. -/
def openIn (paths : Paths P) (s : State P L K) (dir : P) : ℕ := s.files.keys.countP fun p => paths.parent p = some dir

structure Sound (paths : Paths P) (s : State P L K) : Prop where
  counted : ∀ dir, (s.dirs.lookup dir).getD 0 = openIn paths s dir
  positive : ∀ dir, s.dirs.lookup dir ≠ some 0
  failed : ∀ dir ∈ s.failed, (s.dirs.lookup dir).isSome = true
  heard : ∀ dir, Heard paths s dir ↔ (s.dirs.lookup dir).isSome = true ∧ dir ∉ s.failed
  labelled : ∀ path labels, s.files.lookup path = some labels → labels.keys ≠ []
  parented : ∀ path ∈ s.files, (paths.parent path).isSome = true
  released : s.files.keys = [] → s.watcher = none ∧ s.poller = none ∧ s.events = false

theorem countP_keys_insert {V : Type} (d : Dict P V) (path : P) (v : V) (q : P → Bool) :
    (d.insert path v).keys.countP q =
      if path ∈ d then d.keys.countP q else d.keys.countP q + if q path then 1 else 0 := by
  rw [AList.keys_insert, List.countP_cons]
  by_cases hmem : path ∈ d
  · rw [if_pos hmem]
    have hperm := List.perm_cons_erase (AList.mem_keys.mp hmem)
    rw [hperm.countP_eq, List.countP_cons]
  · rw [if_neg hmem, List.erase_of_not_mem fun hkey => hmem (AList.mem_keys.mpr hkey)]

theorem countP_keys_erase {V : Type} {d : Dict P V} {path : P} (hmem : path ∈ d) (q : P → Bool) :
    d.keys.countP q = (d.erase path).keys.countP q + if q path then 1 else 0 := by
  rw [AList.keys_erase, (List.perm_cons_erase (AList.mem_keys.mp hmem)).countP_eq, List.countP_cons]

theorem mem_of_lookup {V : Type} {d : Dict P V} {path : P} {v : V} (h : d.lookup path = some v) : path ∈ d :=
  AList.lookup_isSome.mp (by rw [h]; rfl)

theorem openIn_pos {path dir : P} (hmem : path ∈ s.files) (hparent : paths.parent path = some dir) :
    0 < openIn paths s dir := by
  refine List.countP_pos_iff.mpr ⟨path, AList.mem_keys.mp hmem, ?_⟩
  exact decide_eq_true hparent

theorem Sound.isSome_iff (h : Sound paths s) (dir : P) : (s.dirs.lookup dir).isSome = true ↔ 0 < openIn paths s dir := by
  have hcounted := h.counted dir
  have hpositive := h.positive dir
  cases hdir : s.dirs.lookup dir with
  | none =>
    rw [hdir] at hcounted
    change 0 = _ at hcounted
    simp [← hcounted]
  | some n =>
    rw [hdir] at hcounted hpositive
    change n = _ at hcounted
    rw [← hcounted]
    simp only [Option.isSome_some, true_iff]
    exact Nat.pos_of_ne_zero fun hzero => hpositive (by rw [hzero])

/-- What a window last saw does not matter to the watches. -/
theorem Sound.sameFiles (h : Sound paths s) {files : Dict P (Dict L K)}
    (hkeys : ∀ q : P → Bool, files.keys.countP q = s.files.keys.countP q) (hempty : files.keys = [] → s.files.keys = [])
    (hfiles : ∀ path ∈ files, path ∈ s.files)
    (hlabelled : ∀ path labels, files.lookup path = some labels → labels.keys ≠ []) :
    Sound paths { s with files := files } :=
  ⟨fun dir => (h.counted dir).trans (hkeys _).symm, h.positive, h.failed, h.heard, hlabelled,
    fun path hpath => h.parented path (hfiles path hpath), fun hnone => h.released (hempty hnone)⟩

/-! ## Watching -/

omit [DecidableEq P] in
theorem watcherOf_events (events : Bool) (dir : P) :
    ({ s with events := events } : State P L K).watcherOf paths dir = s.watcherOf paths dir := rfl

omit [DecidableEq P] in
theorem withWatcher_of (dir other : P) (watched : List P) : (s.withWatcher paths dir watched).watcherOf paths other =
    if paths.polled other = paths.polled dir then some watched else s.watcherOf paths other := by
  unfold State.withWatcher State.watcherOf
  cases paths.polled dir <;> cases paths.polled other <;> rfl

omit [DecidableEq P] in
theorem withWatcher_rest (dir : P) (watched : List P) : (s.withWatcher paths dir watched).files = s.files ∧
    (s.withWatcher paths dir watched).dirs = s.dirs ∧ (s.withWatcher paths dir watched).failed = s.failed := by
  unfold State.withWatcher
  split <;> exact ⟨rfl, rfl, rfl⟩

omit [DecidableEq P] in
/-- Nothing but the watchers changes, and nothing but that directory may be heard of anew. -/
theorem watchDir_spec (dir : P) (a : Attempt) :
    (s.watchDir paths dir a).1.files = s.files ∧ (s.watchDir paths dir a).1.dirs = s.dirs ∧
      (s.watchDir paths dir a).1.failed = s.failed ∧
      ∀ other, Heard paths (s.watchDir paths dir a).1 other ↔
        Heard paths s other ∨ other = dir ∧ (s.watchDir paths dir a).2 = true := by
  unfold State.watchDir
  split
  · exact ⟨rfl, rfl, rfl, fun other => by simp⟩
  · dsimp only
    split
    · exact ⟨rfl, rfl, rfl, fun other => by simp [Heard, watcherOf_events]⟩
    · obtain ⟨hfiles, hdirs, hfailed⟩ := @withWatcher_rest P L K paths { s with events := true } dir
        (if a.watched then dir :: (s.watcherOf paths dir).getD [] else (s.watcherOf paths dir).getD [])
      refine ⟨hfiles, hdirs, hfailed, fun other => ?_⟩
      unfold Heard
      dsimp only
      rw [watcherOf_events, withWatcher_of, watcherOf_events]
      by_cases hkind : paths.polled other = paths.polled dir
      · have hsame : s.watcherOf paths other = s.watcherOf paths dir := by
          unfold State.watcherOf
          rw [hkind]
        rw [if_pos hkind, hsame]
        cases hold : s.watcherOf paths dir with
        | none => cases a.watched <;> simp
        | some watched => cases a.watched <;> simp [or_comm]
      · rw [if_neg hkind]
        have hne : other ≠ dir := fun heq => hkind (by rw [heq])
        simp only [hne, false_and, or_false]
        exact Iff.rfl

omit [DecidableEq P] in
theorem keys_ne_nil {V : Type} {d : Dict P V} {path : P} (h : path ∈ d) : d.keys ≠ [] := by
  intro hnil
  have hmem := AList.mem_keys.mp h
  rw [hnil] at hmem
  cases hmem

theorem mem_insert_self {V : Type} (d : Dict P V) (path : P) (v : V) : path ∈ d.insert path v :=
  (AList.mem_insert d).mpr (Or.inl rfl)

/-- An open file gets other labels. -/
theorem Sound.relabel (h : Sound paths s) {path : P} {labels : Dict L K} (hmem : path ∈ s.files) (hlabels : labels.keys ≠ []) :
    Sound paths { s with files := s.files.insert path labels } := by
  refine h.sameFiles (fun q => by rw [countP_keys_insert, if_pos hmem]) (fun hnil => ?_) (fun other hother => ?_)
    fun other ls hls => ?_
  · exact absurd hnil (keys_ne_nil (mem_insert_self _ _ _))
  · rcases (AList.mem_insert _).mp hother with rfl | hother
    · exact hmem
    · exact hother
  · rw [lookup_insert_eq] at hls
    split at hls
    · rw [Option.some_inj] at hls
      rwa [← hls]
    · exact h.labelled other ls hls

/-- A file that nobody had open, counted in its directory. -/
def State.addFile (s : State P L K) (path dir : P) (labels : Dict L K) : State P L K :=
  { s with files := s.files.insert path labels, dirs := s.dirs.insert dir ((s.dirs.lookup dir).getD 0 + 1) }

theorem addFile_dirs (path dir : P) (labels : Dict L K) (d : P) : (s.addFile path dir labels).dirs.lookup d =
    if d = dir then some ((s.dirs.lookup dir).getD 0 + 1) else s.dirs.lookup d := lookup_insert_eq _ _ _ _

theorem Sound.addFile (h : Sound paths s) {path dir : P} {labels : Dict L K} (hnew : path ∉ s.files)
    (hparent : paths.parent path = some dir) (hlabels : labels.keys ≠ []) {t : State P L K}
    (hfiles : t.files = (s.addFile path dir labels).files) (hdirs : t.dirs = (s.addFile path dir labels).dirs)
    (hfailed : ∀ d, d ∈ t.failed → d = dir ∨ d ∈ s.failed)
    (hheard : ∀ d, Heard paths t d ↔ (t.dirs.lookup d).isSome = true ∧ d ∉ t.failed) : Sound paths t := by
  have hcount : ∀ q : P → Bool, t.files.keys.countP q = s.files.keys.countP q + if q path then 1 else 0 := fun q => by
    rw [hfiles]
    exact (countP_keys_insert _ _ _ _).trans (if_neg hnew)
  refine ⟨fun d => ?_, fun d => ?_, fun d hd => ?_, hheard, fun other ls hls => ?_, fun other hother => ?_, fun hnil => ?_⟩
  · have hcounted := h.counted d
    unfold openIn at hcounted ⊢
    rw [hdirs, addFile_dirs, hcount]
    by_cases hd : d = dir
    · subst hd
      rw [if_pos rfl, ← hcounted, hparent]
      simp
    · rw [if_neg hd, ← hcounted, hparent]
      have hne : ¬ dir = d := fun heq => hd heq.symm
      simp [hne]
  · rw [hdirs, addFile_dirs]
    split
    · simp
    · exact h.positive d
  · rw [hdirs, addFile_dirs]
    split
    · rfl
    · rename_i hne
      exact h.failed d ((hfailed d hd).resolve_left hne)
  · rw [hfiles] at hls
    change (s.files.insert path labels).lookup other = some ls at hls
    rw [lookup_insert_eq] at hls
    split at hls
    · rw [Option.some_inj] at hls
      rwa [← hls]
    · exact h.labelled other ls hls
  · rw [hfiles] at hother
    rcases (AList.mem_insert _).mp hother with rfl | hother
    · rw [hparent]
      rfl
    · exact h.parented other hother
  · rw [hfiles] at hnil
    exact absurd hnil (keys_ne_nil (mem_insert_self _ _ _))

section
variable [DecidableEq L]

theorem insert_keys_ne_nil (labels : Dict L K) (label : L) (known : K) : (labels.insert label known).keys ≠ [] := by
  rw [AList.keys_insert]
  exact List.cons_ne_nil _ _

theorem watch_old {path dir : P} {labels : Dict L K} (hold : s.files.lookup path = some labels)
    (hparent : paths.parent path = some dir) (label : L) (known : K) (a : Attempt) : s.watch paths label path known a =
      ({ s with files := s.files.insert path (labels.insert label known) }, decide (dir ∉ s.failed)) := by
  unfold State.watch
  simp only [hparent, hold]
  rfl

theorem watch_new {path dir : P} (hnew : s.files.lookup path = none) (hparent : paths.parent path = some dir) (label : L)
    (known : K) (a : Attempt) : s.watch paths label path known a =
      if (s.dirs.lookup dir).getD 0 + 1 > 1 then
        (s.addFile path dir ((∅ : Dict L K).insert label known), decide (dir ∉ s.failed))
      else if ((s.addFile path dir ((∅ : Dict L K).insert label known)).watchDir paths dir a).2 then
        (((s.addFile path dir ((∅ : Dict L K).insert label known)).watchDir paths dir a).1, true)
      else
        ({ ((s.addFile path dir ((∅ : Dict L K).insert label known)).watchDir paths dir a).1 with
          failed := dir :: ((s.addFile path dir ((∅ : Dict L K).insert label known)).watchDir paths dir a).1.failed }, false) := by
  unfold State.watch
  simp only [hparent, hnew]
  rfl

/-- The answer to `watch` is whether the file's directory is heard of; where a file was open, that stays as it was. -/
theorem Sound.watch (h : Sound paths s) (label : L) {path : P} (hparent : (paths.parent path).isSome = true)
    (known : K) (a : Attempt) : Sound paths (s.watch paths label path known a).1 ∧
      ((s.watch paths label path known a).2 = true ↔
        ∃ dir, paths.parent path = some dir ∧ Heard paths (s.watch paths label path known a).1 dir) ∧
      ∀ dir, 0 < openIn paths s dir → (Heard paths (s.watch paths label path known a).1 dir ↔ Heard paths s dir) := by
  obtain ⟨dir, hdir⟩ := Option.isSome_iff_exists.mp hparent
  have hone : ∀ t : State P L K, (∃ d, paths.parent path = some d ∧ Heard paths t d) ↔ Heard paths t dir := fun t => by
    simp [hdir]
  rw [hone]
  cases hold : s.files.lookup path with
  | some labels =>
    have hmem := mem_of_lookup hold
    have hsound := h.relabel hmem (insert_keys_ne_nil labels label known)
    have hopen := (h.isSome_iff dir).mpr (openIn_pos hmem hdir)
    rw [watch_old hold hdir]
    refine ⟨hsound, ?_, fun d _ => Iff.rfl⟩
    rw [hsound.heard, decide_eq_true_eq]
    exact (and_iff_right hopen).symm
  | none =>
    have hnew : path ∉ s.files := fun hmem => by
      rw [← AList.lookup_isSome, hold] at hmem
      cases hmem
    have hlabels := insert_keys_ne_nil (∅ : Dict L K) label known
    generalize hstart : (∅ : Dict L K).insert label known = labels at hlabels
    have hfree : ∀ d, Heard paths (s.addFile path dir labels) d ↔ Heard paths s d := fun d => Iff.rfl
    rw [watch_new hold hdir, hstart]
    by_cases hcount : (s.dirs.lookup dir).getD 0 + 1 > 1
    · rw [if_pos hcount]
      have hthere : (s.dirs.lookup dir).isSome = true := by
        cases hdirs : s.dirs.lookup dir with
        | none =>
          rw [hdirs] at hcount
          cases Nat.lt_irrefl _ hcount
        | some n => rfl
      refine ⟨h.addFile hnew hdir hlabels rfl rfl (fun d hd => Or.inr hd) fun d => ?_, ?_, fun d _ => Iff.rfl⟩
      · rw [hfree, h.heard, addFile_dirs]
        by_cases hd : d = dir
        · rw [if_pos hd, hd]
          simp [hthere, State.addFile]
        · rw [if_neg hd]
          exact Iff.rfl
      · rw [hfree, h.heard, decide_eq_true_eq, and_iff_right hthere]
    · rw [if_neg hcount]
      have hzero : openIn paths s dir = 0 := by
        rw [← h.counted]
        omega
      have hnone : ¬ (s.dirs.lookup dir).isSome = true := by
        rw [h.isSome_iff, hzero]
        exact Nat.lt_irrefl 0
      have hunfailed : dir ∉ s.failed := fun hmem => hnone (h.failed dir hmem)
      have hunheard : ¬ Heard paths s dir := fun hheard => hnone ((h.heard dir).mp hheard).1
      have hother : ∀ d, 0 < openIn paths s d → d ≠ dir := by
        rintro d hpos rfl
        omega
      obtain ⟨hfiles, hdirs, hfailed, hheard⟩ := @watchDir_spec P L K paths (s.addFile path dir labels) dir a
      have hfailed : ((s.addFile path dir labels).watchDir paths dir a).1.failed = s.failed := hfailed
      split
      · rename_i htried
        have hmore : ∀ d, Heard paths ((s.addFile path dir labels).watchDir paths dir a).1 d ↔ Heard paths s d ∨ d = dir :=
          fun d => by
            rw [hheard d, htried, hfree]
            simp
        refine ⟨h.addFile hnew hdir hlabels hfiles hdirs (fun d hd => Or.inr (by rwa [hfailed] at hd)) fun d => ?_, ?_,
          fun d hpos => ?_⟩
        · rw [hmore, hdirs, hfailed, addFile_dirs, h.heard]
          by_cases hd : d = dir
          · simp [hd, hunfailed]
          · simp [hd]
        · rw [hmore]
          simp
        · rw [hmore, or_iff_left (hother d hpos)]
      · rename_i htried
        have hmore : ∀ d, Heard paths ((s.addFile path dir labels).watchDir paths dir a).1 d ↔ Heard paths s d := fun d => by
          rw [hheard d, hfree]
          simp [htried]
        refine ⟨h.addFile hnew hdir hlabels hfiles hdirs (fun d hd => ?_) fun d => ?_, ?_, fun d _ => hmore d⟩
        · dsimp only at hd
          rw [hfailed] at hd
          exact List.mem_cons.mp hd
        · refine (hmore d).trans ?_
          dsimp only
          rw [hdirs, hfailed, addFile_dirs, h.heard]
          by_cases hd : d = dir
          · rw [hd]
            simp [hnone]
          · simp [hd]
        · exact ⟨fun hfalse => (by cases hfalse), fun hin => absurd ((hmore dir).mp hin) hunheard⟩

/-! ## Letting go -/

omit [DecidableEq L] in
theorem heard_filter (t : State P L K) (dir d : P) :
    Heard paths { t with
      watcher := t.watcher.map fun watched => watched.filter fun x => x ≠ dir
      poller := t.poller.map fun watched => watched.filter fun x => x ≠ dir } d ↔ Heard paths t d ∧ d ≠ dir := by
  have hfilter : ∀ w : Option (List P), (∃ watched, (w.map fun l => l.filter fun x => x ≠ dir) = some watched ∧ d ∈ watched) ↔
      (∃ watched, w = some watched ∧ d ∈ watched) ∧ d ≠ dir := fun w => by
    cases w with
    | none => simp
    | some l => simp
  unfold Heard State.watcherOf
  split
  · exact hfilter t.poller
  · exact hfilter t.watcher

omit [DecidableEq L] in
theorem dropDir_rest (dir : P) : (s.dropDir dir).files = s.files ∧ (s.dropDir dir).dirs = s.dirs.erase dir ∧
    (s.dropDir dir).failed = s.failed.filter fun d => d ≠ dir := by
  unfold State.dropDir
  dsimp only
  split <;> exact ⟨rfl, rfl, rfl⟩

omit [DecidableEq L] in
theorem dropDir_heard (dir d : P) :
    Heard paths (s.dropDir dir) d ↔ Heard paths s d ∧ d ≠ dir ∧ s.files.keys ≠ [] := by
  unfold State.dropDir
  dsimp only
  split
  · rename_i hnil
    simp [Heard, State.watcherOf, hnil]
  · rename_i hfiles
    rw [← and_assoc, and_iff_left hfiles]
    exact heard_filter s dir d

omit [DecidableEq L] in
theorem dropDir_released (dir : P) (hnil : s.files.keys = []) :
    (s.dropDir dir).watcher = none ∧ (s.dropDir dir).poller = none ∧ (s.dropDir dir).events = false := by
  unfold State.dropDir
  rw [if_pos hnil]
  exact ⟨rfl, rfl, rfl⟩

theorem unwatch_last {path dir : P} {labels : Dict L K} {count : ℕ} {label : L}
    (hlabels : s.files.lookup path = some labels) (hlast : (labels.erase label).keys = [])
    (hdir : paths.parent path = some dir) (hcount : s.dirs.lookup dir = some count) : s.unwatch paths label path =
      if count - 1 > 0 then { s with files := s.files.erase path, dirs := s.dirs.insert dir (count - 1) }
      else ({ s with files := s.files.erase path } : State P L K).dropDir dir := by
  unfold State.unwatch
  simp only [hlabels, hlast, hdir, hcount, ne_eq, not_true_eq_false, if_false]

omit [DecidableEq L] in
/-- A file that nobody has open any more, in a directory of which one file fewer is open. -/
theorem Sound.dropFile (h : Sound paths s) {path dir : P} (hmem : path ∈ s.files) (hdir : paths.parent path = some dir)
    {t : State P L K} (hfiles : t.files = s.files.erase path)
    (hdirs : ∀ d, t.dirs.lookup d = if d = dir then (if openIn paths s dir = 1 then none else some (openIn paths s dir - 1))
      else s.dirs.lookup d)
    (hfailed : ∀ d, d ∈ t.failed ↔ d ∈ s.failed ∧ (d = dir → openIn paths s dir ≠ 1))
    (hheard : ∀ d, Heard paths t d ↔ Heard paths s d ∧ (d = dir → openIn paths s dir ≠ 1))
    (hreleased : t.files.keys = [] → t.watcher = none ∧ t.poller = none ∧ t.events = false) : Sound paths t := by
  have hpos := openIn_pos hmem hdir
  have hthere := (h.isSome_iff dir).mpr hpos
  have hcount : ∀ d, openIn paths s d = openIn paths t d + if d = dir then 1 else 0 := fun d => by
    unfold openIn
    rw [hfiles, countP_keys_erase hmem, hdir]
    by_cases hd : d = dir
    · simp [hd]
    · have hne : ¬ dir = d := fun heq => hd heq.symm
      simp [hd, hne]
  have hsome : ∀ d, (t.dirs.lookup d).isSome = true ↔ (s.dirs.lookup d).isSome = true ∧ (d = dir → openIn paths s dir ≠ 1) :=
    fun d => by
      rw [hdirs]
      by_cases hd : d = dir
      · rw [hd, if_pos rfl]
        by_cases hone : openIn paths s dir = 1 <;> simp [hone, hthere]
      · simp [hd]
  refine ⟨fun d => ?_, fun d => ?_, fun d hd => ?_, fun d => ?_, fun other ls hls => ?_, fun other hother => ?_, hreleased⟩
  · have hcounted := h.counted d
    have hless := hcount d
    rw [hdirs]
    by_cases hd : d = dir
    · rw [if_pos hd] at hless ⊢
      rw [hd] at hless ⊢
      split
      · change 0 = _
        omega
      · change _ - 1 = _
        omega
    · rw [if_neg hd] at hless ⊢
      omega
  · rw [hdirs]
    split
    · split
      · simp
      · rw [ne_eq, Option.some_inj]
        omega
    · exact h.positive d
  · obtain ⟨hold, hkept⟩ := (hfailed d).mp hd
    exact (hsome d).mpr ⟨h.failed d hold, hkept⟩
  · rw [hheard, hsome, hfailed, h.heard]
    constructor
    · rintro ⟨⟨hopen, hunfailed⟩, hkept⟩
      exact ⟨⟨hopen, hkept⟩, fun hin => hunfailed hin.1⟩
    · rintro ⟨⟨hopen, hkept⟩, hunfailed⟩
      exact ⟨⟨hopen, fun hin => hunfailed ⟨hin, hkept⟩⟩, hkept⟩
  · rw [hfiles, lookup_erase_eq] at hls
    split at hls
    · cases hls
    · exact h.labelled other ls hls
  · rw [hfiles, AList.mem_erase] at hother
    exact h.parented other hother.2

/-- A directory with a file still open is heard of as before. -/
theorem Sound.unwatch (h : Sound paths s) (label : L) (path : P) : Sound paths (s.unwatch paths label path) ∧
    ∀ d, 0 < openIn paths (s.unwatch paths label path) d → (Heard paths (s.unwatch paths label path) d ↔ Heard paths s d) := by
  cases hlabels : s.files.lookup path with
  | none =>
    have hsame : s.unwatch paths label path = s := by
      unfold State.unwatch
      rw [hlabels]
    rw [hsame]
    exact ⟨h, fun d _ => Iff.rfl⟩
  | some labels =>
    have hmem := mem_of_lookup hlabels
    by_cases hlast : (labels.erase label).keys = []
    · obtain ⟨dir, hdir⟩ := Option.isSome_iff_exists.mp (h.parented path hmem)
      have hpos := openIn_pos hmem hdir
      have hcounted := h.counted dir
      obtain ⟨count, hcount⟩ := Option.isSome_iff_exists.mp ((h.isSome_iff dir).mpr hpos)
      rw [hcount] at hcounted
      change count = _ at hcounted
      rw [unwatch_last hlabels hlast hdir hcount]
      split
      · rename_i hmore
        refine ⟨h.dropFile hmem hdir rfl (fun d => ?_) (fun d => ?_) (fun d => ?_) fun hnil => ?_, fun d _ => Iff.rfl⟩
        · rw [lookup_insert_eq, hcounted, if_neg (by omega : ¬ openIn paths s dir = 1)]
        · exact (and_iff_left fun _ => by omega).symm
        · exact (and_iff_left fun _ => by omega).symm
        · have hless := countP_keys_erase hmem fun p => paths.parent p = some dir
          dsimp only at hnil
          rw [hnil] at hless
          change openIn paths s dir = _ at hless
          simp only [List.countP_nil, hdir, decide_true, if_true] at hless
          omega
      · rename_i hnone
        have hone : openIn paths s dir = 1 := by omega
        obtain ⟨hfiles, hdirs, hfailed⟩ := @dropDir_rest P L K _ { s with files := s.files.erase path } dir
        have hheard : ∀ d, Heard paths (({ s with files := s.files.erase path } : State P L K).dropDir dir) d ↔
            Heard paths s d ∧ d ≠ dir ∧ (s.files.erase path).keys ≠ [] := dropDir_heard dir
        have hleft : ∀ d, Heard paths s d → d ≠ dir → (s.files.erase path).keys ≠ [] := fun d hd hne hnil => by
          have hopen := (h.isSome_iff d).mp ((h.heard d).mp hd).1
          have hless := countP_keys_erase hmem fun p => paths.parent p = some d
          rw [hnil, hdir] at hless
          change openIn paths s d = _ at hless
          have hother : ¬ dir = d := fun heq => hne heq.symm
          simp only [List.countP_nil, Option.some_inj, hother, decide_false] at hless
          change openIn paths s d = 0 at hless
          omega
        have hkept : ∀ d, Heard paths (({ s with files := s.files.erase path } : State P L K).dropDir dir) d ↔
            Heard paths s d ∧ (d = dir → openIn paths s dir ≠ 1) := fun d => by
          rw [hheard]
          constructor
          · rintro ⟨hd, hne, -⟩
            exact ⟨hd, fun heq => absurd heq hne⟩
          · rintro ⟨hd, hne⟩
            have hne : d ≠ dir := fun heq => hne heq hone
            exact ⟨hd, hne, hleft d hd hne⟩
        have hsound : Sound paths (({ s with files := s.files.erase path } : State P L K).dropDir dir) := by
          refine h.dropFile hmem hdir hfiles (fun d => ?_) (fun d => ?_) hkept fun hnil => ?_
          · rw [hdirs, lookup_erase_eq, if_pos hone]
          · rw [hfailed, List.mem_filter, decide_eq_true_eq]
            simp [hone]
          · rw [hfiles] at hnil
            exact dropDir_released dir hnil
        refine ⟨hsound, fun d hd => ?_⟩
        rw [hkept]
        refine and_iff_left fun heq => ?_
        have hsome := (hsound.isSome_iff d).mpr hd
        rw [hdirs, lookup_erase_eq, if_pos heq] at hsome
        cases hsome
    · have hsame : s.unwatch paths label path = { s with files := s.files.insert path (labels.erase label) } := by
        unfold State.unwatch
        simp only [hlabels, ne_eq, hlast, not_false_eq_true, if_true]
      rw [hsame]
      exact ⟨h.relabel hmem hlast, fun d _ => Iff.rfl⟩

theorem unwatch_files (label : L) (path : P) : (s.unwatch paths label path).files =
    match s.files.lookup path with
    | none => s.files
    | some labels =>
      if (labels.erase label).keys ≠ [] then s.files.insert path (labels.erase label) else s.files.erase path := by
  unfold State.unwatch
  cases s.files.lookup path with
  | none => rfl
  | some labels =>
    dsimp only
    split
    · rfl
    · cases paths.parent path with
      | none => rfl
      | some dir =>
        dsimp only
        cases s.dirs.lookup dir with
        | none => rfl
        | some count =>
          dsimp only
          split
          · rfl
          · exact (dropDir_rest dir).1

theorem openIn_unwatch_le (label : L) (path : P) (d : P) :
    openIn paths (s.unwatch paths label path) d ≤ openIn paths s d := by
  unfold openIn
  rw [unwatch_files]
  cases hlabels : s.files.lookup path with
  | none => exact Nat.le_refl _
  | some labels =>
    have hmem := mem_of_lookup hlabels
    dsimp only
    split
    · rw [countP_keys_insert, if_pos hmem]
    · rw [countP_keys_erase hmem]
      exact Nat.le_add_right _ _

/-- However many files a window lets go, a directory with a file still open is heard of as before. -/
theorem Sound.unwatchAll (h : Sound paths s) (label : L) (ps : List P) : Sound paths (State.unwatchAll paths label ps s) ∧
    ∀ d, 0 < openIn paths (State.unwatchAll paths label ps s) d →
      0 < openIn paths s d ∧ (Heard paths (State.unwatchAll paths label ps s) d ↔ Heard paths s d) := by
  induction ps generalizing s with
  | nil => exact ⟨h, fun d hd => ⟨hd, Iff.rfl⟩⟩
  | cons path rest ih =>
    obtain ⟨hfirst, hheard⟩ := h.unwatch label path
    obtain ⟨hrest, hkept⟩ := ih hfirst
    refine ⟨hrest, fun d hd => ?_⟩
    obtain ⟨hopen, hsame⟩ := hkept d hd
    exact ⟨Nat.lt_of_lt_of_le hopen (openIn_unwatch_le label path d), hsame.trans (hheard d hopen)⟩

/-! ## Runs -/

omit [DecidableEq L] in
theorem Sound.empty : Sound paths (State.empty : State P L K) := by
  have hunheard : ∀ dir, ¬ Heard paths (State.empty : State P L K) dir := fun dir => by
    unfold Heard State.watcherOf
    split <;> simp [State.empty]
  refine ⟨fun dir => rfl, fun dir h => (by cases h), fun dir h => (by cases h), fun dir => ?_, fun path labels h => (by cases h),
    fun path h => (by cases h), fun _ => ⟨rfl, rfl, rfl⟩⟩
  refine iff_of_false (hunheard dir) fun h => ?_
  cases h.1

theorem Sound.setKnown (h : Sound paths s) (label : L) (path : P) (known : K) :
    Sound paths (s.setKnown label path known) ∧ ∀ d, Heard paths (s.setKnown label path known) d ↔ Heard paths s d := by
  unfold State.setKnown
  cases hlabels : s.files.lookup path with
  | none => exact ⟨h, fun d => Iff.rfl⟩
  | some labels =>
    dsimp only
    split
    · exact ⟨h.relabel (mem_of_lookup hlabels) (insert_keys_ne_nil labels label known), fun d => Iff.rfl⟩
    · exact ⟨h, fun d => Iff.rfl⟩

omit [DecidableEq L] in
theorem Sound.flush [DecidableEq K] (h : Sound paths s) (path : P) (now : K) :
    Sound paths (s.flush path now).1 ∧ ∀ d, Heard paths (s.flush path now).1 d ↔ Heard paths s d := by
  unfold State.flush
  cases hlabels : s.files.lookup path with
  | none => exact ⟨h, fun d => Iff.rfl⟩
  | some labels =>
    refine ⟨h.relabel (mem_of_lookup hlabels) fun hnil => h.labelled path labels hlabels ?_, fun d => Iff.rfl⟩
    have hentries := List.map_eq_nil_iff.mp (List.map_eq_nil_iff.mp hnil)
    change labels.entries.map Sigma.fst = []
    rw [hentries]
    rfl

variable [DecidableEq K]

/-- Windows open files, which are in a directory. -/
def InFolder (paths : Paths P) (_ : State P L K) : Step P L K → Prop
  | .watch _ path _ _ => (paths.parent path).isSome = true
  | _ => True

theorem Sound.apply (h : Sound paths s) (step : Step P L K) (hstep : InFolder paths s step) :
    Sound paths (apply paths step s) := by
  cases step with
  | watch label path known a => exact (h.watch label hstep known a).1
  | setKnown label path known => exact (h.setKnown label path known).1
  | unwatch label path => exact (h.unwatch label path).1
  | unwatchLabel label => exact (h.unwatchAll label _).1
  | flush path now => exact (h.flush path now).1
  | stopAll => exact Sound.empty

/-- A step that leaves a file of a directory open leaves it heard of as it was. -/
theorem Sound.apply_heard (h : Sound paths s) (step : Step P L K) (hstep : InFolder paths s step) {d : P}
    (hbefore : 0 < openIn paths s d) (hafter : 0 < openIn paths (Watches.apply paths step s) d) :
    Heard paths (Watches.apply paths step s) d ↔ Heard paths s d := by
  cases step with
  | watch label path known a => exact (h.watch label hstep known a).2.2 d hbefore
  | setKnown label path known => exact (h.setKnown label path known).2 d
  | unwatch label path => exact (h.unwatch label path).2 d hafter
  | unwatchLabel label => exact ((h.unwatchAll label _).2 d hafter).2
  | flush path now => exact (h.flush path now).2 d
  | stopAll => cases hafter

theorem sound_run {steps : List (Step P L K)} (h : EveryStep (apply paths) s steps (InFolder paths)) (hs : Sound paths s) :
    Sound paths (run (apply paths) s steps) :=
  run_keeps (Sound paths) (fun _ step hs hstep => hs.apply step hstep) hs h

/-- However windows open, write and close files and whatever the system refuses, each directory is counted once for each
file open in it, is heard of unless its watch failed, and nothing is kept when no file is open. -/
theorem watches_match_files (paths : Paths P) (steps : List (Step P L K))
    (h : EveryStep (apply paths) .empty steps (InFolder paths)) :
    (∀ dir, (run (apply paths) .empty steps).dirs.lookup dir =
        if openIn paths (run (apply paths) .empty steps) dir = 0 then none
        else some (openIn paths (run (apply paths) .empty steps) dir)) ∧
      (∀ dir, Heard paths (run (apply paths) .empty steps) dir ↔
        0 < openIn paths (run (apply paths) .empty steps) dir ∧ dir ∉ (run (apply paths) .empty steps).failed) ∧
      (∀ dir ∈ (run (apply paths) .empty steps).failed, 0 < openIn paths (run (apply paths) .empty steps) dir) ∧
      ((run (apply paths) .empty steps).files.keys = [] → run (apply paths) .empty steps = .empty) := by
  have hsound := sound_run h Sound.empty
  generalize run (apply paths) .empty steps = s at hsound
  have hdirs : ∀ dir, s.dirs.lookup dir = if openIn paths s dir = 0 then none else some (openIn paths s dir) := fun dir => by
    have hsome := hsound.isSome_iff dir
    have hcounted := hsound.counted dir
    cases hdir : s.dirs.lookup dir with
    | none =>
      rw [hdir] at hcounted
      change 0 = _ at hcounted
      rw [if_pos hcounted.symm]
    | some n =>
      rw [hdir] at hsome hcounted
      change n = _ at hcounted
      have hpos := hsome.mp rfl
      rw [if_neg (by omega), hcounted]
  refine ⟨hdirs, fun dir => ?_, fun dir hdir => (hsound.isSome_iff dir).mp (hsound.failed dir hdir), fun hnil => ?_⟩
  · rw [hsound.heard, hsound.isSome_iff]
  · obtain ⟨hwatcher, hpoller, hevents⟩ := hsound.released hnil
    have hfiles : s.files = ∅ := AList.ext (List.map_eq_nil_iff.mp hnil)
    have hnone : ∀ dir, s.dirs.lookup dir = none := fun dir => by
      rw [hdirs, if_pos]
      unfold openIn
      rw [hnil]
      rfl
    have hempty : s.dirs = ∅ := by
      refine AList.ext (List.eq_nil_iff_forall_not_mem.mpr fun e he => ?_)
      have hlookup := AList.mem_lookup_iff.mpr (show ⟨e.1, e.2⟩ ∈ s.dirs.entries from he)
      rw [hnone] at hlookup
      cases hlookup
    have hfailed : s.failed = [] := List.eq_nil_iff_forall_not_mem.mpr fun dir hdir => by
      have hsome := hsound.failed dir hdir
      rw [hnone] at hsome
      cases hsome
    cases s
    subst hfiles hempty hfailed hwatcher hpoller hevents
    rfl

/-- Files in folders of ten. -/
def tens : Paths ℕ := ⟨fun path => some (path / 10), fun _ => false⟩

omit [DecidableEq P] [DecidableEq L] [DecidableEq K] in
theorem inFolder_tens (s : State ℕ L K) (step : Step ℕ L K) : InFolder tens s step := by
  cases step with
  | watch => rfl
  | _ => exact trivial

theorem watches_match_files_sample : ∃ s : State ℕ ℕ ℕ, s.dirs.lookup 1 = some 1 ∧ s.failed = [1] := by
  have h := watches_match_files tens
    [.watch 1 11 0 ⟨true, true, false⟩, .watch 2 12 0 ⟨true, true, true⟩, .watch 3 25 0 ⟨true, true, true⟩, .unwatchLabel 2]
    fun _ step _ _ => inFolder_tens _ step
  exact ⟨_, h.1 1, rfl⟩

theorem heard_run {after : List (Step P L K)} (hs : Sound paths s) (h : EveryStep (apply paths) s after (InFolder paths))
    {path dir : P} (hdir : paths.parent path = some dir)
    (hopen : ∀ mid rest, after = mid ++ rest → path ∈ (run (apply paths) s mid).files) :
    Heard paths (run (apply paths) s after) dir ↔ Heard paths s dir := by
  induction after generalizing s with
  | nil => exact Iff.rfl
  | cons step after ih =>
    obtain ⟨hstep, hafter⟩ := everyStep_cons.mp h
    have hnow := openIn_pos (hopen [] (step :: after) rfl) hdir
    have hthen := openIn_pos (hopen [step] after rfl) hdir
    have hrest := ih (hs.apply step hstep) hafter fun mid rest heq => hopen (step :: mid) rest (by rw [heq]; rfl)
    exact hrest.trans (hs.apply_heard step hstep hnow hthen)

/-- What a window is told when it opens a file, that its changes will be heard or that they will not, holds for as long as
some window has the file open. -/
theorem answer_holds (paths : Paths P) (before after : List (Step P L K)) (label : L) (path : P) (known : K) (a : Attempt)
    (h : EveryStep (apply paths) .empty (before ++ .watch label path known a :: after) (InFolder paths))
    (hopen : ∀ mid rest, after = mid ++ rest →
      path ∈ (run (apply paths) .empty (before ++ .watch label path known a :: mid)).files) :
    ((run (apply paths) .empty before).watch paths label path known a).2 = true ↔
      ∃ dir, paths.parent path = some dir ∧
        Heard paths (run (apply paths) .empty (before ++ .watch label path known a :: after)) dir := by
  obtain ⟨hbefore, hrest⟩ := everyStep_append.mp h
  obtain ⟨hstep, hafter⟩ := everyStep_cons.mp hrest
  have hs := sound_run hbefore Sound.empty
  obtain ⟨hnow, hanswer, -⟩ := hs.watch label hstep known a
  rw [hanswer, run_append, run_cons]
  refine exists_congr fun dir => and_congr_right fun hdir => ?_
  refine (heard_run hnow hafter hdir fun mid rest heq => ?_).symm
  have hin := hopen mid rest heq
  rwa [run_append, run_cons] at hin

theorem answer_holds_sample :
    ∃ s : State ℕ ℕ ℕ, ∃ dir, tens.parent 11 = some dir ∧ Heard tens s dir := by
  refine ⟨_, (answer_holds tens [.watch 2 11 0 ⟨true, true, true⟩] [.unwatch 2 11] 1 11 0 ⟨true, true, true⟩
    (fun _ step _ _ => inFolder_tens _ step) fun mid rest heq => ?_).mp rfl⟩
  rcases List.append_eq_singleton_iff.mp heq.symm with ⟨rfl, -⟩ | ⟨rfl, -⟩ <;> decide

/-! ## What a window has seen -/

/-- `known` -/
def State.known (s : State P L K) (label : L) (path : P) : Option K := (s.files.lookup path).bind fun labels => labels.lookup label

/-- The hash of a file that a window saw last: it says which it read or wrote, or is told of a change. -/
def seen (label : L) (path : P) (s : State P L K) (last : Option K) : Step P L K → Option K
  | .watch l p known _ => if p = path ∧ l = label then some known else last
  | .setKnown l p known => if p = path ∧ l = label ∧ last.isSome = true then some known else last
  | .unwatch l p => if p = path ∧ l = label then none else last
  | .unwatchLabel l => if l = label then none else last
  | .flush p now => if p = path ∧ label ∈ (s.flush p now).2 then some now else last
  | .stopAll => none

def seenRun (paths : Paths P) (label : L) (path : P) : State P L K → Option K → List (Step P L K) → Option K
  | _, last, [] => last
  | s, last, step :: steps => seenRun paths label path (apply paths step s) (seen label path s last step) steps

omit [DecidableEq K] in
theorem known_insert {files : Dict P (Dict L K)} (p : P) (labels : Dict L K) (label : L) (path : P)
    (hs : s.files = files.insert p labels) :
    s.known label path = if path = p then labels.lookup label else (files.lookup path).bind fun ls => ls.lookup label := by
  unfold State.known
  rw [hs, lookup_insert_eq]
  split <;> rfl

omit [DecidableEq K] in
theorem watch_files (label : L) (path : P) (known : K) (a : Attempt) : (s.watch paths label path known a).1.files =
    s.files.insert path (((s.files.lookup path).getD ∅).insert label known) := by
  unfold State.watch
  dsimp only
  cases paths.parent path with
  | none => rfl
  | some dir =>
    dsimp only
    split
    · rfl
    · split
      · rfl
      · split
        · exact watchDir_spec dir a |>.1
        · exact watchDir_spec dir a |>.1

omit [DecidableEq K] in
theorem known_watch (l : L) (p : P) (known : K) (a : Attempt) (label : L) (path : P) :
    (s.watch paths l p known a).1.known label path = if p = path ∧ l = label then some known else s.known label path := by
  rw [known_insert p _ label path (watch_files l p known a), lookup_insert_eq]
  by_cases hp : path = p
  · subst hp
    by_cases hl : label = l
    · simp [hl]
    · have hne : ¬ l = label := fun heq => hl heq.symm
      unfold State.known
      cases s.files.lookup path <;> simp [hl, hne]
  · have hne : ¬ p = path := fun heq => hp heq.symm
    rw [if_neg hp, if_neg fun h => hne h.1]
    rfl

omit [DecidableEq K] in
theorem setKnown_files (l : L) (p : P) (known : K) : (s.setKnown l p known).files =
    if (s.known l p).isSome = true then s.files.insert p (((s.files.lookup p).getD ∅).insert l known) else s.files := by
  unfold State.setKnown State.known
  cases s.files.lookup p with
  | none => rfl
  | some labels =>
    change (if (labels.lookup l).isSome = true then _ else s).files = if (labels.lookup l).isSome = true then _ else s.files
    split <;> rfl

omit [DecidableEq K] in
theorem known_setKnown (l : L) (p : P) (known : K) (label : L) (path : P) : (s.setKnown l p known).known label path =
    if p = path ∧ l = label ∧ (s.known label path).isSome = true then some known else s.known label path := by
  by_cases hsome : (s.known l p).isSome = true
  · have hfiles := setKnown_files l p known (s := s)
    rw [if_pos hsome] at hfiles
    have hadded : (s.watch ⟨fun _ => none, fun _ => false⟩ l p known ⟨false, false, false⟩).1.files = _ := watch_files l p known _
    have hwatched : (s.setKnown l p known).known label path = if p = path ∧ l = label then some known else s.known label path :=
      (known_insert p _ label path hfiles).trans
        ((known_insert p _ label path hadded).symm.trans (known_watch l p known ⟨false, false, false⟩ label path))
    rw [hwatched]
    refine if_congr ⟨?_, fun h => ⟨h.1, h.2.1⟩⟩ rfl rfl
    rintro ⟨rfl, rfl⟩
    exact ⟨rfl, rfl, hsome⟩
  · have hsame : s.setKnown l p known = s := by
      unfold State.known at hsome
      unfold State.setKnown
      cases hlabels : s.files.lookup p with
      | none => rfl
      | some labels =>
        rw [hlabels] at hsome
        exact if_neg hsome
    rw [hsame, if_neg]
    rintro ⟨rfl, rfl, h⟩
    exact hsome h

omit [DecidableEq K] in
theorem known_unwatch (l : L) (p : P) (label : L) (path : P) : (s.unwatch paths l p).known label path =
    if p = path ∧ l = label then none else s.known label path := by
  unfold State.known
  rw [unwatch_files]
  cases hlabels : s.files.lookup p with
  | none =>
    by_cases hp : p = path
    · rw [← hp, hlabels]
      simp
    · rw [if_neg fun h => hp h.1]
  | some labels =>
    dsimp only
    by_cases hp : p = path
    · subst hp
      rw [hlabels]
      have herase : ∀ l', (labels.erase l).lookup l' = if l' = l then none else labels.lookup l' := lookup_erase_eq _ _
      have hsame : ((if (labels.erase l).keys ≠ [] then s.files.insert p (labels.erase l) else s.files.erase p).lookup p).bind
          (fun ls => ls.lookup label) = (labels.erase l).lookup label := by
        by_cases hlast : (labels.erase l).keys = []
        · have hnil : labels.erase l = ∅ := AList.ext (List.map_eq_nil_iff.mp hlast)
          rw [if_neg (not_not_intro hlast), AList.lookup_erase, hnil]
          rfl
        · rw [if_pos hlast, AList.lookup_insert]
          rfl
      rw [hsame, herase]
      by_cases hl : label = l
      · simp [hl]
      · have hne : ¬ l = label := fun heq => hl heq.symm
        simp [hl, hne]
    · have hne : path ≠ p := fun heq => hp heq.symm
      have hnot : ¬ (p = path ∧ l = label) := fun h => hp h.1
      rw [if_neg hnot]
      split
      · rw [AList.lookup_insert_ne hne]
      · rw [AList.lookup_erase_ne hne]

omit [DecidableEq K] in
theorem known_unwatchAll (l : L) (ps : List P) (label : L) (path : P) :
    (State.unwatchAll paths l ps s).known label path = if path ∈ ps ∧ l = label then none else s.known label path := by
  induction ps generalizing s with
  | nil => simp [State.unwatchAll]
  | cons p rest ih =>
    change (State.unwatchAll paths l rest (s.unwatch paths l p)).known label path = _
    rw [ih, known_unwatch]
    by_cases hp : p = path
    · by_cases hl : l = label <;> simp [hp, hl]
    · have hne : ¬ path = p := fun heq => hp heq.symm
      simp [hp, hne]

omit [DecidableEq K] in
theorem known_unwatchLabel (l : L) (label : L) (path : P) :
    (s.unwatchLabel paths l).known label path = if l = label then none else s.known label path := by
  unfold State.unwatchLabel
  rw [known_unwatchAll]
  by_cases hl : l = label
  · subst hl
    rw [if_pos rfl]
    split
    · rfl
    · rename_i hnot
      unfold State.known
      cases hlabels : s.files.lookup path with
      | none => rfl
      | some labels =>
        cases hlast : labels.lookup l with
        | none => exact hlast
        | some last =>
          refine absurd ⟨?_, rfl⟩ hnot
          refine List.mem_map.mpr ⟨⟨path, labels⟩, List.mem_filter.mpr ⟨mem_entries.mpr hlabels, ?_⟩, rfl⟩
          rw [hlast]
          rfl
  · rw [if_neg fun h => hl h.2, if_neg hl]

/-- Whoever last saw something else is told. -/
theorem mem_told (p : P) (now : K) (label : L) : label ∈ (s.flush p now).2 ↔ ∃ last, s.known label p = some last ∧ last ≠ now := by
  unfold State.flush State.known
  cases s.files.lookup p with
  | none => simp
  | some labels =>
    change label ∈ (labels.entries.filter fun e => decide (e.2 ≠ now)).map Sigma.fst ↔ ∃ last, labels.lookup label = some last ∧ _
    rw [List.mem_map]
    constructor
    · rintro ⟨⟨l, last⟩, hin, rfl⟩
      obtain ⟨hentry, hother⟩ := List.mem_filter.mp hin
      exact ⟨last, mem_entries.mp hentry, of_decide_eq_true hother⟩
    · rintro ⟨last, hlast, hother⟩
      exact ⟨⟨label, last⟩, List.mem_filter.mpr ⟨mem_entries.mpr hlast, decide_eq_true hother⟩, rfl⟩

theorem known_flush (p : P) (now : K) (label : L) (path : P) : (s.flush p now).1.known label path =
    if p = path ∧ label ∈ (s.flush p now).2 then some now else s.known label path := by
  have hflush : (s.flush p now).1.known label path =
      if path = p then (s.known label path).map (fun _ => now) else s.known label path := by
    unfold State.flush
    cases hlabels : s.files.lookup p with
    | none =>
      change s.known label path = _
      by_cases hp : path = p
      · rw [if_pos hp]
        unfold State.known
        rw [hp, hlabels]
        rfl
      · rw [if_neg hp]
    | some labels =>
      rw [known_insert p (mapValues (fun _ => now) labels) label path rfl]
      split
      · rename_i hp
        unfold State.known
        rw [hp, hlabels, lookup_mapValues]
        rfl
      · rfl
  rw [hflush, if_congr (and_congr_right fun _ => mem_told p now label) rfl rfl]
  by_cases hp : p = path
  · rw [← hp, if_pos rfl]
    cases s.known label p with
    | none => simp
    | some last =>
      by_cases hlast : last = now <;> simp [hlast]
  · have hne : ¬ path = p := fun heq => hp heq.symm
    rw [if_neg hne, if_neg fun h => hp h.1]

theorem known_apply (label : L) (path : P) (step : Step P L K) :
    (apply paths step s).known label path = seen label path s (s.known label path) step := by
  cases step with
  | watch l p known a => exact known_watch l p known a label path
  | setKnown l p known => exact known_setKnown l p known label path
  | unwatch l p => exact known_unwatch l p label path
  | unwatchLabel l => exact known_unwatchLabel l label path
  | flush p now => exact known_flush p now label path
  | stopAll => rfl

theorem known_run (label : L) (path : P) (steps : List (Step P L K)) :
    (run (apply paths) s steps).known label path = seenRun paths label path s (s.known label path) steps := by
  induction steps generalizing s with
  | nil => rfl
  | cons step steps ih =>
    rw [run_cons, ih, known_apply]
    rfl

omit [DecidableEq L] in
theorem told_nodup (p : P) (now : K) : (s.flush p now).2.Nodup := by
  unfold State.flush
  cases s.files.lookup p with
  | none => exact List.nodup_nil
  | some labels => exact (List.filter_sublist.map Sigma.fst).nodup labels.keys_nodup

/-- At any moment of any run, a window is told that a file has changed exactly if what it saw of it last, read, wrote or was
told, is something else; and it is told once. -/
theorem told_what_is_new (paths : Paths P) (steps : List (Step P L K)) (path : P) (now : K) (label : L) :
    ((run (apply paths) .empty steps).flush path now).2.count label =
      if (seenRun paths label path .empty none steps).all (fun last => last = now) = true then 0 else 1 := by
  have hknown : (run (apply paths) .empty steps).known label path = seenRun paths label path .empty none steps :=
    known_run label path steps
  rw [← hknown, (told_nodup path now).count]
  generalize run (apply paths) .empty steps = s
  by_cases hin : label ∈ (s.flush path now).2
  · obtain ⟨last, hlast, hother⟩ := (mem_told path now label).mp hin
    rw [if_pos hin, hlast, if_neg]
    simp [hother]
  · rw [if_neg hin]
    rw [mem_told] at hin
    cases hlast : s.known label path with
    | none => rfl
    | some last =>
      have hsame : last = now := by
        by_contra hother
        exact hin ⟨last, hlast, hother⟩
      simp [hsame]

end

end Haruspex.Editor.Watches
