import Haruspex.Sandbox.FolderSeen

/-! Runs of syncs, with changes of the folder and new workers between them. -/
namespace Haruspex.Sandbox
set_option autoImplicit false

variable {Time : Type} {json : HeaderJson Time} {clock : Clock Time} {caps : Caps} {folder first : Folder Time}
  {known : Known Time} {s : State Time} {version : String → Time → Bytes → Prop}

/-! ## Runs in which syncs do not meet -/

/-- An answer comes while what was known when it was asked for still is, and nothing is on its way to the
worker; the caps carry what the worker has with other bytes. No sync fails after it has written. -/
def Undisturbed (clock : Clock Time) (caps : Caps) (s : State Time) : Event Time → Prop
  | .answer k readable => readable = true → ∀ known ∈ s.requests[k]?,
      known = s.syncedFiles ∧ s.posted = [] ∧ Carried clock caps s.folder s.syncedFiles s.files
  | .handle .failed => s.posted = []
  | _ => True

instance [DecidableEq Time] : DecidablePred (Undisturbed clock caps s)
  | .answer k readable => inferInstanceAs (Decidable (readable = true → ∀ known ∈ s.requests[k]?,
      known = s.syncedFiles ∧ s.posted = [] ∧ Carried clock caps s.folder s.syncedFiles s.files))
  | .handle .failed => inferInstanceAs (Decidable (s.posted = []))
  | .handle .acked | .handle .refused | .change _ | .request | .respawn => .isTrue trivial

/-- Every event of a run is undisturbed. -/
def Calm (json : HeaderJson Time) (clock : Clock Time) (caps : Caps) : State Time → List (Event Time) → Prop
  | _, [] => True
  | s, event :: events => Undisturbed clock caps s event ∧ Calm json clock caps (step json clock caps s event) events

instance instDecidableCalm [DecidableEq Time] : ∀ s events, Decidable (Calm json clock caps s events)
  | _, [] => .isTrue trivial
  | s, event :: events =>
    have := instDecidableCalm (step json clock caps s event) events
    inferInstanceAs (Decidable (Undisturbed clock caps s event ∧ Calm json clock caps (step json clock caps s event) events))

/-- The folders of a run. -/
def foldersOf (first : Folder Time) (events : List (Event Time)) : List (Folder Time) :=
  first :: events.filterMap fun
    | .change folder => some folder
    | _ => none

/-- The versions of the files that some folders have. -/
def versionsOf (folders : List (Folder Time)) (p : String) (t : Time) (bytes : Bytes) : Prop :=
  ∃ folder ∈ folders, ∃ f ∈ folder.files, f.path = p ∧ f.mtime = t ∧ f.bytes = bytes

/-- The worker has what is known, and at most one sync is on its way to it, read against that. -/
structure Good (clock : Clock Time) (caps : Caps) (version : String → Time → Bytes → Prop) (s : State Time) :
    Prop where
  mirrors : Mirrors version s.files s.syncedFiles
  holds : Holds version s.folder
  posted : ∀ sync ∈ s.posted, s.posted = [sync] ∧ Holds version sync.folder ∧
    sync.result = syncWorkdir clock caps sync.folder s.syncedFiles ∧
    Carried clock caps sync.folder s.syncedFiles s.files

theorem answer_cases (json : HeaderJson Time) (clock : Clock Time) (caps : Caps) (s : State Time)
    (known : Known Time) :
    answer json clock caps s known = s ∨
      answer json clock caps s known =
        { s with posted := s.posted ++ [⟨s.folder, syncWorkdir clock caps s.folder known⟩] } := by
  unfold answer
  cases hencode : encodeSync json (syncWorkdir clock caps s.folder known) with
  | error message => exact .inl rfl
  | ok body =>
    dsimp only
    rw [decodeSyncBody_encodeSync json hencode]
    dsimp only
    split
    · exact .inl rfl
    · exact .inr rfl

theorem good_step (hgood : Good clock caps version s) {event : Event Time}
    (hchange : ∀ folder, event = .change folder → Holds version folder)
    (hcalm : Undisturbed clock caps s event) : Good clock caps version (step json clock caps s event) := by
  cases event with
  | change folder => exact ⟨hgood.mirrors, hchange folder rfl, hgood.posted⟩
  | request => exact ⟨hgood.mirrors, hgood.holds, hgood.posted⟩
  | answer k readable =>
    unfold step
    dsimp only
    cases hrequest : s.requests[k]? with
    | none => exact hgood
    | some known =>
      dsimp only
      split
      · rename_i hreadable
        obtain ⟨hknown, hposted, hcarried⟩ := hcalm hreadable known hrequest
        obtain hsame | hsent := answer_cases json clock caps { s with requests := s.requests.eraseIdx k } known
        · rw [hsame]
          exact ⟨hgood.mirrors, hgood.holds, hgood.posted⟩
        · rw [hsent]
          refine ⟨hgood.mirrors, hgood.holds, fun sync hsync => ?_⟩
          dsimp only at hsync ⊢
          rw [hposted, List.nil_append, List.mem_singleton] at hsync
          rw [hposted, hsync, ← hknown]
          exact ⟨rfl, hgood.holds, rfl, hknown ▸ hcarried⟩
      · exact ⟨hgood.mirrors, hgood.holds, hgood.posted⟩
  | handle outcome =>
    unfold step
    cases hposted : s.posted with
    | nil => exact hgood
    | cons sync rest =>
      obtain ⟨hone, hholds, hresult, -⟩ := hgood.posted sync (by rw [hposted]; exact List.mem_cons_self)
      rw [hposted, List.cons.injEq] at hone
      cases outcome with
      | acked =>
        refine ⟨?_, hgood.holds, fun other hother => ?_⟩
        · dsimp only
          rw [hresult]
          exact hgood.mirrors.note hholds
        · dsimp only at hother
          rw [hone.2] at hother
          cases hother
      | refused =>
        refine ⟨hgood.mirrors, hgood.holds, fun other hother => ?_⟩
        dsimp only at hother
        rw [hone.2] at hother
        cases hother
      | failed =>
        have hnone : s.posted = [] := hcalm
        rw [hposted] at hnone
        cases hnone
  | respawn =>
    exact ⟨mirrors_empty version, hgood.holds, List.forall_mem_nil _⟩

theorem good_start (hholds : Holds version first) : Good clock caps version (start first) := by
  exact ⟨mirrors_empty version, hholds, List.forall_mem_nil _⟩

theorem good_run {events : List (Event Time)} (hgood : Good clock caps version s)
    (hchanges : ∀ folder, .change folder ∈ events → Holds version folder) (hcalm : Calm json clock caps s events) :
    Good clock caps version (run json clock caps s events) := by
  induction events generalizing s with
  | nil => exact hgood
  | cons event events ih =>
    refine ih (good_step hgood (fun folder heq => hchanges folder ?_) hcalm.1) (fun folder hmem =>
      hchanges folder (List.mem_cons_of_mem event hmem)) hcalm.2
    rw [heq]
    exact List.mem_cons_self

theorem calm_append {front back : List (Event Time)} (h : Calm json clock caps s (front ++ back)) :
    Calm json clock caps s front := by
  induction front generalizing s with
  | nil => trivial
  | cons event front ih => exact ⟨h.1, ih h.2⟩

theorem holds_of_mem {folders : List (Folder Time)} (h : folder ∈ folders) : Holds (versionsOf folders) folder :=
  fun f hf => ⟨folder, h, f, hf, rfl, rfl, rfl⟩

theorem mem_foldersOf {events : List (Event Time)} (h : .change folder ∈ events) :
    folder ∈ foldersOf first events :=
  List.mem_cons_of_mem first (List.mem_filterMap.mpr ⟨_, h, rfl⟩)

/-- After every sync that is acknowledged in a calm run, Python sees the folder as the sync read it. -/
theorem sees_of_calm {front back : List (Event Time)} {sync : Posted Time} {rest : List (Posted Time)}
    (hstamped : Stamped clock (versionsOf (foldersOf first (front ++ .handle .acked :: back))))
    (hcalm : Calm json clock caps (start first) (front ++ .handle .acked :: back))
    (hposted : (run json clock caps (start first) front).posted = sync :: rest) :
    Sees sync.folder sync.result.skipped
      (run json clock caps (start first) (front ++ [.handle .acked])).files := by
  have hgood := good_run (good_start (holds_of_mem List.mem_cons_self))
    (fun folder hmem => holds_of_mem (mem_foldersOf (List.mem_append_left (.handle .acked :: back) hmem)))
    (calm_append hcalm)
  obtain ⟨-, hholds, hresult, hcarried⟩ := hgood.posted sync (by rw [hposted]; exact List.mem_cons_self)
  have hfiles : (run json clock caps (start first) (front ++ [.handle .acked])).files =
      sync.result.write (run json clock caps (start first) front).files := by
    rw [run, List.foldl_append]
    change (step json clock caps (run json clock caps (start first) front) (.handle .acked)).files = _
    unfold step
    rw [hposted]
  rw [hfiles, hresult]
  exact (sees_iff hgood.mirrors hstamped hholds).mpr hcarried

/-! ## Syncs of a folder that stays as it is -/

/-- A sync that nothing comes between. -/
def round : List (Event Time) := [.request, .answer 0 true, .handle .acked]

theorem run_append (s : State Time) (front back : List (Event Time)) :
    run json clock caps s (front ++ back) = run json clock caps (run json clock caps s front) back :=
  List.foldl_append

theorem note_of_nothing {r : SyncResult Time} (hsync : r.toSync = []) (hdeleted : r.deleted = []) :
    r.note known = known := by
  rw [SyncResult.note, hsync, hdeleted]
  rfl

theorem run_round (hposted : s.posted = []) (hrequests : s.requests = []) {body : Bytes}
    (hencode : encodeSync json (syncWorkdir clock caps s.folder s.syncedFiles) = .ok body) :
    let s' := run json clock caps s round
    s'.folder = s.folder ∧ s'.posted = [] ∧ s'.requests = [] ∧
      s'.syncedFiles = (syncWorkdir clock caps s.folder s.syncedFiles).note s.syncedFiles := by
  have hrun : run json clock caps s round = step json clock caps (answer json clock caps s s.syncedFiles)
      (.handle .acked) := by
    simp only [run, round, List.foldl_cons, List.foldl_nil, step, hrequests, List.nil_append,
      List.getElem?_cons_zero, List.eraseIdx_cons_zero, if_true]
    rw [← hrequests]
  intro s'
  change (run json clock caps s round).folder = _ ∧ (run json clock caps s round).posted = _ ∧
    (run json clock caps s round).requests = _ ∧ (run json clock caps s round).syncedFiles = _
  rw [hrun]
  unfold answer
  rw [hencode]
  dsimp only
  rw [decodeSyncBody_encodeSync json hencode]
  dsimp only
  split
  · rename_i hnothing
    have hnote := @note_of_nothing _ s.syncedFiles _ (List.isEmpty_iff.mp hnothing.1) (List.isEmpty_iff.mp hnothing.2.1)
    rw [hnote]
    unfold step
    rw [hposted]
    exact ⟨rfl, hposted, hrequests, rfl⟩
  · unfold step
    rw [hposted]
    exact ⟨rfl, rfl, hrequests, rfl⟩

end Haruspex.Sandbox

/-! A folder that stays as it is: syncs that nothing comes between leave nothing skipped in the end. -/
namespace Haruspex.Sandbox
set_option autoImplicit false

variable {Time : Type} {json : HeaderJson Time} {clock : Clock Time} {caps : Caps} {folder : Folder Time}
  {known : Known Time} {s : State Time}

/-! ## What is left to sync -/

def changed (clock : Clock Time) (known : Known Time) (f : SyncFile Time) : Bool := !unchanged clock known f

/-- The number of files that are not synced as they are. -/
def left (clock : Clock Time) (folder : Folder Time) (known : Known Time) : ℕ :=
  folder.files.countP (changed clock known)

theorem left_le (clock : Clock Time) (folder : Folder Time) (known : Known Time) :
    left clock folder known ≤ folder.files.length := List.countP_le_length

/-- Each file is within the per-file cap, and this within the per-run cap. -/
def WithinCaps (caps : Caps) (folder : Folder Time) : Prop :=
  caps.perFile ≤ caps.perRun ∧ ∀ f ∈ folder.files, f.bytes.length ≤ caps.perFile

/-- With nothing left to sync, a scan passes every file by. -/
theorem scan_of_unchanged {scanned : List (SyncFile Time)} (hfit : ∀ f ∈ scanned, f.bytes.length ≤ caps.perFile)
    (h : ∀ f ∈ scanned, unchanged clock known f = true) (scan : Scan Time) :
    scanned.foldl (scanFile clock caps known) scan = scan := by
  induction scanned generalizing scan with
  | nil => rfl
  | cons f scanned ih =>
    have hf := hfit f List.mem_cons_self
    have hsame : scanFile clock caps known scan f = scan := by
      unfold scanFile
      rw [if_neg (by omega), if_pos (h f List.mem_cons_self)]
    rw [List.foldl_cons, hsame]
    exact ih (fun g hg => hfit g (List.mem_cons_of_mem f hg)) (fun g hg => h g (List.mem_cons_of_mem f hg)) scan

theorem skipped_of_left_eq_zero (hcaps : WithinCaps caps folder) (h : left clock folder known = 0) :
    (syncWorkdir clock caps folder known).skipped = [] := by
  have hall : ∀ f ∈ folder.files, unchanged clock known f = true := by
    intro f hf
    have hnot := List.countP_eq_zero.mp h f hf
    simpa [changed] using hnot
  unfold syncWorkdir
  dsimp only
  rw [scan_of_unchanged hcaps.2 hall]

/-- After a sync, what was synced before or is sent by it is synced. -/
theorem unchanged_note {f : SyncFile Time} (hf : f ∈ folder.files)
    (h : unchanged clock known f = true ∨ f ∈ (syncWorkdir clock caps folder known).toSync) :
    unchanged clock ((syncWorkdir clock caps folder known).note known) f = true := by
  obtain ⟨kept, -, hsub, -, -, -, -⟩ := syncWorkdir_spec clock caps folder known
  obtain ⟨hsent, -, huntouched⟩ := @overwrite_sync _ clock caps folder known _ SyncFile.mtime (fun q => known.lookup q)
  unfold unchanged
  rw [lookup_note]
  by_cases hmem : f ∈ (syncWorkdir clock caps folder known).toSync
  · rw [hsent f hmem]
    exact clock.near_self f.mtime
  · have hpath : f.path ∉ (syncWorkdir clock caps folder known).toSync.map SyncFile.path := by
      intro hpath
      obtain ⟨g, hg, heq⟩ := List.mem_map.mp hpath
      exact hmem (Folder.eq_of_path (hsub.subset hg) hf heq ▸ hg)
    rw [huntouched f.path hpath (not_mem_deleted hf)]
    obtain hsame | hsync := h
    · unfold unchanged at hsame
      exact hsame
    · exact absurd hsync hmem

theorem countP_lt_countP {α : Type} {p q : α → Bool} {l : List α} (h : ∀ a ∈ l, p a = true → q a = true) {a : α}
    (ha : a ∈ l) (hq : q a = true) (hp : p a = false) : l.countP p < l.countP q := by
  induction l with
  | nil => cases ha
  | cons b l ih =>
    have hb := h b List.mem_cons_self
    have hrest : l.countP p ≤ l.countP q :=
      List.countP_mono_left fun c hc => h c (List.mem_cons_of_mem b hc)
    rw [List.countP_cons, List.countP_cons]
    obtain rfl | hmem := List.mem_cons.mp ha
    · simp only [hq, hp, if_true, Bool.false_eq_true, if_false]
      omega
    · have hlt := ih (fun c hc => h c (List.mem_cons_of_mem b hc)) hmem
      by_cases hpb : p b = true
      · simp only [hpb, hb hpb, if_true]
        omega
      · simp only [hpb, Bool.false_eq_true, if_false]
        omega

/-- Each sync sends one of the files that are left, if any is. -/
theorem left_note_lt (hcaps : WithinCaps caps folder) (h : 0 < left clock folder known) :
    left clock folder ((syncWorkdir clock caps folder known).note known) < left clock folder known := by
  obtain ⟨kept, -, hsub, -, -, -, hfits⟩ := syncWorkdir_spec clock caps folder known
  have hkeeps : ∀ f ∈ folder.files, changed clock ((syncWorkdir clock caps folder known).note known) f = true →
      changed clock known f = true := by
    intro f hf hchanged
    by_contra hsame
    have hnoted : unchanged clock ((syncWorkdir clock caps folder known).note known) f = true :=
      unchanged_note hf (.inl (by simpa [changed] using hsame))
    simp [changed, hnoted] at hchanged
  obtain ⟨g, hg, hgdue⟩ := List.countP_pos_iff.mp h
  have hdue : due clock caps known g = true := by
    have hsize := hcaps.2 g hg
    simpa [due, changed, hsize] using hgdue
  -- the first file that is due always fits
  cases hfilter : folder.files.filter (due clock caps known) with
  | nil =>
    have hmem : g ∈ folder.files.filter (due clock caps known) := List.mem_filter.mpr ⟨hg, hdue⟩
    rw [hfilter] at hmem
    cases hmem
  | cons f fs =>
    have hmem : f ∈ folder.files.filter (due clock caps known) := by
      rw [hfilter]
      exact List.mem_cons_self
    obtain ⟨hf, hfdue⟩ := List.mem_filter.mp hmem
    have hsize : f.bytes.length ≤ caps.perRun := le_trans (hcaps.2 f hf) hcaps.1
    have hsent : f ∈ (syncWorkdir clock caps folder known).toSync := by
      rw [hfits, hfilter, fitting, if_pos hsize]
      exact List.mem_cons_self
    refine countP_lt_countP hkeeps hf ?_ ?_
    · have hchanged : f.bytes.length ≤ caps.perFile ∧ unchanged clock known f = false := by
        simpa [due] using hfdue
      simp [changed, hchanged.2]
    · simp [changed, unchanged_note hf (.inr hsent)]

/-! ## Round after round -/

/-- No header that a sync of a folder can have is too large. -/
def Encodes (json : HeaderJson Time) (clock : Clock Time) (caps : Caps) (folder : Folder Time) : Prop :=
  ∀ known, ∃ body, encodeSync json (syncWorkdir clock caps folder known) = .ok body

def rounds (n : ℕ) : List (Event Time) := (List.replicate n round).flatten

theorem rounds_succ (n : ℕ) : (rounds (n + 1) : List (Event Time)) = round ++ rounds n := by
  unfold rounds
  rw [List.replicate_succ, List.flatten_cons]

/-- A quiet worker after some rounds: the folder is the same, and each round left less. -/
theorem run_rounds (n : ℕ) (hposted : s.posted = []) (hrequests : s.requests = [])
    (hcaps : WithinCaps caps s.folder) (hencodes : Encodes json clock caps s.folder) :
    (run json clock caps s (rounds n)).folder = s.folder ∧
      left clock s.folder (run json clock caps s (rounds n)).syncedFiles ≤
        left clock s.folder s.syncedFiles - n := by
  induction n generalizing s with
  | zero => exact ⟨rfl, le_rfl⟩
  | succ n ih =>
    obtain ⟨body, hbody⟩ := hencodes s.syncedFiles
    obtain ⟨hfolder, hposted', hrequests', hsynced⟩ := run_round hposted hrequests hbody
    obtain ⟨hsame, hleft⟩ := ih hposted' hrequests' (by rw [hfolder]; exact hcaps) (by rw [hfolder]; exact hencodes)
    rw [rounds_succ, run_append]
    rw [hfolder] at hsame hleft
    refine ⟨hsame, le_trans hleft ?_⟩
    rw [hsynced]
    obtain hzero | hpos := Nat.eq_zero_or_pos (left clock s.folder s.syncedFiles)
    · have hnote : left clock s.folder ((syncWorkdir clock caps s.folder s.syncedFiles).note s.syncedFiles) = 0 := by
        refine List.countP_eq_zero.mpr fun f hf hchanged => ?_
        have hnot := List.countP_eq_zero.mp hzero f hf
        have hnoted : unchanged clock ((syncWorkdir clock caps s.folder s.syncedFiles).note s.syncedFiles) f =
            true := unchanged_note hf (.inl (by simpa [changed] using hnot))
        simp [changed, hnoted] at hchanged
      omega
    · have hlt := left_note_lt hcaps hpos
      omega

/-- In the end nothing is skipped. -/
theorem skipped_of_rounds {n : ℕ} (hn : s.folder.files.length ≤ n) (hposted : s.posted = [])
    (hrequests : s.requests = []) (hcaps : WithinCaps caps s.folder)
    (hencodes : Encodes json clock caps s.folder) :
    (syncWorkdir clock caps s.folder (run json clock caps s (rounds n)).syncedFiles).skipped = [] := by
  obtain ⟨-, hleft⟩ := run_rounds n hposted hrequests hcaps hencodes
  have hbound := left_le clock s.folder s.syncedFiles
  exact skipped_of_left_eq_zero hcaps (by omega)

end Haruspex.Sandbox
