import Haruspex.Sandbox.WorkdirSync
import Mathlib.Data.List.Nodup

/-! What Python sees of the folder: what a sync leaves in the worker, and what runs of syncs keep. -/
namespace Haruspex.Sandbox
set_option autoImplicit false

variable {Time : Type} {json : HeaderJson Time} {clock : Clock Time} {caps : Caps} {folder : Folder Time}
  {known : Known Time} {files : String → Option Bytes} {s : State Time}

/-! ## What a sync is to bring about -/

/-- Each file of the folder is there with its bytes, unless it is skipped; then it is not there with others.
No other file is there. -/
structure Sees (folder : Folder Time) (skipped : List SyncSkipped) (files : String → Option Bytes) : Prop where
  current : ∀ f ∈ folder.files, f.path ∉ skipped.map SyncSkipped.path → files f.path = some f.bytes
  gone : ∀ p ∉ folder.files.map SyncFile.path, files p = none
  stale : ∀ f ∈ folder.files, f.path ∈ skipped.map SyncSkipped.path →
    files f.path = none ∨ files f.path = some f.bytes

/-- Of some files in order, those that still fit in a budget. -/
def fitting (budget : ℕ) : List (SyncFile Time) → List (SyncFile Time)
  | [] => []
  | f :: fs => if f.bytes.length ≤ budget then f :: fitting (budget - f.bytes.length) fs else fitting budget fs

/-- A file that is small enough, and not synced as it is. -/
def due (clock : Clock Time) (caps : Caps) (known : Known Time) (f : SyncFile Time) : Bool :=
  f.bytes.length ≤ caps.perFile ∧ unchanged clock known f = false

/-- The caps let through every file that the worker has with other bytes. -/
def Carried (clock : Clock Time) (caps : Caps) (folder : Folder Time) (known : Known Time)
    (files : String → Option Bytes) : Prop :=
  ∀ f ∈ folder.files, ∀ bytes ∈ files f.path, bytes ≠ f.bytes →
    f ∈ fitting caps.perRun (folder.files.filter (due clock caps known))

instance [DecidableEq Time] : Decidable (Carried clock caps folder known files) :=
  inferInstanceAs (Decidable (∀ f ∈ folder.files, ∀ bytes ∈ files f.path, bytes ≠ f.bytes →
    f ∈ fitting caps.perRun (folder.files.filter (due clock caps known))))

/-! ## What a sync says -/

/-- The files of a scan, split: sent, kept back, or unchanged. -/
theorem scan_spec (scanned : List (SyncFile Time)) (hnodup : (scanned.map SyncFile.path).Nodup)
    (scan : Scan Time) :
    ∃ sent kept : List (SyncFile Time),
      (scanned.foldl (scanFile clock caps known) scan).toSync = scan.toSync ++ sent ∧
      (scanned.foldl (scanFile clock caps known) scan).skipped.map SyncSkipped.path =
        scan.skipped.map SyncSkipped.path ++ kept.map SyncFile.path ∧
      sent.Sublist scanned ∧ kept.Sublist scanned ∧
      (∀ f ∈ scanned, f ∈ sent ∨ f ∈ kept ∨ unchanged clock known f = true) ∧ (∀ f ∈ kept, f ∉ sent) ∧
      (scan.totalBytes ≤ caps.perRun →
        sent = fitting (caps.perRun - scan.totalBytes) (scanned.filter (due clock caps known))) := by
  induction scanned generalizing scan with
  | nil => exact ⟨[], [], by simp [fitting]⟩
  | cons f scanned ih =>
    rw [List.map_cons, List.nodup_cons] at hnodup
    have hnew : f ∉ scanned := fun hmem => hnodup.1 (List.mem_map_of_mem hmem)
    obtain ⟨sent, kept, hsent, hkept, hsub, hsub', hall, hapart, hfits⟩ :=
      ih hnodup.2 (scanFile clock caps known scan f)
    rw [List.foldl_cons]
    by_cases hover : caps.perFile < f.bytes.length
    · -- too large
      have hscan : scanFile clock caps known scan f =
          { scan with skipped := scan.skipped ++ [overFileCap caps f] } := by rw [scanFile, if_pos hover]
      rw [hscan] at hsent hkept hfits ⊢
      refine ⟨sent, f :: kept, hsent, ?_, hsub.cons f, hsub'.cons_cons f, ?_, ?_, fun htotal => ?_⟩
      · rw [hkept]
        simp [overFileCap]
      · intro g hg
        obtain rfl | hg := List.mem_cons.mp hg
        · exact .inr (.inl List.mem_cons_self)
        · obtain h | h | h := hall g hg
          · exact .inl h
          · exact .inr (.inl (List.mem_cons_of_mem f h))
          · exact .inr (.inr h)
      · intro g hg
        obtain rfl | hg := List.mem_cons.mp hg
        · exact fun hmem => hnew (hsub.subset hmem)
        · exact hapart g hg
      · rw [List.filter_cons_of_neg (by simp [due]; omega), hfits htotal]
    · by_cases hsame : unchanged clock known f
      · -- synced as it is
        have hscan : scanFile clock caps known scan f = scan := by
          rw [scanFile, if_neg hover, if_pos hsame]
        rw [hscan] at hsent hkept hfits ⊢
        refine ⟨sent, kept, hsent, hkept, hsub.cons f, hsub'.cons f, ?_, hapart, fun htotal => ?_⟩
        · intro g hg
          obtain rfl | hg := List.mem_cons.mp hg
          · exact .inr (.inr hsame)
          · exact hall g hg
        · rw [List.filter_cons_of_neg (by simp [due, hsame]), hfits htotal]
      · have hdue : due clock caps known f = true := by
          simp only [due, decide_eq_true_eq]
          exact ⟨by omega, by simpa using hsame⟩
        by_cases hbudget : caps.perRun < scan.totalBytes + f.bytes.length
        · -- no budget left for it
          have hscan : scanFile clock caps known scan f =
              { scan with skipped := scan.skipped ++ [overRunCap caps f] } := by
            rw [scanFile, if_neg hover, if_neg hsame, if_pos hbudget]
          rw [hscan] at hsent hkept hfits ⊢
          refine ⟨sent, f :: kept, hsent, ?_, hsub.cons f, hsub'.cons_cons f, ?_, ?_, fun htotal => ?_⟩
          · rw [hkept]
            simp [overRunCap]
          · intro g hg
            obtain rfl | hg := List.mem_cons.mp hg
            · exact .inr (.inl List.mem_cons_self)
            · obtain h | h | h := hall g hg
              · exact .inl h
              · exact .inr (.inl (List.mem_cons_of_mem f h))
              · exact .inr (.inr h)
          · intro g hg
            obtain rfl | hg := List.mem_cons.mp hg
            · exact fun hmem => hnew (hsub.subset hmem)
            · exact hapart g hg
          · rw [List.filter_cons_of_pos hdue, fitting, if_neg (by omega), hfits htotal]
        · -- sent
          have hscan : scanFile clock caps known scan f =
              { scan with
                toSync := scan.toSync ++ [f]
                totalBytes := scan.totalBytes + f.bytes.length } := by
            rw [scanFile, if_neg hover, if_neg hsame, if_neg hbudget]
          rw [hscan] at hsent hkept hfits ⊢
          refine ⟨f :: sent, kept, ?_, hkept, hsub.cons_cons f, hsub'.cons f, ?_, ?_, fun htotal => ?_⟩
          · rw [hsent]
            simp
          · intro g hg
            obtain rfl | hg := List.mem_cons.mp hg
            · exact .inl List.mem_cons_self
            · obtain h | h | h := hall g hg
              · exact .inl (List.mem_cons_of_mem f h)
              · exact .inr (.inl h)
              · exact .inr (.inr h)
          · intro g hg hmem
            obtain rfl | hmem := List.mem_cons.mp hmem
            · exact hnew (hsub'.subset hg)
            · exact hapart g hg hmem
          · have hbudget' := hfits (by dsimp only; omega)
            rw [List.filter_cons_of_pos hdue, fitting, if_pos (by omega), hbudget']
            congr 2
            dsimp only
            omega

theorem syncWorkdir_spec (clock : Clock Time) (caps : Caps) (folder : Folder Time) (known : Known Time) :
    ∃ kept : List (SyncFile Time),
      (syncWorkdir clock caps folder known).skipped.map SyncSkipped.path = kept.map SyncFile.path ∧
      (syncWorkdir clock caps folder known).toSync.Sublist folder.files ∧ kept.Sublist folder.files ∧
      (∀ f ∈ folder.files, f ∈ (syncWorkdir clock caps folder known).toSync ∨ f ∈ kept ∨
        unchanged clock known f = true) ∧
      (∀ f ∈ kept, f ∉ (syncWorkdir clock caps folder known).toSync) ∧
      (syncWorkdir clock caps folder known).toSync =
        fitting caps.perRun (folder.files.filter (due clock caps known)) := by
  obtain ⟨sent, kept, hsent, hkept, hsub, hsub', hall, hapart, hfits⟩ :=
    @scan_spec _ clock caps known folder.files folder.nodup ⟨[], [], 0⟩
  have hsync : (syncWorkdir clock caps folder known).toSync = sent := hsent
  rw [hsync]
  exact ⟨kept, hkept, hsub, hsub', hall, hapart, hfits (Nat.zero_le _)⟩

/-- A file of the folder by its path. -/
theorem Folder.eq_of_path {f g : SyncFile Time} (hf : f ∈ folder.files) (hg : g ∈ folder.files)
    (h : f.path = g.path) : f = g := List.inj_on_of_nodup_map folder.nodup hf hg h

theorem mem_deleted {p : String} : p ∈ (syncWorkdir clock caps folder known).deleted ↔
    p ∈ known.keys ∧ p ∉ folder.files.map SyncFile.path := by
  rw [syncWorkdir, List.mem_filter, decide_eq_true_eq]

theorem not_mem_deleted {f : SyncFile Time} (hf : f ∈ folder.files) :
    f.path ∉ (syncWorkdir clock caps folder known).deleted := by
  intro hmem
  exact (mem_deleted.mp hmem).2 (List.mem_map_of_mem hf)

/-- Where a map is written, when its writes are those of a sync. -/
theorem overwrite_sync {V : Type} (value : SyncFile Time → V) (map : String → Option V) :
    let r := syncWorkdir clock caps folder known
    (∀ f ∈ r.toSync, overwrite map (r.toSync.map (fun f => (f.path, value f))) r.deleted f.path = some (value f)) ∧
      (∀ p ∈ r.deleted, overwrite map (r.toSync.map (fun f => (f.path, value f))) r.deleted p = none) ∧
      ∀ p, p ∉ r.toSync.map SyncFile.path → p ∉ r.deleted →
        overwrite map (r.toSync.map (fun f => (f.path, value f))) r.deleted p = map p := by
  intro r
  obtain ⟨kept, -, hsub, -, -, -, -⟩ := syncWorkdir_spec clock caps folder known
  have hpaths : (r.toSync.map (fun f => (f.path, value f))).map Prod.fst = r.toSync.map SyncFile.path := by
    rw [List.map_map]
    rfl
  refine ⟨fun f hf => ?_, fun p hp => overwrite_removed hp, fun p hp hkept => ?_⟩
  · refine overwrite_written ?_ (List.mem_map.mpr ⟨f, hf, rfl⟩) (not_mem_deleted (hsub.subset hf))
    rw [hpaths]
    exact folder.nodup.sublist (hsub.map SyncFile.path)
  · exact overwrite_kept (by rw [hpaths]; exact hp) hkept

/-! ## One sync -/

/-- The worker has exactly the files that are known, each as it was at the time that is known of it. -/
def Mirrors (version : String → Time → Bytes → Prop) (files : String → Option Bytes) (known : Known Time) : Prop :=
  ∀ p, match known.lookup p with
    | none => files p = none
    | some mtime => ∃ bytes, files p = some bytes ∧ version p mtime bytes

theorem mirrors_empty (version : String → Time → Bytes → Prop) :
    Mirrors version (fun _ => none) (∅ : Known Time) := by
  intro p
  rw [AList.lookup_empty]

/-- Two versions of a file with different bytes are at least a millisecond apart. -/
def Stamped (clock : Clock Time) (version : String → Time → Bytes → Prop) : Prop :=
  ∀ p t t' bytes bytes', version p t bytes → version p t' bytes' → clock.near t t' = true → bytes = bytes'

def Holds (version : String → Time → Bytes → Prop) (folder : Folder Time) : Prop :=
  ∀ f ∈ folder.files, version f.path f.mtime f.bytes

variable {version : String → Time → Bytes → Prop}

/-- An unchanged file is in the worker as it is. -/
theorem Mirrors.of_unchanged (hmirrors : Mirrors version files known) (hstamped : Stamped clock version)
    (hholds : Holds version folder) {f : SyncFile Time} (hf : f ∈ folder.files)
    (h : unchanged clock known f = true) : files f.path = some f.bytes := by
  have hpath := hmirrors f.path
  unfold unchanged at h
  cases hlookup : known.lookup f.path with
  | none =>
    rw [hlookup] at h
    cases h
  | some mtime =>
    rw [hlookup] at h hpath
    obtain ⟨bytes, hbytes, hversion⟩ := hpath
    rw [hbytes, hstamped _ _ _ _ _ hversion (hholds f hf) h]

/-- Of a worker that has what is known, a sync makes one that has the folder, exactly if the caps carry what
has changed. -/
theorem sees_iff (hmirrors : Mirrors version files known) (hstamped : Stamped clock version)
    (hholds : Holds version folder) :
    Sees folder (syncWorkdir clock caps folder known).skipped ((syncWorkdir clock caps folder known).write files) ↔
      Carried clock caps folder known files := by
  obtain ⟨kept, hskipped, hsub, hsub', hall, hapart, hfits⟩ := syncWorkdir_spec clock caps folder known
  obtain ⟨hsent, hdeleted, huntouched⟩ := @overwrite_sync _ clock caps folder known _ SyncFile.bytes files
  have hnot_sent : ∀ f ∈ folder.files, f ∉ (syncWorkdir clock caps folder known).toSync →
      (syncWorkdir clock caps folder known).write files f.path = files f.path := by
    intro f hf hnot
    refine huntouched f.path (fun hmem => ?_) (not_mem_deleted hf)
    obtain ⟨g, hg, hpath⟩ := List.mem_map.mp hmem
    exact hnot (Folder.eq_of_path (hsub.subset hg) hf hpath ▸ hg)
  have hmem_kept : ∀ f ∈ folder.files, f.path ∈ (syncWorkdir clock caps folder known).skipped.map SyncSkipped.path →
      f ∈ kept := by
    intro f hf hmem
    rw [hskipped] at hmem
    obtain ⟨g, hg, hpath⟩ := List.mem_map.mp hmem
    exact Folder.eq_of_path (hsub'.subset hg) hf hpath ▸ hg
  rw [Carried, ← hfits]
  constructor
  · intro hsees f hf bytes hbytes hne
    by_contra hnot
    have hsame := hnot_sent f hf hnot
    obtain h | h | h := hall f hf
    · exact hnot h
    · obtain hgone | hcurrent := hsees.stale f hf (by rw [hskipped]; exact List.mem_map_of_mem h)
      · rw [hsame, hbytes] at hgone
        cases hgone
      · rw [hsame, hbytes] at hcurrent
        exact hne (Option.some.inj hcurrent)
    · have hcurrent := hmirrors.of_unchanged hstamped hholds hf h
      rw [hbytes] at hcurrent
      exact hne (Option.some.inj hcurrent)
  · intro hcarried
    refine ⟨fun f hf hnot => ?_, fun p hp => ?_, fun f hf hmem => ?_⟩
    · obtain h | h | h := hall f hf
      · exact hsent f h
      · exact absurd (by rw [hskipped]; exact List.mem_map_of_mem h) hnot
      · by_cases hsync : f ∈ (syncWorkdir clock caps folder known).toSync
        · exact hsent f hsync
        · rw [hnot_sent f hf hsync]
          exact hmirrors.of_unchanged hstamped hholds hf h
    · by_cases hknown : p ∈ known.keys
      · exact hdeleted p (mem_deleted.mpr ⟨hknown, hp⟩)
      · have hnone : known.lookup p = none := AList.lookup_eq_none.mpr (fun h => hknown (AList.mem_keys.mp h))
        have hpath := hmirrors p
        rw [hnone] at hpath
        refine (huntouched p (fun hmem => hp ?_) (fun hmem => hknown (mem_deleted.mp hmem).1)).trans hpath
        exact (hsub.map SyncFile.path).subset hmem
    · have hkept := hmem_kept f hf hmem
      have hnot := hapart f hkept
      rw [hnot_sent f hf hnot]
      cases hbytes : files f.path with
      | none => exact .inl rfl
      | some bytes =>
        right
        by_contra hne
        exact hnot (hcarried f hf bytes hbytes fun heq => hne (by rw [heq]))

/-- What the manager notes of a sync is again what the worker has. -/
theorem Mirrors.note (hmirrors : Mirrors version files known) (hholds : Holds version folder) :
    Mirrors version ((syncWorkdir clock caps folder known).write files)
      ((syncWorkdir clock caps folder known).note known) := by
  obtain ⟨kept, -, hsub, -, -, -, -⟩ := syncWorkdir_spec clock caps folder known
  obtain ⟨hsent, hdeleted, huntouched⟩ := @overwrite_sync _ clock caps folder known _ SyncFile.bytes files
  obtain ⟨hsent', hdeleted', huntouched'⟩ := @overwrite_sync _ clock caps folder known _ SyncFile.mtime
    (fun q => known.lookup q)
  intro p
  rw [lookup_note]
  by_cases hdel : p ∈ (syncWorkdir clock caps folder known).deleted
  · rw [hdeleted' p hdel]
    exact hdeleted p hdel
  · by_cases hmem : p ∈ (syncWorkdir clock caps folder known).toSync.map SyncFile.path
    · obtain ⟨f, hf, rfl⟩ := List.mem_map.mp hmem
      rw [hsent' f hf]
      exact ⟨f.bytes, hsent f hf, hholds f (hsub.subset hf)⟩
    · rw [huntouched' p hmem hdel]
      have hpath := hmirrors p
      rw [← huntouched p hmem hdel] at hpath
      exact hpath

end Haruspex.Sandbox
