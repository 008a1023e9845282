import Haruspex.Editor.Document

/-! When an open editor neither loses edits nor hides a change. -/
namespace Haruspex.Editor
set_option autoImplicit false

variable {Hash : Type} [DecidableEq Hash] {digest : String → Hash} {w : World Hash} {step : Step}

/-! ## What a step may meet -/

/-- News of what is on disk is still to come: its notice, or the answer of the save that wrote it. -/
def Due (digest : String → Hash) (w : World Hash) : Prop :=
  w.file.map digest ∈ w.notices ∨
    ∃ content expected force origin chosen hash,
      .write content expected force origin chosen (some (.saved hash)) ∈ w.requests ∧ w.file = some content

/-- A content the document is about to show is that on disk, or news of it is to come. -/
def Recent (digest : String → Hash) (w : World Hash) (content : String) : Prop :=
  w.file = some content ∨ Due digest w

/-- An answer that changes what the document shows does not come too late; nor does that of a save make a
draft dirty under a silent reload that began from it. -/
def InTime (digest : String → Hash) (w : World Hash) : Request Hash → Prop
  | .read (.silent before _) (some file) =>
    w.doc.draft = before → ∀ content, file.content = some content → Recent digest w content
  | .read _ (some file) => ∀ content, file.content = some content → Recent digest w content
  | .write content _ _ _ _ (some (.saved _)) =>
    Recent digest w content ∧ ∀ before clean result,
      .read (.silent before clean) result ∈ w.requests → w.doc.draft = before → content = before
  | _ => True

/-- The condition on a step. -/
def Meets (digest : String → Hash) (w : World Hash) : Step → Prop
  | .edit text =>
    -- Nothing is typed before the file is shown, nor back to a baseline that Keep mine left behind, nor
    -- back to the text a silent reload in flight began from.
    w.doc.loaded = true ∧
      (w.doc.disk = .same → text = w.doc.baseline → w.doc.hash = some (digest w.doc.baseline)) ∧
      ∀ before clean result, .read (.silent before clean) result ∈ w.requests →
        text = before → w.doc.draft = before
  | .keepMine =>
    -- Keep mine is for unsaved edits, and takes the version the user was told about last.
    w.told = w.doc.diskHash ∧ (w.doc.diskHash = none ∨
      w.doc.dirty = true ∧ w.doc.diskHash ≠ some (digest w.doc.baseline))
  | .answer i =>
    ∀ request, w.requests[i]? = some request →
      InTime digest { w with requests := w.requests.eraseIdx i } request
  | .fail i _ =>
    ∀ purpose result, w.requests[i]? = some (.read purpose result) → purpose = .reload
  | _ => True

/-- Every step of a run meets the condition. -/
def Meeting (digest : String → Hash) : World Hash → List Step → Prop
  | _, [] => True
  | w, step :: steps => Meets digest w step ∧ Meeting digest (w.apply digest step) steps

/-! ## What a step can do -/

/-- A file as the document shows it. -/
def shown (doc : EditorDocument Hash) (file : LoadedFile Hash) : Purpose → EditorDocument Hash
  | .load => doc.loadAnswered file
  | .silent _ _ => { doc.take file with disk := if file.content = none then .deleted else .same }
  | .reload => doc.reloadAnswered file

/-- Where a step leads. -/
inductive Moved (digest : String → Hash) (w : World Hash) : Step → World Hash → Prop where
  | stays (step : Step) : Moved digest w step w
  | edits (text : String) : Moved digest w (.edit text)
      { w with doc := w.doc.edit text, typed := w.typed || decide (text ≠ w.doc.draft) }
  | saves (force : Bool) : Moved digest w (.save force)
      { w with requests := w.requests ++
          [.write w.doc.draft w.doc.hash force w.doc.baseline w.chosen none] }
  | reloads : Moved digest w .reload { w with requests := w.requests ++ [.read .reload none] }
  | keeps : Moved digest w .keepMine { w with doc := w.doc.keepMine, chosen := w.told }
  | changes (file : Option String) : Moved digest w (.change file)
      { w with file := file, notices := w.notices ++ [file.map digest] }
  | ignores (k : ℕ) (hash : Option Hash) (notice : w.notices[k]? = some hash)
      (old : w.doc.heeds hash = false) : Moved digest w (.deliver k)
      { w with notices := w.notices.eraseIdx k }
  | deleted (k : ℕ) (notice : w.notices[k]? = some none) : Moved digest w (.deliver k)
      { w with
        doc := { w.doc with diskHash := none, hash := none, disk := .deleted }
        notices := w.notices.eraseIdx k
        told := none }
  | marks (k : ℕ) (hash : Option Hash) (notice : w.notices[k]? = some hash) : Moved digest w (.deliver k)
      { w with
        doc := { w.doc with diskHash := hash, disk := .changed }
        notices := w.notices.eraseIdx k
        told := hash }
  | reads (k : ℕ) (hash : Option Hash) (notice : w.notices[k]? = some hash)
      (clean : w.doc.dirty = false) : Moved digest w (.deliver k)
      { w with
        doc := { w.doc with diskHash := hash }
        notices := w.notices.eraseIdx k
        requests := w.requests ++ [.read (.silent w.doc.draft true) none] }
  | performs (i : ℕ) (request : Request Hash) (asked : w.requests[i]? = some request) :
      Moved digest w (.perform i)
      { w with
        file := (request.perform digest w.file).1
        requests := w.requests.set i (request.perform digest w.file).2 }
  | shows (i : ℕ) (purpose : Purpose) (file : LoadedFile Hash)
      (asked : w.requests[i]? = some (.read purpose (some file)))
      (unmoved : ∀ before clean, purpose = .silent before clean → w.doc.draft = before) :
      Moved digest w (.answer i)
      ({ w with requests := w.requests.eraseIdx i }.shows (shown w.doc file purpose) file)
  | stands (i : ℕ) (before : String) (clean : Bool) (file : LoadedFile Hash)
      (asked : w.requests[i]? = some (.read (.silent before clean) (some file)))
      (moved : w.doc.draft ≠ before) : Moved digest w (.answer i)
      { w with
        doc := w.doc.silentAnswered before file
        requests := w.requests.eraseIdx i
        told := file.hash }
  | saved (i : ℕ) (content : String) (expected : Option Hash) (force : Bool) (origin : String)
      (chosen : Option Hash) (hash : Hash)
      (asked : w.requests[i]? = some (.write content expected force origin chosen (some (.saved hash)))) :
      Moved digest w (.answer i)
      { w with
        doc := w.doc.saveAnswered content (.saved hash)
        requests := w.requests.eraseIdx i
        chosen := none }
  | refused (i : ℕ) (content : String) (expected : Option Hash) (force : Bool) (origin : String)
      (chosen hash : Option Hash)
      (asked : w.requests[i]? =
        some (.write content expected force origin chosen (some (.conflict hash)))) :
      Moved digest w (.answer i)
      { w with
        doc := w.doc.saveAnswered content (.conflict hash)
        requests := w.requests.eraseIdx i
        told := hash }
  | fails (i : ℕ) (e : String) (request : Request Hash) (asked : w.requests[i]? = some request)
      (waiting : request.done = false) :
      Moved digest w (.fail i e) ({ w with requests := w.requests.eraseIdx i }.failed e request)

theorem moved_deliver (k : ℕ) (hash : Option Hash) (h : w.notices[k]? = some hash) :
    Moved digest w (.deliver k) ({ w with notices := w.notices.eraseIdx k }.heard hash) := by
  unfold World.heard EditorDocument.diskChanged
  dsimp only
  by_cases hheeds : w.doc.heeds hash = true
  · rw [if_pos hheeds]
    by_cases hnone : hash = none
    · rw [if_pos hnone, if_pos hheeds]
      subst hnone
      exact .deleted k h
    · rw [if_neg hnone]
      by_cases hdirty : w.doc.dirty = true
      · rw [if_pos hdirty, if_pos hheeds]
        exact .marks k hash h
      · rw [if_neg hdirty]
        exact .reads k hash h (by simpa using hdirty)
  · rw [if_neg hheeds, if_neg hheeds]
    exact .ignores k hash h (by simpa using hheeds)

theorem moved_answer (i : ℕ) (request : Request Hash) (h : w.requests[i]? = some request)
    (hdone : request.done = true) :
    Moved digest w (.answer i) ({ w with requests := w.requests.eraseIdx i }.answered request) := by
  cases request with
  | read purpose result =>
    cases result with
    | none => cases hdone
    | some file =>
      cases purpose with
      | load => exact .shows i .load file h (fun _ _ h => by cases h)
      | reload => exact .shows i .reload file h (fun _ _ h => by cases h)
      | silent before clean =>
        unfold World.answered
        dsimp only
        split
        · exact .stands i before clean file h ‹_›
        · rename_i hdraft
          unfold EditorDocument.silentAnswered
          rw [if_neg hdraft]
          refine .shows i (.silent before clean) file h fun _ _ heq => ?_
          cases heq
          exact not_not.mp hdraft
  | write content expected force origin chosen result =>
    cases result with
    | none => cases hdone
    | some outcome =>
      cases outcome with
      | saved hash => exact .saved i content expected force origin chosen hash h
      | conflict hash => exact .refused i content expected force origin chosen hash h

theorem act_moved (w : World Hash) (step : Step) : Moved digest w step (w.act digest step) := by
  cases step with
  | edit text => exact .edits text
  | save force =>
    unfold World.act
    dsimp only
    split
    · exact .saves force
    · exact .stays _
  | reload => exact .reloads
  | keepMine => exact .keeps
  | change file => exact .changes file
  | deliver k =>
    unfold World.act
    dsimp only
    split
    · exact moved_deliver k _ ‹_›
    · exact .stays _
  | perform i =>
    unfold World.act
    dsimp only
    split
    · exact .performs i _ ‹_›
    · exact .stays _
  | answer i =>
    unfold World.act
    dsimp only
    split
    · split
      · exact moved_answer i _ ‹_› ‹_›
      · exact .stays _
    · exact .stays _
  | fail i e =>
    unfold World.act
    dsimp only
    split
    · split
      · exact .stays _
      · rename_i hwaiting
        exact .fails i e _ ‹_› (by simpa using hwaiting)
    · exact .stays _

/-! ## What holds all along -/

/-- What a request carries is what it came from. -/
def Request.Sound (digest : String → Hash) : Request Hash → Prop
  | .read _ result => ∀ file, result = some file → file.hash = file.content.map digest
  | .write content expected _ origin chosen result =>
    (expected = none ∨ expected = some (digest origin) ∨ expected = chosen) ∧
      ∀ hash, result = some (.saved hash) → hash = digest content

def Request.isLoad : Request Hash → Bool
  | .read .load _ => true
  | _ => false

structure Inv (digest : String → Hash) (w : World Hash) : Prop where
  sound : ∀ r ∈ w.requests, r.Sound digest
  alive : w.doc.failed = false
  fresh : w.doc.loaded = false → w.typed = false
  loads : w.requests.countP Request.isLoad = if w.doc.loaded then 0 else 1
  known : w.doc.hash = none ∨ w.doc.hash = some (digest w.doc.baseline) ∨ w.doc.hash = w.chosen
  quiet : ∀ before clean result, .read (.silent before clean) result ∈ w.requests →
    w.doc.draft = before → w.typed = true → clean = true ∧ w.doc.dirty = false
  named : w.doc.loaded = true → w.doc.disk = .same → w.doc.hash ≠ none
  kept : w.doc.loaded = true → w.doc.disk = .same →
    w.doc.hash = some (digest w.doc.baseline) ∨ w.doc.dirty = true
  news : w.doc.loaded = true → w.doc.disk = .same → w.doc.hash = some (digest w.doc.baseline) →
    w.file = some w.doc.baseline ∨ Due digest w ∨
      ∃ before clean result, .read (.silent before clean) result ∈ w.requests

section Fields

variable (doc : EditorDocument Hash) (file : LoadedFile Hash) (purpose : Purpose)
omit [DecidableEq Hash]

theorem dirty_iff : doc.dirty = true ↔ doc.loaded = true ∧ doc.draft ≠ doc.baseline := by
  simp [EditorDocument.dirty]

theorem dirty_eq_false_iff :
    doc.dirty = false ↔ (doc.loaded = true → doc.draft = doc.baseline) := by
  rw [← Bool.not_eq_true, dirty_iff]
  tauto

@[simp] theorem shown_draft : (shown doc file purpose).draft = file.content.getD "" := by
  cases purpose <;> rfl

@[simp] theorem shown_baseline : (shown doc file purpose).baseline = file.content.getD "" := by
  cases purpose <;> rfl

@[simp] theorem shown_hash : (shown doc file purpose).hash = file.hash := by
  cases purpose <;> rfl

@[simp] theorem shown_failed : (shown doc file purpose).failed = doc.failed := by
  cases purpose <;> rfl

theorem shown_loaded (h : (shown doc file purpose).loaded = false) :
    doc.loaded = false ∧ purpose ≠ .load := by
  cases purpose with
  | load => cases h
  | silent before clean => exact ⟨h, fun h => by cases h⟩
  | reload => exact ⟨h, fun h => by cases h⟩

theorem shown_content (h : (shown doc file purpose).disk = .same) : ∃ content, file.content = some content := by
  cases hcontent : file.content with
  | some content => exact ⟨content, rfl⟩
  | none => cases purpose <;> simp [shown, EditorDocument.loadAnswered, EditorDocument.reloadAnswered, hcontent] at h

end Fields

omit [DecidableEq Hash] in
theorem stands_disk {doc : EditorDocument Hash} {before : String} {file : LoadedFile Hash}
    (moved : doc.draft ≠ before) : (doc.silentAnswered before file).disk ≠ .same := by
  unfold EditorDocument.silentAnswered
  rw [if_pos moved]
  dsimp only
  split <;> exact fun h => by cases h

/-! ## Requests over a step -/

theorem mem_or_eq_of_mem_eraseIdx {α : Type} {r request : α} {l : List α} {i : ℕ}
    (hi : l[i]? = some request) (h : r ∈ l) : r = request ∨ r ∈ l.eraseIdx i := by
  obtain ⟨k, hk⟩ := List.mem_iff_getElem?.mp h
  by_cases hki : k = i
  · left
    rw [hki, hi] at hk
    exact (Option.some.inj hk).symm
  · right
    exact List.mem_eraseIdx_iff_getElem?.mpr ⟨k, hki, hk⟩

theorem mem_or_eq_of_mem_set' {α : Type} {r request x : α} {l : List α} {i : ℕ}
    (hi : l[i]? = some request) (h : r ∈ l) : r = request ∧ x ∈ l.set i x ∨ r ∈ l.set i x := by
  obtain ⟨k, hk⟩ := List.mem_iff_getElem?.mp h
  by_cases hki : i = k
  · left
    rw [← hki, hi] at hk
    have hlt := (List.getElem?_eq_some_iff.mp hi).1
    exact ⟨(Option.some.inj hk).symm, List.mem_iff_getElem?.mpr ⟨i, by simp [hlt]⟩⟩
  · right
    refine List.mem_iff_getElem?.mpr ⟨k, ?_⟩
    rw [List.getElem?_set_ne hki, hk]

theorem countP_eraseIdx {α : Type} {p : α → Bool} {l : List α} {i : ℕ} {x : α} (h : l[i]? = some x) :
    l.countP p = (l.eraseIdx i).countP p + if p x then 1 else 0 := by
  induction l generalizing i with
  | nil => cases h
  | cons y l ih =>
    cases i with
    | zero =>
      cases h
      rw [List.countP_cons, List.eraseIdx_cons_zero]
    | succ i =>
      have hrest := ih h
      rw [List.countP_cons, List.eraseIdx_cons_succ, List.countP_cons, hrest]
      omega

theorem countP_set {α : Type} {p : α → Bool} {l : List α} {i : ℕ} {x y : α} (h : l[i]? = some x)
    (hy : p y = p x) : (l.set i y).countP p = l.countP p := by
  induction l generalizing i with
  | nil => cases h
  | cons z l ih =>
    cases i with
    | zero =>
      cases h
      rw [List.set_cons_zero, List.countP_cons, List.countP_cons, hy]
    | succ i => rw [List.set_cons_succ, List.countP_cons, List.countP_cons, ih h]

theorem perform_read (file : Option String) (purpose : Purpose) (result : Option (LoadedFile Hash)) :
    ∃ result', ((Request.read purpose result).perform digest file).2 = .read purpose result' := by
  cases result with
  | none => exact ⟨_, rfl⟩
  | some file' => exact ⟨_, rfl⟩

theorem of_perform_read {file : Option String} {request : Request Hash} {purpose : Purpose}
    {result : Option (LoadedFile Hash)} (h : .read purpose result = (request.perform digest file).2) :
    ∃ result', request = .read purpose result' := by
  cases request with
  | read purpose' result' =>
    obtain ⟨result'', hresult⟩ := @perform_read _ _ digest file purpose' result'
    rw [hresult] at h
    cases h
    exact ⟨_, rfl⟩
  | write content expected force origin chosen result' =>
    unfold Request.perform at h
    split at h
    · rename_i heq
      cases heq
    · split at h <;> cases h
    · cases h

theorem Request.Sound.perform {r : Request Hash} {file : Option String} (h : r.Sound digest) :
    (r.perform digest file).2.Sound digest := by
  unfold Request.perform
  split
  · intro file' hfile
    cases hfile
    rfl
  · split
    · exact ⟨h.1, fun hash hh => by cases hh⟩
    · refine ⟨h.1, fun hash hh => ?_⟩
      cases hh
      rfl
  · exact h

theorem Inv.sound_moved {w' : World Hash} (h : Inv digest w) (hm : Moved digest w step w') :
    ∀ r ∈ w'.requests, r.Sound digest := by
  have hsound := h.sound
  have hpush (r : Request Hash) (hr : r.Sound digest) : ∀ r' ∈ w.requests ++ [r], r'.Sound digest := by
    intro r' hr'
    obtain hold | hnew := List.mem_append.mp hr'
    · exact hsound r' hold
    · rw [List.mem_singleton.mp hnew]
      exact hr
  have herase (i : ℕ) : ∀ r ∈ w.requests.eraseIdx i, r.Sound digest :=
    fun r hr => hsound r (List.mem_of_mem_eraseIdx hr)
  cases hm with
  | saves force => exact hpush _ ⟨h.known, fun hash hh => by cases hh⟩
  | reloads => exact hpush _ fun file hfile => by cases hfile
  | reads k hash notice clean => exact hpush _ fun file hfile => by cases hfile
  | performs i request asked =>
    intro r hr
    obtain hold | hnew := List.mem_or_eq_of_mem_set hr
    · exact hsound r hold
    · rw [hnew]
      exact (hsound request (List.mem_of_getElem? asked)).perform
  | shows i purpose file asked unmoved => exact herase i
  | stands i before clean file asked moved => exact herase i
  | saved i content expected force origin chosen hash asked => exact herase i
  | refused i content expected force origin chosen hash asked => exact herase i
  | fails i e request asked waiting =>
    cases request with
    | read purpose result => cases purpose <;> exact herase i
    | write content expected force origin chosen result => exact herase i
  | _ => exact hsound

/-! ## One step -/

section Moved

variable {w' : World Hash} (h : Inv digest w) (hmeets : Meets digest w step) (hm : Moved digest w step w')
include h hmeets hm

theorem Inv.alive_moved : w'.doc.failed = false := by
  cases hm with
  | stands i before clean file asked moved =>
    unfold EditorDocument.silentAnswered
    rw [if_pos moved]
    exact h.alive
  | shows i purpose file asked unmoved => exact (shown_failed _ _ _).trans h.alive
  | fails i e request asked waiting =>
    cases request with
    | read purpose result =>
      have hreload : purpose = .reload := hmeets purpose result asked
      subst hreload
      exact h.alive
    | write content expected force origin chosen result => exact h.alive
  | _ => exact h.alive

theorem Inv.fresh_moved (hloaded : w'.doc.loaded = false) : w'.typed = false := by
  cases hm with
  | edits text => exact absurd (hloaded.symm.trans hmeets.1) (by simp)
  | shows i purpose file asked unmoved => rfl
  | stands i before clean file asked moved =>
    unfold EditorDocument.silentAnswered at hloaded
    rw [if_pos moved] at hloaded
    exact h.fresh hloaded
  | fails i e request asked waiting =>
    cases request with
    | read purpose result =>
      have hreload : purpose = .reload := hmeets purpose result asked
      subst hreload
      exact h.fresh hloaded
    | write content expected force origin chosen result => exact h.fresh hloaded
  | _ => exact h.fresh hloaded

/-- The first read is under way until the document is loaded. -/
theorem Inv.loads_moved : w'.requests.countP Request.isLoad = if w'.doc.loaded then 0 else 1 := by
  have hpush (r : Request Hash) (hr : r.isLoad = false) :
      (w.requests ++ [r]).countP Request.isLoad = if w.doc.loaded then 0 else 1 := by
    rw [List.countP_append, List.countP_singleton, hr]
    exact h.loads
  have herase {i : ℕ} {r : Request Hash} (hi : w.requests[i]? = some r) (hr : r.isLoad = false) :
      (w.requests.eraseIdx i).countP Request.isLoad = if w.doc.loaded then 0 else 1 := by
    have hcount := countP_eraseIdx (p := Request.isLoad) hi
    rw [hr] at hcount
    exact hcount.symm.trans h.loads
  cases hm with
  | saves force => exact hpush _ rfl
  | reloads => exact hpush _ rfl
  | reads k hash notice clean => exact hpush _ rfl
  | performs i request asked =>
    refine (countP_set asked ?_).trans h.loads
    unfold Request.perform
    split
    · rename_i purpose
      cases purpose <;> rfl
    · split <;> rfl
    · rfl
  | shows i purpose file asked unmoved =>
    have hcount := countP_eraseIdx (p := Request.isLoad) asked
    rw [h.loads] at hcount
    cases purpose with
    | load =>
      change (w.requests.eraseIdx i).countP Request.isLoad = 0
      change _ = _ + 1 at hcount
      split at hcount <;> omega
    | silent before clean => exact hcount.symm
    | reload => exact hcount.symm
  | stands i before clean file asked moved =>
    unfold EditorDocument.silentAnswered
    rw [if_pos moved]
    exact herase asked rfl
  | saved i content expected force origin chosen hash asked => exact herase asked rfl
  | refused i content expected force origin chosen hash asked => exact herase asked rfl
  | fails i e request asked waiting =>
    cases request with
    | read purpose result =>
      have hreload : purpose = .reload := hmeets purpose result asked
      subst hreload
      exact herase asked rfl
    | write content expected force origin chosen result => exact herase asked rfl
  | _ => exact h.loads

theorem Inv.known_moved :
    w'.doc.hash = none ∨ w'.doc.hash = some (digest w'.doc.baseline) ∨ w'.doc.hash = w'.chosen := by
  cases hm with
  | keeps => exact .inr (.inr hmeets.1.symm)
  | deleted k notice => exact .inl rfl
  | shows i purpose file asked unmoved =>
    have hhash : file.hash = file.content.map digest := h.sound _ (List.mem_of_getElem? asked) file rfl
    cases hcontent : file.content with
    | none =>
      refine .inl ?_
      change (shown w.doc file purpose).hash = none
      rw [shown_hash, hhash, hcontent]
      rfl
    | some content =>
      refine .inr (.inl ?_)
      change (shown w.doc file purpose).hash = some (digest (shown w.doc file purpose).baseline)
      rw [shown_hash, shown_baseline, hhash, hcontent]
      rfl
  | stands i before clean file asked moved =>
    unfold EditorDocument.silentAnswered
    rw [if_pos moved]
    dsimp only
    split
    · exact .inl rfl
    · exact h.known
  | saved i content expected force origin chosen hash asked =>
    have hhash : hash = digest content := (h.sound _ (List.mem_of_getElem? asked)).2 hash rfl
    refine .inr (.inl ?_)
    change some hash = some (digest content)
    rw [hhash]
  | fails i e request asked waiting =>
    cases request with
    | read purpose result =>
      have hreload : purpose = .reload := hmeets purpose result asked
      subst hreload
      exact h.known
    | write content expected force origin chosen result => exact h.known
  | _ => exact h.known

/-- A draft typed back to what a silent reload began from has stayed clean. -/
theorem Inv.quiet_moved : ∀ before clean result, .read (.silent before clean) result ∈ w'.requests →
    w'.doc.draft = before → w'.typed = true → clean = true ∧ w'.doc.dirty = false := by
  intro before clean result hmem hdraft htyped
  have herase {i : ℕ} {r : Request Hash} (hr : r ∈ w.requests.eraseIdx i) : r ∈ w.requests :=
    List.mem_of_mem_eraseIdx hr
  cases hm with
  | edits text =>
    by_cases htext : text = w.doc.draft
    · subst htext
      simp only [ne_eq, not_true_eq_false, decide_false, Bool.or_false] at htyped
      exact h.quiet before clean result hmem hdraft htyped
    · exact absurd (hdraft.trans (hmeets.2.2 before clean result hmem hdraft).symm) htext
  | saves force =>
    obtain hold | hnew := List.mem_append.mp hmem
    · exact h.quiet before clean result hold hdraft htyped
    · cases List.mem_singleton.mp hnew
  | reloads =>
    obtain hold | hnew := List.mem_append.mp hmem
    · exact h.quiet before clean result hold hdraft htyped
    · cases List.mem_singleton.mp hnew
  | reads k hash notice hclean =>
    obtain hold | hnew := List.mem_append.mp hmem
    · exact h.quiet before clean result hold hdraft htyped
    · cases List.mem_singleton.mp hnew
      exact ⟨rfl, hclean⟩
  | performs i request asked =>
    obtain hold | hnew := List.mem_or_eq_of_mem_set hmem
    · exact h.quiet before clean result hold hdraft htyped
    · obtain ⟨result', rfl⟩ := of_perform_read hnew
      exact h.quiet before clean result' (List.mem_of_getElem? asked) hdraft htyped
  | shows i purpose file asked unmoved => cases htyped
  | stands i before' clean' file asked moved =>
    unfold EditorDocument.silentAnswered at hdraft ⊢
    rw [if_pos moved] at hdraft ⊢
    exact h.quiet before clean result (herase hmem) hdraft htyped
  | saved i content expected force origin chosen hash asked =>
    obtain ⟨hclean, -⟩ := h.quiet before clean result (herase hmem) hdraft htyped
    refine ⟨hclean, (dirty_eq_false_iff _).mpr fun _ => ?_⟩
    have hbefore := (hmeets _ asked).2 before clean result hmem hdraft
    exact hdraft.trans hbefore.symm
  | refused i content expected force origin chosen hash asked =>
    exact h.quiet before clean result (herase hmem) hdraft htyped
  | fails i e request asked waiting =>
    cases request with
    | read purpose result' =>
      have hreload : purpose = .reload := hmeets purpose result' asked
      subst hreload
      exact h.quiet before clean result (herase hmem) hdraft htyped
    | write content expected force origin chosen result' =>
      exact h.quiet before clean result (herase hmem) hdraft htyped
  | _ => exact h.quiet before clean result hmem hdraft htyped

theorem Inv.named_moved (hloaded : w'.doc.loaded = true) (hsame : w'.doc.disk = .same) :
    w'.doc.hash ≠ none := by
  cases hm with
  | keeps =>
    intro hnone
    change w.doc.diskHash = none at hnone
    change (if w.doc.diskHash = none then DiskState.deleted else .same) = .same at hsame
    rw [if_pos hnone] at hsame
    cases hsame
  | deleted k notice => cases hsame
  | marks k hash notice => cases hsame
  | shows i purpose file asked unmoved =>
    have hhash : file.hash = file.content.map digest := h.sound _ (List.mem_of_getElem? asked) file rfl
    obtain ⟨content, hcontent⟩ := shown_content _ _ _ hsame
    change (shown w.doc file purpose).hash ≠ none
    rw [shown_hash, hhash, hcontent]
    exact Option.some_ne_none _
  | stands i before clean file asked moved => exact absurd hsame (stands_disk moved)
  | saved i content expected force origin chosen hash asked => exact Option.some_ne_none _
  | fails i e request asked waiting =>
    cases request with
    | read purpose result =>
      have hreload : purpose = .reload := hmeets purpose result asked
      subst hreload
      exact h.named hloaded hsame
    | write content expected force origin chosen result => exact h.named hloaded hsame
  | _ => exact h.named hloaded hsame

theorem Inv.kept_moved (hloaded : w'.doc.loaded = true) (hsame : w'.doc.disk = .same) :
    w'.doc.hash = some (digest w'.doc.baseline) ∨ w'.doc.dirty = true := by
  cases hm with
  | edits text =>
    by_cases htext : text = w.doc.baseline
    · exact .inl (hmeets.2.1 hsame htext)
    · exact .inr ((dirty_iff _).mpr ⟨hloaded, htext⟩)
  | keeps =>
    change (if w.doc.diskHash = none then DiskState.deleted else .same) = .same at hsame
    obtain hnone | hdirty := hmeets.2
    · rw [if_pos hnone] at hsame
      cases hsame
    · exact .inr hdirty.1
  | deleted k notice => cases hsame
  | marks k hash notice => cases hsame
  | shows i purpose file asked unmoved =>
    have hhash : file.hash = file.content.map digest := h.sound _ (List.mem_of_getElem? asked) file rfl
    obtain ⟨content, hcontent⟩ := shown_content _ _ _ hsame
    refine .inl ?_
    change (shown w.doc file purpose).hash = some (digest (shown w.doc file purpose).baseline)
    rw [shown_hash, shown_baseline, hhash, hcontent]
    rfl
  | stands i before clean file asked moved => exact absurd hsame (stands_disk moved)
  | saved i content expected force origin chosen hash asked =>
    have hhash : hash = digest content := (h.sound _ (List.mem_of_getElem? asked)).2 hash rfl
    refine .inl ?_
    change some hash = some (digest content)
    rw [hhash]
  | fails i e request asked waiting =>
    cases request with
    | read purpose result =>
      have hreload : purpose = .reload := hmeets purpose result asked
      subst hreload
      exact h.kept hloaded hsame
    | write content expected force origin chosen result => exact h.kept hloaded hsame
  | _ => exact h.kept hloaded hsame

end Moved

/-! ## News -/

omit [DecidableEq Hash] in
theorem Due.mono {w' : World Hash} (h : Due digest w) (hfile : w'.file = w.file)
    (hnotices : w'.notices = w.notices)
    (hwrites : ∀ content expected force origin chosen hash,
      .write content expected force origin chosen (some (.saved hash)) ∈ w.requests →
      .write content expected force origin chosen (some (.saved hash)) ∈ w'.requests) : Due digest w' := by
  unfold Due
  rw [hfile, hnotices]
  obtain hnotice | ⟨content, expected, force, origin, chosen, hash, hmem, hcontent⟩ := h
  · exact .inl hnotice
  · exact .inr ⟨content, expected, force, origin, chosen, hash, hwrites _ _ _ _ _ _ hmem, hcontent⟩

/-- A silent reload is in flight. -/
def Reading (w : World Hash) : Prop := ∃ before clean result, .read (.silent before clean) result ∈ w.requests

/-- News to come after the disk has seen a request. -/
theorem due_performs {i : ℕ} {request : Request Hash} (hi : w.requests[i]? = some request)
    (h : w.file = some w.doc.baseline ∨ Due digest w ∨ Reading w) {w' : World Hash}
    (hw' : w' = { w with
      file := (request.perform digest w.file).1
      requests := w.requests.set i (request.perform digest w.file).2 }) :
    w'.file = some w.doc.baseline ∨ Due digest w' ∨ Reading w' := by
  have hlt := (List.getElem?_eq_some_iff.mp hi).1
  have hperformed : (request.perform digest w.file).2 ∈ w.requests.set i (request.perform digest w.file).2 :=
    List.mem_iff_getElem?.mpr ⟨i, by simp [hlt]⟩
  by_cases hwrites : ∃ content expected force origin chosen,
      (request.perform digest w.file).1 = some content ∧ (request.perform digest w.file).2 =
        .write content expected force origin chosen (some (.saved (digest content)))
  · obtain ⟨content, expected, force, origin, chosen, hfile, hresult⟩ := hwrites
    subst hw'
    refine .inr (.inl (.inr ⟨content, expected, force, origin, chosen, digest content, ?_, hfile⟩))
    rw [← hresult]
    exact hperformed
  · have hfile : (request.perform digest w.file).1 = w.file := by
      revert hwrites
      unfold Request.perform
      split
      · exact fun _ => rfl
      · split
        · exact fun _ => rfl
        · intro hno
          exact absurd ⟨_, _, _, _, _, rfl, rfl⟩ hno
      · exact fun _ => rfl
    have hdone {content : String} {expected chosen : Option Hash} {force : Bool} {origin : String} {hash : Hash}
        (hmem : .write content expected force origin chosen (some (.saved hash)) ∈ w.requests) :
        .write content expected force origin chosen (some (.saved hash)) ∈ w'.requests := by
      subst hw'
      obtain ⟨rfl, hset⟩ | hset := mem_or_eq_of_mem_set' (x := (request.perform digest w.file).2) hi hmem
      · exact hset
      · exact hset
    obtain hbaseline | hdue | ⟨before, clean, result, hmem⟩ := h
    · left
      subst hw'
      exact hfile.trans hbaseline
    · right; left
      refine hdue.mono ?_ ?_ fun _ _ _ _ _ _ hmem => hdone hmem
      · subst hw'
        exact hfile
      · subst hw'
        rfl
    · right; right
      subst hw'
      obtain ⟨rfl, hset⟩ | hset := mem_or_eq_of_mem_set' (x := (request.perform digest w.file).2) hi hmem
      · obtain ⟨result', hresult⟩ := @perform_read _ _ digest w.file (.silent before clean) result
        exact ⟨before, clean, result', by rw [← hresult]; exact hset⟩
      · exact ⟨before, clean, result, hset⟩

/-- A notice that is not heeded is of what the document shows. -/
theorem due_ignores (hdigest : Function.Injective digest) (h : Inv digest w) {k : ℕ} {hash : Option Hash}
    (notice : w.notices[k]? = some hash) (old : w.doc.heeds hash = false) (hloaded : w.doc.loaded = true)
    (hbase : w.doc.hash = some (digest w.doc.baseline)) (hdue : Due digest w) :
    w.file = some w.doc.baseline ∨ Due digest { w with notices := w.notices.eraseIdx k } := by
  obtain hmem | hwrite := hdue
  · obtain heq | hrest := mem_or_eq_of_mem_eraseIdx notice hmem
    · left
      have hsame : hash = w.doc.hash := by
        by_contra hne
        simp [EditorDocument.heeds, hloaded, h.alive, hne] at old
      rw [hsame, hbase] at heq
      obtain ⟨content, hcontent, hdig⟩ := Option.map_eq_some_iff.mp heq
      rw [hcontent, hdigest hdig]
    · exact .inr (.inl hrest)
  · exact .inr (.inr hwrite)

theorem Inv.news_moved {w' : World Hash} (hdigest : Function.Injective digest) (h : Inv digest w)
    (hmeets : Meets digest w step) (hm : Moved digest w step w') (hloaded : w'.doc.loaded = true)
    (hsame : w'.doc.disk = .same) (hhash : w'.doc.hash = some (digest w'.doc.baseline)) :
    w'.file = some w'.doc.baseline ∨ Due digest w' ∨ Reading w' := by
  have hgrow {w' : World Hash} (hnews : w.file = some w.doc.baseline ∨ Due digest w ∨ Reading w)
      (hfile : w'.file = w.file) (hbaseline : w'.doc.baseline = w.doc.baseline)
      (hnotices : w'.notices = w.notices)
      (hrequests : ∀ r ∈ w.requests, (∀ purpose result, r = .read purpose result → ∃ before clean,
        purpose = .silent before clean) → (∀ content expected force origin chosen result,
          r = .write content expected force origin chosen result → ∃ hash, result = some (.saved hash)) →
        r ∈ w'.requests) :
      w'.file = some w'.doc.baseline ∨ Due digest w' ∨ Reading w' := by
    rw [hfile, hbaseline]
    obtain hbase | hdue | ⟨before, clean, result, hmem⟩ := hnews
    · exact .inl hbase
    · refine .inr (.inl (hdue.mono hfile hnotices fun _ _ _ _ _ hash hmem => ?_))
      exact hrequests _ hmem (fun _ _ heq => by cases heq) (fun _ _ _ _ _ _ heq => by cases heq; exact ⟨hash, rfl⟩)
    · refine .inr (.inr ⟨before, clean, result, ?_⟩)
      exact hrequests _ hmem (fun _ _ heq => by cases heq; exact ⟨before, clean, rfl⟩)
        (fun _ _ _ _ _ _ heq => by cases heq)
  cases hm with
  | stays => exact h.news hloaded hsame hhash
  | edits text => exact h.news hloaded hsame hhash
  | saves force =>
    exact hgrow (h.news hloaded hsame hhash) rfl rfl rfl fun r hr _ _ => List.mem_append_left _ hr
  | reloads =>
    exact hgrow (h.news hloaded hsame hhash) rfl rfl rfl fun r hr _ _ => List.mem_append_left _ hr
  | keeps =>
    change (if w.doc.diskHash = none then DiskState.deleted else .same) = .same at hsame
    obtain hnone | hdirty := hmeets.2
    · rw [if_pos hnone] at hsame
      cases hsame
    · exact absurd hhash hdirty.2
  | changes file => exact .inr (.inl (.inl (List.mem_append_right _ List.mem_cons_self)))
  | ignores k hash notice old =>
    obtain hbase | hdue | hreading := h.news hloaded hsame hhash
    · exact .inl hbase
    · obtain hbase | hdue := due_ignores hdigest h notice old hloaded hhash hdue
      · exact .inl hbase
      · exact .inr (.inl hdue)
    · exact .inr (.inr hreading)
  | deleted k notice => cases hsame
  | marks k hash notice => cases hsame
  | reads k hash notice clean =>
    exact .inr (.inr ⟨w.doc.draft, true, none, List.mem_append_right _ List.mem_cons_self⟩)
  | performs i request asked => exact due_performs asked (h.news hloaded hsame hhash) rfl
  | shows i purpose file asked unmoved =>
    obtain ⟨content, hcontent⟩ := shown_content _ _ _ hsame
    have hbaseline : (shown w.doc file purpose).baseline = content := by rw [shown_baseline, hcontent]; rfl
    have htime := hmeets _ asked
    have hrecent : Recent digest { w with requests := w.requests.eraseIdx i } content := by
      cases purpose with
      | load => exact htime content hcontent
      | silent before clean => exact htime (unmoved before clean rfl) content hcontent
      | reload => exact htime content hcontent
    obtain hfile | hdue := hrecent
    · left
      change w.file = some (shown w.doc file purpose).baseline
      rw [hbaseline]
      exact hfile
    · exact .inr (.inl hdue)
  | stands i before clean file asked moved => exact absurd hsame (stands_disk moved)
  | saved i content expected force origin chosen hash asked =>
    obtain hfile | hdue := (hmeets _ asked).1
    · exact .inl hfile
    · exact .inr (.inl hdue)
  | refused i content expected force origin chosen hash asked =>
    refine hgrow (h.news hloaded hsame hhash) rfl rfl rfl fun r hr _ hwrite => ?_
    obtain rfl | hmem := mem_or_eq_of_mem_eraseIdx asked hr
    · obtain ⟨hash', hsaved⟩ := hwrite _ _ _ _ _ _ rfl
      cases hsaved
    · exact hmem
  | fails i e request asked waiting =>
    have herase : ∀ r ∈ w.requests, (∀ purpose result, r = .read purpose result → ∃ before clean,
        purpose = .silent before clean) → (∀ content expected force origin chosen result,
          r = .write content expected force origin chosen result → ∃ hash, result = some (.saved hash)) →
        r ∈ w.requests.eraseIdx i := by
      intro r hr hread hwrite
      obtain rfl | hmem := mem_or_eq_of_mem_eraseIdx asked hr
      · cases r with
        | read purpose result =>
          obtain ⟨before, clean, hsilent⟩ := hread purpose result rfl
          rw [hmeets purpose result asked] at hsilent
          cases hsilent
        | write content expected force origin chosen result =>
          obtain ⟨hash, hsaved⟩ := hwrite _ _ _ _ _ _ rfl
          rw [hsaved] at waiting
          cases waiting
      · exact hmem
    cases request with
    | read purpose result =>
      have hreload : purpose = .reload := hmeets purpose result asked
      subst hreload
      exact hgrow (h.news hloaded hsame hhash) rfl rfl rfl herase
    | write content expected force origin chosen result =>
      exact hgrow (h.news hloaded hsame hhash) rfl rfl rfl herase

/-! ## Runs -/

omit [DecidableEq Hash] in
theorem mem_watched {r : Request Hash} (h : r ∈ w.watched.requests) :
    ∃ r₀ ∈ w.requests, r₀.watch w.doc.dirty = r := List.mem_map.mp h

omit [DecidableEq Hash] in
theorem Inv.watched (h : Inv digest w) : Inv digest w.watched := by
  have hreading (hr : Reading w) : Reading w.watched := by
    obtain ⟨before, clean, result, hmem⟩ := hr
    exact ⟨before, clean && !w.doc.dirty, result, List.mem_map_of_mem (f := Request.watch w.doc.dirty) hmem⟩
  refine ⟨?_, h.alive, h.fresh, ?_, h.known, ?_, h.named, h.kept, ?_⟩
  · intro r hr
    obtain ⟨r₀, hr₀, rfl⟩ := mem_watched hr
    have hsound := h.sound r₀ hr₀
    unfold Request.watch
    split
    · exact hsound
    · exact hsound
  · have hsame : Request.isLoad ∘ Request.watch w.doc.dirty = (Request.isLoad : Request Hash → Bool) := by
      funext r
      unfold Function.comp Request.watch
      split <;> rfl
    change (w.requests.map (Request.watch w.doc.dirty)).countP Request.isLoad = _
    rw [List.countP_map, hsame]
    exact h.loads
  · intro before clean result hmem hdraft htyped
    obtain ⟨r₀, hr₀, heq⟩ := mem_watched hmem
    unfold Request.watch at heq
    split at heq
    · rename_i before' clean' result'
      cases heq
      obtain ⟨hclean, hdirty⟩ := h.quiet before clean' result hr₀ hdraft htyped
      rw [hclean, hdirty]
      exact ⟨rfl, hdirty⟩
    · rename_i hother
      subst heq
      exact absurd rfl (hother before clean result)
  · intro hloaded hsame hhash
    obtain hbase | hdue | hr := h.news hloaded hsame hhash
    · exact .inl hbase
    · exact .inr (.inl (hdue.mono rfl rfl fun _ _ _ _ _ _ hmem =>
        List.mem_map_of_mem (f := Request.watch w.doc.dirty) hmem))
    · exact .inr (.inr (hreading hr))

theorem Inv.apply (hdigest : Function.Injective digest) (h : Inv digest w) (hmeets : Meets digest w step) :
    Inv digest (w.apply digest step) := by
  have hm := @act_moved _ _ digest w step
  refine Inv.watched ⟨h.sound_moved hm, h.alive_moved hmeets hm, h.fresh_moved hmeets hm,
    h.loads_moved hmeets hm, h.known_moved hmeets hm, h.quiet_moved hmeets hm, h.named_moved hmeets hm,
    h.kept_moved hmeets hm, h.news_moved hdigest hmeets hm⟩

omit [DecidableEq Hash] in
theorem inv_start (relPath : String) (file : Option String) : Inv digest (World.start relPath file) := by
  refine ⟨?_, rfl, fun _ => rfl, rfl, .inl rfl, ?_, fun h => ?_, fun h => ?_, fun h => ?_⟩
  · intro r hr
    rw [List.mem_singleton.mp hr]
    exact fun file hfile => by cases hfile
  · intro before clean result hmem
    cases List.mem_singleton.mp hmem
  · cases h
  · cases h
  · cases h

theorem inv_run (hdigest : Function.Injective digest) {steps : List Step} (h : Inv digest w)
    (hmeeting : Meeting digest w steps) : Inv digest (w.run digest steps) := by
  induction steps generalizing w with
  | nil => exact h
  | cons step steps ih => exact ih (h.apply hdigest hmeeting.1) hmeeting.2

/-! ## What follows -/

theorem Inv.replaces (hdigest : Function.Injective digest) (h : Inv digest w) (step : Step) :
    ReplacesKnown digest w step := by
  intro i content expected origin chosen old hstep hi hfile hchanged
  subst hstep
  have hexpected := (h.sound _ (List.mem_of_getElem? hi)).1
  change (w.act digest (.perform i)).file ≠ some old at hchanged
  unfold World.act at hchanged
  dsimp only at hchanged
  rw [hi] at hchanged
  dsimp only [Request.perform] at hchanged
  split at hchanged
  · exact absurd hfile hchanged
  · rename_i hpass
    have hdisk : some (digest old) = expected := by
      by_contra hne
      refine hpass ⟨rfl, ?_⟩
      rw [hfile]
      exact hne
    rw [← hdisk] at hexpected
    obtain hnone | horigin | hchosen := hexpected
    · cases hnone
    · exact .inl (hdigest (Option.some.inj horigin))
    · exact .inr hchosen.symm

omit [DecidableEq Hash] in
/-- Nothing is typed while the first read is under way. -/
theorem Inv.unloaded (h : Inv digest w) {result : Option (LoadedFile Hash)}
    (hmem : .read .load result ∈ w.requests) : w.typed = false := by
  refine h.fresh ?_
  have hpos : 0 < w.requests.countP Request.isLoad := List.countP_pos_iff.mpr ⟨_, hmem, rfl⟩
  rw [h.loads] at hpos
  by_contra hloaded
  rw [if_pos (by simpa using hloaded)] at hpos
  omega

theorem Inv.typing (h : Inv digest w) (step : Step) : KeepsTyping digest w step := by
  intro htyped hdraft
  change (w.act digest step).doc.draft ≠ w.doc.draft at hdraft
  have hm := @act_moved _ _ digest w step
  generalize w.act digest step = w' at hdraft hm
  cases hm with
  | edits text => exact .inl ⟨text, rfl⟩
  | shows i purpose file asked unmoved =>
    refine .inr ⟨i, some file, rfl, ?_⟩
    cases purpose with
    | load =>
      rw [h.unloaded (List.mem_of_getElem? asked)] at htyped
      cases htyped
    | reload => exact .inl asked
    | silent before clean =>
      have hclean := (h.quiet before clean _ (List.mem_of_getElem? asked) (unmoved before clean rfl) htyped).1
      subst hclean
      exact .inr ⟨before, asked⟩
  | stands i before clean file asked moved =>
    unfold EditorDocument.silentAnswered at hdraft
    rw [if_pos moved] at hdraft
    exact absurd rfl hdraft
  | fails i e request asked waiting =>
    cases request with
    | read purpose result =>
      cases purpose with
      | load =>
        rw [h.unloaded (List.mem_of_getElem? asked)] at htyped
        cases htyped
      | silent before clean => exact absurd rfl hdraft
      | reload => exact absurd rfl hdraft
    | write content expected force origin chosen result => exact absurd rfl hdraft
  | _ => exact absurd rfl hdraft

omit [DecidableEq Hash] in
theorem Inv.settled (h : Inv digest w) : Settled w := by
  intro hrequests hnotices hdirty hsame
  have hloaded : w.doc.loaded = true := by
    by_contra hno
    have hloads := h.loads
    rw [hrequests, if_neg hno] at hloads
    cases hloads
  have hdraft : w.doc.draft = w.doc.baseline := (dirty_eq_false_iff _).mp hdirty hloaded
  have hhash : w.doc.hash = some (digest w.doc.baseline) := by
    obtain hhash | htrue := h.kept hloaded hsame
    · exact hhash
    · rw [hdirty] at htrue
      cases htrue
  rw [hdraft]
  obtain hbase | hdue | ⟨before, clean, result, hmem⟩ := h.news hloaded hsame hhash
  · exact hbase
  · obtain hnotice | ⟨_, _, _, _, _, _, hmem, -⟩ := hdue
    · rw [hnotices] at hnotice
      cases hnotice
    · rw [hrequests] at hmem
      cases hmem
  · rw [hrequests] at hmem
    cases hmem

/-- A run whose steps all meet the condition neither loses typed text nor hides a change. -/
theorem editor_safe (hdigest : Function.Injective digest) (relPath : String) (file : Option String)
    (steps : List Step) (h : Meeting digest (World.start relPath file) steps) :
    Safe digest ((World.start relPath file).run digest steps) := by
  have hinv := inv_run hdigest (inv_start relPath file) h
  exact ⟨hinv.replaces hdigest, hinv.typing, hinv.settled⟩

/-- A file is opened, edited, changed by another program, kept and saved. -/
def keptAndSaved : List Step :=
  [.perform 0, .answer 0, .edit "mine", .change (some "theirs"), .deliver 0, .keepMine, .save false,
    .perform 0, .answer 0]

theorem editor_safe_keptAndSaved :
    Meeting id (World.start "a.txt" (some "old")) keptAndSaved ∧
      Safe id ((World.start "a.txt" (some "old")).run id keptAndSaved) := by
  have hmeeting : Meeting id (World.start "a.txt" (some "old") : World String) keptAndSaved := by
    refine ⟨trivial, fun request hrequest => ?_, ⟨rfl, ?_, ?_⟩, trivial, trivial, ⟨rfl, .inr ⟨rfl, ?_⟩⟩,
      trivial, trivial, fun request hrequest => ?_, trivial⟩
    · cases hrequest
      intro content hcontent
      cases hcontent
      exact .inl rfl
    · exact fun _ h => absurd h (by decide +kernel)
    · exact fun _ _ _ hmem => by cases hmem
    · decide +kernel
    · cases hrequest
      exact ⟨.inl rfl, fun _ _ _ hmem => by cases hmem⟩
  exact ⟨hmeeting, editor_safe Function.injective_id "a.txt" (some "old") keptAndSaved hmeeting⟩

/-- The answer of a reload comes after the notice of a later change. -/
def lateReload : List Step :=
  [.perform 0, .answer 0, .edit "mine", .reload, .perform 0, .change (some "theirs"), .deliver 0, .answer 0]

/-- Edits are kept over a change and then taken back. -/
def keptAndUndone : List Step :=
  [.perform 0, .answer 0, .edit "mine", .change (some "theirs"), .deliver 0, .keepMine, .edit "old"]

/-- Under a silent reload the text is changed, saved over what is on disk, and changed back. -/
def changedBack : List Step :=
  [.perform 0, .answer 0, .change (some "theirs"), .deliver 0, .edit "mine", .save true, .perform 1, .answer 1,
    .edit "old", .perform 0]

theorem editor_unsafe :
    ¬ Settled ((World.start "a.txt" (some "old") : World String).run id lateReload) ∧
      ¬ Settled ((World.start "a.txt" (some "old") : World String).run id keptAndUndone) ∧
      ¬ KeepsTyping id ((World.start "a.txt" (some "old") : World String).run id changedBack) (.answer 0) := by
  refine ⟨fun h => ?_, fun h => ?_, fun h => ?_⟩
  · exact absurd (h rfl rfl (by decide +kernel) (by decide +kernel)) (by decide +kernel)
  · exact absurd (h rfl rfl (by decide +kernel) (by decide +kernel)) (by decide +kernel)
  · have hrequest : ((World.start "a.txt" (some "old") : World String).run id changedBack).requests[0]? =
        some (.read (.silent "old" false) (some ⟨some "mine", some "mine"⟩)) := rfl
    obtain ⟨text, hedit⟩ | ⟨i, result, hanswer, hother⟩ := h (by decide +kernel) (by decide +kernel)
    · cases hedit
    · cases hanswer
      rw [hrequest] at hother
      obtain hreload | ⟨before, hsilent⟩ := hother
      · cases hreload
      · cases hsilent

end Haruspex.Editor
