import Haruspex.CodeFolders.World

/-! Each notice is heard once. -/
namespace Haruspex.CodeFolders
open Runs
set_option autoImplicit false

/-! ## Looks of one session -/

/-- How many of some looks a session took. -/
def looksOf (s : String) (looks : List Look) : ℕ := looks.countP (fun l => l.1 = s)

/-- The time a session was given at its last look. -/
def lastLook (s : String) (looks : List Look) : Option ℤ :=
  (looks.find? (fun l => l.1 = s)).map Prod.snd

theorem looksOf_append (s : String) (a b : List Look) :
    looksOf s (a ++ b) = looksOf s a + looksOf s b := List.countP_append

theorem looksOf_pos_iff {s : String} {looks : List Look} :
    0 < looksOf s looks ↔ ∃ time, (s, time) ∈ looks := by
  unfold looksOf
  rw [List.countP_pos_iff]
  constructor
  · rintro ⟨⟨s', time⟩, hmem, hs⟩
    obtain rfl : s' = s := by simpa using hs
    exact ⟨time, hmem⟩
  · rintro ⟨time, hmem⟩
    exact ⟨(s, time), hmem, by simp⟩

/-- The last look is among the newer ones if any of them is the session's. -/
theorem lastLook_append_pos {s : String} {a b : List Look} (h : 0 < looksOf s a) :
    ∃ time, lastLook s (a ++ b) = some time ∧ (s, time) ∈ a := by
  unfold looksOf at h
  rw [List.countP_pos_iff] at h
  have hsome : (a.find? (fun l => l.1 = s)).isSome := by
    rw [List.find?_isSome]
    exact h
  obtain ⟨l, hl⟩ := Option.isSome_iff_exists.mp hsome
  obtain rfl : l.1 = s := by simpa using List.find?_some hl
  refine ⟨l.2, ?_, List.mem_of_find?_eq_some hl⟩
  unfold lastLook
  rw [List.find?_append, hl]
  rfl

theorem lastLook_append_zero {s : String} {a b : List Look} (h : looksOf s a = 0) :
    lastLook s (a ++ b) = lastLook s b := by
  unfold looksOf at h
  rw [List.countP_eq_zero] at h
  unfold lastLook
  rw [List.find?_append, List.find?_eq_none.mpr h, Option.none_or]

namespace World

section

variable {C : Type} [DecidableEq C] (components : String → List C) (folderOf : String → String)

/-! ## What sessions do -/

/-- A session looks in its own folder, from the time of its last look; and what is saved of it is its
folder and the time of some look it took. -/
def Follows (w : World) : Step → Prop
  | .take folder session since _ =>
    folder = folderOf session ∧ ∀ time ∈ lastLook session w.looks, since = time
  | .save mark => mark.key = folderOf mark.id ∧ (mark.id, mark.seen) ∈ w.looks
  | _ => True

instance (w : World) : (step : Step) → Decidable (Follows folderOf w step)
  | .take folder session since _ => inferInstanceAs (Decidable
      (folder = folderOf session ∧ ∀ time ∈ lastLook session w.looks, since = time))
  | .save mark => inferInstanceAs (Decidable
      (mark.key = folderOf mark.id ∧ (mark.id, mark.seen) ∈ w.looks))
  | .record _ _ _ _ _ => instDecidableTrue
  | .prune _ => instDecidableTrue

/-- A change is news to a session. -/
def IsNews (e : Recorded) (s : String) : Prop :=
  s ≠ e.notice.sessionId ∧ overlaps components e.notice.folder (folderOf s) = true

instance (e : Recorded) (s : String) : Decidable (IsNews components folderOf e s) :=
  inferInstanceAs (Decidable
    (s ≠ e.notice.sessionId ∧ overlaps components e.notice.folder (folderOf s) = true))

/-! ## Invariants -/

/-- What has been recorded, before this run and in it. -/
def known (initial : List StoredNotice) (w : World) : List StoredNotice :=
  initial ++ w.recorded.map Recorded.notice

/-- Where a notice stands with a session it is news to. -/
def Fate (w : World) (e : Recorded) (s : String) : Prop :=
  (looksOf s w.looks = looksOf s e.before ∧ w.told.count (s, e.notice) = 0 ∧
    (s ∈ e.saved → e.notice ∈ w.db.notices ∨ e.notice ∈ w.expired)) ∨
  (looksOf s e.before < looksOf s w.looks ∧ w.told.count (s, e.notice) ≤ 1 ∧
    (s ∈ e.saved → w.told.count (s, e.notice) = 1 ∨ e.notice ∈ w.expired))

/-- A clean-up that knows of a notice. -/
structure JobSound (looks : List Look) (e : Recorded) (marks : List SeenMark) : Prop where
  saved : ∀ s ∈ e.saved, ∃ m ∈ marks, m.id = s
  keys : ∀ m ∈ marks, m.key = folderOf m.id
  looked : ∀ m ∈ marks, e.notice.time ≤ m.seen → looksOf m.id e.before < looksOf m.id looks

structure EntrySound (w : World) (e : Recorded) : Prop where
  looks : ∃ since, w.looks = since ++ e.before ∧ (∀ l ∈ since, e.notice.time ≤ l.2) ∧
    ∀ l ∈ e.before, l.2 < e.notice.time
  saved : ∀ s ∈ e.saved, ∃ m ∈ w.db.sessions, m.id = s
  jobs : ∀ now stored marks, .marked now stored marks ∈ w.jobs → e.notice ∈ stored →
    JobSound folderOf w.looks e marks
  fate : ∀ s, IsNews components folderOf e s → 0 < looksOf s e.before → Fate w e s

structure Sound (initial : List StoredNotice) (w : World) : Prop where
  ids : ∀ n ∈ known initial w, n.id < w.db.nextId
  distinct : ((known initial w).map StoredNotice.id).Nodup
  stored : ∀ n ∈ w.db.notices, n ∈ known initial w
  nodup : w.db.notices.Nodup
  read : ∀ job ∈ w.jobs, ∀ n ∈ job.stored, n ∈ known initial w
  told : ∀ p ∈ w.told, p.2 ∈ known initial w
  looks_le : ∀ l ∈ w.looks, l.2 ≤ w.inner.clock
  times_le : ∀ e ∈ w.recorded, e.notice.time ≤ w.inner.clock
  increasing : w.recorded.Pairwise (fun e e' => e.notice.time < e'.notice.time)
  marks : ∀ m ∈ w.db.sessions, m.key = folderOf m.id ∧ (m.id, m.seen) ∈ w.looks
  entries : ∀ e ∈ w.recorded, EntrySound components folderOf w e

theorem start_sound {initial : List StoredNotice} {nextId : ℕ} (hids : ∀ n ∈ initial, n.id < nextId)
    (hdistinct : (initial.map StoredNotice.id).Nodup) :
    Sound components folderOf initial (start initial nextId) where
  ids := by simpa [known, start] using hids
  distinct := by simpa [known, start] using hdistinct
  stored := by simp [known, start]
  nodup := List.Nodup.of_map _ hdistinct
  read := by simp [start]
  told := by simp [start]
  looks_le := by simp [start]
  times_le := by simp [start]
  increasing := List.Pairwise.nil
  marks := by simp [start]
  entries := by simp [start]

variable {components} {folderOf} {initial : List StoredNotice} {w : World}

/-- A notice is known by its id. -/
theorem Sound.eq_of_id (h : Sound components folderOf initial w) {n n' : StoredNotice}
    (hn : n ∈ known initial w) (hn' : n' ∈ known initial w) (hid : n.id = n'.id) : n = n' :=
  List.inj_on_of_nodup_map h.distinct hn hn' hid

theorem Sound.mem_known (_h : Sound components folderOf initial w) {e : Recorded}
    (he : e ∈ w.recorded) : e.notice ∈ known initial w :=
  List.mem_append_right _ (List.mem_map_of_mem he)

/-- A look that was given a later time came after the notice. -/
theorem EntrySound.looked {e : Recorded} (h : EntrySound components folderOf w e) {s : String}
    {time : ℤ} (hmem : (s, time) ∈ w.looks) (htime : e.notice.time ≤ time) :
    looksOf s e.before < looksOf s w.looks := by
  obtain ⟨since, hlooks, -, hbefore⟩ := h.looks
  rw [hlooks, List.mem_append] at hmem
  have hsince : (s, time) ∈ since := by
    cases hmem with
    | inl hsince => exact hsince
    | inr hold =>
      have := hbefore (s, time) hold
      exact absurd htime (by omega)
  have hpos := looksOf_pos_iff.mpr ⟨time, hsince⟩
  rw [hlooks, looksOf_append]
  omega

/-! ## A session is saved -/

theorem save_sound (h : Sound components folderOf initial w) {mark : SeenMark}
    (hkey : mark.key = folderOf mark.id) (hseen : (mark.id, mark.seen) ∈ w.looks) :
    Sound components folderOf initial { w with db := w.db.saveSession mark } := by
  refine { h with marks := fun m hmem => ?_, entries := fun e he => ?_ }
  · have hmem' : m ∈ w.db.sessions.filter (fun m => m.id ≠ mark.id) ++ [mark] := hmem
    rw [List.mem_append, List.mem_filter, List.mem_singleton] at hmem'
    cases hmem' with
    | inl hold => exact h.marks m hold.1
    | inr hnew => rw [hnew]; exact ⟨hkey, hseen⟩
  · refine { h.entries e he with saved := fun s hs => ?_ }
    obtain ⟨m, hm, hid⟩ := (h.entries e he).saved s hs
    by_cases hsame : m.id = mark.id
    · exact ⟨mark, List.mem_append_right _ (List.mem_singleton_self mark), hsame.symm.trans hid⟩
    · refine ⟨m, List.mem_append_left _ (List.mem_filter.mpr ⟨hm, ?_⟩), hid⟩
      simpa using hsame

/-! ## A clean-up goes on -/

/-- A clean-up reads the notices. -/
theorem begun_sound (h : Sound components folderOf initial w) (k : ℕ) (now : ℤ) :
    Sound components folderOf initial
      { w with jobs := w.jobs.set k (.read now w.db.codeNotices) } := by
  refine { h with read := fun job hjob n hn => ?_, entries := fun e he => ?_ }
  · cases List.mem_or_eq_of_mem_set hjob with
    | inl hold => exact h.read job hold n hn
    | inr hnew => exact h.stored n (mem_codeNotices.mp (by rwa [hnew] at hn))
  · refine { h.entries e he with jobs := fun now' stored marks hjob hmem => ?_ }
    cases List.mem_or_eq_of_mem_set hjob with
    | inl hold => exact (h.entries e he).jobs now' stored marks hold hmem
    | inr hnew => cases hnew

/-- A clean-up reads the saved sessions. -/
theorem read_sound (h : Sound components folderOf initial w) {k : ℕ} {now : ℤ}
    {stored : List StoredNotice} (hjob : w.jobs[k]? = some (.read now stored)) :
    Sound components folderOf initial
      { w with jobs := w.jobs.set k (.marked now stored w.db.sessions) } := by
  have hknown := h.read (.read now stored) (List.mem_of_getElem? hjob)
  refine { h with read := fun job hjob n hn => ?_, entries := fun e he => ?_ }
  · cases List.mem_or_eq_of_mem_set hjob with
    | inl hold => exact h.read job hold n hn
    | inr hnew => exact hknown n (by rwa [hnew] at hn)
  · refine { h.entries e he with jobs := fun now' stored' marks hjob hmem => ?_ }
    cases List.mem_or_eq_of_mem_set hjob with
    | inl hold => exact (h.entries e he).jobs now' stored' marks hold hmem
    | inr hnew =>
      obtain ⟨rfl, rfl, rfl⟩ := Job.marked.inj hnew
      exact ⟨(h.entries e he).saved, fun m hm => (h.marks m hm).1,
        fun m hm htime => (h.entries e he).looked (h.marks m hm).2 htime⟩

/-- A clean-up deletes what it is done with. -/
theorem marked_sound (h : Sound components folderOf initial w) {k : ℕ} {now : ℤ}
    {stored : List StoredNotice} {marks : List SeenMark}
    (hjob : w.jobs[k]? = some (.marked now stored marks)) :
    Sound components folderOf initial
      { w with
        db := w.db.deleteCodeNotices ((done components stored marks now).map StoredNotice.id)
        jobs := w.jobs.eraseIdx k
        expired := w.expired ++ stale stored now } := by
  have hmem := List.mem_of_getElem? hjob
  have hjobs (job : Job) (hmem : job ∈ w.jobs.eraseIdx k) : job ∈ w.jobs :=
    List.mem_of_mem_eraseIdx hmem
  have hkept {n : StoredNotice} (hn : n ∈ (w.db.deleteCodeNotices
      ((done components stored marks now).map StoredNotice.id)).notices) : n ∈ w.db.notices :=
    List.mem_of_mem_filter hn
  refine { h with
    stored := fun n hn => h.stored n (hkept hn)
    nodup := h.nodup.filter _
    read := fun job hmem => h.read job (hjobs job hmem)
    entries := fun e he => ?_ }
  have hentry := h.entries e he
  refine { hentry with
    jobs := fun now' stored' marks' hmem => hentry.jobs now' stored' marks' (hjobs _ hmem)
    fate := fun s hnews hlooked => ?_ }
  have hexpired : e.notice ∈ w.expired → e.notice ∈ w.expired ++ stale stored now :=
    List.mem_append_left _
  cases hentry.fate s hnews hlooked with
  | inr hfate => exact Or.inr ⟨hfate.1, hfate.2.1, fun hs => (hfate.2.2 hs).imp_right hexpired⟩
  | inl hfate =>
    refine Or.inl ⟨hfate.1, hfate.2.1, fun hs => ?_⟩
    cases hfate.2.2 hs with
    | inr hold => exact Or.inr (hexpired hold)
    | inl hthere =>
      by_cases hdone : e.notice.id ∈ (done components stored marks now).map StoredNotice.id
      · obtain ⟨n, hn, hid⟩ := List.mem_map.mp hdone
        rw [mem_done_iff] at hn
        have hstored : n ∈ stored := hn.elim mem_of_mem_stale And.left
        obtain rfl := h.eq_of_id (h.read _ hmem n hstored) (h.mem_known he) hid
        cases hn with
        | inl hstale => exact Or.inr (List.mem_append_right _ hstale)
        | inr hheard =>
          -- The session is saved and has not looked, so it is not among those that heard.
          have hjobSound := hentry.jobs now stored marks hmem hstored
          obtain ⟨m, hm, rfl⟩ := hjobSound.saved s hs
          have hcounts : m ∈ marks.filter (fun m => m.id ≠ e.notice.sessionId &&
              overlaps components m.key e.notice.folder) := by
            rw [List.mem_filter, hjobSound.keys m hm, overlaps_comm]
            exact ⟨hm, by simpa using And.intro hnews.1 hnews.2⟩
          have hseen := List.all_eq_true.mp hheard.2 m hcounts
          have hlater := hjobSound.looked m hm (by simpa using hseen)
          omega
      · exact Or.inl (List.mem_filter.mpr ⟨hthere, by simpa using hdone⟩)

theorem prune_sound (h : Sound components folderOf initial w) (k : ℕ) :
    Sound components folderOf initial (w.prune components k) := by
  unfold prune
  split
  · exact h
  · exact begun_sound h k _
  · rename_i hjob
    exact read_sound h hjob
  · rename_i hjob
    exact marked_sound h hjob

/-! ## A session looks -/

/-- A session is told once of each notice, and no other session is. -/
theorem count_map_mk (s session : String) (n : StoredNotice) {l : List StoredNotice} (h : l.Nodup) :
    (l.map (Prod.mk session)).count (s, n) = if s = session ∧ n ∈ l then 1 else 0 := by
  have hnodup : (l.map (Prod.mk session)).Nodup := h.map (Prod.mk_right_injective session)
  rw [hnodup.count]
  have hmem : (s, n) ∈ l.map (Prod.mk session) ↔ s = session ∧ n ∈ l := by
    rw [List.mem_map]
    constructor
    · rintro ⟨n', hn', heq⟩
      obtain ⟨rfl, rfl⟩ := Prod.mk.inj heq
      exact ⟨rfl, hn'⟩
    · rintro ⟨rfl, hn⟩
      exact ⟨n, hn, rfl⟩
  simp only [hmem]

theorem nodup_news (h : w.db.notices.Nodup) (folder session : String) (since : ℤ) :
    (news components w.db.codeNotices folder session since).Nodup :=
  ((List.perm_insertionSort _ _).nodup_iff.mpr h).filter _

theorem mem_news_iff {folder session : String} {since : ℤ} {n : StoredNotice} :
    n ∈ news components w.db.codeNotices folder session since ↔
      n ∈ w.db.notices ∧ since < n.time ∧ n.sessionId ≠ session ∧
        overlaps components n.folder folder = true := by
  unfold news
  rw [List.mem_filter, mem_codeNotices]
  simp [and_assoc]

/-- What a look changes for a session and a notice that is news to it. -/
theorem take_fate {e : Recorded} (hentry : EntrySound components folderOf w e)
    (hnodup : w.db.notices.Nodup) {session : String} {since now : ℤ}
    (hsince : ∀ time, lastLook session w.looks = some time → since = time) {s : String}
    (hnews : IsNews components folderOf e s) (hlooked : 0 < looksOf s e.before) :
    Fate (w.take components (folderOf session) session since now) e s := by
  obtain ⟨newer, hlooks, hlater, hbefore⟩ := hentry.looks
  have hfate := hentry.fate s hnews hlooked
  have htold : (w.take components (folderOf session) session since now).told.count (s, e.notice) =
      w.told.count (s, e.notice) + if s = session ∧
        e.notice ∈ news components w.db.codeNotices (folderOf session) session since
        then 1 else 0 := by
    show (w.told ++ _).count (s, e.notice) = _
    rw [List.count_append, count_map_mk s session e.notice (nodup_news hnodup _ _ _)]
  have hcount : looksOf s (w.take components (folderOf session) session since now).looks =
      looksOf s w.looks + if session = s then 1 else 0 := by
    show looksOf s (_ :: w.looks) = _
    unfold looksOf
    rw [List.countP_cons]
    simp
  unfold Fate at hfate ⊢
  rw [htold, hcount]
  by_cases hsame : session = s
  · subst hsame
    rw [if_pos rfl, hlooks, looksOf_append]
    rw [hlooks, looksOf_append] at hfate
    by_cases hfirst : looksOf session newer = 0
    · -- The first look since the notice: it is told of, if it is still there.
      obtain ⟨time, htime⟩ := looksOf_pos_iff.mp hlooked
      obtain ⟨last, hlast, hmem⟩ := lastLook_append_pos (b := []) hlooked
      rw [List.append_nil] at hlast
      have hbehind := hbefore (session, last) hmem
      have hsince' : since = last := hsince last (by rw [hlooks, lastLook_append_zero hfirst, hlast])
      obtain ⟨-, hnone, hsaved⟩ | ⟨hmore, -⟩ := hfate
      · refine Or.inr ⟨by omega, by rw [hnone]; split <;> omega, fun hs => ?_⟩
        cases hsaved hs with
        | inr hexpired => exact Or.inr hexpired
        | inl hthere =>
          have hnew : e.notice ∈ news components w.db.codeNotices (folderOf session) session since :=
            mem_news_iff.mpr ⟨hthere, by omega, Ne.symm hnews.1, hnews.2⟩
          exact Or.inl (by rw [hnone, if_pos ⟨rfl, hnew⟩])
      · omega
    · -- A later look: the last one was already given a later time.
      obtain ⟨last, hlast, hmem⟩ := lastLook_append_pos (b := e.before) (Nat.pos_of_ne_zero hfirst)
      have hpast := hlater (session, last) hmem
      have hsince' : since = last := hsince last (by rw [hlooks, hlast])
      have hold : ¬ (session = session ∧
          e.notice ∈ news components w.db.codeNotices (folderOf session) session since) := by
        rw [mem_news_iff]
        rintro ⟨-, -, htime, -⟩
        omega
      rw [if_neg hold, Nat.add_zero]
      obtain ⟨heq, -⟩ | ⟨-, hone, hsaved⟩ := hfate
      · omega
      · exact Or.inr ⟨by omega, hone, hsaved⟩
  · rw [if_neg hsame, if_neg (fun h => hsame h.1.symm), Nat.add_zero, Nat.add_zero]
    exact hfate

theorem take_sound (h : Sound components folderOf initial w) {session : String} {since now : ℤ}
    (hsince : ∀ time, lastLook session w.looks = some time → since = time) :
    Sound components folderOf initial
      (w.take components (folderOf session) session since now) := by
  obtain ⟨hclock, hnewest⟩ := look_clock w.inner w.db.codeNotices now
  refine { h with
    read := fun job hmem n hn => ?_
    told := fun p hmem => ?_
    looks_le := fun l hmem => ?_
    times_le := fun e he => Int.le_trans (h.times_le e he) hclock
    marks := fun m hm => ⟨(h.marks m hm).1, List.mem_cons_of_mem _ (h.marks m hm).2⟩
    entries := fun e he => ?_ }
  · cases List.mem_append.mp hmem with
    | inl hold => exact h.read job hold n hn
    | inr hnew =>
      rw [List.mem_singleton.mp hnew] at hn
      cases hn
  · cases List.mem_append.mp hmem with
    | inl hold => exact h.told p hold
    | inr hnew =>
      obtain ⟨n, hn, rfl⟩ := List.mem_map.mp hnew
      exact h.stored n (mem_news_iff.mp hn).1
  · cases hmem with
    | head => exact Int.le_refl _
    | tail _ hold => exact Int.le_trans (h.looks_le l hold) hclock
  · have hentry := h.entries e he
    have hmore (s : String) : looksOf s w.looks ≤
        looksOf s (w.take components (folderOf session) session since now).looks :=
      (List.sublist_cons_self _ _).countP_le
    refine ⟨?_, hentry.saved, fun now' stored marks hjob hmem => ?_,
      fun s hnews hlooked => take_fate hentry h.nodup hsince hnews hlooked⟩
    · obtain ⟨newer, hlooks, hlater, hbefore⟩ := hentry.looks
      refine ⟨(session, (w.inner.look w.db.codeNotices now).clock) :: newer, ?_, ?_, hbefore⟩
      · show _ :: w.looks = _
        rw [hlooks]
        rfl
      · intro l hl
        cases hl with
        | head => exact Int.le_trans (h.times_le e he) hclock
        | tail _ hold => exact hlater l hold
    · have hjob' : Job.marked now' stored marks ∈ w.jobs := by
        cases List.mem_append.mp hjob with
        | inl hold => exact hold
        | inr hnew => cases List.mem_singleton.mp hnew
      have hsound := hentry.jobs now' stored marks hjob' hmem
      exact ⟨hsound.saved, hsound.keys, fun m hm htime =>
        Nat.lt_of_lt_of_le (hsound.looked m hm htime) (hmore m.id)⟩

/-! ## A session records -/

theorem record_sound (h : Sound components folderOf initial w) (folder session title : String)
    (files : List String) (now : ℤ) :
    Sound components folderOf initial (w.record folder session title files now) := by
  unfold record
  split
  · exact h
  · obtain ⟨hclock, -⟩ := tickPast_clock w.inner w.db.codeNotices now
    dsimp only
    generalize w.inner.tickPast w.db.codeNotices now = inner at hclock ⊢
    generalize hn : w.db.newNotice folder session title files inner.clock = n
    have hid : n.id = w.db.nextId := by rw [← hn]; rfl
    have htime : n.time = inner.clock := by rw [← hn]; rfl
    have hnew : n ∉ known initial w := fun hmem => by
      have := h.ids n hmem
      omega
    have hknown (w' : World)
        (hw' : w'.recorded = w.recorded ++ [⟨n, w.looks, w.db.sessions.map SeenMark.id⟩]) :
        known initial w' = known initial w ++ [n] := by
      simp [known, hw']
    have hbefore {m : StoredNotice} (hm : m ∈ known initial w) : m ∈ known initial w ++ [n] :=
      List.mem_append_left _ hm
    have hlooks (l : Look) (hl : l ∈ w.looks) : l.2 < n.time := by
      have := h.looks_le l hl
      omega
    have hjobs (job : Job) (hjob : job ∈ w.jobs ++ [.begun now]) :
        job ∈ w.jobs ∨ job.stored = [] := by
      cases List.mem_append.mp hjob with
      | inl hold => exact Or.inl hold
      | inr hlast => rw [List.mem_singleton.mp hlast]; exact Or.inr rfl
    constructor
    · intro m hm
      rw [hknown _ rfl, List.mem_append, List.mem_singleton] at hm
      show m.id < w.db.nextId + 1
      cases hm with
      | inl hold => exact Nat.lt_succ_of_lt (h.ids m hold)
      | inr hlast => rw [hlast, hid]; exact Nat.lt_succ_self _
    · rw [hknown _ rfl, List.map_append, List.nodup_append]
      refine ⟨h.distinct, List.nodup_singleton _, fun a ha b hb => ?_⟩
      obtain ⟨m, hm, rfl⟩ := List.mem_map.mp ha
      have := h.ids m hm
      rw [List.map_singleton, List.mem_singleton] at hb
      omega
    · intro m hm
      rw [hknown _ rfl]
      cases List.mem_append.mp hm with
      | inl hold => exact hbefore (h.stored m hold)
      | inr hlast => exact List.mem_append_right _ hlast
    · refine List.nodup_append.mpr ⟨h.nodup, List.nodup_singleton n, fun a ha b hb => ?_⟩
      rw [List.mem_singleton.mp hb]
      exact fun heq => hnew (heq ▸ h.stored a ha)
    · intro job hjob m hm
      rw [hknown _ rfl]
      cases hjobs job hjob with
      | inl hold => exact hbefore (h.read job hold m hm)
      | inr hnone => rw [hnone] at hm; cases hm
    · intro p hp
      rw [hknown _ rfl]
      exact hbefore (h.told p hp)
    · intro l hl
      exact Int.le_of_lt (htime ▸ hlooks l hl)
    · intro e he
      cases List.mem_append.mp he with
      | inl hold => exact Int.le_trans (h.times_le e hold) (Int.le_of_lt hclock)
      | inr hlast => rw [List.mem_singleton.mp hlast]; exact Int.le_of_eq htime
    · refine List.pairwise_append.mpr ⟨h.increasing, List.pairwise_singleton _ _, fun e he e' he' => ?_⟩
      rw [List.mem_singleton.mp he']
      have := h.times_le e he
      show e.notice.time < n.time
      omega
    · exact h.marks
    · intro e he
      cases List.mem_append.mp he with
      | inl hold =>
        have hentry := h.entries e hold
        refine ⟨hentry.looks, hentry.saved, fun now' stored marks hjob hmem => ?_,
          fun s hnews hlooked => ?_⟩
        · cases hjobs _ hjob with
          | inl hbefore => exact hentry.jobs now' stored marks hbefore hmem
          | inr hnone =>
            rw [show stored = [] from hnone] at hmem
            cases hmem
        · have hthere : e.notice ∈ w.db.notices → e.notice ∈ w.db.notices ++ [n] :=
            List.mem_append_left _
          exact (hentry.fate s hnews hlooked).imp_left
            fun hfate => ⟨hfate.1, hfate.2.1, fun hs => (hfate.2.2 hs).imp_left hthere⟩
      | inr hlast =>
        rw [List.mem_singleton.mp hlast]
        refine ⟨⟨[], rfl, by simp, hlooks⟩, fun s hs => ?_, fun now' stored marks hjob hmem => ?_,
          fun s hnews hlooked => Or.inl ⟨rfl, ?_, fun _ => Or.inl ?_⟩⟩
        · exact List.mem_map.mp hs
        · cases hjobs _ hjob with
          | inl hbefore => exact absurd (h.read _ hbefore n hmem) hnew
          | inr hnone =>
            rw [show stored = [] from hnone] at hmem
            cases hmem
        · exact List.count_eq_zero.mpr fun hmem => hnew (h.told _ hmem)
        · exact List.mem_append_right _ (List.mem_singleton_self n)

/-! ## Any run -/

theorem apply_sound (h : Sound components folderOf initial w) {step : Step}
    (hfollows : Follows folderOf w step) :
    Sound components folderOf initial (w.apply components step) := by
  cases step with
  | record folder session title files now => exact record_sound h folder session title files now
  | take folder session since now =>
    obtain ⟨rfl, hsince⟩ := hfollows
    exact take_sound h hsince
  | save mark => exact save_sound h hfollows.1 hfollows.2
  | prune k => exact prune_sound h k

end

section

variable {C : Type} [DecidableEq C] (components : String → List C) (folderOf : String → String)

end

/-! ## Two sessions of one folder -/

/-- One looks, the other changes a file, and the first looks again; with its turn saved before or
not. -/
def twoSessions (saves : List Step) : List Step :=
  [.take "/repo" "b" 0 1000, .prune 0, .prune 0, .prune 0] ++ saves ++
    [.record "/repo" "a" "Alpha" ["/repo/a.ts"] 1001, .prune 0, .prune 0, .prune 0,
      .take "/repo" "b" 1000 1002]

/-- The change, when some sessions are saved. -/
def change (saved : List String) : Recorded :=
  ⟨⟨0, "/repo", "a", "Alpha", ["/repo/a.ts"], 1001⟩, [("b", 1000)], saved⟩

end World

end Haruspex.CodeFolders
