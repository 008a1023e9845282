import Haruspex.FsTools.Path
import Haruspex.Library.PathWalks

/-! What a write at a resolved path can touch: something outside the working directory only through a
link where the path stops being there. -/
namespace Haruspex.FsTools
open Files
set_option autoImplicit false

variable {fs : FileSystem}

/-! ## Paths with nothing to go up -/

theorem mem_split_of_mem {p q : Char → Bool} (hpq : ∀ c, p c = true → q c = true) (cs : List Char) :
    (∀ seg, (cs.splitOnP p).head? = some seg → (∀ c ∈ seg, q c = false) →
        (cs.splitOnP q).head? = some seg) ∧
      ∀ seg ∈ (cs.splitOnP p).tail, (∀ c ∈ seg, q c = false) → seg ∈ (cs.splitOnP q).tail := by
  induction cs with
  | nil => simp
  | cons c cs ih =>
    obtain ⟨ihhead, ihtail⟩ := ih
    have hmem (seg : List Char) (hseg : seg ∈ cs.splitOnP p) (hplain : ∀ c ∈ seg, q c = false) :
        seg ∈ cs.splitOnP q := by
      cases hsplit : cs.splitOnP p with
      | nil =>
        rw [hsplit] at hseg
        cases hseg
      | cons first rest =>
        rw [hsplit] at hseg ihhead ihtail
        rcases List.mem_cons.mp hseg with rfl | hrest
        · exact List.mem_of_mem_head? (ihhead seg rfl hplain)
        · exact List.mem_of_mem_tail (ihtail seg hrest hplain)
    rw [List.splitOnP_cons_eq_if_modifyHead, List.splitOnP_cons_eq_if_modifyHead]
    by_cases hp : p c = true
    · rw [if_pos hp, if_pos (hpq c hp)]
      exact ⟨fun seg hseg _ => hseg, hmem⟩
    · rw [if_neg hp]
      by_cases hq : q c = true
      · rw [if_pos hq]
        refine ⟨fun seg hseg hplain => ?_, fun seg hseg hplain => ?_⟩
        · rw [List.head?_modifyHead, Option.map_eq_some_iff] at hseg
          obtain ⟨tail, -, rfl⟩ := hseg
          rw [hplain c List.mem_cons_self] at hq
          cases hq
        · rw [List.tail_modifyHead] at hseg
          exact List.mem_of_mem_tail (ihtail seg hseg hplain)
      · rw [if_neg hq]
        refine ⟨fun seg hseg hplain => ?_, fun seg hseg hplain => ?_⟩
        · rw [List.head?_modifyHead, Option.map_eq_some_iff] at hseg ⊢
          obtain ⟨tail, htail, rfl⟩ := hseg
          exact ⟨tail, ihhead tail htail fun c' hc' => hplain c' (List.mem_cons_of_mem _ hc'), rfl⟩
        · rw [List.tail_modifyHead] at hseg ⊢
          exact ihtail seg hseg hplain

/-- A path that is not turned away has no `..`. -/
theorem names_plain {relPath : String} (h : hasTraversal relPath = false) :
    ".." ∉ (parsePath relPath).names := by
  intro hmem
  simp only [parsePath, List.mem_filter, List.mem_map] at hmem
  obtain ⟨⟨seg, ⟨hseg, -⟩, htext⟩, -⟩ := hmem
  have hdots : seg = ['.', '.'] := by
    have hlist := congrArg String.toList htext
    rw [String.toList_ofList] at hlist
    exact hlist
  rw [hdots] at hseg
  have hsplit := mem_split_of_mem (p := fun c => c == '/') (q := fun c => c = '/' || c = '\\')
    (by simp) relPath.toList
  have hplain : ∀ c ∈ ['.', '.'], (decide (c = '/') || decide (c = '\\')) = false := by simp
  have htraversal : ['.', '.'] ∈ relPath.toList.splitOnP (fun c => c = '/' || c = '\\') := by
    cases hcut : relPath.toList.splitOnP (fun c => c == '/') with
    | nil =>
      rw [List.splitOn, hcut] at hseg
      cases hseg
    | cons first rest =>
      rw [List.splitOn, hcut] at hseg
      rw [hcut] at hsplit
      rcases List.mem_cons.mp hseg with hfirst | hrest
      · exact List.mem_of_mem_head? (hsplit.1 _ (congrArg some hfirst.symm) hplain)
      · exact List.mem_of_mem_tail (hsplit.2 _ hrest hplain)
  rw [hasTraversal, decide_eq_false_iff_not] at h
  exact h htraversal

theorem names_ne_dot (path : String) : "." ∉ (parsePath path).names := by
  simp [parsePath]

/-! ## Where a path stops -/

/-- A path that does not lead anywhere: its deepest ancestor that does, and the names that are left. -/
structure Stops (fs : FileSystem) (path : RawPath) (existing : List String) (first : String)
    (more place : List String) : Prop where
  names : path.names = existing ++ first :: more
  leads : fs.resolve (FileSystem.plain existing) = .ok place
  deepest : ∀ longer, (longer <+: path.names ∧ longer ≠ path.names) →
    fs.pathExists (FileSystem.plain longer) = true → longer.length ≤ existing.length
  missing : fs.pathExists path = false

theorem pathExists_iff {p : RawPath} : fs.pathExists p = true ↔ ∃ place, fs.resolve p = .ok place := by
  unfold FileSystem.pathExists
  cases fs.resolve p with
  | error e => simp [Except.toOption]
  | ok place => simp [Except.toOption]

/-- A path above a name is one above the name's parent, or the parent. -/
theorem above_iff {names longer : List String} {name : String} :
    (longer <+: names ++ [name] ∧ longer ≠ names ++ [name]) ↔ longer <+: names := by
  constructor
  · rintro ⟨h, hne⟩
    have hle := h.length_le
    rw [List.length_append, List.length_singleton] at hle
    refine List.prefix_of_prefix_length_le h (List.prefix_append names [name]) ?_
    by_contra hlt
    exact hne (h.eq_of_length (by rw [List.length_append, List.length_singleton]; omega))
  · intro h
    refine ⟨h.trans (List.prefix_append names [name]), fun heq => ?_⟩
    have hle := h.length_le
    rw [heq, List.length_append, List.length_singleton] at hle
    omega

theorem deepestAncestor_eq_some {names existing : List String} :
    deepestAncestor fs names = some existing ↔
      fs.pathExists (FileSystem.plain existing) = true ∧ (existing <+: names.reverse ∧
        existing ≠ names.reverse) ∧ ∀ longer, (longer <+: names.reverse ∧ longer ≠ names.reverse) →
          fs.pathExists (FileSystem.plain longer) = true → longer.length ≤ existing.length := by
  induction names with
  | nil => simp [deepestAncestor]
  | cons name parents ih =>
    rw [deepestAncestor, List.reverse_cons]
    simp only [above_iff]
    split
    · rename_i hthere
      rw [Option.some_inj]
      constructor
      · rintro rfl
        exact ⟨hthere, List.prefix_refl _, fun longer hlonger _ => hlonger.length_le⟩
      · rintro ⟨-, hbelow, hdeepest⟩
        exact (hbelow.eq_of_length_le (hdeepest _ (List.prefix_refl _) hthere)).symm
    · rename_i hmissing
      have hother (longer : List String) (h : fs.pathExists (FileSystem.plain longer) = true) :
          longer ≠ parents.reverse := by
        rintro rfl
        exact hmissing h
      rw [ih]
      constructor
      · rintro ⟨hexists, hbelow, hdeepest⟩
        exact ⟨hexists, hbelow.1, fun longer hlonger h => hdeepest longer ⟨hlonger, hother longer h⟩ h⟩
      · rintro ⟨hexists, hbelow, hdeepest⟩
        exact ⟨hexists, ⟨hbelow, hother existing hexists⟩,
          fun longer hlonger h => hdeepest longer hlonger.1 h⟩

/-- What is left of a path that is not there is put after its deepest ancestor that is. -/
theorem resolveNonexistent_eq_ok {candidate : RawPath} {p : List String}
    (hmissing : fs.pathExists candidate = false) (hplain : ".." ∉ candidate.names) :
    resolveNonexistent fs candidate = .ok p ↔
      ∃ existing first more place, Stops fs candidate existing first more place ∧
        p = place ++ first :: more := by
  unfold resolveNonexistent
  constructor
  · intro h
    split at h
    · cases h
    · rename_i existing hancestor
      obtain ⟨hexists, ⟨⟨tail, htail⟩, hne⟩, hdeepest⟩ := deepestAncestor_eq_some.mp hancestor
      rw [List.reverse_reverse] at htail hne hdeepest
      rw [← htail, List.drop_left] at h
      dsimp only at h
      split at h
      · cases h
      · split at h
        · cases h
        · rename_i place hplace
          cases tail with
          | nil => exact absurd (by rw [← htail, List.append_nil]) hne
          | cons first more =>
            exact ⟨existing, first, more, place, ⟨htail.symm, hplace, hdeepest, hmissing⟩,
              (Except.ok.inj h).symm⟩
  · rintro ⟨existing, first, more, place, hstops, rfl⟩
    have hproper : existing <+: candidate.names ∧ existing ≠ candidate.names := by
      rw [hstops.names]
      exact ⟨List.prefix_append _ _, by simp⟩
    have hancestor : deepestAncestor fs candidate.names.reverse = some existing := by
      rw [deepestAncestor_eq_some, List.reverse_reverse]
      exact ⟨pathExists_iff.mpr ⟨place, hstops.leads⟩, hproper, hstops.deepest⟩
    have hdrop : candidate.names.drop existing.length = first :: more := by
      rw [hstops.names, List.drop_left]
    have htail : ".." ∉ first :: more := by
      intro hmem
      rw [hstops.names] at hplain
      exact hplain (List.mem_append_right _ hmem)
    rw [hancestor]
    dsimp only
    rw [hdrop, if_neg htail, hstops.leads]

/-! ## Where a resolved path is -/

/-- What a path in a working directory stands for. -/
def candidate (workdir : List String) (relPath : String) : RawPath :=
  if (parsePath relPath).absolute then parsePath relPath else joined workdir (parsePath relPath)

/-- How a path comes to be resolved. -/
inductive Resolves (fs : FileSystem) (wd : List String) (relPath : String) (p : List String) : Prop
  | there (h : fs.resolve (candidate wd relPath) = .ok p)
  | stops (existing : List String) (first : String) (more place : List String)
      (h : Stops fs (candidate wd relPath) existing first more place) (hp : p = place ++ first :: more)

theorem candidate_plain {wd : List String} {relPath : String} (hwd : fs.Settled wd)
    (h : hasTraversal relPath = false) : "." ∉ (candidate wd relPath).names ∧
      ".." ∉ (candidate wd relPath).names := by
  have hreal : ∀ n ∈ wd, n ≠ "." ∧ n ≠ ".." :=
    FileSystem.real_names wd (by rw [List.nil_append]; exact FileSystem.settled_isSome hwd)
  have hdot := names_ne_dot relPath
  have hup := names_plain h
  unfold candidate
  split
  · exact ⟨hdot, hup⟩
  · unfold joined
    dsimp only
    simp only [List.mem_append, not_or]
    exact ⟨⟨fun hmem => (hreal _ hmem).1 rfl, hdot⟩, fun hmem => (hreal _ hmem).2 rfl, hup⟩

theorem pathExists_of_error {p : RawPath} {e : Errno} (h : fs.resolve p = .error e) :
    fs.pathExists p = false := by
  rw [FileSystem.pathExists, h]
  rfl

theorem resolves_of_ok {wd place p : List String} {relPath : String}
    (h : fs.resolve (candidate wd relPath) = .ok place) :
    Resolves fs wd relPath p ↔ place = p := by
  constructor
  · intro hresolves
    cases hresolves with
    | there hp => exact Except.ok.inj (h.symm.trans hp)
    | stops existing first more place' hstops hp =>
      have hmissing := hstops.missing
      rw [pathExists_iff.mpr ⟨place, h⟩] at hmissing
      cases hmissing
  · rintro rfl
    exact .there h

theorem resolves_of_missing {wd p : List String} {relPath : String} (hwd : fs.Settled wd)
    (hplain : hasTraversal relPath = false) (h : fs.pathExists (candidate wd relPath) = false) :
    Resolves fs wd relPath p ↔ resolveNonexistent fs (candidate wd relPath) = .ok p := by
  rw [resolveNonexistent_eq_ok h (candidate_plain hwd hplain).2]
  constructor
  · intro hresolves
    cases hresolves with
    | there hp =>
      rw [pathExists_iff.mpr ⟨p, hp⟩] at h
      cases h
    | stops existing first more place hstops hp => exact ⟨existing, first, more, place, hstops, hp⟩
  · rintro ⟨existing, first, more, place, hstops, hp⟩
    exact .stops existing first more place hstops hp

theorem canonicalize_settled {workdir : String} {wd : List String}
    (h : canonicalize fs workdir = .ok wd) : fs.Settled wd := by
  unfold canonicalize at h
  split at h
  · cases h
  · exact FileSystem.resolve_settled h

/-- What was found is let through only inside the folder. -/
theorem confined_iff {wd p : List String} {found : Except String (List String)} {resolves : Prop}
    (hfound : found = .ok p ↔ resolves) :
    (match found with
      | .error e => .error e
      | .ok canonical => if inWorkdir wd canonical then .ok canonical else .error escapes) =
        Except.ok p ↔ resolves ∧ wd <+: p := by
  rw [← hfound]
  cases found with
  | error e =>
    constructor
    · rintro ⟨⟩
    · rintro ⟨⟨⟩, -⟩
  | ok canonical =>
    dsimp only
    by_cases hin : wd <+: canonical
    · rw [inWorkdir, decide_eq_true hin, if_pos rfl]
      refine ⟨fun h => ⟨h, ?_⟩, fun h => h.1⟩
      rw [← Except.ok.inj h]
      exact hin
    · rw [inWorkdir, decide_eq_false hin, if_neg (by decide)]
      refine ⟨fun h => (by cases h), fun h => absurd h.2 ?_⟩
      rw [← Except.ok.inj h.1]
      exact hin

/-- A path other than the working directory itself, resolved. -/
theorem resolveInWorkdir_eq_ok {workdir relPath : String} {wd p : List String}
    (hwd : canonicalize fs workdir = .ok wd) (hself : ¬ (relPath = "" ∨ relPath = "."))
    (hplain : hasTraversal relPath = false) :
    resolveInWorkdir fs workdir relPath = .ok p ↔ Resolves fs wd relPath p ∧ wd <+: p := by
  have hthere := canonicalize_settled hwd
  unfold resolveInWorkdir
  rw [if_neg hself, if_neg (by rw [hplain]; decide), hwd]
  refine confined_iff ?_
  by_cases habsolute : (parsePath relPath).absolute = true
  · have hcandidate : candidate wd relPath = parsePath relPath := if_pos habsolute
    rw [if_pos habsolute]
    cases hresolve : fs.resolve (parsePath relPath) with
    | error e =>
      dsimp only
      rw [← hcandidate] at hresolve ⊢
      exact (resolves_of_missing hthere hplain (pathExists_of_error hresolve)).symm
    | ok place =>
      dsimp only
      rw [← hcandidate] at hresolve
      rw [resolves_of_ok hresolve, Except.ok.injEq]
  · have hcandidate : candidate wd relPath = joined wd (parsePath relPath) := if_neg habsolute
    rw [if_neg habsolute, ← hcandidate]
    dsimp only
    cases hresolve : fs.resolve (candidate wd relPath) with
    | error e =>
      rw [pathExists_of_error hresolve, if_neg (by decide)]
      exact (resolves_of_missing hthere hplain (pathExists_of_error hresolve)).symm
    | ok place =>
      rw [pathExists_iff.mpr ⟨place, hresolve⟩, if_pos rfl, resolves_of_ok hresolve]
      exact ⟨fun h => Except.ok.inj h, fun h => congrArg Except.ok h⟩

theorem resolveInWorkdir_self {workdir relPath : String} {wd : List String}
    (hwd : canonicalize fs workdir = .ok wd) (hself : relPath = "" ∨ relPath = ".") :
    resolveInWorkdir fs workdir relPath = .ok wd := by
  unfold resolveInWorkdir
  rw [if_pos hself, hwd]
  rfl

/-! ## What a write can touch -/

/-- A path stops at a link in the working directory, and a write through the link gets out. -/
def LeadsOut (fs : FileSystem) (workdir relPath : String) : Prop :=
  hasTraversal relPath = false ∧ ∃ wd existing first more place target outside,
    canonicalize fs workdir = .ok wd ∧
      Stops fs (candidate wd relPath) existing first more place ∧ wd <+: place ∧
      fs.node (place ++ [first]) = some (.symlink target) ∧
      fs.Touches (place ++ first :: more) outside ∧ ¬ wd <+: outside

/-- With names left after it, the name a path stops at leads nowhere. -/
theorem stops_node {path : RawPath} {existing more place : List String} {first : String}
    (h : Stops fs path existing first more place) (hmore : more ≠ []) :
    ¬ fs.Settled (place ++ [first]) := by
  intro hthere
  have hlead := h.leads
  rw [FileSystem.resolve_plain] at hlead
  obtain ⟨left, hleft⟩ := FileSystem.walk_append fs.maxLinks hlead
  have hlonger : fs.resolve (FileSystem.plain (existing ++ [first])) = .ok (place ++ [first]) := by
    rw [FileSystem.resolve_plain, hleft]
    exact FileSystem.walk_real left [first] hthere
  have habove : existing ++ [first] <+: path.names ∧ existing ++ [first] ≠ path.names := by
    rw [h.names]
    exact ⟨⟨more, by simp⟩, fun heq => hmore (by simpa using heq)⟩
  have hle := h.deepest _ habove (pathExists_iff.mpr ⟨_, hlonger⟩)
  rw [List.length_append, List.length_singleton] at hle
  omega

/-- A place that is only inside with a name that is no directory's is inside without it. -/
theorem inside_above {wd place more : List String} {first : String} (hwd : fs.Settled wd)
    (h : wd <+: place ++ first :: more) (hnode : ¬ fs.Settled (place ++ [first])) : wd <+: place := by
  by_contra hout
  obtain ⟨rest, -, hlong⟩ := FileSystem.longer_prefix h hout
  refine hnode (FileSystem.settled_above hwd ⟨rest, ?_⟩)
  rw [hlong]
  simp

theorem closed_of_free {place : List String} {first : String} (hplace : fs.Settled place)
    (hfree : fs.node (place ++ [first]) = none) : fs.Closed place first := by
  refine ⟨hplace, fun below target hlink => ?_⟩
  by_cases hnil : below = []
  · rw [hnil, List.append_nil, hfree] at hlink
    cases hlink
  · have hdir := FileSystem.dir_above below hnil (by rw [hlink]; rfl)
    rw [hfree] at hdir
    cases hdir

/-- A path that stops at no link is written in the working directory. -/
theorem touches_inside {wd existing more place there : List String} {first relPath : String}
    (hwd : fs.Settled wd) (hplain : hasTraversal relPath = false)
    (hstops : Stops fs (candidate wd relPath) existing first more place)
    (hin : wd <+: place ++ first :: more) (htouch : fs.Touches (place ++ first :: more) there)
    (hlink : ∀ target, fs.node (place ++ [first]) ≠ some (.symlink target)) : wd <+: there := by
  obtain ⟨hdot, hup⟩ := candidate_plain hwd hplain
  rw [hstops.names] at hdot hup
  by_cases hsettled : fs.Settled (place ++ [first])
  · by_cases hmore : more = []
    · subst hmore
      rw [FileSystem.touches_settled hsettled htouch]
      exact hin
    · exact absurd hsettled (stops_node hstops hmore)
  · have hfree : fs.node (place ++ [first]) = none := by
      cases hnode : fs.node (place ++ [first]) with
      | none => rfl
      | some node =>
        cases node with
        | dir => exact absurd (Or.inl hnode) hsettled
        | file => exact absurd (Or.inr hnode) hsettled
        | symlink target => exact absurd hnode (hlink target)
    have hclosed := closed_of_free (FileSystem.resolve_settled hstops.leads) hfree
    have hbelow : place ++ [first] <+: there := by
      refine FileSystem.touches_below hclosed (fun hname => hdot ?_) (fun n hn hname => hup ?_) htouch
      · rw [← hname]
        exact List.mem_append_right _ List.mem_cons_self
      · rw [← hname]
        exact List.mem_append_right _ hn
    exact ((inside_above hwd hin hsettled).trans (List.prefix_append _ _)).trans hbelow

/-- A write at a resolved path touches the working directory only, whatever links and missing names there
are on the way, just when it does not stop at a link that leads out. -/
theorem contained_iff (fs : FileSystem) (workdir relPath : String) :
    (∀ wd p there, canonicalize fs workdir = .ok wd → resolveInWorkdir fs workdir relPath = .ok p →
      fs.Touches p there → wd <+: there) ↔ ¬ LeadsOut fs workdir relPath := by
  constructor
  · rintro h ⟨hplain, wd, existing, first, more, place, target, outside, hwd, hstops, hin, hlink,
      htouch, hout⟩
    have hthere := canonicalize_settled hwd
    have hself : ¬ (relPath = "" ∨ relPath = ".") := by
      intro hself
      have hnames : (candidate wd relPath).names = wd := by
        rcases hself with rfl | rfl
        · exact List.append_nil wd
        · exact List.append_nil wd
      have hlong := hstops.names.symm.trans hnames
      have hexisting : fs.Settled existing := FileSystem.settled_above hthere ⟨first :: more, hlong⟩
      have hplace := hstops.leads
      rw [FileSystem.resolve_real hexisting] at hplace
      obtain rfl := Except.ok.inj hplace
      have hfirst : fs.Settled (existing ++ [first]) :=
        FileSystem.settled_above hthere ⟨more, by rw [← hlong]; simp⟩
      rcases hfirst with hdir | hfile
      · rw [hlink] at hdir
        cases hdir
      · rw [hlink] at hfile
        cases hfile
    have hresolve := (resolveInWorkdir_eq_ok hwd hself hplain).mpr
      ⟨.stops existing first more place hstops rfl, hin.trans (List.prefix_append place _)⟩
    exact hout (h wd _ outside hwd hresolve htouch)
  · intro h wd p there hwd hresolve htouch
    have hthere := canonicalize_settled hwd
    by_cases hself : relPath = "" ∨ relPath = "."
    · rw [resolveInWorkdir_self hwd hself] at hresolve
      obtain rfl := Except.ok.inj hresolve
      rw [FileSystem.touches_settled hthere htouch]
    · cases hplain : hasTraversal relPath with
      | true =>
        rw [resolveInWorkdir, if_neg hself, if_pos hplain] at hresolve
        cases hresolve
      | false =>
        obtain ⟨hresolves, hin⟩ := (resolveInWorkdir_eq_ok hwd hself hplain).mp hresolve
        cases hresolves with
        | there hp =>
          rw [FileSystem.touches_settled (FileSystem.resolve_settled hp) htouch]
          exact hin
        | stops existing first more place hstops hp =>
          subst hp
          by_cases hlink : ∃ target, fs.node (place ++ [first]) = some (.symlink target)
          · obtain ⟨target, hlink⟩ := hlink
            have hnode : ¬ fs.Settled (place ++ [first]) := by
              rintro (hdir | hfile)
              · rw [hlink] at hdir
                cases hdir
              · rw [hlink] at hfile
                cases hfile
            by_contra hout
            exact h ⟨hplain, wd, existing, first, more, place, target, there, hwd, hstops,
              inside_above hthere hin hnode, hlink, htouch, hout⟩
          · exact touches_inside hthere hplain hstops hin htouch
              fun target htarget => hlink ⟨target, htarget⟩

/-- A working directory with a link to a file outside that is not there yet. -/
def linked : FileSystem :=
  .ofEntries [(["w"], .dir), (["w", "link"], .symlink ⟨true, ["out", "new"], false⟩), (["out"], .dir)]
    40 (by decide)

theorem write_gets_out :
    ¬ ∀ (fs : FileSystem) (workdir relPath : String) (wd p there : List String),
      canonicalize fs workdir = .ok wd → resolveInWorkdir fs workdir relPath = .ok p →
        fs.Touches p there → wd <+: there := by
  intro h
  have hinside := h linked "/w" "link" ["w"] ["w", "link"] ["out", "new"] (by decide) (by decide)
    (Or.inr (by decide))
  exact absurd hinside (by decide)

end Haruspex.FsTools
