import Haruspex.Library.FileSystem

/-! Where walks of a path lead, and what a write can touch. -/
namespace Haruspex.Files.FileSystem
set_option autoImplicit false

variable {fs fs' : FileSystem} {create : Bool} {at' place : List String} {name : String}

/-! ## Places -/

/-- A place a walk can end at. -/
def Settled (fs : FileSystem) (place : List String) : Prop :=
  fs.node place = some .dir ∨ fs.node place = some .file

theorem settled_isSome (h : fs.Settled place) : (fs.node place).isSome = true := by
  rcases h with h | h <;> rw [h] <;> rfl

/-- What is below a place makes it a directory. -/
theorem dir_above (below : List String) (hbelow : below ≠ [])
    (h : (fs.node (at' ++ below)).isSome = true) : fs.node at' = some .dir := by
  induction below using List.reverseRecOn with
  | nil => exact absurd rfl hbelow
  | append_singleton below name ih =>
    rw [← List.append_assoc] at h
    have hparent := fs.parent_dir (at' ++ below) name h
    by_cases hnil : below = []
    · rw [hnil, List.append_nil] at hparent
      exact hparent
    · exact ih hnil (by rw [hparent]; rfl)

theorem real_names (below : List String) (h : (fs.node (at' ++ below)).isSome = true) :
    ∀ n ∈ below, n ≠ "." ∧ n ≠ ".." := by
  induction below using List.reverseRecOn with
  | nil => nofun
  | append_singleton below name ih =>
    rw [← List.append_assoc] at h
    intro n hn
    rcases List.mem_append.mp hn with hbelow | hlast
    · exact ih (by rw [fs.parent_dir _ name h]; rfl) n hbelow
    · rw [List.mem_singleton.mp hlast]
      exact fs.real_name _ name h

theorem node_dropLast (h : fs.node place = some .dir) : fs.node place.dropLast = some .dir := by
  cases place using List.reverseRecOn with
  | nil => exact h
  | append_singleton parent name =>
    rw [List.dropLast_concat]
    exact fs.parent_dir parent name (by rw [h]; rfl)

/-! ## Walks -/

/-- What is left to follow links with. -/
def followOf (fs : FileSystem) (create : Bool) (links : ℕ) :
    List String → List String → Except Errno (List String) :=
  match links with
  | 0 => fun _ _ => .error .loop
  | n + 1 => fs.walk create n

theorem walk_nil (links : ℕ) : fs.walk create links at' [] = .ok at' := by
  cases links <;> rfl

theorem walk_cons (links : ℕ) (rest : List String) :
    fs.walk create links at' (name :: rest) =
      if fs.node at' ≠ some .dir then .error .notDirectory
      else if name = "." then fs.walk create links at' rest
      else if name = ".." then fs.walk create links at'.dropLast rest
      else
        match fs.node (at' ++ [name]) with
        | none => if create ∧ rest = [] then .ok (at' ++ [name]) else .error .notFound
        | some (.symlink target) => fs.followOf create links (start target at') (target.segs ++ rest)
        | some _ => fs.walk create links (at' ++ [name]) rest := by
  cases links <;> rfl

/-- How a walk that leads somewhere takes its first name. -/
inductive Takes (fs : FileSystem) (create : Bool) (links : ℕ) (at' : List String) (name : String)
    (rest place : List String) : Prop
  | stay (h : name = ".") (goes : fs.walk create links at' rest = .ok place)
  | up (h : name = "..") (goes : fs.walk create links at'.dropLast rest = .ok place)
  | made (h : name ≠ "." ∧ name ≠ "..") (free : fs.node (at' ++ [name]) = none)
      (creates : create = true) (last : rest = []) (there : place = at' ++ [name])
  | link (h : name ≠ "." ∧ name ≠ "..") (target : RawPath) (left : ℕ)
      (found : fs.node (at' ++ [name]) = some (.symlink target)) (spent : links = left + 1)
      (goes : fs.walk create left (start target at') (target.segs ++ rest) = .ok place)
  | down (h : name ≠ "." ∧ name ≠ "..") (found : fs.Settled (at' ++ [name]))
      (goes : fs.walk create links (at' ++ [name]) rest = .ok place)

theorem takes {links : ℕ} {rest : List String}
    (h : fs.walk create links at' (name :: rest) = .ok place) :
    fs.node at' = some .dir ∧ fs.Takes create links at' name rest place := by
  rw [walk_cons] at h
  split at h
  · cases h
  · rename_i hdir
    refine ⟨not_not.mp hdir, ?_⟩
    split at h
    · rename_i hdot
      exact .stay hdot h
    · rename_i hdot
      split at h
      · rename_i hup
        exact .up hup h
      · rename_i hup
        split at h
        · rename_i hfree
          split at h
          · rename_i hcreate
            exact .made ⟨hdot, hup⟩ hfree hcreate.1 hcreate.2 (Except.ok.inj h).symm
          · cases h
        · rename_i target hlink
          cases links with
          | zero => cases h
          | succ left => exact .link ⟨hdot, hup⟩ target left hlink rfl h
        · rename_i node hnotlink hnode
          refine .down ⟨hdot, hup⟩ ?_ h
          cases node with
          | dir => exact Or.inl hnode
          | file => exact Or.inr hnode
          | symlink target => exact absurd rfl (hnotlink target)

theorem start_dir (p : RawPath) (h : fs.node at' = some .dir) : fs.node (start p at') = some .dir := by
  unfold start
  split
  · exact fs.root_dir
  · exact h

/-- A walk that creates nothing ends at something that is there. -/
theorem walk_settled (links : ℕ) {at' segs place : List String}
    (h : fs.walk false links at' segs = .ok place) (hat : fs.Settled at') : fs.Settled place := by
  induction links using Nat.strongRecOn generalizing at' segs with
  | ind links ihlinks =>
    induction segs generalizing at' with
    | nil =>
      rw [walk_nil, Except.ok.injEq] at h
      rw [← h]
      exact hat
    | cons name rest ihrest =>
      obtain ⟨hdir, htakes⟩ := takes h
      cases htakes with
      | stay hname goes => exact ihrest goes hat
      | up hname goes => exact ihrest goes (Or.inl (node_dropLast hdir))
      | made hname free creates last there => cases creates
      | link hname target left found spent goes =>
        exact ihlinks left (by omega) goes (Or.inl (start_dir target hdir))
      | down hname found goes => exact ihrest goes found

/-- After a walk's first names, the walk goes on from where they lead. -/
theorem walk_append (links : ℕ) {at' segs mid : List String}
    (h : fs.walk false links at' segs = .ok mid) :
    ∃ left, ∀ create more, fs.walk create links at' (segs ++ more) = fs.walk create left mid more := by
  induction links using Nat.strongRecOn generalizing at' segs with
  | ind links ihlinks =>
    induction segs generalizing at' with
    | nil =>
      rw [walk_nil, Except.ok.injEq] at h
      rw [← h]
      exact ⟨links, fun create more => rfl⟩
    | cons name rest ihrest =>
      obtain ⟨hdir, htakes⟩ := takes h
      cases htakes with
      | stay hname goes =>
        obtain ⟨left, hleft⟩ := ihrest goes
        refine ⟨left, fun create more => ?_⟩
        rw [List.cons_append, walk_cons, if_neg (not_not.mpr hdir), if_pos hname, hleft]
      | up hname goes =>
        obtain ⟨left, hleft⟩ := ihrest goes
        refine ⟨left, fun create more => ?_⟩
        rw [List.cons_append, walk_cons, if_neg (not_not.mpr hdir), if_neg (by rw [hname]; decide),
          if_pos hname, hleft]
      | made hname free creates last there => cases creates
      | link hname target n found spent goes =>
        obtain ⟨left, hleft⟩ := ihlinks n (by omega) goes
        refine ⟨left, fun create more => ?_⟩
        rw [List.cons_append, walk_cons, if_neg (not_not.mpr hdir), if_neg hname.1, if_neg hname.2,
          found, spent, ← hleft, List.append_assoc]
        rfl
      | down hname found goes =>
        obtain ⟨left, hleft⟩ := ihrest goes
        refine ⟨left, fun create more => ?_⟩
        rw [List.cons_append, walk_cons, if_neg (not_not.mpr hdir), if_neg hname.1, if_neg hname.2,
          ← hleft]
        rcases found with found | found <;> rw [found]

/-- What is there is walked to by its names, with no link followed. -/
theorem walk_real (links : ℕ) (below : List String) (h : fs.Settled (at' ++ below)) :
    fs.walk create links at' below = .ok (at' ++ below) := by
  induction below generalizing at' with
  | nil => rw [walk_nil, List.append_nil]
  | cons name rest ih =>
    have hsome := settled_isSome h
    have hdir := dir_above (name :: rest) (List.cons_ne_nil name rest) hsome
    obtain ⟨hdot, hup⟩ := real_names (name :: rest) hsome name List.mem_cons_self
    have hsplit : at' ++ name :: rest = at' ++ [name] ++ rest := by simp
    rw [hsplit] at h ⊢
    have hfound : fs.Settled (at' ++ [name]) := by
      by_cases hnil : rest = []
      · rw [hnil, List.append_nil] at h
        exact h
      · exact Or.inl (dir_above rest hnil (settled_isSome h))
    rw [walk_cons, if_neg (not_not.mpr hdir), if_neg hdot, if_neg hup, ← ih h]
    rcases hfound with hfound | hfound <;> rw [hfound]

theorem walk_from_root (create : Bool) (links : ℕ) (h : fs.Settled place) :
    fs.walk create links [] place = .ok place :=
  walk_real links place h

/-- Where there is no link and no way up, a walk stays. -/
theorem walk_within {root : List String} (links : ℕ) {segs : List String}
    (hlinks : ∀ below target, fs.node (root ++ below) ≠ some (.symlink target))
    (hup : ∀ n ∈ segs, n ≠ "..") (hat : root <+: at')
    (h : fs.walk create links at' segs = .ok place) : root <+: place := by
  induction segs generalizing at' with
  | nil =>
    rw [walk_nil, Except.ok.injEq] at h
    rw [← h]
    exact hat
  | cons name rest ih =>
    have hrest : ∀ n ∈ rest, n ≠ ".." := fun n hn => hup n (List.mem_cons_of_mem _ hn)
    have hbelow : root <+: at' ++ [name] := hat.trans (List.prefix_append at' [name])
    obtain ⟨-, htakes⟩ := takes h
    cases htakes with
    | stay hname goes => exact ih hrest hat goes
    | up hname goes => exact absurd hname (hup name List.mem_cons_self)
    | made hname free creates last there =>
      rw [there]
      exact hbelow
    | link hname target left found spent goes =>
      obtain ⟨below, hbelow⟩ := hbelow
      rw [← hbelow] at found
      exact absurd found (hlinks below target)
    | down hname found goes => exact ih hrest hbelow goes

/-- Below a name that is no link, a walk stays. -/
theorem walk_below {links : ℕ} {rest : List String} (hname : name ≠ ".")
    (hup : ∀ n ∈ name :: rest, n ≠ "..")
    (hlinks : ∀ below target, fs.node (at' ++ [name] ++ below) ≠ some (.symlink target))
    (h : fs.walk create links at' (name :: rest) = .ok place) : at' ++ [name] <+: place := by
  have hrest : ∀ n ∈ rest, n ≠ ".." := fun n hn => hup n (List.mem_cons_of_mem _ hn)
  obtain ⟨-, htakes⟩ := takes h
  cases htakes with
  | stay hdot goes => exact absurd hdot hname
  | up hdot goes => exact absurd hdot (hup name List.mem_cons_self)
  | made _ free creates last there => rw [there]
  | link _ target left found spent goes =>
    rw [← List.append_nil (at' ++ [name])] at found
    exact absurd found (hlinks [] target)
  | down _ found goes => exact walk_within links hlinks hrest (List.prefix_refl _) goes

/-! ## Plain paths -/

theorem segs_plain (names : List String) : (plain names).segs = names := by
  simp [plain, RawPath.segs]

theorem resolve_plain (names : List String) :
    fs.resolve (plain names) = fs.walk false fs.maxLinks [] names := by
  rw [resolve, segs_plain]
  rfl

theorem resolve_settled {p : RawPath} (h : fs.resolve p = .ok place) : fs.Settled place :=
  walk_settled fs.maxLinks h (Or.inl (start_dir p fs.cwd_dir))

theorem resolve_real (h : fs.Settled place) : fs.resolve (plain place) = .ok place := by
  rw [resolve_plain]
  exact walk_from_root false fs.maxLinks h

theorem openFile_ok {names : List String} (h : fs.openFile (plain names) = .ok place) :
    fs.walk true fs.maxLinks [] names = .ok place := by
  unfold openFile at h
  rw [segs_plain] at h
  split at h
  · cases h
  · rename_i there hwalk
    split at h
    · cases h
    · rw [← Except.ok.inj h]
      exact hwalk

theorem settled_above {place' : List String} (h : fs.Settled place) (hbelow : place' <+: place) :
    fs.Settled place' := by
  obtain ⟨below, rfl⟩ := hbelow
  by_cases hnil : below = []
  · rw [hnil, List.append_nil] at h
    exact h
  · exact Or.inl (dir_above below hnil (settled_isSome h))

/-! ## Writes where something is -/

theorem mkdir_settled {parent : List String} (h : fs.Settled (parent ++ [name])) :
    fs.mkdir parent name = .error .exists := by
  have hsome := settled_isSome h
  have hdir := fs.parent_dir parent name hsome
  have hname := fs.real_name parent name hsome
  have hthere : fs.node (parent ++ [name]) ≠ none := by
    intro hnone
    rw [hnone] at hsome
    cases hsome
  unfold mkdir
  rw [resolve_real (Or.inl hdir)]
  dsimp only
  rw [dif_pos hdir, dif_pos hname, dif_neg hthere]

/-- Nothing is made of a directory that is there. -/
theorem createDirAll_settled (h : fs.Settled place) : (fs.createDirAll place.reverse).1 = fs := by
  cases place using List.reverseRecOn with
  | nil => rfl
  | append_singleton parent name =>
    rw [List.reverse_concat, createDirAll, List.reverse_reverse, mkdir_settled h]
    rfl

/-- A write to what is there touches nothing else. -/
theorem touches_settled {names : List String} (h : fs.Settled names) (htouch : fs.Touches names place) :
    place = names := by
  have hparents : (fs.createDirAll names.dropLast.reverse).1 = fs :=
    createDirAll_settled (settled_above h (List.dropLast_prefix names))
  have hwrite : (fs.write names).1 = fs ∧ ∀ there, (fs.write names).2 = some there → there = names := by
    unfold write
    split
    · rename_i fs' hmade
      rw [hmade] at hparents
      obtain rfl : fs' = fs := hparents
      refine ⟨rfl, fun there hopen => ?_⟩
      cases hfile : fs'.openFile (plain names) with
      | error e =>
        rw [hfile] at hopen
        cases hopen
      | ok written =>
        rw [hfile] at hopen
        obtain rfl : written = there := Option.some.inj hopen
        have hwalk := openFile_ok hfile
        rw [walk_from_root true fs'.maxLinks h] at hwalk
        exact (Except.ok.inj hwalk).symm
    · rename_i fs' e hmade
      rw [hmade] at hparents
      exact ⟨hparents, nofun⟩
  rcases htouch with hnode | hopen
  · rw [hwrite.1] at hnode
    exact absurd rfl hnode
  · exact hwrite.2 place hopen

/-! ## Writes where nothing is -/

/-- Only directories were made, and only below a place. -/
def MadeBelow (root : List String) (fs fs' : FileSystem) : Prop :=
  ∀ place, fs'.node place = fs.node place ∨ (root <+: place ∧ fs'.node place = some .dir)

theorem MadeBelow.refl (root : List String) (fs : FileSystem) : MadeBelow root fs fs :=
  fun _ => Or.inl rfl

theorem MadeBelow.trans {root : List String} {fs'' : FileSystem} (h : MadeBelow root fs fs')
    (h' : MadeBelow root fs' fs'') : MadeBelow root fs fs'' := by
  intro place
  rcases h' place with hsame | hmade
  · rw [hsame]
    exact h place
  · exact Or.inr hmade

/-- A place with nothing that leads elsewhere below a name. -/
structure Closed (fs : FileSystem) (at' : List String) (name : String) : Prop where
  there : fs.Settled at'
  links : ∀ below target, fs.node (at' ++ [name] ++ below) ≠ some (.symlink target)

theorem Closed.made (h : fs.Closed at' name) (hmade : MadeBelow (at' ++ [name]) fs fs') :
    fs'.Closed at' name := by
  refine ⟨?_, fun below target hlink => ?_⟩
  · rcases hmade at' with hsame | ⟨hbelow, -⟩
    · rw [Settled, hsame]
      exact h.there
    · have hlen := hbelow.length_le
      rw [List.length_append, List.length_singleton] at hlen
      omega
  · rcases hmade (at' ++ [name] ++ below) with hsame | ⟨-, hdir⟩
    · rw [hsame] at hlink
      exact h.links below target hlink
    · rw [hdir] at hlink
      cases hlink

/-- What is at a place with names below it. -/
theorem walk_closed (h : fs.Closed at' name) {links : ℕ} {rest : List String} (hname : name ≠ ".")
    (hup : ∀ n ∈ name :: rest, n ≠ "..")
    (hwalk : fs.walk create links [] (at' ++ name :: rest) = .ok place) : at' ++ [name] <+: place := by
  have hreal := walk_from_root false links h.there
  obtain ⟨left, hleft⟩ := walk_append links hreal
  rw [hleft] at hwalk
  exact walk_below hname hup h.links hwalk

theorem mkdir_below (h : fs.Closed at' name) (hname : name ≠ ".") {rest : List String}
    (hup : ∀ n ∈ name :: rest, n ≠ "..") {parent : List String} {last : String}
    (hpath : parent ++ [last] = at' ++ name :: rest) (hmkdir : fs.mkdir parent last = .ok fs') :
    MadeBelow (at' ++ [name]) fs fs' := by
  unfold mkdir at hmkdir
  split at hmkdir
  · cases hmkdir
  · rename_i there hresolve
    have hbelow : at' ++ [name] <+: there ++ [last] := by
      rw [resolve_plain] at hresolve
      cases rest using List.reverseRecOn with
      | nil =>
        obtain ⟨rfl, hlast⟩ := List.append_inj' hpath rfl
        rw [walk_from_root false fs.maxLinks h.there] at hresolve
        rw [← Except.ok.inj hresolve, ← hlast]
      | append_singleton rest end' =>
        rw [← List.cons_append, ← List.append_assoc] at hpath
        obtain ⟨rfl, -⟩ := List.append_inj' hpath rfl
        refine (walk_closed h hname (fun n hn => hup n ?_) hresolve).trans (List.prefix_append _ _)
        rw [← List.cons_append]
        exact List.mem_append_left _ hn
    split at hmkdir
    · split at hmkdir
      · split at hmkdir
        · rw [← Except.ok.inj hmkdir]
          intro place
          by_cases hself : place = there ++ [last]
          · refine Or.inr ⟨by rw [hself]; exact hbelow, ?_⟩
            simp [insertDir, hself]
          · left
            simp [insertDir, hself]
        · cases hmkdir
      · cases hmkdir
    · cases hmkdir

theorem orIsDir_below {root : List String} {p : RawPath} {made : Except Errno FileSystem}
    (h : ∀ fs', made = .ok fs' → MadeBelow root fs fs') : MadeBelow root fs (fs.orIsDir p made).1 := by
  unfold orIsDir
  cases made with
  | ok fs' => exact h fs' rfl
  | error e => exact MadeBelow.refl root fs

theorem longer_prefix {path rest : List String} (h : path <+: at' ++ name :: rest)
    (hshort : ¬ path <+: at') : ∃ rest', name :: rest' <+: name :: rest ∧ path = at' ++ name :: rest' := by
  rcases List.prefix_or_prefix_of_prefix h (List.prefix_append at' (name :: rest)) with hle | hge
  · exact absurd hle hshort
  · obtain ⟨tail, rfl⟩ := hge
    rw [List.prefix_append_right_inj] at h
    cases tail with
    | nil => exact absurd (by rw [List.append_nil]) hshort
    | cons first rest' =>
      obtain ⟨rfl, -⟩ := List.cons_prefix_cons.mp h
      exact ⟨rest', h, rfl⟩

/-- All directories of a path that are made are below its first name that was missing. -/
theorem createDirAll_below (h : fs.Closed at' name) (hname : name ≠ ".") {rest : List String}
    (hup : ∀ n ∈ name :: rest, n ≠ "..") {path : List String} (hpath : path <+: at' ++ name :: rest) :
    MadeBelow (at' ++ [name]) fs (fs.createDirAll path.reverse).1 := by
  induction path using List.reverseRecOn with
  | nil => exact MadeBelow.refl _ _
  | append_singleton parent last ih =>
    by_cases hshort : parent ++ [last] <+: at'
    · rw [createDirAll_settled (settled_above h.there hshort)]
      exact MadeBelow.refl _ _
    · have hparent := ih ((List.prefix_append parent [last]).trans hpath)
      obtain ⟨rest', hrest', hlonger⟩ := longer_prefix hpath hshort
      have hup' : ∀ n ∈ name :: rest', n ≠ ".." := fun n hn => hup n (hrest'.subset hn)
      rw [List.reverse_concat, createDirAll, List.reverse_reverse]
      have hmade (fs' : FileSystem) (hclosed : fs'.Closed at' name) (fs'' : FileSystem)
          (hmkdir : fs'.mkdir parent last = .ok fs'') : MadeBelow (at' ++ [name]) fs' fs'' :=
        mkdir_below hclosed hname hup' hlonger hmkdir
      split
      · cases hall : fs.createDirAll parent.reverse with
        | mk fs' made =>
          rw [hall] at hparent
          cases made with
          | error e => exact hparent
          | ok _ => exact hparent.trans (orIsDir_below (hmade fs' (h.made hparent)))
      · exact orIsDir_below (hmade fs h)

/-- A write at a name that was missing touches nothing but what is below it. -/
theorem touches_below (h : fs.Closed at' name) (hname : name ≠ ".") {rest : List String}
    (hup : ∀ n ∈ name :: rest, n ≠ "..") (htouch : fs.Touches (at' ++ name :: rest) place) :
    at' ++ [name] <+: place := by
  have hmade := createDirAll_below h hname hup (List.dropLast_prefix (at' ++ name :: rest))
  have hwrite : MadeBelow (at' ++ [name]) fs (fs.write (at' ++ name :: rest)).1 ∧
      ∀ there, (fs.write (at' ++ name :: rest)).2 = some there → at' ++ [name] <+: there := by
    unfold write
    split
    · rename_i fs' hall
      rw [hall] at hmade
      refine ⟨hmade, fun there hopen => ?_⟩
      cases hfile : fs'.openFile (plain (at' ++ name :: rest)) with
      | error e =>
        rw [hfile] at hopen
        cases hopen
      | ok written =>
        rw [hfile] at hopen
        obtain rfl : written = there := Option.some.inj hopen
        exact walk_closed (h.made hmade) hname hup (openFile_ok hfile)
    · rename_i fs' e hall
      rw [hall] at hmade
      exact ⟨hmade, nofun⟩
  rcases htouch with hnode | hopen
  · rcases hwrite.1 place with hsame | ⟨hbelow, -⟩
    · exact absurd hsame hnode
    · exact hbelow
  · exact hwrite.2 place hopen

end Haruspex.Files.FileSystem
