import Haruspex.Kdenlive.Nested

/-! An edit of a project keeps everything else byte for byte (`video/kdenlive/xml.rs`, `set_profile` of
`video/kdenlive/mod.rs`). -/
namespace Haruspex.Kdenlive.Xml
open Splicing
set_option autoImplicit false

/-! ## Replacements applied together -/

variable {text : List UInt8} {edits : List (Edit UInt8)}

namespace Splices

theorem sorted_perm (edits : List (Edit UInt8)) : (sorted edits).Perm edits := List.perm_insertionSort _ edits

theorem overlapping_eq_false (hforward : ∀ e ∈ edits, e.start ≤ e.stop) : overlapping edits = false ↔ InOrder edits := by
  induction edits with
  | nil => exact ⟨fun _ => List.Pairwise.nil, fun _ => rfl⟩
  | cons a rest ih =>
    cases rest with
    | nil => exact ⟨fun _ => List.pairwise_singleton _ _, fun _ => rfl⟩
    | cons b rest =>
      have hrest := ih fun e he => hforward e (List.mem_cons_of_mem a he)
      have hb := hforward b (List.mem_cons_of_mem a List.mem_cons_self)
      unfold overlapping InOrder
      rw [Bool.or_eq_false_iff, decide_eq_false_iff_not, hrest, List.pairwise_cons, Nat.not_lt]
      constructor
      · rintro ⟨hab, horder⟩
        refine ⟨fun x hx => ?_, horder⟩
        obtain rfl | hx := List.mem_cons.mp hx
        · exact hab
        · exact (hab.trans hb).trans ((List.pairwise_cons.mp horder).1 x hx)
      · rintro ⟨hall, horder⟩
        exact ⟨hall b List.mem_cons_self, horder⟩

theorem slice_eq {since until_ : ℕ} (hforward : since ≤ until_) (hin : until_ ≤ text.length) :
    slice text since until_ = some ((text.drop since).take (until_ - since)) := if_pos ⟨hforward, hin⟩

/-- In order, nothing panics. -/
theorem copy_eq_weave (horder : InOrder edits) (hfits : ∀ e ∈ edits, Fits text e) {since : ℕ}
    (hsince : ∀ e ∈ edits, since ≤ e.start) (hin : since ≤ text.length) :
    copy text since edits = some (weave text since edits) := by
  induction edits generalizing since with
  | nil =>
    have hrest : (text.drop since).take (text.length - since) = text.drop since :=
      List.take_of_length_le (by rw [List.length_drop])
    exact (slice_eq hin (Nat.le_refl _)).trans (congrArg some hrest)
  | cons e edits ih =>
    obtain ⟨hnext, horder⟩ := List.pairwise_cons.mp horder
    obtain ⟨hforward, hend⟩ := hfits e List.mem_cons_self
    have hrest := ih horder (fun x hx => hfits x (List.mem_cons_of_mem e hx)) hnext hend
    change (slice text since e.start).bind (fun before =>
      (copy text e.stop edits).map fun rest => before ++ e.text ++ rest) = _
    rw [slice_eq (hsince e List.mem_cons_self) (hforward.trans hend), hrest]
    rfl

theorem sorted_fits (hfits : ∀ e ∈ edits, Fits text e) : ∀ e ∈ sorted edits, Fits text e :=
  fun e he => hfits e ((sorted_perm edits).mem_iff.mp he)

theorem sorted_inOrder (hfits : ∀ e ∈ edits, Fits text e) : InOrder (sorted edits) ↔ edits.Pairwise Apart := by
  have hsorted : (sorted edits).Pairwise Before := List.pairwise_insertionSort _ edits
  rw [inOrder_iff_apart hsorted fun e he => (sorted_fits hfits e he).1]
  exact (sorted_perm edits).pairwise_iff fun h => h.symm

theorem apply_refused (hfits : ∀ e ∈ edits, Fits text e) (h : ¬ edits.Pairwise Apart) :
    apply edits text = some (.error "internal error: overlapping project edits") := by
  refine if_pos (Bool.eq_true_of_not_eq_false fun hnone => h ?_)
  rw [← sorted_inOrder hfits]
  exact (overlapping_eq_false fun e he => (sorted_fits hfits e he).1).mp hnone

theorem apply_accepted (hfits : ∀ e ∈ edits, Fits text e) (h : edits.Pairwise Apart) :
    apply edits text = some (.ok (replaceAll (sorted edits) text)) := by
  have horder := (sorted_inOrder hfits).mpr h
  have hnone := (overlapping_eq_false fun e he => (sorted_fits hfits e he).1).mpr horder
  unfold apply
  rw [hnone, replaceAll_eq_weave_zero horder (sorted_fits hfits),
    copy_eq_weave horder (sorted_fits hfits) (fun _ _ => Nat.zero_le _) (Nat.zero_le _)]
  rfl

/-- What no edit touches is kept, moved by what the edits before it put in and took out. -/
def Keeps (edits : List (Edit UInt8)) (text out : List UInt8) : Prop :=
  ∀ i < text.length, Untouched edits i → ∃ j, j + removed edits i = i + added edits i ∧ out[j]? = text[i]?

theorem keeps_replaceAll (hfits : ∀ e ∈ edits, Fits text e) (h : edits.Pairwise Apart) :
    Keeps edits text (replaceAll (sorted edits) text) := by
  intro i hi huntouched
  have horder := (sorted_inOrder hfits).mpr h
  obtain ⟨j, hj, hkept⟩ := weave_keeps horder (sorted_fits hfits) (fun _ _ => Nat.zero_le _) (Nat.zero_le i) hi
    fun e he => huntouched e ((sorted_perm edits).mem_iff.mp he)
  rw [removed_perm (sorted_perm edits), added_perm (sorted_perm edits)] at hj
  rw [replaceAll_eq_weave_zero horder (sorted_fits hfits)]
  exact ⟨j, hj, hkept⟩

/-- Edits within a text never panic: two that overlap are refused, and edits that lie apart come out as if made one
after the other, with every other byte kept. -/
theorem apply_keeps_rest (edits : List (Edit UInt8)) (text : List UInt8) (hfits : ∀ e ∈ edits, Fits text e) :
    (¬ edits.Pairwise Apart → apply edits text = some (.error "internal error: overlapping project edits")) ∧
    (edits.Pairwise Apart → ∃ out, apply edits text = some (.ok out) ∧ out = replaceAll (sorted edits) text ∧
      Keeps edits text out) :=
  ⟨apply_refused hfits, fun h => ⟨_, apply_accepted hfits h, rfl, keeps_replaceAll hfits h⟩⟩

theorem apply_keeps_rest_insert : apply [⟨2, 3, [9, 9]⟩, ⟨0, 0, [7]⟩] [1, 2, 3, 4] = some (.ok [7, 1, 2, 9, 9, 4]) ∧
    ∃ out, apply [⟨2, 3, [9, 9]⟩, ⟨0, 0, [7]⟩] [1, 2, 3, 4] = some (.ok out) ∧
      out = replaceAll (sorted [⟨2, 3, [9, 9]⟩, ⟨0, 0, [7]⟩]) [1, 2, 3, 4] ∧
      Keeps [⟨2, 3, [9, 9]⟩, ⟨0, 0, [7]⟩] [1, 2, 3, 4] out :=
  ⟨by decide, (apply_keeps_rest [⟨2, 3, [9, 9]⟩, ⟨0, 0, [7]⟩] [1, 2, 3, 4] (by simp [Fits])).2 (by decide)⟩

end Splices

/-! ## Editing elements -/

/-- What an edit of an element replaces: its start tag (`set_attrs`), all of it (`set_property`), or its content from
somewhere on (`rewrite_playlist`). -/
inductive Part where
  | tag
  | whole
  | tail (since : ℕ)

def Part.start (n : Node) : Part → ℕ
  | .tag => n.start
  | .whole => n.start
  | .tail since => since

def Part.stop (n : Node) : Part → ℕ
  | .tag => n.innerStart
  | .whole => n.stop
  | .tail _ => n.innerEnd

def Part.edit (n : Node) (part : Part) (text : List UInt8) : Edit UInt8 := ⟨part.start n, part.stop n, text⟩

/-- The part is one of the element's. -/
def Part.Of (n : Node) : Part → Prop
  | .tag => True
  | .whole => True
  | .tail since => n.innerStart ≤ since ∧ since ≤ n.innerEnd

/-- An element within `n`'s content is left alone. -/
def Part.Spares (inner : Node) : Part → Prop
  | .tag => True
  | .whole => False
  | .tail since => inner.stop ≤ since

variable {tree : Tree} {length : ℕ}

theorem Part.within {n : Node} (h : Placed length n) {part : Part} (hof : part.Of n) :
    n.start ≤ part.start n ∧ part.start n ≤ part.stop n ∧ part.stop n ≤ n.stop := by
  obtain ⟨hopens, hinner, hcloses, -⟩ := h
  cases part with
  | tag =>
    change n.start ≤ n.start ∧ n.start ≤ n.innerStart ∧ n.innerStart ≤ n.stop
    omega
  | whole =>
    change n.start ≤ n.start ∧ n.start ≤ n.stop ∧ n.stop ≤ n.stop
    omega
  | tail since =>
    obtain ⟨hfrom, hto⟩ := hof
    change n.start ≤ since ∧ since ≤ n.innerEnd ∧ n.innerEnd ≤ n.stop
    omega

theorem apart_of_spares {a b : Node} (hb : Placed length b) {part other : Part} (hother : other.Of b)
    (hstart : a.innerStart ≤ b.start) (hspares : part.Spares b) (s t : List UInt8) :
    Apart (part.edit a s) (other.edit b t) := by
  obtain ⟨hfrom, -, hto⟩ := Part.within hb hother
  cases part with
  | tag => exact Or.inl (hstart.trans hfrom)
  | whole => exact hspares.elim
  | tail since => exact Or.inr (hto.trans hspares)

/-- Parts of two elements lie apart, when neither takes in the other element. -/
theorem parts_apart (h : Nested length tree) {i j : ℕ} {a b : Node} (ha : tree.nodes[i]? = some a)
    (hb : tree.nodes[j]? = some b) (hne : i ≠ j) {part other : Part} (hpart : part.Of a) (hother : other.Of b)
    (hspares : Inside tree i j → part.Spares b) (hspared : Inside tree j i → other.Spares a) (s t : List UInt8) :
    Apart (part.edit a s) (other.edit b t) := by
  have haplaced := h.placed i a ha
  have hbplaced := h.placed j b hb
  obtain ⟨hafrom, -, hato⟩ := Part.within haplaced hpart
  obtain ⟨hbfrom, -, hbto⟩ := Part.within hbplaced hother
  rcases Nat.lt_or_gt_of_ne hne with hij | hji
  · rcases h.laminar i j a b hij ha hb with hapart | ⟨hstart, hstop⟩
    · exact Or.inl (hato.trans (hapart.trans hbfrom))
    · exact apart_of_spares hbplaced hother hstart (hspares ⟨a, b, ha, hb, hstart, hstop⟩) s t
  · rcases h.laminar j i b a hji hb ha with hapart | ⟨hstart, hstop⟩
    · exact Or.inr (hbto.trans (hapart.trans hafrom))
    · exact (apart_of_spares haplaced hpart hstart (hspared ⟨b, a, hb, ha, hstart, hstop⟩) t s).symm

theorem part_fits {n : Node} (h : Placed text.length n) {part : Part} (hof : part.Of n) (s : List UInt8) :
    Fits text (part.edit n s) := by
  obtain ⟨-, hforward, hto⟩ := Part.within h hof
  exact ⟨hforward, hto.trans h.past⟩

theorem whole_fits {n : Node} (h : Placed text.length n) (s : List UInt8) : Fits text (Part.whole.edit n s) :=
  @part_fits text n h .whole trivial s

/-! ## Changing the profile -/

structure Profile where
  name : String
  description : String
  width : ℕ
  height : ℕ
  fps : ℕ

def profile : String → Except String Profile
  | "1080p30" => .ok ⟨"atsc_1080p_30", "HD 1080p 30 fps", 1920, 1080, 30⟩
  | "1080p60" => .ok ⟨"atsc_1080p_60", "HD 1080p 60 fps", 1920, 1080, 60⟩
  | "1440p60" => .ok ⟨"qhd_1440p_60", "2.5K QHD 1440p 60 fps", 2560, 1440, 60⟩
  | "2160p30" => .ok ⟨"uhd_2160p_30", "4K UHD 2160p 30 fps", 3840, 2160, 30⟩
  | other => .error s!"Unknown format {other}: use 1080p30, 1080p60, 1440p60 or 2160p30."

def profileTag (p : Profile) : String :=
  "<profile colorspace=\"709\" description=\"" ++ p.description ++
    "\" display_aspect_den=\"9\" display_aspect_num=\"16\" frame_rate_den=\"1\" frame_rate_num=\"" ++ toString p.fps ++
    "\" height=\"" ++ toString p.height ++ "\" progressive=\"1\" sample_aspect_den=\"1\" sample_aspect_num=\"1\" width=\"" ++
    toString p.width ++ "\"/>"

/-- `splices.replace(doc.tree.node(id).span.clone(), with)` -/
def replaceElement (tree : Tree) (id : ℕ) (text : String) : List (Edit UInt8) :=
  (tree.nodes[id]?).toList.map fun n => Part.whole.edit n text.toUTF8.toList

def profileEdits (tree : Tree) (bin : ℕ) (p : Profile) (node : ℕ) : List (Edit UInt8) :=
  replaceElement tree node (profileTag p) ++
    match tree.propertyNode bin "kdenlive:docproperties.profile" with
    | none => []
    | some prop =>
      replaceElement tree prop ("<property name=\"kdenlive:docproperties.profile\">" ++ p.name ++ "</property>")

def setProfile (tree : Tree) (text : List UInt8) (bin : ℕ) (preset : String) : Option (Except String (List UInt8)) :=
  match profile preset with
  | .error e => some (.error e)
  | .ok p =>
    match (tree.childrenNamed tree.root "profile").head? with
    | none => some (.error "the project has no profile")
    | some node => Splices.apply (profileEdits tree bin p node) text

theorem child_of_named {id c : ℕ} {name : String} (h : c ∈ tree.childrenNamed id name) :
    ∃ n, tree.nodes[id]? = some n ∧ c ∈ n.children := by
  unfold Tree.childrenNamed at h
  split at h
  · cases h
  · rename_i n hn
    exact ⟨n, hn, (List.mem_filter.mp h).1⟩

theorem child_of_property {id c : ℕ} {name : String} (h : tree.propertyNode id name = some c) :
    ∃ n, tree.nodes[id]? = some n ∧ c ∈ n.children := child_of_named (List.mem_of_find?_eq_some h)

theorem child_of_byId {id : String} {c : ℕ} (h : tree.byId id = some c) :
    ∃ n, tree.nodes[tree.root]? = some n ∧ c ∈ n.children := by
  unfold Tree.byId at h
  obtain ⟨children, hchildren, hfind⟩ := Option.bind_eq_some_iff.mp h
  obtain ⟨n, hn, rfl⟩ := Option.map_eq_some_iff.mp hchildren
  exact ⟨n, hn, List.mem_of_find?_eq_some hfind⟩

theorem Nested.child (h : Nested length tree) {id c : ℕ} (hchild : ∃ n, tree.nodes[id]? = some n ∧ c ∈ n.children) :
    Inside tree id c ∧ ∀ k, Inside tree k c → k = id ∨ Inside tree k id := by
  obtain ⟨n, hn, hmem⟩ := hchild
  exact (h.children id n c hn).mp hmem

theorem Nested.lt (h : Nested length tree) {i j : ℕ} (hinside : Inside tree i j) : i < j :=
  hinside.lt h.placed h.laminar

theorem Inside.right {i j : ℕ} (h : Inside tree i j) : ∃ n, tree.nodes[j]? = some n := by
  obtain ⟨-, b, -, hb, -⟩ := h
  exact ⟨b, hb⟩

/-- A child of the root and a child's child: apart, unless one is the other's parent. -/
theorem Nested.cousins (h : Nested length tree) {node bin prop : ℕ}
    (hnode : ∃ n, tree.nodes[tree.root]? = some n ∧ node ∈ n.children)
    (hbin : ∃ n, tree.nodes[tree.root]? = some n ∧ bin ∈ n.children)
    (hprop : ∃ n, tree.nodes[bin]? = some n ∧ prop ∈ n.children) (hne : node ≠ bin) :
    node ≠ prop ∧ ¬ Inside tree node prop ∧ ¬ Inside tree prop node := by
  obtain ⟨hnode, hnodeInner⟩ := h.child hnode
  obtain ⟨hbin, hbinInner⟩ := h.child hbin
  obtain ⟨hprop, hpropInner⟩ := h.child hprop
  have hrootNode := h.lt hnode
  have hrootBin := h.lt hbin
  have hbinProp := h.lt hprop
  refine ⟨?_, fun hin => ?_, fun hin => ?_⟩
  · rintro rfl
    rcases hnodeInner bin hprop with heq | hin
    · omega
    · have hlt := h.lt hin
      omega
  · rcases hpropInner node hin with heq | hin
    · exact hne heq
    · rcases hbinInner node hin with heq | hin
      · omega
      · have hlt := h.lt hin
        omega
  · rcases hnodeInner prop hin with heq | hin
    · omega
    · have hlt := h.lt hin
      omega

theorem replaceElement_eq {id : ℕ} {n : Node} (hn : tree.nodes[id]? = some n) (s : String) :
    replaceElement tree id s = [Part.whole.edit n s.toUTF8.toList] := by
  unfold replaceElement
  rw [hn]
  rfl

/-- Changing the profile of a project touches nothing but its `<profile>` and the property that names it; it fails only
where the bin is itself the `<profile>` and has that property. -/
theorem setProfile_keeps (reader : List UInt8 → Reading) (text : List UInt8) (tree : Tree) (preset : String) (p : Profile)
    (node bin : ℕ) (hadvances : Advances text.length 0 (reader text)) (hparse : Tree.parse reader text = .ok tree)
    (hprofile : profile preset = .ok p) (hnode : (tree.childrenNamed tree.root "profile").head? = some node)
    (hbin : tree.byId "main_bin" = some bin) :
    (node = bin ∧ (tree.propertyNode bin "kdenlive:docproperties.profile").isSome = true →
      setProfile tree text bin preset = some (.error "internal error: overlapping project edits")) ∧
    (¬(node = bin ∧ (tree.propertyNode bin "kdenlive:docproperties.profile").isSome = true) →
      ∃ out, setProfile tree text bin preset = some (.ok out) ∧
        out = replaceAll (Splices.sorted (profileEdits tree bin p node)) text ∧
        Splices.Keeps (profileEdits tree bin p node) text out) := by
  have h := parse_nested hadvances hparse
  have hset : setProfile tree text bin preset = Splices.apply (profileEdits tree bin p node) text := by
    unfold setProfile
    rw [hprofile, hnode]
  have hnodeChild := child_of_named (List.mem_of_mem_head? hnode)
  have hbinChild := child_of_byId hbin
  obtain ⟨a, ha⟩ := (h.child hnodeChild).1.right
  have haplaced := h.placed node a ha
  rw [hset]
  cases hprop : tree.propertyNode bin "kdenlive:docproperties.profile" with
  | none =>
    have hedits : profileEdits tree bin p node = [Part.whole.edit a (profileTag p).toUTF8.toList] := by
      unfold profileEdits
      rw [hprop, replaceElement_eq ha]
      rfl
    rw [hedits]
    have hfits : ∀ e ∈ [Part.whole.edit a (profileTag p).toUTF8.toList], Fits text e := by
      intro e he
      rw [List.mem_singleton.mp he]
      exact whole_fits haplaced _
    refine ⟨fun hboth => ?_, fun _ => (Splices.apply_keeps_rest _ text hfits).2 (List.pairwise_singleton _ _)⟩
    cases hboth.2
  | some prop =>
    have hpropChild := child_of_property hprop
    obtain ⟨b, hb⟩ := (h.child hpropChild).1.right
    have hbplaced := h.placed prop b hb
    generalize hs : "<property name=\"kdenlive:docproperties.profile\">" ++ p.name ++ "</property>" = s
    have hedits : profileEdits tree bin p node =
        [Part.whole.edit a (profileTag p).toUTF8.toList, Part.whole.edit b s.toUTF8.toList] := by
      unfold profileEdits
      rw [hprop, replaceElement_eq ha]
      dsimp only
      rw [hs, replaceElement_eq hb]
      rfl
    rw [hedits]
    have hfits : ∀ e ∈ [Part.whole.edit a (profileTag p).toUTF8.toList, Part.whole.edit b s.toUTF8.toList],
        Fits text e := by
      intro e he
      obtain rfl | he := List.mem_cons.mp he
      · exact whole_fits haplaced _
      · rw [List.mem_singleton.mp he]
        exact whole_fits hbplaced _
    have hspec := Splices.apply_keeps_rest _ text hfits
    constructor
    · rintro ⟨rfl, -⟩
      refine hspec.1 fun hapart => ?_
      -- the property lies within the profile
      obtain ⟨c, d, hc, hd, hstart, hstop⟩ := (h.child hpropChild).1
      obtain rfl : a = c := Option.some_inj.mp (ha.symm.trans hc)
      obtain rfl : b = d := Option.some_inj.mp (hb.symm.trans hd)
      have hpair := (List.pairwise_cons.mp hapart).1 _ (List.mem_singleton.mpr rfl)
      obtain ⟨haopens, -, hacloses, -⟩ := haplaced
      obtain ⟨hbopens, hbinner, hbcloses, -⟩ := hbplaced
      rcases hpair with hpair | hpair
      · change a.stop ≤ b.start at hpair
        omega
      · change b.stop ≤ a.start at hpair
        omega
    · intro hnot
      have hne : node ≠ bin := fun heq => hnot ⟨heq, rfl⟩
      obtain ⟨hdistinct, hout, hback⟩ := h.cousins hnodeChild hbinChild hpropChild hne
      refine hspec.2 (List.pairwise_pair.mpr ?_)
      exact @parts_apart _ _ h _ _ _ _ ha hb hdistinct .whole .whole trivial trivial (fun hin => absurd hin hout)
        (fun hin => absurd hin hback) _ _

theorem setProfile_keeps_sample : ∃ out, setProfile sampleTree sample 2 "1080p30" = some (.ok out) ∧
    out = replaceAll (Splices.sorted (profileEdits sampleTree 2 ⟨"atsc_1080p_30", "HD 1080p 30 fps", 1920, 1080, 30⟩ 1))
      sample ∧
    Splices.Keeps (profileEdits sampleTree 2 ⟨"atsc_1080p_30", "HD 1080p 30 fps", 1920, 1080, 30⟩ 1) sample out :=
  (setProfile_keeps sampleReader sample sampleTree "1080p30" _ 1 2 advances_sample rfl rfl (by decide) (by decide)).2
    (by decide)

end Haruspex.Kdenlive.Xml
