import Haruspex.Kdenlive.Xml

/-! The elements of a project are nested as their spans are. -/
namespace Haruspex.Kdenlive.Xml
open Splicing
set_option autoImplicit false

/-! ## While reading -/

/-- `j` lies within `i`'s content, or `i` is still open. -/
def Holds (p : Parsing) (i j : ℕ) : Prop :=
  i < j ∧ (i ∈ p.stack ∨ ∃ a b, p.nodes[i]? = some a ∧ p.nodes[j]? = some b ∧ a.innerStart ≤ b.start ∧ b.stop ≤ a.innerEnd)

/-- A node's places, up to where the reader is. -/
structure Placed (at_ : ℕ) (n : Node) : Prop where
  opens : n.start < n.innerStart
  inner : n.innerStart ≤ n.innerEnd
  closes : n.innerEnd ≤ n.stop
  past : n.stop ≤ at_

structure Sound (at_ : ℕ) (p : Parsing) : Prop where
  innermost : p.stack.Pairwise (· > ·)
  known : ∀ i ∈ p.stack, i < p.nodes.length
  placed : ∀ (i : ℕ) n, p.nodes[i]? = some n → Placed at_ n
  closed : ∀ (i j : ℕ) a b, i < j → p.nodes[i]? = some a → p.nodes[j]? = some b → i ∉ p.stack →
    a.stop ≤ b.start ∨ j ∉ p.stack ∧ a.innerStart ≤ b.start ∧ b.stop ≤ a.innerEnd
  opened : ∀ (i j : ℕ) a b, i < j → p.nodes[i]? = some a → p.nodes[j]? = some b → i ∈ p.stack → a.innerStart ≤ b.start
  children : ∀ (i : ℕ) a j, p.nodes[i]? = some a →
    (j ∈ a.children ↔ j < p.nodes.length ∧ Holds p i j ∧ ∀ k, Holds p k j → k ≤ i)
  sorted : ∀ (i : ℕ) a, p.nodes[i]? = some a → a.children.Pairwise (· < ·)
  first : p.root = if p.nodes = [] then none else some 0
  begun : p.nodes = [] → p.stack = []

/-- The reader goes on, and a tag is not empty. -/
def Advances (length : ℕ) : ℕ → Reading → Prop
  | _, [] => True
  | before, (event, after) :: rest =>
    (before ≤ after ∧ ∀ name attrs, event = .ok (.start name attrs) → before < after) ∧ after ≤ length ∧
      Advances length after rest

variable {at_ : ℕ} {p : Parsing}

theorem Placed.later {n : Node} (h : Placed at_ n) {later : ℕ} (hle : at_ ≤ later) : Placed later n :=
  ⟨h.opens, h.inner, h.closes, h.past.trans hle⟩

theorem Sound.later (h : Sound at_ p) {later : ℕ} (hle : at_ ≤ later) : Sound later p :=
  { h with placed := fun i n hn => (h.placed i n hn).later hle }

/-! ## Text -/

/-- Nothing that a node's place rests on is changed. -/
def Alike (a b : Node) : Prop :=
  a.start = b.start ∧ a.innerStart = b.innerStart ∧ a.innerEnd = b.innerEnd ∧ a.stop = b.stop ∧ a.children = b.children

theorem Sound.alike (h : Sound at_ p) {p' : Parsing} (hstack : p'.stack = p.stack) (hroot : p'.root = p.root)
    (hlength : p'.nodes.length = p.nodes.length)
    (hnodes : ∀ (i : ℕ) n, p'.nodes[i]? = some n → ∃ m, p.nodes[i]? = some m ∧ Alike n m)
    (hback : ∀ (i : ℕ) m, p.nodes[i]? = some m → ∃ n, p'.nodes[i]? = some n ∧ Alike n m) : Sound at_ p' := by
  have hholds : ∀ i j, Holds p' i j ↔ Holds p i j := by
    intro i j
    unfold Holds
    rw [hstack]
    refine and_congr_right fun _ => or_congr_right ⟨?_, ?_⟩
    · rintro ⟨a, b, ha, hb, hstart, hstop⟩
      obtain ⟨a', ha', halike⟩ := hnodes i a ha
      obtain ⟨b', hb', balike⟩ := hnodes j b hb
      exact ⟨a', b', ha', hb', by rw [← halike.2.1, ← balike.1]; exact hstart,
        by rw [← balike.2.2.2.1, ← halike.2.2.1]; exact hstop⟩
    · rintro ⟨a, b, ha, hb, hstart, hstop⟩
      obtain ⟨a', ha', halike⟩ := hback i a ha
      obtain ⟨b', hb', balike⟩ := hback j b hb
      exact ⟨a', b', ha', hb', by rw [halike.2.1, balike.1]; exact hstart,
        by rw [balike.2.2.2.1, halike.2.2.1]; exact hstop⟩
  have hempty : p'.nodes = [] ↔ p.nodes = [] := by
    rw [← List.length_eq_zero_iff, ← List.length_eq_zero_iff, hlength]
  refine ⟨by rw [hstack]; exact h.innermost, by rw [hstack, hlength]; exact h.known, fun i n hn => ?_,
    fun i j a b hij ha hb => ?_, fun i j a b hij ha hb => ?_, fun i a j ha => ?_, fun i a ha => ?_, ?_, ?_⟩
  · obtain ⟨m, hm, hstart, hinner, hend, hstop, -⟩ := hnodes i n hn
    obtain ⟨hopens, hfrom, hcloses, hpast⟩ := h.placed i m hm
    exact ⟨by rw [hstart, hinner]; exact hopens, by rw [hinner, hend]; exact hfrom, by rw [hend, hstop]; exact hcloses,
      by rw [hstop]; exact hpast⟩
  · obtain ⟨a', ha', hastart, hainner, haend, hastop, -⟩ := hnodes i a ha
    obtain ⟨b', hb', hbstart, hbinner, hbend, hbstop, -⟩ := hnodes j b hb
    rw [hstack, hastop, hbstart, hainner, hbstop, haend]
    exact h.closed i j a' b' hij ha' hb'
  · obtain ⟨a', ha', -, hainner, -⟩ := hnodes i a ha
    obtain ⟨b', hb', hbstart, -⟩ := hnodes j b hb
    rw [hstack, hainner, hbstart]
    exact h.opened i j a' b' hij ha' hb'
  · obtain ⟨a', ha', -, -, -, -, hchildren⟩ := hnodes i a ha
    simp only [hlength, hholds, hchildren]
    exact h.children i a' j ha'
  · obtain ⟨a', ha', -, -, -, -, hchildren⟩ := hnodes i a ha
    rw [hchildren]
    exact h.sorted i a' ha'
  · rw [hroot, h.first]
    simp only [hempty]
  · rw [hempty, hstack]
    exact h.begun

theorem getElem?_modify_eq {α : Type} (l : List α) (f : α → α) (place i : ℕ) :
    (l.modify place f)[i]? = (l[i]?).map fun x => if place = i then f x else x :=
  List.getElem?_modify f place l i

theorem Sound.addText (h : Sound at_ p) (text : String) : Sound at_ (p.addText text) := by
  unfold Parsing.addText
  split
  · exact h
  · rename_i id _ _
    refine h.alike rfl rfl (List.length_modify _ _ _) (fun i n hn => ?_) fun i m hm => ?_
    · dsimp only at hn
      rw [getElem?_modify_eq, Option.map_eq_some_iff] at hn
      obtain ⟨m, hm, rfl⟩ := hn
      refine ⟨m, hm, ?_⟩
      split <;> exact ⟨rfl, rfl, rfl, rfl, rfl⟩
    · refine ⟨_, by dsimp only; rw [getElem?_modify_eq, hm]; rfl, ?_⟩
      split <;> exact ⟨rfl, rfl, rfl, rfl, rfl⟩

/-! ## Start tags -/

theorem Sound.head (h : Sound at_ p) {parent : ℕ} {rest : List ℕ} (hstack : p.stack = parent :: rest) {i : ℕ}
    (hi : i ∈ p.stack) : i ≤ parent := by
  have hsorted := h.innermost
  rw [hstack] at hsorted hi
  obtain rfl | hi := List.mem_cons.mp hi
  · exact Nat.le_refl _
  · exact Nat.le_of_lt ((List.pairwise_cons.mp hsorted).1 i hi)

section
variable {name : String} {attrs : List (String × String)} {closing : Bool} {before after : ℕ}

theorem open_length : (p.openTag name attrs closing before after).nodes.length = p.nodes.length + 1 := by
  unfold Parsing.openTag
  dsimp only
  split <;> simp

theorem open_stack :
    (p.openTag name attrs closing before after).stack = if closing then p.stack else p.nodes.length :: p.stack := by
  rfl

/-- Those that were there stay, and the innermost open one gets a child. -/
theorem open_old {i : ℕ} (hi : i < p.nodes.length) : (p.openTag name attrs closing before after).nodes[i]? =
    (p.nodes[i]?).map fun n => if p.stack.head? = some i then { n with children := n.children ++ [p.nodes.length] } else n := by
  unfold Parsing.openTag
  dsimp only
  split
  · rename_i parent rest hstack
    rw [getElem?_modify_eq, List.getElem?_append_left hi, hstack]
    simp only [List.head?_cons, Option.some_inj]
  · rename_i hstack
    rw [List.getElem?_append_left hi, hstack]
    simp

theorem open_new (hknown : ∀ i ∈ p.stack, i < p.nodes.length) :
    (p.openTag name attrs closing before after).nodes[p.nodes.length]? =
      some ⟨name, attrs, before, after, after, after, [], ""⟩ := by
  unfold Parsing.openTag
  dsimp only
  split
  · rename_i parent rest hstack
    have hne : ¬ parent = p.nodes.length := Nat.ne_of_lt (hknown parent (by rw [hstack]; exact List.mem_cons_self))
    rw [getElem?_modify_eq, List.getElem?_concat_length]
    simp only [Option.map_some, if_neg hne]
  · rw [List.getElem?_concat_length]

/-- A node after the tag is an old one, that may have got a child, or the new one. -/
theorem open_cases (hknown : ∀ i ∈ p.stack, i < p.nodes.length) {i : ℕ} {n : Node}
    (hn : (p.openTag name attrs closing before after).nodes[i]? = some n) :
    (i < p.nodes.length ∧ ∃ m, p.nodes[i]? = some m ∧ n.start = m.start ∧ n.innerStart = m.innerStart ∧
      n.innerEnd = m.innerEnd ∧ n.stop = m.stop ∧
      n.children = if p.stack.head? = some i then m.children ++ [p.nodes.length] else m.children) ∨
    i = p.nodes.length ∧ n = ⟨name, attrs, before, after, after, after, [], ""⟩ := by
  have hlt : i < p.nodes.length + 1 := by
    rw [← open_length]
    exact (List.getElem?_eq_some_iff.mp hn).1
  obtain hi | rfl := Nat.lt_succ_iff_lt_or_eq.mp hlt
  · rw [open_old hi, Option.map_eq_some_iff] at hn
    obtain ⟨m, hm, rfl⟩ := hn
    refine Or.inl ⟨hi, m, hm, ?_⟩
    split
    · exact ⟨rfl, rfl, rfl, rfl, rfl⟩
    · exact ⟨rfl, rfl, rfl, rfl, rfl⟩
  · rw [open_new hknown, Option.some_inj] at hn
    exact Or.inr ⟨rfl, hn.symm⟩

theorem open_exists {i : ℕ} {m : Node} (hm : p.nodes[i]? = some m) :
    ∃ n, (p.openTag name attrs closing before after).nodes[i]? = some n ∧ n.start = m.start ∧ n.innerStart = m.innerStart ∧
      n.innerEnd = m.innerEnd ∧ n.stop = m.stop := by
  refine ⟨_, by rw [open_old (List.getElem?_eq_some_iff.mp hm).1, hm]; rfl, ?_⟩
  split <;> exact ⟨rfl, rfl, rfl, rfl⟩

theorem open_mem_stack {i : ℕ} (hi : i < p.nodes.length) :
    i ∈ (p.openTag name attrs closing before after).stack ↔ i ∈ p.stack := by
  rw [open_stack]
  split
  · exact Iff.rfl
  · rw [List.mem_cons, or_iff_right (Nat.ne_of_lt hi)]

theorem open_holds_old (hknown : ∀ i ∈ p.stack, i < p.nodes.length) {i j : ℕ} (hj : j < p.nodes.length) :
    Holds (p.openTag name attrs closing before after) i j ↔ Holds p i j := by
  unfold Holds
  refine and_congr_right fun hij => ?_
  rw [open_mem_stack (hij.trans hj)]
  refine or_congr_right ⟨?_, ?_⟩
  · rintro ⟨a, b, ha, hb, hstart, hstop⟩
    obtain ⟨-, a', ha', -, hainner, haend, -⟩ | ⟨heq, -⟩ := open_cases hknown ha
    · obtain ⟨-, b', hb', hbstart, -, -, hbstop, -⟩ | ⟨heq, -⟩ := open_cases hknown hb
      · exact ⟨a', b', ha', hb', by omega, by omega⟩
      · omega
    · omega
  · rintro ⟨a, b, ha, hb, hstart, hstop⟩
    obtain ⟨a', ha', -, hainner, haend, -⟩ := @open_exists p name attrs closing before after i a ha
    obtain ⟨b', hb', hbstart, -, -, hbstop⟩ := @open_exists p name attrs closing before after j b hb
    exact ⟨a', b', ha', hb', by omega, by omega⟩

/-- The open elements hold the new one. -/
theorem open_holds_new (h : Sound before p) (hlt : before < after) {i : ℕ} :
    Holds (p.openTag name attrs closing before after) i p.nodes.length ↔ i ∈ p.stack := by
  constructor
  · rintro ⟨hi, hmem | ⟨a, b, ha, hb, -, hstop⟩⟩
    · exact (open_mem_stack hi).mp hmem
    · rw [open_new h.known, Option.some_inj] at hb
      obtain ⟨-, a', ha', -, -, haend, -⟩ | ⟨heq, -⟩ := open_cases h.known ha
      · have hplaced := h.placed i a' ha'
        have hpast := hplaced.past
        have hcloses := hplaced.closes
        rw [← hb] at hstop
        dsimp only at hstop
        omega
      · omega
  · intro hmem
    exact ⟨h.known i hmem, Or.inl ((open_mem_stack (h.known i hmem)).mpr hmem)⟩

theorem Sound.openTag (h : Sound before p) (hlt : before < after) : Sound after (p.openTag name attrs closing before after) := by
  have hlate := h.later (Nat.le_of_lt hlt)
  refine ⟨?_, fun i hi => ?_, fun i n hn => ?_, fun i j a b hij ha hb hi => ?_, fun i j a b hij ha hb hi => ?_,
    fun i a j ha => ?_, fun i a ha => ?_, ?_, fun hnil => ?_⟩
  · rw [open_stack]
    split
    · exact h.innermost
    · exact List.pairwise_cons.mpr ⟨h.known, h.innermost⟩
  · rw [open_length]
    rw [open_stack] at hi
    split at hi
    · exact Nat.lt_succ_of_lt (h.known i hi)
    · obtain rfl | hi := List.mem_cons.mp hi
      · exact Nat.lt_succ_self _
      · exact Nat.lt_succ_of_lt (h.known i hi)
  · obtain ⟨-, m, hm, hstart, hinner, hend, hstop, -⟩ | ⟨-, rfl⟩ := open_cases h.known hn
    · obtain ⟨hopens, hfrom, hcloses, hpast⟩ := hlate.placed i m hm
      exact ⟨by omega, by omega, by omega, by omega⟩
    · exact ⟨hlt, Nat.le_refl _, Nat.le_refl _, Nat.le_refl _⟩
  · obtain ⟨hilt, a', ha', -, hainner, haend, hastop, -⟩ | ⟨hieq, -⟩ := open_cases h.known ha
    · rw [open_mem_stack hilt] at hi
      obtain ⟨hjlt, b', hb', hbstart, -, -, hbstop, -⟩ | ⟨-, rfl⟩ := open_cases h.known hb
      · rw [open_mem_stack hjlt, hastop, hbstart, hainner, hbstop, haend]
        exact h.closed i j a' b' hij ha' hb' hi
      · have hpast := (h.placed i a' ha').past
        exact Or.inl (by dsimp only; omega)
    · obtain ⟨hjlt, -⟩ | ⟨hjeq, -⟩ := open_cases h.known hb
      · omega
      · omega
  · obtain ⟨hilt, a', ha', -, hainner, -⟩ | ⟨hieq, -⟩ := open_cases h.known ha
    · rw [open_mem_stack hilt] at hi
      obtain ⟨-, b', hb', hbstart, -⟩ | ⟨-, rfl⟩ := open_cases h.known hb
      · rw [hainner, hbstart]
        exact h.opened i j a' b' hij ha' hb' hi
      · obtain ⟨-, hfrom, hcloses, hpast⟩ := h.placed i a' ha'
        dsimp only
        omega
    · obtain ⟨hjlt, -⟩ | ⟨hjeq, -⟩ := open_cases h.known hb
      · omega
      · omega
  · obtain ⟨hilt, a', ha', -, -, -, -, hchildren⟩ | ⟨hieq, rfl⟩ := open_cases h.known ha
    · rw [hchildren, open_length]
      have hbefore := h.children i a' j ha'
      by_cases hj : j < p.nodes.length
      · have hold : ∀ k, Holds (p.openTag name attrs closing before after) k j ↔ Holds p k j := fun k =>
          open_holds_old h.known hj
        have hne : ¬ j = p.nodes.length := Nat.ne_of_lt hj
        have hmem : (j ∈ if p.stack.head? = some i then a'.children ++ [p.nodes.length] else a'.children) ↔
            j ∈ a'.children := by
          split
          · rw [List.mem_append, List.mem_singleton, or_iff_left hne]
          · exact Iff.rfl
        simp only [hmem, hbefore, hold, hj, Nat.lt_succ_of_lt hj]
      · have hnot : j ∉ a'.children := fun hmem => hj (hbefore.mp hmem).1
        by_cases hjeq : j = p.nodes.length
        · subst hjeq
          have hnew : ∀ k, Holds (p.openTag name attrs closing before after) k p.nodes.length ↔ k ∈ p.stack := fun k =>
            open_holds_new h hlt
          simp only [hnew]
          cases hstack : p.stack with
          | nil => simp [hnot]
          | cons parent rest =>
            have hhead : parent ∈ p.stack := by rw [hstack]; exact List.mem_cons_self
            have htop : ∀ k ∈ p.stack, k ≤ parent := fun k hk => h.head hstack hk
            rw [hstack] at htop hhead
            by_cases heq : parent = i
            · subst heq
              simp only [List.head?_cons, if_true, List.mem_append, List.mem_singleton, or_true, true_iff]
              exact ⟨Nat.lt_succ_self _, hhead, htop⟩
            · have hhead? : ¬ (parent :: rest).head? = some i := fun hsome => heq (Option.some_inj.mp hsome)
              rw [if_neg hhead?]
              refine ⟨fun hmem => absurd hmem hnot, ?_⟩
              rintro ⟨-, hin, hmost⟩
              exact absurd (Nat.le_antisymm (hmost parent hhead) (htop i hin)) heq
        · constructor
          · intro hmem
            split at hmem
            · rw [List.mem_append, List.mem_singleton, or_iff_left hjeq] at hmem
              exact absurd hmem hnot
            · exact absurd hmem hnot
          · rintro ⟨hjlt, -⟩
            omega
    · refine ⟨fun hmem => absurd hmem List.not_mem_nil, ?_⟩
      rintro ⟨hjlt, hholds, -⟩
      have hij := hholds.1
      rw [open_length] at hjlt
      omega
  · obtain ⟨hilt, a', ha', -, -, -, -, hchildren⟩ | ⟨-, rfl⟩ := open_cases h.known ha
    · rw [hchildren]
      split
      · refine List.pairwise_append.mpr ⟨h.sorted i a' ha', List.pairwise_singleton _ _, fun x hx y hy => ?_⟩
        rw [List.mem_singleton.mp hy]
        exact ((h.children i a' x ha').mp hx).1
      · exact h.sorted i a' ha'
    · exact List.Pairwise.nil
  · have hsome : (p.openTag name attrs closing before after).nodes ≠ [] := by
      rw [← List.length_pos_iff, open_length]
      exact Nat.succ_pos _
    rw [if_neg hsome]
    have hroot := h.first
    unfold Parsing.openTag
    dsimp only
    split
    · rename_i parent rest hstack
      have hne : p.nodes ≠ [] := fun hnil => by
        rw [h.begun hnil] at hstack
        cases hstack
      rw [hroot, if_neg hne]
    · rw [hroot]
      split
      · rename_i hnil
        rw [hnil]
        rfl
      · rfl
  · exfalso
    have hlength := @open_length p name attrs closing before after
    rw [hnil] at hlength
    cases hlength

end

/-! ## End tags -/

/-- The innermost open element is closed. -/
def Parsing.closeTag (p : Parsing) (id : ℕ) (stack : List ℕ) (before after : ℕ) : Parsing :=
  { p with nodes := p.nodes.modify id fun n => { n with innerEnd := before, stop := after }, stack := stack }

section
variable {top : ℕ} {stack : List ℕ} {before after : ℕ}

theorem close_cases {i : ℕ} {n : Node} (hn : (p.closeTag top stack before after).nodes[i]? = some n) :
    ∃ m, p.nodes[i]? = some m ∧ n.start = m.start ∧ n.innerStart = m.innerStart ∧ n.children = m.children ∧
      (i ≠ top ∧ n.innerEnd = m.innerEnd ∧ n.stop = m.stop ∨ i = top ∧ n.innerEnd = before ∧ n.stop = after) := by
  change (p.nodes.modify top fun n => { n with innerEnd := before, stop := after })[i]? = some n at hn
  rw [getElem?_modify_eq, Option.map_eq_some_iff] at hn
  obtain ⟨m, hm, rfl⟩ := hn
  refine ⟨m, hm, ?_⟩
  split
  · rename_i heq
    exact ⟨rfl, rfl, rfl, Or.inr ⟨heq.symm, rfl, rfl⟩⟩
  · rename_i hne
    exact ⟨rfl, rfl, rfl, Or.inl ⟨fun heq => hne heq.symm, rfl, rfl⟩⟩

theorem close_exists {i : ℕ} {m : Node} (hm : p.nodes[i]? = some m) :
    ∃ n, (p.closeTag top stack before after).nodes[i]? = some n := by
  exact ⟨_, (getElem?_modify_eq p.nodes _ top i).trans (congrArg _ hm)⟩

theorem close_length : (p.closeTag top stack before after).nodes.length = p.nodes.length := List.length_modify _ _ _

theorem close_holds (h : Sound before p) (hstack : p.stack = top :: stack) (hle : before ≤ after) {i j : ℕ}
    (hj : j < p.nodes.length) : Holds (p.closeTag top stack before after) i j ↔ Holds p i j := by
  have hsorted := h.innermost
  rw [hstack] at hsorted
  obtain ⟨hbelow, -⟩ := List.pairwise_cons.mp hsorted
  obtain ⟨b, hb⟩ : ∃ b, p.nodes[j]? = some b := ⟨_, List.getElem?_eq_getElem hj⟩
  unfold Holds
  refine and_congr_right fun hij => ?_
  obtain ⟨a, ha⟩ : ∃ a, p.nodes[i]? = some a := ⟨_, List.getElem?_eq_getElem (hij.trans hj)⟩
  obtain ⟨a', ha'⟩ := @close_exists p top stack before after i a ha
  obtain ⟨b', hb'⟩ := @close_exists p top stack before after j b hb
  obtain ⟨a₀, ha₀, -, hainner, -, haend⟩ := close_cases ha'
  obtain ⟨b₀, hb₀, hbstart, -, -, hbstop⟩ := close_cases hb'
  obtain rfl : a = a₀ := Option.some_inj.mp (ha.symm.trans ha₀)
  obtain rfl : b = b₀ := Option.some_inj.mp (hb.symm.trans hb₀)
  have hplaced_a := h.placed i a ha
  have hplaced_b := h.placed j b hb
  have hopens := hplaced_b.opens
  have hinner := hplaced_b.inner
  have hcloses := hplaced_b.closes
  have hpast := hplaced_b.past
  have haout := hplaced_a.closes
  have hinside : (∃ x y, (p.closeTag top stack before after).nodes[i]? = some x ∧
      (p.closeTag top stack before after).nodes[j]? = some y ∧ x.innerStart ≤ y.start ∧ y.stop ≤ x.innerEnd) ↔
      a'.innerStart ≤ b'.start ∧ b'.stop ≤ a'.innerEnd := by
    rw [ha', hb']
    simp
  have hinside₀ : (∃ x y, p.nodes[i]? = some x ∧ p.nodes[j]? = some y ∧ x.innerStart ≤ y.start ∧ y.stop ≤ x.innerEnd) ↔
      a.innerStart ≤ b.start ∧ b.stop ≤ a.innerEnd := by
    rw [ha, hb]
    simp
  rw [hinside, hinside₀, hstack]
  change (i ∈ stack ∨ _) ↔ _
  by_cases htop : i = top
  · -- what was open holds everything that came after it
    subst htop
    have hopened := h.opened i j a b hij ha hb (by rw [hstack]; exact List.mem_cons_self)
    refine ⟨fun _ => Or.inl List.mem_cons_self, fun _ => Or.inr ?_⟩
    obtain ⟨hne, -⟩ | ⟨-, haend, -⟩ := haend
    · exact absurd rfl hne
    · obtain ⟨-, -, hbstop⟩ | ⟨heq, -⟩ := hbstop
      · omega
      · omega
  · rw [List.mem_cons, or_iff_right htop]
    by_cases hopen : i ∈ stack
    · simp [hopen]
    · simp only [hopen, false_or]
      have hclosed := h.closed i j a b hij ha hb (by rw [hstack, List.mem_cons]; exact fun hmem => hmem.elim htop hopen)
      obtain ⟨-, haend, hastop⟩ | ⟨heq, -⟩ := haend
      · obtain ⟨-, -, hbstop⟩ | ⟨rfl, -, hbstop⟩ := hbstop
        · rw [hainner, hbstart, hbstop, haend]
        · obtain hapart | ⟨hnot, -⟩ := hclosed
          · omega
          · exact absurd (by rw [hstack]; exact List.mem_cons_self) hnot
      · exact absurd heq htop

theorem Sound.closeTag (h : Sound before p) (hstack : p.stack = top :: stack) (hle : before ≤ after) :
    Sound after (p.closeTag top stack before after) := by
  have hsorted := h.innermost
  rw [hstack] at hsorted
  obtain ⟨hbelow, hrest⟩ := List.pairwise_cons.mp hsorted
  have htop : top ∈ p.stack := by rw [hstack]; exact List.mem_cons_self
  have hmem : ∀ i, i ∈ p.stack ↔ i = top ∨ i ∈ stack := fun i => by rw [hstack, List.mem_cons]
  refine ⟨hrest, fun i hi => ?_, fun i n hn => ?_, fun i j a b hij ha hb hi => ?_, fun i j a b hij ha hb hi => ?_,
    fun i a j ha => ?_, fun i a ha => ?_, ?_, fun hnil => ?_⟩
  · rw [close_length]
    exact h.known i ((hmem i).mpr (Or.inr hi))
  · obtain ⟨m, hm, hstart, hinner, -, hend⟩ := close_cases hn
    obtain ⟨hopens, hfrom, hcloses, hpast⟩ := h.placed i m hm
    obtain ⟨-, hend, hstop⟩ | ⟨-, hend, hstop⟩ := hend
    · exact ⟨by omega, by omega, by omega, by omega⟩
    · exact ⟨by omega, by omega, by omega, by omega⟩
  · obtain ⟨a₀, ha₀, -, hainner, -, haend⟩ := close_cases ha
    obtain ⟨b₀, hb₀, hbstart, -, -, hbstop⟩ := close_cases hb
    have hpast := (h.placed j b₀ hb₀).past
    by_cases hit : i = top
    · subst hit
      have hopened := h.opened i j a₀ b₀ hij ha₀ hb₀ htop
      obtain ⟨hne, -⟩ | ⟨-, haend, -⟩ := haend
      · exact absurd rfl hne
      · obtain ⟨-, -, hbstop⟩ | ⟨heq, -⟩ := hbstop
        · refine Or.inr ⟨fun hj => ?_, by omega, by omega⟩
          have hlt := hbelow j hj
          omega
        · omega
    · have hout : i ∉ p.stack := fun hin => ((hmem i).mp hin).elim hit hi
      obtain ⟨-, haend, hastop⟩ | ⟨heq, -⟩ := haend
      · obtain hapart | ⟨hjout, hstart, hstop⟩ := h.closed i j a₀ b₀ hij ha₀ hb₀ hout
        · exact Or.inl (by omega)
        · obtain ⟨-, -, hbstop⟩ | ⟨heq, -⟩ := hbstop
          · exact Or.inr ⟨fun hj => hjout ((hmem j).mpr (Or.inr hj)), by omega, by omega⟩
          · exact absurd ((hmem j).mpr (Or.inl heq)) hjout
      · exact absurd heq hit
  · obtain ⟨a₀, ha₀, -, hainner, -⟩ := close_cases ha
    obtain ⟨b₀, hb₀, hbstart, -⟩ := close_cases hb
    rw [hainner, hbstart]
    exact h.opened i j a₀ b₀ hij ha₀ hb₀ ((hmem i).mpr (Or.inr hi))
  · obtain ⟨a₀, ha₀, -, -, hchildren, -⟩ := close_cases ha
    rw [hchildren, close_length, h.children i a₀ j ha₀]
    refine and_congr_right fun hj => ?_
    simp only [close_holds h hstack hle hj]
  · obtain ⟨a₀, ha₀, -, -, hchildren, -⟩ := close_cases ha
    rw [hchildren]
    exact h.sorted i a₀ ha₀
  · have hroot := h.first
    have hnil : (p.closeTag top stack before after).nodes = [] ↔ p.nodes = [] := by
      rw [← List.length_eq_zero_iff, close_length, List.length_eq_zero_iff]
    simp only [hnil]
    exact hroot
  · rw [← List.length_eq_zero_iff, close_length, List.length_eq_zero_iff] at hnil
    have hbegun := h.begun hnil
    rw [hstack] at hbegun
    cases hbegun

end

/-! ## A whole project -/

theorem Sound.read (h : Sound at_ p) {after : ℕ} (hle : at_ ≤ after) {event : Event}
    (htag : ∀ name attrs, event = .start name attrs → at_ < after) {text : List UInt8} {p' : Parsing}
    (hread : p.read text at_ after event = .ok p') : Sound after p' := by
  cases event with
  | start name attrs =>
    cases attrs with
    | error err => cases hread
    | ok attrs =>
      obtain rfl := Except.ok.inj hread
      exact h.openTag (htag name (.ok attrs) rfl)
  | close =>
    unfold Parsing.read at hread
    dsimp only at hread
    cases hstack : p.stack with
    | nil =>
      rw [hstack] at hread
      cases hread
    | cons top stack =>
      rw [hstack] at hread
      obtain rfl := Except.ok.inj hread
      exact h.closeTag hstack hle
  | text more =>
    obtain rfl := Except.ok.inj hread
    exact (h.addText more).later hle
  | other =>
    obtain rfl := Except.ok.inj hread
    exact h.later hle

theorem Sound.loop {text : List UInt8} {reading : Reading} (h : Sound at_ p) (hadvances : Advances text.length at_ reading)
    (hin : at_ ≤ text.length) {p' : Parsing} (hloop : Parsing.loop text p at_ reading = .ok p') : Sound text.length p' := by
  induction reading generalizing at_ p with
  | nil =>
    obtain rfl := Except.ok.inj hloop
    exact h.later hin
  | cons item rest ih =>
    obtain ⟨event, after⟩ := item
    obtain ⟨⟨hle, htag⟩, hwithin, hrest⟩ := hadvances
    cases event with
    | error e => cases hloop
    | ok event =>
      change (p.read text at_ after event).bind (fun p => Parsing.loop text p after rest) = .ok p' at hloop
      cases hread : p.read text at_ after event with
      | error e =>
        rw [hread] at hloop
        cases hloop
      | ok next =>
        rw [hread] at hloop
        exact ih (h.read hle (fun name attrs heq => htag name attrs (by rw [heq])) hread) hrest hwithin hloop

theorem sound_start : Sound 0 ⟨[], [], none⟩ := by
  refine ⟨List.Pairwise.nil, fun i hi => ?_, fun i n hn => ?_, fun i j a b _ ha => ?_, fun i j a b _ ha => ?_,
    fun i a j ha => ?_, fun i a ha => ?_, rfl, fun _ => rfl⟩
  · cases hi
  · cases hn
  · cases ha
  · cases ha
  · cases ha
  · cases ha

/-- Of two elements, `j` lies within `i`'s content. -/
def Inside (tree : Tree) (i j : ℕ) : Prop :=
  ∃ a b, tree.nodes[i]? = some a ∧ tree.nodes[j]? = some b ∧ a.innerStart ≤ b.start ∧ b.stop ≤ a.innerEnd

/-- Elements have their places within the text, any two lie apart or one within the other's content, and an element's
children are those that lie innermost within it, in order. -/
structure Nested (length : ℕ) (tree : Tree) : Prop where
  placed : ∀ (i : ℕ) n, tree.nodes[i]? = some n → Placed length n
  laminar : ∀ (i j : ℕ) a b, i < j → tree.nodes[i]? = some a → tree.nodes[j]? = some b →
    a.stop ≤ b.start ∨ a.innerStart ≤ b.start ∧ b.stop ≤ a.innerEnd
  children : ∀ (i : ℕ) a j, tree.nodes[i]? = some a →
    (j ∈ a.children ↔ Inside tree i j ∧ ∀ k, Inside tree k j → k = i ∨ Inside tree k i)
  sorted : ∀ (i : ℕ) a, tree.nodes[i]? = some a → a.children.Pairwise (· < ·)
  root : tree.root = 0 ∧ tree.nodes ≠ []

variable {tree : Tree} {length : ℕ}

theorem Inside.lt (hplaced : ∀ (i : ℕ) n, tree.nodes[i]? = some n → Placed length n)
    (hlaminar : ∀ (i j : ℕ) a b, i < j → tree.nodes[i]? = some a → tree.nodes[j]? = some b →
      a.stop ≤ b.start ∨ a.innerStart ≤ b.start ∧ b.stop ≤ a.innerEnd) {i j : ℕ} (h : Inside tree i j) : i < j := by
  obtain ⟨a, b, ha, hb, hstart, hstop⟩ := h
  obtain ⟨haopens, hainner, hacloses, -⟩ := hplaced i a ha
  obtain ⟨hbopens, hbinner, hbcloses, -⟩ := hplaced j b hb
  rcases Nat.lt_trichotomy i j with hlt | rfl | hlt
  · exact hlt
  · rw [ha, Option.some_inj] at hb
    subst hb
    omega
  · rcases hlaminar j i b a hlt hb ha with hapart | ⟨hbefore, -⟩
    · omega
    · omega

theorem Sound.nested {root : ℕ} (h : Sound length p) (hstack : p.stack = []) (hroot : p.root = some root) :
    Nested length ⟨p.nodes, root⟩ := by
  have hlaminar : ∀ (i j : ℕ) a b, i < j → p.nodes[i]? = some a → p.nodes[j]? = some b →
      a.stop ≤ b.start ∨ a.innerStart ≤ b.start ∧ b.stop ≤ a.innerEnd := by
    intro i j a b hij ha hb
    refine (h.closed i j a b hij ha hb ?_).imp_right And.right
    rw [hstack]
    exact List.not_mem_nil
  have hlt : ∀ {i j : ℕ}, Inside ⟨p.nodes, root⟩ i j → i < j := fun hinside => hinside.lt h.placed hlaminar
  have hholds : ∀ i j, Holds p i j ↔ Inside ⟨p.nodes, root⟩ i j := by
    intro i j
    unfold Holds
    rw [hstack]
    simp only [List.not_mem_nil, false_or]
    exact ⟨And.right, fun hinside => ⟨hlt hinside, hinside⟩⟩
  refine ⟨h.placed, hlaminar, fun i a j ha => ?_, h.sorted, ?_⟩
  · rw [h.children i a j ha]
    simp only [hholds]
    constructor
    · rintro ⟨-, hinside, hmost⟩
      refine ⟨hinside, fun k hk => ?_⟩
      rcases Nat.lt_or_eq_of_le (hmost k hk) with hki | hki
      · obtain ⟨c, b, hc, hb, hcstart, hcstop⟩ := hk
        obtain ⟨a₀, b₀, ha₀, hb₀, hastart, hastop⟩ := hinside
        obtain rfl : b = b₀ := Option.some_inj.mp (hb.symm.trans hb₀)
        have hbplaced := h.placed j b hb
        have haplaced := h.placed i a₀ ha₀
        have hcplaced := h.placed k c hc
        have hbopens := hbplaced.opens
        have hbinner := hbplaced.inner
        have hbcloses := hbplaced.closes
        have haopens := haplaced.opens
        have hccloses := hcplaced.closes
        rcases hlaminar k i c a₀ hki hc ha₀ with hapart | hwithin
        · omega
        · exact Or.inr ⟨c, a₀, hc, ha₀, hwithin⟩
      · exact Or.inl hki
    · rintro ⟨hinside, hmost⟩
      have hjlt : j < p.nodes.length := by
        obtain ⟨-, b, -, hb, -⟩ := hinside
        exact (List.getElem?_eq_some_iff.mp hb).1
      refine ⟨hjlt, hinside, fun k hk => ?_⟩
      rcases hmost k hk with rfl | hin
      · exact Nat.le_refl _
      · exact Nat.le_of_lt (hlt hin)
  · have hfirst := h.first
    rw [hroot] at hfirst
    split at hfirst
    · cases hfirst
    · rename_i hne
      exact ⟨Option.some_inj.mp hfirst, hne⟩

/-- Whatever the reader finds, what is accepted is nested. -/
theorem parse_nested {reader : List UInt8 → Reading} {text : List UInt8} (hadvances : Advances text.length 0 (reader text))
    (hparse : Tree.parse reader text = .ok tree) : Nested text.length tree := by
  unfold Tree.parse at hparse
  cases hloop : Parsing.loop text ⟨[], [], none⟩ 0 (reader text) with
  | error e =>
    rw [hloop] at hparse
    cases hparse
  | ok p =>
    rw [hloop] at hparse
    have hsound := sound_start.loop hadvances (Nat.zero_le _) hloop
    change (if p.stack ≠ [] then _ else _) = _ at hparse
    split at hparse
    · cases hparse
    · rename_i hstack
      cases hroot : p.root with
      | none =>
        rw [hroot] at hparse
        cases hparse
      | some root =>
        rw [hroot] at hparse
        obtain rfl := Except.ok.inj hparse
        exact hsound.nested (by simpa using hstack) hroot

/-- `<m><profile/><b id="main_bin"/></m>` -/
def sample : List UInt8 :=
  [60, 109, 62, 60, 112, 114, 111, 102, 105, 108, 101, 47, 62, 60, 98, 32, 105, 100, 61, 34, 109, 97, 105, 110, 95, 98,
    105, 110, 34, 47, 62, 60, 47, 109, 62]

def sampleReader (_ : List UInt8) : Reading :=
  [(.ok (.start "m" (.ok [])), 3), (.ok (.start "profile" (.ok [])), 13),
    (.ok (.start "b" (.ok [("id", "main_bin")])), 31), (.ok .close, 35)]

def sampleTree : Tree where
  nodes :=
    [⟨"m", [], 0, 35, 3, 31, [1, 2], ""⟩, ⟨"profile", [], 3, 13, 13, 13, [], ""⟩,
      ⟨"b", [("id", "main_bin")], 13, 31, 31, 31, [], ""⟩]
  root := 0

theorem advances_sample : Advances sample.length 0 (sampleReader sample) := by simp [Advances, sampleReader, sample]

theorem parse_nested_sample : Nested sample.length sampleTree :=
  @parse_nested sampleTree sampleReader sample advances_sample rfl

end Haruspex.Kdenlive.Xml
