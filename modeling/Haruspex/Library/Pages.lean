import Mathlib.Data.List.Basic
import Mathlib.Data.Nat.Notation

/-! A list cut into pages of one length, the last perhaps shorter. -/
namespace Haruspex.Pages
set_option autoImplicit false

variable {α : Type} {k : ℕ} {l : List α}

/-- The `i`-th page. -/
def page (k : ℕ) (l : List α) (i : ℕ) : List α := (l.drop (i * k)).take k

def pages (k : ℕ) (l : List α) : List (List α) := (List.range ((l.length + k - 1) / k)).map (page k l)

theorem length_page (k : ℕ) (l : List α) (i : ℕ) : (page k l i).length = min k (l.length - i * k) := by
  rw [page, List.length_take, List.length_drop]

theorem mem_of_mem_page {x : α} {i : ℕ} (h : x ∈ page k l i) : x ∈ l :=
  List.mem_of_mem_drop (List.mem_of_mem_take h)

/-- The first pages are what the list begins with. -/
theorem flatten_pages (k : ℕ) (l : List α) (n : ℕ) :
    ((List.range n).map (page k l)).flatten = l.take (n * k) := by
  induction n with
  | zero => simp
  | succ n ih =>
    rw [List.range_succ, List.map_append, List.flatten_append, ih, List.map_singleton, List.flatten_singleton,
      page, Nat.succ_mul, List.take_add]

theorem flatten_pages_eq_self (hk : 0 < k) (l : List α) : (pages k l).flatten = l := by
  rw [pages, flatten_pages, List.take_of_length_le]
  have hdiv := Nat.div_add_mod (l.length + k - 1) k
  have hmod := Nat.mod_lt (l.length + k - 1) hk
  rw [Nat.mul_comm]
  omega

/-- Which pages there are. -/
theorem mem_pages_iff (hk : 0 < k) {p : List α} : p ∈ pages k l ↔ ∃ i, i * k < l.length ∧ p = page k l i := by
  have hlt : ∀ i, i < (l.length + k - 1) / k ↔ i * k < l.length := by
    intro i
    rw [Nat.lt_div_iff_mul_lt hk]
    omega
  simp only [pages, List.mem_map, List.mem_range, hlt]
  constructor
  · rintro ⟨i, hi, rfl⟩
    exact ⟨i, hi, rfl⟩
  · rintro ⟨i, hi, rfl⟩
    exact ⟨i, hi, rfl⟩

end Haruspex.Pages
