import Mathlib.Algebra.BigOperators.Group.Finset.Basic
import Mathlib.Algebra.BigOperators.Group.List.Basic
import Mathlib.Algebra.GroupWithZero.Nat

/-!
# Sums over the members of a list

What becomes of a sum over a list when one member is replaced.
-/

namespace Tgfs

variable {α : Type} {l : List α} {k : Nat} {a : α}

theorem tally_set (f : α → Nat) (h : l[k]? = some a) (b : α) :
    ((l.set k b).map f).sum + f a = (l.map f).sum + f b := by
  induction l generalizing k with
  | nil => cases h
  | cons c l ih =>
    cases k with
    | zero =>
      cases h
      simp only [List.set_cons_zero, List.map_cons, List.sum_cons]
      omega
    | succ k =>
      have := ih h
      simp only [List.set_cons_succ, List.map_cons, List.sum_cons]
      omega

theorem le_tally (f : α → Nat) (h : a ∈ l) : f a ≤ (l.map f).sum := by
  induction h with
  | head l =>
    simp only [List.map_cons, List.sum_cons]
    omega
  | tail b _ ih =>
    simp only [List.map_cons, List.sum_cons]
    omega

theorem exists_of_tally_pos (f : α → Nat) (h : 0 < (l.map f).sum) : ∃ a ∈ l, 0 < f a := by
  induction l with
  | nil => cases h
  | cons b l ih =>
    simp only [List.map_cons, List.sum_cons] at h
    by_cases hb : 0 < f b
    · exact ⟨b, List.mem_cons_self, hb⟩
    · obtain ⟨a, ha, hpos⟩ := ih (by omega)
      exact ⟨a, List.mem_cons_of_mem b ha, hpos⟩

/-! ## Sums over a table -/

variable {n i : Nat} (f : Nat → α) (g : α → Nat)

theorem sum_update (h : i < n) (b : α) :
    (∑ k ∈ Finset.range n, g (Function.update f i b k)) + g (f i) =
      (∑ k ∈ Finset.range n, g (f k)) + g b := by
  have hi : i ∈ Finset.range n := Finset.mem_range.mpr h
  have hrest : ∑ k ∈ (Finset.range n).erase i, g (Function.update f i b k) =
      ∑ k ∈ (Finset.range n).erase i, g (f k) := by
    apply Finset.sum_congr rfl
    intro k hk
    rw [Function.update_of_ne (Finset.ne_of_mem_erase hk)]
  rw [← Finset.add_sum_erase _ _ hi, ← Finset.add_sum_erase _ (fun k => g (f k)) hi, hrest,
    Function.update_self]
  omega

theorem sum_push (b : α) :
    ∑ k ∈ Finset.range (n + 1), g (Function.update f n b k) =
      (∑ k ∈ Finset.range n, g (f k)) + g b := by
  rw [Finset.sum_range_succ, Function.update_self]
  congr 1
  apply Finset.sum_congr rfl
  intro k hk
  rw [Function.update_of_ne (Nat.ne_of_lt (Finset.mem_range.mp hk))]

end Tgfs
