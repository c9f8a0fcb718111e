import Mathlib.Data.Finset.Basic
import Mathlib.Logic.Function.Basic

/-!
# Tickets

A set of tickets that are out, and the holder of each. A ticket is taken if it is not out, is
handed on, and is given back. A holder has one ticket at most, and a ticket one holder.
-/

namespace Tgfs

/-- `out` are the tickets that are held by someone, each by one. -/
structure Ticketed {ι α : Type} (out : Finset α) (holds : ι → Option α) : Prop where
  held : ∀ a, a ∈ out ↔ ∃ i, holds i = some a
  one : ∀ i j a, holds i = some a → holds j = some a → i = j

namespace Ticketed

variable {ι α : Type} [DecidableEq ι] [DecidableEq α] {out : Finset α} {holds : ι → Option α}
  {i j : ι} {a : α}

omit [DecidableEq ι] [DecidableEq α] in
theorem empty (h : ∀ i, holds i = none) : Ticketed ∅ holds := by
  refine ⟨fun a => ?_, fun i j a hi => ?_⟩
  · simp [h]
  · rw [h i] at hi
    cases hi

theorem take (h : Ticketed out holds) (hi : holds i = none) (ha : a ∉ out) :
    Ticketed (insert a out) (Function.update holds i (some a)) := by
  have hfree : ∀ j, holds j ≠ some a := fun j hj => ha ((h.held a).mpr ⟨j, hj⟩)
  refine ⟨fun b => ?_, fun j j' b hj hj' => ?_⟩
  · rw [Finset.mem_insert, h.held]
    constructor
    · rintro (rfl | ⟨j, hj⟩)
      · exact ⟨i, Function.update_self _ _ _⟩
      · refine ⟨j, (Function.update_of_ne ?_ _ _).trans hj⟩
        rintro rfl
        rw [hi] at hj
        cases hj
    · rintro ⟨j, hj⟩
      by_cases hji : j = i
      · subst hji
        rw [Function.update_self] at hj
        exact .inl (Option.some.inj hj).symm
      · rw [Function.update_of_ne hji] at hj
        exact .inr ⟨j, hj⟩
  · by_cases hji : j = i
    · by_cases hji' : j' = i
      · exact hji.trans hji'.symm
      · subst hji
        rw [Function.update_self] at hj
        rw [Function.update_of_ne hji', ← hj] at hj'
        exact absurd hj' (hfree j')
    · rw [Function.update_of_ne hji] at hj
      by_cases hji' : j' = i
      · subst hji'
        rw [Function.update_self] at hj'
        rw [← hj'] at hj
        exact absurd hj (hfree j)
      · rw [Function.update_of_ne hji'] at hj'
        exact h.one j j' b hj hj'

theorem giveBack (h : Ticketed out holds) (hi : holds i = some a) :
    Ticketed (out.erase a) (Function.update holds i none) := by
  have hother : ∀ j b, Function.update holds i none j = some b → j ≠ i ∧ holds j = some b := by
    intro j b hj
    by_cases hji : j = i
    · subst hji
      rw [Function.update_self] at hj
      cases hj
    · rw [Function.update_of_ne hji] at hj
      exact ⟨hji, hj⟩
  refine ⟨fun b => ?_, fun j j' b hj hj' => ?_⟩
  · rw [Finset.mem_erase, h.held]
    constructor
    · rintro ⟨hne, j, hj⟩
      refine ⟨j, (Function.update_of_ne ?_ _ _).trans hj⟩
      rintro rfl
      rw [hi] at hj
      exact hne (Option.some.inj hj).symm
    · rintro ⟨j, hj⟩
      obtain ⟨hji, hj⟩ := hother j b hj
      refine ⟨?_, j, hj⟩
      rintro rfl
      exact hji (h.one j i b hj hi)
  · exact h.one j j' b (hother j b hj).2 (hother j' b hj').2

theorem handOn (h : Ticketed out holds) (hi : holds i = some a) (hj : holds j = none) :
    Ticketed out (Function.update (Function.update holds i none) j (some a)) := by
  have hmem : a ∈ out := (h.held a).mpr ⟨i, hi⟩
  have hne : j ≠ i := by
    rintro rfl
    rw [hi] at hj
    cases hj
  have htake := (h.giveBack hi).take (i := j) (a := a)
    ((Function.update_of_ne hne _ _).trans hj) (Finset.notMem_erase a out)
  rwa [Finset.insert_erase hmem] at htake

end Ticketed

end Tgfs
