import Mathlib.Data.List.Nodup
import Mathlib.Algebra.BigOperators.Group.List.Basic
import Mathlib.Algebra.Ring.Int.Defs

/-!
# Lists in the order of last use

A history of uses orders what was used by its last use. A list of entries that are moved to the
end when they are used stays in that order. `Fits` is the bound that such a list is cut to, where
its last entry is never given up.
-/

namespace Tgfs

variable {α : Type}

/-- Both were used, and the last use of `a` is before that of `b`. -/
def LastBefore (us : List α) (a b : α) : Prop :=
  ∃ pre post, us = pre ++ post ∧ a ∈ pre ∧ a ∉ post ∧ b ∈ post

theorem LastBefore.snoc_ne {us : List α} {a b x : α} (h : LastBefore us a b) (ha : a ≠ x) :
    LastBefore (us ++ [x]) a b := by
  obtain ⟨pre, post, rfl, hpre, hpost, hb⟩ := h
  refine ⟨pre, post ++ [x], by rw [List.append_assoc], hpre, ?_, List.mem_append_left _ hb⟩
  rw [List.mem_append, not_or]
  exact ⟨hpost, by simpa using ha⟩

theorem lastBefore_snoc_self {us : List α} {a x : α} (ha : a ∈ us) (hne : a ≠ x) :
    LastBefore (us ++ [x]) a x :=
  ⟨us, [x], rfl, ha, by simpa using hne, List.mem_singleton_self x⟩

/-- A history without repetitions. -/
theorem pairwise_lastBefore {us : List α} (h : us.Nodup) : us.Pairwise (LastBefore us) := by
  rw [List.pairwise_iff_getElem]
  intro i j hi hj hij
  refine ⟨us.take (i + 1), us.drop (i + 1), (List.take_append_drop _ _).symm, ?_, ?_, ?_⟩
  · rw [List.mem_take_iff_getElem]
    exact ⟨i, by omega, rfl⟩
  · intro hm
    obtain ⟨k, hk, heq⟩ := List.mem_drop_iff_getElem.mp hm
    have := (List.Nodup.getElem_inj_iff h).mp heq
    omega
  · rw [List.mem_drop_iff_getElem]
    exact ⟨j - (i + 1), by omega, by congr 1; omega⟩

/-! ## A list cut to a bound -/

def totalOf (l : List (α × Nat)) : Int := (l.map fun p => (p.2 : Int)).sum

@[simp] theorem totalOf_nil : totalOf ([] : List (α × Nat)) = 0 := rfl

@[simp] theorem totalOf_cons (p : α × Nat) (l : List (α × Nat)) :
    totalOf (p :: l) = p.2 + totalOf l := by
  simp [totalOf]

@[simp] theorem totalOf_append (l l' : List (α × Nat)) :
    totalOf (l ++ l') = totalOf l + totalOf l' := by
  simp [totalOf]

theorem totalOf_perm {l l' : List (α × Nat)} (h : l.Perm l') : totalOf l = totalOf l' :=
  (h.map _).sum_eq

theorem totalOf_nonneg (l : List (α × Nat)) : 0 ≤ totalOf l := by
  induction l with
  | nil => exact Int.le_refl 0
  | cons p l ih =>
    rw [totalOf_cons]
    omega

/-- The entries take no more room than `cap`, or there is one only. -/
def Fits (cap : Int) (l : List (α × Nat)) : Prop := totalOf l ≤ cap ∨ l.length = 1

/-- `n` is the least number of entries to give up from the front. -/
def LeastCut (cap : Int) (l : List (α × Nat)) (n : Nat) : Prop :=
  Fits cap (l.drop n) ∧ ∀ j < n, ¬ Fits cap (l.drop j)

theorem leastCut_zero {cap : Int} {l : List (α × Nat)} (h : Fits cap l) : LeastCut cap l 0 :=
  ⟨h, nofun⟩

theorem LeastCut.cons {cap : Int} {p : α × Nat} {l : List (α × Nat)} {n : Nat}
    (h : LeastCut cap l n) (hp : ¬ Fits cap (p :: l)) : LeastCut cap (p :: l) (n + 1) := by
  refine ⟨h.1, fun j hj => ?_⟩
  cases j with
  | zero => exact hp
  | succ j => exact h.2 j (by omega)

/-- The last entry is never given up. -/
theorem LeastCut.le_length {cap : Int} {p : α × Nat} {l : List (α × Nat)} {n : Nat}
    (h : LeastCut cap (l ++ [p]) n) : n ≤ l.length := by
  by_contra hlt
  apply h.2 l.length (by omega)
  right
  simp

end Tgfs
