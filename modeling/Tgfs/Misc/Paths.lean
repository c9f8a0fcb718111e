import Mathlib.Data.List.Induction
import Mathlib.Logic.Function.Basic

/-!
# Paths through named edges

Nodes whose edges have names, and where a list of names leads from a node. Seen from one node,
such a graph is a map from paths to nodes; changing one edge grafts something at a path, as long
as there is one way only to where the edge starts.
-/

namespace Tgfs

/-- Where the names lead to, one edge after the other. -/
def walk {Node Name : Type} (child : Node → Name → Option Node) : Node → List Name → Option Node
  | n, [] => some n
  | n, x :: xs => (child n x).bind fun m => walk child m xs

/-- What each path leads to. -/
abbrev PathMap (Node Name : Type) : Type := List Name → Option Node

namespace PathMap

variable {Node Name : Type}

def nothing : PathMap Node Name := fun _ => none

/-- What is below a path. -/
def below (t : PathMap Node Name) (p : List Name) : PathMap Node Name := fun q => t (p ++ q)

variable [DecidableEq Name]

/-- A node without edges. -/
def leaf (n : Node) : PathMap Node Name := fun p => if p = [] then some n else none

/-- `sub` in place of what was at `p` and below. -/
def graft (t : PathMap Node Name) (p : List Name) (sub : PathMap Node Name) : PathMap Node Name :=
  fun q => if p <+: q then sub (q.drop p.length) else t q

def cut (t : PathMap Node Name) (p : List Name) : PathMap Node Name := t.graft p nothing

/-- What was at `p` and below is at `p'`, in place of what was there. -/
def move (t : PathMap Node Name) (p p' : List Name) : PathMap Node Name :=
  (t.cut p).graft p' (t.below p)

variable {t sub : PathMap Node Name} {p q : List Name}

/-- The paths that a cut leaves are those that it does not reach. -/
theorem cut_eq_some {n : Node} : t.cut p q = some n ↔ ¬ p <+: q ∧ t q = some n := by
  unfold cut graft
  split
  case isTrue h => simp [nothing, h]
  case isFalse h => simp [h]

end PathMap

section Walk

variable {Node Name : Type} {child child' : Node → Name → Option Node} {a b c r : Node}

theorem walk_append (n : Node) (p q : List Name) :
    walk child n (p ++ q) = (walk child n p).bind fun m => walk child m q := by
  induction p generalizing n with
  | nil => rfl
  | cons x xs ih =>
    rw [List.cons_append, walk, walk, Option.bind_assoc]
    congr 1
    funext m
    exact ih m

theorem walk_concat (n : Node) (p : List Name) (x : Name) :
    walk child n (p ++ [x]) = (walk child n p).bind fun m => child m x := by
  rw [walk_append]
  congr 1
  funext m
  simp [walk]

/-- Where nothing leads on, only the empty path leads anywhere. -/
theorem walk_of_leaf [DecidableEq Name] (h : ∀ x, child a x = none) :
    walk child a = PathMap.leaf a := by
  funext p
  cases p with
  | nil => rfl
  | cons x xs => simp [walk, PathMap.leaf, h]

/-- Some path leads from `a` to `b`. -/
def LeadsTo (child : Node → Name → Option Node) (a b : Node) : Prop := ∃ p, walk child a p = some b

theorem LeadsTo.refl : LeadsTo child a a := ⟨[], rfl⟩

theorem LeadsTo.cons {x : Name} (h : child a x = some b) (hb : LeadsTo child b c) : LeadsTo child a c := by
  obtain ⟨p, hp⟩ := hb
  exact ⟨x :: p, by rw [walk, h, Option.bind_some, hp]⟩

theorem LeadsTo.tail {x : Name} (h : LeadsTo child a b) (hb : child b x = some c) : LeadsTo child a c := by
  obtain ⟨p, hp⟩ := h
  exact ⟨p ++ [x], by rw [walk_concat, hp, Option.bind_some, hb]⟩

/-- `p` leads from `r` to `a`, and no other path does. -/
def OneWay (child : Node → Name → Option Node) (r : Node) (p : List Name) (a : Node) : Prop :=
  walk child r p = some a ∧ ∀ q, walk child r q = some a → q = p

/-- Behind an edge of a node with one way to it, nothing leads back. -/
theorem OneWay.not_leadsTo {p : List Name} (h : OneWay child r p a) {x : Name}
    (hc : child a x = some c) : ¬ LeadsTo child c a := by
  rintro ⟨q, hq⟩
  have hround := h.2 (p ++ x :: q) (by rw [walk_append, h.1, Option.bind_some, walk, hc, Option.bind_some, hq])
  simp at hround

/-! ## Changing one edge -/

variable [DecidableEq Node] [DecidableEq Name]

def setChild (child : Node → Name → Option Node) (a : Node) (x : Name) (v : Option Node) :
    Node → Name → Option Node :=
  Function.update child a (Function.update (child a) x v)

@[simp] theorem setChild_self (a : Node) (x : Name) (v : Option Node) :
    setChild child a x v a x = v := by
  simp [setChild]

theorem setChild_ne {x y : Name} {v : Option Node} (h : ¬ (b = a ∧ y = x)) :
    setChild child a x v b y = child b y := by
  unfold setChild
  by_cases hb : b = a
  · subst hb
    rw [Function.update_self, Function.update_of_ne fun hy => h ⟨rfl, hy⟩]
  · rw [Function.update_of_ne hb]

/-- What does not lead to the edge does not see it change. -/
theorem walk_setChild_of_not_leadsTo {x : Name} {v : Option Node} (h : ¬ LeadsTo child c a)
    (p : List Name) : walk (setChild child a x v) c p = walk child c p := by
  induction p generalizing c with
  | nil => rfl
  | cons y ys ih =>
    have hne : c ≠ a := by
      rintro rfl
      exact h .refl
    rw [walk, walk, setChild_ne fun hk => hne hk.1]
    cases hy : child c y with
    | none => rfl
    | some m => exact ih fun hm => h (.cons hy hm)

variable {p : List Name} {x : Name} {v : Option Node}

theorem walk_setChild_of_not_through (h : OneWay child r p a) {q : List Name}
    (hq : ¬ p ++ [x] <+: q) : walk (setChild child a x v) r q = walk child r q := by
  induction q using List.reverseRecOn with
  | nil => rfl
  | append_singleton q y ih =>
    rw [walk_concat, walk_concat, ih fun hp => hq (hp.trans (List.prefix_append q [y]))]
    cases hn : walk child r q with
    | none => rfl
    | some n =>
      rw [Option.bind_some, Option.bind_some, setChild_ne]
      rintro ⟨rfl, rfl⟩
      obtain rfl := h.2 q hn
      exact hq (List.prefix_refl _)

/-- A changed edge is a graft. -/
theorem walk_setChild (h : OneWay child r p a) (hv : ∀ c, v = some c → ¬ LeadsTo child c a) :
    walk (setChild child a x v) r =
      PathMap.graft (walk child r) (p ++ [x]) fun q => v.bind fun c => walk child c q := by
  funext q
  unfold PathMap.graft
  split
  case isFalse hq => exact walk_setChild_of_not_through h hq
  case isTrue hq =>
    obtain ⟨rest, rfl⟩ := hq
    have hp : walk (setChild child a x v) r p = some a := by
      rw [walk_setChild_of_not_through h, h.1]
      intro hpre
      exact absurd hpre.length_le (by simp)
    rw [List.drop_left, walk_append, walk_concat, hp, Option.bind_some, setChild_self]
    cases v with
    | none => rfl
    | some c => exact walk_setChild_of_not_leadsTo (hv c rfl) rest

/-- An edge that goes. -/
theorem walk_cut (h : OneWay child r p a) :
    walk (setChild child a x none) r = PathMap.cut (walk child r) (p ++ [x]) :=
  walk_setChild h (by simp)

/-- An edge to a node that nothing leads on from. -/
theorem walk_leaf (h : OneWay child r p a) (hca : c ≠ a) (hc : ∀ y, child c y = none) :
    walk (setChild child a x (some c)) r =
      PathMap.graft (walk child r) (p ++ [x]) (.leaf c) := by
  have hw : walk child c = PathMap.leaf c := walk_of_leaf hc
  rw [walk_setChild h]
  · simp only [Option.bind_some, hw]
  · rintro _ ⟨⟩ ⟨q, hq⟩
    rw [hw] at hq
    unfold PathMap.leaf at hq
    split at hq
    · exact hca (Option.some.inj hq)
    · cases hq

/-- An edge that moves to a place that it does not lead to takes along what is below. -/
theorem walk_move (h : OneWay child r p a) (hc : child a x = some c) {p' : List Name} {y : Name}
    (h' : OneWay child r p' b) (hcb : ¬ LeadsTo child c b) :
    walk (setChild (setChild child a x none) b y (some c)) r =
      PathMap.move (walk child r) (p ++ [x]) (p' ++ [y]) := by
  have hca : ¬ LeadsTo child c a := h.not_leadsTo hc
  have hcut : walk (setChild child a x none) r = PathMap.cut (walk child r) (p ++ [x]) := walk_cut h
  have hsame : ∀ q, walk (setChild child a x none) c q = walk child c q :=
    walk_setChild_of_not_leadsTo hca
  have hbelow : ∀ q, walk child r (p ++ [x] ++ q) = walk child c q := by
    intro q
    rw [walk_append, walk_concat, h.1, Option.bind_some, hc, Option.bind_some]
  have hone : OneWay (setChild child a x none) r p' b := by
    refine ⟨?_, fun q hq => ?_⟩
    · rw [hcut, PathMap.cut_eq_some]
      refine ⟨?_, h'.1⟩
      rintro ⟨rest, rfl⟩
      exact hcb ⟨rest, (hbelow rest).symm.trans h'.1⟩
    · rw [hcut, PathMap.cut_eq_some] at hq
      exact h'.2 q hq.2
  rw [walk_setChild hone, hcut, PathMap.move]
  · congr 1
    funext q
    exact (hsame q).trans (hbelow q).symm
  · rintro _ ⟨⟩ ⟨q, hq⟩
    exact hcb ⟨q, (hsame q).symm.trans hq⟩

end Walk

end Tgfs
