import Mathlib.Logic.Relation
import Tgfs.Names.Linked

/-!
# The namespace is a tree

`Rooted` says that every directory with entries is below the root. A new entry below the root
and the removal of an entry keep it, and so does a move, unless it takes an entry below
itself.
-/

namespace Tgfs

namespace Namespace

variable {s s' : Namespace}

/-- Some entry of `a` names `b`. -/
def Edge (s : Namespace) (a b : Ino) : Prop := ∃ d ∈ s.dirents, d.parent = a ∧ d.child = b

/-- `b` is `a` or below it. -/
def Below (s : Namespace) (a b : Ino) : Prop := Relation.ReflTransGen s.Edge a b

/-- Every entry is below the root. -/
def Rooted (s : Namespace) : Prop := ∀ d ∈ s.dirents, s.Below rootIno d.parent

/-- Every name is one of `ok`. -/
def Spelt (s : Namespace) (ok : Str → Prop) : Prop := ∀ d ∈ s.dirents, ok d.name

theorem Below.mono (h : ∀ d ∈ s.dirents, d ∈ s'.dirents) {a b : Ino} (hab : s.Below a b) :
    s'.Below a b := by
  refine Relation.ReflTransGen.mono (fun x y hxy => ?_) a b hab
  rcases hxy with ⟨d, hd, hx, hy⟩
  exact ⟨d, h d hd, hx, hy⟩

theorem Rooted.add (h : s.Rooted) {d : Dirent} (hp : s.Below rootIno d.parent)
    (hd : s'.dirents = s.dirents ++ [d]) : s'.Rooted := by
  have hmono : ∀ e ∈ s.dirents, e ∈ s'.dirents := by
    intro e he
    rw [hd]
    exact List.mem_append_left _ he
  intro e he
  rw [hd] at he
  rcases List.mem_append.mp he with he | he
  · exact (h e he).mono hmono
  · rw [List.mem_singleton.mp he]
    exact hp.mono hmono

/-- A way that never goes through `c` does not need the entries of `c`'s names. -/
theorem Below.avoid {c : Ino} (hrest : ∀ e ∈ s.dirents, e.child ≠ c → e ∈ s'.dirents)
    (hleaf : ∀ e ∈ s.dirents, e.parent ≠ c) {a b : Ino} (hab : s.Below a b) (hb : b ≠ c) :
    s'.Below a b := by
  induction hab with
  | refl => exact .refl
  | tail hax hxb ih =>
    rcases hxb with ⟨d, hd, rfl, rfl⟩
    exact (ih (hleaf d hd)).tail ⟨d, hrest d hd hb, rfl, rfl⟩

theorem mem_others {d e : Dirent} (he : e ∈ s.dirents)
    (hne : ¬ (e.parent = d.parent ∧ e.name = d.name)) : e ∈ s.others d.parent d.name :=
  List.mem_filter.mpr ⟨he, decide_eq_true hne⟩

theorem eq_of_key (h : s.Linked) {d e : Dirent} (hd : d ∈ s.dirents) (he : e ∈ s.dirents)
    (hkey : e.parent = d.parent ∧ e.name = d.name) : e = d := by
  rcases List.mem_cons.mp ((perm_others h.keys hd).mem_iff.mp he) with he | he
  · exact he
  · exact absurd hkey (of_decide_eq_true (List.mem_filter.mp he).2)

/-- An entry that nothing is below goes. -/
theorem Rooted.drop (h : s.Rooted) (hl : s.Linked) {d : Dirent} (hd : d ∈ s.dirents)
    (hleaf : ∀ e ∈ s.dirents, e.parent ≠ d.child)
    (hd' : s'.dirents = s.others d.parent d.name) : s'.Rooted := by
  have hrest : ∀ e ∈ s.dirents, e.child ≠ d.child → e ∈ s'.dirents := by
    intro e he hc
    rw [hd']
    apply mem_others he
    intro hkey
    rw [eq_of_key hl hd he hkey] at hc
    exact hc rfl
  intro e he
  rw [hd'] at he
  have hmem := List.mem_of_mem_filter he
  exact (h e hmem).avoid hrest (hleaf) (hleaf e hmem)

/-- An entry moves to a place that is not below it. -/
theorem Rooted.move (h : s.Rooted) (hl : s.Linked) {d : Dirent} (hd : d ∈ s.dirents) {np : Ino}
    {nname : Str} (hnp : s.Below rootIno np) (hout : ¬ s.Below d.child np)
    (hd' : s'.dirents.Perm (⟨np, nname, d.child⟩ :: s.others d.parent d.name)) : s'.Rooted := by
  have hrest : ∀ e ∈ s.dirents, e ≠ d → s'.Edge e.parent e.child := by
    intro e he hne
    refine ⟨e, hd'.mem_iff.mpr (List.mem_cons_of_mem _ (mem_others he ?_)), rfl, rfl⟩
    intro hkey
    exact hne (eq_of_key hl hd he hkey)
  -- The way to a place either stays what it was or goes through the entry that moves.
  have hsplit : ∀ x, s.Below rootIno x → s'.Below rootIno x ∨ s.Below d.child x := by
    intro x hx
    induction hx with
    | refl => exact .inl .refl
    | tail _ hxy ih =>
      rcases hxy with ⟨e, he, rfl, rfl⟩
      by_cases hed : e = d
      · right
        rw [hed]
        exact .refl
      · rcases ih with hi | hi
        · exact .inl (hi.tail (hrest e he hed))
        · exact .inr (hi.tail ⟨e, he, rfl, rfl⟩)
  have hnp' : s'.Below rootIno np := (hsplit np hnp).resolve_right hout
  have hall : ∀ x, s.Below rootIno x → s'.Below rootIno x := by
    intro x hx
    induction hx with
    | refl => exact .refl
    | tail _ hxy ih =>
      rcases hxy with ⟨e, he, rfl, rfl⟩
      by_cases hed : e = d
      · rw [hed]
        exact hnp'.tail ⟨_, hd'.mem_iff.mpr List.mem_cons_self, rfl, rfl⟩
      · exact ih.tail (hrest e he hed)
  intro e he
  rcases List.mem_cons.mp (hd'.mem_iff.mp he) with rfl | he
  · exact hnp'
  · exact hall _ (h e (List.mem_of_mem_filter he))

/-! ## The way up -/

/-- The parent of the entry that names an inode. -/
def parentOf (s : Namespace) (i : Ino) : Option Ino :=
  (s.dirents.find? fun d => d.child = i).map (·.parent)

/-- `k` steps up. -/
def climb (s : Namespace) : Nat → Ino → Option Ino
  | 0, i => some i
  | k + 1, i => (s.parentOf i).bind (s.climb k)

/-- Two entries that name one directory are the same. -/
theorem eq_of_child (h : s.Linked) {d e : Dirent} (hd : d ∈ s.dirents) (he : e ∈ s.dirents)
    (hc : e.child = d.child) (hdir : s.isDir d.child = true) : e = d := by
  rcases List.mem_cons.mp ((perm_others h.keys hd).mem_iff.mp he) with hed | hed
  · exact hed
  · exfalso
    have hone := h.once d.child hdir
    have hl := links_dropEntry h hd d.child
    have hpos : 1 ≤ (s.dropEntry d.parent d.name).links e.child := links_pos hed
    rw [if_pos rfl] at hl
    rw [hc] at hpos
    split at hone <;> omega

theorem parentOf_eq (h : s.Linked) {d : Dirent} (hd : d ∈ s.dirents)
    (hdir : s.isDir d.child = true) : s.parentOf d.child = some d.parent := by
  unfold parentOf
  cases hf : s.dirents.find? fun e => e.child = d.child with
  | none =>
    have := List.find?_eq_none.mp hf d hd
    simp at this
  | some e =>
    have hc := of_decide_eq_true (List.find?_some (p := fun e : Dirent => decide (e.child = d.child)) hf)
    rw [eq_of_child h hd (List.mem_of_find?_eq_some hf) hc hdir]
    rfl

theorem climb_of_below (h : s.Linked) {x : Ino} (hx : s.Below rootIno x) (hdir : s.isDir x = true) :
    ∃ k, s.climb k x = some rootIno := by
  induction hx with
  | refl => exact ⟨0, rfl⟩
  | tail _ hxy ih =>
    rcases hxy with ⟨d, hd, rfl, rfl⟩
    rcases ih (h.parent d hd) with ⟨k, hk⟩
    refine ⟨k + 1, ?_⟩
    rw [climb, parentOf_eq h hd hdir]
    exact hk

end Namespace

end Tgfs
