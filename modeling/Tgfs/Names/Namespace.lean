import Mathlib.Data.List.Perm.Basic
import Mathlib.Data.List.Perm.Subperm
import Tgfs.MetaSteps

/-!
# The names and the link counts

`Namespace` is what the index says about names: the entries, which numbers are inodes, and
the kind and link count of each. The rest of the database is left out, and with it whatever
the operations on contents can change. `Linked` says that the link counts are exact; each way
in which `tgfs/meta.py` changes names keeps it.
-/

namespace Tgfs

structure Namespace where
  dirents : List Dirent
  nextIno : Ino
  row : Ino → Option (Kind × Int)

namespace Namespace

/-- The number of entries that name an inode. -/
def links (s : Namespace) (i : Ino) : Nat := s.dirents.countP fun d => d.child = i

def isDir (s : Namespace) (i : Ino) : Bool := (s.row i).any fun r => r.1 = .dir

/-- The number of entries of a directory whose child is a directory. -/
def subdirs (s : Namespace) (i : Ino) : Nat :=
  s.dirents.countP fun d => d.parent = i ∧ s.isDir d.child = true

/-- No entry has this parent and name. -/
def Free (s : Namespace) (parent : Ino) (name : Str) : Prop :=
  ∀ d ∈ s.dirents, ¬ (d.parent = parent ∧ d.name = name)

/-- The counts are exact. A directory that was removed has no name, and nothing is said about
its count. -/
structure Linked (s : Namespace) : Prop where
  keys : s.dirents.Pairwise fun a b => ¬ (a.parent = b.parent ∧ a.name = b.name)
  child : ∀ d ∈ s.dirents, (s.row d.child).isSome = true
  parent : ∀ d ∈ s.dirents, s.isDir d.parent = true
  unborn : ∀ i, s.nextIno ≤ i → s.row i = none
  root : s.isDir rootIno = true
  file : ∀ i k n, s.row i = some (k, n) → k ≠ .dir → n = s.links i ∧ 1 ≤ s.links i
  dir : ∀ i n, s.row i = some (.dir, n) → i = rootIno ∨ 1 ≤ s.links i → n = 2 + (s.subdirs i : Int)
  once : ∀ i, s.isDir i = true → s.links i ≤ if i = rootIno then 0 else 1

/-! ## Changes -/

variable (s : Namespace)

/-- Add `k` to the link count of an inode. -/
def adjust (i : Ino) (k : Int) : Namespace :=
  { s with row := fun j => (s.row j).map fun r => (r.1, r.2 + if j = i then k else 0) }

/-- The link that a directory is for its parent. -/
def adjustDir (kind : Kind) (parent : Ino) (k : Int) : Namespace :=
  if kind = .dir then s.adjust parent k else s

def addRow (kind : Kind) : Namespace :=
  { s with
    row := Function.update s.row s.nextIno (some (kind, if kind = .dir then 2 else 1))
    nextIno := s.nextIno + 1 }

def addEntry (d : Dirent) : Namespace := { s with dirents := s.dirents ++ [d] }

/-- The entries with another parent or another name. -/
def others (parent : Ino) (name : Str) : List Dirent :=
  s.dirents.filter fun d => ¬ (d.parent = parent ∧ d.name = name)

def dropEntry (parent : Ino) (name : Str) : Namespace := { s with dirents := s.others parent name }

def moveEntry (op : Ino) (oname : Str) (np : Ino) (nname : Str) : Namespace :=
  { s with dirents := s.dirents.map fun d =>
      if d.parent = op ∧ d.name = oname then { d with parent := np, name := nname } else d }

def removeRow (i : Ino) : Namespace := { s with row := Function.update s.row i none }

variable {s}

theorem adjust_row {i j : Ino} {k n : Int} {kind : Kind} (h : (s.adjust i k).row j = some (kind, n)) :
    ∃ n₀, s.row j = some (kind, n₀) ∧ n = n₀ + if j = i then k else 0 := by
  obtain ⟨⟨kind', n'⟩, hr, he⟩ := Option.map_eq_some_iff.mp h
  cases he
  exact ⟨n', hr, rfl⟩

theorem adjustDir_row {kind : Kind} {i j : Ino} {k n : Int} {kind' : Kind}
    (h : (s.adjustDir kind i k).row j = some (kind', n)) :
    ∃ n₀, s.row j = some (kind', n₀) ∧ n = n₀ + if kind = .dir ∧ j = i then k else 0 := by
  unfold adjustDir at h
  by_cases hk : kind = .dir
  · rw [if_pos hk] at h
    simpa [hk] using adjust_row h
  · rw [if_neg hk] at h
    exact ⟨n, h, by simp [hk]⟩

@[simp] theorem adjust_zero (i : Ino) : s.adjust i 0 = s := by
  have hrow : (s.adjust i 0).row = s.row := by
    funext j
    simp [adjust]
  exact congrArg (fun r => (⟨s.dirents, s.nextIno, r⟩ : Namespace)) hrow

@[simp] theorem adjust_dirents (i : Ino) (k : Int) : (s.adjust i k).dirents = s.dirents := rfl
@[simp] theorem adjust_nextIno (i : Ino) (k : Int) : (s.adjust i k).nextIno = s.nextIno := rfl
@[simp] theorem adjustDir_dirents (kind : Kind) (i : Ino) (k : Int) :
    (s.adjustDir kind i k).dirents = s.dirents := by
  unfold adjustDir
  split <;> rfl
@[simp] theorem adjustDir_nextIno (kind : Kind) (i : Ino) (k : Int) :
    (s.adjustDir kind i k).nextIno = s.nextIno := by
  unfold adjustDir
  split <;> rfl

@[simp] theorem adjust_isSome (i j : Ino) (k : Int) :
    ((s.adjust i k).row j).isSome = (s.row j).isSome := Option.isSome_map

@[simp] theorem adjust_isDir (i j : Ino) (k : Int) : (s.adjust i k).isDir j = s.isDir j := by
  unfold isDir adjust
  dsimp only
  cases s.row j <;> rfl

@[simp] theorem adjustDir_isSome (kind : Kind) (i j : Ino) (k : Int) :
    ((s.adjustDir kind i k).row j).isSome = (s.row j).isSome := by
  unfold adjustDir
  split <;> simp

@[simp] theorem adjustDir_isDir (kind : Kind) (i j : Ino) (k : Int) :
    (s.adjustDir kind i k).isDir j = s.isDir j := by
  unfold adjustDir
  split <;> simp

theorem isSome_of_isDir {i : Ino} (h : s.isDir i = true) : (s.row i).isSome = true := by
  unfold isDir at h
  cases hr : s.row i with
  | none =>
    rw [hr] at h
    cases h
  | some r => rfl

theorem isDir_of_row {i : Ino} {kind : Kind} {n : Int} (h : s.row i = some (kind, n)) :
    s.isDir i = decide (kind = .dir) := by
  unfold isDir
  rw [h]
  rfl

/-! ## The entry with a name -/

/-- The entries, with the one at hand in front. -/
theorem perm_others (h : s.dirents.Pairwise fun a b => ¬ (a.parent = b.parent ∧ a.name = b.name))
    {d : Dirent} (hd : d ∈ s.dirents) : s.dirents.Perm (d :: s.others d.parent d.name) := by
  unfold others
  induction hds : s.dirents generalizing s with
  | nil =>
    rw [hds] at hd
    cases hd
  | cons e es ih =>
    rw [hds] at h hd
    rcases List.mem_cons.mp hd with rfl | hmem
    · have hrest : es.filter (fun e => ¬ (e.parent = d.parent ∧ e.name = d.name)) = es := by
        rw [List.filter_eq_self]
        intro e he
        have hne := (List.pairwise_cons.mp h).1 e he
        exact decide_eq_true fun heq => hne ⟨heq.1.symm, heq.2.symm⟩
      rw [List.filter_cons_of_neg (by simp), hrest]
    · have hne := (List.pairwise_cons.mp h).1 d hmem
      rw [List.filter_cons_of_pos
        (p := fun e : Dirent => decide ¬ (e.parent = d.parent ∧ e.name = d.name)) (decide_eq_true hne)]
      have := ih (s := { s with dirents := es }) (List.pairwise_cons.mp h).2 hmem rfl
      exact (this.cons e).trans (List.Perm.swap d e _)

theorem perm_moveEntry (h : s.dirents.Pairwise fun a b => ¬ (a.parent = b.parent ∧ a.name = b.name))
    {d : Dirent} (hd : d ∈ s.dirents) (np : Ino) (nname : Str) :
    (s.moveEntry d.parent d.name np nname).dirents.Perm
      (⟨np, nname, d.child⟩ :: s.others d.parent d.name) := by
  have hmap := (perm_others h hd).map fun e : Dirent =>
    if e.parent = d.parent ∧ e.name = d.name then { e with parent := np, name := nname } else e
  refine hmap.trans (List.Perm.of_eq ?_)
  rw [List.map_cons, if_pos ⟨rfl, rfl⟩]
  congr 1
  refine (List.map_congr_left fun e he => ?_).trans (List.map_id _)
  have hne := of_decide_eq_true (List.mem_filter.mp he).2
  rw [if_neg hne]
  rfl

theorem moveEntry_free {op : Ino} {oname : Str} (h : s.Free op oname) (np : Ino) (nname : Str) :
    s.moveEntry op oname np nname = s := by
  unfold moveEntry
  have : s.dirents.map (fun d => if d.parent = op ∧ d.name = oname then
      ({ d with parent := np, name := nname } : Dirent) else d) = s.dirents := by
    refine (List.map_congr_left fun e he => ?_).trans (List.map_id _)
    rw [if_neg (h e he)]
    rfl
  rw [this]

end Namespace

end Tgfs
