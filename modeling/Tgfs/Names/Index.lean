import Tgfs.Names.Tree

/-!
# The index as a namespace

What the tables of `tgfs/meta.py` say about names, and each mutator as a change of that.
-/

namespace Tgfs

namespace Meta

variable {Sha : Type}

def names (m : Meta Sha) : Namespace :=
  ⟨m.dirents, m.nextIno, fun i => (m.inodes i).map fun n => (n.kind, n.nlink)⟩

variable {m : Meta Sha}

@[simp] theorem names_dirents : m.names.dirents = m.dirents := rfl
@[simp] theorem names_nextIno : m.names.nextIno = m.nextIno := rfl

theorem names_row_eq (m : Meta Sha) (i : Ino) :
    m.names.row i = (m.inodes i).map fun n => (n.kind, n.nlink) := rfl

theorem names_row {i : Ino} {row : Inode} (h : m.inodes i = some row) :
    m.names.row i = some (row.kind, row.nlink) := by
  rw [names_row_eq, h]
  rfl

theorem names_row_none {i : Ino} : m.names.row i = none ↔ m.inodes i = none :=
  Option.map_eq_none_iff

theorem row_of_names {i : Ino} {kind : Kind} {n : Int} (h : m.names.row i = some (kind, n)) :
    ∃ row, m.inodes i = some row ∧ row.kind = kind ∧ row.nlink = n := by
  obtain ⟨row, hrow, he⟩ := Option.map_eq_some_iff.mp h
  cases he
  exact ⟨row, hrow, rfl, rfl⟩

/-! ## Looking an entry up -/

theorem child_eq_none {parent : Ino} {name : Str} :
    m.child parent name = none ↔ m.names.Free parent name := by
  unfold child Namespace.Free
  rw [Option.map_eq_none_iff, List.find?_eq_none]
  simp

theorem child_eq_some {parent : Ino} {name : Str} {c : Ino} (h : m.child parent name = some c) :
    ∃ d ∈ m.dirents, d.parent = parent ∧ d.name = name ∧ d.child = c := by
  obtain ⟨d, hd, rfl⟩ := Option.map_eq_some_iff.mp h
  have hkey := List.find?_some hd
  simp only [decide_eq_true_eq] at hkey
  exact ⟨d, List.mem_of_find?_eq_some hd, hkey.1, hkey.2, rfl⟩

theorem child_of_mem (h : m.names.Linked) {d : Dirent} (hd : d ∈ m.dirents) :
    m.child d.parent d.name = some d.child := by
  cases hc : m.child d.parent d.name with
  | none => exact absurd ⟨rfl, rfl⟩ (child_eq_none.mp hc d hd)
  | some c =>
    obtain ⟨e, he, hp, hn, rfl⟩ := child_eq_some hc
    rw [Namespace.eq_of_key h hd he ⟨hp, hn⟩]

theorem lookup_of_mem (h : m.names.Linked) {d : Dirent} (hd : d ∈ m.dirents) {row : Inode}
    (hrow : m.inodes d.child = some row) :
    m.lookup d.parent d.name = some { row with id := d.child } := by
  unfold lookup
  rw [child_of_mem h hd]
  exact getInode_of_row hrow

/-- With exact counts, a name that is not found is free. -/
theorem free_of_lookup (h : m.names.Linked) {parent : Ino} {name : Str}
    (hl : m.lookup parent name = none) : m.names.Free parent name := by
  rw [← child_eq_none]
  unfold lookup at hl
  cases hc : m.child parent name with
  | none => rfl
  | some c =>
    rw [hc] at hl
    obtain ⟨d, hd, -, -, rfl⟩ := child_eq_some hc
    have hrow := h.child d hd
    rw [names_row_none.mpr (getInode_eq_none.mp hl)] at hrow
    cases hrow

/-! ## Paths -/

theorem resolveFrom_concat (m : Meta Sha) (parts : List Str) (part : Str) (cur : Option Inode) :
    m.resolveFrom cur (parts ++ [part]) = (m.resolveFrom cur parts).bind fun n =>
      if n.isDir then m.lookup n.id part else none := by
  induction parts generalizing cur with
  | nil =>
    cases cur with
    | none => rfl
    | some n => rfl
  | cons p ps ih =>
    cases cur with
    | none => rfl
    | some n =>
      rw [List.cons_append, resolveFrom, resolveFrom]
      split
      · exact ih _
      · rfl

/-- The parts of a path that has been put together of them. -/
theorem pathParts_intercalate {parts : List Str} (h : ∀ p ∈ parts, p ≠ [] ∧ slash ∉ p) :
    pathParts ([slash].intercalate ([] :: parts)) = parts := by
  unfold pathParts
  rw [List.splitOn_intercalate slash]
  · rw [List.filter_cons_of_neg (by simp), List.filter_eq_self]
    exact fun p hp => decide_eq_true (h p hp).1
  · intro p hp
    rcases List.mem_cons.mp hp with rfl | hp
    · exact List.not_mem_nil
    · exact (h p hp).2
  · exact List.cons_ne_nil _ _

/-- What the root leads to has a path. -/
theorem resolveFrom_of_below (h : m.names.Linked)
    (hs : m.names.Spelt fun name => name ≠ [] ∧ slash ∉ name) {x : Ino}
    (hx : m.names.Below rootIno x) : ∃ parts : List Str, (∀ p ∈ parts, p ≠ [] ∧ slash ∉ p) ∧
      m.resolveFrom (m.getInode rootIno) parts = m.getInode x := by
  induction hx with
  | refl => exact ⟨[], by simp, rfl⟩
  | tail _ hxy ih =>
    rcases hxy with ⟨d, hd, rfl, rfl⟩
    obtain ⟨parts, hparts, hres⟩ := ih
    refine ⟨parts ++ [d.name], ?_, ?_⟩
    · intro p hp
      rcases List.mem_append.mp hp with hp | hp
      · exact hparts p hp
      · rw [List.mem_singleton.mp hp]
        exact hs d hd
    · obtain ⟨⟨kind, n⟩, hrow⟩ := Option.isSome_iff_exists.mp (Namespace.isSome_of_isDir (h.parent d hd))
      obtain ⟨row, hr, hk, -⟩ := row_of_names hrow
      have hdir : row.isDir = true := by
        have := h.parent d hd
        rw [Namespace.isDir_of_row hrow] at this
        rw [Inode.isDir, hk]
        exact this
      obtain ⟨c, hc⟩ := Option.isSome_iff_exists.mp (h.child d hd)
      obtain ⟨crow, hcrow, -, -⟩ := row_of_names hc
      rw [resolveFrom_concat, hres, getInode_of_row hr, Option.bind_some]
      change (if row.isDir = true then m.lookup d.parent d.name else none) = _
      rw [if_pos hdir, lookup_of_mem h hd hcrow, getInode_of_row hcrow]

theorem resolve_of_mem (h : m.names.Linked) (hr : m.names.Rooted)
    (hs : m.names.Spelt fun name => name ≠ [] ∧ slash ∉ name) {d : Dirent} (hd : d ∈ m.dirents) :
    ∃ path n, m.resolve path = some n ∧ n.id = d.child := by
  have hbelow : m.names.Below rootIno d.child := (hr d hd).tail ⟨d, hd, rfl, rfl⟩
  obtain ⟨parts, hparts, hres⟩ := resolveFrom_of_below h hs hbelow
  obtain ⟨c, hc⟩ := Option.isSome_iff_exists.mp (h.child d hd)
  obtain ⟨row, hrow, -, -⟩ := row_of_names hc
  refine ⟨[slash].intercalate ([] :: parts), { row with id := d.child }, ?_, rfl⟩
  rw [resolve, pathParts_intercalate hparts, hres, getInode_of_row hrow]

/-! ## The changes -/

theorem names_updateInode (m : Meta Sha) (i : Ino) {f : Inode → Inode} {k : Int}
    (hf : ∀ n, (f n).kind = n.kind ∧ (f n).nlink = n.nlink + k) :
    (m.updateInode i f).names = m.names.adjust i k := by
  have hrow : (m.updateInode i f).names.row = (m.names.adjust i k).row := by
    funext j
    unfold Namespace.adjust
    dsimp only
    rw [names_row_eq, names_row_eq]
    by_cases hj : j = i
    · subst hj
      rw [updateInode_self]
      cases m.inodes j with
      | none => rfl
      | some n => simp [hf]
    · rw [updateInode_ne m hj]
      cases m.inodes j with
      | none => rfl
      | some n => simp [hj]
  exact congrArg (fun r => (⟨m.dirents, m.nextIno, r⟩ : Namespace)) hrow

theorem names_addNlink (m : Meta Sha) (i : Ino) (k : Int) :
    (m.updateInode i (addNlink k)).names = m.names.adjust i k :=
  names_updateInode m i fun _ => ⟨rfl, rfl⟩

theorem names_addDirLink (m : Meta Sha) (kind : Kind) (parent : Ino) (k : Int) :
    (m.addDirLink kind parent k).names = m.names.adjustDir kind parent k := by
  unfold addDirLink Namespace.adjustDir
  split
  · exact names_addNlink m parent k
  · rfl

theorem names_setSize (m : Meta Sha) (now : Time) (ino : Ino) (size : Nat) :
    (m.setSize now ino size).names = m.names := by
  have h := names_updateInode m ino (k := 0)
    (f := fun n => { n with size := size, mtime := now, ctime := now }) (by simp)
  rwa [Namespace.adjust_zero] at h

theorem names_setattr (m : Meta Sha) (now : Time) (ino : Ino) (a : Attrs) :
    (m.setattr now ino a).names = m.names := by
  unfold setattr
  split
  · rfl
  · refine (names_updateInode m ino (k := 0) (by simp)).trans ?_
    exact Namespace.adjust_zero ino

theorem names_deleteInode (m : Meta Sha) (i : Ino) :
    (m.deleteInode i).names = m.names.removeRow i := by
  have hrow : (m.deleteInode i).names.row = (m.names.removeRow i).row := by
    funext j
    unfold Namespace.removeRow
    dsimp only
    rw [names_row_eq]
    by_cases hj : j = i
    · subst hj
      rw [deleteInode_self, Function.update_self]
      rfl
    · rw [deleteInode_ne m hj, Function.update_of_ne hj, names_row_eq]
  exact congrArg (fun r => (⟨m.dirents, m.nextIno, r⟩ : Namespace)) hrow

theorem names_addRow (m : Meta Sha) (now : Time) (mode : Nat) (kind : Kind) (uid gid : Nat)
    (target : Option Str) :
    (m.addRow (m.newRow now mode kind uid gid target)).names = m.names.addRow kind := by
  have hrow : (m.addRow (m.newRow now mode kind uid gid target)).names.row =
      (m.names.addRow kind).row := by
    funext j
    rw [names_row_eq]
    unfold Namespace.addRow addRow newRow
    dsimp only [names_nextIno]
    by_cases hj : j = m.nextIno
    · subst hj
      rw [Function.update_self, Function.update_self]
      rfl
    · rw [Function.update_of_ne hj, Function.update_of_ne hj, names_row_eq]
  exact congrArg (fun r => (⟨m.dirents, m.nextIno + 1, r⟩ : Namespace)) hrow

theorem names_create (m : Meta Sha) (now : Time) {parent : Ino} {name : Str} (mode : Nat)
    (kind : Kind) (uid gid : Nat) (target : Option Str) (hfree : m.names.Free parent name) :
    (m.create now parent name mode kind uid gid target).2.names =
      m.names.addNode kind parent name := by
  rcases m.create_cases now parent name mode kind uid gid target with ⟨hc, -⟩ | ⟨-, n, -, h⟩
  · rw [child_eq_none.mpr hfree] at hc
    cases hc
  · rw [h, names_addDirLink]
    exact congrArg (fun s => Namespace.adjustDir (Namespace.addEntry s _) kind parent 1)
      (names_addRow m now mode kind uid gid target)

theorem names_link (m : Meta Sha) (now : Time) {parent : Ino} {name : Str} (ino : Ino)
    (hfree : m.names.Free parent name) :
    (m.link now parent name ino).2.names = (m.names.addEntry ⟨parent, name, ino⟩).adjust ino 1 := by
  rcases m.link_cases now parent name ino with ⟨hc, -⟩ | ⟨-, h⟩
  · rw [child_eq_none.mpr hfree] at hc
    cases hc
  · rw [h]
    exact names_updateInode _ ino fun _ => ⟨rfl, rfl⟩

theorem names_dropLink (m : Meta Sha) (d : Dirent) (row : Inode) {f : Inode → Inode}
    (hf : ∀ n, (f n).kind = n.kind ∧ (f n).nlink = n.nlink + -1) (left : Int) :
    ((m.dropLink d.parent d.name d.child row f).reap d.child left).names =
      (m.names.dropLink d row.kind).reap d.child left := by
  have hdrop : (m.dropLink d.parent d.name d.child row f).names = m.names.dropLink d row.kind := by
    unfold dropLink Namespace.dropLink
    rw [names_addDirLink, names_updateInode _ _ hf]
    rfl
  unfold reap Namespace.reap
  split
  · rw [names_deleteInode, hdrop]
  · exact hdrop

theorem names_moveDirLink (m : Meta Sha) (kind : Kind) (op np : Ino) :
    (m.moveDirLink kind op np).names = m.names.moveDir kind op np := by
  unfold moveDirLink Namespace.moveDir
  split
  · rw [names_addNlink, names_addNlink]
  · rfl

end Meta

end Tgfs
