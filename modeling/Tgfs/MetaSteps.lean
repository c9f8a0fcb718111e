import Tgfs.MetaProps

/-!
# What the mutations of the names can do

One lemma for each mutator of `tgfs/meta.py` that changes names: how it may end, and the tables
it leaves. Everything else about these methods is derived from them.
-/

namespace Tgfs

namespace Meta

variable {Sha : Type} (m : Meta Sha)

/-- `INSERT INTO inodes …`. -/
def addRow (row : Inode) : Meta Sha :=
  { m with inodes := Function.update m.inodes m.nextIno (some row), nextIno := m.nextIno + 1 }

/-- The link that a directory is for its parent. -/
def addDirLink (kind : Kind) (parent : Ino) (k : Int) : Meta Sha :=
  if kind = .dir then m.updateInode parent (addNlink k) else m

@[simp] theorem addRow_dirents (row : Inode) : (m.addRow row).dirents = m.dirents := rfl
@[simp] theorem updateInode_dirents (ino : Ino) (f : Inode → Inode) :
    (m.updateInode ino f).dirents = m.dirents := rfl
@[simp] theorem deleteInode_dirents (ino : Ino) : (m.deleteInode ino).dirents = m.dirents := rfl
@[simp] theorem updateInode_nextIno (ino : Ino) (f : Inode → Inode) :
    (m.updateInode ino f).nextIno = m.nextIno := rfl

@[simp] theorem addDirLink_dirents (kind : Kind) (parent : Ino) (k : Int) :
    (m.addDirLink kind parent k).dirents = m.dirents := by
  unfold addDirLink
  split <;> rfl

@[simp] theorem addDirLink_nextIno (kind : Kind) (parent : Ino) (k : Int) :
    (m.addDirLink kind parent k).nextIno = m.nextIno := by
  unfold addDirLink
  split <;> rfl

variable {m}

theorem getInode_eq_some {ino : Ino} {n : Inode} (h : m.getInode ino = some n) :
    n.id = ino ∧ ∃ row, m.inodes ino = some row ∧ n = { row with id := ino } := by
  obtain ⟨row, hrow, rfl⟩ := Option.map_eq_some_iff.mp h
  exact ⟨rfl, row, hrow, rfl⟩

theorem getInode_eq_none {ino : Ino} : m.getInode ino = none ↔ m.inodes ino = none :=
  Option.map_eq_none_iff

theorem getInode_of_row {ino : Ino} {row : Inode} (h : m.inodes ino = some row) :
    m.getInode ino = some { row with id := ino } := by
  rw [getInode, h, Option.map_some]

theorem child_of_lookup {parent : Ino} {name : Str} {n : Inode} (h : m.lookup parent name = some n) :
    m.child parent name = some n.id := by
  unfold lookup at h
  cases hc : m.child parent name with
  | none =>
    rw [hc] at h
    cases h
  | some c =>
    rw [hc] at h
    rw [(getInode_eq_some h).1]

/-- A row that is there stays, with its kind, whatever counts are changed. -/
theorem addDirLink_row {i : Ino} {row : Inode} (h : m.inodes i = some row) (kind : Kind)
    (parent : Ino) (k : Int) :
    (m.addDirLink kind parent k).inodes i =
      some (addNlink (if kind = .dir ∧ i = parent then k else 0) row) := by
  have hzero : addNlink 0 row = row := by simp [addNlink]
  unfold addDirLink
  by_cases hk : kind = .dir
  · by_cases hi : i = parent
    · subst hi
      rw [if_pos hk, updateInode_self, h, if_pos ⟨hk, rfl⟩]
      rfl
    · rw [if_pos hk, updateInode_ne m hi, h, if_neg (fun hc => hi hc.2), hzero]
  · rw [if_neg hk, h, if_neg (fun hc => hk hc.1), hzero]

/-! ## The mutators -/

variable (m)

/-- The row that `create` inserts. -/
def newRow (now : Time) (mode : Nat) (kind : Kind) (uid gid : Nat) (target : Option Str) : Inode :=
  ⟨m.nextIno, kind, mode, uid, gid, 0, now, now, now, if kind = .dir then 2 else 1, target⟩

theorem create_cases (now : Time) (parent : Ino) (name : Str) (mode : Nat) (kind : Kind)
    (uid gid : Nat) (target : Option Str) :
    ((m.child parent name).isSome = true ∧ m.create now parent name mode kind uid gid target =
      (.error .integrityError, m.addRow (m.newRow now mode kind uid gid target))) ∨
    (m.child parent name = none ∧ ∃ n, n.id = m.nextIno ∧
      m.create now parent name mode kind uid gid target =
        (.ok n, ((m.addRow (m.newRow now mode kind uid gid target)).insertDirent parent name
          m.nextIno).addDirLink kind parent 1)) := by
  cases hc : m.child parent name with
  | some c =>
    left
    refine ⟨rfl, ?_⟩
    unfold create
    have : (m.addRow (m.newRow now mode kind uid gid target)).child parent name = some c := hc
    exact if_pos (by rw [← Option.isSome_some (a := c), ← this]; rfl)
  | none =>
    right
    have hrow : (((m.addRow (m.newRow now mode kind uid gid target)).insertDirent parent name
        m.nextIno)).inodes m.nextIno = some (m.newRow now mode kind uid gid target) :=
      Function.update_self _ _ _
    have hget := getInode_of_row (addDirLink_row hrow kind parent 1)
    refine ⟨rfl, _, (getInode_eq_some hget).1, ?_⟩
    have hnot : ¬ ((m.addRow (m.newRow now mode kind uid gid target)).child parent name).isSome = true := by
      rw [show (m.addRow (m.newRow now mode kind uid gid target)).child parent name = none from hc]
      exact Bool.false_ne_true
    refine (if_neg hnot).trans ?_
    split
    case h_1 n hn =>
      obtain rfl := Option.some.inj (hn.symm.trans hget)
      rfl
    case h_2 hn => cases hn.symm.trans hget

theorem link_cases (now : Time) (parent : Ino) (name : Str) (ino : Ino) :
    ((m.child parent name).isSome = true ∧
      m.link now parent name ino = (.error .integrityError, m)) ∨
    (m.child parent name = none ∧ m.link now parent name ino =
      (.ok (), (m.insertDirent parent name ino).updateInode ino
        fun n => { n with nlink := n.nlink + 1, ctime := now })) := by
  unfold link
  cases m.child parent name with
  | some c => exact .inl ⟨rfl, rfl⟩
  | none => exact .inr ⟨rfl, rfl⟩

/-- The tables with an entry taken away, before the test of the link count. -/
def dropLink (parent : Ino) (name : Str) (c : Ino) (row : Inode) (f : Inode → Inode) : Meta Sha :=
  ((m.deleteDirent parent name).updateInode c f).addDirLink row.kind parent (-1)

/-- The link count behind `dropLink`. -/
def leftLinks (parent c : Ino) (row : Inode) : Int :=
  row.nlink - 1 + if row.kind = .dir ∧ c = parent then -1 else 0

/-- The tables behind the test. -/
def reap (c : Ino) (left : Int) : Meta Sha := if left ≤ 0 then m.deleteInode c else m

variable {m}

theorem dropLink_row (parent : Ino) (name : Str) {c : Ino} {row : Inode} (f : Inode → Inode)
    (h : m.inodes c = some row) : (m.dropLink parent name c row f).inodes c =
      some (addNlink (if row.kind = .dir ∧ c = parent then -1 else 0) (f row)) := by
  have hf : ((m.deleteDirent parent name).updateInode c f).inodes c = some (f row) := by
    rw [updateInode_self, show (m.deleteDirent parent name).inodes c = some row from h]
    rfl
  exact addDirLink_row hf row.kind parent (-1)

variable (m)

theorem unlinkDirent_cases (now : Time) (parent : Ino) (name : Str) :
    ((∃ e : PyErr Sha, e.Expected ∧ m.unlinkDirent now parent name = (.error e, m)) ∧
      ∀ c, m.child parent name = some c → m.inodes c = none) ∨
    ∃ c row, m.child parent name = some c ∧ m.inodes c = some row ∧
      m.unlinkDirent now parent name = (.ok (c, leftLinks parent c row),
        (m.dropLink parent name c row fun n =>
          { n with nlink := n.nlink - 1, ctime := now }).reap c (leftLinks parent c row)) := by
  unfold unlinkDirent
  cases hc : m.child parent name with
  | none => exact .inl ⟨⟨.fileNotFound name, ⟨nofun, nofun⟩, rfl⟩, nofun⟩
  | some c =>
    cases hrow : m.inodes c with
    | none =>
      left
      simp only [getInode_eq_none.mpr hrow]
      refine ⟨⟨.typeError, ⟨nofun, nofun⟩, rfl⟩, ?_⟩
      intro c' hc'
      cases hc'
      exact hrow
    | some row =>
      right
      refine ⟨c, row, rfl, hrow, ?_⟩
      have hget := getInode_of_row (dropLink_row parent name
        (fun n => { n with nlink := n.nlink - 1, ctime := now }) hrow)
      simp only [getInode_of_row hrow]
      unfold dropLink addDirLink at hget
      simp only [hget]
      rfl

theorem replaceDst_cases (np : Ino) (nname : Str) :
    (m.child np nname = none ∧ m.replaceDst np nname = (.ok none, m)) ∨
    (∃ c, m.child np nname = some c ∧ m.inodes c = none ∧
      m.replaceDst np nname = (.error .typeError, m)) ∨
    ∃ c row, m.child np nname = some c ∧ m.inodes c = some row ∧
      m.replaceDst np nname = (.ok (if 0 < leftLinks np c row then none else some c),
        (m.dropLink np nname c row (addNlink (-1))).reap c (leftLinks np c row)) := by
  unfold replaceDst
  cases hc : m.child np nname with
  | none => exact .inl ⟨rfl, rfl⟩
  | some c =>
    cases hrow : m.inodes c with
    | none =>
      right; left
      refine ⟨c, rfl, hrow, ?_⟩
      simp only [getInode_eq_none.mpr hrow]
    | some row =>
      right; right
      refine ⟨c, row, rfl, hrow, ?_⟩
      have hget := getInode_of_row (dropLink_row np nname (addNlink (-1)) hrow)
      simp only [getInode_of_row hrow]
      unfold dropLink addDirLink at hget
      simp only [hget]
      have hleft : (addNlink (if row.kind = .dir ∧ c = np then -1 else 0)
          (addNlink (-1) row)).nlink = leftLinks np c row := rfl
      rw [hleft]
      unfold reap
      by_cases hpos : 0 < leftLinks np c row
      · rw [if_pos hpos, if_pos hpos, if_neg (not_le.mpr hpos)]
        rfl
      · rw [if_neg hpos, if_neg hpos, if_pos (not_lt.mp hpos)]
        rfl

/-- The link of a directory that goes from one parent to another. -/
def moveDirLink (kind : Kind) (op np : Ino) : Meta Sha :=
  if kind = .dir ∧ op ≠ np then (m.updateInode op (addNlink (-1))).updateInode np (addNlink 1)
  else m

@[simp] theorem moveDirLink_dirents (kind : Kind) (op np : Ino) :
    (m.moveDirLink kind op np).dirents = m.dirents := by
  unfold moveDirLink
  split <;> rfl

theorem rename_cases (op : Ino) (oname : Str) (np : Ino) (nname : Str) :
    (∃ e : PyErr Sha, e.Expected ∧ m.rename op oname np nname = (.error e, m)) ∨
    ∃ src row replaced m₁, m.child op oname = some src ∧ m.inodes src = some row ∧
      m.replaceDst np nname = (.ok replaced, m₁) ∧
      m.rename op oname np nname =
        (.ok replaced, (m₁.moveDirent op oname np nname).moveDirLink row.kind op np) := by
  unfold rename
  cases m.child op oname with
  | none => exact .inl ⟨.fileNotFound oname, ⟨nofun, nofun⟩, rfl⟩
  | some src =>
    cases hrow : m.inodes src with
    | none =>
      simp only [getInode_eq_none.mpr hrow]
      exact .inl ⟨.typeError, ⟨nofun, nofun⟩, rfl⟩
    | some row =>
      simp only [getInode_of_row hrow]
      rcases m.replaceDst_cases np nname with ⟨-, he⟩ | ⟨c, -, -, he⟩ | ⟨c, r, -, -, he⟩
      · rw [he]
        exact .inr ⟨src, row, none, m, rfl, hrow, rfl, rfl⟩
      · rw [he]
        exact .inl ⟨.typeError, ⟨nofun, nofun⟩, rfl⟩
      · rw [he]
        exact .inr ⟨src, row, _, _, rfl, hrow, rfl, rfl⟩

end Meta

end Tgfs
