import Tgfs.Fuse.Proofs.Isolation
import Tgfs.Names.Keeps

/-!
# What one operation does to the names

`Change` lists the ways in which an operation may leave the names, and every operation of
`tgfs/fuse_ops.py` leaves them in one of these, wherever it may fail.
-/

namespace Tgfs

open Run (Wp Keeps)

namespace FsOp

/-- The parents that an operation is called with. -/
def parents : FsOp → List Ino
  | .mkdir parent .. | .rmdir parent _ | .createNode parent .. | .symlink parent ..
  | .link _ parent _ | .unlink parent _ | .create parent .. => [parent]
  | .rename oldp _ newp _ => [oldp, newp]
  | _ => []

/-- The entry that an operation makes, and the kind of its inode. -/
def makes : FsOp → Option (Ino × Str × Kind)
  | .mkdir parent name .. => some (parent, name, .dir)
  | .createNode parent name .. | .create parent name .. => some (parent, name, .file)
  | .symlink parent name .. => some (parent, name, .link)
  | _ => none

end FsOp

namespace Namespace

/-- Nothing is named in this directory. -/
def Empty (s : Namespace) (i : Ino) : Prop := ∀ d ∈ s.dirents, d.parent ≠ i

instance (s : Namespace) (i : Ino) : Decidable (s.Empty i) :=
  inferInstanceAs (Decidable (∀ d ∈ s.dirents, d.parent ≠ i))

/-- The link count that an inode is left with. -/
def leftOver (d : Dirent) (kind : Kind) (n : Int) : Int :=
  n - 1 + if kind = .dir ∧ d.child = d.parent then -1 else 0

/-- An entry is gone, and with it the row of a file that has no other. -/
def dropped (s : Namespace) (d : Dirent) (kind : Kind) (n : Int) : Namespace :=
  (s.dropLink d kind).reap d.child (leftOver d kind n)

/-- A name is made free: it was, or an entry goes that is no directory with entries. -/
inductive Cleared (s : Namespace) (parent : Ino) (name : Str) : Namespace → Prop
  | free (hfree : s.Free parent name) : Cleared s parent name s
  | replaced {d : Dirent} {kind : Kind} {n : Int} (hd : d ∈ s.dirents)
      (hkey : d.parent = parent ∧ d.name = name) (hrow : s.row d.child = some (kind, n))
      (hempty : kind = .dir → s.Empty d.child) : Cleared s parent name (s.dropped d kind n)

/-- How an operation may leave the names. -/
inductive Change (s : Namespace) : FsOp → Namespace → Prop
  | same (op : FsOp) : Change s op s
  | node {op : FsOp} {parent : Ino} {name : Str} {kind : Kind}
      (hop : op.makes = some (parent, name, kind)) (hfree : s.Free parent name) :
      Change s op (s.addNode kind parent name)
  | link {ino parent : Ino} {name : Str} {kind : Kind} {n : Int} (hfree : s.Free parent name)
      (hrow : s.row ino = some (kind, n)) (hk : kind ≠ .dir) :
      Change s (.link ino parent name) ((s.addEntry ⟨parent, name, ino⟩).adjust ino 1)
  | unlink {d : Dirent} {kind : Kind} {n : Int} (hd : d ∈ s.dirents)
      (hrow : s.row d.child = some (kind, n)) (hk : kind ≠ .dir) :
      Change s (.unlink d.parent d.name) (s.dropped d kind n)
  | rmdir {d : Dirent} {n : Int} (hd : d ∈ s.dirents) (hrow : s.row d.child = some (.dir, n))
      (hempty : s.Empty d.child) : Change s (.rmdir d.parent d.name) (s.dropped d .dir n)
  | rename {d : Dirent} {np : Ino} {nname : Str} {kind : Kind} {n : Int} {s₁ : Namespace}
      (hd : d ∈ s.dirents) (hrow : s.row d.child = some (kind, n)) (h₁ : s.Cleared np nname s₁) :
      Change s (.rename d.parent d.name np nname)
        ((s₁.moveEntry d.parent d.name np nname).moveDir kind d.parent np)

end Namespace

namespace Meta

variable {Sha : Type} {m : Meta Sha}

theorem empty_of_childCount {i : Ino} (h : m.childCount i = 0) : m.names.Empty i := by
  intro d hd hp
  have := List.countP_eq_zero.mp h d hd
  simp [hp] at this

theorem names_unlinkDirent (hl : m.names.Linked) (now : Time) (parent : Ino) (name : Str) :
    ((m.unlinkDirent now parent name).2.names = m.names ∧ m.names.Free parent name) ∨
      ∃ d row, d ∈ m.dirents ∧ d.parent = parent ∧ d.name = name ∧ m.inodes d.child = some row ∧
        (m.unlinkDirent now parent name).2.names = m.names.dropped d row.kind row.nlink := by
  rcases m.unlinkDirent_cases now parent name with ⟨⟨e, -, h⟩, hnone⟩ | ⟨c, row, hc, hrow, h⟩
  · left
    rw [h]
    refine ⟨rfl, ?_⟩
    intro d hd hkey
    have hchild := child_of_mem hl hd
    rw [hkey.1, hkey.2] at hchild
    have hrow := hl.child d hd
    rw [names_row_none.mpr (hnone d.child hchild)] at hrow
    cases hrow
  · right
    obtain ⟨d, hd, rfl, rfl, rfl⟩ := child_eq_some hc
    refine ⟨d, row, hd, rfl, rfl, hrow, ?_⟩
    rw [h]
    apply names_dropLink
    intro n
    exact ⟨rfl, rfl⟩

theorem names_replaceDst {np : Ino} {nname : Str} {r : Except (PyErr Sha) (Option Ino)}
    {m₁ : Meta Sha} (hempty : ∀ n, m.lookup np nname = some n → n.kind = .dir → m.names.Empty n.id)
    {replaced : Option Ino} (hr : r = .ok replaced) (h : m.replaceDst np nname = (r, m₁)) :
    m.names.Cleared np nname m₁.names := by
  subst hr
  rcases m.replaceDst_cases np nname with ⟨hc, h'⟩ | ⟨c, -, -, h'⟩ | ⟨c, row, hc, hrow, h'⟩
  · rw [h'] at h
    cases h
    exact .free (child_eq_none.mp hc)
  · rw [h'] at h
    cases h
  · rw [h'] at h
    cases h
    have hlook : m.lookup np nname = some { row with id := c } := by
      unfold lookup
      rw [hc]
      exact getInode_of_row hrow
    have he := hempty _ hlook
    obtain ⟨d, hd, rfl, rfl, rfl⟩ := child_eq_some hc
    rw [names_dropLink m d row (f := addNlink (-1)) fun _ => ⟨rfl, rfl⟩]
    exact .replaced hd ⟨rfl, rfl⟩ (names_row hrow) he

theorem names_rename {op : Ino} {oname : Str} {np : Ino} {nname : Str}
    (hempty : ∀ n, m.lookup np nname = some n → n.kind = .dir → m.names.Empty n.id) :
    m.names.Change (.rename op oname np nname) (m.rename op oname np nname).2.names := by
  rcases m.rename_cases op oname np nname with ⟨e, -, h⟩ | ⟨c, row, r, m₁, hc, hrow, hrep, h⟩
  · rw [h]
    exact .same _
  · rw [h, names_moveDirLink]
    obtain ⟨d, hd, rfl, rfl, rfl⟩ := child_eq_some hc
    exact .rename hd (names_row hrow) (names_replaceDst hempty rfl hrep)

end Meta

namespace FsCore

variable {Sha : Type}

def names (s : FsCore Sha) : Namespace := s.store.index.names

variable [DecidableEq Sha] {s : FsCore Sha} {ts : Nat → Tick}

omit [DecidableEq Sha] in
theorem keeps_wb {α : Type} {m : WbRun Sha α} (hm : Keeps Writeback.names m) : Keeps names (wb m) :=
  hm.zoom fun _ _ h => h

omit [DecidableEq Sha] in
theorem keeps_newFh (sid : StateId) : Keeps (names : FsCore Sha → Namespace) (newFh sid) :=
  Run.keeps_modifyGet fun _ => rfl

omit [DecidableEq Sha] in
theorem keeps_getattr (ino : Ino) : Keeps (names : FsCore Sha → Namespace) (getattr ino) := by
  unfold getattr live
  apply (Run.keeps_gets _).bind
  intro n
  cases n with
  | none => exact Run.keeps_raise _
  | some n => exact Run.keeps_gets _

omit [DecidableEq Sha] in
/-- Where the names are left as they were found. -/
theorem wp_same {α : Type} {m : FsRun Sha α} (hm : Keeps names m) (op : FsOp) :
    Wp ts m (fun _ s' => s.names.Change op s'.names) s := by
  intro n
  rw [hm ts n s]
  exact .same op

omit [DecidableEq Sha] in
theorem wp_after {α : Type} {m : FsRun Sha α} {s' : FsCore Sha} (hm : Keeps names m) {op : FsOp}
    (h : s.names.Change op s'.names) : Wp ts m (fun _ s'' => s.names.Change op s''.names) s' := by
  intro n
  rw [hm ts n s']
  exact h

/-! ## The operations -/

section Ops

variable (hl : s.names.Linked)
include hl

omit [DecidableEq Sha] in
theorem wp_makeNode_names {op : FsOp} {parent : Ino} {name : Str} {kind : Kind}
    (hop : op.makes = some (parent, name, kind)) (hlook : s.store.index.lookup parent name = none)
    (mode uid gid : Nat) (target : Option Str) :
    Wp ts (makeNode parent name mode kind uid gid target)
      (fun _ s' => s.names.Change op s'.names) s := by
  have hfree := Meta.free_of_lookup hl hlook
  unfold makeNode
  apply Run.Wp.tick_bind
  intro n
  refine Run.wp_attempt.mpr ?_
  have hchange : s.names.Change op
      (s.store.index.create (ts n).now parent name mode kind uid gid target).2.names := by
    rw [Meta.names_create s.store.index (ts n).now mode kind uid gid target hfree]
    exact .node hop hfree
  exact hchange

omit [DecidableEq Sha] in
theorem wp_mkNode_names {op : FsOp} {parent : Ino} {name : Str} {kind : Kind}
    (hop : op.makes = some (parent, name, kind)) (mode uid gid : Nat) (target : Option Str) :
    Wp ts (do
      ensureAbsent parent name
      makeNode parent name mode kind uid gid target)
      (fun _ s' => s.names.Change op s'.names) s := by
  apply Wp.bind
  refine (wp_ensureAbsent s parent name).mono fun r s' h => ?_
  rcases h with ⟨rfl, -, hlook⟩
  cases r with
  | error e => exact .same op
  | ok a => exact wp_makeNode_names hl hop (hlook rfl) mode uid gid target

omit [DecidableEq Sha] in
theorem wp_rmdir_names (parent : Ino) (name : Str) :
    Wp ts (rmdir parent name) (fun _ s' => s.names.Change (.rmdir parent name) s'.names) s := by
  unfold rmdir FsCore.lookup
  rw [Run.wp_gets_bind]
  cases hlook : s.store.index.lookup parent name with
  | none => exact Run.wp_raise.mpr (.same _)
  | some n =>
    dsimp only
    split
    case isTrue => exact Run.wp_raise.mpr (.same _)
    case isFalse hdir =>
      rw [Run.wp_gets_bind]
      split
      case isTrue => exact Run.wp_raise.mpr (.same _)
      case isFalse hcount =>
        apply Run.Wp.tick_bind
        intro k
        apply Wp.bind
        refine Run.wp_attempt.mpr ?_
        have hchange : s.names.Change (.rmdir parent name)
            (s.store.index.unlinkDirent (ts k).now parent name).2.names := by
          rcases Meta.names_unlinkDirent hl (ts k).now parent name with
            ⟨h, -⟩ | ⟨d, row, hd, rfl, rfl, hrow, h⟩
          · rw [h]
            exact .same _
          · rw [h]
            have hn : n = { row with id := d.child } :=
              Option.some.inj (hlook.symm.trans (Meta.lookup_of_mem hl hd hrow))
            have hkind : row.kind = .dir := by
              simpa [hn, Inode.isDir] using hdir
            have hzero : s.store.index.childCount d.child = 0 := by
              rw [hn] at hcount
              exact Nat.le_zero.mp (not_lt.mp hcount)
            have hr := Meta.names_row hrow
            rw [hkind] at hr ⊢
            exact .rmdir hd hr (Meta.empty_of_childCount hzero)
        cases (s.store.index.unlinkDirent (ts k).now parent name).1 with
        | error e => exact hchange
        | ok a => exact Run.wp_pure.mpr hchange

omit [DecidableEq Sha] in
theorem wp_link_names (ino parent : Ino) (name : Str) :
    Wp ts (link ino parent name) (fun _ s' => s.names.Change (.link ino parent name) s'.names) s := by
  unfold link FsCore.getInode
  rw [Run.wp_gets_bind]
  cases hget : s.store.index.getInode ino with
  | none => exact Run.wp_raise.mpr (.same _)
  | some n =>
    dsimp only
    split
    case isTrue => exact Run.wp_raise.mpr (.same _)
    case isFalse hdir =>
      apply Wp.bind
      refine (wp_ensureAbsent s parent name).mono fun r s' h => ?_
      rcases h with ⟨rfl, -, hlook⟩
      cases r with
      | error e => exact .same _
      | ok a =>
        have hfree := Meta.free_of_lookup hl (hlook rfl)
        obtain ⟨-, row, hrow, rfl⟩ := Meta.getInode_eq_some hget
        have hk : row.kind ≠ .dir := by simpa [Inode.isDir] using hdir
        apply Run.Wp.tick_bind
        intro k
        apply Wp.bind
        refine Run.wp_attempt.mpr ?_
        have hnames := Meta.names_link s'.store.index (ts k).now ino hfree
        have hchange : s'.names.Change (.link ino parent name)
            (s'.store.index.link (ts k).now parent name ino).2.names :=
          hnames.symm ▸ .link hfree (Meta.names_row hrow) hk
        cases (s'.store.index.link (ts k).now parent name ino).1 with
        | error e => exact hchange
        | ok a => exact wp_after (keeps_getattr ino) hchange

variable [Sha256 Sha]

omit hl [Sha256 Sha] in
theorem keeps_freeInode (ino : Ino) : Keeps (names : FsCore Sha → Namespace) (freeInode ino) :=
  (keeps_wb (Writeback.keeps_discard ino)).bind fun _ => keeps_wb (Writeback.keeps_callStore _)

omit hl [Sha256 Sha] in
theorem keeps_dropInode (ino : Ino) : Keeps (names : FsCore Sha → Namespace) (dropInode ino) := by
  unfold dropInode
  apply (Run.keeps_gets _).bind
  intro opened
  split
  · exact Run.keeps_modify fun _ => rfl
  · exact keeps_freeInode ino

omit [Sha256 Sha] in
theorem wp_unlink_names (parent : Ino) (name : Str) :
    Wp ts (unlink parent name) (fun _ s' => s.names.Change (.unlink parent name) s'.names) s := by
  unfold unlink FsCore.lookup
  rw [Run.wp_gets_bind]
  cases hlook : s.store.index.lookup parent name with
  | none => exact Run.wp_raise.mpr (.same _)
  | some n =>
    dsimp only
    split
    case isTrue => exact Run.wp_raise.mpr (.same _)
    case isFalse hdir =>
      apply Run.Wp.tick_bind
      intro k
      apply Wp.bind
      refine Run.wp_attempt.mpr ?_
      have hchange : s.names.Change (.unlink parent name)
          (s.store.index.unlinkDirent (ts k).now parent name).2.names := by
        rcases Meta.names_unlinkDirent hl (ts k).now parent name with
          ⟨h, -⟩ | ⟨d, row, hd, rfl, rfl, hrow, h⟩
        · rw [h]
          exact .same _
        · rw [h]
          have hn : n = { row with id := d.child } :=
            Option.some.inj (hlook.symm.trans (Meta.lookup_of_mem hl hd hrow))
          have hk : row.kind ≠ .dir := by
            simpa [hn, Inode.isDir] using hdir
          exact .unlink hd (Meta.names_row hrow) hk
      cases (s.store.index.unlinkDirent (ts k).now parent name).1 with
      | error e => exact hchange
      | ok r =>
        dsimp only
        split
        · exact wp_after (keeps_dropInode n.id) hchange
        · exact Run.wp_pure.mpr hchange

omit hl [Sha256 Sha] in
theorem wp_rename_names (oldp : Ino) (oldname : Str) (newp : Ino) (newname : Str) :
    Wp ts (rename oldp oldname newp newname)
      (fun _ s' => s.names.Change (.rename oldp oldname newp newname) s'.names) s := by
  unfold rename FsCore.lookup
  rw [Run.wp_gets_bind]
  cases s.store.index.lookup oldp oldname with
  | none => exact Run.wp_raise.mpr (.same _)
  | some n =>
    dsimp only
    rw [Run.wp_gets_bind]
    split
    case isTrue => exact Run.wp_raise.mpr (.same _)
    case isFalse hfull =>
      apply Wp.bind
      refine Run.wp_attempt.mpr ?_
      have hempty : ∀ d, s.store.index.lookup newp newname = some d → d.kind = .dir →
          s.store.index.names.Empty d.id := by
        intro d hd hk
        apply Meta.empty_of_childCount
        rw [hd] at hfull
        simpa [Inode.isDir, hk] using hfull
      have hchange : s.names.Change (.rename oldp oldname newp newname)
          (s.store.index.rename oldp oldname newp newname).2.names := Meta.names_rename hempty
      cases (s.store.index.rename oldp oldname newp newname).1 with
      | error e => exact hchange
      | ok replaced =>
        cases replaced with
        | none => exact Run.wp_pure.mpr hchange
        | some ino => exact wp_after (keeps_dropInode ino) hchange

theorem wp_create_names (cfg : WbConfig) (parent : Ino) (name : Str) (mode flags uid gid : Nat) :
    Wp ts (create cfg parent name mode flags uid gid)
      (fun _ s' => s.names.Change (.create parent name mode flags uid gid) s'.names) s := by
  have hrest : ∀ n : Inode, Keeps (names : FsCore Sha → Namespace) (do
      let sid ← wb (Writeback.openFile cfg n.id true)
      let fh ← newFh sid
      pure (fh, n)) := by
    intro n
    apply (keeps_wb (Writeback.keeps_openFile cfg n.id true)).bind
    intro sid
    exact (keeps_newFh sid).bind fun _ => Run.keeps_pure _
  unfold create FsCore.lookup
  rw [Run.wp_gets_bind]
  cases hlook : s.store.index.lookup parent name with
  | some n =>
    dsimp only
    split
    · exact Run.wp_raise_bind.mpr (.same _)
    · exact wp_same (hrest n) _
  | none =>
    dsimp only
    apply Wp.bind
    have hop : (FsOp.create parent name mode flags uid gid).makes = some (parent, name, .file) := rfl
    refine (wp_makeNode_names hl hop hlook _ _ _ _).mono fun r s' h => ?_
    cases r with
    | error e => exact h
    | ok n => exact wp_after (hrest n) h

end Ops

/-! ## The operations on contents -/

section Contents

variable [Sha256 Sha] (cfg : WbConfig)

theorem keeps_setattr (ino : Ino) (a : Meta.Attrs) :
    Keeps (names : FsCore Sha → Namespace) (setattr cfg ino a) := by
  have hrest : Keeps (names : FsCore Sha → Namespace) (do
      let t ← Run.tick
      index fun m => (.ok (), m.setattr t.now ino { a with size := none })
      getattr ino) := by
    apply Run.keeps_tick.bind
    intro t
    refine Keeps.bind (fun _ _ s => ?_) fun _ => keeps_getattr ino
    exact Meta.names_setattr s.store.index t.now ino _
  unfold setattr
  apply (Run.keeps_gets _).bind
  intro n
  cases n with
  | none => exact Run.keeps_raise _
  | some n =>
    cases a.size with
    | none => exact hrest
    | some size =>
      dsimp only
      split
      · exact (keeps_wb (Writeback.keeps_truncatePath cfg ino size)).bind fun _ => hrest
      · exact hrest

theorem keeps_openFh (ino : Ino) (flags : Nat) : Keeps (names : FsCore Sha → Namespace) (openFh cfg ino flags) := by
  have hrest : Keeps (names : FsCore Sha → Namespace) (do
      let sid ← wb (Writeback.openFile cfg ino (wantsWrite flags))
      newFh sid) :=
    (keeps_wb (Writeback.keeps_openFile cfg ino _)).bind fun sid => keeps_newFh sid
  unfold openFh
  apply (Run.keeps_gets _).bind
  intro n
  cases n with
  | none => exact Run.keeps_raise _
  | some n =>
    dsimp only
    split
    · exact Run.keeps_raise _
    · split
      · exact (keeps_wb (Writeback.keeps_truncatePath cfg ino 0)).bind fun _ => hrest
      · exact hrest

omit [DecidableEq Sha] [Sha256 Sha] in
theorem keeps_onHandle {α : Type} (fh : Nat) {m : FileRun Sha α} (hm : Keeps Wb.names m) :
    Keeps names (do
      let sid ← getState fh
      wb (Writeback.onState sid m)) := by
  refine Keeps.bind ?_ fun sid => keeps_wb (Writeback.keeps_onState sid hm)
  unfold getState
  apply (Run.keeps_gets _).bind
  intro sid
  cases sid with
  | none => exact Run.keeps_raise _
  | some sid => exact Run.keeps_pure sid

theorem keeps_release (fh : Nat) : Keeps (names : FsCore Sha → Namespace) (release cfg fh) := by
  unfold release
  apply (Run.keeps_modifyGet fun _ => rfl).bind
  intro sid
  cases sid with
  | none => exact Run.keeps_pure ()
  | some sid =>
    apply (keeps_wb (Writeback.keeps_release cfg sid)).bind
    intro _
    apply (Run.keeps_gets _).bind
    intro ino
    apply (Run.keeps_gets _).bind
    intro last
    split
    · refine Keeps.bind (Run.keeps_modify fun _ => ?_) fun _ => keeps_freeInode ino
      rfl
    · exact Run.keeps_pure ()

end Contents

end FsCore

namespace FsOp

variable {Sha : Type} [DecidableEq Sha] [Sha256 Sha] {s : FsCore Sha} {ts : Nat → Tick}

omit [DecidableEq Sha] [Sha256 Sha] in
/-- An operation whose result is not looked at. -/
theorem perform_of_names {α : Type} {m : FsRun Sha α} {op : FsOp}
    (hm : Wp ts m (fun _ s' => s.names.Change op s'.names) s) :
    Wp ts (do
      let _ ← m
      pure [] : FsRun Sha (List (PyErr Sha))) (fun _ s' => s.names.Change op s'.names) s := by
  refine Wp.bind (hm.mono fun r s' h => ?_)
  cases r with
  | error e => exact h
  | ok a => exact Run.wp_pure.mpr h

/-- Whether it returns or raises, an operation changes the names in one of the ways listed. -/
theorem perform_change (cfg : WbConfig) (hl : s.names.Linked) (op : FsOp) (n : Nat) :
    s.names.Change op (op.perform cfg ts n s).2.2.names := by
  cases op with
  | mkdir parent name mode uid gid =>
    exact perform_of_names (FsCore.wp_mkNode_names hl rfl _ _ _ _) n
  | rmdir parent name => exact perform_of_names (FsCore.wp_rmdir_names hl parent name) n
  | createNode parent name mode uid gid =>
    exact perform_of_names (FsCore.wp_mkNode_names hl rfl _ _ _ _) n
  | symlink parent name target uid gid =>
    exact perform_of_names (FsCore.wp_mkNode_names hl rfl _ _ _ _) n
  | link ino parent name => exact perform_of_names (FsCore.wp_link_names hl ino parent name) n
  | unlink parent name => exact perform_of_names (FsCore.wp_unlink_names hl parent name) n
  | rename oldp oldname newp newname =>
    exact perform_of_names (FsCore.wp_rename_names oldp oldname newp newname) n
  | setattr ino attrs =>
    exact perform_of_names (FsCore.wp_same (FsCore.keeps_setattr cfg ino attrs) _) n
  | openFh ino flags =>
    exact perform_of_names (FsCore.wp_same (FsCore.keeps_openFh cfg ino flags) _) n
  | create parent name mode flags uid gid =>
    exact perform_of_names (FsCore.wp_create_names hl cfg parent name mode flags uid gid) n
  | read fh off size =>
    exact perform_of_names (FsCore.wp_same (FsCore.keeps_onHandle fh (Wb.names_aside.keeps_read cfg _ _)) _) n
  | write fh off data =>
    exact perform_of_names (FsCore.wp_same (FsCore.keeps_onHandle fh (Wb.names_aside.keeps_write cfg _ _)) _) n
  | flush fh =>
    exact perform_of_names (FsCore.wp_same (FsCore.keeps_onHandle fh (Wb.names_aside.keeps_flush cfg)) _) n
  | fsync fh =>
    exact perform_of_names
      (FsCore.wp_same (FsCore.keeps_onHandle fh (Wb.names_aside.keeps_flushLocked cfg)) _) n
  | release fh => exact perform_of_names (FsCore.wp_same (FsCore.keeps_release cfg fh) _) n
  | reap => exact FsCore.wp_same (FsCore.keeps_wb (Writeback.keeps_reapOnce cfg false)) _ n

end FsOp

end Tgfs
