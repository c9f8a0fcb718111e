import Tgfs.Names.Rename

/-!
# What an operation that returns has done to the names

`Change` allows an operation to leave the names alone. One that returns has done what it is for.
-/

namespace Tgfs

open Run (Wp Keeps)

namespace FsOp

/-- The entry that an operation takes away. -/
def removes : FsOp → Option (Ino × Str)
  | .rmdir parent name | .unlink parent name => some (parent, name)
  | _ => none

end FsOp

namespace Namespace

/-- The changes that are one. -/
inductive Edit (s : Namespace) : FsOp → Namespace → Prop
  | node {op : FsOp} {parent : Ino} {name : Str} {kind : Kind}
      (hop : op.makes = some (parent, name, kind)) (hfree : s.Free parent name) :
      Edit s op (s.addNode kind parent name)
  | link {ino parent : Ino} {name : Str} {kind : Kind} {n : Int} (hfree : s.Free parent name)
      (hrow : s.row ino = some (kind, n)) (hk : kind ≠ .dir) :
      Edit s (.link ino parent name) ((s.addEntry ⟨parent, name, ino⟩).adjust ino 1)
  | drop {op : FsOp} {d : Dirent} {kind : Kind} {n : Int} (hop : op.removes = some (d.parent, d.name))
      (hd : d ∈ s.dirents) (hrow : s.row d.child = some (kind, n))
      (hempty : kind = .dir → s.Empty d.child) : Edit s op (s.dropped d kind n)
  | rename {d : Dirent} {np : Ino} {nname : Str} {kind : Kind} {n : Int} {s₁ : Namespace}
      (hd : d ∈ s.dirents) (hrow : s.row d.child = some (kind, n)) (h₁ : s.Cleared np nname s₁) :
      Edit s (.rename d.parent d.name np nname)
        ((s₁.moveEntry d.parent d.name np nname).moveDir kind d.parent np)

/-- An operation that changes no name, or a `create` of a name that there is. -/
def Stays (s : Namespace) : FsOp → Prop
  | .create parent name .. => ¬ s.Free parent name
  | op => op.spelling = []

theorem Change.edit {s s' : Namespace} {op : FsOp} (h : s.Change op s') : s' = s ∨ s.Edit op s' := by
  cases h with
  | same => exact .inl rfl
  | node hop hfree => exact .inr (.node hop hfree)
  | link hfree hrow hk => exact .inr (.link hfree hrow hk)
  | unlink hd hrow hk => exact .inr (.drop rfl hd hrow fun hd => absurd hd hk)
  | rmdir hd hrow hempty => exact .inr (.drop rfl hd hrow fun _ => hempty)
  | rename hd hrow h₁ => exact .inr (.rename hd hrow h₁)

/-- What an operation did that returned. -/
def Done (s : Namespace) (op : FsOp) (s' : Namespace) : Prop := s.Edit op s' ∨ (s.Stays op ∧ s' = s)

end Namespace

namespace Meta

variable {Sha : Type} {m m' : Meta Sha}

theorem edit_unlinkDirent (hl : m.names.Linked) {now : Time} {parent : Ino} {name : Str} {op : FsOp}
    (hop : op.removes = some (parent, name)) {r : Ino × Int}
    (hempty : ∀ n, m.lookup parent name = some n → n.kind = .dir → m.names.Empty n.id)
    (h : m.unlinkDirent now parent name = (.ok r, m')) : m.names.Edit op m'.names := by
  rcases m.unlinkDirent_cases now parent name with ⟨⟨e, -, h'⟩, -⟩ | ⟨c, row, hc, hrow, h'⟩
  · rw [h'] at h
    cases h
  · rw [h'] at h
    cases h
    obtain ⟨d, hd, rfl, rfl, rfl⟩ := child_eq_some hc
    rw [names_dropLink m d row (f := fun n => { n with nlink := n.nlink - 1, ctime := now }) fun n =>
      ⟨rfl, rfl⟩]
    exact .drop hop hd (names_row hrow) (hempty _ (lookup_of_mem hl hd hrow))

theorem edit_rename {op : Ino} {oname : Str} {np : Ino} {nname : Str} {r : Option Ino}
    (hempty : ∀ n, m.lookup np nname = some n → n.kind = .dir → m.names.Empty n.id)
    (h : m.rename op oname np nname = (.ok r, m')) :
    m.names.Edit (.rename op oname np nname) m'.names := by
  rcases m.rename_cases op oname np nname with ⟨e, -, h'⟩ | ⟨c, row, r', m₁, hc, hrow, hrep, h'⟩
  · rw [h'] at h
    cases h
  · rw [h'] at h
    cases h
    obtain ⟨d, hd, rfl, rfl, rfl⟩ := child_eq_some hc
    rw [names_moveDirLink]
    exact .rename hd (names_row hrow) (names_replaceDst hempty rfl hrep)

end Meta

namespace FsCore

variable {Sha : Type} [DecidableEq Sha] {s : FsCore Sha} {ts : Nat → Tick}

/-- The names behind code that has returned. -/
def Did (s : FsCore Sha) (op : FsOp) {α : Type} (r : Except (PyErr Sha) α) (s' : FsCore Sha) : Prop :=
  ∀ a, r = .ok a → s.names.Done op s'.names

omit [DecidableEq Sha] in
theorem Did.error {op : FsOp} {α : Type} (e : PyErr Sha) (s' : FsCore Sha) :
    s.Did op (.error e : Except (PyErr Sha) α) s' := by
  intro a ha
  cases ha

omit [DecidableEq Sha] in
/-- Nothing has been done yet, and nothing is to be done. -/
theorem wp_stays {α : Type} {m : FsRun Sha α} (hm : Keeps names m) {op : FsOp}
    (h : s.names.Stays op) : Wp ts m (s.Did op) s := by
  intro n a _
  rw [hm ts n s]
  exact .inr ⟨h, rfl⟩

omit [DecidableEq Sha] in
theorem wp_edited {α : Type} {m : FsRun Sha α} {s' : FsCore Sha} (hm : Keeps names m) {op : FsOp}
    (h : s.names.Edit op s'.names) : Wp ts m (s.Did op) s' := by
  intro n a _
  rw [hm ts n s']
  exact .inl h

section Ops

variable (hl : s.names.Linked)
include hl

omit [DecidableEq Sha] in
theorem wp_makeNode_did {op : FsOp} {parent : Ino} {name : Str} {kind : Kind}
    (hop : op.makes = some (parent, name, kind)) (hlook : s.store.index.lookup parent name = none)
    (mode uid gid : Nat) (target : Option Str) :
    Wp ts (makeNode parent name mode kind uid gid target)
      (fun r s' => ∀ n, r = .ok n → s.names.Edit op s'.names) s := by
  have hfree := Meta.free_of_lookup hl hlook
  unfold makeNode
  apply Run.Wp.tick_bind
  intro n
  refine Run.wp_attempt.mpr fun _ _ => ?_
  change s.names.Edit op
    (s.store.index.create (ts n).now parent name mode kind uid gid target).2.names
  rw [Meta.names_create s.store.index (ts n).now mode kind uid gid target hfree]
  exact .node hop hfree

omit [DecidableEq Sha] in
theorem wp_mkNode_did {op : FsOp} {parent : Ino} {name : Str} {kind : Kind}
    (hop : op.makes = some (parent, name, kind)) (mode uid gid : Nat) (target : Option Str) :
    Wp ts (do
      ensureAbsent parent name
      makeNode parent name mode kind uid gid target) (s.Did op) s := by
  apply Wp.bind
  refine (wp_ensureAbsent s parent name).mono fun r s' h => ?_
  obtain ⟨rfl, -, hlook⟩ := h
  cases r with
  | error e => exact Did.error e _
  | ok a =>
    refine (wp_makeNode_did hl hop (hlook rfl) mode uid gid target).mono fun r s'' h => ?_
    exact fun n hn => .inl (h n hn)

omit [DecidableEq Sha] in
theorem wp_rmdir_did (parent : Ino) (name : Str) :
    Wp ts (rmdir parent name) (s.Did (.rmdir parent name)) s := by
  unfold rmdir FsCore.lookup
  rw [Run.wp_gets_bind]
  cases hlook : s.store.index.lookup parent name with
  | none => exact Run.wp_raise.mpr (Did.error _ _)
  | some n =>
    dsimp only
    split
    case isTrue => exact Run.wp_raise.mpr (Did.error _ _)
    case isFalse =>
      rw [Run.wp_gets_bind]
      split
      case isTrue => exact Run.wp_raise.mpr (Did.error _ _)
      case isFalse hcount =>
        have hempty : ∀ d, s.store.index.lookup parent name = some d → d.kind = .dir →
            s.store.index.names.Empty d.id := by
          intro d hd _
          obtain rfl := Option.some.inj (hlook.symm.trans hd)
          exact Meta.empty_of_childCount (Nat.le_zero.mp (not_lt.mp hcount))
        apply Run.Wp.tick_bind
        intro k
        apply Wp.bind
        refine Run.wp_attempt.mpr ?_
        rcases hr : s.store.index.unlinkDirent (ts k).now parent name with ⟨r, m'⟩
        cases r with
        | error e => exact Did.error e _
        | ok a => exact Run.wp_pure.mpr fun _ _ => .inl (Meta.edit_unlinkDirent hl rfl hempty hr)

omit [DecidableEq Sha] in
theorem wp_link_did (ino parent : Ino) (name : Str) :
    Wp ts (link ino parent name) (s.Did (.link ino parent name)) s := by
  unfold link FsCore.getInode
  rw [Run.wp_gets_bind]
  cases hget : s.store.index.getInode ino with
  | none => exact Run.wp_raise.mpr (Did.error _ _)
  | some n =>
    dsimp only
    split
    case isTrue => exact Run.wp_raise.mpr (Did.error _ _)
    case isFalse hdir =>
      apply Wp.bind
      refine (wp_ensureAbsent s parent name).mono fun r s' h => ?_
      obtain ⟨rfl, -, hlook⟩ := h
      cases r with
      | error e => exact Did.error e _
      | ok a =>
        have hfree := Meta.free_of_lookup hl (hlook rfl)
        obtain ⟨-, row, hrow, rfl⟩ := Meta.getInode_eq_some hget
        have hk : row.kind ≠ .dir := by simpa [Inode.isDir] using hdir
        apply Run.Wp.tick_bind
        intro k
        apply Wp.bind
        refine Run.wp_attempt.mpr ?_
        have hnames := Meta.names_link s'.store.index (ts k).now ino hfree
        have hedit : s'.names.Edit (.link ino parent name)
            (s'.store.index.link (ts k).now parent name ino).2.names :=
          hnames.symm ▸ .link hfree (Meta.names_row hrow) hk
        cases (s'.store.index.link (ts k).now parent name ino).1 with
        | error e => exact Did.error e _
        | ok a => exact wp_edited (keeps_getattr ino) hedit

variable [Sha256 Sha]

omit [Sha256 Sha] in
theorem wp_unlink_did (parent : Ino) (name : Str) :
    Wp ts (unlink parent name) (s.Did (.unlink parent name)) s := by
  unfold unlink FsCore.lookup
  rw [Run.wp_gets_bind]
  cases hlook : s.store.index.lookup parent name with
  | none => exact Run.wp_raise.mpr (Did.error _ _)
  | some n =>
    dsimp only
    split
    case isTrue => exact Run.wp_raise.mpr (Did.error _ _)
    case isFalse hdir =>
      have hempty : ∀ d, s.store.index.lookup parent name = some d → d.kind = .dir →
          s.store.index.names.Empty d.id := by
        intro d hd hk
        obtain rfl := Option.some.inj (hlook.symm.trans hd)
        exact absurd hk (by simpa [Inode.isDir] using hdir)
      apply Run.Wp.tick_bind
      intro k
      apply Wp.bind
      refine Run.wp_attempt.mpr ?_
      rcases hr : s.store.index.unlinkDirent (ts k).now parent name with ⟨r, m'⟩
      cases r with
      | error e => exact Did.error e _
      | ok r =>
        have hedit := Meta.edit_unlinkDirent hl (rfl : (FsOp.unlink parent name).removes = _) hempty hr
        dsimp only
        split
        · exact wp_edited (keeps_dropInode n.id) hedit
        · exact Run.wp_pure.mpr fun _ _ => .inl hedit

omit hl [Sha256 Sha] in
theorem wp_rename_did (oldp : Ino) (oldname : Str) (newp : Ino) (newname : Str) :
    Wp ts (rename oldp oldname newp newname) (s.Did (.rename oldp oldname newp newname)) s := by
  refine (wp_rename_ok oldp oldname newp newname).mono fun r s' h a ha => ?_
  obtain ⟨replaced, m₁, hren, hempty, hnames, -⟩ := h ha
  rw [hnames]
  exact .inl (Meta.edit_rename hempty hren)

theorem wp_create_did (cfg : WbConfig) (parent : Ino) (name : Str) (mode flags uid gid : Nat) :
    Wp ts (create cfg parent name mode flags uid gid)
      (s.Did (.create parent name mode flags uid gid)) s := by
  have hrest : ∀ n : Inode, Keeps (names : FsCore Sha → Namespace) (do
      let sid ← wb (Writeback.openFile cfg n.id true)
      let fh ← newFh sid
      pure (fh, n)) := by
    intro n
    apply (keeps_wb (Writeback.keeps_openFile cfg n.id true)).bind
    intro sid
    exact (keeps_newFh sid).bind fun _ => Run.keeps_pure _
  unfold create FsCore.lookup
  rw [Run.wp_gets_bind]
  cases hlook : s.store.index.lookup parent name with
  | some n =>
    dsimp only
    split
    · exact Run.wp_raise_bind.mpr (Did.error _ _)
    · apply wp_stays (hrest n)
      intro hfree
      unfold Meta.lookup at hlook
      rw [Meta.child_eq_none.mpr hfree] at hlook
      cases hlook
  | none =>
    dsimp only
    apply Wp.bind
    have hop : (FsOp.create parent name mode flags uid gid).makes = some (parent, name, .file) := rfl
    refine (wp_makeNode_did hl hop hlook _ _ _ _).mono fun r s' h => ?_
    cases r with
    | error e => exact Did.error e _
    | ok n => exact wp_edited (hrest n) (h n rfl)

end Ops

end FsCore

namespace FsOp

variable {Sha : Type} [DecidableEq Sha] [Sha256 Sha] {s : FsCore Sha} {ts : Nat → Tick}

omit [DecidableEq Sha] [Sha256 Sha] in
theorem perform_of_did {α : Type} {m : FsRun Sha α} {op : FsOp} (hm : Wp ts m (s.Did op) s) :
    Wp ts (do
      let _ ← m
      pure [] : FsRun Sha (List (PyErr Sha))) (s.Did op) s := by
  refine Wp.bind (hm.mono fun r s' h => ?_)
  cases r with
  | error e => exact FsCore.Did.error e _
  | ok a => exact Run.wp_pure.mpr fun _ _ => h a rfl

/-- The names behind an operation that returned. -/
theorem perform_did (cfg : WbConfig) (hl : s.names.Linked) (op : FsOp) (n : Nat) :
    s.Did op (op.perform cfg ts n s).1 (op.perform cfg ts n s).2.2 := by
  cases op with
  | mkdir parent name mode uid gid =>
    exact perform_of_did (FsCore.wp_mkNode_did hl rfl _ _ _ _) n
  | rmdir parent name => exact perform_of_did (FsCore.wp_rmdir_did hl parent name) n
  | createNode parent name mode uid gid =>
    exact perform_of_did (FsCore.wp_mkNode_did hl rfl _ _ _ _) n
  | symlink parent name target uid gid =>
    exact perform_of_did (FsCore.wp_mkNode_did hl rfl _ _ _ _) n
  | link ino parent name => exact perform_of_did (FsCore.wp_link_did hl ino parent name) n
  | unlink parent name => exact perform_of_did (FsCore.wp_unlink_did hl parent name) n
  | rename oldp oldname newp newname =>
    exact perform_of_did (FsCore.wp_rename_did oldp oldname newp newname) n
  | create parent name mode flags uid gid =>
    exact perform_of_did (FsCore.wp_create_did hl cfg parent name mode flags uid gid) n
  | setattr ino attrs =>
    exact perform_of_did (FsCore.wp_stays (FsCore.keeps_setattr cfg ino attrs) (by exact rfl)) n
  | openFh ino flags =>
    exact perform_of_did (FsCore.wp_stays (FsCore.keeps_openFh cfg ino flags) (by exact rfl)) n
  | read fh off size =>
    exact perform_of_did (FsCore.wp_stays (FsCore.keeps_onHandle fh (Wb.names_aside.keeps_read cfg _ _)) (by exact rfl)) n
  | write fh off data =>
    exact perform_of_did (FsCore.wp_stays (FsCore.keeps_onHandle fh (Wb.names_aside.keeps_write cfg _ _)) (by exact rfl)) n
  | flush fh =>
    exact perform_of_did (FsCore.wp_stays (FsCore.keeps_onHandle fh (Wb.names_aside.keeps_flush cfg)) (by exact rfl)) n
  | fsync fh =>
    exact perform_of_did
      (FsCore.wp_stays (FsCore.keeps_onHandle fh (Wb.names_aside.keeps_flushLocked cfg)) (by exact rfl)) n
  | release fh => exact perform_of_did (FsCore.wp_stays (FsCore.keeps_release cfg fh) (by exact rfl)) n
  | reap => exact FsCore.wp_stays (FsCore.keeps_wb (Writeback.keeps_reapOnce cfg false)) (by exact rfl) n

end FsOp

end Tgfs
