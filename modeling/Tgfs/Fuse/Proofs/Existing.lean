import Tgfs.Cache.Proofs.Emptied
import Tgfs.Fuse.Proofs.Numbers

/-!
# `create` of a name that exists

The kernel calls `create` for a name that did not exist when it looked. If it exists by then,
`create` opens the inode as `open` does, but always for writing, whatever the inode is, and
without a look at `O_TRUNC`.
-/

namespace Tgfs

open Run (Wp)

variable {Sha : Type}

/-- The exception is not one that `fuse_ops.py` raises itself. -/
def PyErr.Inner (e : PyErr Sha) : Prop := ∀ code, e ≠ .osError code

/-! ## What a load raises -/

namespace Store

variable [DecidableEq Sha]

/-- The code behind an action runs on its reply, from the state it leaves. -/
theorem seqRun_act_then {α : Type} {src : Src Sha} {ts : Nat → Tick} {a : Act Sha} {r : a.Reply} {n : Nat}
    {s s' : Store Sha} (h : exec src (ts n) a (machine.turn (ts n) a s) = (r, s'))
    (f : a.Reply → StoreProg Sha α) :
    machine.seqRun src ts (perform a >>= f) n s = machine.seqRun src ts (f r) (n + 1) s' := by
  change machine.seqRun src ts (f (exec src (ts n) a (machine.turn (ts n) a s)).1) (n + 1)
    (exec src (ts n) a (machine.turn (ts n) a s)).2 = _
  rw [h]

variable [Sha256 Sha]

/-- A load raises an error of the store, or its download succeeds. -/
theorem loadBlob_cases (src : Src Sha) (ts : Nat → Tick) (sha : Sha) (b : Blob) (n : Nat)
    (s : Store Sha) :
    (∃ e : PyErr Sha, e.Inner ∧ (machine.seqRun src ts (loadBlob sha b) n s).1 = .error e) ∨
      (ts n).downloadFails = false ∧
        ∃ data, (machine.seqRun src ts (loadBlob sha b) n s).1 = .ok data := by
  obtain ⟨got, s', hx⟩ : ∃ (got : Except (PyErr Sha) Bytes) (s' : Store Sha),
      exec src (ts n) (.download b.handle) (machine.turn (ts n) (.download b.handle) s) =
        (got, s') := ⟨_, _, rfl⟩
  have hrun : machine.seqRun src ts (loadBlob sha b) n s = _ := seqRun_act_then hx _
  rw [hrun]
  simp only [exec] at hx
  split at hx
  case isTrue =>
    cases hx
    exact .inl ⟨.downloadFailed, by simp [PyErr.Inner], rfl⟩
  case isFalse hd =>
    split at hx
    case h_1 data _ =>
      cases hx
      by_cases hsha : sha256 data = sha
      · refine .inr ⟨by simpa using hd, data, ?_⟩
        simp [hsha]
      · refine .inl ⟨.integrityCheck sha, by simp [PyErr.Inner], ?_⟩
        simp [hsha]
    case h_2 =>
      cases hx
      exact .inl ⟨.noBlob b.handle, by simp [PyErr.Inner], rfl⟩

/-- A fetch raises an error of the store, or it gets the blob in a download that succeeds. -/
theorem fetch_cases (src : Src Sha) (ts : Nat → Tick) (sha : Sha) (n : Nat) (s : Store Sha) :
    (∃ e : PyErr Sha, e.Inner ∧ (machine.seqRun src ts (fetch sha) n s).1 = .error e) ∨
      (ts (n + 1)).downloadFails = false ∧
        ∃ data, (machine.seqRun src ts (fetch sha) n s).1 = .ok data := by
  obtain ⟨row, s', hx⟩ : ∃ (row : Option Blob) (s' : Store Sha),
      exec src (ts n) (.blobGet sha) (machine.turn (ts n) (.blobGet sha) s) = (row, s') :=
    ⟨_, _, rfl⟩
  have hrun : machine.seqRun src ts (fetch sha) n s = _ := seqRun_act_then hx _
  rw [hrun]
  cases row with
  | none => exact .inl ⟨.blobNotInIndex sha, by simp [PyErr.Inner], rfl⟩
  | some b => exact loadBlob_cases src ts sha b (n + 1) s'

end Store

namespace Wb

variable [DecidableEq Sha] [Sha256 Sha] {cfg : WbConfig}

theorem raises_loadEach (is : List Nat) :
    Run.Raises PyErr.Inner (loadEach is : FileRun Sha Unit) := by
  induction is with
  | nil => exact Run.raises_pure ()
  | cons i is ih =>
    unfold loadEach
    refine Run.Raises.bind (Run.raises_gets _) fun st => ?_
    cases st.base[i]? with
    | none => exact Run.raises_pure ()
    | some b =>
      have hfetch : Run.Raises PyErr.Inner (call noSrc (Store.fetch b.sha) : FileRun Sha Bytes) := by
        intro ts n c e he
        change (Store.machine.seqRun noSrc ts (Store.fetch b.sha) n c.store).1 = .error e at he
        obtain ⟨e', hin, he'⟩ | ⟨-, data, hd⟩ := Store.fetch_cases noSrc ts b.sha n c.store
        · exact Except.error.inj (he'.symm.trans he) ▸ hin
        · cases hd.symm.trans he
      have hwrite : ∀ data, Run.Raises PyErr.Inner (tempWrite b.off data : FileRun Sha Unit) :=
        fun data => ((Run.raises_gets _).bind fun _ => Run.raises_require (by simp [PyErr.Inner]) _).bind
          fun _ => Run.raises_modify _
      exact hfetch.bind fun data => (hwrite data).bind fun _ => (Run.raises_modify _).bind fun _ => ih

/-- Switching to write mode raises nothing that an operation raises itself. -/
theorem raises_materialize : Run.Raises PyErr.Inner (materialize cfg : FileRun Sha Unit) := by
  unfold materialize
  refine Run.Raises.bind (Run.raises_gets _) fun st => ?_
  split
  · exact Run.raises_pure ()
  · refine Run.Raises.bind (Run.raises_gets _) fun rows => ?_
    refine Run.Raises.bind (Run.raises_gets _) fun inode => ?_
    cases inode with
    | none => exact Run.raises_raise fun _ => nofun
    | some node =>
      have hload : Run.Raises PyErr.Inner (load 0 (rows.map BaseChunk.ofRow).length ∅ :
          FileRun Sha Unit) := (Run.raises_gets _).bind fun _ => raises_loadEach _
      refine Run.Raises.bind (Run.raises_modify _) fun _ => ?_
      split
      · exact Run.raises_modify _
      · exact hload.bind fun _ => (Run.raises_modify _).bind fun _ => Run.raises_modify _

end Wb

/-! ## The operations -/

namespace FsCore

variable {s s' : FsCore Sha} {ts : Nat → Tick} {n : Nat}

/-- The inode has a registered state in write mode. -/
def Writing (s : FsCore Sha) (ino : Ino) : Prop :=
  ∃ sid, s.get ino = some sid ∧ (s.heap sid).materialized = true

/-- `getattr` reports the size. -/
theorem getattr_size {ino : Ino} {node : Inode} (h : s.store.index.getInode ino = some node)
    (hk : node.kind = .file) (ts : Nat → Tick) (n : Nat) :
    ∃ node', (getattr ino ts n s).1 = .ok node' ∧ some node'.size = s.sizeOf ino := by
  obtain ⟨hid, row, hrow, hnode⟩ := Meta.getInode_eq_some h
  unfold getattr live
  rw [Run.bind_run_ok (show getInode ino ts n s = (.ok (some node), n, s) by rw [← h]; rfl)]
  refine ⟨_, rfl, ?_⟩
  dsimp only
  rw [if_pos hk, hid]
  unfold Writeback.sizeOf
  cases s.liveSize ino with
  | some size => rfl
  | none =>
    rw [hrow, hnode]
    rfl

variable [DecidableEq Sha] [Sha256 Sha] (cfg : WbConfig)

/-- Whatever happens next, every `read` and every `getattr` returns the same. -/
def SameLater (s s' : FsCore Sha) : Prop :=
  ∀ (ts : Nat → Tick) (es : List Event) (n : Nat),
    (∀ fh off size, (read cfg fh off size ts (Event.runAll cfg ts es n s).1
        (Event.runAll cfg ts es n s).2).1 =
      (read cfg fh off size ts (Event.runAll cfg ts es n s').1 (Event.runAll cfg ts es n s').2).1) ∧
    ∀ ino, (getattr ino ts (Event.runAll cfg ts es n s).1 (Event.runAll cfg ts es n s).2).1 =
      (getattr ino ts (Event.runAll cfg ts es n s').1 (Event.runAll cfg ts es n s').2).1

/-- A `create` ends as an `open` does. -/
structure AsOpen (created : Except (PyErr Sha) (Nat × Inode) × Nat × FsCore Sha)
    (opened : Except (PyErr Sha) Nat × Nat × FsCore Sha) : Prop where
  raises : ∀ e, created.1 = .error e ↔ opened.1 = .error e
  handle : ∀ r, created.1 = .ok r → opened.1 = .ok r.1
  later : ∀ r, created.1 = .ok r → SameLater cfg created.2.2 opened.2.2

variable {cfg}

theorem AsOpen.of_run {created : Except (PyErr Sha) (Nat × Inode) × Nat × FsCore Sha}
    {opened : Except (PyErr Sha) Nat × Nat × FsCore Sha} {node : Inode}
    (h : created = (opened.1.map fun fh => (fh, node), opened.2)) : AsOpen cfg created opened := by
  subst h
  rcases opened with ⟨r, n, s⟩
  refine ⟨fun e => ?_, fun r' hr => ?_, fun _ _ _ _ _ => ⟨fun _ _ _ => rfl, fun _ => rfl⟩⟩
  · cases r <;> simp [Except.map]
  · cases r with
    | error e => cases hr
    | ok fh =>
      cases hr
      rfl

variable {parent : Ino} {name : Str} {node : Inode} {flags : Nat}

/-- Opening for writing what is in write mode changes nothing that opening does not. -/
theorem openFile_writing {ino : Ino} {forWrite : Bool} (h : forWrite = true ∨ s.Writing ino) :
    wb (Writeback.openFile cfg ino true) ts n s = wb (Writeback.openFile cfg ino forWrite) ts n s := by
  cases forWrite with
  | true => rfl
  | false =>
    obtain ⟨sid, hget, hm⟩ := h.resolve_left (by simp)
    have hself := s.toWriteback.heap_modState sid fun st => { st with refcount := st.refcount + 1 }
    have hlocked := Writeback.openLocked_old hget
    generalize s.toWriteback.modState sid (fun st => { st with refcount := st.refcount + 1 }) = w₁
      at hself hlocked
    have hmat : Wb.materialize cfg ts n (w₁.view sid) = (.ok (), n, w₁.view sid) := by
      have hm₁ : (w₁.view sid).st.materialized = true := (congrArg FileState.materialized hself).trans hm
      unfold Wb.materialize
      rw [Run.bind_run_ok (show Wb.getState ts n (w₁.view sid) = (.ok (w₁.view sid).st, n, w₁.view sid)
        from rfl), if_pos hm₁]
      rfl
    have hput : w₁.put sid (w₁.view sid) = w₁ := by simp [Writeback.put, Writeback.view]
    have hopen : ∀ forWrite, Writeback.openFile cfg ino forWrite ts n s.toWriteback =
        (.ok sid, n, w₁) := by
      intro forWrite
      unfold Writeback.openFile
      rw [Run.bind_run_ok (show Run.modifyGet (Writeback.openLocked ino) ts n s.toWriteback =
        (.ok sid, n, w₁) from congrArg (fun o => (Except.ok o.1, n, o.2)) hlocked)]
      cases forWrite with
      | false => rfl
      | true =>
        have hstate : Writeback.onState sid (Wb.materialize cfg) ts n w₁ = (.ok (), n, w₁) := by
          unfold Writeback.onState Run.zoom
          rw [hmat]
          exact congrArg (fun w => (Except.ok (), n, w)) hput
        rw [if_pos rfl, Run.bind_run_ok hstate]
        rfl
    unfold wb Run.zoom
    rw [hopen true, hopen false]

section Existing

variable (hl : s.store.index.lookup parent name = some node) (hexcl : flags &&& oExcl = 0)
  (mode uid gid : Nat)
include hl hexcl

theorem create_existing : create cfg parent name mode flags uid gid ts n s = (do
    let sid ← wb (Writeback.openFile cfg node.id true)
    let fh ← newFh sid
    pure (fh, node)) ts n s := by
  unfold create
  rw [Run.bind_run_ok (show lookup parent name ts n s = (.ok (some node), n, s) by rw [← hl]; rfl)]
  dsimp only
  rw [if_neg (not_not.mpr hexcl)]
  rfl

/-- On a file, without `O_TRUNC`, and where the file is opened for writing anyway. -/
theorem create_run (hdir : node.isDir = false) (htrunc : flags &&& oTrunc = 0)
    (hw : wantsWrite flags = true ∨ s.Writing node.id) :
    create cfg parent name mode flags uid gid ts n s =
      ((openFh cfg node.id flags ts n s).1.map fun fh => (fh, node),
        (openFh cfg node.id flags ts n s).2) := by
  have hopen : openFh cfg node.id flags ts n s = (do
      let sid ← wb (Writeback.openFile cfg node.id (wantsWrite flags))
      newFh sid) ts n s := by
    unfold openFh
    rw [Run.bind_run_ok (show getInode node.id ts n s = (.ok (some node), n, s) by
      rw [← Meta.getInode_of_lookup hl]; rfl)]
    dsimp only
    rw [hdir, if_neg (by simp), if_neg (not_not.mpr htrunc)]
  rw [create_existing hl hexcl, hopen, Run.bind_run, Run.bind_run, openFile_writing hw]
  rcases wb (Writeback.openFile cfg node.id (wantsWrite flags)) ts n s with ⟨e | sid, n₁, s₁⟩
  · rfl
  · rfl

/-- It never raises an `OSError` of its own. -/
theorem create_raises (e : PyErr Sha) :
    (create cfg parent name mode flags uid gid ts n s).1 = .error e → e.Inner := by
  have hopen : Run.Raises PyErr.Inner (Writeback.openFile cfg node.id true : WbRun Sha StateId) :=
    (Run.raises_modifyGet _).bind fun sid => Wb.raises_materialize.zoom.bind fun _ => Run.raises_pure _
  rw [create_existing hl hexcl]
  exact (hopen.zoom.bind fun sid => (Run.raises_modifyGet _).bind fun fh => Run.raises_pure _) ts n s e

/-- The size of the file stays. -/
theorem create_size (h : s.Numbered) (hk : node.kind = .file) {r : Nat × Inode}
    (hr : (create cfg parent name mode flags uid gid ts n s).1 = .ok r) (ts' : Nat → Tick) (n' : Nat) :
    ∃ node', (getattr node.id ts' n' (create cfg parent name mode flags uid gid ts n s).2.2).1 =
      .ok node' ∧ some node'.size = s.sizeOf node.id := by
  have hnode := Meta.getInode_of_lookup hl
  have hw : Wp ts (do
      let sid ← wb (Writeback.openFile cfg node.id true)
      let fh ← newFh sid
      pure (fh, node)) (fun r s' => ∀ p, r = .ok p → s'.sizeOf node.id = s.sizeOf node.id ∧
        s'.store.index.getInode node.id = some node) s := by
    refine Wp.bind_partial (Run.wp_zoom.mpr ((Writeback.wp_openFile_size cfg
      (Writeback.Numbered.openLocked h (h.index.lt hnode)).1 true).mono fun r w hw sid hs => ?_))
    obtain ⟨-, -, hsize, hrows, -⟩ := hw sid hs
    refine Run.wp_modifyGet_bind.mpr (Run.wp_pure.mpr fun _ _ => ⟨hsize, ?_⟩)
    rw [← hnode]
    exact congrArg (fun f => (f node.id).map fun i : Inode => { i with id := node.id }) hrows
  have hw := hw n
  rw [create_existing hl hexcl] at hr ⊢
  obtain ⟨hsize, hsame⟩ := hw r hr
  rw [← hsize]
  exact getattr_size hsame hk ts' n'

omit hexcl in
/-- With `O_TRUNC`, `open` leaves an empty file. -/
theorem openFh_size (h : s.Numbered) (hk : node.kind = .file) (htrunc : flags &&& oTrunc ≠ 0)
    {fh : Nat} (hr : (openFh cfg node.id flags ts n s).1 = .ok fh) (ts' : Nat → Tick) (n' : Nat) :
    ∃ node', (getattr node.id ts' n' (openFh cfg node.id flags ts n s).2.2).1 = .ok node' ∧
      node'.size = 0 := by
  have hnode := Meta.getInode_of_lookup hl
  have hlt := h.index.lt hnode
  obtain ⟨-, row, hrow, heq⟩ := Meta.getInode_eq_some hnode
  have hdir : node.isDir = false := by simp [Inode.isDir, hk]
  have hw : Wp ts (openFh cfg node.id flags)
      (fun r s' => ∀ fh, r = .ok fh → s'.sizeOf node.id = some 0) s := by
    unfold openFh getInode
    rw [Run.wp_gets_bind, hnode]
    dsimp only
    rw [hdir, if_neg (by simp), if_pos htrunc]
    have hkeep : Wp ts (Writeback.truncatePath cfg node.id 0)
        (fun _ w' => w'.names = s.toWriteback.names) s.toWriteback :=
      (Writeback.keeps_truncatePath cfg node.id 0).wp
    refine Wp.bind_partial (Run.wp_zoom.mpr (((Writeback.wp_truncatePath_bare
      (Writeback.Numbered.openLocked h hlt).1 hrow).and
      ((Writeback.Numbered.truncatePath cfg h hlt 0).and hkeep)).mono ?_))
    rintro r w ⟨hbare, hnum, hnames⟩ u hu
    have hlt' : node.id < w.store.index.nextIno :=
      Nat.lt_of_lt_of_eq hlt (congrArg Namespace.nextIno hnames).symm
    refine Wp.bind_partial (Run.wp_zoom.mpr ((Writeback.wp_openFile_size cfg
      (hnum.openLocked hlt').1 _).mono fun r w' hw' sid hs => ?_))
    exact Run.wp_modifyGet.mpr fun _ _ => (hw' sid hs).2.2.1.trans (hbare u hu).sizeOf
  have hnames : (openFh cfg node.id flags ts n s).2.2.names = s.names :=
    keeps_openFh cfg node.id flags ts n s
  have hkind : (openFh cfg node.id flags ts n s).2.2.store.index.names.row node.id =
      some (row.kind, row.nlink) :=
    (congrFun (congrArg Namespace.row hnames) node.id).trans (Meta.names_row hrow)
  obtain ⟨row', hrow', hk', -⟩ := Meta.row_of_names hkind
  have hfile : row'.kind = .file := by
    rw [hk', ← hk, heq]
  obtain ⟨node', hattr, hsize⟩ := getattr_size (Meta.getInode_of_row hrow') hfile ts' n'
  rw [hw n fh hr] at hsize
  exact ⟨node', hattr, Option.some.inj hsize⟩

end Existing

/-- A `create` of a name that exists ends as an `open` of its inode on what is no directory,
without `O_TRUNC`, and where the file is opened for writing or is in write mode. It does not on a
directory, which it opens, and with `O_TRUNC` on a file that is not empty, which it does not cut. -/
theorem create_asOpen (cfg : WbConfig) (ts : Nat → Tick) (now : Time) (uid₀ gid₀ : Nat)
    (es : List Event) (n : Nat) {n' : Nat} {s : FsCore Sha}
    (hs : Event.runAll cfg ts es n (FsCore.empty now uid₀ gid₀) = (n', s)) {parent : Ino}
    {name : Str} {node : Inode} (hl : s.store.index.lookup parent name = some node)
    (mode flags uid gid : Nat) (hexcl : flags &&& oExcl = 0) :
    (node.isDir = false → flags &&& oTrunc = 0 →
      wantsWrite flags = true ∨ s.Writing node.id →
        AsOpen cfg (create cfg parent name mode flags uid gid ts n' s)
          (openFh cfg node.id flags ts n' s)) ∧
    (node.isDir = true → ¬ AsOpen cfg (create cfg parent name mode flags uid gid ts n' s)
      (openFh cfg node.id flags ts n' s)) ∧
    (node.kind = .file → flags &&& oTrunc ≠ 0 → s.sizeOf node.id ≠ some 0 →
      (∃ r, (create cfg parent name mode flags uid gid ts n' s).1 = .ok r) →
        ¬ AsOpen cfg (create cfg parent name mode flags uid gid ts n' s)
          (openFh cfg node.id flags ts n' s)) := by
  have hnum : s.Numbered := by
    have hrun : (Event.runAll cfg ts es n (FsCore.empty now uid₀ gid₀ : FsCore Sha)).2.Numbered :=
      Event.runAll_numbered (Event.empty_numbered now uid₀ gid₀) es n
    rwa [hs] at hrun
  refine ⟨fun hdir htrunc hw => .of_run (create_run hl hexcl mode uid gid hdir htrunc hw),
    fun hdir h => ?_, fun hk htrunc hsize ⟨r, hr⟩ h => ?_⟩
  · have hopen : (openFh cfg node.id flags ts n' s).1 = .error (.osError .eisdir) := by
      unfold openFh
      rw [Run.bind_run_ok (show getInode node.id ts n' s = (.ok (some node), n', s) by
        rw [← Meta.getInode_of_lookup hl]; rfl)]
      dsimp only
      rw [if_pos hdir]
      rfl
    exact create_raises hl hexcl mode uid gid _ ((h.raises _).mpr hopen) .eisdir rfl
  · obtain ⟨node₁, hattr₁, hsize₁⟩ := create_size hl hexcl mode uid gid hnum hk hr ts n'
    obtain ⟨node₂, hattr₂, hsize₂⟩ := openFh_size hl hnum hk htrunc (h.handle r hr) ts n'
    have hsame : (Except.ok node₁ : Except (PyErr Sha) Inode) = .ok node₂ :=
      hattr₁.symm.trans (((h.later r hr ts [] n').2 node.id).trans hattr₂)
    rw [← hsize₁, Except.ok.inj hsame, hsize₂] at hsize
    exact hsize rfl

/-- A directory `d`, and a file `a` of three bytes. -/
def dirAndFile : List Event :=
  [.op (.mkdir rootIno [100] 0o755 0 0), .op (.create rootIno [97] 0o644 2 0 0),
    .op (.write 1 0 [5, 6, 7]), .op (.release 1)]

def dirNode : Inode := ⟨2, .dir, 0o40755, 0, 0, 0, 0, 0, 0, 2, none⟩
def fileNode : Inode := ⟨3, .file, 0o100644, 0, 0, 3, 0, 0, 0, 1, none⟩

/-- `create` of `a` for reading and writing. -/
theorem create_asOpen_rdwr :
    AsOpen ⟨⟨2, 1, by decide, by decide⟩, 0⟩
      (create ⟨⟨2, 1, by decide, by decide⟩, 0⟩ rootIno [97] 0o644 2 0 0 (fun _ => {})
        (Event.runAll ⟨⟨2, 1, by decide, by decide⟩, 0⟩ (fun _ => {}) dirAndFile 0
          (FsCore.empty 0 0 0 : FsCore Bytes)).1
        (Event.runAll ⟨⟨2, 1, by decide, by decide⟩, 0⟩ (fun _ => {}) dirAndFile 0
          (FsCore.empty 0 0 0 : FsCore Bytes)).2)
      (openFh ⟨⟨2, 1, by decide, by decide⟩, 0⟩ 3 2 (fun _ => {})
        (Event.runAll ⟨⟨2, 1, by decide, by decide⟩, 0⟩ (fun _ => {}) dirAndFile 0
          (FsCore.empty 0 0 0 : FsCore Bytes)).1
        (Event.runAll ⟨⟨2, 1, by decide, by decide⟩, 0⟩ (fun _ => {}) dirAndFile 0
          (FsCore.empty 0 0 0 : FsCore Bytes)).2) :=
  (create_asOpen _ (fun _ => {}) 0 0 0 dirAndFile 0 rfl
    (show _ = some fileNode by decide +kernel) 0o644 2 0 0 (by decide)).1 rfl rfl (.inl rfl)

/-- `create` of the directory `d` returns a handle, and `create` of `a` with `O_TRUNC` leaves its
three bytes. -/
theorem create_asOpen_trunc :
    let s := (Event.runAll ⟨⟨2, 1, by decide, by decide⟩, 0⟩ (fun _ => {}) dirAndFile 0
      (FsCore.empty 0 0 0 : FsCore Bytes)).2
    s.store.index.lookup rootIno [100] = some dirNode ∧
    ¬ AsOpen ⟨⟨2, 1, by decide, by decide⟩, 0⟩
      (create ⟨⟨2, 1, by decide, by decide⟩, 0⟩ rootIno [100] 0o644 2 0 0 (fun _ => {}) 16 s)
      (openFh ⟨⟨2, 1, by decide, by decide⟩, 0⟩ dirNode.id 2 (fun _ => {}) 16 s) ∧
    s.store.index.lookup rootIno [97] = some fileNode ∧
    ¬ AsOpen ⟨⟨2, 1, by decide, by decide⟩, 0⟩
      (create ⟨⟨2, 1, by decide, by decide⟩, 0⟩ rootIno [97] 0o644 (2 ||| oTrunc) 0 0 (fun _ => {})
        16 s)
      (openFh ⟨⟨2, 1, by decide, by decide⟩, 0⟩ fileNode.id (2 ||| oTrunc) (fun _ => {}) 16 s) := by
  refine ⟨by decide +kernel, fun h => ?_, by decide +kernel, fun h => ?_⟩
  · have := h.handle (2, dirNode) (by decide +kernel)
    revert this
    decide +kernel
  · have := (h.later (2, fileNode) (by decide +kernel) (fun _ => {}) [] 0).2 3
    revert this
    decide +kernel

end FsCore

end Tgfs
