import Mathlib.Data.Finset.Insert
import Tgfs.Cache.Writeback

/-!
# `FsCore` (`tgfs/fuse_ops.py`)

The filesystem operations over inode numbers. The state is the one of the writeback manager
with the table `_fh` of open handles and the set `_pending_unlink`.
-/

namespace Tgfs

structure FsCore (Sha : Type) extends Writeback Sha where
  fhSeq : Nat
  /-- `_fh`, in the order of insertion. -/
  fh : List (Nat × StateId)
  pendingUnlink : Finset Ino

abbrev FsRun (Sha α : Type) : Type := Run Tick (FsCore Sha) (PyErr Sha) α

/-! ## The flags of `open` -/

def oWronly : Nat := 0o1
def oRdwr : Nat := 0o2
def oAccmode : Nat := 0o3
def oExcl : Nat := 0o200
def oTrunc : Nat := 0o1000
def oAppend : Nat := 0o2000

def wantsWrite (flags : Nat) : Bool :=
  flags &&& oAccmode = oWronly || flags &&& oAccmode = oRdwr || flags &&& oAppend ≠ 0

namespace FsCore

variable {Sha : Type}

/-- A freshly mounted filesystem over an empty database. -/
def empty (now : Time) (uid gid : Nat) : FsCore Sha where
  store := Store.empty now uid gid
  files := fun _ => []
  linked := fun _ => none
  nextGen := 0
  heap := fun _ => { ino := 0, gen := 0 }
  nextState := 0
  states := []
  fhSeq := 1
  fh := []
  pendingUnlink := ∅

/-- A freshly mounted filesystem over an existing database: no file is open. -/
def mounted (store : Store Sha) : FsCore Sha := { empty 0 0 0 with store := store }

/-- A call of a method of the manager. -/
def wb {α : Type} (m : WbRun Sha α) : FsRun Sha α :=
  Run.zoom FsCore.toWriteback (fun w s => { s with toWriteback := w }) m

/-- A call of a method of the metadata index. -/
def index {α : Type} (f : Meta Sha → Except (PyErr Sha) α × Meta Sha) : FsRun Sha α :=
  Run.attempt fun s => ((f s.store.index).1,
    { s with store := { s.store with index := (f s.store.index).2 } })

def getInode (ino : Ino) : FsRun Sha (Option Inode) :=
  Run.gets fun s => s.store.index.getInode ino

def lookup (parent : Ino) (name : Str) : FsRun Sha (Option Inode) :=
  Run.gets fun s => s.store.index.lookup parent name

/-- `raise _err(code)`. -/
def err {α : Type} (code : Errno) : FsRun Sha α := Run.raise (.osError code)

/-- `_live`: the size of a file that has unflushed writes. -/
def live (n : Inode) : FsRun Sha Inode :=
  Run.gets fun s =>
    if n.kind = .file then
      match s.liveSize n.id with
      | some size => { n with size := size }
      | none => n
    else n

def getattr (ino : Ino) : FsRun Sha Inode := do
  match ← getInode ino with
  | none => err .enoent
  | some n => live n

def readdir (ino : Ino) : FsRun Sha (List (Str × Ino)) := do
  match ← getInode ino with
  | none => err .enoent
  | some n =>
    if !n.isDir then err .enotdir
    else Run.gets fun s => s.store.index.readdir ino

def ensureAbsent (parent : Ino) (name : Str) : FsRun Sha Unit := do
  match ← lookup parent name with
  | some _ => err .eexist
  | none => pure ()

/-! ## Handles -/

def findFh (s : FsCore Sha) (fh : Nat) : Option StateId :=
  (s.fh.find? fun p => p.1 = fh).map (·.2)

def isOpen (s : FsCore Sha) (ino : Ino) : Bool := s.fh.any fun p => (s.heap p.2).ino = ino

def newFh (sid : StateId) : FsRun Sha Nat :=
  Run.modifyGet fun s => (s.fhSeq, { s with fhSeq := s.fhSeq + 1, fh := s.fh ++ [(s.fhSeq, sid)] })

def getState (fh : Nat) : FsRun Sha StateId := do
  match ← Run.gets fun s => s.findFh fh with
  | none => err .ebadf
  | some sid => pure sid

/-- The directory entries and inodes that `create` makes. -/
def makeNode (parent : Ino) (name : Str) (mode : Nat) (kind : Kind) (uid gid : Nat)
    (target : Option Str) : FsRun Sha Inode := do
  let t ← Run.tick
  index (Meta.create t.now parent name mode kind uid gid target)

def mkdir (parent : Ino) (name : Str) (mode uid gid : Nat) : FsRun Sha Inode := do
  ensureAbsent parent name
  makeNode parent name (sIfdir ||| (mode &&& 0o7777)) .dir uid gid none

def rmdir (parent : Ino) (name : Str) : FsRun Sha Unit := do
  match ← lookup parent name with
  | none => err .enoent
  | some n =>
    if !n.isDir then err .enotdir
    else do
      let count ← Run.gets fun s => s.store.index.childCount n.id
      if count > 0 then err .enotempty
      else do
        let t ← Run.tick
        let _ ← index (Meta.unlinkDirent t.now parent name)
        pure ()

def createNode (parent : Ino) (name : Str) (mode uid gid : Nat) : FsRun Sha Inode := do
  ensureAbsent parent name
  makeNode parent name (sIfreg ||| (mode &&& 0o7777)) .file uid gid none

def symlink (parent : Ino) (name target : Str) (uid gid : Nat) : FsRun Sha Inode := do
  ensureAbsent parent name
  makeNode parent name (sIflnk ||| 0o777) .link uid gid (some target)

def link (ino newParent : Ino) (newName : Str) : FsRun Sha Inode := do
  match ← getInode ino with
  | none => err .enoent
  | some n =>
    if n.isDir then err .eperm
    else do
      ensureAbsent newParent newName
      let t ← Run.tick
      index (Meta.link t.now newParent newName ino)
      getattr ino

variable [DecidableEq Sha] [Sha256 Sha]

/-- Drop the content of an inode. -/
def freeInode (ino : Ino) : FsRun Sha Unit := do
  wb (Writeback.discard ino)
  wb (Writeback.callStore (Store.freeFile ino))

/-- What `unlink` and `rename` do with an inode that lost its last link. -/
def dropInode (ino : Ino) : FsRun Sha Unit := do
  let opened ← Run.gets fun s => s.isOpen ino
  if opened then Run.modify fun s => { s with pendingUnlink := insert ino s.pendingUnlink }
  else freeInode ino

def unlink (parent : Ino) (name : Str) : FsRun Sha Unit := do
  match ← lookup parent name with
  | none => err .enoent
  | some n =>
    if n.isDir then err .eisdir
    else do
      let t ← Run.tick
      let r ← index (Meta.unlinkDirent t.now parent name)
      if r.2 ≤ 0 then dropInode n.id else pure ()

def rename (oldp : Ino) (oldname : Str) (newp : Ino) (newname : Str) : FsRun Sha Unit := do
  match ← lookup oldp oldname with
  | none => err .enoent
  | some _ => do
    let full ← Run.gets fun s =>
      (s.store.index.lookup newp newname).any fun d =>
        d.isDir && s.store.index.childCount d.id > 0
    if full then err .enotempty
    else do
      let replaced ← index (Meta.rename oldp oldname newp newname)
      match replaced with
      | some ino => dropInode ino
      | none => pure ()

variable (cfg : WbConfig)

def setattr (ino : Ino) (a : Meta.Attrs) : FsRun Sha Inode := do
  match ← getInode ino with
  | none => err .enoent
  | some n => do
    match a.size with
    | some size =>
      if !n.isDir && size ≠ n.size then wb (Writeback.truncatePath cfg ino size) else pure ()
    | none => pure ()
    let t ← Run.tick
    index fun m => (.ok (), m.setattr t.now ino { a with size := none })
    getattr ino

def openFh (ino : Ino) (flags : Nat) : FsRun Sha Nat := do
  match ← getInode ino with
  | none => err .enoent
  | some n =>
    if n.isDir then err .eisdir
    else do
      if flags &&& oTrunc ≠ 0 then wb (Writeback.truncatePath cfg ino 0) else pure ()
      let sid ← wb (Writeback.openFile cfg ino (wantsWrite flags))
      newFh sid

def create (parent : Ino) (name : Str) (mode flags uid gid : Nat) : FsRun Sha (Nat × Inode) := do
  let node ← do
    match ← lookup parent name with
    | some n => if flags &&& oExcl ≠ 0 then err .eexist else pure n
    | none => makeNode parent name (sIfreg ||| (mode &&& 0o7777)) .file uid gid none
  let sid ← wb (Writeback.openFile cfg node.id true)
  let fh ← newFh sid
  pure (fh, node)

def read (fh off size : Nat) : FsRun Sha Bytes := do
  let sid ← getState fh
  wb (Writeback.onState sid (Wb.read cfg size off))

def write (fh off : Nat) (data : Bytes) : FsRun Sha Nat := do
  let sid ← getState fh
  wb (Writeback.onState sid (Wb.write cfg data off))

def flush (fh : Nat) : FsRun Sha Unit := do
  let sid ← getState fh
  wb (Writeback.onState sid (Wb.flush cfg))

def fsync (fh : Nat) : FsRun Sha Unit := do
  let sid ← getState fh
  wb (Writeback.onState sid (Wb.sync cfg))

def release (fh : Nat) : FsRun Sha Unit := do
  let sid ← Run.modifyGet fun s : FsCore Sha =>
    (s.findFh fh, { s with fh := s.fh.filter fun p => p.1 ≠ fh })
  match sid with
  | none => pure ()
  | some sid => do
    wb (Writeback.release cfg sid)
    let ino ← Run.gets fun s => (s.heap sid).ino
    let last ← Run.gets fun s => decide (ino ∈ s.pendingUnlink) && !s.isOpen ino
    if last then do
      Run.modify fun s => { s with pendingUnlink := s.pendingUnlink.erase ino }
      freeInode ino
    else pure ()

end FsCore

/-! ## Runs -/

/-- A call of an operation, or a pass of the reaper. -/
inductive FsOp where
  | mkdir (parent : Ino) (name : Str) (mode uid gid : Nat)
  | rmdir (parent : Ino) (name : Str)
  | createNode (parent : Ino) (name : Str) (mode uid gid : Nat)
  | symlink (parent : Ino) (name target : Str) (uid gid : Nat)
  | link (ino newParent : Ino) (newName : Str)
  | unlink (parent : Ino) (name : Str)
  | rename (oldp : Ino) (oldname : Str) (newp : Ino) (newname : Str)
  | setattr (ino : Ino) (attrs : Meta.Attrs)
  | openFh (ino : Ino) (flags : Nat)
  | create (parent : Ino) (name : Str) (mode flags uid gid : Nat)
  | read (fh off size : Nat)
  | write (fh off : Nat) (data : Bytes)
  | flush (fh : Nat)
  | fsync (fh : Nat)
  | release (fh : Nat)
  | reap

namespace FsOp

variable {Sha : Type} [DecidableEq Sha] [Sha256 Sha]

/-- The call, with the exceptions that it logs and does not raise. -/
def perform (cfg : WbConfig) : FsOp → FsRun Sha (List (PyErr Sha))
  | .mkdir parent name mode uid gid => do
    let _ ← FsCore.mkdir parent name mode uid gid
    pure []
  | .rmdir parent name => do
    FsCore.rmdir parent name
    pure []
  | .createNode parent name mode uid gid => do
    let _ ← FsCore.createNode parent name mode uid gid
    pure []
  | .symlink parent name target uid gid => do
    let _ ← FsCore.symlink parent name target uid gid
    pure []
  | .link ino newParent newName => do
    let _ ← FsCore.link ino newParent newName
    pure []
  | .unlink parent name => do
    FsCore.unlink parent name
    pure []
  | .rename oldp oldname newp newname => do
    FsCore.rename oldp oldname newp newname
    pure []
  | .setattr ino attrs => do
    let _ ← FsCore.setattr cfg ino attrs
    pure []
  | .openFh ino flags => do
    let _ ← FsCore.openFh cfg ino flags
    pure []
  | .create parent name mode flags uid gid => do
    let _ ← FsCore.create cfg parent name mode flags uid gid
    pure []
  | .read fh off size => do
    let _ ← FsCore.read cfg fh off size
    pure []
  | .write fh off data => do
    let _ ← FsCore.write cfg fh off data
    pure []
  | .flush fh => do
    FsCore.flush cfg fh
    pure []
  | .fsync fh => do
    FsCore.fsync cfg fh
    pure []
  | .release fh => do
    FsCore.release cfg fh
    pure []
  | .reap => FsCore.wb (Writeback.reapOnce cfg false)

/-- The operations one after the other, each with its outcome; an exception ends its
operation, not the run. -/
def runAll (cfg : WbConfig) (ts : Nat → Tick) : List FsOp → Nat → FsCore Sha →
    List (Except (PyErr Sha) (List (PyErr Sha))) × Nat × FsCore Sha
  | [], n, s => ([], n, s)
  | op :: ops, n, s =>
    let o := op.perform cfg ts n s
    let rest := runAll cfg ts ops o.2.1 o.2.2
    (o.1 :: rest.1, rest.2)

end FsOp

/-! ## Runs with shutdowns -/

/-- An operation, a pass of the reaper, or the flush at shutdown. -/
inductive Event where
  | op (o : FsOp)
  | shutdown

namespace Event

variable {Sha : Type} [DecidableEq Sha] [Sha256 Sha]

def perform (cfg : WbConfig) : Event → FsRun Sha (List (PyErr Sha))
  | .op o => o.perform cfg
  | .shutdown => do
    FsCore.wb (Writeback.shutdown cfg)
    pure []

/-- The events one after the other; an exception ends its event, not the run. -/
def runAll (cfg : WbConfig) (ts : Nat → Tick) : List Event → Nat → FsCore Sha → Nat × FsCore Sha
  | [], n, s => (n, s)
  | e :: es, n, s =>
    let o := e.perform cfg ts n s
    runAll cfg ts es o.2.1 o.2.2

end Event

end Tgfs
