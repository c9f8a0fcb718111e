import Tgfs.Misc.Conn
import Tgfs.MetaSteps

/-!
# The mutators, statement by statement

The methods of `Meta` that change the database, as the SQL statements that they execute on the
one connection. `Meta.create` and the others give the tables behind such a method in one step;
here it can be seen what is pending and what is durable when a statement in the middle raises.
-/

namespace Tgfs

/-- Statements on the connection of the index. -/
abbrev MetaDb (Sha α : Type) : Type := ConnRun (Meta Sha) (PyErr Sha) α

namespace Meta

variable {Sha : Type}

/-- The entry `(np, nname)` is in the way of one that moves there. -/
def Taken (op : Ino) (oname : Str) (np : Ino) (nname : Str) (m : Meta Sha) : Prop :=
  (m.child op oname).isSome ∧ ¬ (op = np ∧ oname = nname) ∧ (m.child np nname).isSome

instance (op : Ino) (oname : Str) (np : Ino) (nname : Str) :
    DecidablePred (@Taken Sha op oname np nname) :=
  fun _ => inferInstanceAs (Decidable (_ ∧ _ ∧ _))

/-- A row of `chunks` with this primary key. -/
def HasChunk (ino : Ino) (idx : Nat) (m : Meta Sha) : Prop :=
  ∃ r ∈ m.chunks, r.1 = ino ∧ r.2.idx = idx

instance (ino : Ino) (idx : Nat) : DecidablePred (@HasChunk Sha ino idx) :=
  fun _ => inferInstanceAs (Decidable (∃ r ∈ _, _))

def addChunk (ino : Ino) (c : Chunk Sha) (m : Meta Sha) : Meta Sha :=
  { m with chunks := m.chunks ++ [(ino, c)] }

end Meta

namespace MetaDb

open Conn (select update updateGet execute commit)

variable {Sha : Type}

/-! ## Statements -/

/-- `INSERT INTO inodes …`: the `lastrowid`. -/
def insertInode (row : Ino → Inode) : MetaDb Sha Ino :=
  updateGet fun m => (m.nextIno, m.addRow (row m.nextIno))

def updateInode (ino : Ino) (f : Inode → Inode) : MetaDb Sha Unit := update (·.updateInode ino f)

def deleteInode (ino : Ino) : MetaDb Sha Unit := update (·.deleteInode ino)

/-- `SELECT … FROM inodes WHERE id=?` with a subscript of `fetchone()`. -/
def inodeColumn {α : Type} (column : Inode → α) (ino : Ino) : MetaDb Sha α := do
  match ← select (·.getInode ino) with
  | some n => pure (column n)
  | none => Run.raise .typeError

/-- `INSERT INTO dirents …`. -/
def insertDirent (parent : Ino) (name : Str) (c : Ino) : MetaDb Sha Unit :=
  execute fun m => if (m.child parent name).isSome then .error .integrityError
    else .ok (m.insertDirent parent name c)

def deleteDirent (parent : Ino) (name : Str) : MetaDb Sha Unit :=
  update (·.deleteDirent parent name)

/-- `UPDATE dirents SET parent=?, name=? WHERE parent=? AND name=?`. -/
def moveDirent (op : Ino) (oname : Str) (np : Ino) (nname : Str) : MetaDb Sha Unit :=
  execute fun m => if m.Taken op oname np nname then .error .integrityError
    else .ok (m.moveDirent op oname np nname)

/-- `DELETE FROM chunks WHERE inode=?`. -/
def deleteChunks (ino : Ino) : MetaDb Sha Unit := update (·.setChunks ino [])

/-- `INSERT INTO chunks …`. -/
def insertChunk (ino : Ino) (c : Chunk Sha) : MetaDb Sha Unit :=
  execute fun m => if m.HasChunk ino c.idx then .error .integrityError else .ok (m.addChunk ino c)

/-- `executemany`: the rows before one that violates the primary key stay. -/
def insertChunks (ino : Ino) : List (Chunk Sha) → MetaDb Sha Unit
  | [] => pure ()
  | c :: cs => do
    insertChunk ino c
    insertChunks ino cs

/-! ## Methods -/

def create (now : Time) (parent : Ino) (name : Str) (mode : Nat) (kind : Kind) (uid gid : Nat)
    (target : Option Str) : MetaDb Sha Inode := do
  let nlink : Int := if kind = .dir then 2 else 1
  let ino ← insertInode fun id => ⟨id, kind, mode, uid, gid, 0, now, now, now, nlink, target⟩
  insertDirent parent name ino
  if kind = .dir then updateInode parent (Meta.addNlink 1)
  commit
  inodeColumn id ino

def link (now : Time) (parent : Ino) (name : Str) (targetIno : Ino) : MetaDb Sha Unit := do
  insertDirent parent name targetIno
  updateInode targetIno fun n => { n with nlink := n.nlink + 1, ctime := now }
  commit

def unlinkDirent (now : Time) (parent : Ino) (name : Str) : MetaDb Sha (Ino × Int) := do
  match ← select (·.child parent name) with
  | none => Run.raise (.fileNotFound name)
  | some c =>
    let kind ← inodeColumn (·.kind) c
    deleteDirent parent name
    updateInode c fun n => { n with nlink := n.nlink - 1, ctime := now }
    if kind = .dir then updateInode parent (Meta.addNlink (-1))
    let nlink ← inodeColumn (·.nlink) c
    if nlink ≤ 0 then deleteInode c
    commit
    pure (c, nlink)

/-- The part of `rename` that takes the destination's entry away. -/
def replaceDst (np : Ino) (nname : Str) : MetaDb Sha (Option Ino) := do
  match ← select (·.child np nname) with
  | none => pure none
  | some replaced =>
    let rk ← inodeColumn (·.kind) replaced
    deleteDirent np nname
    updateInode replaced (Meta.addNlink (-1))
    if rk = .dir then updateInode np (Meta.addNlink (-1))
    let rem ← inodeColumn (·.nlink) replaced
    if rem > 0 then pure none
    else do
      deleteInode replaced
      pure (some replaced)

def rename (op : Ino) (oname : Str) (np : Ino) (nname : Str) : MetaDb Sha (Option Ino) := do
  match ← select (·.child op oname) with
  | none => Run.raise (.fileNotFound oname)
  | some src =>
    let srcKind ← inodeColumn (·.kind) src
    let replaced ← replaceDst np nname
    moveDirent op oname np nname
    if srcKind = .dir ∧ op ≠ np then do
      updateInode op (Meta.addNlink (-1))
      updateInode np (Meta.addNlink 1)
    commit
    pure replaced

/-- With nothing to set, it returns before it takes the lock. -/
def setattr (now : Time) (ino : Ino) (a : Meta.Attrs) : MetaDb Sha Unit :=
  if a = {} then pure ()
  else do
    update (Meta.setattr now ino a)
    commit

def setSize (now : Time) (ino : Ino) (size : Nat) : MetaDb Sha Unit := do
  update (Meta.setSize now ino size)
  commit

def setChunks (ino : Ino) (chunks : List (Chunk Sha)) : MetaDb Sha Unit := do
  deleteChunks ino
  insertChunks ino chunks
  commit

variable [DecidableEq Sha]

def blobCreate (sha : Sha) (handle : Handle) (length : Nat) : MetaDb Sha Unit := do
  execute fun m => if (m.blobs sha).isSome then .error .integrityError
    else .ok (m.blobCreate sha handle length)
  commit

def blobIncref (sha : Sha) : MetaDb Sha Unit := do
  update (·.blobIncref sha)
  commit

def blobDecref (sha : Sha) : MetaDb Sha (Option Handle) := do
  match ← select (·.blobGet sha) with
  | none => pure none
  | some b =>
    if b.refcount ≤ 1 then do
      update (·.putBlob sha none)
      commit
      pure (some b.handle)
    else do
      update (·.putBlob sha (some { b with refcount := b.refcount - 1 }))
      commit
      pure none

end MetaDb

/-! ## Calls -/

/-- A call of a mutator. -/
inductive MetaCall (Sha : Type) where
  | create (now : Time) (parent : Ino) (name : Str) (mode : Nat) (kind : Kind) (uid gid : Nat)
      (target : Option Str)
  | link (now : Time) (parent : Ino) (name : Str) (targetIno : Ino)
  | unlinkDirent (now : Time) (parent : Ino) (name : Str)
  | rename (op : Ino) (oname : Str) (np : Ino) (nname : Str)
  | setattr (now : Time) (ino : Ino) (a : Meta.Attrs)
  | setSize (now : Time) (ino : Ino) (size : Nat)
  | setChunks (ino : Ino) (chunks : List (Chunk Sha))
  | blobCreate (sha : Sha) (handle : Handle) (length : Nat)
  | blobIncref (sha : Sha)
  | blobDecref (sha : Sha)

namespace MetaCall

variable {Sha : Type} [DecidableEq Sha]

/-- The method of a call. What it returns is dropped. -/
def run : MetaCall Sha → MetaDb Sha Unit
  | .create now parent name mode kind uid gid target => do
    let _ ← MetaDb.create now parent name mode kind uid gid target
    pure ()
  | .link now parent name targetIno => MetaDb.link now parent name targetIno
  | .unlinkDirent now parent name => do
    let _ ← MetaDb.unlinkDirent now parent name
    pure ()
  | .rename op oname np nname => do
    let _ ← MetaDb.rename op oname np nname
    pure ()
  | .setattr now ino a => MetaDb.setattr now ino a
  | .setSize now ino size => MetaDb.setSize now ino size
  | .setChunks ino chunks => MetaDb.setChunks ino chunks
  | .blobCreate sha handle length => MetaDb.blobCreate sha handle length
  | .blobIncref sha => MetaDb.blobIncref sha
  | .blobDecref sha => do
    let _ ← MetaDb.blobDecref sha
    pure ()

def perform (call : MetaCall Sha) (c : Conn (Meta Sha)) : Except (PyErr Sha) Unit × Conn (Meta Sha) :=
  ((call.run (fun _ => ()) 0 c).1, (call.run (fun _ => ()) 0 c).2.2)

/-- Calls one after the other, whether they raise or not. -/
def performAll (calls : List (MetaCall Sha)) (c : Conn (Meta Sha)) : Conn (Meta Sha) :=
  calls.foldl (fun c call => (call.perform c).2) c

end MetaCall

end Tgfs
