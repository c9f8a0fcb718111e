import Mathlib.Data.List.Lex
import Mathlib.Data.List.Sort
import Mathlib.Logic.Function.Basic
import Tgfs.Misc.PosixBytes

/-!
# The metadata index (`tgfs/meta.py`)

The four tables of the SQLite schema and the methods of `Meta` over them. `inodes` and `blobs`
are only ever addressed by primary key and are maps; `dirents` and `chunks` are scanned and are
lists of rows. Every method runs under the one re-entrant lock and ends in a commit, so each is
one function on the tables. An exception leaves behind what the method's earlier statements
did: they stay in the open transaction, which later calls on the same connection see and
commit.
-/

namespace Tgfs

abbrev Ino : Type := Nat
/-- A Telegram message id. -/
abbrev Handle : Type := Nat
abbrev Time : Type := Nat
/-- A Python `str`: its code points, lone surrogates included. -/
abbrev Str : Type := List Nat

/-- `hashlib.sha256(data).hexdigest()`. -/
class Sha256 (Sha : Type) where
  digest : Bytes → Sha

def sha256 {Sha : Type} [Sha256 Sha] (data : Bytes) : Sha := Sha256.digest data

/-- A digest without collisions: every content is its own hash. -/
instance : Sha256 Bytes := ⟨id⟩

inductive Errno where
  | enoent | eexist | enotdir | eisdir | enotempty | eperm | einval | ebadf
  deriving DecidableEq, Repr

/-- The exceptions the modelled code raises. -/
inductive PyErr (Sha : Type) where
  /-- `_err(errno.…)` of `fuse_ops.py`. -/
  | osError (code : Errno)
  /-- `FileNotFoundError(name)`. -/
  | fileNotFound (name : Str)
  /-- `sqlite3.IntegrityError`: a row with this primary key exists. -/
  | integrityError
  /-- A subscript of the `None` that `fetchone()` returned. -/
  | typeError
  /-- `get_inode(ino).size` where `get_inode` returned `None`. -/
  | attributeError
  /-- An operation on a closed file object. -/
  | closedFile
  /-- `OSError(f"clean chunk \x7bidx\x7d of inode \x7bino\x7d: blob missing")`. -/
  | cleanChunkMissing (idx : Nat) (ino : Ino)
  /-- `FileNotFoundError(f"blob \x7bsha\x7d not in index")`. -/
  | blobNotInIndex (sha : Sha)
  /-- `OSError(f"blob \x7bsha[:12]\x7d failed integrity check")`. -/
  | integrityCheck (sha : Sha)
  /-- `FileNotFoundError(f"no blob with handle \x7bhandle\x7d")`. -/
  | noBlob (handle : Handle)
  | uploadFailed
  | downloadFailed
  | deleteFailed
  /-- `src.read` raised. -/
  | readFailed
  /-- `concurrent.futures.CancelledError`. -/
  | cancelled
  deriving DecidableEq, Repr

/-- The `kind` column: `'f'`, `'d'` or `'l'`. -/
inductive Kind where
  | file | dir | link
  deriving DecidableEq, Repr

structure Inode where
  id : Ino
  kind : Kind
  mode : Nat
  uid : Nat
  gid : Nat
  size : Nat
  atime : Time
  mtime : Time
  ctime : Time
  nlink : Int
  target : Option Str
  deriving DecidableEq, Repr

namespace Inode

def isDir (n : Inode) : Bool := n.kind = .dir
def isLink (n : Inode) : Bool := n.kind = .link

end Inode

structure Dirent where
  parent : Ino
  name : Str
  child : Ino
  deriving DecidableEq, Repr

/-- A row of `chunks` without its `inode` column. -/
structure Chunk (Sha : Type) where
  idx : Nat
  off : Nat
  len : Nat
  sha : Sha
  deriving DecidableEq, Repr

/-- A row of `blobs` without its `sha` column. -/
structure Blob where
  handle : Handle
  len : Nat
  refcount : Nat
  deriving DecidableEq, Repr

structure Meta (Sha : Type) where
  inodes : Ino → Option Inode
  /-- The next `AUTOINCREMENT` id. -/
  nextIno : Ino
  dirents : List Dirent
  chunks : List (Ino × Chunk Sha)
  blobs : Sha → Option Blob

def rootIno : Ino := 1

/-- `stat.S_IFDIR`, `stat.S_IFREG` and `stat.S_IFLNK`. -/
def sIfdir : Nat := 0o040000
def sIfreg : Nat := 0o100000
def sIflnk : Nat := 0o120000

namespace Meta

variable {Sha : Type}

/-- A database that `_ensure_root` has just filled. -/
def fresh (now : Time) (uid gid : Nat) : Meta Sha where
  inodes := Function.update (fun _ => none) rootIno
    (some ⟨rootIno, .dir, sIfdir ||| 0o755, uid, gid, 0, now, now, now, 2, none⟩)
  nextIno := 2
  dirents := []
  chunks := []
  blobs := fun _ => none

/-! ## Inode access -/

/-- `SELECT * FROM inodes WHERE id=?`. -/
def getInode (m : Meta Sha) (ino : Ino) : Option Inode :=
  (m.inodes ino).map fun n => { n with id := ino }

/-- `SELECT child FROM dirents WHERE parent=? AND name=?`. -/
def child (m : Meta Sha) (parent : Ino) (name : Str) : Option Ino :=
  (m.dirents.find? fun d => d.parent = parent ∧ d.name = name).map (·.child)

def lookup (m : Meta Sha) (parent : Ino) (name : Str) : Option Inode :=
  match m.child parent name with
  | none => none
  | some c => m.getInode c

/-- The loop of `resolve` over the parts that are left. -/
def resolveFrom (m : Meta Sha) : Option Inode → List Str → Option Inode
  | cur, [] => cur
  | none, _ :: _ => none
  | some n, part :: parts => if n.isDir then m.resolveFrom (m.lookup n.id part) parts else none

/-- The code point of `/`. -/
def slash : Nat := 47

/-- `[p for p in path.split("/") if p]`. -/
def pathParts (path : Str) : List Str := (path.splitOn slash).filter (· ≠ [])

/-- Resolve an absolute path to an inode, without following symlinks. -/
def resolve (m : Meta Sha) (path : Str) : Option Inode :=
  m.resolveFrom (m.getInode rootIno) (pathParts path)

/-- `SELECT name, child FROM dirents WHERE parent=? ORDER BY name`. -/
def readdir (m : Meta Sha) (parent : Ino) : List (Str × Ino) :=
  ((m.dirents.filter fun d => d.parent = parent).map fun d => (d.name, d.child)).insertionSort
    fun a b => a.1 ≤ b.1

def childCount (m : Meta Sha) (parent : Ino) : Nat :=
  m.dirents.countP fun d => d.parent = parent

/-! ## Mutations -/

/-- `UPDATE inodes SET … WHERE id=?`. -/
def updateInode (m : Meta Sha) (ino : Ino) (f : Inode → Inode) : Meta Sha :=
  { m with inodes := Function.update m.inodes ino ((m.inodes ino).map f) }

/-- `DELETE FROM inodes WHERE id=?`. -/
def deleteInode (m : Meta Sha) (ino : Ino) : Meta Sha :=
  { m with inodes := Function.update m.inodes ino none }

def addNlink (k : Int) (n : Inode) : Inode := { n with nlink := n.nlink + k }

def insertDirent (m : Meta Sha) (parent : Ino) (name : Str) (c : Ino) : Meta Sha :=
  { m with dirents := m.dirents ++ [⟨parent, name, c⟩] }

def deleteDirent (m : Meta Sha) (parent : Ino) (name : Str) : Meta Sha :=
  { m with dirents := m.dirents.filter fun d => ¬ (d.parent = parent ∧ d.name = name) }

def create (now : Time) (parent : Ino) (name : Str) (mode : Nat) (kind : Kind) (uid gid : Nat)
    (target : Option Str) (m : Meta Sha) : Except (PyErr Sha) Inode × Meta Sha :=
  let nlink : Int := if kind = .dir then 2 else 1
  let ino := m.nextIno
  let row : Inode := ⟨ino, kind, mode, uid, gid, 0, now, now, now, nlink, target⟩
  let m₁ : Meta Sha :=
    { m with inodes := Function.update m.inodes ino (some row), nextIno := ino + 1 }
  if (m₁.child parent name).isSome then (.error .integrityError, m₁)
  else
    let m₂ := m₁.insertDirent parent name ino
    let m₃ := if kind = .dir then m₂.updateInode parent (addNlink 1) else m₂
    match m₃.getInode ino with
    | some n => (.ok n, m₃)
    | none => (.error .typeError, m₃)

def link (now : Time) (parent : Ino) (name : Str) (targetIno : Ino) (m : Meta Sha) :
    Except (PyErr Sha) Unit × Meta Sha :=
  if (m.child parent name).isSome then (.error .integrityError, m)
  else
    (.ok (), (m.insertDirent parent name targetIno).updateInode targetIno
      fun n => { n with nlink := n.nlink + 1, ctime := now })

/-- Remove a dirent. Returns the child and the link count that remains. -/
def unlinkDirent (now : Time) (parent : Ino) (name : Str) (m : Meta Sha) :
    Except (PyErr Sha) (Ino × Int) × Meta Sha :=
  match m.child parent name with
  | none => (.error (.fileNotFound name), m)
  | some c =>
    match m.getInode c with
    | none => (.error .typeError, m)
    | some n =>
      let m₁ := (m.deleteDirent parent name).updateInode c
        fun n => { n with nlink := n.nlink - 1, ctime := now }
      let m₂ := if n.kind = .dir then m₁.updateInode parent (addNlink (-1)) else m₁
      match m₂.getInode c with
      | none => (.error .typeError, m₂)
      | some n' =>
        (.ok (c, n'.nlink), if n'.nlink ≤ 0 then m₂.deleteInode c else m₂)

/-- The part of `rename` that takes the destination's entry away: the inode to free, if its
link count reached 0. -/
def replaceDst (np : Ino) (nname : Str) (m : Meta Sha) :
    Except (PyErr Sha) (Option Ino) × Meta Sha :=
  match m.child np nname with
  | none => (.ok none, m)
  | some replaced =>
    match m.getInode replaced with
    | none => (.error .typeError, m)
    | some r =>
      let m₁ := (m.deleteDirent np nname).updateInode replaced (addNlink (-1))
      let m₂ := if r.kind = .dir then m₁.updateInode np (addNlink (-1)) else m₁
      match m₂.getInode replaced with
      | none => (.error .typeError, m₂)
      | some r' =>
        if r'.nlink > 0 then (.ok none, m₂) else (.ok (some replaced), m₂.deleteInode replaced)

/-- `UPDATE dirents SET parent=?, name=? WHERE parent=? AND name=?`. -/
def moveDirent (op : Ino) (oname : Str) (np : Ino) (nname : Str) (m : Meta Sha) : Meta Sha :=
  { m with dirents := m.dirents.map fun d =>
      if d.parent = op ∧ d.name = oname then { d with parent := np, name := nname } else d }

/-- Move a dirent; an existing destination is replaced. Returns the inode the destination
named if it has no link left. -/
def rename (op : Ino) (oname : Str) (np : Ino) (nname : Str) (m : Meta Sha) :
    Except (PyErr Sha) (Option Ino) × Meta Sha :=
  match m.child op oname with
  | none => (.error (.fileNotFound oname), m)
  | some src =>
    match m.getInode src with
    | none => (.error .typeError, m)
    | some s =>
      match m.replaceDst np nname with
      | (.error e, m₁) => (.error e, m₁)
      | (.ok replaced, m₁) =>
        let m₂ := m₁.moveDirent op oname np nname
        let m₃ := if s.kind = .dir ∧ op ≠ np then
          (m₂.updateInode op (addNlink (-1))).updateInode np (addNlink 1) else m₂
        (.ok replaced, m₃)

/-- The columns `setattr` may set. -/
structure Attrs where
  mode : Option Nat := none
  uid : Option Nat := none
  gid : Option Nat := none
  size : Option Nat := none
  atime : Option Time := none
  mtime : Option Time := none
  deriving DecidableEq, Repr

def setattr (now : Time) (ino : Ino) (a : Attrs) (m : Meta Sha) : Meta Sha :=
  if a = {} then m
  else m.updateInode ino fun n =>
    { n with
      mode := a.mode.getD n.mode, uid := a.uid.getD n.uid, gid := a.gid.getD n.gid
      size := a.size.getD n.size, atime := a.atime.getD n.atime, mtime := a.mtime.getD n.mtime
      ctime := now }

def setSize (now : Time) (ino : Ino) (size : Nat) (m : Meta Sha) : Meta Sha :=
  m.updateInode ino fun n => { n with size := size, mtime := now, ctime := now }

/-! ## Chunks -/

/-- `SELECT idx,off,len,sha FROM chunks WHERE inode=? ORDER BY idx`. -/
def getChunks (m : Meta Sha) (ino : Ino) : List (Chunk Sha) :=
  ((m.chunks.filter fun r => r.1 = ino).map Prod.snd).insertionSort fun a b => a.idx ≤ b.idx

def getChunkShas (m : Meta Sha) (ino : Ino) : List Sha := (m.getChunks ino).map (·.sha)

/-- Replace the chunk list of an inode. Its callers pass one row for each index, as the
primary key `(inode, idx)` asks. -/
def setChunks (m : Meta Sha) (ino : Ino) (chunks : List (Chunk Sha)) : Meta Sha :=
  { m with chunks := (m.chunks.filter fun r => r.1 ≠ ino) ++ chunks.map fun c => (ino, c) }

/-! ## Blobs -/

variable [DecidableEq Sha]

def blobGet (m : Meta Sha) (sha : Sha) : Option Blob := m.blobs sha

def putBlob (m : Meta Sha) (sha : Sha) (b : Option Blob) : Meta Sha :=
  { m with blobs := Function.update m.blobs sha b }

def blobCreate (m : Meta Sha) (sha : Sha) (handle : Handle) (length : Nat) : Meta Sha :=
  m.putBlob sha (some ⟨handle, length, 1⟩)

def blobIncref (m : Meta Sha) (sha : Sha) : Meta Sha :=
  m.putBlob sha ((m.blobs sha).map fun b => { b with refcount := b.refcount + 1 })

/-- Drop one reference. If it was the last, the row goes and its handle is returned, so that
the caller can remove the message. -/
def blobDecref (m : Meta Sha) (sha : Sha) : Option Handle × Meta Sha :=
  match m.blobs sha with
  | none => (none, m)
  | some b =>
    if b.refcount ≤ 1 then (some b.handle, m.putBlob sha none)
    else (none, m.putBlob sha (some { b with refcount := b.refcount - 1 }))

end Meta

end Tgfs
