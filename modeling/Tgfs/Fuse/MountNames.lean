import Tgfs.Fuse.Mount
import Tgfs.Misc.Utf8

/-!
# Names through the mount (`tgfs/mount.py`)

The kernel passes names as bytes, and the core and the index have them as `str`. A name is
decoded on the way in and encoded on the way out; in between, sqlite3 takes it as the parameter
of a query.
-/

namespace Tgfs

/-- What a handler raises. -/
inductive MountErr (Sha : Type) where
  /-- What the core raised. -/
  | core (e : PyErr Sha)
  /-- `UnicodeEncodeError`: it is no `OSError`, and `_call` lets it through. -/
  | unicodeEncode
  deriving DecidableEq, Repr

abbrev MountRun (Sha α : Type) : Type := Run Tick (FsCore Sha) (MountErr Sha) α

/-- sqlite3 binds a `str` without surrogates only. -/
def Bindable (s : Str) : Prop := ∀ n ∈ s, ¬ Utf8.Surrogate n

instance (s : Str) : Decidable (Bindable s) := inferInstanceAs (Decidable (∀ n ∈ s, _))

namespace FsCore

variable {Sha : Type}

/-- `FsCore.lookup`, with the error of a name that is not there. -/
def lookupLive (parent : Ino) (name : Str) : FsRun Sha Inode := do
  match ← lookup parent name with
  | none => err .enoent
  | some n => live n

end FsCore

namespace ByteOperations

variable {Sha : Type}

/-- `_name`. -/
def name (b : Bytes) : Str := Utf8.decode b

/-- `_bname`. -/
def bname (s : Str) : MountRun Sha Bytes :=
  match Utf8.encode s with
  | some b => pure b
  | none => Run.raise .unicodeEncode

/-- `_call`. -/
def call {α : Type} (m : FsRun Sha α) : MountRun Sha α := fun ts n s =>
  ((m ts n s).1.mapError .core, (m ts n s).2)

/-- `_call` of an operation on a name: its first statement is a query with the name. -/
def callNamed {α : Type} (nm : Str) (m : FsRun Sha α) : MountRun Sha α := do
  Run.require (Bindable nm) .unicodeEncode
  call m

def lookup (parent : Ino) (nameb : Bytes) : MountRun Sha Inode :=
  let nm := name nameb
  if nm = [46] then call (FsCore.getattr parent)
  else if nm = [46, 46] then call (FsCore.getattr parent)
  else callNamed nm (FsCore.lookupLive parent nm)

/-- An entry, with the name as the kernel gets it. -/
def entry (e : Str × Ino) : MountRun Sha (Bytes × Inode) := do
  let node ← call (FsCore.getattr e.2)
  let b ← bname e.1
  pure (b, node)

def readdir (fh : Ino) (startId room : Nat) : MountRun Sha (List (DirReply Bytes)) := do
  let entries ← call (FsCore.readdir fh)
  TgfsOperations.readdirFrom entry startId room 0 entries

def mkdir (parent : Ino) (nameb : Bytes) (mode uid gid : Nat) : MountRun Sha Inode :=
  callNamed (name nameb) (FsCore.mkdir parent (name nameb) mode uid gid)

def create [DecidableEq Sha] [Sha256 Sha] (cfg : WbConfig) (parent : Ino) (nameb : Bytes)
    (mode flags uid gid : Nat) : MountRun Sha (Nat × Inode) :=
  callNamed (name nameb) (FsCore.create cfg parent (name nameb) mode flags uid gid)

end ByteOperations

end Tgfs
