import Tgfs.Fuse.FsCore

/-!
# Listing a directory through the mount (`tgfs/mount.py`)

`TgfsOperations.readdir` hands the kernel the entries of a directory one by one, each with the
id by which a later call is to continue, until the kernel's buffer is full. The kernel goes on
with the id of the last entry it has taken. How many entries a buffer takes is up to the kernel.
-/

namespace Tgfs

/-- What the kernel takes with one `readdir_reply`; the name is a `N`. -/
structure DirReply (N : Type) where
  id : Nat
  name : N
  node : Inode
  deriving DecidableEq, Repr

namespace TgfsOperations

variable {Sha N ε : Type}

/-- The loop of `readdir` from index `i` on; the buffer has room for `room` more entries. What an
entry is handed over as, `entry` makes of it. -/
def readdirFrom (entry : Str × Ino → Run Tick (FsCore Sha) ε (N × Inode)) (startId : Nat) :
    Nat → Nat → List (Str × Ino) → Run Tick (FsCore Sha) ε (List (DirReply N))
  | _, _, [] => pure []
  | room, i, e :: entries =>
    if i + 1 ≤ startId then readdirFrom entry startId room (i + 1) entries
    else do
      let (name, node) ← entry e
      match room with
      | 0 => pure []
      | room + 1 => do
        let rest ← readdirFrom entry startId room (i + 1) entries
        pure (⟨i + 1, name, node⟩ :: rest)

/-- An entry, with the name as the core has it. -/
def entry (e : Str × Ino) : FsRun Sha (Str × Inode) := do
  let node ← FsCore.getattr e.2
  pure (e.1, node)

def readdir (fh : Ino) (startId room : Nat) : FsRun Sha (List (DirReply Str)) := do
  let entries ← FsCore.readdir fh
  readdirFrom entry startId room 0 entries

end TgfsOperations

/-! ## A listing -/

section Listing

variable {Sha : Type} [DecidableEq Sha] [Sha256 Sha] (cfg : WbConfig) (ts : Nat → Tick) (dir : Ino)

/-- The id by which the kernel goes on after a call. -/
def nextId (startId : Nat) : Except (PyErr Sha) (List (DirReply Str)) → Nat
  | .ok replies => replies.getLast?.elim startId (·.id)
  | .error _ => startId

/-- One listing of `dir`: for each call the room in the kernel's buffer, and the operations that
run before the next call. The result is what the calls return. -/
def listing : List (Nat × List FsOp) → Nat → Nat → FsCore Sha →
    List (Except (PyErr Sha) (List (DirReply Str)))
  | [], _, _, _ => []
  | (room, ops) :: calls, startId, n, s =>
    let call := TgfsOperations.readdir dir startId room ts n s
    let after := (FsOp.runAll cfg ts ops call.2.1 call.2.2).2
    call.1 :: listing calls (nextId startId call.1) after.1 after.2

end Listing

end Tgfs
