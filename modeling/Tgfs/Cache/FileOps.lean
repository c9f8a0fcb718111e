import Tgfs.Cache.FileState

/-!
# A session on one open state

The operations a client performs on a `_FileState` that it opened for writing, and the byte
array that POSIX says they work on.
-/

namespace Tgfs

inductive FileOp where
  | write (offset : Nat) (data : Bytes)
  | truncate (length : Nat)
  | read (offset size : Nat)
  | sync
  deriving DecidableEq, Repr

namespace FileOp

/-- The file after the operation. -/
def apply : FileOp → Bytes → Bytes
  | .write offset data, ref => pwrite ref offset data
  | .truncate length, ref => resize ref length
  | .read _ _, ref | .sync, ref => ref

/-- The bytes the operation returns. -/
def answer : FileOp → Bytes → Bytes
  | .read offset size, ref => pread ref offset size
  | _, _ => []

/-- A write has data. -/
def Nonempty : FileOp → Prop
  | .write _ data => data ≠ []
  | _ => True

def isRead : FileOp → Bool
  | .read _ _ => true
  | _ => false

def applyAll (ops : List FileOp) (ref : Bytes) : Bytes := ops.foldl (fun f op => op.apply f) ref

@[simp] theorem applyAll_nil (ref : Bytes) : applyAll [] ref = ref := rfl

@[simp] theorem applyAll_cons (op : FileOp) (ops : List FileOp) (ref : Bytes) :
    applyAll (op :: ops) ref = applyAll ops (op.apply ref) := rfl

@[simp] theorem applyAll_append (ops ops' : List FileOp) (ref : Bytes) :
    applyAll (ops ++ ops') ref = applyAll ops' (applyAll ops ref) := List.foldl_append

/-- What is returned along a session, with the file's length after each operation. -/
def answers : List FileOp → Bytes → List (Bytes × Option Nat)
  | [], _ => []
  | op :: ops, ref => (op.answer ref, some (op.apply ref).length) :: answers ops (op.apply ref)

end FileOp

namespace Wb

variable {Sha : Type}

/-- `live_size` of an inode whose registered state is `st`. -/
def liveSize (st : Option (FileState Sha)) : Option Nat :=
  match st with
  | some st => if st.materialized then some st.size else none
  | none => none

variable [DecidableEq Sha] [Sha256 Sha]

def perform (cfg : WbConfig) : FileOp → FileRun Sha Bytes
  | .write offset data => do
    let _ ← write cfg data offset
    pure []
  | .truncate length => do
    truncate cfg length
    pure []
  | .read offset size => read cfg size offset
  | .sync => do
    sync cfg
    pure []

/-- The operations one after the other, with `live_size` after each. -/
def performAll (cfg : WbConfig) : List FileOp → FileRun Sha (List (Bytes × Option Nat))
  | [] => pure []
  | op :: ops => do
    let answer ← perform cfg op
    let st ← getState
    let rest ← performAll cfg ops
    pure ((answer, liveSize (some st)) :: rest)

/-- The locked section of `open(for_write=True)`, and a session. -/
def session (cfg : WbConfig) (ops : List FileOp) :
    FileRun Sha (Option Nat × List (Bytes × Option Nat)) := do
  materialize cfg
  let st ← getState
  let rest ← performAll cfg ops
  pure (liveSize (some st), rest)

/-- `open`, for reading or for writing, and operations on the state it returns. -/
def opened (cfg : WbConfig) (forWrite : Bool) (ops : List FileOp) :
    FileRun Sha (List (Bytes × Option Nat)) := do
  if forWrite then materialize cfg else pure ()
  performAll cfg ops

/-- A state that `open` has just built, and its temp file. -/
def freshCtx (ino : Ino) (gen : Nat) (s : Store Sha) : FileCtx Sha :=
  ⟨{ ino := ino, gen := gen, refcount := 1 }, [], s⟩

end Wb

end Tgfs
