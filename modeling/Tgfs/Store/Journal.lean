import Tgfs.Misc.Journal
import Tgfs.Store.Acts

/-!
# The calls of the backend

What the store's machine asks of the backend, written down call by call: the uploads and the
deletes of `_upload_blob`, which run in the pool, and the deletes of `_release`.
-/

namespace Tgfs

/-- A call that changes what the backend holds, whether or not it raises. -/
inductive BackendCall where
  | upload (data : Bytes)
  | delete (handle : Handle)
  deriving DecidableEq, Repr

namespace Store

variable {Sha : Type}

/-- The call an action makes. -/
def actCalls : Act Sha → Store Sha → List BackendCall
  | .delete handle, _ => [.delete handle]
  | _, _ => []

/-- The call a pool step makes. -/
def poolCalls (e : FutId × PoolTick) (s : Store Sha) : List BackendCall :=
  match s.tasks[e.1]? with
  | none => []
  | some t =>
    match t.phase with
    | .running => [.upload t.data]
    | .dropCopy handle => [.delete handle]
    | _ => []

variable [DecidableEq Sha]

/-- The store's machine, with the calls of the backend written down. -/
def journal :
    Machine (Act Sha) Act.Reply (Store Sha × List BackendCall) Tick (FutId × PoolTick) (Src Sha) :=
  machine.noting ⟨actCalls, poolCalls⟩

end Store

end Tgfs
