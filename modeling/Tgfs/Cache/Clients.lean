import Tgfs.Cache.Writeback

/-!
# Clients and the reaper at the same time (`tgfs/cache.py`)

Any number of threads call `open`, `write`, `truncate` and `release`, and the reaper runs
`_reap_once`. A section under the manager's lock or under a state's lock is one step; between two
sections of one thread the others may take any number of theirs.
-/

namespace Tgfs

/-- `WritebackManager.__init__`, which clears the directory of temp files. -/
def Writeback.built {Sha : Type} (store : Store Sha) : Writeback Sha where
  store := store
  files := fun _ => []
  linked := fun _ => none
  nextGen := 0
  heap := fun _ => { ino := 0, gen := 0 }
  nextState := 0
  states := []

namespace Clients

/-- Where a client is: between its calls, or between two sections of one. -/
inductive Client where
  | idle
  /-- `open(for_write=True)` has the state and is about to materialize it. -/
  | opened (sid : StateId)
  | holding (sid : StateId)
  /-- `release` has unregistered the state and is about to flush it. -/
  | flushing (sid : StateId)
  /-- `release` is about to run `_close_state`. -/
  | closing (sid : StateId)
  deriving DecidableEq, Repr

/-- Where `_reap_once` is; `cands` are the candidates it has not taken up yet. -/
inductive Reaper where
  | idle
  | reaping (cands : List StateId)
  /-- The flush of `sid` returned. -/
  | flushed (sid : StateId) (cands : List StateId)
  /-- `sid` was removed and is about to be closed. -/
  | removed (sid : StateId) (cands : List StateId)
  deriving DecidableEq, Repr

/-- What a client calls when it is between two calls. -/
inductive Call where
  | openFile (ino : Ino) (forWrite : Bool)
  | write (offset : Nat) (data : Bytes)
  | truncate (length : Nat)
  | release
  deriving DecidableEq, Repr

inductive Label where
  | client (k : Nat) (call : Call)
  | reaper
  deriving DecidableEq, Repr

end Clients

open Clients in
structure Clients (Sha : Type) where
  wb : Writeback Sha
  /-- The number of the next tick. -/
  tick : Nat
  clients : List Client
  reaper : Reaper

namespace Clients

variable {Sha : Type}

/-- A new manager, with clients that have not called it yet. -/
def start (store : Store Sha) (clients : Nat) : Clients Sha :=
  ⟨Writeback.built store, 0, List.replicate clients .idle, .idle⟩

def setClient (k : Nat) (pc : Client) (c : Clients Sha) : Clients Sha :=
  { c with clients := c.clients.set k pc }

def setReaper (pc : Reaper) (c : Clients Sha) : Clients Sha := { c with reaper := pc }

/-- Run a section. -/
def perform {α : Type} (ts : Nat → Tick) (m : WbRun Sha α) (c : Clients Sha) :
    Except (PyErr Sha) α × Clients Sha :=
  let (r, n, wb) := m ts c.tick c.wb
  (r, { c with wb := wb, tick := n })

variable [DecidableEq Sha] [Sha256 Sha]

/-- The next section of client `k`. -/
def clientStep (cfg : WbConfig) (ts : Nat → Tick) (k : Nat) (call : Call) (c : Clients Sha) :
    Clients Sha :=
  match c.clients[k]?, call with
  | none, _ => c
  | some .idle, .openFile ino forWrite =>
    let (sid, wb) := c.wb.openLocked ino
    { c with wb := wb }.setClient k (if forWrite then .opened sid else .holding sid)
  | some .idle, _ => c
  | some (.opened sid), _ =>
    match c.perform ts (Writeback.onState sid (Wb.materialize cfg)) with
    | (.ok _, c) => c.setClient k (.holding sid)
    | (.error _, c) => c.setClient k .idle
  | some (.holding _), .openFile _ _ => c
  | some (.holding sid), .write offset data =>
    (c.perform ts (Writeback.onState sid (Wb.write cfg data offset))).2
  | some (.holding sid), .truncate length =>
    (c.perform ts (Writeback.onState sid (Wb.truncate cfg length))).2
  | some (.holding sid), .release =>
    let (last, wb) := Writeback.releaseLocked cfg (ts c.tick).now sid c.wb
    { c with wb := wb, tick := c.tick + 1 }.setClient k (if last then .flushing sid else .idle)
  | some (.flushing sid), _ =>
    match c.perform ts (Writeback.onState sid (Wb.flushLocked cfg)) with
    | (.ok _, c) => c.setClient k (.closing sid)
    | (.error _, c) => c.setClient k .idle
  | some (.closing sid), _ => { c with wb := c.wb.closeState sid }.setClient k .idle

/-- The next section of `_reap_once`, which is not forced. -/
def reaperStep (cfg : WbConfig) (ts : Nat → Tick) (c : Clients Sha) : Clients Sha :=
  match c.reaper with
  | .idle =>
    { c with tick := c.tick + 1 }.setReaper
      (.reaping (Writeback.candidates cfg false (ts c.tick).now c.wb))
  | .reaping [] => c.setReaper .idle
  | .reaping (sid :: cands) =>
    match c.perform ts (Writeback.onState sid (Wb.flushLocked cfg)) with
    | (.ok _, c) => c.setReaper (.flushed sid cands)
    | (.error _, c) =>
      { c with
        wb := c.wb.modState sid fun st => { st with idleSince := (ts c.tick).now }
        tick := c.tick + 1 }.setReaper (.reaping cands)
  | .flushed sid cands =>
    let (done, wb) := c.wb.reapLocked sid
    { c with wb := wb }.setReaper (if done then .removed sid cands else .reaping cands)
  | .removed sid cands => { c with wb := c.wb.closeState sid }.setReaper (.reaping cands)

def step (cfg : WbConfig) (ts : Nat → Tick) (l : Label) (c : Clients Sha) : Clients Sha :=
  match l with
  | .client k call => clientStep cfg ts k call c
  | .reaper => reaperStep cfg ts c

def run (cfg : WbConfig) (ts : Nat → Tick) (ls : List Label) (c : Clients Sha) : Clients Sha :=
  ls.foldl (fun c l => step cfg ts l c) c

end Clients

end Tgfs
