import Mathlib.Data.Finset.Basic
import Tgfs.Cache.ReadCache

/-!
# Readahead (`_prefetch` and `read_range` in `tgfs/store.py`)

Any number of threads call `read_range`, which fetches chunks ahead of a sequential reader in the
pool of downloads. A step is a section under `_ra_lock`, the lookup of a blob, a submission, the
start or the end of a task, or a step of a call of the read cache. How the parts of a read itself
are fetched is left open: their calls are among those of the read cache.
-/

namespace Tgfs

namespace Readahead

/-- Where a thread is. -/
inductive Reader (Sha : Type) where
  | idle
  /-- In the parts of a read of `[offset, fin)`; `next` are the hashes behind the last part. -/
  | assembling (ino : Ino) (offset fin : Nat) (next : List Sha)
  /-- At the top of the loop of `_prefetch`. -/
  | prefetching (shas : List Sha)
  /-- `sha` was added to `_ra_queued`; about to call `_fetcher`. -/
  | looking (sha : Sha) (rest : List Sha)
  /-- `_fetcher` found no blob. -/
  | missing (sha : Sha) (rest : List Sha)
  | submitting (sha : Sha) (rest : List Sha)

/-- A `_safe_prefetch` in the pool. -/
inductive Prefetch (Sha : Type) where
  | queued (sha : Sha)
  /-- In `cache.prefetch`, which is the call `call` of the read cache. -/
  | running (sha : Sha) (call : Nat)
  /-- In the `finally`. -/
  | discarding (sha : Sha)
  | ended

inductive Label (Sha : Type) where
  | read (k : Nat) (ino : Ino) (offset length : Nat)
  /-- The parts of a read have returned, or one has raised. -/
  | assembled (k : Nat) (ok : Bool)
  /-- The next step of `_prefetch` in thread `k`. -/
  | prefetch (k : Nat)
  | task (i : Nat)
  | cache (l : Fetchers.Label Sha)
  /-- Others have changed the metadata. -/
  | index (m : Meta Sha)

end Readahead

open Readahead in
structure Readahead (Sha : Type) where
  readahead : Nat
  index : Meta Sha
  cache : Fetchers Sha
  /-- `_last_end`. -/
  lastEnd : List (Ino × Nat)
  /-- `_ra_queued`. -/
  queued : Finset Sha
  readers : Nat → Reader Sha
  tasks : Nat → Option (Prefetch Sha)
  nextTask : Nat

namespace Readahead

variable {Sha : Type} [DecidableEq Sha]

def start (readahead : Nat) (index : Meta Sha) (cap : Int) (dir : CacheDir Sha) : Readahead Sha where
  readahead := readahead
  index := index
  cache := Fetchers.start cap dir
  lastEnd := []
  queued := ∅
  readers := fun _ => .idle
  tasks := fun _ => none
  nextTask := 0

def setReader (k : Nat) (r : Reader Sha) (c : Readahead Sha) : Readahead Sha :=
  { c with readers := Function.update c.readers k r }

def setTask (i : Nat) (t : Prefetch Sha) (c : Readahead Sha) : Readahead Sha :=
  { c with tasks := Function.update c.tasks i (some t) }

/-- The chunks that a read needs, with their places in the list. -/
def hits (chunks : List (Chunk Sha)) (offset fin : Nat) : List (Chunk Sha × Nat) :=
  chunks.zipIdx.filter fun p => p.1.off + p.1.len > offset ∧ p.1.off < fin

/-- `read_range` up to its parts. -/
def read (k : Nat) (ino : Ino) (offset length : Nat) (c : Readahead Sha) : Readahead Sha :=
  if length = 0 then c
  else
    let chunks := c.index.getChunks ino
    match (hits chunks offset (offset + length)).getLast? with
    | none => c
    | some (_, last) => c.setReader k (.assembling ino offset (offset + length)
        (((chunks.drop (last + 1)).take c.readahead).map (·.sha)))

/-- `read_range` behind its parts, up to the call of `_prefetch`. -/
def assembled (k : Nat) (ino : Ino) (offset fin : Nat) (next : List Sha) (c : Readahead Sha) :
    Readahead Sha :=
  let sequential := (c.lastEnd.find? fun p => p.1 = ino).map (·.2) = some offset
  let lastEnd := if c.lastEnd.length > 4096 then [] else c.lastEnd
  { c with lastEnd := (ino, fin) :: lastEnd.filter fun p => p.1 ≠ ino }.setReader k
    (if 0 < c.readahead ∧ sequential then .prefetching next else .idle)

/-- The next step of `_prefetch`. -/
def prefetch (k : Nat) (c : Readahead Sha) : Readahead Sha :=
  match c.readers k with
  | .prefetching [] => c.setReader k .idle
  | .prefetching (sha :: rest) =>
    if sha ∈ c.queued ∨ c.cache.cache.has sha = true then c.setReader k (.prefetching rest)
    else { c with queued := insert sha c.queued }.setReader k (.looking sha rest)
  | .looking sha rest =>
    match c.index.blobGet sha with
    | none => c.setReader k (.missing sha rest)
    | some _ => c.setReader k (.submitting sha rest)
  | .missing sha rest =>
    { c with queued := c.queued.erase sha }.setReader k (.prefetching rest)
  | .submitting sha rest =>
    { c with nextTask := c.nextTask + 1 }.setTask c.nextTask (.queued sha) |>.setReader k
      (.prefetching rest)
  | _ => c

/-- The next step of a task. Whatever `cache.prefetch` ended in, the `finally` follows. -/
def task (loader : Nat → Sha → Except (PyErr Sha) Bytes) (i : Nat) (c : Readahead Sha) :
    Readahead Sha :=
  match c.tasks i with
  | some (.queued sha) =>
    { c with cache := Fetchers.step loader (.call sha .prefetch) c.cache }.setTask i
      (.running sha c.cache.nextCall)
  | some (.running sha call) =>
    match c.cache.calls call with
    | some ⟨_, _, .returned _⟩ => c.setTask i (.discarding sha)
    | _ => c
  | some (.discarding sha) => { c with queued := c.queued.erase sha }.setTask i .ended
  | _ => c

def step (loader : Nat → Sha → Except (PyErr Sha) Bytes) (l : Label Sha) (c : Readahead Sha) :
    Readahead Sha :=
  match l with
  | .read k ino offset length =>
    match c.readers k with
    | .idle => c.read k ino offset length
    | _ => c
  | .assembled k ok =>
    match c.readers k with
    | .assembling ino offset fin next =>
      if ok then c.assembled k ino offset fin next else c.setReader k .idle
    | _ => c
  | .prefetch k => c.prefetch k
  | .task i => c.task loader i
  | .cache l => { c with cache := Fetchers.step loader l c.cache }
  | .index m => { c with index := m }

def run (loader : Nat → Sha → Except (PyErr Sha) Bytes) (ls : List (Label Sha))
    (c : Readahead Sha) : Readahead Sha :=
  ls.foldl (fun c l => step loader l c) c

end Readahead

end Tgfs
