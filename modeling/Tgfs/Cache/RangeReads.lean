import Tgfs.Cache.Readahead

/-!
# Reads through the cache (`read_range` in `tgfs/store.py`)

Any number of threads call `read_range` on a store with a read cache. A read of one chunk fetches
it itself; the parts of a longer one are tasks of the pool `_down`, which the prefetches share. A
worker may take any task of the queue. What a read does outside of its parts is `Readahead`.
-/

namespace Tgfs

namespace RangeReads

/-- Where a call of `part` is. -/
inductive Place (Sha : Type) where
  | queued
  /-- About to call `_fetcher`. -/
  | begun
  /-- In `get_range`, which is the call `call` of the read cache. -/
  | fetching (call : Nat)
  | finished (r : Except (PyErr Sha) Bytes)

/-- A call of `part`, in the pool or in the thread of its reader. -/
structure PartCall (Sha : Type) where
  sha : Sha
  lo : Nat
  hi : Nat
  pooled : Bool
  place : Place Sha

/-- A read that waits for its parts. -/
structure Joining (Sha : Type) where
  /-- The rows that it found; only recorded. -/
  rows : List (Chunk Sha)
  offset : Nat
  length : Nat
  /-- The number of its first part; only recorded. -/
  first : Nat
  /-- The parts whose results it has still to take. -/
  parts : List Nat
  got : Bytes

/-- What a read returns or raises; one that is still in `_prefetch` has its answer already. -/
structure Answer (Sha : Type) where
  rows : List (Chunk Sha)
  offset : Nat
  length : Nat
  first : Nat
  result : Except (PyErr Sha) Bytes

inductive Label (Sha : Type) where
  | read (k : Nat) (ino : Ino) (offset length : Nat)
  /-- Thread `k` takes the result of its next part, or goes on behind the last one. -/
  | take (k : Nat)
  | part (p : Nat)
  | prefetch (k : Nat)
  | task (i : Nat)
  /-- A call of the read cache takes its next step, at time `t` of the surroundings. -/
  | fetch (call t : Nat)
  | vanish (sha : Sha)
  | index (m : Meta Sha)

end RangeReads

open RangeReads in
structure RangeReads (Sha : Type) where
  /-- How many threads call `read_range`. -/
  threads : Nat
  downloadWorkers : Nat
  ahead : Readahead Sha
  parts : List (PartCall Sha)
  joins : Nat → Option (Joining Sha)
  answers : List (Answer Sha)

namespace RangeReads

variable {Sha : Type} [DecidableEq Sha]

def start (threads downloadWorkers readahead : Nat) (index : Meta Sha) (cap : Int)
    (dir : CacheDir Sha) : RangeReads Sha where
  threads := threads
  downloadWorkers := max 1 downloadWorkers
  ahead := Readahead.start readahead index cap dir
  parts := []
  joins := fun _ => none
  answers := []

/-- Whether a worker is in the call. -/
def PartCall.busy (q : PartCall Sha) : Bool :=
  q.pooled && match q.place with
    | .begun | .fetching _ => true
    | _ => false

def taskBusy (t : Option (Readahead.Prefetch Sha)) : Bool :=
  match t with
  | some (.running _ _) | some (.discarding _) => true
  | _ => false

def busy (c : RangeReads Sha) : Nat :=
  c.parts.countP PartCall.busy +
    (List.range c.ahead.nextTask).countP fun i => taskBusy (c.ahead.tasks i)

def setPart (p : Nat) (q : PartCall Sha) (c : RangeReads Sha) : RangeReads Sha :=
  { c with parts := c.parts.set p q }

/-- `part(ch)`, before its first statement. -/
def PartCall.of (offset fin : Nat) (pooled : Bool) (ch : Chunk Sha) : PartCall Sha where
  sha := ch.sha
  lo := max offset ch.off - ch.off
  hi := min fin (ch.off + ch.len) - ch.off
  pooled := pooled
  place := if pooled then .queued else .begun

/-- `read_range` up to its parts. -/
def read (k : Nat) (ino : Ino) (offset length : Nat) (c : RangeReads Sha) : RangeReads Sha :=
  let rows := c.ahead.index.getChunks ino
  let hit := (Readahead.hits rows offset (offset + length)).map Prod.fst
  if length = 0 ∨ hit = [] then
    { c with answers := c.answers ++ [⟨rows, offset, length, c.parts.length, .ok []⟩] }
  else { c with
    ahead := c.ahead.read k ino offset length
    parts := c.parts ++ hit.map (PartCall.of offset (offset + length) (hit.length ≠ 1))
    joins := Function.update c.joins k (some
      ⟨rows, offset, length, c.parts.length, List.range' c.parts.length hit.length, []⟩) }

variable (loader : Nat → Sha → Except (PyErr Sha) Bytes)

/-- The reader has no part to wait for any more; `ok` as for `Readahead`. -/
def answer (k : Nat) (j : Joining Sha) (ok : Bool) (r : Except (PyErr Sha) Bytes)
    (c : RangeReads Sha) : RangeReads Sha :=
  { c with
    ahead := Readahead.step loader (.assembled k ok) c.ahead
    joins := Function.update c.joins k none
    answers := c.answers ++ [⟨j.rows, j.offset, j.length, j.first, r⟩] }

def take (k : Nat) (c : RangeReads Sha) : RangeReads Sha :=
  match c.joins k with
  | none => c
  | some j =>
    match j.parts with
    | [] => c.answer loader k j true (.ok j.got)
    | p :: ps =>
      match c.parts[p]? with
      | some ⟨_, _, _, _, .finished (.ok data)⟩ =>
        { c with joins := Function.update c.joins k (some
          { j with parts := ps, got := j.got ++ data }) }
      | some ⟨_, _, _, _, .finished (.error e)⟩ => c.answer loader k j false (.error e)
      | _ => c

/-- The next step of a call of `part`. -/
def part (p : Nat) (c : RangeReads Sha) : RangeReads Sha :=
  match c.parts[p]? with
  | none => c
  | some q =>
    match q.place with
    | .queued => if c.busy < c.downloadWorkers then c.setPart p { q with place := .begun } else c
    | .begun =>
      match c.ahead.index.blobGet q.sha with
      | none => c.setPart p { q with place := .finished (.error (.blobNotInIndex q.sha)) }
      | some _ =>
        let range := some (q.lo, q.hi)
        { c with ahead :=
          Readahead.step loader (.cache (.call q.sha (.getRange range))) c.ahead }.setPart p
            { q with place := .fetching c.ahead.cache.nextCall }
    | .fetching call =>
      match c.ahead.cache.calls call with
      -- `get_range` returns bytes, `prefetch` is what returns `None`
      | some ⟨_, _, .returned r⟩ =>
        c.setPart p { q with place := .finished (r.map fun data => data.getD []) }
      | _ => c
    | .finished _ => c

/-- The next step of a prefetch; one that is queued needs a worker. -/
def task (i : Nat) (c : RangeReads Sha) : RangeReads Sha :=
  match c.ahead.tasks i with
  | some (.queued _) =>
    if c.busy < c.downloadWorkers then
      { c with ahead := Readahead.step loader (.task i) c.ahead }
    else c
  | _ => { c with ahead := Readahead.step loader (.task i) c.ahead }

def step (l : Label Sha) (c : RangeReads Sha) : RangeReads Sha :=
  match l with
  | .read k ino offset length =>
    match c.ahead.readers k with
    | .idle => if k < c.threads then c.read k ino offset length else c
    | _ => c
  | .take k => c.take loader k
  | .part p => c.part loader p
  | .prefetch k => { c with ahead := Readahead.step loader (.prefetch k) c.ahead }
  | .task i => c.task loader i
  | .fetch call t => { c with ahead := Readahead.step loader (.cache (.step call t)) c.ahead }
  | .vanish sha => { c with ahead := Readahead.step loader (.cache (.vanish sha)) c.ahead }
  | .index m => { c with ahead := Readahead.step loader (.index m) c.ahead }

def run (ls : List (Label Sha)) (c : RangeReads Sha) : RangeReads Sha :=
  ls.foldl (fun c l => step loader l c) c

end RangeReads

end Tgfs
