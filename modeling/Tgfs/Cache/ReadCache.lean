import Mathlib.Algebra.BigOperators.Group.List.Basic
import Mathlib.Algebra.Ring.Int.Defs
import Tgfs.Meta

/-!
# The read cache (`ReadCache` in `tgfs/cache.py`)

The cache itself, with one function for each section that `ReadCache` runs under its lock, and
the calls of `get`, `get_range` and `prefetch` that work on it. A call is cut at its sections, at
its use of the file system, at the loader and at the event it may wait for; `advance` takes it to
the next cut.
-/

namespace Tgfs

/-- The identity of a `threading.Event`. -/
abbrev EventId : Type := Nat

/-- What the constructor finds in the directory of blobs. -/
structure CacheFile (Sha : Type) where
  name : Sha
  mtime : Time
  data : Bytes

/-- A directory holds one file for each name. -/
structure CacheDir (Sha : Type) where
  files : List (CacheFile Sha)
  nodup : (files.map (·.name)).Nodup

structure ReadCache (Sha : Type) where
  cap : Int
  /-- `_index`, the least recently used entry first. -/
  index : List (Sha × Nat)
  total : Int
  inflight : Sha → Option EventId
  /-- The events that are set. -/
  isSet : EventId → Bool
  nextEvent : EventId
  /-- The directory of blobs. -/
  files : Sha → Option Bytes

/-- `blob[lo:hi]`, or the whole blob. -/
def sliceOf (range : Option (Nat × Nat)) (data : Bytes) : Bytes :=
  match range with
  | none => data
  | some (lo, hi) => pread data lo (hi - lo)

namespace ReadCache

variable {Sha : Type} [DecidableEq Sha]

def init (cap : Int) (dir : CacheDir Sha) : ReadCache Sha :=
  let files := dir.files.insertionSort fun a b => a.mtime ≤ b.mtime
  { cap := cap
    index := files.map fun f => (f.name, f.data.length)
    total := (files.map fun f => (f.data.length : Int)).sum
    inflight := fun _ => none
    isSet := fun _ => false
    nextEvent := 0
    files := fun sha => (dir.files.find? fun f => f.name = sha).map (·.data) }

/-! ## The sections under the lock -/

def mem (c : ReadCache Sha) (sha : Sha) : Bool := c.index.any fun p => p.1 = sha

/-- `self._index.move_to_end(sha)`. -/
def moveToEnd (sha : Sha) (index : List (Sha × Nat)) : List (Sha × Nat) :=
  (index.filter fun p => p.1 ≠ sha) ++ index.filter fun p => p.1 = sha

/-- The first section of `_read_cached`: whether the blob is in the index. -/
def touch (sha : Sha) (c : ReadCache Sha) : Bool × ReadCache Sha :=
  if c.mem sha then (true, { c with index := moveToEnd sha c.index }) else (false, c)

/-- The section of `_read_cached` for a file that has vanished. -/
def drop (sha : Sha) (c : ReadCache Sha) : ReadCache Sha :=
  match c.index.find? fun p => p.1 = sha with
  | some p => { c with
      index := c.index.filter fun p => p.1 ≠ sha
      total := c.total - p.2 }
  | none => c

/-- The first section of `_load_once`: the event of the hash, and whether the caller leads. -/
def register (sha : Sha) (c : ReadCache Sha) : Bool × EventId × ReadCache Sha :=
  match c.inflight sha with
  | some ev => (false, ev, c)
  | none => (true, c.nextEvent, { c with
      inflight := Function.update c.inflight sha (some c.nextEvent)
      nextEvent := c.nextEvent + 1 })

/-- The section in the `finally` of `_load_once`. -/
def unregister (sha : Sha) (c : ReadCache Sha) : ReadCache Sha :=
  { c with inflight := Function.update c.inflight sha none }

/-- `ev.set()`. -/
def setEvent (ev : EventId) (c : ReadCache Sha) : ReadCache Sha :=
  { c with isSet := Function.update c.isSet ev true }

def has (sha : Sha) (c : ReadCache Sha) : Bool := c.mem sha || (c.inflight sha).isSome

/-- The loop of `_evict`. -/
def evictLoop (cap : Int) : List (Sha × Nat) → Int → (Sha → Option Bytes) →
    List (Sha × Nat) × Int × (Sha → Option Bytes)
  | p :: q :: index, total, files =>
    if cap < total then
      evictLoop cap (q :: index) (total - p.2) (Function.update files p.1 none)
    else (p :: q :: index, total, files)
  | index, total, files => (index, total, files)

def evict (c : ReadCache Sha) : ReadCache Sha :=
  let r := evictLoop c.cap c.index c.total c.files
  { c with index := r.1, total := r.2.1, files := r.2.2 }

/-- `_store` up to the call of `_evict`. -/
def put (sha : Sha) (data : Bytes) (c : ReadCache Sha) : ReadCache Sha :=
  if c.mem sha then { c with index := moveToEnd sha c.index }
  else { c with
    files := Function.update c.files sha (some data)
    index := c.index ++ [(sha, data.length)]
    total := c.total + data.length }

def store (sha : Sha) (data : Bytes) (c : ReadCache Sha) : ReadCache Sha := (c.put sha data).evict

end ReadCache

/-! ## Calls -/

/-- `get_range(sha, lo, hi, loader)`, which `get` is for the whole blob, or `prefetch`. -/
inductive FetchKind where
  | getRange (range : Option (Nat × Nat))
  | prefetch
  deriving DecidableEq, Repr

/-- Where a call is. `left` is the number of tries that `get_range` has left, this one included. -/
inductive FetchPc (Sha : Type) where
  /-- `prefetch` is about to ask `has`. -/
  | asking
  /-- `get_range` is about to run `_read_cached`, or the loader if no try is left. -/
  | trying (left : Nat)
  /-- The hash is in the index; the file is about to be read. -/
  | opening (left : Nat)
  /-- The file is not there. -/
  | dropping (left : Nat)
  /-- About to run `_load_once`. -/
  | joining (left : Nat)
  | waiting (left : Nat) (ev : EventId)
  /-- A leader, about to run the loader. -/
  | loading (ev : EventId)
  | storing (ev : EventId) (data : Bytes)
  /-- A leader in the `finally`, with what the `try` ended in. -/
  | leaving (ev : EventId) (r : Except (PyErr Sha) Bytes)
  | setting (ev : EventId) (r : Except (PyErr Sha) Bytes)
  | returned (r : Except (PyErr Sha) (Option Bytes))

structure Fetch (Sha : Type) where
  sha : Sha
  kind : FetchKind
  pc : FetchPc Sha

namespace Fetch

variable {Sha : Type}

/-- The call, at its first statement. -/
def start (sha : Sha) (kind : FetchKind) : Fetch Sha :=
  ⟨sha, kind, match kind with
    | .getRange _ => .trying 3
    | .prefetch => .asking⟩

def goto (pc : FetchPc Sha) (f : Fetch Sha) : Fetch Sha := { f with pc := pc }

/-- What the call returns once it has the blob. -/
def answer (f : Fetch Sha) (data : Bytes) : Option Bytes :=
  match f.kind with
  | .getRange range => some (sliceOf range data)
  | .prefetch => none

/-- Where a call goes on when `_load_once` returned `None`. -/
def retry (f : Fetch Sha) (left : Nat) : FetchPc Sha :=
  match f.kind with
  | .getRange _ => .trying (left - 1)
  | .prefetch => .returned (.ok none)

variable [DecidableEq Sha]

/-- The next step of a call. `loader` is what the loader returns or raises, should it run now. -/
def advance (loader : Sha → Except (PyErr Sha) Bytes) (c : ReadCache Sha) (f : Fetch Sha) :
    ReadCache Sha × Fetch Sha :=
  match f.pc with
  | .asking => (c, f.goto (if c.has f.sha then .returned (.ok none) else .joining 0))
  | .trying 0 => (c, f.goto (.returned ((loader f.sha).map f.answer)))
  | .trying (left + 1) =>
    let r := c.touch f.sha
    (r.2, f.goto (if r.1 then .opening (left + 1) else .joining (left + 1)))
  | .opening left =>
    match c.files f.sha with
    | some data => (c, f.goto (.returned (.ok (f.answer data))))
    | none => (c, f.goto (.dropping left))
  | .dropping left => (c.drop f.sha, f.goto (.joining left))
  | .joining left =>
    let r := c.register f.sha
    (r.2.2, f.goto (if r.1 then .loading r.2.1 else .waiting left r.2.1))
  | .waiting left ev => (c, if c.isSet ev then f.goto (f.retry left) else f)
  | .loading ev =>
    match loader f.sha with
    | .ok data => (c, f.goto (.storing ev data))
    | .error e => (c, f.goto (.leaving ev (.error e)))
  | .storing ev data => (c.store f.sha data, f.goto (.leaving ev (.ok data)))
  | .leaving ev r => (c.unregister f.sha, f.goto (.setting ev r))
  | .setting ev r => (c.setEvent ev, f.goto (.returned (r.map f.answer)))
  | .returned _ => (c, f)

end Fetch

/-! ## Calls at the same time -/

/-- A cache and the calls that were made of it. -/
structure Fetchers (Sha : Type) where
  cache : ReadCache Sha
  calls : Nat → Option (Fetch Sha)
  nextCall : Nat

namespace Fetchers

inductive Label (Sha : Type) where
  | call (sha : Sha) (kind : FetchKind)
  /-- Call `k` takes its next step, at time `t` of the surroundings. -/
  | step (k t : Nat)
  /-- A cached file vanishes. -/
  | vanish (sha : Sha)

variable {Sha : Type} [DecidableEq Sha]

def start (cap : Int) (dir : CacheDir Sha) : Fetchers Sha :=
  ⟨ReadCache.init cap dir, fun _ => none, 0⟩

/-- `loader t sha` is what a loader of `sha` does that runs at time `t`. -/
def step (loader : Nat → Sha → Except (PyErr Sha) Bytes) (l : Label Sha) (c : Fetchers Sha) :
    Fetchers Sha :=
  match l with
  | .call sha kind => { c with
      calls := Function.update c.calls c.nextCall (some (.start sha kind))
      nextCall := c.nextCall + 1 }
  | .step k t =>
    match c.calls k with
    | none => c
    | some f =>
      let r := f.advance (loader t) c.cache
      { c with cache := r.1, calls := Function.update c.calls k (some r.2) }
  | .vanish sha => { c with cache := { c.cache with
      files := Function.update c.cache.files sha none } }

def run (loader : Nat → Sha → Except (PyErr Sha) Bytes) (ls : List (Label Sha))
    (c : Fetchers Sha) : Fetchers Sha :=
  ls.foldl (fun c l => step loader l c) c

end Fetchers

end Tgfs
