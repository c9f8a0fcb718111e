import Mathlib.Order.Interval.Finset.Nat
import Tgfs.Misc.Run
import Tgfs.Store.Methods

/-!
# The state of one open file (`_FileState` in `tgfs/cache.py`)

`_FileState` and the parts of `WritebackManager` that work on one such state under its lock:
they see the state, the temp file its file object refers to, and the store.
-/

namespace Tgfs

/-- The numbers a `WritebackManager` and its `Store` are built with. -/
structure WbConfig extends StoreConfig where
  flushDelay : Nat

/-- An element `(off, len, sha)` of `base`. -/
structure BaseChunk (Sha : Type) where
  off : Nat
  len : Nat
  sha : Sha
  deriving DecidableEq, Repr

def BaseChunk.ofRow {Sha : Type} (r : Chunk Sha) : BaseChunk Sha := ⟨r.off, r.len, r.sha⟩

structure FileState (Sha : Type) where
  ino : Ino
  /-- Which of the files that were ever linked at `temp_path` `fobj` refers to. -/
  gen : Nat
  /-- Whether `fobj` has been closed. -/
  closed : Bool := false
  refcount : Int := 0
  dirty : Bool := false
  materialized : Bool := false
  size : Nat := 0
  base : List (BaseChunk Sha) := []
  loaded : Finset Nat := ∅
  dirtyIdx : Finset Nat := ∅
  idleSince : Time := 0

/-- What the code that holds a state's lock works on. -/
structure FileCtx (Sha : Type) where
  st : FileState Sha
  temp : Bytes
  store : Store Sha

abbrev FileRun (Sha α : Type) : Type := Run Tick (FileCtx Sha) (PyErr Sha) α

/-- Chunk `i` is at `i * cs`, and only the last one may have another length than `cs`. -/
def aligned {Sha : Type} (cs : Nat) (base : List (BaseChunk Sha)) : Bool :=
  base.zipIdx.all fun p => p.1.off = p.2 * cs ∧ (p.1.len = cs ∨ p.2 + 1 = base.length)

namespace Wb

variable {Sha : Type}

/-! ## Looking at the state -/

def getState : FileRun Sha (FileState Sha) := Run.gets FileCtx.st

def setState (f : FileState Sha → FileState Sha) : FileRun Sha Unit :=
  Run.modify fun c => { c with st := f c.st }

/-- `self.meta.get_chunks(st.ino)`. -/
def getRows : FileRun Sha (List (Chunk Sha)) := Run.gets fun c => c.store.index.getChunks c.st.ino

/-- `self.meta.get_inode(st.ino)`. -/
def getInode : FileRun Sha (Option Inode) := Run.gets fun c => c.store.index.getInode c.st.ino

/-! ## The temp file

The file object is raw (`buffering=0`), and its counts are not looked at. A `write` is taken to
write all of `data`, and a `read` to return all that is asked for up to the end of the file. -/

/-- Every call on a closed file object raises. -/
def checkOpen : FileRun Sha Unit := do
  let st ← getState
  Run.require (!st.closed) .closedFile

/-- `fobj.seek(off); fobj.write(data)`. -/
def tempWrite (off : Nat) (data : Bytes) : FileRun Sha Unit := do
  checkOpen
  Run.modify fun c => { c with temp := pwrite c.temp off data }

/-- `fobj.seek(off); fobj.read(n)`. -/
def tempRead (off n : Nat) : FileRun Sha Bytes := do
  checkOpen
  Run.gets fun c => pread c.temp off n

/-- `fobj.truncate(n)`. -/
def tempTruncate (n : Nat) : FileRun Sha Unit := do
  checkOpen
  Run.modify fun c => { c with temp := resize c.temp n }

/-- The source that `put_file` reads when it is given `fobj`. -/
def tempSrc (closed : Bool) (temp : Bytes) : Src Sha := fun pos want =>
  if closed then .error .closedFile else .ok (pread temp pos want)

variable [DecidableEq Sha] [Sha256 Sha]

/-- A call of a method of the store. -/
def call {α : Type} (src : Src Sha) (p : StoreProg Sha (Except (PyErr Sha) α)) : FileRun Sha α :=
  Run.zoom FileCtx.store (fun s c => { c with store := s })
    fun ts n s => Store.machine.seqRun src ts p n s

/-- The source of a call that reads none. -/
def noSrc : Src Sha := fun _ _ => .ok []

/-! ## Loading -/

/-- The loop of `_load`, over the indices it needs. -/
def loadEach : List Nat → FileRun Sha Unit
  | [] => pure ()
  | i :: is => do
    let st ← getState
    match st.base[i]? with
    | none => pure ()
    | some b => do
      let data ← call noSrc (Store.fetch b.sha)
      tempWrite b.off data
      setState fun st => { st with loaded := insert i st.loaded }
      loadEach is

/-- `_load`: pull base chunks `[lo, hi)` not yet in the temp file into it. -/
def load (lo hi : Nat) (skip : Finset Nat) : FileRun Sha Unit := do
  let st ← getState
  loadEach ((List.range' lo (min hi st.base.length - lo)).filter fun i =>
    i ∉ st.loaded ∧ i ∉ skip)

/-- `_materialize`: switch the inode to write mode. -/
def materialize (cfg : WbConfig) : FileRun Sha Unit := do
  let st ← getState
  if st.materialized then pure ()
  else do
    let rows ← getRows
    let inode ← getInode
    match inode with
    | none => Run.raise .attributeError
    | some n => do
      let base := rows.map BaseChunk.ofRow
      setState fun st => { st with size := n.size, base := base, loaded := ∅, dirtyIdx := ∅ }
      if aligned cfg.chunkSize base then pure ()
      else do
        load 0 base.length ∅
        setState fun st =>
          { st with dirtyIdx := Finset.range base.length, base := [], loaded := ∅ }
      setState fun st => { st with materialized := true }

/-- The base chunks in `[lo, hi)` that `[start, fin)` covers fully. -/
def covered (base : List (BaseChunk Sha)) (lo hi start fin : Nat) : Finset Nat :=
  (Finset.Ico lo (min hi base.length)).filter fun i =>
    base[i]?.any (fun b => start ≤ b.off ∧ b.off + b.len ≤ fin) = true

/-- `_prepare`: make bytes `[start, end)` of the temp file valid. -/
def prepare (cfg : WbConfig) (start fin : Nat) (overwrite : Bool) : FileRun Sha Unit := do
  let st ← getState
  let fin := min fin st.size
  if fin ≤ start ∨ st.base = [] then pure ()
  else do
    let lo := start / cfg.chunkSize
    let hi := (fin - 1) / cfg.chunkSize + 1
    let skip := if overwrite then covered st.base lo hi start fin else ∅
    setState fun st => { st with loaded := st.loaded ∪ skip }
    load lo hi skip

/-- Load the base chunk `b` and mark it as modified. -/
def touch (b : Nat) : FileRun Sha Unit := do
  load b (b + 1) ∅
  setState fun st => { st with dirtyIdx := insert b st.dirtyIdx }

/-- `_grow`: extend the file with zeros, which changes a partial last chunk. -/
def grow (cfg : WbConfig) (newSize : Nat) : FileRun Sha Unit := do
  let st ← getState
  let cs := cfg.chunkSize
  if newSize ≤ st.size then pure ()
  else do
    if st.base ≠ [] ∧ st.size % cs ≠ 0 ∧ st.base.length = st.size / cs + 1 then
      touch (st.base.length - 1)
    else pure ()
    setState fun st => { st with size := newSize }

/-! ## Reading and writing -/

def read (cfg : WbConfig) (size offset : Nat) : FileRun Sha Bytes := do
  let st ← getState
  if st.materialized then
    let fin := min (offset + size) st.size
    if fin ≤ offset then pure []
    else do
      prepare cfg offset fin false
      tempRead offset (fin - offset)
  else call noSrc (Store.readRange st.ino offset size)

def write (cfg : WbConfig) (data : Bytes) (offset : Nat) : FileRun Sha Nat := do
  materialize cfg
  let fin := offset + data.length
  prepare cfg offset fin true
  grow cfg fin
  tempWrite offset data
  let cs := cfg.chunkSize
  let touched := if data = [] then ∅ else Finset.Ico (offset / cs) ((fin - 1) / cs + 1)
  setState fun st => { st with dirtyIdx := st.dirtyIdx ∪ touched, dirty := true }
  pure data.length

/-- The part of `truncate` for a length below the file's size. -/
def shrink (cfg : WbConfig) (length : Nat) : FileRun Sha Unit := do
  let st ← getState
  let cs := cfg.chunkSize
  if length % cs ≠ 0 ∧ length / cs < st.base.length then touch (length / cs)
  else pure ()
  let keep := (length + cs - 1) / cs
  setState fun st => { st with
    base := st.base.take keep
    loaded := st.loaded.filter (· < keep)
    dirtyIdx := st.dirtyIdx.filter (· < keep)
    size := length }

def truncate (cfg : WbConfig) (length : Nat) : FileRun Sha Unit := do
  materialize cfg
  let st ← getState
  if length < st.size then shrink cfg length
  else grow cfg length
  tempTruncate length
  setState fun st => { st with dirty := true }

/-- `_flush_locked`. -/
def flushLocked (cfg : WbConfig) : FileRun Sha Unit := do
  let st ← getState
  if st.dirty then do
    tempTruncate st.size
    let temp ← Run.gets FileCtx.temp
    call (tempSrc st.closed temp)
      (Store.putFile cfg.toStoreConfig st.ino st.size (some st.dirtyIdx))
    let rows ← getRows
    setState fun s => { s with
      base := rows.map BaseChunk.ofRow
      loaded := s.loaded ∪ Finset.Ico st.base.length rows.length
      dirtyIdx := ∅
      dirty := false }
  else pure ()

/-- `flush`: lazy when a flush delay is set. -/
def flush (cfg : WbConfig) : FileRun Sha Unit :=
  if 0 < cfg.flushDelay then pure () else flushLocked cfg

def sync (cfg : WbConfig) : FileRun Sha Unit := flushLocked cfg

end Wb

end Tgfs
