import Tgfs.Cache.FileOps

/-!
# A read of an inode that is being rewritten (`tgfs/cache.py`, `tgfs/store.py`)

One `read` through a handle that was opened read-only, beside a handle on the same inode that is
opened for writing, writes, truncates and syncs. A section under the state's lock is one step, but
for the sync, where each action of `put_file` is one. The read takes a step for the test of
`materialized`, one for the query of the chunk list, and two for each chunk, in any order.
-/

namespace Tgfs

namespace Readers

/-- How far `part(ch)` is. -/
inductive Progress (Sha : Type) where
  | waiting
  /-- `_fetcher` has returned the loader of the message `handle`. -/
  | looked (handle : Handle)
  | ended (r : Except (PyErr Sha) Bytes)

structure Part (Sha : Type) where
  chunk : Chunk Sha
  progress : Progress Sha := .waiting

inductive Reader (Sha : Type) where
  | calling
  /-- In `read_range`, about to query the chunk list. -/
  | querying
  | loading (parts : List (Part Sha))
  | returned (r : Except (PyErr Sha) Bytes)

inductive Writer (Sha : Type) where
  | idle
  /-- In the `put_file` of a sync: `old_n` and what is left of `put_file`. -/
  | storing (oldN : Nat) (rest : StoreProg Sha (Except (PyErr Sha) Unit))

inductive Label where
  /-- `open(for_write=True)`. -/
  | openWrite (ts : Nat → Tick)
  /-- `write`, `truncate` or `read` through the handle that is open for writing. -/
  | edit (op : FileOp) (ts : Nat → Tick)
  | sync
  /-- The next action of the sync. -/
  | store (t : Tick)
  /-- A step of the upload pool. -/
  | pool (e : FutId × PoolTick)
  | test (ts : Nat → Tick)
  | query
  | lookup (i : Nat)
  | download (i : Nat)
  | join

end Readers

open Readers in
structure Readers (Sha : Type) where
  ctx : FileCtx Sha
  writer : Writer Sha
  /-- The operations of the writer that returned. -/
  acked : List FileOp
  offset : Nat
  size : Nat
  reader : Reader Sha

namespace Readers

variable {Sha : Type}

/-- A handle has been opened read-only, and is about to be read from. -/
def start (ino : Ino) (gen : Nat) (s : Store Sha) (offset size : Nat) : Readers Sha :=
  ⟨Wb.freshCtx ino gen s, .idle, [], offset, size, .calling⟩

/-- What the read has returned or raised. -/
def result (c : Readers Sha) : Option (Except (PyErr Sha) Bytes) :=
  match c.reader with
  | .returned r => some r
  | _ => none

/-- The parts joined in their order: the first one that has failed raises, and one that has not
ended is waited for. -/
def joined (offset fin : Nat) : List (Part Sha) → Option (Except (PyErr Sha) Bytes)
  | [] => some (.ok [])
  | p :: ps =>
    match p.progress with
    | .ended (.error e) => some (.error e)
    | .ended (.ok data) =>
      let lo := max offset p.chunk.off - p.chunk.off
      let hi := min fin (p.chunk.off + p.chunk.len) - p.chunk.off
      (joined offset fin ps).map fun r => r.map fun rest => pread data lo (hi - lo) ++ rest
    | _ => none

variable [DecidableEq Sha] [Sha256 Sha]

/-- A step of `part`, for a chunk that the read needs. -/
def Part.lookup (s : Store Sha) (p : Part Sha) : Part Sha :=
  match p.progress with
  | .waiting =>
    match s.index.blobGet p.chunk.sha with
    | none => { p with progress := .ended (.error (.blobNotInIndex p.chunk.sha)) }
    | some b => { p with progress := .looked b.handle }
  | _ => p

def Part.download (s : Store Sha) (p : Part Sha) : Part Sha :=
  match p.progress with
  | .looked handle =>
    match s.backend.download handle with
    | none => { p with progress := .ended (.error (.noBlob handle)) }
    | some data =>
      if sha256 data = p.chunk.sha then { p with progress := .ended (.ok data) }
      else { p with progress := .ended (.error (.integrityCheck p.chunk.sha)) }
  | _ => p

/-- `_flush_locked` up to `put_file`. -/
def sync (cfg : WbConfig) (c : Readers Sha) : Readers Sha :=
  let st := c.ctx.st
  if st.dirty then
    match Wb.tempTruncate st.size (fun _ => {}) 0 c.ctx with
    | (.ok _, _, ctx) =>
      { c with
        ctx := ctx
        writer := .storing st.base.length
          (Store.putFile cfg.toStoreConfig st.ino st.size (some st.dirtyIdx)) }
    | (.error _, _, ctx) => { c with ctx := ctx }
  else c

/-- The next action of `put_file`, or what `_flush_locked` does behind it. -/
def store (t : Tick) (c : Readers Sha) : Readers Sha :=
  match c.writer with
  | .idle => c
  | .storing oldN (.act a k) =>
    if Store.ready a c.ctx.store then
      let p := Store.exec (Wb.tempSrc c.ctx.st.closed c.ctx.temp) t a c.ctx.store
      { c with ctx := { c.ctx with store := p.2 }, writer := .storing oldN (k p.1) }
    else c
  | .storing _ (.ret (.error _)) => { c with writer := .idle }
  | .storing oldN (.ret (.ok _)) =>
    let rows := c.ctx.store.index.getChunks c.ctx.st.ino
    { c with
      writer := .idle
      ctx := { c.ctx with st := { c.ctx.st with
        base := rows.map BaseChunk.ofRow
        loaded := c.ctx.st.loaded ∪ Finset.Ico oldN rows.length
        dirtyIdx := ∅
        dirty := false } } }

/-- The test of `materialized`, with the read itself if the state is in write mode. -/
def test (cfg : WbConfig) (ts : Nat → Tick) (c : Readers Sha) : Readers Sha :=
  if c.ctx.st.materialized then
    let (r, _, ctx) := Wb.read cfg c.size c.offset ts 0 c.ctx
    { c with ctx := ctx, reader := .returned r }
  else { c with reader := .querying }

def query (c : Readers Sha) : Readers Sha :=
  if c.size = 0 then { c with reader := .returned (.ok []) }
  else
    { c with reader := .loading <|
      ((c.ctx.store.index.getChunks c.ctx.st.ino).filter fun ch =>
        ch.off + ch.len > c.offset ∧ ch.off < c.offset + c.size).map fun ch => { chunk := ch } }

def step (cfg : WbConfig) (l : Label) (c : Readers Sha) : Readers Sha :=
  match l, c.writer, c.reader with
  | .openWrite ts, .idle, _ => { c with ctx := (Wb.materialize cfg ts 0 c.ctx).2.2 }
  | .edit op ts, .idle, _ =>
    if c.ctx.st.materialized ∧ op ≠ .sync then
      match Wb.perform cfg op ts 0 c.ctx with
      | (.ok _, _, ctx) => { c with ctx := ctx, acked := c.acked ++ [op] }
      | (.error _, _, ctx) => { c with ctx := ctx }
    else c
  | .sync, .idle, _ => c.sync cfg
  | .store t, _, _ => c.store t
  | .pool e, _, _ => { c with ctx := { c.ctx with store := Store.poolStep e c.ctx.store } }
  | .test ts, .idle, .calling => c.test cfg ts
  | .query, _, .querying => c.query
  | .lookup i, _, .loading parts =>
    { c with reader := .loading (parts.modify i (Part.lookup c.ctx.store)) }
  | .download i, _, .loading parts =>
    { c with reader := .loading (parts.modify i (Part.download c.ctx.store)) }
  | .join, _, .loading parts =>
    match joined c.offset (c.offset + c.size) parts with
    | some r => { c with reader := .returned r }
    | none => c
  | _, _, _ => c

def run (cfg : WbConfig) (ls : List Label) (c : Readers Sha) : Readers Sha :=
  ls.foldl (fun c l => step cfg l c) c

end Readers

end Tgfs
