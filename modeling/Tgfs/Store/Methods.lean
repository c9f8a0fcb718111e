import Mathlib.Data.Finset.Basic
import Tgfs.Store.Acts

/-!
# The methods of `Store` (`tgfs/store.py`)

`put_file`, `free_file` and the reads, as programs over the store's atomic actions. A method
that can raise returns the exception. `put_file` is cut where the source has its blocks: the
`while` loop over the chunks (`putLoop`), the collection of the uploads (`putBody`), the
`except` clause (`rollback`) and the replacement of the rows.

The store is the one without a read cache (`cache=None`).
-/

namespace Tgfs

abbrev StoreProg (Sha α : Type) : Type := Prog (Act Sha) Act.Reply α

/-- The references `put_file` has taken so far. -/
structure Refs (Sha : Type) where
  acquired : List Sha := []
  /-- Uploads in flight in this call, in the order of their submission. -/
  pending : List (Sha × FutId) := []
  /-- Repeats of a pending hash; counted after the uploads. -/
  dups : List Sha := []
  running : List FutId := []

/-- The local variables of `put_file`'s loop; `pos` is the position of `src`. -/
structure PutState (Sha : Type) where
  idx : Nat := 0
  off : Nat := 0
  pos : Nat := 0
  new : List (Chunk Sha) := []
  refs : Refs Sha := {}

namespace Store

variable {Sha : Type} [DecidableEq Sha]

def perform (a : Act Sha) : StoreProg Sha a.Reply := .act a .ret

/-! ## Writing -/

def release (sha : Sha) : StoreProg Sha (Option (PyErr Sha)) := do
  let handle : Option Handle ← perform (.blobDecref sha)
  match handle with
  | none => pure none
  | some h => perform (.delete h)

/-- `for sha in shas: self._release(sha)`. -/
def releaseAll : List Sha → StoreProg Sha (Option (PyErr Sha))
  | [] => pure none
  | sha :: shas => do
    match ← release sha with
    | some e => pure (some e)
    | none => releaseAll shas

/-- `for f in fs: f.result()`. -/
def results : List FutId → StoreProg Sha (Option (PyErr Sha))
  | [] => pure none
  | f :: fs => do
    let raised : Option (PyErr Sha) ← perform (.result f)
    match raised with
    | some e => pure (some e)
    | none => results fs

/-- `while len(running) >= self.upload_workers: …`. Each wait takes at least one future out of
`running`, so that as many rounds as there are futures are enough. -/
def waitSlot (workers : Nat) : Nat → List FutId →
    StoreProg Sha (List FutId × Option (PyErr Sha))
  | 0, running => pure (running, none)
  | k + 1, running =>
    if workers ≤ running.length then do
      let done : List FutId ← perform (.waitFirst running)
      match ← results done with
      | some e => pure (running.filter (· ∉ done), some e)
      | none => waitSlot workers k (running.filter (· ∉ done))
    else pure (running, none)

def Refs.fut (r : Refs Sha) (sha : Sha) : Option FutId :=
  (r.pending.find? fun p => p.1 = sha).map (·.2)

/-- Take a reference to a chunk that was read: on an upload of this call, on a blob that is
known, or on a new upload. -/
def acquire (workers : Nat) (sha : Sha) (data : Bytes) (r : Refs Sha) :
    StoreProg Sha (Refs Sha × Option (PyErr Sha)) :=
  if (Refs.fut r sha).isSome then pure ({ r with dups := r.dups ++ [sha] }, none)
  else do
    let known : Bool ← perform (.claimKnown sha)
    if known then pure ({ r with acquired := r.acquired ++ [sha] }, none)
    else do
      match ← waitSlot workers r.running.length r.running with
      | (running, some e) => pure ({ r with running := running }, some e)
      | (running, none) => do
        let fut : FutId ← perform (.submit sha data)
        pure ({ acquired := r.acquired ++ [sha], pending := r.pending ++ [(sha, fut)]
                dups := r.dups, running := running ++ [fut] }, none)

/-- The stored row that `put_file` reuses for the chunk at `idx`, if it need not read it. -/
def cleanRow (dirty : Option (Finset Nat)) (old : List (Chunk Sha)) (idx off want : Nat) :
    Option (Chunk Sha) :=
  match dirty with
  | none => none
  | some d =>
    if idx ∈ d then none
    else old[idx]?.filter fun row => row.off = off ∧ row.len = want

variable [Sha256 Sha]

def putLoop (cfg : StoreConfig) (ino : Ino) (size : Nat) (dirty : Option (Finset Nat))
    (old : List (Chunk Sha)) (st : PutState Sha) :
    StoreProg Sha (PutState Sha × Option (PyErr Sha)) :=
  if _hoff : st.off < size then
    match cleanRow dirty old st.idx st.off (min cfg.chunkSize (size - st.off)) with
    | some row =>
      .act (.claimKnown row.sha) fun (known : Bool) =>
        if known then
          putLoop cfg ino size dirty old
            { idx := st.idx + 1
              off := st.off + min cfg.chunkSize (size - st.off)
              pos := st.off + min cfg.chunkSize (size - st.off)
              new := st.new ++ [⟨st.idx, st.off, min cfg.chunkSize (size - st.off), row.sha⟩]
              refs := { st.refs with acquired := st.refs.acquired ++ [row.sha] } }
        else .ret (st, some (.cleanChunkMissing st.idx ino))
    | none =>
      .act (.read st.pos (min cfg.chunkSize (size - st.off)))
        fun (got : Except (PyErr Sha) Bytes) =>
        match got with
        | .error e => .ret (st, some e)
        | .ok data =>
          if _hdata : data = [] then .ret (st, none)
          else
            (acquire cfg.uploadWorkers (sha256 data) data st.refs).bind fun acq =>
              match acq with
              | (refs, some e) => .ret ({ st with refs := refs }, some e)
              | (refs, none) =>
                putLoop cfg ino size dirty old
                  { idx := st.idx + 1
                    off := st.off + data.length
                    pos := st.pos + data.length
                    new := st.new ++ [⟨st.idx, st.off, data.length, sha256 data⟩]
                    refs := refs }
  else .ret (st, none)
termination_by size - st.off
decreasing_by
  · have := cfg.chunkSize_pos
    omega
  · have := List.length_pos_iff.mpr _hdata
    omega

/-- `for sha in dups: self.meta.blob_incref(sha)`. -/
def increfAll : List Sha → StoreProg Sha Unit
  | [] => pure ()
  | sha :: shas => do
    let _ : Unit ← perform (.blobIncref sha)
    increfAll shas

/-- The body of `put_file`'s `try`. -/
def putBody (cfg : StoreConfig) (ino : Ino) (size : Nat) (dirty : Option (Finset Nat))
    (old : List (Chunk Sha)) : StoreProg Sha (PutState Sha × Option (PyErr Sha)) := do
  match ← putLoop cfg ino size dirty old {} with
  | (st, some e) => pure (st, some e)
  | (st, none) => do
    match ← results (st.refs.pending.map (·.2)) with
    | some e => pure (st, some e)
    | none => do
      increfAll st.refs.dups
      pure ({ st with refs := { st.refs with
        acquired := st.refs.acquired ++ st.refs.dups } }, none)

/-- `for fut in pending.values(): fut.cancel()`. -/
def cancelAll : List FutId → StoreProg Sha Unit
  | [] => pure ()
  | f :: fs => do
    let _ : Unit ← perform (.cancel f)
    cancelAll fs

/-- The release of what was acquired, except for uploads that never registered. -/
def releaseAcquired (r : Refs Sha) : List Sha → StoreProg Sha (Option (PyErr Sha))
  | [] => pure none
  | sha :: shas => do
    let skip : Bool ← match Refs.fut r sha with
      | some f => perform (.failed f)
      | none => pure false
    if skip then releaseAcquired r shas
    else do
      match ← release sha with
      | some e => pure (some e)
      | none => releaseAcquired r shas

/-- The `except` clause of `put_file`, up to its `raise`. -/
def rollback (r : Refs Sha) : StoreProg Sha (Option (PyErr Sha)) := do
  cancelAll (r.pending.map (·.2))
  let _ : Unit ← perform (.waitAll (r.pending.map (·.2)))
  releaseAcquired r r.acquired

def putFile (cfg : StoreConfig) (ino : Ino) (size : Nat) (dirty : Option (Finset Nat)) :
    StoreProg Sha (Except (PyErr Sha) Unit) := do
  let old : List (Chunk Sha) ← perform (.getChunks ino)
  match ← putBody cfg ino size dirty old with
  | (st, some e) => do
    match ← rollback st.refs with
    | some e' => pure (.error e')
    | none => pure (.error e)
  | (st, none) => do
    let _ : Unit ← perform (.setChunks ino st.new)
    let _ : Unit ← perform (.setSize ino st.off)
    match ← releaseAll (old.map (·.sha)) with
    | some e => pure (.error e)
    | none => pure (.ok ())

def freeFile (ino : Ino) : StoreProg Sha (Except (PyErr Sha) Unit) := do
  let shas : List Sha ← perform (.getChunkShas ino)
  match ← releaseAll shas with
  | some e => pure (.error e)
  | none => do
    let _ : Unit ← perform (.setChunks ino [])
    pure (.ok ())

/-! ## Reading -/

/-- The `load` that `_fetcher` returns. -/
def loadBlob (sha : Sha) (b : Blob) : StoreProg Sha (Except (PyErr Sha) Bytes) := do
  let got : Except (PyErr Sha) Bytes ← perform (.download b.handle)
  match got with
  | .error e => pure (.error e)
  | .ok data =>
    if sha256 data = sha then pure (.ok data) else pure (.error (.integrityCheck sha))

/-- `self._fetcher(sha)` and a call of the loader it returns. -/
def fetch (sha : Sha) : StoreProg Sha (Except (PyErr Sha) Bytes) := do
  let row : Option Blob ← perform (.blobGet sha)
  match row with
  | none => pure (.error (.blobNotInIndex sha))
  | some b => loadBlob sha b

/-- `b"".join(part(ch) for ch in hit)`, the bytes `[offset, end)` of each chunk. -/
def readParts (offset fin : Nat) : List (Chunk Sha) → StoreProg Sha (Except (PyErr Sha) Bytes)
  | [] => pure (.ok [])
  | c :: cs => do
    match ← fetch c.sha with
    | .error e => pure (.error e)
    | .ok data => do
      let lo := max offset c.off - c.off
      let hi := min fin (c.off + c.len) - c.off
      match ← readParts offset fin cs with
      | .error e => pure (.error e)
      | .ok rest => pure (.ok (pread data lo (hi - lo) ++ rest))

def readRange (ino : Ino) (offset length : Nat) : StoreProg Sha (Except (PyErr Sha) Bytes) :=
  if length = 0 then pure (.ok [])
  else do
    let chunks : List (Chunk Sha) ← perform (.getChunks ino)
    readParts offset (offset + length)
      (chunks.filter fun c => c.off + c.len > offset ∧ c.off < offset + length)

end Store

end Tgfs
