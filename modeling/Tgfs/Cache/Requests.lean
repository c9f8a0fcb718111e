import Tgfs.Cache.FileOps
import Tgfs.Misc.Journal
import Tgfs.Store.Journal

/-!
# What a state asks the store for

The operations on a `_FileState` once more, with the calls that cost a transfer written down: the
chunks requested from `iter_chunks`, the ranges requested from `read_range`, and the uploads that
the `put_file` of a sync makes. `erases_opened` says that nothing else was changed.
-/

namespace Tgfs

inductive Ask (Sha : Type) where
  /-- `iter_chunks` was asked for the base chunk `b` at `idx`. -/
  | chunk (idx : Nat) (b : BaseChunk Sha)
  /-- `read_range` was called. -/
  | range (offset size : Nat)
  /-- `backend.upload` was called. -/
  | upload (data : Bytes)
  deriving DecidableEq, Repr

def Ask.sha {Sha : Type} : Ask Sha → Option Sha
  | .chunk _ b => some b.sha
  | _ => none

/-- The uploads among the calls of the backend. -/
def Ask.ofCall {Sha : Type} : BackendCall → Option (Ask Sha)
  | .upload data => some (.upload data)
  | .delete _ => none

abbrev AskRun (Sha α : Type) : Type :=
  Run Tick (FileCtx Sha × List (Ask Sha)) (PyErr Sha) α

namespace Asking

open Run (quiet note)
open Wb

variable {Sha : Type}

/-- The indices that `_load` needs. -/
def need (st : FileState Sha) (lo hi : Nat) (skip : Finset Nat) : List Nat :=
  (List.range' lo (min hi st.base.length - lo)).filter fun i => i ∉ st.loaded ∧ i ∉ skip

/-- The chunks that `_load` passes to `iter_chunks`. -/
def asked (st : FileState Sha) (lo hi : Nat) (skip : Finset Nat) : List (Ask Sha) :=
  (need st lo hi skip).filterMap fun i => st.base[i]?.map (.chunk i)

variable [DecidableEq Sha] [Sha256 Sha]

/-- A call of a method of the store that uploads. -/
def call {α : Type} (src : Src Sha) (p : StoreProg Sha (Except (PyErr Sha) α)) : AskRun Sha α :=
  Run.zoom (fun s => (s.1.store, ([] : List BackendCall)))
    (fun r s => ({ s.1 with store := r.1 }, s.2 ++ r.2.filterMap Ask.ofCall))
    fun ts n s => Store.journal.seqRun src ts p n s

def load (lo hi : Nat) (skip : Finset Nat) : AskRun Sha Unit := do
  let st ← quiet getState
  note (asked st lo hi skip)
  quiet (Wb.load lo hi skip)

def materialize (cfg : WbConfig) : AskRun Sha Unit := do
  let st ← quiet getState
  if st.materialized then pure ()
  else do
    let rows ← quiet getRows
    let inode ← quiet getInode
    match inode with
    | none => quiet (Run.raise .attributeError)
    | some n => do
      let base := rows.map BaseChunk.ofRow
      quiet (setState fun st =>
        { st with size := n.size, base := base, loaded := ∅, dirtyIdx := ∅ })
      if aligned cfg.chunkSize base then pure ()
      else do
        load 0 base.length ∅
        quiet (setState fun st =>
          { st with dirtyIdx := Finset.range base.length, base := [], loaded := ∅ })
      quiet (setState fun st => { st with materialized := true })

def prepare (cfg : WbConfig) (start fin : Nat) (overwrite : Bool) : AskRun Sha Unit := do
  let st ← quiet getState
  let fin := min fin st.size
  if fin ≤ start ∨ st.base = [] then pure ()
  else do
    let lo := start / cfg.chunkSize
    let hi := (fin - 1) / cfg.chunkSize + 1
    let skip := if overwrite then covered st.base lo hi start fin else ∅
    quiet (setState fun st => { st with loaded := st.loaded ∪ skip })
    load lo hi skip

def touch (b : Nat) : AskRun Sha Unit := do
  load b (b + 1) ∅
  quiet (setState fun st => { st with dirtyIdx := insert b st.dirtyIdx })

def grow (cfg : WbConfig) (newSize : Nat) : AskRun Sha Unit := do
  let st ← quiet getState
  let cs := cfg.chunkSize
  if newSize ≤ st.size then pure ()
  else do
    if st.base ≠ [] ∧ st.size % cs ≠ 0 ∧ st.base.length = st.size / cs + 1 then
      touch (st.base.length - 1)
    else pure ()
    quiet (setState fun st => { st with size := newSize })

def read (cfg : WbConfig) (size offset : Nat) : AskRun Sha Bytes := do
  let st ← quiet getState
  if st.materialized then
    let fin := min (offset + size) st.size
    if fin ≤ offset then pure []
    else do
      prepare cfg offset fin false
      quiet (tempRead offset (fin - offset))
  else do
    note [.range offset size]
    quiet (Wb.call noSrc (Store.readRange st.ino offset size))

def write (cfg : WbConfig) (data : Bytes) (offset : Nat) : AskRun Sha Nat := do
  materialize cfg
  let fin := offset + data.length
  prepare cfg offset fin true
  grow cfg fin
  quiet (tempWrite offset data)
  let cs := cfg.chunkSize
  let touched := if data = [] then ∅ else Finset.Ico (offset / cs) ((fin - 1) / cs + 1)
  quiet (setState fun st => { st with dirtyIdx := st.dirtyIdx ∪ touched, dirty := true })
  pure data.length

def shrink (cfg : WbConfig) (length : Nat) : AskRun Sha Unit := do
  let st ← quiet getState
  let cs := cfg.chunkSize
  if length % cs ≠ 0 ∧ length / cs < st.base.length then touch (length / cs)
  else pure ()
  let keep := (length + cs - 1) / cs
  quiet (setState fun st => { st with
    base := st.base.take keep
    loaded := st.loaded.filter (· < keep)
    dirtyIdx := st.dirtyIdx.filter (· < keep)
    size := length })

def truncate (cfg : WbConfig) (length : Nat) : AskRun Sha Unit := do
  materialize cfg
  let st ← quiet getState
  if length < st.size then shrink cfg length
  else grow cfg length
  quiet (tempTruncate length)
  quiet (setState fun st => { st with dirty := true })

def flushLocked (cfg : WbConfig) : AskRun Sha Unit := do
  let st ← quiet getState
  if st.dirty then do
    quiet (tempTruncate st.size)
    let temp ← quiet (Run.gets FileCtx.temp)
    call (tempSrc st.closed temp)
      (Store.putFile cfg.toStoreConfig st.ino st.size (some st.dirtyIdx))
    let rows ← quiet getRows
    quiet (setState fun s => { s with
      base := rows.map BaseChunk.ofRow
      loaded := s.loaded ∪ Finset.Ico st.base.length rows.length
      dirtyIdx := ∅
      dirty := false })
  else pure ()

def perform (cfg : WbConfig) : FileOp → AskRun Sha Bytes
  | .write offset data => do
    let _ ← write cfg data offset
    pure []
  | .truncate length => do
    truncate cfg length
    pure []
  | .read offset size => read cfg size offset
  | .sync => do
    flushLocked cfg
    pure []

def performAll (cfg : WbConfig) : List FileOp → AskRun Sha (List (Bytes × Option Nat))
  | [] => pure []
  | op :: ops => do
    let answer ← perform cfg op
    let st ← quiet getState
    let rest ← performAll cfg ops
    pure ((answer, liveSize (some st)) :: rest)

def opened (cfg : WbConfig) (forWrite : Bool) (ops : List FileOp) :
    AskRun Sha (List (Bytes × Option Nat)) := do
  if forWrite then materialize cfg else pure ()
  performAll cfg ops

/-! ## Without the notes -/

open Run (Erases erases_quiet erases_pure)

omit [Sha256 Sha] in
theorem erases_call {α : Type} (src : Src Sha) (p : StoreProg Sha (Except (PyErr Sha) α)) :
    Erases (call src p) (Wb.call src p) := by
  intro ts n s
  obtain ⟨h₁, h₂, h₃⟩ := Store.machine.seqRun_noting ⟨Store.actCalls, Store.poolCalls⟩ src ts p n
    (s.1.store, ([] : List BackendCall))
  exact Prod.ext h₁.symm (Prod.ext h₂.symm (congrArg (fun t => { s.1 with store := t }) h₃.symm))

theorem erases_load (lo hi : Nat) (skip : Finset Nat) :
    Erases (load lo hi skip) (Wb.load lo hi skip : FileRun Sha Unit) :=
  fun _ _ _ => rfl

theorem erases_materialize (cfg : WbConfig) :
    Erases (materialize cfg) (Wb.materialize cfg : FileRun Sha Unit) := by
  refine (erases_quiet _).bind fun st => Erases.ite (erases_pure ()) ?_
  refine (erases_quiet _).bind fun rows => (erases_quiet _).bind fun inode => ?_
  cases inode with
  | none => exact erases_quiet _
  | some n =>
    refine (erases_quiet _).bind fun _ => ?_
    refine Erases.ite (erases_quiet _) ?_
    exact (erases_load _ _ _).bind fun _ => (erases_quiet _).bind fun _ => erases_quiet _

theorem erases_prepare (cfg : WbConfig) (start fin : Nat) (overwrite : Bool) :
    Erases (prepare cfg start fin overwrite) (Wb.prepare cfg start fin overwrite : FileRun Sha Unit) :=
  (erases_quiet _).bind fun _ => Erases.ite (erases_pure ())
    ((erases_quiet _).bind fun _ => erases_load _ _ _)

theorem erases_touch (b : Nat) : Erases (touch b) (Wb.touch b : FileRun Sha Unit) :=
  (erases_load _ _ _).bind fun _ => erases_quiet _

theorem erases_grow (cfg : WbConfig) (newSize : Nat) :
    Erases (grow cfg newSize) (Wb.grow cfg newSize : FileRun Sha Unit) :=
  (erases_quiet _).bind fun _ => Erases.ite (erases_pure ())
    (Erases.ite ((erases_touch _).bind fun _ => erases_quiet _) (erases_quiet _))

theorem erases_shrink (cfg : WbConfig) (length : Nat) :
    Erases (shrink cfg length) (Wb.shrink cfg length : FileRun Sha Unit) :=
  (erases_quiet _).bind fun _ =>
    Erases.ite ((erases_touch _).bind fun _ => erases_quiet _) (erases_quiet _)

theorem erases_write (cfg : WbConfig) (data : Bytes) (offset : Nat) :
    Erases (write cfg data offset) (Wb.write cfg data offset : FileRun Sha Nat) :=
  (erases_materialize cfg).bind fun _ => (erases_prepare _ _ _ _).bind fun _ =>
    (erases_grow _ _).bind fun _ => (erases_quiet _).bind fun _ =>
      (erases_quiet _).bind fun _ => erases_pure _

theorem erases_truncate (cfg : WbConfig) (length : Nat) :
    Erases (truncate cfg length) (Wb.truncate cfg length : FileRun Sha Unit) :=
  (erases_materialize cfg).bind fun _ => (erases_quiet _).bind fun _ =>
    Erases.ite
      ((erases_shrink _ _).bind fun _ => (erases_quiet _).bind fun _ => erases_quiet _)
      ((erases_grow _ _).bind fun _ => (erases_quiet _).bind fun _ => erases_quiet _)

theorem erases_read (cfg : WbConfig) (size offset : Nat) :
    Erases (read cfg size offset) (Wb.read cfg size offset : FileRun Sha Bytes) :=
  (erases_quiet _).bind fun _ => Erases.ite
    (Erases.ite (erases_pure []) ((erases_prepare _ _ _ _).bind fun _ => erases_quiet _))
    ((erases_quiet _).note_bind _)

theorem erases_flushLocked (cfg : WbConfig) :
    Erases (flushLocked cfg) (Wb.flushLocked cfg : FileRun Sha Unit) :=
  (erases_quiet _).bind fun _ => Erases.ite
    ((erases_quiet _).bind fun _ => (erases_quiet _).bind fun _ => (erases_call _ _).bind fun _ =>
      (erases_quiet _).bind fun _ => erases_quiet _)
    (erases_pure ())

theorem erases_perform (cfg : WbConfig) (op : FileOp) :
    Erases (perform cfg op) (Wb.perform cfg op : FileRun Sha Bytes) := by
  cases op with
  | write offset data => exact (erases_write cfg data offset).bind fun _ => erases_pure _
  | truncate length => exact (erases_truncate cfg length).bind fun _ => erases_pure _
  | read offset size => exact erases_read cfg size offset
  | sync => exact (erases_flushLocked cfg).bind fun _ => erases_pure _

theorem erases_performAll (cfg : WbConfig) (ops : List FileOp) :
    Erases (performAll cfg ops) (Wb.performAll cfg ops : FileRun Sha _) := by
  induction ops with
  | nil => exact erases_pure []
  | cons op ops ih =>
    exact (erases_perform cfg op).bind fun _ => (erases_quiet _).bind fun _ =>
      ih.bind fun _ => erases_pure _

theorem erases_opened (cfg : WbConfig) (forWrite : Bool) (ops : List FileOp) :
    Erases (opened cfg forWrite ops) (Wb.opened cfg forWrite ops : FileRun Sha _) :=
  Erases.ite ((erases_materialize cfg).bind fun _ => erases_performAll cfg ops)
    (erases_performAll cfg ops)

end Asking

/-! ## What the calls of the store do -/

namespace Acting

open Run (quiet Erases erases_quiet erases_pure)
open Wb

variable {Sha : Type} [DecidableEq Sha] [Sha256 Sha]

omit [Sha256 Sha] in
/-- A call of a method of the store, with the actions that it performs written down. -/
def call {α : Type} (src : Src Sha) (p : StoreProg Sha (Except (PyErr Sha) α)) :
    Run Tick (FileCtx Sha × List (Act Sha)) (PyErr Sha) α := fun ts n s =>
  let out := Wb.call src p ts n s.1
  (out.1, out.2.1, out.2.2, s.2 ++ Store.machine.acts src ts p n s.1.store)

def loadEach : List Nat → Run Tick (FileCtx Sha × List (Act Sha)) (PyErr Sha) Unit
  | [] => pure ()
  | i :: is => do
    let st ← quiet getState
    match st.base[i]? with
    | none => pure ()
    | some b => do
      let data ← call noSrc (Store.fetch b.sha)
      quiet (tempWrite b.off data)
      quiet (setState fun st => { st with loaded := insert i st.loaded })
      loadEach is

def load (lo hi : Nat) (skip : Finset Nat) :
    Run Tick (FileCtx Sha × List (Act Sha)) (PyErr Sha) Unit := do
  let st ← quiet getState
  loadEach (Asking.need st lo hi skip)

def flushLocked (cfg : WbConfig) : Run Tick (FileCtx Sha × List (Act Sha)) (PyErr Sha) Unit := do
  let st ← quiet getState
  if st.dirty then do
    quiet (tempTruncate st.size)
    let temp ← quiet (Run.gets FileCtx.temp)
    call (tempSrc st.closed temp)
      (Store.putFile cfg.toStoreConfig st.ino st.size (some st.dirtyIdx))
    let rows ← quiet getRows
    quiet (setState fun s => { s with
      base := rows.map BaseChunk.ofRow
      loaded := s.loaded ∪ Finset.Ico st.base.length rows.length
      dirtyIdx := ∅
      dirty := false })
  else pure ()

omit [Sha256 Sha] in
theorem erases_call {α : Type} (src : Src Sha) (p : StoreProg Sha (Except (PyErr Sha) α)) :
    Erases (call src p) (Wb.call src p) :=
  fun _ _ _ => rfl

theorem erases_loadEach (is : List Nat) :
    Erases (loadEach is) (Wb.loadEach is : FileRun Sha Unit) := by
  induction is with
  | nil => exact erases_pure ()
  | cons i is ih =>
    refine (erases_quiet _).bind fun st => ?_
    cases st.base[i]? with
    | none => exact erases_pure ()
    | some b =>
      exact (erases_call _ _).bind fun _ => (erases_quiet _).bind fun _ =>
        (erases_quiet _).bind fun _ => ih

theorem erases_load (lo hi : Nat) (skip : Finset Nat) :
    Erases (load lo hi skip) (Wb.load lo hi skip : FileRun Sha Unit) :=
  (erases_quiet _).bind fun _ => erases_loadEach _

theorem erases_flushLocked (cfg : WbConfig) :
    Erases (flushLocked cfg) (Wb.flushLocked cfg : FileRun Sha Unit) :=
  (erases_quiet _).bind fun _ => Erases.ite
    ((erases_quiet _).bind fun _ => (erases_quiet _).bind fun _ => (erases_call _ _).bind fun _ =>
      (erases_quiet _).bind fun _ => erases_quiet _)
    (erases_pure ())

end Acting

end Tgfs
