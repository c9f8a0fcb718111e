import Tgfs.Cache.FileOps

/-!
# `WritebackManager` (`tgfs/cache.py`)

The states that the manager has built, the table `_states` of those that are registered, and
the directory of temp files. A state keeps its file object when another file is linked at its
path, so files are told apart by a generation. Each section under the manager's lock is a
function on the whole (`openLocked`, `releaseLocked`, `reapLocked`), and what happens under a
state's lock is code on that state (`onState`).
-/

namespace Tgfs

/-- The identity of a `_FileState` object. -/
abbrev StateId : Type := Nat

structure Writeback (Sha : Type) where
  store : Store Sha
  /-- The contents of the files that were ever linked at an inode's `temp_path`. -/
  files : Ino × Nat → Bytes
  /-- The generation that is linked at the path now. -/
  linked : Ino → Option Nat
  nextGen : Nat
  heap : StateId → FileState Sha
  nextState : StateId
  /-- `_states`, in the order of insertion. -/
  states : List (Ino × StateId)

abbrev WbRun (Sha α : Type) : Type := Run Tick (Writeback Sha) (PyErr Sha) α

namespace Writeback

variable {Sha : Type}

/-- `self._states.get(ino)`. -/
def get (w : Writeback Sha) (ino : Ino) : Option StateId :=
  (w.states.find? fun p => p.1 = ino).map (·.2)

/-- `self._states.pop(ino, None)`. -/
def pop (ino : Ino) (w : Writeback Sha) : Writeback Sha :=
  { w with states := w.states.filter fun p => p.1 ≠ ino }

def modState (sid : StateId) (f : FileState Sha → FileState Sha) (w : Writeback Sha) :
    Writeback Sha :=
  { w with heap := Function.update w.heap sid (f (w.heap sid)) }

/-- `open(temp_path, "w+b")`: the file that is linked there is cut to nothing. -/
def openTemp (ino : Ino) (w : Writeback Sha) : Nat × Writeback Sha :=
  match w.linked ino with
  | some g => (g, { w with files := Function.update w.files (ino, g) [] })
  | none =>
    (w.nextGen, { w with
      files := Function.update w.files (ino, w.nextGen) []
      linked := Function.update w.linked ino (some w.nextGen)
      nextGen := w.nextGen + 1 })

/-- `_FileState(ino, tmp)`, registered. -/
def newState (ino : Ino) (w : Writeback Sha) : StateId × Writeback Sha :=
  let (gen, w₁) := w.openTemp ino
  (w₁.nextState, { w₁ with
    heap := Function.update w₁.heap w₁.nextState { ino := ino, gen := gen }
    nextState := w₁.nextState + 1
    states := w₁.states ++ [(ino, w₁.nextState)] })

/-- The section of `open` under the manager's lock. -/
def openLocked (ino : Ino) (w : Writeback Sha) : StateId × Writeback Sha :=
  let (sid, w₁) := match w.get ino with
    | some sid => (sid, w)
    | none => w.newState ino
  (sid, w₁.modState sid fun st => { st with refcount := st.refcount + 1 })

/-- The section of `release` under the manager's lock: whether the state is to be flushed and
closed. -/
def releaseLocked (cfg : WbConfig) (now : Time) (sid : StateId) (w : Writeback Sha) :
    Bool × Writeback Sha :=
  let w₁ := w.modState sid fun st => { st with refcount := st.refcount - 1 }
  if 0 < (w₁.heap sid).refcount then (false, w₁)
  else if 0 < cfg.flushDelay ∧ (w₁.heap sid).dirty = true then
    (false, w₁.modState sid fun st => { st with idleSince := now })
  else (true, w₁.pop (w₁.heap sid).ino)

/-- `_close_state`: whatever file is linked at the path is unlinked. -/
def closeState (sid : StateId) (w : Writeback Sha) : Writeback Sha :=
  { w.modState sid (fun st => { st with closed := true }) with
    linked := Function.update w.linked (w.heap sid).ino none }

/-- The states the reaper takes up. -/
def candidates (cfg : WbConfig) (force : Bool) (now : Time) (w : Writeback Sha) : List StateId :=
  (w.states.map (·.2)).filter fun sid => (w.heap sid).refcount = 0 ∧
    (force = true ∨ (w.heap sid).idleSince + cfg.flushDelay ≤ now)

/-- The section of the reaper that removes a state: whether it is to be closed. -/
def reapLocked (sid : StateId) (w : Writeback Sha) : Bool × Writeback Sha :=
  if (w.heap sid).refcount = 0 ∧ w.get (w.heap sid).ino = some sid then
    (true, w.pop (w.heap sid).ino)
  else (false, w)

/-- `for st in self._states.values(): st.refcount = 0`. -/
def zeroCounts (w : Writeback Sha) : Writeback Sha :=
  { w with
    heap := fun sid =>
      if w.states.any (fun p => p.2 = sid) then { w.heap sid with refcount := 0 } else w.heap sid }

/-- `live_size`. -/
def liveSize (w : Writeback Sha) (ino : Ino) : Option Nat := Wb.liveSize ((w.get ino).map w.heap)

/-! ## A state and its temp file -/

def view (sid : StateId) (w : Writeback Sha) : FileCtx Sha :=
  ⟨w.heap sid, w.files ((w.heap sid).ino, (w.heap sid).gen), w.store⟩

def put (sid : StateId) (c : FileCtx Sha) (w : Writeback Sha) : Writeback Sha :=
  { w with
    heap := Function.update w.heap sid c.st
    files := Function.update w.files ((w.heap sid).ino, (w.heap sid).gen) c.temp
    store := c.store }

/-- `with st.lock: …`. -/
def onState {α : Type} (sid : StateId) (m : FileRun Sha α) : WbRun Sha α :=
  Run.zoom (view sid) (put sid) m

variable [DecidableEq Sha] [Sha256 Sha]

/-- A call of a method of the store that reads no source file. -/
def callStore {α : Type} (p : StoreProg Sha (Except (PyErr Sha) α)) : WbRun Sha α :=
  Run.zoom Writeback.store (fun s w => { w with store := s })
    fun ts n s => Store.machine.seqRun Wb.noSrc ts p n s

/-! ## The methods -/

def openFile (cfg : WbConfig) (ino : Ino) (forWrite : Bool) : WbRun Sha StateId := do
  let sid ← Run.modifyGet (openLocked ino)
  if forWrite then
    onState sid (Wb.materialize cfg)
    pure sid
  else pure sid

def release (cfg : WbConfig) (sid : StateId) : WbRun Sha Unit := do
  let t ← Run.tick
  let last ← Run.modifyGet (releaseLocked cfg t.now sid)
  if last then
    onState sid (Wb.flushLocked cfg)
    Run.modify (closeState sid)
  else pure ()

def discard (ino : Ino) : WbRun Sha Unit := do
  let sid ← Run.modifyGet fun w : Writeback Sha => (w.get ino, w.pop ino)
  match sid with
  | none => pure ()
  | some sid => do
    Run.modify (modState sid fun st => { st with dirty := false })
    Run.modify (closeState sid)

/-- `_reap_once` for one candidate: the exception that is logged, if the flush raises one. -/
def reapState (cfg : WbConfig) (force : Bool) (sid : StateId) :
    WbRun Sha (Option (PyErr Sha)) := do
  let raised ← Run.tryCatch
    (do
      onState sid (Wb.flushLocked cfg)
      pure none)
    fun e => do
      let t ← Run.tick
      Run.modify (modState sid fun st => { st with idleSince := t.now })
      if force then Run.raise e else pure (some e)
  match raised with
  | some e => pure (some e)
  | none => do
    let done ← Run.modifyGet (reapLocked sid)
    if done then
      Run.modify (closeState sid)
      pure none
    else pure none

def reapEach (cfg : WbConfig) (force : Bool) : List StateId → WbRun Sha (List (PyErr Sha))
  | [] => pure []
  | sid :: sids => do
    let raised ← reapState cfg force sid
    let rest ← reapEach cfg force sids
    pure (raised.toList ++ rest)

/-- `_reap_once`, with the exceptions it logs. -/
def reapOnce (cfg : WbConfig) (force : Bool) : WbRun Sha (List (PyErr Sha)) := do
  let t ← Run.tick
  let cands ← Run.gets (candidates cfg force t.now)
  reapEach cfg force cands

/-- `shutdown`, once the reaper thread is told to stop. -/
def shutdown (cfg : WbConfig) : WbRun Sha Unit := do
  Run.modify zeroCounts
  let _ ← reapOnce cfg true
  pure ()

def truncatePath (cfg : WbConfig) (ino : Ino) (length : Nat) : WbRun Sha Unit := do
  let sid ← openFile cfg ino true
  Run.andFinally
    (do
      onState sid (Wb.truncate cfg length)
      onState sid (Wb.flush cfg))
    (release cfg sid)

end Writeback

end Tgfs
