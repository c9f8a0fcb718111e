import Tgfs.Misc.Prog
import Tgfs.Meta

/-!
# The store's state and its atomic actions

`Store` keeps no content of its own: its state is the metadata index, the backend and the
futures of its upload pool. The methods of `tgfs/store.py` are programs over the actions
below, each of which is one indivisible step: a `Meta` call, a section under `_blob_lock`, a
backend call, a read of the source file, or an operation on futures. The steps of the upload
pool (`poolStep`) run beside them; they are the body of `_upload_blob`.
-/

namespace Tgfs

/-! ## The backend (`tgfs/backend.py`) -/

/-- What a `Backend` holds. Handles count upwards and are never given out twice. -/
structure Backend where
  blobs : Handle → Option Bytes
  next : Handle

namespace Backend

def empty : Backend := ⟨fun _ => none, 1⟩

def upload (data : Bytes) (b : Backend) : Handle × Backend :=
  (b.next, ⟨Function.update b.blobs b.next (some data), b.next + 1⟩)

def download (handle : Handle) (b : Backend) : Option Bytes := b.blobs handle

def delete (handle : Handle) (b : Backend) : Backend :=
  { b with blobs := Function.update b.blobs handle none }

end Backend

/-! ## Futures of the upload pool -/

abbrev FutId : Type := Nat

/-- How far a submitted `_upload_blob(sha, data)` has come. -/
inductive Phase (Sha : Type) where
  | queued
  | running
  /-- Uploaded; the section under `_blob_lock` is still to come. -/
  | uploaded (handle : Handle)
  /-- Another writer registered the hash first; our copy is to be deleted. -/
  | dropCopy (handle : Handle)
  | done
  | failed (e : PyErr Sha)
  | cancelled
  deriving DecidableEq, Repr

structure Task (Sha : Type) where
  sha : Sha
  data : Bytes
  phase : Phase Sha
  deriving DecidableEq, Repr

namespace Phase

variable {Sha : Type}

/-- `Future.done()`. -/
def settled : Phase Sha → Bool
  | .done | .failed _ | .cancelled => true
  | _ => false

/-- Whether the task's section under `_blob_lock` has run, so that it holds a reference. -/
def registered : Phase Sha → Bool
  | .dropCopy _ | .done => true
  | _ => false

/-- The pool steps a phase is away from being settled, at most. -/
def rank : Phase Sha → Nat
  | .queued => 4
  | .running => 3
  | .uploaded _ => 2
  | .dropCopy _ => 1
  | .done | .failed _ | .cancelled => 0

theorem settled_iff_rank (p : Phase Sha) : p.settled = true ↔ p.rank = 0 := by
  cases p <;> simp [settled, rank]

end Phase

/-! ## State -/

structure Store (Sha : Type) where
  index : Meta Sha
  backend : Backend
  tasks : List (Task Sha)

/-- The numbers a `Store` is built with. -/
structure StoreConfig where
  chunkSize : Nat
  uploadWorkers : Nat
  chunkSize_pos : 0 < chunkSize
  /-- `self.upload_workers = max(1, upload_workers)`. -/
  uploadWorkers_pos : 0 < uploadWorkers

/-- What the surroundings decide about one step of the pool. -/
structure PoolTick where
  uploadFails : Bool := false
  deleteFails : Bool := false
  deriving DecidableEq, Repr

/-- What the surroundings decide about one action. -/
structure Tick where
  /-- Pool steps that happen before the action. -/
  before : List (FutId × PoolTick) := []
  /-- How the futures end, should the action have to wait for them. -/
  finish : FutId → PoolTick := fun _ => {}
  now : Time := 0
  downloadFails : Bool := false
  deleteFails : Bool := false

inductive Act (Sha : Type) where
  | getChunks (ino : Ino)
  | getChunkShas (ino : Ino)
  | blobGet (sha : Sha)
  /-- `with self._blob_lock: known = blob_get(sha) is not None; if known: blob_incref(sha)`. -/
  | claimKnown (sha : Sha)
  | blobIncref (sha : Sha)
  /-- `with self._blob_lock: handle = self.meta.blob_decref(sha)`. -/
  | blobDecref (sha : Sha)
  | setChunks (ino : Ino) (chunks : List (Chunk Sha))
  | setSize (ino : Ino) (size : Nat)
  | download (handle : Handle)
  | delete (handle : Handle)
  /-- `src.read(want)` with the file position at `pos`. -/
  | read (pos want : Nat)
  /-- `self._up.submit(self._upload_blob, sha, data)`. -/
  | submit (sha : Sha) (data : Bytes)
  /-- `wait(fs, return_when=FIRST_COMPLETED)`: the futures that are done. -/
  | waitFirst (fs : List FutId)
  | result (f : FutId)
  | cancel (f : FutId)
  | waitAll (fs : List FutId)
  /-- `f.cancelled() or f.exception()`. -/
  | failed (f : FutId)

namespace Act

variable {Sha : Type}

def Reply : Act Sha → Type
  | .getChunks _ => List (Chunk Sha)
  | .getChunkShas _ => List Sha
  | .blobGet _ => Option Blob
  | .claimKnown _ => Bool
  | .blobIncref _ => Unit
  | .blobDecref _ => Option Handle
  | .setChunks _ _ => Unit
  | .setSize _ _ => Unit
  | .download _ => Except (PyErr Sha) Bytes
  | .delete _ => Option (PyErr Sha)
  | .read _ _ => Except (PyErr Sha) Bytes
  | .submit _ _ => FutId
  | .waitFirst _ => List FutId
  | .result _ => Option (PyErr Sha)
  | .cancel _ => Unit
  | .waitAll _ => Unit
  | .failed _ => Bool

end Act

/-- The source file of `put_file`: what `read(want)` gives at a position. -/
abbrev Src (Sha : Type) : Type := Nat → Nat → Except (PyErr Sha) Bytes

namespace Store

variable {Sha : Type}

/-- The store over an empty database and a backend that holds nothing. -/
def empty (now : Time) (uid gid : Nat) : Store Sha := ⟨Meta.fresh now uid gid, Backend.empty, []⟩

def settled (s : Store Sha) (f : FutId) : Bool :=
  match s.tasks[f]? with
  | some t => t.phase.settled
  | none => true

def setPhase (s : Store Sha) (f : FutId) (t : Task Sha) (p : Phase Sha) : Store Sha :=
  { s with tasks := s.tasks.set f { t with phase := p } }

variable [DecidableEq Sha]

/-- One step of `_upload_blob`: the worker takes the task, uploads, registers the handle or
increments the refcount under `_blob_lock`, and deletes a copy nobody needs. -/
def poolStep (e : FutId × PoolTick) (s : Store Sha) : Store Sha :=
  match s.tasks[e.1]? with
  | none => s
  | some t =>
    match t.phase with
    | .queued => s.setPhase e.1 t .running
    | .running =>
      if e.2.uploadFails then s.setPhase e.1 t (.failed .uploadFailed)
      else
        let (handle, backend) := s.backend.upload t.data
        { s with backend := backend }.setPhase e.1 t (.uploaded handle)
    | .uploaded handle =>
      if (s.index.blobGet t.sha).isNone then
        { s with index := s.index.blobCreate t.sha handle t.data.length }.setPhase e.1 t .done
      else
        { s with index := s.index.blobIncref t.sha }.setPhase e.1 t (.dropCopy handle)
    | .dropCopy handle =>
      if e.2.deleteFails then s.setPhase e.1 t (.failed .deleteFailed)
      else { s with backend := s.backend.delete handle }.setPhase e.1 t .done
    | .done | .failed _ | .cancelled => s

/-- Whether the thread that performs the action does not have to wait. -/
def ready (a : Act Sha) (s : Store Sha) : Bool :=
  match a with
  | .waitFirst fs => fs.isEmpty || fs.any s.settled
  | .result f | .failed f => s.settled f
  | .waitAll fs => fs.all s.settled
  | _ => true

def exec (src : Src Sha) (t : Tick) : (a : Act Sha) → Store Sha → a.Reply × Store Sha
  | .getChunks ino, s => (s.index.getChunks ino, s)
  | .getChunkShas ino, s => (s.index.getChunkShas ino, s)
  | .blobGet sha, s => (s.index.blobGet sha, s)
  | .claimKnown sha, s =>
    if (s.index.blobGet sha).isSome then (true, { s with index := s.index.blobIncref sha })
    else (false, s)
  | .blobIncref sha, s => ((), { s with index := s.index.blobIncref sha })
  | .blobDecref sha, s =>
    ((s.index.blobDecref sha).1, { s with index := (s.index.blobDecref sha).2 })
  | .setChunks ino chunks, s => ((), { s with index := s.index.setChunks ino chunks })
  | .setSize ino size, s => ((), { s with index := s.index.setSize t.now ino size })
  | .download handle, s =>
    if t.downloadFails then (.error .downloadFailed, s)
    else
      match s.backend.download handle with
      | some data => (.ok data, s)
      | none => (.error (.noBlob handle), s)
  | .delete handle, s =>
    if t.deleteFails then (some .deleteFailed, s)
    else (none, { s with backend := s.backend.delete handle })
  | .read pos want, s => (src pos want, s)
  | .submit sha data, s => (s.tasks.length, { s with tasks := s.tasks ++ [⟨sha, data, .queued⟩] })
  | .waitFirst fs, s => (fs.filter s.settled, s)
  | .result f, s =>
    match s.tasks[f]? with
    | some ⟨_, _, .failed e⟩ => (some e, s)
    | some ⟨_, _, .cancelled⟩ => (some .cancelled, s)
    | _ => (none, s)
  | .cancel f, s =>
    match s.tasks[f]? with
    | some ⟨sha, data, .queued⟩ => ((), s.setPhase f ⟨sha, data, .queued⟩ .cancelled)
    | _ => ((), s)
  | .waitAll _, s => ((), s)
  | .failed f, s =>
    match s.tasks[f]? with
    | some ⟨_, _, .failed _⟩ | some ⟨_, _, .cancelled⟩ => (true, s)
    | _ => (false, s)

/-- The pool works off every future, in order. -/
def finishPool (t : Tick) (s : Store Sha) : List (FutId × PoolTick) :=
  (List.range s.tasks.length).flatMap fun f => List.replicate 4 (f, t.finish f)

/-! ## Blocked actions end -/

/-- The pool steps left for future `f`, at most. -/
def rank (s : Store Sha) (f : FutId) : Nat :=
  match s.tasks[f]? with
  | some t => t.phase.rank
  | none => 0

omit [DecidableEq Sha] in
theorem settled_iff_rank (s : Store Sha) (f : FutId) : s.settled f = true ↔ s.rank f = 0 := by
  unfold settled rank
  cases s.tasks[f]? with
  | none => simp
  | some t => exact t.phase.settled_iff_rank

omit [DecidableEq Sha] in
@[simp] theorem setPhase_tasks (s : Store Sha) (f : FutId) (t : Task Sha) (p : Phase Sha) :
    (s.setPhase f t p).tasks = s.tasks.set f { t with phase := p } := rfl

omit [DecidableEq Sha] in
@[simp] theorem setPhase_index (s : Store Sha) (f : FutId) (t : Task Sha) (p : Phase Sha) :
    (s.setPhase f t p).index = s.index := rfl

/-- A pool step rewrites the phase of its own future, to one with fewer steps left, or
changes nothing. -/
theorem poolStep_tasks (e : FutId × PoolTick) (s : Store Sha) :
    (poolStep e s = s ∧ s.rank e.1 = 0) ∨
      ∃ t p, s.tasks[e.1]? = some t ∧ p.rank < t.phase.rank ∧
        (poolStep e s).tasks = s.tasks.set e.1 { t with phase := p } := by
  unfold poolStep
  cases ht : s.tasks[e.1]? with
  | none => exact .inl ⟨rfl, by simp [rank, ht]⟩
  | some t =>
    simp only
    cases hp : t.phase with
    | queued => exact .inr ⟨t, .running, rfl, by simp [hp, Phase.rank], rfl⟩
    | running =>
      simp only
      split
      · exact .inr ⟨t, .failed .uploadFailed, rfl, by simp [hp, Phase.rank], rfl⟩
      · exact .inr ⟨t, .uploaded _, rfl, by simp [hp, Phase.rank], rfl⟩
    | uploaded handle =>
      simp only
      split
      · exact .inr ⟨t, .done, rfl, by simp [hp, Phase.rank], rfl⟩
      · exact .inr ⟨t, .dropCopy handle, rfl, by simp [hp, Phase.rank], rfl⟩
    | dropCopy handle =>
      simp only
      split
      · exact .inr ⟨t, .failed .deleteFailed, rfl, by simp [hp, Phase.rank], rfl⟩
      · exact .inr ⟨t, .done, rfl, by simp [hp, Phase.rank], rfl⟩
    | done | failed _ | cancelled => exact .inl ⟨rfl, by simp [rank, ht, hp, Phase.rank]⟩

theorem rank_poolStep_ne {e : FutId × PoolTick} {s : Store Sha} {f : FutId} (hf : f ≠ e.1) :
    (poolStep e s).rank f = s.rank f := by
  obtain ⟨h, -⟩ | ⟨t, p, -, -, h⟩ := poolStep_tasks e s
  · rw [h]
  · simp only [rank, h, List.getElem?_set_ne (Ne.symm hf)]

theorem rank_poolStep_self (e : FutId × PoolTick) (s : Store Sha) :
    (poolStep e s).rank e.1 ≤ s.rank e.1 - 1 := by
  obtain ⟨h, h0⟩ | ⟨t, p, ht, hlt, h⟩ := poolStep_tasks e s
  · rw [h, h0]
  · have := (List.getElem?_eq_some_iff.mp ht).1
    simp only [rank, h, List.getElem?_set_self this, ht]
    omega

omit [DecidableEq Sha] in
theorem rank_le (s : Store Sha) (f : FutId) : s.rank f ≤ 4 := by
  unfold rank
  cases s.tasks[f]? with
  | none => exact Nat.zero_le _
  | some t => cases h : t.phase <;> simp [h, Phase.rank]

/-- Four steps settle a future and leave the others where they were. -/
theorem rank_workOff (f : FutId) (p : PoolTick) (k : Nat) (s : Store Sha) (g : FutId) :
    ((List.replicate k (f, p)).foldl (fun s e => poolStep e s) s).rank g ≤
      if g = f then s.rank g - k else s.rank g := by
  induction k generalizing s with
  | zero => simp
  | succ k ih =>
    rw [List.replicate_succ, List.foldl_cons]
    refine (ih _).trans ?_
    by_cases hg : g = f
    · subst hg
      have := rank_poolStep_self (g, p) s
      simp only [if_pos] at this ⊢
      omega
    · rw [if_neg hg, if_neg hg, rank_poolStep_ne hg]

theorem rank_finishPool (p : FutId → PoolTick) (fs : List FutId) (s : Store Sha) (g : FutId) :
    ((fs.flatMap fun f => List.replicate 4 (f, p f)).foldl (fun s e => poolStep e s) s).rank g ≤
      if g ∈ fs then 0 else s.rank g := by
  induction fs generalizing s with
  | nil => simp
  | cons f fs ih =>
    rw [List.flatMap_cons, List.foldl_append]
    refine (ih _).trans ?_
    have h := rank_workOff f (p f) 4 s g
    have := rank_le s g
    by_cases hg : g = f
    · simp only [hg, if_pos, List.mem_cons, true_or] at h ⊢
      subst hg
      split <;> omega
    · rw [if_neg hg] at h
      simp only [List.mem_cons, hg, false_or]
      split <;> omega

/-- Once the pool is done, nothing blocks. -/
theorem ready_finishPool (t : Tick) (a : Act Sha) (s : Store Sha) :
    ready a ((finishPool t s).foldl (fun s e => poolStep e s) s) = true := by
  have key : ∀ f, ((finishPool t s).foldl (fun s e => poolStep e s) s).settled f = true := by
    intro f
    rw [settled_iff_rank]
    have h := rank_finishPool t.finish (List.range s.tasks.length) s f
    by_cases hf : f < s.tasks.length
    · rw [if_pos (List.mem_range.mpr hf)] at h
      exact Nat.le_zero.mp h
    · rw [if_neg (by simpa using hf)] at h
      have : s.rank f = 0 := by
        simp [rank, List.getElem?_eq_none (Nat.le_of_not_lt hf)]
      exact Nat.le_zero.mp (this ▸ h)
  cases a with
  | waitFirst fs => cases fs <;> simp [ready, key]
  | waitAll fs => simp [ready, key]
  | result f | failed f => simp [ready, key]
  | _ => rfl

/-- The machine that the methods of `Store` run on. -/
def machine : Machine (Act Sha) Act.Reply (Store Sha) Tick (FutId × PoolTick) (Src Sha) where
  ready := ready
  exec := exec
  env := poolStep
  before := Tick.before
  finish := finishPool
  ready_finish := ready_finishPool

end Store

end Tgfs
