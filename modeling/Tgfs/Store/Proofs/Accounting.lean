import Mathlib.Data.Multiset.Bind
import Mathlib.Algebra.Order.BigOperators.Group.Multiset
import Tgfs.MetaProps
import Tgfs.Store.Methods

/-!
# Who holds which reference

`Res` is what a running `put_file` or `free_file` owns: references it has taken, futures it
has submitted, handles it has still to delete, and the inode it works on. `Inv` is the
invariant of the whole store: each refcount is the number of rows, taken references and
registered uploads of its hash, and each message of the backend belongs to a blob, to an
upload or to somebody who is about to delete it. Every step of a thread or of the upload pool
has one lemma that says how it moves `Inv` from one sum of resources to the next.
-/

namespace Tgfs

/-- The inode a call works on, with the rows and the inode row it last saw or wrote. While
`freeing`, the references of the rows have passed to the call. -/
structure Owned (Sha : Type) where
  ino : Ino
  rows : List (Chunk Sha)
  inode : Option Inode
  freeing : Bool := false

/-- What one call owns. A future is listed with the hash it uploads: `futs` are in flight,
`doomed` were asked to cancel. `dones` only remembers futures that have registered their blob;
the references they took are among `refs`. -/
@[ext] structure Res (Sha : Type) where
  refs : Multiset Sha := 0
  futs : Multiset (Sha × FutId) := 0
  dones : Multiset (Sha × FutId) := 0
  doomed : Multiset (Sha × FutId) := 0
  trash : Multiset Handle := 0
  owns : Multiset (Owned Sha) := 0

namespace Res

variable {Sha : Type}

instance : Zero (Res Sha) := ⟨{}⟩

instance : Add (Res Sha) where
  add a b := {
    refs := a.refs + b.refs
    futs := a.futs + b.futs
    dones := a.dones + b.dones
    doomed := a.doomed + b.doomed
    trash := a.trash + b.trash
    owns := a.owns + b.owns }

@[simp] theorem zero_refs : (0 : Res Sha).refs = 0 := rfl
@[simp] theorem zero_futs : (0 : Res Sha).futs = 0 := rfl
@[simp] theorem zero_dones : (0 : Res Sha).dones = 0 := rfl
@[simp] theorem zero_doomed : (0 : Res Sha).doomed = 0 := rfl
@[simp] theorem zero_trash : (0 : Res Sha).trash = 0 := rfl
@[simp] theorem zero_owns : (0 : Res Sha).owns = 0 := rfl
@[simp] theorem add_refs (a b : Res Sha) : (a + b).refs = a.refs + b.refs := rfl
@[simp] theorem add_futs (a b : Res Sha) : (a + b).futs = a.futs + b.futs := rfl
@[simp] theorem add_dones (a b : Res Sha) : (a + b).dones = a.dones + b.dones := rfl
@[simp] theorem add_doomed (a b : Res Sha) : (a + b).doomed = a.doomed + b.doomed := rfl
@[simp] theorem add_trash (a b : Res Sha) : (a + b).trash = a.trash + b.trash := rfl
@[simp] theorem add_owns (a b : Res Sha) : (a + b).owns = a.owns + b.owns := rfl

instance : AddCommMonoid (Res Sha) where
  add_assoc a b c := by ext1 <;> simp [add_assoc]
  zero_add a := by ext1 <;> simp
  add_zero a := by ext1 <;> simp
  add_comm a b := by ext1 <;> simp [add_comm]
  nsmul := nsmulRec

end Res

/-! ## References held by futures -/

section Futures

variable {Sha : Type} [DecidableEq Sha]

/-- The references to `h` that future `f` holds. -/
def taskRef (tasks : List (Task Sha)) (h : Sha) (f : FutId) : Nat :=
  match tasks[f]? with
  | some t => if t.phase.registered ∧ t.sha = h then 1 else 0
  | none => 0

def futRefs (tasks : List (Task Sha)) (ups : Multiset (Sha × FutId)) (h : Sha) : Nat :=
  (ups.map fun p => taskRef tasks h p.2).sum

@[simp] theorem futRefs_zero (tasks : List (Task Sha)) (h : Sha) : futRefs tasks 0 h = 0 := rfl

@[simp] theorem futRefs_add (tasks : List (Task Sha)) (a b : Multiset (Sha × FutId)) (h : Sha) :
    futRefs tasks (a + b) h = futRefs tasks a h + futRefs tasks b h := by
  simp [futRefs]

@[simp] theorem futRefs_cons (tasks : List (Task Sha)) (p : Sha × FutId)
    (a : Multiset (Sha × FutId)) (h : Sha) :
    futRefs tasks (p ::ₘ a) h = taskRef tasks h p.2 + futRefs tasks a h := by
  simp [futRefs]

theorem futRefs_congr {tasks tasks' : List (Task Sha)} {ups : Multiset (Sha × FutId)} {h : Sha}
    (hc : ∀ p ∈ ups, taskRef tasks' h p.2 = taskRef tasks h p.2) :
    futRefs tasks' ups h = futRefs tasks ups h := by
  unfold futRefs
  rw [Multiset.map_congr rfl hc]

theorem taskRef_set_ne {tasks : List (Task Sha)} {f g : FutId} {t : Task Sha} (hne : g ≠ f)
    (h : Sha) : taskRef (tasks.set f t) h g = taskRef tasks h g := by
  unfold taskRef
  rw [List.getElem?_set_ne (Ne.symm hne)]

/-- A future that is owned once changes the sum by as much as its own references change. -/
theorem futRefs_set (tasks : List (Task Sha)) {ups : Multiset (Sha × FutId)} {f : FutId}
    (hn : (ups.map Prod.snd).Nodup) (hf : f ∈ ups.map Prod.snd) (t : Task Sha) (h : Sha) :
    futRefs (tasks.set f t) ups h + taskRef tasks h f =
      futRefs tasks ups h + taskRef (tasks.set f t) h f := by
  obtain ⟨p, hp, rfl⟩ := Multiset.mem_map.mp hf
  obtain ⟨rest, rfl⟩ := Multiset.exists_cons_of_mem hp
  rw [Multiset.map_cons, Multiset.nodup_cons] at hn
  have : futRefs (tasks.set p.2 t) rest h = futRefs tasks rest h := by
    refine futRefs_congr fun q hq => taskRef_set_ne (fun he => hn.1 ?_) h
    exact Multiset.mem_map.mpr ⟨q, hq, he⟩
  rw [futRefs_cons, futRefs_cons, this]
  omega

end Futures

/-! ## The invariant -/

namespace Store

variable {Sha : Type} [DecidableEq Sha]

/-- Every refcount is the number of rows, taken references and registered uploads. -/
def Counts (index : Meta Sha) (tasks : List (Task Sha)) (freeing : Multiset Ino)
    (refs : Multiset Sha) (ups : Multiset (Sha × FutId)) : Prop :=
  ∀ h, index.refcount h = index.liveRows freeing h + refs.count h + futRefs tasks ups h

variable [Sha256 Sha]

/-- The futures and their owners. `mayFail` says whether uploads are allowed to fail. -/
structure TasksOk (mayFail : Prop) (tasks : List (Task Sha))
    (futs dones doomed : Multiset (Sha × FutId)) : Prop where
  data_sha : ∀ (f : FutId) (t : Task Sha), tasks[f]? = some t → sha256 t.data = t.sha
  nodup : ((futs + doomed).map Prod.snd).Nodup
  owned : ∀ (f : FutId) (t : Task Sha), tasks[f]? = some t → t.phase.settled = false →
    f ∈ (futs + doomed).map Prod.snd
  sha : ∀ p ∈ futs + doomed, ∃ t : Task Sha, tasks[p.2]? = some t ∧ t.sha = p.1
  finished : ∀ p ∈ dones, ∃ t : Task Sha, tasks[p.2]? = some t ∧ t.phase = .done
  alive : ∀ p ∈ futs, ∀ t : Task Sha, tasks[p.2]? = some t → t.phase ≠ .cancelled
  failed : ∀ p ∈ futs, ∀ t : Task Sha, tasks[p.2]? = some t →
    ∀ e, t.phase = .failed e → mayFail ∧ e = .uploadFailed

/-- Handle `hd` was uploaded by future `f`, which has not registered it yet. -/
def UploadedBy (tasks : List (Task Sha)) (hd : Handle) (f : FutId) (data : Bytes) : Prop :=
  ∃ t : Task Sha, tasks[f]? = some t ∧ t.phase = .uploaded hd ∧ t.data = data

/-- Handle `hd` is the copy a future is about to delete. -/
def Dropping (tasks : List (Task Sha)) (hd : Handle) : Prop :=
  ∃ (f : FutId) (t : Task Sha), tasks[f]? = some t ∧ t.phase = .dropCopy hd

/-- A blobs row of `h` points at a live message with the content of `h`. -/
def Held (backend : Backend) (h : Sha) (b : Blob) : Prop :=
  ∃ data, backend.blobs b.handle = some data ∧ sha256 data = h ∧ data.length = b.len

/-- A blobs row of `h` that is held and counts something. -/
def Stored (backend : Backend) (h : Sha) (b : Blob) : Prop :=
  0 < b.refcount ∧ ∃ data, backend.blobs b.handle = some data ∧ sha256 data = h ∧
    data.length = b.len

/-- Every message belongs to a blob, to an upload, or to somebody about to delete it. -/
structure BlobsOk (blobs : Sha → Option Blob) (backend : Backend) (tasks : List (Task Sha))
    (trash : Multiset Handle) : Prop where
  stored : ∀ h b, blobs h = some b → Held backend h b
  uploaded : ∀ hd f data, UploadedBy tasks hd f data →
    backend.blobs hd = some data ∧ (∀ h b, blobs h = some b → b.handle ≠ hd) ∧
      ∀ f' data', UploadedBy tasks hd f' data' → f' = f
  waste : ∀ hd, hd ∈ trash ∨ Dropping tasks hd → hd < backend.next ∧
    (∀ h b, blobs h = some b → b.handle ≠ hd) ∧ ∀ f data, ¬ UploadedBy tasks hd f data
  fresh : ∀ hd, backend.next ≤ hd → backend.blobs hd = none
  held : ∀ hd data, backend.blobs hd = some data →
    (∃ h b, blobs h = some b ∧ b.handle = hd) ∨ (∃ f data', UploadedBy tasks hd f data') ∨
      Dropping tasks hd ∨ hd ∈ trash

/-- The inodes that are being freed. -/
def freeing (owns : Multiset (Owned Sha)) : Multiset Ino :=
  (owns.filter fun o => o.freeing = true).map (·.ino)

/-- Nobody but its owner touches an inode, and only inodes in `canFree` are ever freed. -/
structure OwnsOk (canFree : Ino → Prop) (index : Meta Sha) (owns : Multiset (Owned Sha)) :
    Prop where
  nodup : (owns.map (·.ino)).Nodup
  canFree : ∀ o ∈ owns, o.freeing = true → canFree o.ino
  seen : ∀ o ∈ owns, index.getChunks o.ino = o.rows ∧ index.inodes o.ino = o.inode

/-- The invariant of the store, when `g` is all that running calls own together. -/
structure Inv (mayFail : Prop) (canFree : Ino → Prop) (s : Store Sha) (g : Res Sha) : Prop where
  counts : Counts s.index s.tasks (freeing g.owns) g.refs (g.futs + g.doomed)
  tasks : TasksOk mayFail s.tasks g.futs g.dones g.doomed
  blobs : BlobsOk s.index.blobs s.backend s.tasks g.trash
  owns : OwnsOk canFree s.index g.owns

end Store

end Tgfs
