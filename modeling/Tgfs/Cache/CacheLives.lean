import Tgfs.Cache.ReadCache

/-!
# The directory of the read cache over several processes

`_store` writes a blob to a `.tmp` file and moves that file to the blob's name. The process may be
killed anywhere, also inside of `_store` and `_evict`, and the write may fail; the next process
makes its index of whatever files it finds, `.tmp` files included. What a process has written stays
in the directory when it is killed.
-/

namespace Tgfs

/-- The names in the directory: a hash, or a hash with the suffix `.tmp`. -/
inductive CacheName (Sha : Type) where
  | blob (sha : Sha)
  | tmp (sha : Sha)
  deriving DecidableEq

namespace CacheLives

variable {Sha : Type} [DecidableEq Sha]

inductive Label (Sha : Type) where
  | call (sha : Sha) (kind : FetchKind)
  /-- Call `k` takes its next step, at time `t` of the surroundings. -/
  | step (k t : Nat)
  /-- Call `k` is in `_store`, and after `n` bytes the write raises `OSError`; behind all of them
  `os.replace` does. -/
  | writeFails (k n : Nat)
  | vanish (name : CacheName Sha)

/-- Nobody asks for a `.tmp` file. -/
def byName (loader : Nat → Sha → Except (PyErr (CacheName Sha)) Bytes) (t : Nat) :
    CacheName Sha → Except (PyErr (CacheName Sha)) Bytes
  | .blob sha => loader t sha
  | .tmp _ => .error .downloadFailed

/-- What `_store` does about the `.tmp` file when it adds the blob to the index. -/
def dropTmp (k : Nat) (c c' : Fetchers (CacheName Sha)) : Fetchers (CacheName Sha) :=
  match c.calls k with
  | some ⟨.blob sha, _, .storing _ _⟩ =>
    if c.cache.mem (.blob sha) then c'
    else { c' with cache := { c'.cache with
      files := Function.update c'.cache.files (.tmp sha) none } }
  | _ => c'

def writeFails (k n : Nat) (c : Fetchers (CacheName Sha)) : Fetchers (CacheName Sha) :=
  match c.calls k with
  | some ⟨.blob sha, kind, .storing ev data⟩ =>
    if c.cache.mem (.blob sha) then c
    else { c with
      cache := { c.cache with
        files := Function.update c.cache.files (.tmp sha) (some (data.take n)) }
      calls := Function.update c.calls k (some ⟨.blob sha, kind, .leaving ev (.ok data)⟩) }
  | _ => c

def step (loader : Nat → Sha → Except (PyErr (CacheName Sha)) Bytes) (l : Label Sha)
    (c : Fetchers (CacheName Sha)) : Fetchers (CacheName Sha) :=
  match l with
  | .call sha kind => Fetchers.step (byName loader) (.call (.blob sha) kind) c
  | .step k t => dropTmp k c (Fetchers.step (byName loader) (.step k t) c)
  | .writeFails k n => writeFails k n c
  | .vanish name => Fetchers.step (byName loader) (.vanish name) c

/-- What a process that is killed leaves in the directory. -/
inductive Leaves (c : Fetchers (CacheName Sha)) : (CacheName Sha → Option Bytes) → Prop where
  /-- Outside of `_store`, or with some of its evictions done. -/
  | evicting (gone : List (CacheName Sha)) :
    Leaves c fun name => if name ∈ gone then none else c.cache.files name
  | writing {k : Nat} {sha : Sha} {kind : FetchKind} {ev : EventId} {data : Bytes}
    (hk : c.calls k = some ⟨.blob sha, kind, .storing ev data⟩) (n : Nat) :
    Leaves c (Function.update c.cache.files (.tmp sha) (some (data.take n)))
  /-- Behind `os.replace`, with some of the evictions done. -/
  | replaced {k : Nat} {sha : Sha} {kind : FetchKind} {ev : EventId} {data : Bytes}
    (hk : c.calls k = some ⟨.blob sha, kind, .storing ev data⟩) (gone : List (CacheName Sha)) :
    Leaves c fun name => if name ∈ gone then none else
      Function.update (Function.update c.cache.files (.blob sha) (some data)) (.tmp sha) none name

/-- What the next process finds. -/
def Found (files : CacheName Sha → Option Bytes) (dir : CacheDir (CacheName Sha)) : Prop :=
  ∀ name, (dir.files.find? fun f => f.name = name).map (·.data) = files name

/-- The states of one process after the other, each with a `cap` of its own. -/
inductive Lived (loader : Nat → Sha → Except (PyErr (CacheName Sha)) Bytes) :
    Fetchers (CacheName Sha) → Prop where
  /-- The constructor makes the directory. -/
  | first (cap : Int) : Lived loader (Fetchers.start cap ⟨[], List.nodup_nil⟩)
  | step {c : Fetchers (CacheName Sha)} (h : Lived loader c) (l : Label Sha) :
    Lived loader (step loader l c)
  | killed {c : Fetchers (CacheName Sha)} {files : CacheName Sha → Option Bytes}
    {dir : CacheDir (CacheName Sha)} (h : Lived loader c) (hleaves : Leaves c files)
    (hfound : Found files dir) (cap : Int) : Lived loader (Fetchers.start cap dir)

end CacheLives

end Tgfs
