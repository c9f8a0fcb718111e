import Mathlib.Data.Multiset.Count
import Tgfs.Meta

/-!
# The chunk and blob tables under updates

What `getChunks` returns after `setChunks`, and how the number of rows that name a hash
changes. Rows of inodes in `freeing` are not counted: `free_file` has taken over their
references.
-/

namespace Tgfs

/-- Every error but those that say that the index lost a blob. -/
def PyErr.Expected {Sha : Type} (e : PyErr Sha) : Prop :=
  (∀ idx ino, e ≠ .cleanChunkMissing idx ino) ∧ ∀ sha, e ≠ .blobNotInIndex sha

/-- Rows in the order of their index, as `set_chunks` is given them. -/
def IdxSorted {Sha : Type} (rows : List (Chunk Sha)) : Prop :=
  rows.Pairwise fun a b => a.idx ≤ b.idx

namespace Meta

variable {Sha : Type}

@[simp] theorem setChunks_inodes (m : Meta Sha) (ino : Ino) (rows : List (Chunk Sha)) :
    (m.setChunks ino rows).inodes = m.inodes := rfl
@[simp] theorem setChunks_dirents (m : Meta Sha) (ino : Ino) (rows : List (Chunk Sha)) :
    (m.setChunks ino rows).dirents = m.dirents := rfl
@[simp] theorem setChunks_blobs (m : Meta Sha) (ino : Ino) (rows : List (Chunk Sha)) :
    (m.setChunks ino rows).blobs = m.blobs := rfl
@[simp] theorem setSize_chunks (m : Meta Sha) (now : Time) (ino : Ino) (size : Nat) :
    (m.setSize now ino size).chunks = m.chunks := rfl
@[simp] theorem setSize_blobs (m : Meta Sha) (now : Time) (ino : Ino) (size : Nat) :
    (m.setSize now ino size).blobs = m.blobs := rfl
@[simp] theorem setSize_dirents (m : Meta Sha) (now : Time) (ino : Ino) (size : Nat) :
    (m.setSize now ino size).dirents = m.dirents := rfl

theorem updateInode_self (m : Meta Sha) (ino : Ino) (f : Inode → Inode) :
    (m.updateInode ino f).inodes ino = (m.inodes ino).map f := Function.update_self _ _ _

theorem updateInode_ne (m : Meta Sha) {ino i : Ino} (hi : i ≠ ino) (f : Inode → Inode) :
    (m.updateInode ino f).inodes i = m.inodes i := Function.update_of_ne hi _ _

theorem deleteInode_self (m : Meta Sha) (ino : Ino) : (m.deleteInode ino).inodes ino = none :=
  Function.update_self _ _ _

theorem deleteInode_ne (m : Meta Sha) {ino i : Ino} (hi : i ≠ ino) :
    (m.deleteInode ino).inodes i = m.inodes i := Function.update_of_ne hi _ _

theorem getChunks_congr {m m' : Meta Sha} (h : m'.chunks = m.chunks) (ino : Ino) :
    m'.getChunks ino = m.getChunks ino := by
  unfold getChunks
  rw [h]

theorem setSize_inodes_ne {m : Meta Sha} {now : Time} {ino i : Ino} {size : Nat} (hi : i ≠ ino) :
    (m.setSize now ino size).inodes i = m.inodes i := by
  simp [setSize, updateInode, Function.update_of_ne hi]

theorem setSize_inodes_self (m : Meta Sha) (now : Time) (ino : Ino) (size : Nat) :
    (m.setSize now ino size).inodes ino =
      (m.inodes ino).map fun n => { n with size := size, mtime := now, ctime := now } := by
  simp [setSize, updateInode]

theorem getChunks_setChunks_ne {m : Meta Sha} {ino i : Ino} {rows : List (Chunk Sha)}
    (hi : i ≠ ino) : (m.setChunks ino rows).getChunks i = m.getChunks i := by
  unfold getChunks setChunks
  have h₁ : (m.chunks.filter fun r => r.1 ≠ ino).filter (fun r => r.1 = i) =
      m.chunks.filter fun r => r.1 = i := by
    rw [List.filter_filter]
    apply List.filter_congr
    intro r _
    by_cases hr : r.1 = i <;> simp [hr, hi]
  have h₂ : (rows.map fun c => (ino, c)).filter (fun r => r.1 = i) = [] := by
    simp [Ne.symm hi]
  rw [List.filter_append, h₁, h₂, List.append_nil]

theorem getChunks_setChunks_self {m : Meta Sha} {ino : Ino} {rows : List (Chunk Sha)}
    (hs : IdxSorted rows) : (m.setChunks ino rows).getChunks ino = rows := by
  unfold getChunks setChunks
  have h₁ : (m.chunks.filter fun r => r.1 ≠ ino).filter (fun r => r.1 = ino) = [] := by
    simp
  have h₂ : (rows.map fun c => (ino, c)).filter (fun r => r.1 = ino) =
      rows.map fun c => (ino, c) := by
    simp [List.filter_eq_self]
  rw [List.filter_append, h₁, h₂, List.nil_append, List.map_map]
  have h₃ : rows.map (Prod.snd ∘ fun c => (ino, c)) = rows := by
    simp [Function.comp_def]
  rw [h₃]
  exact List.Pairwise.insertionSort_eq hs

theorem getChunks_perm (m : Meta Sha) (ino : Ino) :
    (m.getChunks ino).Perm ((m.chunks.filter fun r => r.1 = ino).map Prod.snd) :=
  List.perm_insertionSort _ _

theorem mem_getChunks {m : Meta Sha} {ino : Ino} {c : Chunk Sha} :
    c ∈ m.getChunks ino ↔ (ino, c) ∈ m.chunks := by
  rw [(m.getChunks_perm ino).mem_iff]
  simp

/-! ## Rows that name a hash -/

variable [DecidableEq Sha]

/-- The number of rows with hash `h` outside the inodes in `freeing`. -/
def liveRows (m : Meta Sha) (freeing : Multiset Ino) (h : Sha) : Nat :=
  m.chunks.countP fun r => r.2.sha = h ∧ r.1 ∉ freeing

def shas (rows : List (Chunk Sha)) : List Sha := rows.map (·.sha)

/-- `SELECT COUNT(*) FROM chunks WHERE sha=?`. -/
def rowCount (m : Meta Sha) (h : Sha) : Nat := m.chunks.countP fun r => r.2.sha = h

theorem liveRows_zero (m : Meta Sha) (h : Sha) : m.liveRows 0 h = m.rowCount h := by
  simp [liveRows, rowCount]

theorem count_shas_getChunks (m : Meta Sha) (ino : Ino) (h : Sha) :
    (shas (m.getChunks ino)).count h =
      (m.chunks.filter fun r => r.1 = ino).countP fun r => r.2.sha = h := by
  unfold shas
  rw [((m.getChunks_perm ino).map _).count_eq, List.map_map, List.count, List.countP_map]
  congr 1

/-- The rows of one inode apart from all the others. -/
theorem liveRows_split (m : Meta Sha) (freeing : Multiset Ino) (ino : Ino) (h : Sha) :
    m.liveRows freeing h =
      (m.chunks.filter fun r => r.1 ≠ ino).countP (fun r => r.2.sha = h ∧ r.1 ∉ freeing) +
        if ino ∈ freeing then 0 else (shas (m.getChunks ino)).count h := by
  rw [count_shas_getChunks]
  unfold liveRows
  induction m.chunks with
  | nil => simp
  | cons r rs ih =>
    rw [List.countP_cons, ih]
    by_cases hr : r.1 = ino
    · by_cases hf : ino ∈ freeing
      · simp [hr, hf]
      · simp [hr, hf, List.countP_cons]
        omega
    · simp only [List.filter_cons, hr, decide_false, ne_eq, not_false_eq_true, decide_true,
        if_true, List.countP_cons]
      simp only [Bool.false_eq_true, if_false]
      omega

theorem liveRows_setChunks (m : Meta Sha) (freeing : Multiset Ino) (ino : Ino)
    (rows : List (Chunk Sha)) (h : Sha) :
    (m.setChunks ino rows).liveRows freeing h +
        (if ino ∈ freeing then 0 else (shas (m.getChunks ino)).count h) =
      m.liveRows freeing h + if ino ∈ freeing then 0 else (shas rows).count h := by
  rw [m.liveRows_split freeing ino h]
  unfold liveRows setChunks
  have hrows : (rows.map fun c => (ino, c)).countP
      (fun r => decide (r.2.sha = h ∧ r.1 ∉ freeing)) =
      if ino ∈ freeing then 0 else (shas rows).count h := by
    rw [List.countP_map]
    split
    case isTrue hf => simp [Function.comp_def, hf]
    case isFalse hf =>
      unfold shas
      rw [List.count, List.countP_map]
      congr 1
      funext c
      simp [hf, beq_eq_decide]
  simp only [List.countP_append, hrows]
  omega

theorem liveRows_cons (m : Meta Sha) {freeing : Multiset Ino} {ino : Ino} (hf : ino ∉ freeing)
    (h : Sha) :
    m.liveRows (ino ::ₘ freeing) h + (shas (m.getChunks ino)).count h = m.liveRows freeing h := by
  rw [m.liveRows_split freeing ino h, m.liveRows_split (ino ::ₘ freeing) ino h]
  have : (m.chunks.filter fun r => r.1 ≠ ino).countP
        (fun r => decide (r.2.sha = h ∧ r.1 ∉ ino ::ₘ freeing)) =
      (m.chunks.filter fun r => r.1 ≠ ino).countP
        (fun r => decide (r.2.sha = h ∧ r.1 ∉ freeing)) := by
    apply List.countP_congr
    intro r hr
    have hne : r.1 ≠ ino := by simpa using (List.mem_filter.mp hr).2
    simp [hne]
  rw [this, if_neg hf, if_pos (Multiset.mem_cons_self _ _), Nat.add_zero]

theorem liveRows_pos {m : Meta Sha} {freeing : Multiset Ino} {r : Ino × Chunk Sha}
    (hr : r ∈ m.chunks) (hf : r.1 ∉ freeing) : 0 < m.liveRows freeing r.2.sha :=
  List.countP_pos_iff.mpr ⟨r, hr, by simp [hf]⟩

/-! ## Refcounts -/

/-- The `refcount` column, 0 where there is no row. -/
def refcount (m : Meta Sha) (h : Sha) : Nat := (m.blobs h).elim 0 (·.refcount)

omit [DecidableEq Sha] in
theorem refcount_of_blob {m : Meta Sha} {h : Sha} {b : Blob} (hb : m.blobs h = some b) :
    m.refcount h = b.refcount := by
  simp [refcount, hb]

theorem putBlob_self (m : Meta Sha) (h : Sha) (b : Option Blob) :
    (m.putBlob h b).blobs h = b := by
  simp [putBlob]

theorem putBlob_ne {m : Meta Sha} {h h' : Sha} {b : Option Blob} (hne : h' ≠ h) :
    (m.putBlob h b).blobs h' = m.blobs h' := by
  simp [putBlob, Function.update_of_ne hne]

theorem refcount_putBlob (m : Meta Sha) (h h' : Sha) (b : Option Blob) :
    (m.putBlob h b).refcount h' = if h' = h then b.elim 0 (·.refcount) else m.refcount h' := by
  unfold refcount
  by_cases hh : h' = h
  · subst hh; rw [putBlob_self, if_pos rfl]
  · rw [putBlob_ne hh, if_neg hh]

@[simp] theorem putBlob_chunks (m : Meta Sha) (h : Sha) (b : Option Blob) :
    (m.putBlob h b).chunks = m.chunks := rfl
@[simp] theorem putBlob_inodes (m : Meta Sha) (h : Sha) (b : Option Blob) :
    (m.putBlob h b).inodes = m.inodes := rfl
@[simp] theorem putBlob_dirents (m : Meta Sha) (h : Sha) (b : Option Blob) :
    (m.putBlob h b).dirents = m.dirents := rfl

/-- `blobDecref` either finds no row, or puts a row back with one reference less, or removes
the row and returns its handle. -/
theorem blobDecref_cases (m : Meta Sha) (h : Sha) :
    (m.blobs h = none ∧ m.blobDecref h = (none, m)) ∨
      (∃ b, m.blobs h = some b ∧ b.refcount ≤ 1 ∧
        m.blobDecref h = (some b.handle, m.putBlob h none)) ∨
      ∃ b, m.blobs h = some b ∧ 1 < b.refcount ∧
        m.blobDecref h = (none, m.putBlob h (some { b with refcount := b.refcount - 1 })) := by
  unfold blobDecref
  cases hb : m.blobs h with
  | none => exact .inl ⟨rfl, rfl⟩
  | some b =>
    by_cases hr : b.refcount ≤ 1
    · exact .inr (.inl ⟨b, rfl, hr, by simp [hr]⟩)
    · exact .inr (.inr ⟨b, rfl, by omega, by simp [hr]⟩)

theorem refcount_blobIncref {m : Meta Sha} {sha : Sha} {b : Blob} (hb : m.blobs sha = some b)
    (h : Sha) :
    (m.blobIncref sha).refcount h = m.refcount h + if h = sha then 1 else 0 := by
  unfold blobIncref
  rw [refcount_putBlob, hb]
  by_cases hh : h = sha
  · subst hh
    simp [refcount_of_blob hb]
  · simp [hh]

theorem refcount_blobDecref {m : Meta Sha} {sha : Sha} {b : Blob} (hb : m.blobs sha = some b)
    (hpos : 0 < b.refcount) (h : Sha) :
    (m.blobDecref sha).2.refcount h + (if h = sha then 1 else 0) = m.refcount h := by
  obtain ⟨hn, -⟩ | ⟨b', hb', hle, he⟩ | ⟨b', hb', hlt, he⟩ := m.blobDecref_cases sha
  · rw [hb] at hn; cases hn
  all_goals
    rw [hb] at hb'
    cases hb'
    rw [he, refcount_putBlob]
    by_cases hh : h = sha
    · subst hh
      simp [refcount_of_blob hb]
      omega
    · simp [hh]

theorem blobDecref_chunks (m : Meta Sha) (sha : Sha) :
    (m.blobDecref sha).2.chunks = m.chunks := by
  obtain ⟨-, he⟩ | ⟨b, -, -, he⟩ | ⟨b, -, -, he⟩ := m.blobDecref_cases sha <;> rw [he] <;> rfl

theorem blobDecref_inodes (m : Meta Sha) (sha : Sha) :
    (m.blobDecref sha).2.inodes = m.inodes := by
  obtain ⟨-, he⟩ | ⟨b, -, -, he⟩ | ⟨b, -, -, he⟩ := m.blobDecref_cases sha <;> rw [he] <;> rfl

theorem liveRows_congr {m m' : Meta Sha} (hc : m'.chunks = m.chunks) (fr : Multiset Ino)
    (h : Sha) : m'.liveRows fr h = m.liveRows fr h := by
  unfold liveRows
  rw [hc]

end Meta

end Tgfs
