import Tgfs.Cache.Proofs.Edit
import Tgfs.Store.Proofs.Scan

/-!
# Flushing

`_flush_locked` hands `put_file` the whole temp file. The rows it stores form the grid of the
chunk size; which hash each row gets is decided by `put_file`'s comparison with the old rows.
The view survives every flush. The stored content is the file exactly when no stale row past
`base` is taken for a clean one.
-/

namespace Tgfs

open Run (Wp)
open Wb

variable {Sha : Type} [DecidableEq Sha] [Sha256 Sha]

/-! ## Handing over the temp file -/

/-- `put_file` of a complete file. -/
structure PutTemp (cfg : StoreConfig) (ino : Ino) (dirty : Option (Finset Nat)) (temp : Bytes)
    (s s' : Store Sha) : Prop where
  books : s'.Accounted
  framed : Store.Framed ino s s'
  rows : s'.index.getChunks ino = (List.range (chunkCount cfg.chunkSize temp.length)).map
    (gridRow cfg.chunkSize dirty (s.index.getChunks ino) temp)
  inode : ∃ now, s'.index.inodes ino = (s.index.inodes ino).map
    fun n => { n with size := temp.length, mtime := now, ctime := now }

theorem seqRun_putTemp (cfg : StoreConfig) (ino : Ino) (dirty : Option (Finset Nat))
    (temp : Bytes) {s : Store Sha} {ts : Nat → Tick} (hs : s.Accounted)
    (hts : ∀ n, (ts n).Quiet False) (n : Nat) :
    ∃ n' s', Store.machine.seqRun (tempSrc false temp) ts
        (Store.putFile cfg ino temp.length dirty) n s = (.ok (), n', s') ∧
      PutTemp cfg ino dirty temp s s' := by
  have hput := Store.seqRun_putFile (tempSrc false temp) cfg ino temp.length dirty hs hts n
  rcases hout : Store.machine.seqRun (tempSrc false temp) ts
    (Store.putFile cfg ino temp.length dirty) n s with ⟨r, n', s'⟩
  rw [hout] at hput
  obtain ⟨hs', hfr, hpost⟩ := hput
  cases r with
  | error e =>
    obtain ⟨⟨-, hf⟩ | ⟨pos, want, hread⟩, -⟩ := hpost
    · exact hf.elim
    · cases hread
  | ok u =>
    obtain ⟨new, off, now, hscan, hend, how⟩ := hpost
    obtain ⟨rfl, rfl⟩ := scan_rows hscan hend
    exact ⟨n', s', rfl, hs', hfr, congrArg Owned.rows how, now, congrArg Owned.inode how⟩

/-! ## The stored content -/

namespace Store

/-- The concatenation of the blobs of the inode's rows. -/
def content (s : Store Sha) (ino : Ino) : Option Bytes :=
  ((s.index.getChunks ino).mapM fun c => s.blobData c.sha).map List.flatten

/-- What is stored for the inode is `ref`. -/
def Holds (s : Store Sha) (ino : Ino) (ref : Bytes) : Prop :=
  s.content ino = some ref ∧ ∃ n, s.index.inodes ino = some n ∧ n.size = ref.length

/-- The rows of the inode are the chunks of `ref`, in the form `put_file` stores them. -/
structure StoredAs (cs : Nat) (s : Store Sha) (ino : Ino) (ref : Bytes) : Prop where
  rows : s.index.getChunks ino = (List.range (chunkCount cs ref.length)).map fun i =>
    ⟨i, i * cs, (chunkAt cs ref i).length, sha256 (chunkAt cs ref i)⟩
  inode : ∃ n, s.index.inodes ino = some n ∧ n.size = ref.length

omit [DecidableEq Sha] [Sha256 Sha] in
theorem mapM_some {α β : Type} {f : α → Option β} {g : α → β} {l : List α}
    (h : ∀ a ∈ l, f a = some (g a)) : l.mapM f = some (l.map g) := by
  induction l with
  | nil => rfl
  | cons a l ih =>
    rw [List.mapM_cons, h a List.mem_cons_self, ih fun b hb => h b (List.mem_cons_of_mem _ hb)]
    rfl

theorem StoredAs.holds {cs : Nat} {s : Store Sha} {ino : Ino} {ref : Bytes} (hcs : 0 < cs)
    (hinj : Function.Injective (sha256 : Bytes → Sha)) (hs : Accounted s)
    (h : StoredAs cs s ino ref) : Holds s ino ref := by
  refine ⟨?_, h.inode⟩
  have hdata : ∀ i, i < chunkCount cs ref.length →
      s.blobData (sha256 (chunkAt cs ref i)) = some (chunkAt cs ref i) := by
    intro i hi
    have hmem : (⟨i, i * cs, (chunkAt cs ref i).length, sha256 (chunkAt cs ref i)⟩ : Chunk Sha) ∈
        s.index.getChunks ino := by
      rw [h.rows]
      exact List.mem_map_of_mem (List.mem_range.mpr hi)
    obtain ⟨data, hd, hsha⟩ := hs.blobData_row hmem
    exact hinj hsha ▸ hd
  have hmap : (s.index.getChunks ino).mapM (fun c => s.blobData c.sha) =
      some ((List.range (chunkCount cs ref.length)).map (chunkAt cs ref)) := by
    rw [h.rows, List.mapM_map]
    exact mapM_some fun i hi => hdata i (List.mem_range.mp hi)
  rw [content, hmap, Option.map_some, flatten_chunks hcs]

end Store

/-- What `put_file` stores when it compares with no old row. -/
theorem PutTemp.storedAs {cfg : StoreConfig} {ino : Ino} {temp : Bytes} {s s' : Store Sha}
    (h : PutTemp cfg ino none temp s s') {n : Inode} (hn : s.index.inodes ino = some n) :
    s'.StoredAs cfg.chunkSize ino temp := by
  obtain ⟨now, hnow⟩ := h.inode
  rw [hn] at hnow
  refine ⟨?_, _, hnow, rfl⟩
  rw [h.rows]
  refine List.map_congr_left fun i _ => ?_
  rw [gridRow, length_chunkAt]
  rfl

namespace Store

/-- A store with one file, which has the content `data`. -/
def oneFile (cfg : StoreConfig) (data : Bytes) : Store Sha :=
  (machine.seqRun (tempSrc false data) (fun _ => {}) (putFile cfg 2 data.length none) 0
    { empty 0 0 0 with
      index := (Meta.create 0 rootIno [97] 0o100644 .file 0 0 none (Meta.fresh 0 0 0)).2 }).2.2

variable (Sha) in
theorem oneFile_stored (cfg : StoreConfig) (data : Bytes) :
    (oneFile cfg data : Store Sha).Accounted ∧
      (oneFile cfg data : Store Sha).StoredAs cfg.chunkSize 2 data := by
  have hs : Accounted { (empty 0 0 0 : Store Sha) with
      index := (Meta.create 0 rootIno [97] 0o100644 .file 0 0 none (Meta.fresh 0 0 0)).2 } :=
    (empty_accounted 0 0 0).reindex rfl rfl
  obtain ⟨n, s', hrun, hput⟩ := seqRun_putTemp cfg 2 none data hs (fun _ => Tick.quiet_default) 0
  unfold oneFile
  rw [hrun]
  exact ⟨hput.books, hput.storedAs rfl⟩

end Store

/-! ## The flush -/

section Flush

variable {cs : Nat} {c c' : FileCtx Sha} {ref : Bytes}

/-- The temp file shows chunk `i` as it is, once it has its full length. -/
theorem View.chunk_eq (hcs : 0 < cs) (h : View cs c ref) {i : Nat} (hv : c.st.Valid i) :
    chunkAt cs (resize c.temp ref.length) i = chunkAt cs ref i := by
  refine chunkAt_congr fun p hp hp' => ?_
  rw [getElem?_resize]
  by_cases hlt : p < ref.length
  · have hdiv : p / cs = i := (div_eq_iff_chunk hcs).mpr ⟨hp, hp'⟩
    rw [if_pos hlt, h.temp_eq hlt (hdiv ▸ hv), List.getElem?_eq_getElem hlt]
    rfl
  · rw [if_neg hlt, List.getElem?_eq_none (by omega)]

/-- The rows that a flush of `c` stores. -/
def flushRows (cs : Nat) (c : FileCtx Sha) (ref : Bytes) : List (Chunk Sha) :=
  (List.range (chunkCount cs ref.length)).map
    (gridRow cs (some c.st.dirtyIdx) (c.store.index.getChunks c.st.ino)
      (resize c.temp ref.length))

/-- What a flush of a modified state does. -/
structure Flushed (cs : Nat) (c c' : FileCtx Sha) (ref : Bytes) : Prop where
  framed : Store.Framed c.st.ino c.store c'.store
  ino : c'.st.ino = c.st.ino
  mat : c'.st.materialized = c.st.materialized
  dirty : c'.st.dirty = false
  dirtyIdx : c'.st.dirtyIdx = ∅
  base : c'.st.base = (flushRows cs c ref).map BaseChunk.ofRow
  rows : c'.store.index.getChunks c.st.ino = flushRows cs c ref
  inode : ∃ now, c'.store.index.inodes c.st.ino = (c.store.index.inodes c.st.ino).map
    fun n => { n with size := ref.length, mtime := now, ctime := now }

omit [DecidableEq Sha] [Sha256 Sha] in
/-- `put_file` takes a row that it finds at its place for clean. -/
theorem cleanRow_eq {dirty : Finset Nat} {old : List (Chunk Sha)} {i off want : Nat}
    {row : Chunk Sha} (hi : i ∉ dirty) (hrow : old[i]? = some row) (hoff : row.off = off)
    (hlen : row.len = want) : Store.cleanRow (some dirty) old i off want = some row := by
  unfold Store.cleanRow
  simp only [if_neg hi, hrow]
  simp [hoff, hlen]

/-- An unloaded chunk keeps its row. -/
theorem View.rowSha_unloaded (h : View cs c ref) {i : Nat} {b : BaseChunk Sha}
    (hb : c.st.base[i]? = some b) (hi : i ∉ c.st.loaded) :
    rowSha cs (some c.st.dirtyIdx) (c.store.index.getChunks c.st.ino)
      (resize c.temp ref.length) i = sha256 (chunkAt cs ref i) := by
  obtain ⟨row, hrow, rfl⟩ := h.base_row i b hb
  obtain ⟨⟨hlen, hsha⟩, hd⟩ := h.unloaded i _ hb hi
  obtain ⟨hoff, -⟩ := h.base_off i _ hb
  unfold rowSha
  rw [cleanRow_eq hd hrow hoff (by rw [length_resize, ← length_chunkAt]; exact hlen)]
  exact hsha

/-- The state after a flush still shows the file. -/
theorem View.afterFlush (hcs : 0 < cs) (h : View cs c ref) {s : Store Sha} (hs : s.Accounted)
    (hrows : s.index.getChunks c.st.ino = flushRows cs c ref) :
    View cs
      { st := { c.st with
          base := (flushRows cs c ref).map BaseChunk.ofRow
          loaded := c.st.loaded ∪ Finset.Ico c.st.base.length (flushRows cs c ref).length
          dirtyIdx := ∅
          dirty := false }
        temp := resize c.temp ref.length
        store := s } ref := by
  have hlen : (flushRows cs c ref).length = chunkCount cs ref.length := by simp [flushRows]
  have hget : ∀ (i : Nat) (b : BaseChunk Sha),
      ((flushRows cs c ref).map BaseChunk.ofRow)[i]? = some b →
      i * cs < ref.length ∧ b = BaseChunk.ofRow (gridRow cs (some c.st.dirtyIdx)
        (c.store.index.getChunks c.st.ino) (resize c.temp ref.length) i) := by
    intro i b hb
    have hlt := (List.getElem?_eq_some_iff.mp hb).1
    rw [List.length_map, hlen] at hlt
    refine ⟨(lt_chunkCount hcs).mp hlt, ?_⟩
    rw [flushRows, List.map_map, List.getElem?_map, List.getElem?_range hlt] at hb
    exact (Option.some.inj hb).symm
  have hvalid : ∀ p, p < ref.length →
      (¬ (flushRows cs c ref).length ≤ p / cs) ∧
        (p / cs ∈ c.st.loaded ∪ Finset.Ico c.st.base.length (flushRows cs c ref).length →
          c.st.Valid (p / cs)) := by
    intro p hp
    refine ⟨?_, fun hm => ?_⟩
    · rw [hlen]
      exact Nat.not_le_of_lt (div_lt_chunkCount hcs hp)
    · obtain hm | hm := Finset.mem_union.mp hm
      · exact .inr hm
      · exact .inl (Finset.mem_Ico.mp hm).1
  refine { h with books := hs, temp_le := ?_, base_off := ?_, base_row := ?_, unloaded := ?_,
                  shown := ?_, long := ?_ }
  · rw [length_resize]
  · intro i b hb
    obtain ⟨hlt, rfl⟩ := hget i b hb
    exact ⟨rfl, hlt⟩
  · intro i b hb
    rw [List.getElem?_map] at hb
    obtain ⟨row, hrow, rfl⟩ := Option.map_eq_some_iff.mp hb
    exact ⟨row, by rw [hrows]; exact hrow, rfl⟩
  · intro i b hb hi
    have hlt' := (List.getElem?_eq_some_iff.mp hb).1
    obtain ⟨hlt, rfl⟩ := hget i b hb
    rw [List.length_map] at hlt'
    have hib : i < c.st.base.length := by
      by_contra hge
      exact hi (Finset.mem_union_right _ (Finset.mem_Ico.mpr ⟨Nat.le_of_not_lt hge, hlt'⟩))
    have hiL : i ∉ c.st.loaded := fun hm => hi (Finset.mem_union_left _ hm)
    refine ⟨⟨?_, h.rowSha_unloaded (List.getElem?_eq_getElem hib) hiL⟩, by simp⟩
    change min cs ((resize c.temp ref.length).length - i * cs) = _
    rw [length_resize, length_chunkAt]
  · intro p hp hout hv
    rw [getElem?_resize, if_pos hp]
    refine h.shown p hp hout ?_
    obtain hv | hv := hv
    · rw [List.length_map] at hv
      exact absurd hv (hvalid p hp).1
    · exact (hvalid p hp).2 hv
  · intro p hp _ _
    rwa [length_resize]

theorem View.flush {ts : Nat → Tick} (hcs : 0 < cs) (hts : ∀ n, (ts n).Quiet False)
    {cfg : WbConfig} (hcfg : cfg.chunkSize = cs) (h : View cs c ref) :
    Wp ts (flushLocked cfg) (fun r c' => r = .ok () ∧ View cs c' ref ∧
      (c.st.dirty = false ∧ c' = c ∨ c.st.dirty = true ∧ Flushed cs c c' ref)) c := by
  unfold Wb.flushLocked
  rw [getState, Run.wp_gets_bind]
  cases hd : c.st.dirty with
  | false =>
    rw [if_neg (by simp)]
    exact Run.wp_pure.mpr ⟨rfl, h, .inl ⟨rfl, rfl⟩⟩
  | true =>
    rw [if_pos rfl]
    refine Wp.bind_ok (wp_tempTruncate h.opened ⟨(), rfl, ?_⟩)
    rw [Run.wp_gets_bind]
    refine Wp.bind_ok (wp_call fun n => ?_)
    simp only [h.opened, h.size]
    obtain ⟨n', s', hrun, hput⟩ := seqRun_putTemp cfg.toStoreConfig c.st.ino
      (some c.st.dirtyIdx) (resize c.temp ref.length) h.books hts n
    rw [length_resize] at hrun
    rw [hrun]
    have hrows : s'.index.getChunks c.st.ino = flushRows cs c ref := by
      rw [hput.rows, length_resize, hcfg]
      rfl
    refine ⟨(), rfl, ?_⟩
    rw [getRows, Run.wp_gets_bind, wp_setState]
    dsimp only
    rw [hrows]
    have hview := h.afterFlush hcs hput.books hrows
    obtain ⟨now, hinode⟩ := hput.inode
    rw [length_resize] at hinode
    exact ⟨rfl, hview, .inr ⟨trivial, hput.framed, rfl, rfl, rfl, rfl, rfl, hrows, now, hinode⟩⟩

end Flush

end Tgfs
