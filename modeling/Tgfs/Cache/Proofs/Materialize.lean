import Tgfs.Cache.Proofs.Flush

/-!
# Opening for writing

`_materialize` trusts the stored rows when they form the grid of its chunk size. Then nothing
is loaded, and the view is that of the stored file. Otherwise it loads the whole file, and no
stored row is referred to any more.
-/

namespace Tgfs

open Run (Wp)
open Wb

variable {Sha : Type} {cs : Nat} {c : FileCtx Sha} {ref : Bytes} {ts : Nat → Tick}

/-! ## The grid test -/

theorem aligned_iff {base : List (BaseChunk Sha)} :
    aligned cs base = true ↔
      ∀ i b, base[i]? = some b → b.off = i * cs ∧ (b.len = cs ∨ i + 1 = base.length) := by
  unfold aligned
  rw [List.all_eq_true]
  constructor
  · intro h i b hb
    simpa using h (b, i) (List.mem_zipIdx_iff_getElem?.mpr hb)
  · rintro h ⟨b, i⟩ hm
    simpa using h i b (List.mem_zipIdx_iff_getElem?.mp hm)

variable [Sha256 Sha]

/-- What `_materialize` makes of the rows of a file stored with chunk size `cs`. -/
def gridBase (cs : Nat) (ref : Bytes) : List (BaseChunk Sha) :=
  (List.range (chunkCount cs ref.length)).map fun i =>
    ⟨i * cs, (chunkAt cs ref i).length, sha256 (chunkAt cs ref i)⟩

@[simp] theorem length_gridBase : (gridBase cs ref : List (BaseChunk Sha)).length =
    chunkCount cs ref.length := by
  simp [gridBase]

theorem getElem?_gridBase (hcs : 0 < cs) {i : Nat} {b : BaseChunk Sha}
    (h : (gridBase cs ref)[i]? = some b) :
    i * cs < ref.length ∧ b = ⟨i * cs, (chunkAt cs ref i).length, sha256 (chunkAt cs ref i)⟩ := by
  have hlt := (List.getElem?_eq_some_iff.mp h).1
  rw [length_gridBase] at hlt
  refine ⟨(lt_chunkCount hcs).mp hlt, ?_⟩
  rw [gridBase, List.getElem?_map, List.getElem?_range hlt] at h
  exact (Option.some.inj h).symm

/-- The test of chunk size `cs'` lets a grid of chunk size `cs` pass if the sizes agree or
there is one row at most. -/
theorem aligned_gridBase {cs' : Nat} (hcs : 0 < cs) :
    aligned cs' (gridBase cs ref : List (BaseChunk Sha)) = true ↔ cs' = cs ∨ ref.length ≤ cs := by
  have hone : ref.length ≤ cs ↔ chunkCount cs ref.length ≤ 1 := by
    have := lt_chunkCount (i := 1) (n := ref.length) hcs
    omega
  rw [aligned_iff, hone, length_gridBase]
  constructor
  · intro h
    by_cases hc : chunkCount cs ref.length ≤ 1
    · exact .inr hc
    · left
      have hlt : 1 < (gridBase cs ref : List (BaseChunk Sha)).length := by
        rw [length_gridBase]
        omega
      have hget := List.getElem?_eq_getElem hlt
      have := (h 1 _ hget).1
      rw [(getElem?_gridBase hcs hget).2] at this
      simpa using this.symm
  · rintro (rfl | hc) i b hb
    · obtain ⟨hlt, rfl⟩ := getElem?_gridBase hcs hb
      refine ⟨rfl, ?_⟩
      dsimp only
      rw [length_chunkAt]
      by_cases hfull : i * cs' + cs' ≤ ref.length
      · left
        omega
      · right
        have h₁ := lt_chunkCount (i := i) (n := ref.length) hcs
        have h₂ := lt_chunkCount (i := i + 1) (n := ref.length) hcs
        rw [Nat.succ_mul] at h₂
        omega
    · have hlt := (List.getElem?_eq_some_iff.mp hb).1
      rw [length_gridBase] at hlt
      obtain rfl : i = 0 := by omega
      obtain ⟨-, rfl⟩ := getElem?_gridBase hcs hb
      exact ⟨by simp, .inr (by omega)⟩

variable [DecidableEq Sha]

omit [DecidableEq Sha] in
theorem Store.StoredAs.base {s : Store Sha} {ino : Ino} (h : s.StoredAs cs ino ref) :
    (s.index.getChunks ino).map BaseChunk.ofRow = gridBase cs ref := by
  rw [h.rows, List.map_map]
  rfl

/-! ## Materializing -/

/-- The rows pass the test. -/
theorem wp_materialize_aligned {cfg : WbConfig} {n : Inode} {base : List (BaseChunk Sha)}
    {Q : Except (PyErr Sha) Unit → FileCtx Sha → Prop} (hm : c.st.materialized = false)
    (hn : c.store.index.inodes c.st.ino = some n)
    (hbase : (c.store.index.getChunks c.st.ino).map BaseChunk.ofRow = base)
    (hal : aligned cfg.chunkSize base = true)
    (h : Q (.ok ()) { c with st := { c.st with
      size := n.size, base := base, loaded := ∅, dirtyIdx := ∅, materialized := true } }) :
    Wp ts (materialize cfg) Q c := by
  unfold Wb.materialize
  rw [getState, Run.wp_gets_bind, hm]
  simp only [Bool.false_eq_true, if_false]
  rw [getRows, Run.wp_gets_bind, getInode, Run.wp_gets_bind, Meta.getInode, hn, Option.map_some, hbase]
  simp only
  rw [setState, Run.wp_modify_bind, if_pos hal]
  exact wp_setState.mpr h

/-- A state that refers to the stored rows, and has an empty temp file. -/
theorem View.ofGrid (hcs : 0 < cs) (hs : c.store.Accounted) (hst : c.store.StoredAs cs c.st.ino ref)
    (ho : c.st.closed = false) (ht : c.temp = []) (hsize : c.st.size = ref.length)
    (hbase : c.st.base = gridBase cs ref) (hloaded : c.st.loaded = ∅)
    (hdirty : c.st.dirtyIdx = ∅) : View cs c ref ∧ Clean cs c.st ref := by
  have hgood : ∀ i b, c.st.base[i]? = some b → GoodChunk cs ref i b := by
    intro i b hb
    obtain ⟨-, rfl⟩ := getElem?_gridBase hcs (hbase ▸ hb)
    exact ⟨rfl, rfl⟩
  have hvalid : ∀ p, p < ref.length → ¬ c.st.Valid (p / cs) := by
    rintro p hp (hv | hv)
    · rw [hbase, length_gridBase] at hv
      exact absurd (div_lt_chunkCount hcs hp) (Nat.not_lt_of_le hv)
    · simp [hloaded] at hv
  refine ⟨⟨hs, ho, hsize, ?_, le_rfl, ?_, ?_, ?_, ?_, ?_⟩, fun i b hb _ => hgood i b hb⟩
  · simp [ht]
  · intro i b hb
    obtain ⟨hlt, rfl⟩ := getElem?_gridBase hcs (hbase ▸ hb)
    exact ⟨rfl, hlt⟩
  · intro i b hb
    rw [hbase, ← hst.base, List.getElem?_map] at hb
    obtain ⟨row, hrow, rfl⟩ := Option.map_eq_some_iff.mp hb
    exact ⟨row, hrow, rfl⟩
  · exact fun i b hb _ => ⟨hgood i b hb, by simp [hdirty]⟩
  · exact fun p hp _ hv => absurd hv (hvalid p hp)
  · exact fun p hp _ hv => absurd hv (hvalid p hp)

/-- What `_materialize` leaves alone. -/
structure Materialized (c c' : FileCtx Sha) : Prop where
  mat : c'.st.materialized = true
  store : c'.store = c.store
  ino : c'.st.ino = c.st.ino
  dirty : c'.st.dirty = c.st.dirty

/-- A file stored with the chunk size of the manager, opened on an empty temp file. -/
theorem View.materialize {cfg : WbConfig} (hcfg : cfg.chunkSize = cs) (hs : c.store.Accounted)
    (hst : c.store.StoredAs cs c.st.ino ref) (hm : c.st.materialized = false)
    (ho : c.st.closed = false) (ht : c.temp = []) :
    Wp ts (materialize cfg) (fun r c' => r = .ok () ∧ View cs c' ref ∧ Clean cs c'.st ref ∧
      c'.st.base = gridBase cs ref ∧ Materialized c c') c := by
  have hcs : 0 < cs := hcfg ▸ cfg.chunkSize_pos
  obtain ⟨n, hn, hsize⟩ := hst.inode
  refine wp_materialize_aligned hm hn hst.base (hcfg ▸ (aligned_gridBase hcs).mpr (.inl hcfg)) ?_
  have hgrid := View.ofGrid (c := { c with st := { c.st with
    size := n.size, base := gridBase cs ref, loaded := ∅, dirtyIdx := ∅, materialized := true } })
    hcs hs hst ho ht hsize rfl rfl rfl
  exact ⟨rfl, hgrid.1, hgrid.2, rfl, rfl, rfl, rfl, rfl⟩

end Tgfs
