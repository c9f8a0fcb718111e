import Tgfs.Cache.Proofs.Contents
import Tgfs.Cache.Proofs.Frame

/-!
# What the next flush depends on

Behind a state in write mode are the byte array its users see and the marks that say which of
its chunks `put_file` has to upload. The two together decide the rows of every later flush;
which chunks happen to be in the temp file does not.
-/

namespace Tgfs

open Run (Wp)
open Wb

variable {Sha : Type} [DecidableEq Sha] [Sha256 Sha] {cs : Nat} {c c' : FileCtx Sha} {ref : Bytes}
  {ts : Nat → Tick} {cfg : WbConfig}

structure Marks (Sha : Type) where
  dirty : Bool
  dirtyIdx : Finset Nat
  base : List (BaseChunk Sha)
  rows : List (Chunk Sha)

def FileCtx.marks (c : FileCtx Sha) : Marks Sha :=
  ⟨c.st.dirty, c.st.dirtyIdx, c.st.base, c.store.index.getChunks c.st.ino⟩

namespace Marks

/-- A file of `size` bytes that grows to `n` has its partial last chunk marked. -/
def grown (cs size n : Nat) (base : List (BaseChunk Sha)) (dirtyIdx : Finset Nat) : Finset Nat :=
  if size < n ∧ base ≠ [] ∧ size % cs ≠ 0 ∧ base.length = size / cs + 1 then
    insert (base.length - 1) dirtyIdx
  else dirtyIdx

/-- The rows that a flush of the file `ref` stores. -/
def flushed (cs : Nat) (ref : Bytes) (k : Marks Sha) : List (Chunk Sha) :=
  (List.range (chunkCount cs ref.length)).map (gridRow cs (some k.dirtyIdx) k.rows ref)

/-- The marks behind an operation on the file `ref`. -/
def after (cs : Nat) (ref : Bytes) (k : Marks Sha) : FileOp → Marks Sha
  | .write offset data =>
    { k with
      dirty := true
      dirtyIdx := grown cs ref.length (offset + data.length) k.base k.dirtyIdx ∪
        Finset.Ico (offset / cs) ((offset + data.length - 1) / cs + 1) }
  | .truncate length =>
    if length < ref.length then
      { k with
        dirty := true
        dirtyIdx := (if length % cs ≠ 0 ∧ length / cs < k.base.length then
          insert (length / cs) k.dirtyIdx else k.dirtyIdx).filter (· < chunkCount cs length)
        base := k.base.take (chunkCount cs length) }
    else { k with dirty := true, dirtyIdx := grown cs ref.length length k.base k.dirtyIdx }
  | .read _ _ => k
  | .sync =>
    if k.dirty then ⟨false, ∅, (k.flushed cs ref).map BaseChunk.ofRow, k.flushed cs ref⟩ else k

def afterAll (cs : Nat) : List FileOp → Bytes → Marks Sha → Marks Sha
  | [], _, k => k
  | op :: ops, ref, k => afterAll cs ops (op.apply ref) (k.after cs ref op)

end Marks

/-! ## A flush -/

/-- The rows of a flush are those of the marks. -/
theorem View.flushRows_marks (hcs : 0 < cs) (h : View cs c ref) :
    flushRows cs c ref = c.marks.flushed cs ref := by
  refine List.map_congr_left fun i hi => ?_
  have hlen : (resize c.temp ref.length).length = ref.length := length_resize _ _
  have hsha : Tgfs.rowSha cs (some c.st.dirtyIdx) (c.store.index.getChunks c.st.ino)
      (resize c.temp ref.length) i =
      Tgfs.rowSha cs (some c.st.dirtyIdx) (c.store.index.getChunks c.st.ino) ref i := by
    unfold Tgfs.rowSha
    rw [hlen]
    cases hrow : Store.cleanRow (some c.st.dirtyIdx) (c.store.index.getChunks c.st.ino) i (i * cs)
      (min cs (ref.length - i * cs)) with
    | some row => rfl
    | none =>
      by_cases hv : c.st.Valid i
      · simp only [h.chunk_eq hcs hv]
      · -- a chunk that is not loaded has its row
        unfold FileState.Valid at hv
        push Not at hv
        have hb := List.getElem?_eq_getElem hv.1
        obtain ⟨row, hget, hof⟩ := h.base_row i _ hb
        obtain ⟨⟨hrowlen, -⟩, hd⟩ := h.unloaded i _ hb hv.2
        obtain ⟨hoff, -⟩ := h.base_off i _ hb
        rw [← hof] at hrowlen hoff
        rw [length_chunkAt] at hrowlen
        rw [cleanRow_eq hd hget hoff hrowlen] at hrow
        cases hrow
  unfold gridRow
  rw [hsha, hlen]
  rfl

/-! ## Loading leaves the marks -/

/-- The state is `st`, up to what is loaded. -/
def OnlyLoads (st : FileState Sha) (c : FileCtx Sha) : Prop := ∃ L, c.st = { st with loaded := L }

theorem loadEach_onlyLoads (st : FileState Sha) (is : List Nat) :
    Run.Preserves (OnlyLoads st) (loadEach is) := by
  induction is with
  | nil => exact Run.preserves_pure ()
  | cons i is ih =>
    unfold loadEach
    refine Run.Preserves.bind (Run.preserves_gets _) fun st' => ?_
    cases st'.base[i]? with
    | none => exact Run.preserves_pure ()
    | some b =>
      have hfetch : Run.Preserves (OnlyLoads st) (call noSrc (Store.fetch b.sha)) :=
        fun _ _ _ h => h
      have htemp : ∀ data, Run.Preserves (OnlyLoads st) (tempWrite b.off data) := fun data =>
        preserves_checkOpen.bind fun _ => Run.preserves_modify fun c h => h
      refine hfetch.bind fun data => (htemp data).bind fun _ => ?_
      refine Run.Preserves.bind (Run.preserves_modify ?_) fun _ => ih
      rintro c ⟨L, hL⟩
      exact ⟨insert i L, by rw [hL]⟩

theorem load_onlyLoads (st : FileState Sha) (lo hi : Nat) (skip : Finset Nat) :
    Run.Preserves (OnlyLoads st) (load lo hi skip) :=
  (Run.preserves_gets _).bind fun _ => loadEach_onlyLoads st _

theorem prepare_onlyLoads (st : FileState Sha) (start fin : Nat) (overwrite : Bool) :
    Run.Preserves (OnlyLoads st) (prepare cfg start fin overwrite) := by
  unfold prepare
  refine Run.Preserves.bind (Run.preserves_gets _) fun st' => ?_
  dsimp only
  split
  · exact Run.preserves_pure ()
  · refine Run.Preserves.bind (Run.preserves_modify ?_) fun _ => load_onlyLoads st _ _ _
    rintro c ⟨L, hL⟩
    exact ⟨_, by rw [hL]⟩

/-! ## What the operations mark -/

theorem wp_touch_marks (b : Nat) : Wp ts (touch b) (fun r c' => ∀ u, r = .ok u →
    ∃ L, c'.st = { c.st with loaded := L, dirtyIdx := insert b c.st.dirtyIdx }) c := by
  unfold touch
  apply Wp.bind_partial
  refine ((load_onlyLoads c.st b (b + 1) ∅).wp ⟨c.st.loaded, rfl⟩).mono ?_
  rintro r c₁ ⟨L, hL⟩ u -
  exact wp_setState.mpr fun _ _ => ⟨L, by rw [hL]⟩

theorem wp_grow_marks (n : Nat) : Wp ts (grow cfg n) (fun r c' => ∀ u, r = .ok u →
    c'.st.base = c.st.base ∧
      c'.st.dirtyIdx = Marks.grown cfg.chunkSize c.st.size n c.st.base c.st.dirtyIdx) c := by
  unfold grow Marks.grown
  rw [getState, Run.wp_gets_bind]
  dsimp only
  split
  case isTrue hle =>
    rw [if_neg fun h => absurd h.1 (Nat.not_lt.mpr hle)]
    exact Run.wp_pure.mpr fun _ _ => ⟨rfl, rfl⟩
  case isFalse hle =>
    have hlt : c.st.size < n := Nat.lt_of_not_le hle
    split
    case isTrue hcase =>
      rw [if_pos ⟨hlt, hcase⟩]
      refine Wp.bind_partial ((wp_touch_marks _).mono ?_)
      intro r c₁ h u hu
      obtain ⟨L, hL⟩ := h u hu
      exact wp_setState.mpr fun _ _ => by rw [hL]; exact ⟨rfl, rfl⟩
    case isFalse hcase =>
      rw [if_neg fun h => hcase h.2]
      exact wp_setState.mpr fun _ _ => ⟨rfl, rfl⟩

theorem wp_write_marks (hm : c.st.materialized = true) {data : Bytes} (hd : data ≠ [])
    (offset : Nat) : Wp ts (write cfg data offset) (fun r c' => ∀ u, r = .ok u →
      c'.st.dirtyIdx = Marks.grown cfg.chunkSize c.st.size (offset + data.length) c.st.base
          c.st.dirtyIdx ∪
        Finset.Ico (offset / cfg.chunkSize) ((offset + data.length - 1) / cfg.chunkSize + 1)) c := by
  unfold write
  refine Wp.bind_ok (materialize_noop hm ⟨(), rfl, ?_⟩)
  apply Wp.bind_partial
  refine ((prepare_onlyLoads c.st _ _ _).wp ⟨c.st.loaded, rfl⟩).mono ?_
  rintro r c₁ ⟨L, hL⟩ u -
  refine Wp.bind_partial ((wp_grow_marks _).mono ?_)
  intro r c₂ h₂ u hu
  obtain ⟨-, hidx⟩ := h₂ u hu
  rw [hL] at hidx
  refine Wp.bind_partial ((keeps_tempWrite (f := FileCtx.st) (fun _ _ => rfl) _ _).wp.mono ?_)
  intro r c₃ h₃ u _
  refine Wp.bind_partial (wp_setState.mpr fun _ _ => Run.wp_pure.mpr fun _ _ => ?_)
  rw [h₃, hidx, if_neg hd]

theorem wp_shrink_marks (length : Nat) : Wp ts (shrink cfg length) (fun r c' => ∀ u, r = .ok u →
    c'.st.base = c.st.base.take (chunkCount cfg.chunkSize length) ∧
      c'.st.dirtyIdx = (if length % cfg.chunkSize ≠ 0 ∧
        length / cfg.chunkSize < c.st.base.length then
          insert (length / cfg.chunkSize) c.st.dirtyIdx
        else c.st.dirtyIdx).filter (· < chunkCount cfg.chunkSize length)) c := by
  unfold shrink
  rw [getState, Run.wp_gets_bind]
  dsimp only
  split
  · refine Wp.bind_partial ((wp_touch_marks _).mono ?_)
    intro r c₁ h₁ u hu
    obtain ⟨L, hL⟩ := h₁ u hu
    refine wp_setState.mpr fun _ _ => ?_
    rw [hL]
    exact ⟨rfl, rfl⟩
  · exact wp_setState.mpr fun _ _ => ⟨rfl, rfl⟩

theorem wp_truncate_marks (hm : c.st.materialized = true) (length : Nat) :
    Wp ts (truncate cfg length) (fun r c' => ∀ u, r = .ok u →
      if length < c.st.size then
        c'.st.base = c.st.base.take (chunkCount cfg.chunkSize length) ∧
        c'.st.dirtyIdx = (if length % cfg.chunkSize ≠ 0 ∧
          length / cfg.chunkSize < c.st.base.length then
            insert (length / cfg.chunkSize) c.st.dirtyIdx
          else c.st.dirtyIdx).filter (· < chunkCount cfg.chunkSize length)
      else c'.st.base = c.st.base ∧
        c'.st.dirtyIdx = Marks.grown cfg.chunkSize c.st.size length c.st.base c.st.dirtyIdx) c := by
  unfold truncate
  refine Wp.bind_ok (materialize_noop hm ⟨(), rfl, ?_⟩)
  rw [getState, Run.wp_gets_bind]
  have hend : ∀ {c₁ : FileCtx Sha} {P : List (BaseChunk Sha) → Finset Nat → Prop},
      P c₁.st.base c₁.st.dirtyIdx → Wp ts (do
        tempTruncate length
        setState fun st => { st with dirty := true } : FileRun Sha Unit)
        (fun r c' => ∀ u, r = .ok u → P c'.st.base c'.st.dirtyIdx) c₁ := by
    intro c₁ P hP
    refine Wp.bind_partial ((keeps_tempTruncate (f := FileCtx.st) (fun _ _ => rfl) _).wp.mono ?_)
    intro r c₂ h₂ u _
    refine wp_setState.mpr fun _ _ => ?_
    rw [h₂]
    exact hP
  split
  · refine Wp.bind_partial ((wp_shrink_marks length).mono ?_)
    intro r c₁ h₁ u hu
    exact hend (P := fun base idx => base = _ ∧ idx = _) (h₁ u hu)
  · refine Wp.bind_partial ((wp_grow_marks _).mono ?_)
    intro r c₁ h₁ u hu
    exact hend (P := fun base idx => base = _ ∧ idx = _) (h₁ u hu)

/-- The marks behind a call that returns. -/
theorem View.perform_marks (hcfg : cfg.chunkSize = cs)
    (hinj : Function.Injective (sha256 : Bytes → Sha)) (hts : ∀ n, (ts n).Quiet False)
    (h : View cs c ref) (hm : c.st.materialized = true) {op : FileOp} (hop : op.Nonempty) :
    Wp ts (Wb.perform cfg op) (fun _ c' => c'.marks = c.marks.after cs ref op) c := by
  have hcs : 0 < cs := hcfg ▸ cfg.chunkSize_pos
  cases op with
  | write offset data =>
    refine Wp.bind_ok (((View.write hcs hinj hts hcfg h hm hop offset).and
      (wp_write_marks hm hop offset)).mono ?_)
    rintro r c' ⟨⟨rfl, he, hbase, -⟩, hidx⟩
    have hidx := hidx _ rfl
    rw [hcfg, h.size] at hidx
    refine ⟨_, rfl, Run.wp_pure.mpr ?_⟩
    unfold FileCtx.marks Marks.after
    rw [he.dirty, hidx, hbase, he.same.store, he.same.ino]
  | truncate length =>
    refine Wp.bind_ok (((View.truncate hcs hinj hts hcfg h hm length).and
      (wp_truncate_marks hm length)).mono ?_)
    rintro r c' ⟨⟨rfl, he⟩, hidx⟩
    have hidx := hidx _ rfl
    rw [hcfg, h.size] at hidx
    refine ⟨_, rfl, Run.wp_pure.mpr ?_⟩
    unfold FileCtx.marks Marks.after
    rw [he.dirty, he.same.store, he.same.ino]
    by_cases hlt : length < ref.length
    · rw [if_pos hlt] at hidx
      simp only [if_pos hlt, hidx.1, hidx.2]
    · rw [if_neg hlt] at hidx
      simp only [if_neg hlt, hidx.1, hidx.2]
  | read offset size =>
    refine (View.read hcs hinj hts hcfg h hm size offset).mono ?_
    rintro r c' ⟨-, -, L, hst, hstore⟩
    unfold FileCtx.marks Marks.after
    rw [hst, hstore]
  | sync =>
    refine Wp.bind_ok ((View.flush hcs hts hcfg h).mono ?_)
    rintro r c' ⟨rfl, -, hf⟩
    refine ⟨_, rfl, Run.wp_pure.mpr ?_⟩
    rcases hf with ⟨hd, rfl⟩ | ⟨hd, hf⟩
    · exact (if_neg (by simp [FileCtx.marks, hd])).symm
    · have hd' : c.marks.dirty = true := hd
      unfold FileCtx.marks Marks.after
      rw [hf.dirty, hf.dirtyIdx, hf.base, hf.ino, hf.rows, h.flushRows_marks hcs]
      exact (if_pos hd').symm

/-- The marks behind a session. -/
theorem View.performAll_marks (hcfg : cfg.chunkSize = cs)
    (hinj : Function.Injective (sha256 : Bytes → Sha)) (hts : ∀ n, (ts n).Quiet False)
    {ops : List FileOp} (h : View cs c ref) (hm : c.st.materialized = true)
    (hops : ∀ op ∈ ops, op.Nonempty) :
    Wp ts (Wb.performAll cfg ops) (fun _ c' => c'.st.ino = c.st.ino ∧
      c'.marks = c.marks.afterAll cs ops ref) c := by
  induction ops generalizing c ref with
  | nil => exact Run.wp_pure.mpr ⟨rfl, rfl⟩
  | cons op ops ih =>
    have hop := hops op List.mem_cons_self
    refine Wp.bind_ok (((h.perform hcfg hinj hts hm hop).and
      (h.perform_marks hcfg hinj hts hm hop)).mono ?_)
    rintro r c₁ ⟨⟨rfl, h₁, hm₁, hino₁, -⟩, hk₁⟩
    refine ⟨_, rfl, ?_⟩
    rw [getState, Run.wp_gets_bind]
    refine Wp.bind ((ih h₁ hm₁ fun op' ho => hops op' (List.mem_cons_of_mem _ ho)).mono ?_)
    rintro r c' ⟨hino', hk'⟩
    have hend : c'.st.ino = c.st.ino ∧ c'.marks = c.marks.afterAll cs (op :: ops) ref := by
      rw [hk₁] at hk'
      exact ⟨hino'.trans hino₁, hk'⟩
    cases r with
    | error e => exact hend
    | ok l => exact Run.wp_pure.mpr hend

/-! ## Rows decide the content -/

theorem Store.content_eq (hinj : Function.Injective (sha256 : Bytes → Sha)) {s s' : Store Sha}
    (hs : s.Accounted) (hs' : s'.Accounted) {ino : Ino}
    (hrows : s'.index.getChunks ino = s.index.getChunks ino) : s'.content ino = s.content ino := by
  have hdata : ∀ row ∈ s.index.getChunks ino, ∃ data, s.blobData row.sha = some data ∧
      s'.blobData row.sha = some data := by
    intro row hrow
    obtain ⟨data, hdata, hsha⟩ := hs.blobData_row hrow
    obtain ⟨data', hdata', hsha'⟩ := hs'.blobData_row (hrows.symm ▸ hrow)
    exact ⟨data, hdata, by rw [hdata', hinj (hsha'.trans hsha.symm)]⟩
  have hmap : ∀ t : Store Sha, (∀ row ∈ s.index.getChunks ino,
      t.blobData row.sha = some ((s.blobData row.sha).getD [])) →
      (s.index.getChunks ino).mapM (fun row => t.blobData row.sha) =
        some ((s.index.getChunks ino).map fun row => (s.blobData row.sha).getD []) :=
    fun t ht => Store.mapM_some ht
  unfold Store.content
  rw [hrows, hmap s, hmap s']
  · intro row hrow
    obtain ⟨data, h, h'⟩ := hdata row hrow
    rw [h, h', Option.getD_some]
  · intro row hrow
    obtain ⟨data, h, -⟩ := hdata row hrow
    rw [h, Option.getD_some]

end Tgfs
