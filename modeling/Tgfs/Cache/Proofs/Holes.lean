import Tgfs.Cache.Proofs.Contents
import Tgfs.Store.Proofs.Reads

/-!
# The holes of the temp file

A chunk of `base` that was never loaded is a hole of the temp file. Its stored row has the
length that `put_file` asks for, and it is not marked, so that a sync reuses the row and never
reads the hole.
-/

namespace Tgfs

open Run (Wp)
open Wb

variable {Sha : Type} [DecidableEq Sha] [Sha256 Sha] {cs : Nat} {c c' : FileCtx Sha} {ref : Bytes}
  {ts : Nat → Tick} {cfg : WbConfig}

/-! ## A state that was only read -/

/-- A state that was never opened for writing, nor written to. -/
structure Untouched (cs : Nat) (c : FileCtx Sha) (ref : Bytes) : Prop where
  books : c.store.Accounted
  stored : c.store.StoredAs cs c.st.ino ref
  opened : c.st.closed = false
  mat : c.st.materialized = false
  temp : c.temp = []
  dirty : c.st.dirty = false
  base : c.st.base = []

/-- The stored rows are numbered as they stand. -/
def RowsIdx (c : FileCtx Sha) : Prop :=
  ∀ (i : Nat) (row : Chunk Sha), (c.store.index.getChunks c.st.ino)[i]? = some row → row.idx = i

/-- What holds between the operations on a state in write mode. -/
structure Written (cs : Nat) (c : FileCtx Sha) (ref : Bytes) : Prop where
  view : View cs c ref
  mat : c.st.materialized = true
  rowsIdx : RowsIdx c

/-- What holds between the operations of a run. -/
def Served (cs : Nat) (c : FileCtx Sha) (ref : Bytes) : Prop :=
  Untouched cs c ref ∨ Written cs c ref

omit [DecidableEq Sha] [Sha256 Sha] in
theorem eq_of_getElem?_range {n i j : Nat} (h : (List.range n)[i]? = some j) : j = i := by
  obtain ⟨hlt, he⟩ := List.getElem?_eq_some_iff.mp h
  rw [List.getElem_range] at he
  exact he.symm

omit [DecidableEq Sha] in
theorem Store.StoredAs.rowsIdx (h : c.store.StoredAs cs c.st.ino ref) : RowsIdx c := by
  intro i row hrow
  rw [h.rows, List.getElem?_map] at hrow
  obtain ⟨j, hj, rfl⟩ := Option.map_eq_some_iff.mp hrow
  exact eq_of_getElem?_range hj

omit [DecidableEq Sha] [Sha256 Sha] in
theorem SameFile.rowsIdx (h : SameFile c c') (hc : RowsIdx c) : RowsIdx c' := by
  unfold RowsIdx
  rw [h.store, h.ino]
  exact hc

omit [DecidableEq Sha] in
theorem Flushed.rowsIdx (h : Flushed cs c c' ref) : RowsIdx c' := by
  intro i row hrow
  rw [h.ino, h.rows, flushRows, List.getElem?_map] at hrow
  obtain ⟨j, hj, rfl⟩ := Option.map_eq_some_iff.mp hrow
  exact eq_of_getElem?_range hj

theorem Store.seqRun_readParts_ok {s : Store Sha} (src : Src Sha) (hs : s.Readable)
    (hdown : ∀ n, (ts n).downloadFails = false) (offset fin : Nat) {rows : List (Chunk Sha)}
    (hrows : ∀ row ∈ rows, ∃ data, s.blobData row.sha = some data) (n : Nat) :
    ∃ data n', machine.seqRun src ts (readParts offset fin rows) n s = (.ok data, n', s) := by
  induction rows generalizing n with
  | nil => exact ⟨[], n, rfl⟩
  | cons row rows ih =>
    obtain ⟨data, hd⟩ := hrows row List.mem_cons_self
    obtain ⟨rest, n', hrest⟩ := ih (fun r hr => hrows r (List.mem_cons_of_mem _ hr)) (n + 2)
    refine ⟨pread data (max offset row.off - row.off)
      (min fin (row.off + row.len) - row.off - (max offset row.off - row.off)) ++ rest, n', ?_⟩
    unfold readParts
    simp only [Prog.bind_eq, Machine.seqRun_bind, Store.seqRun_fetch hs hd, hdown,
      Bool.false_eq_true, if_false, hrest]
    rfl

theorem Untouched.readRange (h : Untouched cs c ref) (hts : ∀ n, (ts n).Quiet False)
    (offset size : Nat) :
    Wp ts (call noSrc (Store.readRange c.st.ino offset size)) (fun r c' => (∃ a, r = .ok a) ∧
      c' = c) c := by
  have hdown : ∀ n, (ts n).downloadFails = false := by
    intro n
    by_contra hf
    exact (hts n).download (by simpa using hf)
  refine wp_call fun n => ?_
  by_cases hl : size = 0
  · subst hl
    exact ⟨⟨[], rfl⟩, rfl⟩
  · rw [Store.seqRun_readRange_parts h.books.readable hl]
    have hrows : ∀ row ∈ (c.store.index.getChunks c.st.ino).filter fun row =>
        row.off + row.len > offset ∧ row.off < offset + size,
        ∃ data, c.store.blobData row.sha = some data := by
      intro row hrow
      obtain ⟨data, hd, -⟩ := h.books.blobData_row (List.mem_filter.mp hrow).1
      exact ⟨data, hd⟩
    obtain ⟨data, n', hrun⟩ := Store.seqRun_readParts_ok noSrc h.books.readable hdown offset
      (offset + size) hrows (n + 1)
    rw [hrun]
    exact ⟨⟨data, rfl⟩, rfl⟩

/-- Nothing happens to a state that is in write mode. -/
theorem materialize_done (hm : c.st.materialized = true) (n : Nat) :
    materialize cfg ts n c = (.ok (), n, c) := by
  unfold Wb.materialize
  simp [Run.bind_run, getState, Run.gets, hm]
  rfl

/-- An operation that materializes first can be looked at from the state that leaves. -/
theorem wp_materialize_bind {α : Type} {k : Unit → FileRun Sha α}
    {Q : Except (PyErr Sha) α → FileCtx Sha → Prop}
    (h : Wp ts (materialize cfg) (fun r c' => r = .ok () ∧ c'.st.materialized = true ∧
      Wp ts (materialize cfg >>= k) Q c') c) : Wp ts (materialize cfg >>= k) Q c := by
  refine Wp.bind_ok (h.mono ?_)
  rintro r c' ⟨rfl, hm, hk⟩
  refine ⟨(), rfl, fun n => ?_⟩
  have := hk n
  rwa [Run.bind_run_ok (materialize_done hm n)] at this

section Steps

variable (hcfg : cfg.chunkSize = cs) (hinj : Function.Injective (sha256 : Bytes → Sha))
  (hts : ∀ n, (ts n).Quiet False)
include hcfg

theorem Untouched.materialize (h : Untouched cs c ref) :
    Wp ts (materialize cfg) (fun r c' => r = .ok () ∧ Written cs c' ref) c := by
  refine (View.materialize hcfg h.books h.stored h.mat h.opened h.temp).mono ?_
  rintro r c' ⟨rfl, hview, -, -, hmat⟩
  refine ⟨rfl, hview, hmat.mat, ?_⟩
  unfold RowsIdx
  rw [hmat.store, hmat.ino]
  exact h.stored.rowsIdx

include hinj hts

theorem Written.perform (h : Written cs c ref) {op : FileOp} (hop : op.Nonempty) :
    Wp ts (perform cfg op) (fun r c' => r = .ok (op.answer ref) ∧ Written cs c' (op.apply ref)) c := by
  have hcs : 0 < cs := hcfg ▸ cfg.chunkSize_pos
  by_cases hsync : op = .sync
  · subst hsync
    refine Wp.bind_ok ((View.flush hcs hts hcfg h.view).mono ?_)
    rintro r c' ⟨rfl, hv, ⟨-, rfl⟩ | ⟨-, hf⟩⟩
    · exact ⟨(), rfl, Run.wp_pure.mpr ⟨rfl, h⟩⟩
    · exact ⟨(), rfl, Run.wp_pure.mpr ⟨rfl, hv, hf.mat.trans h.mat, hf.rowsIdx⟩⟩
  · refine (h.view.edit hcfg hinj hts h.mat hop hsync).mono ?_
    rintro r c' ⟨rfl, hv, hsame, -⟩
    exact ⟨rfl, hv, hsame.mat.trans h.mat, hsame.rowsIdx h.rowsIdx⟩

theorem Served.perform (h : Served cs c ref) {op : FileOp} (hop : op.Nonempty) :
    Wp ts (perform cfg op) (fun r c' => (∃ a, r = .ok a) ∧ Served cs c' (op.apply ref)) c := by
  have hwritten : ∀ {c' : FileCtx Sha}, Written cs c' ref →
      Wp ts (Wb.perform cfg op) (fun r c'' => (∃ a, r = .ok a) ∧ Served cs c'' (op.apply ref)) c' := by
    intro c' hw
    refine (hw.perform hcfg hinj hts hop).mono ?_
    rintro r c'' ⟨rfl, hw'⟩
    exact ⟨⟨_, rfl⟩, .inr hw'⟩
  obtain hu | hw := h
  case inr => exact hwritten hw
  have hmat : Wp ts (Wb.materialize cfg) (fun r c' => r = .ok () ∧ c'.st.materialized = true ∧
      Wp ts (Wb.perform cfg op) (fun r c'' => (∃ a, r = .ok a) ∧ Served cs c'' (op.apply ref)) c')
      c := by
    refine (hu.materialize hcfg).mono ?_
    rintro r c' ⟨rfl, hw⟩
    exact ⟨rfl, hw.mat, hwritten hw⟩
  cases op with
  | write offset data =>
    have hassoc : (Wb.perform cfg (.write offset data) : FileRun Sha Bytes) = (materialize cfg >>= fun _ => _) :=
      Run.bind_assoc _ _ _
    rw [hassoc] at hmat ⊢
    exact wp_materialize_bind hmat
  | truncate length =>
    have hassoc : (Wb.perform cfg (.truncate length) : FileRun Sha Bytes) = (materialize cfg >>= fun _ => _) :=
      Run.bind_assoc _ _ _
    rw [hassoc] at hmat ⊢
    exact wp_materialize_bind hmat
  | read offset size =>
    change Wp ts (Wb.read cfg size offset) _ c
    unfold Wb.read
    rw [getState, Run.wp_gets_bind, hu.mat]
    simp only [Bool.false_eq_true, if_false]
    refine (hu.readRange hts offset size).mono ?_
    rintro r _ ⟨hr, rfl⟩
    exact ⟨hr, .inl hu⟩
  | sync =>
    change Wp ts (flushLocked cfg >>= _) _ c
    unfold Wb.flushLocked
    rw [getState, Run.wp_bind_assoc, Run.wp_gets_bind, hu.dirty]
    exact fun n => ⟨⟨_, rfl⟩, .inl hu⟩

theorem Served.performAll {ops : List FileOp} (h : Served cs c ref)
    (hops : ∀ op ∈ ops, op.Nonempty) :
    Wp ts (performAll cfg ops) (fun r c' => (∃ l, r = .ok l) ∧
      Served cs c' (FileOp.applyAll ops ref)) c := by
  induction ops generalizing c ref with
  | nil => exact Run.wp_pure.mpr ⟨⟨_, rfl⟩, h⟩
  | cons op ops ih =>
    refine Wp.bind_ok ((h.perform hcfg hinj hts (hops op List.mem_cons_self)).mono ?_)
    rintro r c₁ ⟨⟨a, rfl⟩, h₁⟩
    refine ⟨a, rfl, ?_⟩
    rw [getState, Run.wp_gets_bind]
    refine Wp.bind_ok ((ih h₁ fun op' ho => hops op' (List.mem_cons_of_mem _ ho)).mono ?_)
    rintro r c' ⟨⟨l, rfl⟩, h'⟩
    exact ⟨l, rfl, Run.wp_pure.mpr ⟨⟨_, rfl⟩, h'⟩⟩

theorem Served.opened {s : Store Sha} {ino : Ino} (hs : s.Accounted) (hst : s.StoredAs cs ino ref)
    (gen : Nat) (forWrite : Bool) {ops : List FileOp} (hops : ∀ op ∈ ops, op.Nonempty) :
    Wp ts (opened cfg forWrite ops) (fun r c' => (∃ l, r = .ok l) ∧
      Served cs c' (FileOp.applyAll ops ref)) (freshCtx ino gen s) := by
  have hfresh : Untouched cs (freshCtx ino gen s) ref := ⟨hs, hst, rfl, rfl, rfl, rfl, rfl⟩
  have hrun : ∀ {c' : FileCtx Sha}, Served cs c' ref → Wp ts (Wb.performAll cfg ops) _ c' :=
    fun h => h.performAll hcfg hinj hts hops
  cases forWrite with
  | false => exact hrun (.inl hfresh)
  | true =>
    refine Wp.bind_ok ((hfresh.materialize hcfg).mono ?_)
    rintro r c₁ ⟨rfl, hw⟩
    exact ⟨(), rfl, hrun (.inr hw)⟩

end Steps

/-! ## Holes -/

/-- Chunk `i` is a stored one that was not loaded. -/
def FileState.Hole (st : FileState Sha) (i : Nat) : Prop := i < st.base.length ∧ i ∉ st.loaded

/-- How `base` and the marks agree with the stored rows. -/
structure HolesKept (cs : Nat) (c : FileCtx Sha) : Prop where
  base : c.st.base <+: (c.store.index.getChunks c.st.ino).map BaseChunk.ofRow
  base_off : ∀ i b, c.st.base[i]? = some b → b.off = i * cs
  marked : ∀ i ∈ c.st.dirtyIdx, i < c.st.base.length → i ∈ c.st.loaded
  len : ∀ i b, c.st.base[i]? = some b → i ∉ c.st.loaded → b.len = min cs (c.st.size - i * cs)

/-- What the `put_file` of a sync does in the state `c`, from tick `n` on. -/
def syncActs (cfg : WbConfig) (c : FileCtx Sha) (ts : Nat → Tick) (n : Nat) : List (Act Sha) :=
  Store.machine.acts (tempSrc c.st.closed (resize c.temp c.st.size)) ts
    (Store.putFile cfg.toStoreConfig c.st.ino c.st.size (some c.st.dirtyIdx)) n c.store

/-- The sync reuses the row of every hole; what it reads, and what it uploads under its hash, are
chunks that are no holes. -/
structure HolesSkipped (cfg : WbConfig) (c : FileCtx Sha) (ts : Nat → Tick) (n : Nat) : Prop where
  reused : ∀ i, c.st.Hole i → i * cfg.chunkSize < c.st.size ∧
    ∃ row, (c.store.index.getChunks c.st.ino)[i]? = some row ∧
      Store.cleanRow (some c.st.dirtyIdx) (c.store.index.getChunks c.st.ino) i
        (i * cfg.chunkSize) (min cfg.chunkSize (c.st.size - i * cfg.chunkSize)) = some row
  read : ∀ pos want, .read pos want ∈ syncActs cfg c ts n →
    ∃ i, ¬ c.st.Hole i ∧ pos = i * cfg.chunkSize ∧
      want = min cfg.chunkSize (c.st.size - i * cfg.chunkSize)
  submit : ∀ sha data, .submit sha data ∈ syncActs cfg c ts n →
    ∃ i, ¬ c.st.Hole i ∧ sha = sha256 data ∧
      data = chunkAt cfg.chunkSize (resize c.temp c.st.size) i

theorem View.holesKept (h : View cs c ref) : HolesKept cs c := by
  refine ⟨?_, fun i b hb => (h.base_off i b hb).1, fun i hi hlt => ?_, fun i b hb hi => ?_⟩
  · rw [List.prefix_iff_getElem?]
    intro i hi
    obtain ⟨row, hrow, hof⟩ := h.base_row i _ (List.getElem?_eq_getElem hi)
    rw [List.getElem?_map, hrow, Option.map_some, hof]
  · by_contra hl
    exact (h.unloaded i _ (List.getElem?_eq_getElem hlt) hl).2 hi
  · rw [(h.unloaded i b hb hi).1.1, length_chunkAt, h.size]

theorem Untouched.holesKept (h : Untouched cs c ref) : HolesKept cs c := by
  have hnone : ∀ (i : Nat) (b : BaseChunk Sha), c.st.base[i]? ≠ some b := by simp [h.base]
  refine ⟨?_, fun i b hb => absurd hb (hnone i b), fun i _ hlt => ?_,
    fun i b hb _ => absurd hb (hnone i b)⟩
  · rw [h.base]
    exact List.nil_prefix
  · simp [h.base] at hlt

omit [DecidableEq Sha] [Sha256 Sha] in
/-- The row of a hole is the one that `put_file` looks for. -/
theorem HolesKept.reused (h : HolesKept cs c) {i : Nat} (hi : c.st.Hole i) :
    ∃ row, (c.store.index.getChunks c.st.ino)[i]? = some row ∧
      Store.cleanRow (some c.st.dirtyIdx) (c.store.index.getChunks c.st.ino) i (i * cs)
        (min cs (c.st.size - i * cs)) = some row := by
  obtain ⟨hlt, hl⟩ := hi
  have hb := List.getElem?_eq_getElem hlt
  have hrow := (List.prefix_iff_getElem?.mp h.base i hlt)
  rw [List.getElem?_map] at hrow
  obtain ⟨row, hrow, hof⟩ := Option.map_eq_some_iff.mp hrow
  refine ⟨row, hrow, cleanRow_eq (fun hd => hl (h.marked i hd hlt)) hrow ?_ ?_⟩
  · rw [← h.base_off i _ hb, ← hof]
    rfl
  · rw [← h.len i _ hb hl, ← hof]
    rfl

/-- A sync over an open temp file skips the holes. -/
theorem HolesKept.skipped (h : HolesKept cfg.chunkSize c) (ho : c.st.closed = false)
    (hin : ∀ i < c.st.base.length, i * cfg.chunkSize < c.st.size) (ts : Nat → Tick) (n : Nat) :
    HolesSkipped cfg c ts n := by
  have hlen : (resize c.temp c.st.size).length = c.st.size := length_resize _ _
  have hsrc : (tempSrc c.st.closed (resize c.temp c.st.size) : Src Sha) =
      Src.whole (resize c.temp c.st.size) := by
    rw [ho]
    rfl
  have hacts : ∀ a ∈ syncActs cfg c ts n, Store.FreshOnly cfg.chunkSize (some c.st.dirtyIdx)
      (c.store.index.getChunks c.st.ino) (resize c.temp c.st.size) a := by
    unfold syncActs
    rw [hsrc]
    generalize resize c.temp c.st.size = content at hlen
    rw [← hlen]
    exact Store.acts_putFile n c.store
  have hfresh : ∀ i, Store.Fresh cfg.chunkSize (some c.st.dirtyIdx)
      (c.store.index.getChunks c.st.ino) (resize c.temp c.st.size) i → ¬ c.st.Hole i := by
    rintro i ⟨-, hnone⟩ hi
    obtain ⟨row, -, hrow⟩ := h.reused hi
    rw [hlen, hrow] at hnone
    cases hnone
  refine ⟨fun i hi => ⟨hin i hi.1, h.reused hi⟩, fun pos want ha => ?_, fun sha data ha => ?_⟩
  · obtain ⟨i, hf, hpos, hwant⟩ := hacts _ ha
    exact ⟨i, hfresh i hf, hpos, hlen ▸ hwant⟩
  · obtain ⟨i, hf, hsha, hdata⟩ := hacts _ ha
    exact ⟨i, hfresh i hf, hsha, hdata⟩

theorem Served.holes (h : Served cfg.chunkSize c ref) (ts : Nat → Tick) (n : Nat) :
    HolesKept cfg.chunkSize c ∧ HolesSkipped cfg c ts n := by
  obtain hu | ⟨hv, -, -⟩ := h
  · exact ⟨hu.holesKept, hu.holesKept.skipped hu.opened (by simp [hu.base]) ts n⟩
  · refine ⟨hv.holesKept, hv.holesKept.skipped hv.opened (fun i hi => ?_) ts n⟩
    rw [hv.size]
    exact (hv.base_off i _ (List.getElem?_eq_getElem hi)).2

/-- In every state that a run without failures reaches, the holes are stored chunks, and the
`put_file` of a sync skips them. -/
theorem opened_holesSkipped (cfg : WbConfig) (hinj : Function.Injective (sha256 : Bytes → Sha))
    {s : Store Sha} {ino : Ino} (hts : ∀ n, (ts n).Quiet False) (hs : s.Accounted)
    (hst : s.StoredAs cfg.chunkSize ino ref) (gen : Nat) (forWrite : Bool) {ops : List FileOp}
    (hops : ∀ op ∈ ops, op.Nonempty) (n : Nat) :
    (∃ l, (opened cfg forWrite ops ts n (freshCtx ino gen s)).1 = .ok l) ∧
      HolesKept cfg.chunkSize (opened cfg forWrite ops ts n (freshCtx ino gen s)).2.2 ∧
        ∀ ts' n', HolesSkipped cfg (opened cfg forWrite ops ts n (freshCtx ino gen s)).2.2 ts' n' := by
  obtain ⟨hok, hserved⟩ := Served.opened rfl hinj hts hs hst gen forWrite hops n
  exact ⟨hok, (hserved.holes ts n).1, fun ts' n' => (hserved.holes ts' n').2⟩

/-- A chunk is dropped, stored again as zeros and written into, with a sync behind each truncate.
The two chunks before it are never loaded, and every sync leaves them their rows. -/
theorem opened_holesSkipped_regrown :
    let cfg : WbConfig := ⟨⟨2, 1, Nat.two_pos, Nat.one_pos⟩, 0⟩
    let ops : List FileOp := [.truncate 4, .sync, .truncate 7, .sync, .write 5 [9]]
    let run := opened cfg false ops (fun _ => {}) 0
      (freshCtx 2 0 (Store.oneFile cfg.toStoreConfig [1, 2, 3, 4, 5, 6] : Store Bytes))
    ((∃ l, run.1 = .ok l) ∧ HolesKept 2 run.2.2 ∧ ∀ ts n, HolesSkipped cfg run.2.2 ts n) ∧
      run.2.2.store.index.getChunkShas 2 = [[1, 2], [3, 4], [0, 0], [0]] ∧
      run.2.2.st.Hole 0 ∧ run.2.2.st.Hole 1 ∧ run.2.2.st.dirtyIdx = {2} := by
  intro cfg ops run
  have hf := Store.oneFile_stored Bytes cfg.toStoreConfig [1, 2, 3, 4, 5, 6]
  have hops : ∀ op ∈ ops, op.Nonempty := by simp [ops, FileOp.Nonempty]
  refine ⟨opened_holesSkipped cfg (fun _ _ h => h) (fun _ => Tick.quiet_default) hf.1 hf.2 0 false
    hops 0, ?_⟩
  unfold FileState.Hole
  decide +kernel

end Tgfs
