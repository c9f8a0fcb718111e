import Tgfs.Cache.Proofs.Materialize

/-!
# What a session reads and what it stores

Along every session the reads and the live size are those of the byte array. What a sync
stores is the byte array as well, provided that `put_file` takes no stale row for clean: a
`truncate` drops rows from `base` that stay in the index until the next flush, and if the file
has grown again by then, `put_file` finds them at the right place with the right length.
-/

namespace Tgfs

open Run (Wp)
open Wb

variable {Sha : Type} [DecidableEq Sha] [Sha256 Sha] {cs : Nat} {c c' : FileCtx Sha} {ref : Bytes}
  {ts : Nat → Tick} {cfg : WbConfig}

/-! ## Syncs that store the file -/

/-- Every row past `base` that `put_file` takes for clean names the bytes that the temp file
has there. -/
def NoStaleRow (cs : Nat) (c : FileCtx Sha) : Prop :=
  c.st.dirty = true → ∀ i row, c.st.base.length ≤ i → i * cs < c.st.size →
    Store.cleanRow (some c.st.dirtyIdx) (c.store.index.getChunks c.st.ino) i (i * cs)
      (min cs (c.st.size - i * cs)) = some row →
    row.sha = sha256 (chunkAt cs (resize c.temp c.st.size) i)

/-- No row lies past `base` unless its index is marked. -/
theorem noStaleRow_of_covered (h : ∀ i, i < (c.store.index.getChunks c.st.ino).length →
    i < c.st.base.length ∨ i ∈ c.st.dirtyIdx) : NoStaleRow cs c := by
  intro _ i row hb _ hrow
  obtain ⟨hold, -, -, d, ⟨⟩, hd⟩ := Store.cleanRow_eq_some hrow
  obtain hlt | hm := h i (List.getElem?_eq_some_iff.mp hold).1
  · omega
  · exact absurd hm hd

/-- The part of the session's state that a flush relies on. -/
structure Synced (cs : Nat) (c : FileCtx Sha) (ref : Bytes) : Prop where
  clean : Clean cs c.st ref
  inode : ∃ n, c.store.index.inodes c.st.ino = some n
  stored : c.st.dirty = false → c.store.StoredAs cs c.st.ino ref

/-- The hash a flush stores for a chunk is that of the file's chunk. -/
theorem View.rowSha (hcs : 0 < cs) (h : View cs c ref) (hc : Clean cs c.st ref)
    (hd : c.st.dirty = true) (hn : NoStaleRow cs c) {i : Nat} (hi : i * cs < ref.length) :
    rowSha cs (some c.st.dirtyIdx) (c.store.index.getChunks c.st.ino)
      (resize c.temp ref.length) i = sha256 (chunkAt cs ref i) := by
  by_cases hv : c.st.Valid i
  · have hchunk := h.chunk_eq hcs hv
    unfold Tgfs.rowSha
    cases hrow : Store.cleanRow (some c.st.dirtyIdx) (c.store.index.getChunks c.st.ino) i (i * cs)
      (min cs ((resize c.temp ref.length).length - i * cs)) with
    | none => rw [hchunk]
    | some row =>
      rw [length_resize] at hrow
      by_cases hib : i < c.st.base.length
      · obtain ⟨hold, -, -, d, ⟨⟩, hdi⟩ := Store.cleanRow_eq_some hrow
        have hb := List.getElem?_eq_getElem hib
        obtain ⟨row', hrow', hof⟩ := h.base_row i _ hb
        obtain rfl : row = row' := Option.some.inj (hold.symm.trans hrow')
        have hgood := hc i _ hb hdi
        rw [← hof] at hgood
        exact hgood.2
      · rw [← hchunk, ← h.size]
        exact hn hd i row (Nat.le_of_not_lt hib) (h.size ▸ hi) (h.size ▸ hrow)
  · unfold FileState.Valid at hv
    push Not at hv
    exact h.rowSha_unloaded (List.getElem?_eq_getElem hv.1) hv.2

theorem View.flushRows_eq (hcs : 0 < cs) (h : View cs c ref) (hc : Clean cs c.st ref)
    (hd : c.st.dirty = true) (hn : NoStaleRow cs c) :
    flushRows cs c ref = (List.range (chunkCount cs ref.length)).map fun i =>
      ⟨i, i * cs, (chunkAt cs ref i).length, sha256 (chunkAt cs ref i)⟩ := by
  refine List.map_congr_left fun i hi => ?_
  have hlt := (lt_chunkCount hcs).mp (List.mem_range.mp hi)
  rw [gridRow, h.rowSha hcs hc hd hn hlt, length_resize, length_chunkAt]

/-- Rows that are those of the file, behind a flush. -/
theorem View.syncedRows (hcs : 0 < cs) (h : View cs c ref) (hs : Synced cs c ref)
    (hd : c.st.dirty = true) (hn : NoStaleRow cs c) (hino : c'.st.ino = c.st.ino)
    (hbase : c'.st.base = (flushRows cs c ref).map BaseChunk.ofRow)
    (hrows : c'.store.index.getChunks c.st.ino = flushRows cs c ref)
    (hinode : ∃ n, c'.store.index.inodes c.st.ino = some n ∧ n.size = ref.length) :
    Synced cs c' ref := by
  have hflush := h.flushRows_eq hcs hs.clean hd hn
  obtain ⟨n, hn, hsize⟩ := hinode
  refine ⟨fun i b hb _ => ?_, ⟨n, hino ▸ hn⟩, fun _ => ⟨?_, n, hino ▸ hn, hsize⟩⟩
  · rw [hbase, hflush, List.map_map] at hb
    obtain ⟨-, rfl⟩ := getElem?_gridBase hcs (show (gridBase cs ref)[i]? = some b from hb)
    exact ⟨rfl, rfl⟩
  · rw [hino, hrows, hflush]

theorem Flushed.synced (hcs : 0 < cs) (hf : Flushed cs c c' ref) (h : View cs c ref)
    (hs : Synced cs c ref) (hd : c.st.dirty = true) (hn : NoStaleRow cs c) :
    Synced cs c' ref := by
  obtain ⟨n, hinode⟩ := hs.inode
  obtain ⟨now, hnow⟩ := hf.inode
  rw [hinode, Option.map_some] at hnow
  exact h.syncedRows hcs hs hd hn hf.ino hf.base hf.rows ⟨_, hnow, rfl⟩

/-! ## Step by step -/

section Session

variable (hcfg : cfg.chunkSize = cs) (hinj : Function.Injective (sha256 : Bytes → Sha))
  (hts : ∀ n, (ts n).Quiet False)
include hcfg hinj hts

/-- One operation that is no sync. -/
theorem View.edit (h : View cs c ref) (hm : c.st.materialized = true) {op : FileOp}
    (hop : op.Nonempty) (hsync : op ≠ .sync) :
    Wp ts (perform cfg op) (fun r c' => r = .ok (op.answer ref) ∧ View cs c' (op.apply ref) ∧
      SameFile c c' ∧ (Synced cs c ref → Synced cs c' (op.apply ref))) c := by
  have hcs : 0 < cs := hcfg ▸ cfg.chunkSize_pos
  have hedit : ∀ {c' ref'}, Edited cs c c' ref ref' → Synced cs c ref → Synced cs c' ref' := by
    intro c' ref' he hs
    refine ⟨he.clean hs.clean, ?_, fun hd => by rw [he.dirty] at hd; cases hd⟩
    rw [he.same.store, he.same.ino]
    exact hs.inode
  cases op with
  | write offset data =>
    refine Wp.bind_ok ((View.write hcs hinj hts hcfg h hm hop offset).mono ?_)
    rintro r c' ⟨rfl, he, -⟩
    exact ⟨_, rfl, Run.wp_pure.mpr ⟨rfl, he.view, he.same, hedit he⟩⟩
  | truncate length =>
    refine Wp.bind_ok ((View.truncate hcs hinj hts hcfg h hm length).mono ?_)
    rintro r c' ⟨rfl, he⟩
    exact ⟨_, rfl, Run.wp_pure.mpr ⟨rfl, he.view, he.same, hedit he⟩⟩
  | read offset size =>
    refine (View.read hcs hinj hts hcfg h hm size offset).mono ?_
    rintro r c' ⟨rfl, h', L, hL⟩
    refine ⟨rfl, h', hL.same, fun hs => ⟨?_, ?_, ?_⟩⟩
    · rw [hL.1]
      exact hs.clean
    · rw [hL.2, hL.1]
      exact hs.inode
    · rw [hL.2, hL.1]
      exact hs.stored
  | sync => exact absurd rfl hsync

/-- One operation. -/
theorem View.perform (h : View cs c ref) (hm : c.st.materialized = true) {op : FileOp}
    (hop : op.Nonempty) :
    Wp ts (perform cfg op) (fun r c' => r = .ok (op.answer ref) ∧ View cs c' (op.apply ref) ∧
      c'.st.materialized = true ∧ c'.st.ino = c.st.ino ∧
      (Synced cs c ref → (op = .sync → NoStaleRow cs c) →
        Synced cs c' (op.apply ref) ∧ (op = .sync → c'.st.dirty = false))) c := by
  have hcs : 0 < cs := hcfg ▸ cfg.chunkSize_pos
  by_cases hsync : op = .sync
  · subst hsync
    refine Wp.bind_ok ((View.flush hcs hts hcfg h).mono ?_)
    rintro r c' ⟨rfl, h', ⟨hd, rfl⟩ | ⟨hd, hf⟩⟩
    · exact ⟨_, rfl, Run.wp_pure.mpr ⟨rfl, h', hm, rfl, fun hs _ => ⟨hs, fun _ => hd⟩⟩⟩
    · exact ⟨_, rfl, Run.wp_pure.mpr ⟨rfl, h', hf.mat.trans hm, hf.ino,
        fun hs hn => ⟨hf.synced hcs h hs hd (hn rfl), fun _ => hf.dirty⟩⟩⟩
  · refine (h.edit hcfg hinj hts hm hop hsync).mono ?_
    rintro r c' ⟨rfl, h', hsame, hs'⟩
    exact ⟨rfl, h', hsame.mat.trans hm, hsame.ino, fun hs _ => ⟨hs' hs, fun he => absurd he hsync⟩⟩

theorem View.performAll {ops : List FileOp} (h : View cs c ref) (hm : c.st.materialized = true)
    (hops : ∀ op ∈ ops, op.Nonempty) :
    Wp ts (performAll cfg ops) (fun r c' => r = .ok (FileOp.answers ops ref) ∧
      View cs c' (FileOp.applyAll ops ref) ∧ c'.st.materialized = true) c := by
  induction ops generalizing c ref with
  | nil => exact Run.wp_pure.mpr ⟨rfl, h, hm⟩
  | cons op ops ih =>
    refine Wp.bind_ok ((h.perform hcfg hinj hts hm (hops op List.mem_cons_self)).mono ?_)
    rintro r c₁ ⟨rfl, h₁, hm₁, -⟩
    refine ⟨_, rfl, ?_⟩
    rw [getState, Run.wp_gets_bind]
    refine Wp.bind_ok ((ih h₁ hm₁ fun op' ho => hops op' (List.mem_cons_of_mem _ ho)).mono ?_)
    rintro r c' ⟨rfl, h', hm'⟩
    refine ⟨_, rfl, Run.wp_pure.mpr ⟨?_, h', hm'⟩⟩
    rw [FileOp.answers, liveSize, if_pos hm₁, h₁.size]

end Session

/-- The state behind one more operation. -/
theorem performAll_snoc {ops : List FileOp} (op : FileOp) {n n' : Nat}
    {l : List (Bytes × Option Nat)} (h : performAll cfg ops ts n c = (.ok l, n', c')) :
    (performAll cfg (ops ++ [op]) ts n c).2.2 = (perform cfg op ts n' c').2.2 := by
  induction ops generalizing n c l with
  | nil =>
    cases h
    simp only [List.nil_append, performAll, Run.bind_run]
    rcases perform cfg op ts n' c' with ⟨r, n₁, c₁⟩
    cases r <;> rfl
  | cons o ops ih =>
    simp only [performAll, Run.bind_run, List.cons_append] at h ⊢
    rcases hr : perform cfg o ts n c with ⟨r, n₁, c₁⟩
    rw [hr] at h
    cases r with
    | error e => cases h
    | ok a =>
      simp only [getState, Run.gets] at h ⊢
      rcases hr' : performAll cfg ops ts n₁ c₁ with ⟨r', n₂, c₂⟩
      rw [hr'] at h
      cases r' with
      | error e => cases h
      | ok l' =>
        obtain ⟨-, rfl, rfl⟩ := h
        rw [← ih hr']
        rcases performAll cfg (ops ++ [op]) ts n₁ c₁ with ⟨r'', n₃, c₃⟩
        cases r'' <;> rfl

/-! ## Whole sessions -/

section Whole

variable (hcfg : cfg.chunkSize = cs) (hinj : Function.Injective (sha256 : Bytes → Sha))
  (hts : ∀ n, (ts n).Quiet False)
include hcfg hinj hts

theorem View.performAll_synced {ops : List FileOp} (h : View cs c ref)
    (hm : c.st.materialized = true) (hs : Synced cs c ref) (hops : ∀ op ∈ ops, op.Nonempty)
    (n : Nat) (hno : ∀ pre, pre ++ [.sync] <+: ops →
      NoStaleRow cs (Wb.performAll cfg pre ts n c).2.2) :
    View cs (Wb.performAll cfg ops ts n c).2.2 (FileOp.applyAll ops ref) ∧
      (Wb.performAll cfg ops ts n c).2.2.st.ino = c.st.ino ∧
      Synced cs (Wb.performAll cfg ops ts n c).2.2 (FileOp.applyAll ops ref) ∧
        ∀ pre, ops = pre ++ [.sync] → (Wb.performAll cfg ops ts n c).2.2.st.dirty = false := by
  induction ops using List.reverseRecOn with
  | nil => exact ⟨h, rfl, hs, fun pre hp => by simp at hp⟩
  | append_singleton ops op ih =>
    have hops' : ∀ o ∈ ops, o.Nonempty := fun o ho => hops o (List.mem_append_left _ ho)
    obtain ⟨h₁, hino₁, hs₁, -⟩ :=
      ih hops' fun pre hp => hno pre (hp.trans (List.prefix_append _ _))
    obtain ⟨hr, -, hm₁⟩ := h.performAll hcfg hinj hts hm hops' n
    have hno₁ : op = .sync → NoStaleRow cs (Wb.performAll cfg ops ts n c).2.2 := by
      rintro rfl
      exact hno ops List.prefix_rfl
    rcases hrun : Wb.performAll cfg ops ts n c with ⟨r, n₁, c₁⟩
    rw [hrun] at h₁ hino₁ hs₁ hr hm₁ hno₁
    obtain rfl := hr
    rw [performAll_snoc op hrun]
    obtain ⟨-, h₂, -, hino₂, hs₂⟩ :=
      h₁.perform hcfg hinj hts hm₁ (hops op (List.mem_append_right _ (List.mem_singleton_self _))) n₁
    obtain ⟨hs₂, hd₂⟩ := hs₂ hs₁ hno₁
    rw [FileOp.applyAll_append]
    refine ⟨h₂, hino₂.trans hino₁, hs₂, fun pre hp => hd₂ ?_⟩
    simpa using (List.append_inj' hp rfl).2

end Whole

/-! ## Opening and a session -/

variable {s : Store Sha} {ino : Ino}

theorem session_run {n n₁ : ℕ} {c₁ : FileCtx Sha} (h : materialize cfg ts n c = (.ok (), n₁, c₁))
    (ops : List FileOp) :
    (session cfg ops ts n c).1 =
        (performAll cfg ops ts n₁ c₁).1.map (fun l => (liveSize (some c₁.st), l)) ∧
      (session cfg ops ts n c).2.2 = (performAll cfg ops ts n₁ c₁).2.2 := by
  unfold session
  rw [Run.bind_run_ok h]
  simp only [Run.bind_run, getState, Run.gets]
  rcases performAll cfg ops ts n₁ c₁ with ⟨r, n', c'⟩
  cases r <;> exact ⟨rfl, rfl⟩

/-- The state that a stored file is opened in. -/
theorem materialize_fresh (ts : Nat → Tick) (cfg : WbConfig) (hs : s.Accounted)
    (hst : s.StoredAs cfg.chunkSize ino ref) (gen n : Nat) :
    ∃ n₁ c₁, materialize cfg ts n (freshCtx ino gen s) = (.ok (), n₁, c₁) ∧
      View cfg.chunkSize c₁ ref ∧ c₁.st.materialized = true ∧ c₁.st.ino = ino ∧
        Synced cfg.chunkSize c₁ ref := by
  obtain ⟨hr, hview, hclean, -, hmat⟩ := (View.materialize rfl hs hst rfl rfl rfl :
    Wp ts (materialize cfg) _ (freshCtx ino gen s)) n
  rcases hrun : materialize cfg ts n (freshCtx ino gen s) with ⟨r, n₁, c₁⟩
  rw [hrun] at hr hview hclean hmat
  obtain rfl := hr
  have hino : c₁.st.ino = ino := hmat.ino
  have hstore : c₁.store = s := hmat.store
  obtain ⟨m, hm, -⟩ := hst.inode
  refine ⟨n₁, c₁, rfl, hview, hmat.mat, hino, hclean, ⟨m, ?_⟩, fun _ => ?_⟩
  · rwa [hstore, hino]
  · rwa [hstore, hino]

/-- Every read of a session returns the bytes of the file, and the live size is its length. -/
theorem session_answers (cfg : WbConfig) (hinj : Function.Injective (sha256 : Bytes → Sha))
    (hts : ∀ n, (ts n).Quiet False) (hs : s.Accounted) (hst : s.StoredAs cfg.chunkSize ino ref)
    (gen : Nat) {ops : List FileOp} (hops : ∀ op ∈ ops, op.Nonempty) (n : Nat) :
    (session cfg ops ts n (freshCtx ino gen s)).1 =
      .ok (some ref.length, FileOp.answers ops ref) := by
  obtain ⟨n₁, c₁, hrun, hview, hmat, -⟩ := materialize_fresh ts cfg hs hst gen n
  have hlive : liveSize (some c₁.st) = some ref.length := by
    rw [liveSize, if_pos hmat, hview.size]
  rw [(session_run hrun ops).1, (hview.performAll rfl hinj hts hmat hops n₁).1, hlive]
  rfl

theorem session_answers_edits :
    (session ⟨⟨2, 1, by decide, by decide⟩, 0⟩ [.write 3 [7, 8], .read 0 9, .sync, .truncate 2]
      (fun _ => {}) 0
      (freshCtx 2 0 (Store.oneFile ⟨2, 1, by decide, by decide⟩ [1, 2, 3, 4] : Store Bytes))).1 =
      .ok (some 4, [([], some 5), ([1, 2, 3, 7, 8], some 5), ([], some 5), ([], some 2)]) := by
  have hf := Store.oneFile_stored Bytes ⟨2, 1, by decide, by decide⟩ [1, 2, 3, 4]
  exact session_answers ⟨⟨2, 1, by decide, by decide⟩, 0⟩ (fun _ _ h => h)
    (fun _ => Tick.quiet_default) hf.1 hf.2 0 (by simp [FileOp.Nonempty]) 0

/-- A sync stores the file, in every session in which no sync meets a stale row. -/
theorem session_synced (cfg : WbConfig) (hinj : Function.Injective (sha256 : Bytes → Sha))
    (hts : ∀ n, (ts n).Quiet False) (hs : s.Accounted) (hst : s.StoredAs cfg.chunkSize ino ref)
    (gen : Nat) {ops : List FileOp} (hops : ∀ op ∈ ops, op.Nonempty) (n : Nat)
    (hno : ∀ pre, pre ++ [.sync] <+: ops →
      NoStaleRow cfg.chunkSize (session cfg pre ts n (freshCtx ino gen s)).2.2) :
    ∀ pre, pre ++ [.sync] <+: ops →
      Store.Holds (session cfg (pre ++ [.sync]) ts n (freshCtx ino gen s)).2.2.store ino
        (FileOp.applyAll pre ref) := by
  obtain ⟨n₁, c₁, hrun, hview, hmat, hino, hsync⟩ := materialize_fresh ts cfg hs hst gen n
  simp only [(session_run hrun _).2] at hno ⊢
  intro pre hpre
  obtain ⟨hview', hino', hsync', hclean⟩ := hview.performAll_synced rfl hinj hts hmat hsync
    (fun op hop => hops op (hpre.subset hop)) n₁ fun pre' hp => hno pre' (hp.trans hpre)
  have hstored := hsync'.stored (hclean pre rfl)
  rw [hino', hino] at hstored
  rw [FileOp.applyAll_append] at hstored
  exact hstored.holds cfg.chunkSize_pos hinj hview'.books

theorem session_synced_write :
    Store.Holds (session ⟨⟨2, 1, by decide, by decide⟩, 0⟩ ([.write 3 [7, 8]] ++ [.sync])
      (fun _ => {}) 0 (freshCtx 2 0
        (Store.oneFile ⟨2, 1, by decide, by decide⟩ [1, 2, 3, 4] : Store Bytes))).2.2.store
      2 (FileOp.applyAll [.write 3 [7, 8]] [1, 2, 3, 4]) := by
  have hf := Store.oneFile_stored Bytes ⟨2, 1, by decide, by decide⟩ [1, 2, 3, 4]
  have hno : ∀ pre, pre ++ [.sync] <+: [.write 3 [7, 8], .sync] →
      NoStaleRow 2 (session ⟨⟨2, 1, by decide, by decide⟩, 0⟩ pre (fun _ => {}) 0
        (freshCtx 2 0
          (Store.oneFile ⟨2, 1, by decide, by decide⟩ [1, 2, 3, 4] : Store Bytes))).2.2 := by
    intro pre hpre
    refine noStaleRow_of_covered ?_
    obtain rfl : pre = [.write 3 [7, 8]] := by
      rcases pre with _ | ⟨a, _ | ⟨b, l⟩⟩ <;> simp_all
    decide +kernel
  exact session_synced ⟨⟨2, 1, by decide, by decide⟩, 0⟩ (fun _ _ h => h)
    (fun _ => Tick.quiet_default) hf.1 hf.2 0 (by simp [FileOp.Nonempty]) 0 hno _ List.prefix_rfl

/-- Shrinking a file and growing it again before the sync brings the old bytes back. -/
theorem session_synced_stale :
    (Store.oneFile ⟨2, 1, by decide, by decide⟩ [1, 2, 3, 4] : Store Bytes).Accounted ∧
      (Store.oneFile ⟨2, 1, by decide, by decide⟩ [1, 2, 3, 4] : Store Bytes).StoredAs 2 2
        [1, 2, 3, 4] ∧
      FileOp.applyAll [.truncate 2, .truncate 4] [1, 2, 3, 4] = [1, 2, 0, 0] ∧
      (session ⟨⟨2, 1, by decide, by decide⟩, 0⟩ [.truncate 2, .truncate 4, .sync] (fun _ => {}) 0
        (freshCtx 2 0 (Store.oneFile ⟨2, 1, by decide, by decide⟩ [1, 2, 3, 4] : Store Bytes))).2.2.store.content
        2 = some [1, 2, 3, 4] := by
  have hf := Store.oneFile_stored Bytes ⟨2, 1, by decide, by decide⟩ [1, 2, 3, 4]
  exact ⟨hf.1, hf.2, by decide, by decide +kernel⟩

end Tgfs
