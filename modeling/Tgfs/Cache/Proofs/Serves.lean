import Tgfs.Cache.Proofs.Holes
import Tgfs.Cache.Proofs.Marks
import Tgfs.Cache.Proofs.Rewrite

/-!
# An open file is a byte array

A state that was only read serves the stored file; one that was written serves its view. Either
way its operations are those of the byte array, and what it flushes is the byte array, as long as
no operation lays bare a row that was cut off and is in the index still.
-/

namespace Tgfs

open Run (Wp)
open Wb

variable {Sha : Type} [DecidableEq Sha] [Sha256 Sha] {cs : Nat} {c c' : FileCtx Sha} {ref : Bytes}
  {ts : Nat → Tick} {cfg : WbConfig}

/-! ## Rows that were cut off -/

namespace Marks

/-- Row `i` was cut off from a file that has `size` bytes now. A later flush may take it for
clean. -/
structure Stale (cs size : Nat) (k : Marks Sha) (i : Nat) : Prop where
  row : i < k.rows.length
  cut : k.base.length ≤ i
  unmarked : i ∉ k.dirtyIdx
  beyond : size ≤ i * cs

/-- The rows past `base` are marked or past the end of the file. -/
def Uncut (cs size : Nat) (k : Marks Sha) : Prop :=
  ∀ i < k.rows.length, i < k.base.length ∨ i ∈ k.dirtyIdx ∨ size ≤ i * cs

end Marks

/-- The file is to reach into chunk `i` without a byte being written there. -/
def FileOp.Bares (cs i : Nat) : FileOp → Prop
  | .write offset _ => i * cs + cs ≤ offset
  | .truncate length => i * cs < length
  | .read _ _ | .sync => False

/-- The operation lays bare no row that was cut off. -/
def FileCtx.Spares (cs : Nat) (c : FileCtx Sha) (op : FileOp) : Prop :=
  c.st.materialized = true → ∀ i, c.marks.Stale cs c.st.size i → ¬ op.Bares cs i

namespace Marks

variable {k : Marks Sha}

omit [DecidableEq Sha] [Sha256 Sha] in
theorem subset_grown (size n : Nat) (base : List (BaseChunk Sha)) (dirtyIdx : Finset Nat) :
    dirtyIdx ⊆ grown cs size n base dirtyIdx := by
  unfold grown
  split
  · exact Finset.subset_insert _ _
  · exact Finset.Subset.refl _

omit [Sha256 Sha] [DecidableEq Sha] in
/-- What lies past the end stays there, or it is stale. -/
theorem Uncut.grow {size size' : Nat} (h : k.Uncut cs size) {dirtyIdx : Finset Nat} {dirty : Bool}
    (hsub : k.dirtyIdx ⊆ dirtyIdx)
    (hbare : ∀ i, k.Stale cs size i → i ∉ dirtyIdx → size' ≤ i * cs) :
    Uncut cs size' { k with dirty := dirty, dirtyIdx := dirtyIdx } := by
  intro i hi
  rcases h i hi with hb | hd | hs
  · exact .inl hb
  · exact .inr (.inl (hsub hd))
  · by_cases hb : i < k.base.length
    · exact .inl hb
    by_cases hd : i ∈ dirtyIdx
    · exact .inr (.inl hd)
    · exact .inr (.inr (hbare i ⟨hi, Nat.le_of_not_lt hb, fun h => hd (hsub h), hs⟩ hd))

omit [DecidableEq Sha] in
theorem Uncut.after (hcs : 0 < cs) (h : k.Uncut cs ref.length) {op : FileOp} (hop : op.Nonempty)
    (hbare : ∀ i, k.Stale cs ref.length i → ¬ op.Bares cs i) :
    (k.after cs ref op).Uncut cs (op.apply ref).length := by
  cases op with
  | read offset size => exact h
  | sync =>
    simp only [Marks.after]
    split
    · intro i hi
      left
      simpa using hi
    · exact h
  | write offset data =>
    have hpos := List.length_pos_of_ne_nil hop
    have hlen : (pwrite ref offset data).length = max ref.length (offset + data.length) :=
      length_pwrite hop ref offset
    simp only [Marks.after, FileOp.apply]
    rw [hlen]
    apply h.grow
    · exact (subset_grown _ _ _ _).trans Finset.subset_union_left
    · intro i hi hd
      have hlt : offset < i * cs + cs := Nat.lt_of_not_le (hbare i hi)
      have hbeyond := hi.beyond
      simp only [Finset.mem_union, not_or] at hd
      have hout := (mem_touched hcs (Nat.lt_add_of_pos_right hpos)).not.mp hd.2
      omega
  | truncate length =>
    simp only [Marks.after, FileOp.apply]
    rw [length_resize]
    split
    case isFalse hge =>
      apply h.grow (subset_grown _ _ _ _)
      intro i hi hd
      exact Nat.le_of_not_lt (hbare i hi)
    case isTrue hlt =>
      intro i hi
      by_cases hin : i * cs < length
      · have hcount := (lt_chunkCount hcs).mpr hin
        rcases h i hi with hb | hd | hs
        · left
          rw [List.length_take]
          omega
        · right; left
          rw [Finset.mem_filter]
          refine ⟨?_, hcount⟩
          split
          · exact Finset.mem_insert_of_mem hd
          · exact hd
        · omega
      · exact .inr (.inr (Nat.le_of_not_lt hin))

omit [DecidableEq Sha] in
theorem Uncut.noStaleRow (h : c.marks.Uncut cs c.st.size) : NoStaleRow cs c := by
  intro _ i row hb hin hrow
  obtain ⟨hold, -, -, d, ⟨⟩, hd⟩ := Store.cleanRow_eq_some hrow
  rcases h i (List.getElem?_eq_some_iff.mp hold).1 with hlt | hm | hs
  · exact absurd hb (Nat.not_le_of_lt hlt)
  · exact absurd hm hd
  · omega

end Marks

/-! ## A state that serves a file -/

/-- A state in write mode. -/
structure Working (cs : Nat) (c : FileCtx Sha) (ref : Bytes) : Prop where
  view : View cs c ref
  mat : c.st.materialized = true
  synced : Synced cs c ref
  uncut : c.marks.Uncut cs ref.length

/-- The state shows the bytes `ref`, and a flush stores them. -/
def Serves (cs : Nat) (c : FileCtx Sha) (ref : Bytes) : Prop :=
  Untouched cs c ref ∨ Working cs c ref

theorem Serves.opened (h : Serves cs c ref) : c.st.closed = false := by
  rcases h with h | h
  · exact h.opened
  · exact h.view.opened

/-- What `getattr` tells about the file. -/
theorem Serves.size (h : Serves cs c ref) :
    (∀ size, liveSize (some c.st) = some size → size = ref.length) ∧
      (liveSize (some c.st) = none →
        (c.store.index.inodes c.st.ino).map (·.size) = some ref.length) := by
  unfold liveSize
  rcases h with h | h
  · obtain ⟨n, hn, hsize⟩ := h.stored.inode
    simp [h.mat, hn, hsize]
  · simp [h.mat, h.view.size]

/-- The bytes that a read of the stored file gives. -/
theorem Untouched.read (hcs : 0 < cs) (hinj : Function.Injective (sha256 : Bytes → Sha))
    (hts : ∀ n, (ts n).Quiet False) (h : Untouched cs c ref) (offset size : Nat) :
    Wp ts (Wb.read cfg size offset) (fun r c' => r = .ok (pread ref offset size) ∧ c' = c) c := by
  unfold Wb.read
  rw [getState, Run.wp_gets_bind, h.mat]
  simp only [Bool.false_eq_true, if_false]
  have hvalue : Wp ts (call noSrc (Store.readRange c.st.ino offset size))
      (fun r _ => r = .ok (pread ref offset size)) c := by
    refine wp_call fun n => ?_
    have hrows : c.store.index.getChunks c.st.ino = fileRows Sha cs ref := h.stored.rows
    have hcovers := fileRows_covers Sha hcs ref
    apply Store.seqRun_readRange_content h.books.readable
    · intro k
      by_contra hf
      exact (hts k).download (by simpa using hf)
    · exact hrows ▸ hcovers.1
    · exact hrows ▸ hcovers.2
    · intro row hrow
      obtain ⟨data, hd, hsha⟩ := h.books.blobData_row hrow
      rw [fileRows_sha (hrows ▸ hrow)] at hsha
      exact hinj hsha ▸ hd
  refine (hvalue.and (h.readRange hts offset size)).mono ?_
  rintro r c' ⟨rfl, -, rfl⟩
  exact ⟨rfl, rfl⟩

omit [DecidableEq Sha] [Sha256 Sha] in
/-- What holds behind `do m; pure b` holds behind `m`. -/
theorem wp_of_bind_pure {α β : Type} {m : FileRun Sha α} {b : β} {Q : Bool → FileCtx Sha → Prop}
    (h : Wp ts (m >>= fun _ => pure b) (fun r c' => Q r.isOk c') c) :
    Wp ts m (fun r c' => Q r.isOk c') c := by
  intro n
  have hn := h n
  rw [Run.bind_run] at hn
  rcases hm : m ts n c with ⟨r, n', c'⟩
  rw [hm] at hn
  cases r with
  | error e => exact hn
  | ok a => exact hn

section Steps

variable (hcfg : cfg.chunkSize = cs) (hinj : Function.Injective (sha256 : Bytes → Sha))
  (hts : ∀ n, (ts n).Quiet False)
include hcfg

/-- The first write. -/
theorem Untouched.working (h : Untouched cs c ref) :
    Wp ts (Wb.materialize cfg) (fun r c' => r = .ok () ∧ Working cs c' ref ∧
      ∀ op, c'.Spares cs op) c := by
  refine (View.materialize hcfg h.books h.stored h.mat h.opened h.temp).mono ?_
  rintro r c' ⟨rfl, hview, hclean, hbase, hmat⟩
  have hstored : c'.store.StoredAs cs c'.st.ino ref := by
    rw [hmat.store, hmat.ino]
    exact h.stored
  have hrows : c'.marks.rows.length = c'.marks.base.length := by
    change (c'.store.index.getChunks c'.st.ino).length = c'.st.base.length
    rw [hbase, length_gridBase, hstored.rows, List.length_map, List.length_range]
  have hinode : ∃ n, c'.store.index.inodes c'.st.ino = some n := by
    obtain ⟨n, hn, -⟩ := hstored.inode
    exact ⟨n, hn⟩
  refine ⟨rfl, ⟨hview, hmat.mat, ⟨hclean, hinode, fun _ => hstored⟩, ?_⟩, ?_⟩
  · intro i hi
    exact .inl (hrows ▸ hi)
  · intro op _ i hi
    have hrow := hi.row
    have hcut := hi.cut
    omega

include hinj hts

theorem Working.perform (h : Working cs c ref) {op : FileOp} (hop : op.Nonempty)
    (hspares : c.Spares cs op) :
    Wp ts (perform cfg op) (fun r c' => r = .ok (op.answer ref) ∧ Working cs c' (op.apply ref) ∧
      (op = .sync → c'.store.StoredAs cs c.st.ino (op.apply ref))) c := by
  have hcs : 0 < cs := hcfg ▸ cfg.chunkSize_pos
  have huncut : c.marks.Uncut cs c.st.size := h.view.size ▸ h.uncut
  refine ((h.view.perform hcfg hinj hts h.mat hop).and
    (h.view.perform_marks hcfg hinj hts h.mat hop)).mono ?_
  rintro r c' ⟨⟨rfl, hview, hmat, hino, hsynced⟩, hmarks⟩
  obtain ⟨hsynced', hclean⟩ := hsynced h.synced fun _ => huncut.noStaleRow
  refine ⟨rfl, ⟨hview, hmat, hsynced', ?_⟩, fun hsync => ?_⟩
  · rw [hmarks]
    exact h.uncut.after hcs hop (h.view.size ▸ hspares h.mat)
  · rw [← hino]
    exact hsynced'.stored (hclean hsync)

/-- Every operation is that of the byte array. -/
theorem Serves.perform (h : Serves cs c ref) {op : FileOp} (hop : op.Nonempty)
    (hspares : c.Spares cs op) :
    Wp ts (perform cfg op) (fun r c' => r = .ok (op.answer ref) ∧ Serves cs c' (op.apply ref) ∧
      (op = .sync → c'.store.StoredAs cs c.st.ino (op.apply ref))) c := by
  have hcs : 0 < cs := hcfg ▸ cfg.chunkSize_pos
  rcases h with hu | hw
  case inr =>
    exact (hw.perform hcfg hinj hts hop hspares).mono fun _ _ hr => ⟨hr.1, .inr hr.2.1, hr.2.2⟩
  have hmat : op ≠ .sync → Wp ts (Wb.materialize cfg) (fun r c' => r = .ok () ∧
      c'.st.materialized = true ∧
      Wp ts (Wb.perform cfg op) (fun r c'' => r = .ok (op.answer ref) ∧
        Serves cs c'' (op.apply ref) ∧
          (op = .sync → c''.store.StoredAs cs c.st.ino (op.apply ref))) c') c := by
    intro hsync
    refine (hu.working hcfg).mono ?_
    rintro r c' ⟨rfl, hw, hspares'⟩
    refine ⟨rfl, hw.mat, (hw.perform hcfg hinj hts hop (hspares' op)).mono ?_⟩
    exact fun _ _ hr => ⟨hr.1, .inr hr.2.1, fun he => absurd he hsync⟩
  cases op with
  | write offset data =>
    have hmat := hmat (by simp)
    have hassoc : (Wb.perform cfg (.write offset data) : FileRun Sha Bytes) =
        (materialize cfg >>= fun _ => _) := Run.bind_assoc _ _ _
    rw [hassoc] at hmat ⊢
    exact wp_materialize_bind hmat
  | truncate length =>
    have hmat := hmat (by simp)
    have hassoc : (Wb.perform cfg (.truncate length) : FileRun Sha Bytes) =
        (materialize cfg >>= fun _ => _) := Run.bind_assoc _ _ _
    rw [hassoc] at hmat ⊢
    exact wp_materialize_bind hmat
  | read offset size =>
    refine (hu.read hcs hinj hts offset size).mono ?_
    rintro r c' ⟨rfl, rfl⟩
    exact ⟨rfl, .inl hu, by simp⟩
  | sync =>
    change Wp ts (flushLocked cfg >>= _) _ c
    unfold Wb.flushLocked
    rw [getState, Run.wp_bind_assoc, Run.wp_gets_bind, hu.dirty]
    exact fun n => ⟨rfl, .inl hu, fun _ => hu.stored⟩

end Steps

/-! ## A state whose inode is gone -/

/-- The state of an unlinked file. It can be read, and written to if it was opened for that. -/
structure Adrift (cs : Nat) (c : FileCtx Sha) : Prop where
  books : c.store.Accounted
  opened : c.st.closed = false
  gone : c.store.index.inodes c.st.ino = none
  view : c.st.materialized = true → ∃ ref, View cs c ref
  clean : c.st.materialized = false → c.st.dirty = false

theorem Adrift.ofView (h : View cs c ref) (hm : c.st.materialized = true)
    (hg : c.store.index.inodes c.st.ino = none) : Adrift cs c :=
  ⟨h.books, h.opened, hg, fun _ => ⟨ref, h⟩, fun hf => by rw [hm] at hf; cases hf⟩

/-- It cannot be materialized any more. -/
theorem Adrift.materialize (h : Adrift cs c) :
    Wp ts (Wb.materialize cfg) (fun r c' => c' = c ∧ r.isOk = c.st.materialized) c := by
  cases hm : c.st.materialized with
  | true => exact materialize_noop hm ⟨rfl, rfl⟩
  | false =>
    unfold Wb.materialize
    rw [getState, Run.wp_gets_bind, hm]
    simp only [Bool.false_eq_true, if_false]
    rw [getRows, Run.wp_gets_bind, Wb.getInode, Run.wp_gets_bind, Meta.getInode, h.gone]
    exact Run.wp_raise.mpr ⟨rfl, rfl⟩

section Adrift

variable (hcfg : cfg.chunkSize = cs) (hinj : Function.Injective (sha256 : Bytes → Sha))
  (hts : ∀ n, (ts n).Quiet False)
include hcfg hinj hts

theorem Adrift.perform (h : Adrift cs c) {op : FileOp} (hop : op.Nonempty) :
    Wp ts (Wb.perform cfg op) (fun r c' => Adrift cs c' ∧ c'.st.ino = c.st.ino ∧
      (op = .sync → r.isOk = true)) c := by
  have hcs : 0 < cs := hcfg ▸ cfg.chunkSize_pos
  cases hm : c.st.materialized with
  | true =>
    obtain ⟨ref, hview⟩ := h.view hm
    by_cases hsync : op = .sync
    · subst hsync
      refine Wp.bind_ok ((View.flush hcs hts hcfg hview).mono ?_)
      rintro r c' ⟨rfl, hview', ⟨-, rfl⟩ | ⟨-, hf⟩⟩
      · exact ⟨(), rfl, Run.wp_pure.mpr ⟨h, rfl, fun _ => rfl⟩⟩
      · obtain ⟨now, hnow⟩ := hf.inode
        rw [h.gone, Option.map_none] at hnow
        exact ⟨(), rfl, Run.wp_pure.mpr
          ⟨.ofView hview' (hf.mat.trans hm) (hf.ino ▸ hnow), hf.ino, fun _ => rfl⟩⟩
    · refine (hview.edit hcfg hinj hts hm hop hsync).mono ?_
      rintro r c' ⟨rfl, hview', hsame, -⟩
      refine ⟨.ofView hview' (hsame.mat.trans hm) ?_, hsame.ino, fun he => absurd he hsync⟩
      rw [hsame.store, hsame.ino]
      exact h.gone
  | false =>
    have hraises : ∀ {α : Type} (k : Unit → FileRun Sha α), Wp ts (Wb.materialize cfg >>= k)
        (fun _ c' => Adrift cs c' ∧ c'.st.ino = c.st.ino) c := by
      intro α k
      refine Wp.bind (h.materialize.mono ?_)
      rintro (e | a) c' ⟨rfl, hr⟩
      · exact ⟨h, rfl⟩
      · rw [hm] at hr
        cases hr
    cases op with
    | write offset data =>
      have hassoc : (Wb.perform cfg (.write offset data) : FileRun Sha Bytes) =
          (Wb.materialize cfg >>= fun _ => _) := Run.bind_assoc _ _ _
      rw [hassoc]
      exact (hraises _).mono fun _ _ h' => ⟨h'.1, h'.2, by simp⟩
    | truncate length =>
      have hassoc : (Wb.perform cfg (.truncate length) : FileRun Sha Bytes) =
          (Wb.materialize cfg >>= fun _ => _) := Run.bind_assoc _ _ _
      rw [hassoc]
      exact (hraises _).mono fun _ _ h' => ⟨h'.1, h'.2, by simp⟩
    | read offset size =>
      change Wp ts (Wb.read cfg size offset) _ c
      unfold Wb.read
      rw [getState, Run.wp_gets_bind, hm]
      simp only [Bool.false_eq_true, if_false]
      refine wp_call fun n => ?_
      obtain ⟨r, n', hrun, -⟩ : ∃ r n', Store.machine.seqRun noSrc ts
          (Store.readRange c.st.ino offset size) n c.store = (r, n', c.store) ∧ _ :=
        Store.seqRun_readRange h.books h.books rfl (fun _ _ => rfl) offset size n
      rw [hrun]
      exact ⟨h, rfl, by simp⟩
    | sync =>
      change Wp ts (flushLocked cfg >>= _) _ c
      unfold Wb.flushLocked
      rw [getState, Run.wp_bind_assoc, Run.wp_gets_bind, h.clean hm]
      exact fun n => ⟨h, rfl, fun _ => rfl⟩

end Adrift

/-! ## Either -/

/-- What a registered state is to its file. -/
def Tracks (cs : Nat) (c : FileCtx Sha) (ref : Bytes) : Prop := Serves cs c ref ∨ Adrift cs c

theorem Tracks.opened (h : Tracks cs c ref) : c.st.closed = false := by
  rcases h with h | h
  · exact h.opened
  · exact h.opened

theorem Serves.inode (h : Serves cs c ref) : ∃ n, c.store.index.inodes c.st.ino = some n := by
  rcases h with h | h
  · obtain ⟨n, hn, -⟩ := h.stored.inode
    exact ⟨n, hn⟩
  · exact h.synced.inode

/-- While the file has an inode its state serves it. -/
theorem Tracks.serves (h : Tracks cs c ref) {n : Inode}
    (hn : c.store.index.inodes c.st.ino = some n) : Serves cs c ref := by
  rcases h with h | h
  · exact h
  · rw [h.gone] at hn
    cases hn

section Tracks

variable (hcfg : cfg.chunkSize = cs) (hinj : Function.Injective (sha256 : Bytes → Sha))
  (hts : ∀ n, (ts n).Quiet False)
include hcfg hinj hts

theorem Tracks.perform (h : Tracks cs c ref) {op : FileOp} (hop : op.Nonempty)
    (hspares : c.Spares cs op) :
    Wp ts (Wb.perform cfg op) (fun r c' => Tracks cs c' (op.apply ref) ∧
      (Serves cs c ref → r = .ok (op.answer ref) ∧ Serves cs c' (op.apply ref)) ∧
      (op = .sync → r.isOk = true) ∧
      (op = .sync → ∀ n, c'.store.index.inodes c.st.ino = some n →
        c'.store.StoredAs cs c.st.ino ref)) c := by
  rcases h with hs | ha
  · refine (hs.perform hcfg hinj hts hop hspares).mono ?_
    rintro r c' ⟨rfl, hs', hstored⟩
    refine ⟨.inl hs', fun _ => ⟨rfl, hs'⟩, fun _ => rfl, fun hsync n _ => ?_⟩
    have hst := hstored hsync
    subst hsync
    exact hst
  · refine (ha.perform hcfg hinj hts hop).mono ?_
    rintro r c' ⟨ha', hino, hok⟩
    refine ⟨.inr ha', fun hs => ?_, hok, fun _ n hn => ?_⟩
    · obtain ⟨n, hn⟩ := hs.inode
      rw [ha.gone] at hn
      cases hn
    · rw [← hino, ha'.gone] at hn
      cases hn

theorem Tracks.read (h : Tracks cs c ref) (offset size : Nat) :
    Wp ts (Wb.read cfg size offset) (fun r c' => Tracks cs c' ref ∧
      (Serves cs c ref → r = .ok (pread ref offset size))) c := by
  have hop : (FileOp.read offset size).Nonempty := trivial
  have hspares : c.Spares cs (.read offset size) := fun _ _ _ hb => hb
  exact (h.perform hcfg hinj hts hop hspares).mono fun _ _ hr =>
    ⟨hr.1, fun hs => (hr.2.1 hs).1⟩

theorem Tracks.write (h : Tracks cs c ref) {data : Bytes} (hd : data ≠ []) {offset : Nat}
    (hspares : c.Spares cs (.write offset data)) :
    Wp ts (Wb.write cfg data offset) (fun r c' => Tracks cs c' (pwrite ref offset data) ∧
      (Serves cs c ref → r.isOk = true ∧ Serves cs c' (pwrite ref offset data))) c := by
  have hop : (FileOp.write offset data).Nonempty := hd
  apply wp_of_bind_pure (Q := fun ok c' => Tracks cs c' (pwrite ref offset data) ∧
    (Serves cs c ref → ok = true ∧ Serves cs c' (pwrite ref offset data)))
  exact (h.perform hcfg hinj hts hop hspares).mono fun r _ hr =>
    ⟨hr.1, fun hs => ⟨congrArg Except.isOk (hr.2.1 hs).1, (hr.2.1 hs).2⟩⟩

theorem Tracks.truncate (h : Tracks cs c ref) {length : Nat}
    (hspares : c.Spares cs (.truncate length)) :
    Wp ts (Wb.truncate cfg length) (fun r c' => Tracks cs c' (resize ref length) ∧
      (Serves cs c ref → r.isOk = true ∧ Serves cs c' (resize ref length))) c := by
  have hop : (FileOp.truncate length).Nonempty := trivial
  apply wp_of_bind_pure (Q := fun ok c' => Tracks cs c' (resize ref length) ∧
    (Serves cs c ref → ok = true ∧ Serves cs c' (resize ref length)))
  exact (h.perform hcfg hinj hts hop hspares).mono fun r _ hr =>
    ⟨hr.1, fun hs => ⟨congrArg Except.isOk (hr.2.1 hs).1, (hr.2.1 hs).2⟩⟩

theorem Tracks.flushLocked (h : Tracks cs c ref) :
    Wp ts (Wb.flushLocked cfg) (fun r c' => Tracks cs c' ref ∧ r.isOk = true ∧
      ∀ n, c'.store.index.inodes c.st.ino = some n → c'.store.StoredAs cs c.st.ino ref) c := by
  have hop : FileOp.sync.Nonempty := trivial
  have hspares : c.Spares cs .sync := fun _ _ _ hb => hb
  apply wp_of_bind_pure (Q := fun ok c' => Tracks cs c' ref ∧ ok = true ∧
    ∀ n, c'.store.index.inodes c.st.ino = some n → c'.store.StoredAs cs c.st.ino ref)
  exact (h.perform hcfg hinj hts hop hspares).mono fun r _ hr =>
    ⟨hr.1, hr.2.2.1 rfl, hr.2.2.2 rfl⟩

theorem Tracks.flush (h : Tracks cs c ref) :
    Wp ts (Wb.flush cfg) (fun r c' => Tracks cs c' ref ∧ r.isOk = true) c := by
  unfold Wb.flush
  split
  · exact Run.wp_pure.mpr ⟨h, rfl⟩
  · exact (h.flushLocked hcfg hinj hts).mono fun _ _ hr => ⟨hr.1, hr.2.1⟩

omit hinj hts in
theorem Tracks.materialize (h : Tracks cs c ref) :
    Wp ts (Wb.materialize cfg) (fun r c' => Tracks cs c' ref ∧
      (Serves cs c ref → r.isOk = true ∧ Serves cs c' ref) ∧
        ∀ op, c.Spares cs op → c'.Spares cs op) c := by
  rcases h with hs | ha
  · rcases hs with hu | hw
    · refine (hu.working hcfg).mono ?_
      rintro r c' ⟨rfl, hw, hspares⟩
      exact ⟨.inl (.inr hw), fun _ => ⟨rfl, .inr hw⟩, fun op _ => hspares op⟩
    · exact materialize_noop hw.mat ⟨.inl (.inr hw), fun _ => ⟨rfl, .inr hw⟩, fun _ => id⟩
  · refine ha.materialize.mono ?_
    rintro r c' ⟨rfl, -⟩
    refine ⟨.inr ha, fun hs => ?_, fun _ => id⟩
    obtain ⟨n, hn⟩ := hs.inode
    rw [ha.gone] at hn
    cases hn

end Tracks

/-! ## What the others do -/

/-- What calls for other files leave of a file: its rows, and its size if the inode is there. -/
structure Store.Spared (ino : Ino) (s s' : Store Sha) : Prop where
  rows : s'.index.getChunks ino = s.index.getChunks ino
  inode : ∀ n', s'.index.inodes ino = some n' →
    ∃ n, s.index.inodes ino = some n ∧ n'.size = n.size

omit [DecidableEq Sha] [Sha256 Sha] in
theorem Store.Spared.refl (ino : Ino) (s : Store Sha) : s.Spared ino s :=
  ⟨rfl, fun n hn => ⟨n, hn, rfl⟩⟩

omit [DecidableEq Sha] [Sha256 Sha] in
theorem Store.Spared.trans {ino : Ino} {s s' s'' : Store Sha} (h : s.Spared ino s')
    (h' : s'.Spared ino s'') : s.Spared ino s'' := by
  refine ⟨h'.rows.trans h.rows, fun n'' hn'' => ?_⟩
  obtain ⟨n', hn', hsize'⟩ := h'.inode n'' hn''
  obtain ⟨n, hn, hsize⟩ := h.inode n' hn'
  exact ⟨n, hn, hsize'.trans hsize⟩

omit [DecidableEq Sha] in
theorem Store.StoredAs.congr {s s' : Store Sha} {ino : Ino} (h : s.StoredAs cs ino ref)
    (hs : s.Spared ino s') {n' : Inode} (hn' : s'.index.inodes ino = some n') :
    s'.StoredAs cs ino ref := by
  obtain ⟨n, hn, hlen⟩ := h.inode
  obtain ⟨n₁, hn₁, hsize⟩ := hs.inode n' hn'
  obtain rfl : n = n₁ := Option.some.inj (hn.symm.trans hn₁)
  exact ⟨hs.rows.trans h.rows, n', hn', hsize.trans hlen⟩

/-- Nor does a view depend on the count of handles. -/
theorem View.congr (h : View cs c ref) {k : Int} {t : Time}
    (hst : c'.st = { c.st with refcount := k, idleSince := t }) (htemp : c'.temp = c.temp)
    (hbooks : c'.store.Accounted)
    (hrows : c'.store.index.getChunks c.st.ino = c.store.index.getChunks c.st.ino) :
    View cs c' ref := by
  obtain ⟨st', temp', store'⟩ := c'
  dsimp only at hst htemp hbooks hrows
  subst hst htemp
  refine ⟨hbooks, h.opened, h.size, h.temp_le, h.m_le, h.base_off, fun i b hb => ?_, h.unloaded,
    h.shown, h.long⟩
  dsimp only
  rw [hrows]
  exact h.base_row i b hb

theorem Working.congr (h : Working cs c ref) {k : Int} {t : Time}
    (hst : c'.st = { c.st with refcount := k, idleSince := t }) (htemp : c'.temp = c.temp)
    (hbooks : c'.store.Accounted) (hs : c.store.Spared c.st.ino c'.store) {n' : Inode}
    (hn' : c'.store.index.inodes c.st.ino = some n') : Working cs c' ref := by
  have hview := h.view.congr hst htemp hbooks hs.rows
  have hmarks : c'.marks = c.marks := by
    unfold FileCtx.marks
    rw [hst, hs.rows]
  obtain ⟨st', temp', store'⟩ := c'
  dsimp only at hst htemp hbooks hs hn'
  subst hst htemp
  have hy := h.synced
  exact ⟨hview, h.mat, ⟨hy.clean, ⟨n', hn'⟩, fun hd => (hy.stored hd).congr hs hn'⟩,
    hmarks ▸ h.uncut⟩

/-- A state tracks its file whatever is done to others, and it is adrift once the inode goes. -/
theorem Tracks.congr (h : Tracks cs c ref) {k : Int} {t : Time}
    (hst : c'.st = { c.st with refcount := k, idleSince := t }) (htemp : c'.temp = c.temp)
    (hbooks : c'.store.Accounted) (hs : c.store.Spared c.st.ino c'.store) : Tracks cs c' ref := by
  have hino : c'.st.ino = c.st.ino := by rw [hst]
  have hmat : c'.st.materialized = c.st.materialized := by rw [hst]
  have hdirty : c'.st.dirty = c.st.dirty := by rw [hst]
  have hclosed : c'.st.closed = false := by
    rw [hst]
    exact h.opened
  cases hn' : c'.store.index.inodes c.st.ino with
  | some n' =>
    obtain ⟨n, hn, -⟩ := hs.inode n' hn'
    left
    rcases h.serves hn with hu | hw
    · left
      refine ⟨hbooks, hino ▸ hu.stored.congr hs hn', hclosed, hmat.trans hu.mat,
        htemp.trans hu.temp, hdirty.trans hu.dirty, ?_⟩
      rw [hst]
      exact hu.base
    · exact .inr (hw.congr hst htemp hbooks hs hn')
  | none =>
    right
    rw [← hino] at hn'
    rcases h with (hu | hw) | ha
    · refine ⟨hbooks, hclosed, hn', fun hm => ?_, fun _ => hdirty.trans hu.dirty⟩
      rw [hmat, hu.mat] at hm
      cases hm
    · exact .ofView (hw.view.congr hst htemp hbooks hs.rows) (hmat.trans hw.mat) hn'
    · refine ⟨hbooks, hclosed, hn', fun hm => ?_, fun hm => hdirty.trans (ha.clean (hmat ▸ hm))⟩
      obtain ⟨ref', hv⟩ := ha.view (hmat ▸ hm)
      exact ⟨ref', hv.congr hst htemp hbooks hs.rows⟩

end Tgfs
