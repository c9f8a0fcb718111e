import Tgfs.Cache.Proofs.Contents

/-!
# Opening a file that was stored with another chunk size

`_materialize` tells from offsets and lengths whether the rows fit its grid. A list of one row
always passes the test, also when the row is longer than a chunk of the grid. Then the
positions behind the first chunk are taken for fresh ones, and their bytes are never loaded.
-/

namespace Tgfs

open Run (Wp)
open Wb

variable {Sha : Type} [DecidableEq Sha] [Sha256 Sha] {cs cs' : Nat} {c c' : FileCtx Sha}
  {ref : Bytes} {ts : Nat → Tick} {cfg : WbConfig}

/-! ## The rows do not fit -/

/-- A file in a grid that the test rejects is loaded completely. -/
theorem View.materializeAll (hcs : 0 < cs) (hinj : Function.Injective (sha256 : Bytes → Sha))
    (hts : ∀ n, (ts n).Quiet False) (hs : c.store.Accounted)
    (hst : c.store.StoredAs cs c.st.ino ref) (hne : cfg.chunkSize ≠ cs) (hlen : cs < ref.length)
    (hm : c.st.materialized = false) (ho : c.st.closed = false) (ht : c.temp = []) :
    Wp ts (Wb.materialize cfg) (fun r c' => r = .ok () ∧ View cfg.chunkSize c' ref ∧
      c'.st.base = [] ∧ c'.st.dirtyIdx = Finset.range (chunkCount cs ref.length) ∧
        Materialized c c') c := by
  obtain ⟨n, hn, hsize⟩ := hst.inode
  have hal : ¬ aligned cfg.chunkSize (gridBase cs ref : List (BaseChunk Sha)) = true := by
    rw [aligned_gridBase hcs]
    omega
  unfold Wb.materialize
  rw [getState, Run.wp_gets_bind, hm]
  simp only [Bool.false_eq_true, if_false]
  rw [getRows, Run.wp_gets_bind, getInode, Run.wp_gets_bind, Meta.getInode, hn, Option.map_some, hst.base]
  simp only
  rw [setState, Run.wp_modify_bind, if_neg hal, hsize]
  have hgrid := View.ofGrid (c := { c with st := { c.st with
    size := ref.length, base := gridBase cs ref, loaded := ∅, dirtyIdx := ∅ } })
    hcs hs hst ho ht rfl rfl rfl rfl
  refine Wp.bind_ok ((ViewAt.load hcs hinj hts hgrid.1 0 _ ∅).mono ?_)
  rintro r c₁ ⟨rfl, h₁, hL, hstore⟩
  refine ⟨(), rfl, ?_⟩
  rw [setState, Run.wp_modify_bind]
  refine wp_setState.mpr ⟨rfl, ?_, rfl, by rw [length_gridBase], rfl, hstore, ?_, ?_⟩
  · have htemp : ∀ p, p < ref.length → c₁.temp[p]? = ref[p]? := by
      intro p hp
      refine View.temp_eq h₁ hp (.inr ?_)
      have := div_lt_chunkCount hcs hp
      rw [hL]
      simp [this]
    refine ⟨h₁.books, h₁.opened, h₁.size, h₁.temp_le, le_rfl, ?_, ?_, ?_, fun p hp _ _ => ?_,
      fun p hp _ _ => ?_⟩
    · simp
    · simp
    · simp
    · rw [htemp p hp]
    · by_contra hge
      have := htemp p hp
      rw [List.getElem?_eq_none (Nat.le_of_not_lt hge), List.getElem?_eq_getElem hp] at this
      cases this
  · change c₁.st.ino = c.st.ino
    rw [hL]
  · change c₁.st.dirty = c.st.dirty
    rw [hL]

/-! ## The rows fit -/

omit [DecidableEq Sha] in
/-- A file of one chunk at most is stored the same way for both sizes. -/
theorem Store.StoredAs.regrid {s : Store Sha} {ino : Ino} (h : s.StoredAs cs ino ref)
    (hcs : 0 < cs) (hcs' : 0 < cs') (hle : ref.length ≤ cs) (hle' : ref.length ≤ cs') :
    s.StoredAs cs' ino ref := by
  refine ⟨?_, h.inode⟩
  have hzero : ∀ {k}, 0 < k → ref.length ≤ k → ∀ i, i < chunkCount k ref.length → i = 0 := by
    intro k hk hle i hi
    have := (lt_chunkCount hk).mp hi
    by_contra hne
    have : k ≤ i * k := Nat.le_mul_of_pos_left k (Nat.pos_of_ne_zero hne)
    omega
  have hcount : chunkCount cs ref.length = chunkCount cs' ref.length := by
    refine Nat.le_antisymm (le_of_forall_lt fun i hi => ?_) (le_of_forall_lt fun i hi => ?_)
    · obtain rfl := hzero hcs hle i hi
      exact (lt_chunkCount hcs').mpr (by simpa using (lt_chunkCount hcs).mp hi)
    · obtain rfl := hzero hcs' hle' i hi
      exact (lt_chunkCount hcs).mpr (by simpa using (lt_chunkCount hcs').mp hi)
  have hchunk : ∀ {k}, ref.length ≤ k → chunkAt k ref 0 = ref := by
    intro k hk
    simp [chunkAt, pread, List.take_of_length_le hk]
  rw [h.rows, hcount]
  refine List.map_congr_left fun i hi => ?_
  obtain rfl := hzero hcs' hle' i (List.mem_range.mp hi)
  simp only [hchunk hle, hchunk hle', Nat.zero_mul]

/-! ## One write after the opening -/

/-- A state all of whose stored rows it refers to or has marked. -/
structure Opened (cs : Nat) (c : FileCtx Sha) (ref : Bytes) : Prop where
  view : View cs c ref
  mat : c.st.materialized = true
  clean : Clean cs c.st ref
  inode : ∃ n, c.store.index.inodes c.st.ino = some n
  covered : ∀ i, i < (c.store.index.getChunks c.st.ino).length →
    i < c.st.base.length ∨ i ∈ c.st.dirtyIdx

section Opened

variable (hcfg : cfg.chunkSize = cs) (hinj : Function.Injective (sha256 : Bytes → Sha))
  (hts : ∀ n, (ts n).Quiet False)
include hcfg hinj hts

theorem Opened.read (h : Opened cs c ref) (offset size : Nat) :
    Wp ts (perform cfg (.read offset size)) (fun r c' => r = .ok (pread ref offset size) ∧
      Opened cs c' ref ∧ c'.st.ino = c.st.ino) c := by
  refine (View.read (hcfg ▸ cfg.chunkSize_pos) hinj hts hcfg h.view h.mat size offset).mono ?_
  rintro r c' ⟨rfl, h', L, hst, hstore⟩
  refine ⟨rfl, ⟨h', by rw [hst]; exact h.mat, by rw [hst]; exact h.clean, ?_, ?_⟩, by rw [hst]⟩
  · rw [hstore, hst]
    exact h.inode
  · rw [hstore, hst]
    exact h.covered

/-- A write and a sync. -/
theorem Opened.writeSync (h : Opened cs c ref) {data : Bytes} (hd : data ≠ []) (offset : Nat) :
    Wp ts (performAll cfg [.write offset data, .sync]) (fun r c' => r.isOk = true ∧
      Store.Holds c'.store c.st.ino (pwrite ref offset data)) c := by
  have hcs : 0 < cs := hcfg ▸ cfg.chunkSize_pos
  unfold performAll
  refine Wp.bind_ok (Wp.bind_ok
    ((View.write hcs hinj hts hcfg h.view h.mat hd offset).mono ?_))
  rintro r c₁ ⟨rfl, he, hbase, hdirty⟩
  refine ⟨_, rfl, Run.wp_pure.mpr ⟨_, rfl, ?_⟩⟩
  rw [getState, Run.wp_gets_bind]
  have hsync : Synced cs c₁ (pwrite ref offset data) := by
    refine ⟨he.clean h.clean, ?_, fun hf => by rw [he.dirty] at hf; cases hf⟩
    rw [he.same.store, he.same.ino]
    exact h.inode
  have hno : NoStaleRow cs c₁ := by
    refine noStaleRow_of_covered fun i hi => ?_
    rw [he.same.store, he.same.ino] at hi
    rw [hbase]
    exact (h.covered i hi).imp_right fun hm => hdirty hm
  refine Wp.bind_ok (Wp.bind_ok ((he.view.perform hcfg hinj hts (he.same.mat.trans h.mat)
    (show FileOp.sync.Nonempty from trivial)).mono ?_))
  rintro r c₂ ⟨rfl, h₂, -, hino, hs₂⟩
  obtain ⟨hs₂, hd₂⟩ := hs₂ hsync fun _ => hno
  have hstored := hs₂.stored (hd₂ rfl)
  rw [hino, he.same.ino] at hstored
  refine ⟨_, rfl, Run.wp_gets_bind.mpr (Wp.bind_ok (Run.wp_pure.mpr ⟨_, rfl, ?_⟩))⟩
  exact Run.wp_pure.mpr ⟨_, rfl, Run.wp_pure.mpr ⟨rfl, hstored.holds hcs hinj h₂.books⟩⟩

/-- Any reads before that. -/
theorem Opened.session (h : Opened cs c ref) {reads : List FileOp}
    (hreads : ∀ op ∈ reads, op.isRead = true) {data : Bytes} (hd : data ≠ []) (offset : Nat) :
    Wp ts (performAll cfg (reads ++ [.write offset data, .sync])) (fun r c' => r.isOk = true ∧
      Store.Holds c'.store c.st.ino (pwrite ref offset data)) c := by
  induction reads generalizing c with
  | nil => exact h.writeSync hcfg hinj hts hd offset
  | cons op reads ih =>
    cases op with
    | write | truncate | sync => simp [FileOp.isRead] at hreads
    | read off size =>
      refine Wp.bind_ok ((h.read hcfg hinj hts off size).mono ?_)
      rintro r c₁ ⟨rfl, h₁, hino⟩
      refine ⟨_, rfl, Run.wp_gets_bind.mpr (Wp.bind ((ih h₁ fun o ho =>
        hreads o (List.mem_cons_of_mem _ ho)).mono ?_))⟩
      rintro r c' ⟨hr, hholds⟩
      rw [hino] at hholds
      cases r with
      | error e => cases hr
      | ok l => exact Run.wp_pure.mpr ⟨rfl, hholds⟩

end Opened

/-! ## When the content survives -/

variable {s : Store Sha} {ino : Ino}

/-- Whatever is read after the opening is right, and a write with a sync stores what it
should. -/
def Survives (cfg : WbConfig) (ts : Nat → Tick) (n : Nat) (c : FileCtx Sha) (ref : Bytes) : Prop :=
  (∀ reads : List FileOp, (∀ op ∈ reads, op.isRead = true) →
    (session cfg reads ts n c).1 = .ok (some ref.length, FileOp.answers reads ref)) ∧
  ∀ (reads : List FileOp) (offset : Nat) (data : Bytes), (∀ op ∈ reads, op.isRead = true) →
    data ≠ [] → Store.Holds (session cfg (reads ++ [.write offset data, .sync]) ts n c).2.2.store
      c.st.ino (pwrite ref offset data)

theorem Opened.survives (hinj : Function.Injective (sha256 : Bytes → Sha))
    (hts : ∀ n, (ts n).Quiet False) {n n₁ : Nat} {c₁ : FileCtx Sha}
    (hrun : materialize cfg ts n c = (.ok (), n₁, c₁)) (h : Opened cfg.chunkSize c₁ ref)
    (hino : c₁.st.ino = c.st.ino) : Survives cfg ts n c ref := by
  have hlive : liveSize (some c₁.st) = some ref.length := by
    rw [liveSize, if_pos h.mat, h.view.size]
  have hnon : ∀ op : FileOp, op.isRead = true → op.Nonempty := by
    intro op hop
    cases op with
    | write => cases hop
    | truncate | read | sync => trivial
  refine ⟨fun reads hreads => ?_, fun reads offset data hreads hd => ?_⟩
  · rw [(session_run hrun reads).1, (h.view.performAll rfl hinj hts h.mat
      (fun op hop => hnon op (hreads op hop)) n₁).1, hlive]
    rfl
  · rw [(session_run hrun _).2, ← hino]
    exact (h.session rfl hinj hts hreads hd offset n₁).2

/-- Nothing is loaded for a range behind `base`. -/
theorem wp_prepare_behind {start fin : Nat}
    {Q : Except (PyErr Sha) Unit → FileCtx Sha → Prop}
    (hbase : c.st.base.length ≤ start / cfg.chunkSize) (h : Q (.ok ()) c) :
    Wp ts (prepare cfg start fin false) Q c := by
  unfold prepare
  rw [getState, Run.wp_gets_bind]
  dsimp only
  split
  case isTrue => exact Run.wp_pure.mpr h
  case isFalse =>
    rw [setState, Run.wp_modify_bind]
    simp only [Bool.false_eq_true, if_false, Finset.union_empty]
    have hnil : ∀ hi, min hi c.st.base.length - start / cfg.chunkSize = 0 := fun hi => by omega
    unfold load
    rw [getState, Run.wp_gets_bind]
    simp only [hnil, List.range'_zero, List.filter_nil]
    exact Run.wp_pure.mpr h

/-- A row that is longer than a chunk of the new grid: nothing behind the first chunk is ever
loaded. -/
theorem not_survives (hcs : 0 < cs) (hst : s.StoredAs cs ino ref)
    (hlt : cfg.chunkSize < ref.length) (hle : ref.length ≤ cs) (gen n : Nat) :
    ¬ Survives cfg ts n (freshCtx ino gen s) ref := by
  obtain ⟨m, hm, hsize⟩ := hst.inode
  have hcs' := cfg.chunkSize_pos
  have hcount : (gridBase cs ref : List (BaseChunk Sha)).length ≤ 1 := by
    rw [length_gridBase]
    have := lt_chunkCount (i := 1) (n := ref.length) hcs
    omega
  -- a read of the byte behind the first chunk finds the temp file empty
  have hread : Wp ts (session cfg [.read cfg.chunkSize 1]) (fun r _ =>
      r = .ok (some ref.length, [([], some ref.length)])) (freshCtx ino gen s) := by
    unfold session
    refine Wp.bind_ok (wp_materialize_aligned rfl hm hst.base
      ((aligned_gridBase hcs).mpr (.inr hle)) ⟨_, rfl, ?_⟩)
    rw [getState, Run.wp_gets_bind]
    unfold performAll perform Wb.read
    simp only [Run.wp_bind_assoc]
    rw [getState, Run.wp_gets_bind]
    simp only [if_true, hsize]
    rw [if_neg (by omega)]
    refine Wp.bind_ok (Wp.bind_ok (wp_prepare_behind ?_ ⟨(), rfl, wp_tempRead rfl ⟨_, rfl, ?_⟩⟩))
    · rw [Nat.div_self hcs']
      exact hcount
    · refine Run.wp_gets_bind.mpr (Run.wp_pure.mpr ?_)
      simp [freshCtx, liveSize, pread]
  intro h
  have := (h.1 [.read cfg.chunkSize 1] (by simp [FileOp.isRead])).symm.trans (hread n)
  simp only [FileOp.answers, FileOp.answer, FileOp.apply, Except.ok.injEq, Prod.mk.injEq,
    List.cons.injEq, true_and, and_true] at this
  have hlen := congrArg List.length this
  rw [length_pread, List.length_nil] at hlen
  omega

/-- The content survives a change of the chunk size from `cs` to that of `cfg`, unless the file
was one chunk and is more than one now. -/
theorem regrid_survives_iff (cfg : WbConfig) (hcs : 0 < cs)
    (hinj : Function.Injective (sha256 : Bytes → Sha)) (hts : ∀ n, (ts n).Quiet False)
    (hs : s.Accounted) (hst : s.StoredAs cs ino ref) (gen n : Nat) :
    Survives cfg ts n (freshCtx ino gen s) ref ↔
      ¬ (cfg.chunkSize < ref.length ∧ ref.length ≤ cs) := by
  constructor
  · exact fun h hlen => not_survives hcs hst hlen.1 hlen.2 gen n h
  · intro hlen
    obtain ⟨m, hm, -⟩ := hst.inode
    by_cases hfit : cfg.chunkSize = cs ∨ ref.length ≤ cs
    · have hst' : s.StoredAs cfg.chunkSize ino ref := by
        obtain heq | hle := hfit
        · exact heq ▸ hst
        · exact hst.regrid hcs cfg.chunkSize_pos hle (by omega)
      obtain ⟨hr, hview, hclean, hbase, hmat⟩ := (View.materialize rfl hs hst' rfl rfl rfl :
        Wp ts (materialize cfg) _ (freshCtx ino gen s)) n
      rcases hrun : materialize cfg ts n (freshCtx ino gen s) with ⟨r, n₁, c₁⟩
      rw [hrun] at hr hview hclean hbase hmat
      obtain rfl := hr
      refine Opened.survives hinj hts hrun ⟨hview, hmat.mat, hclean, ⟨m, ?_⟩, fun i hi => ?_⟩
        hmat.ino
      · rw [hmat.store, hmat.ino]
        exact hm
      · rw [hmat.store, hmat.ino] at hi
        rw [hbase, ← hst'.base, List.length_map]
        exact .inl hi
    · push Not at hfit
      obtain ⟨hr, hview, hbase, hdirty, hmat⟩ := (View.materializeAll hcs hinj hts hs hst hfit.1
        hfit.2 rfl rfl rfl : Wp ts (materialize cfg) _ (freshCtx ino gen s)) n
      rcases hrun : materialize cfg ts n (freshCtx ino gen s) with ⟨r, n₁, c₁⟩
      rw [hrun] at hr hview hbase hdirty hmat
      obtain rfl := hr
      refine Opened.survives hinj hts hrun
        ⟨hview, hmat.mat, fun i b hb => ?_, ⟨m, ?_⟩, fun i hi => ?_⟩ hmat.ino
      · rw [hbase] at hb
        simp at hb
      · rw [hmat.store, hmat.ino]
        exact hm
      · rw [hmat.store, hmat.ino, freshCtx, hst.rows] at hi
        rw [hdirty]
        exact .inr (by simpa using hi)

theorem regrid_survives_three :
    Survives ⟨⟨2, 1, by decide, by decide⟩, 0⟩ (fun _ => {}) 0
      (freshCtx 2 0 (Store.oneFile ⟨3, 1, by decide, by decide⟩ [1, 2, 3, 4] : Store Bytes))
      [1, 2, 3, 4] := by
  have hf := Store.oneFile_stored Bytes ⟨3, 1, by decide, by decide⟩ [1, 2, 3, 4]
  exact (regrid_survives_iff ⟨⟨2, 1, by decide, by decide⟩, 0⟩ (by decide) (fun _ _ h => h)
    (fun _ => Tick.quiet_default) hf.1 hf.2 0 0).mpr (by decide)

/-- A file of three bytes in one chunk, opened with chunks of two bytes: what the write does
not touch is stored as zeros. -/
theorem regrid_loses :
    (Store.oneFile ⟨3, 1, by decide, by decide⟩ [1, 2, 3] : Store Bytes).Accounted ∧
      (Store.oneFile ⟨3, 1, by decide, by decide⟩ [1, 2, 3] : Store Bytes).StoredAs 3 2 [1, 2, 3] ∧
      (session ⟨⟨2, 1, by decide, by decide⟩, 0⟩ [.read 2 1] (fun _ => {}) 0
        (freshCtx 2 0 (Store.oneFile ⟨3, 1, by decide, by decide⟩ [1, 2, 3] : Store Bytes))).1 =
        .ok (some 3, [([], some 3)]) ∧
      (session ⟨⟨2, 1, by decide, by decide⟩, 0⟩ [.write 2 [9], .sync] (fun _ => {}) 0
        (freshCtx 2 0 (Store.oneFile ⟨3, 1, by decide, by decide⟩ [1, 2, 3] : Store Bytes))).2.2.store.content
        2 = some [0, 0, 9] := by
  have hf := Store.oneFile_stored Bytes ⟨3, 1, by decide, by decide⟩ [1, 2, 3]
  exact ⟨hf.1, hf.2, by decide +kernel, by decide +kernel⟩

end Tgfs
