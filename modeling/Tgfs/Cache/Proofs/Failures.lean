import Tgfs.Cache.Proofs.Marks

/-!
# Calls that fail

A `write`, `truncate` or `read` that raises because a download fails has loaded some chunks and
has changed nothing else, unless it is a write that covers a chunk which is still to be loaded:
that chunk is already marked as loaded. A call that returns has met no failing download, so that
it ends as it does when nothing fails.
-/

namespace Tgfs

open Run (Wp)
open Wb

variable {Sha : Type} [DecidableEq Sha] [Sha256 Sha]

/-! ## Calls that return -/

/-- The code raises, or runs as if nothing could fail. -/
def Firm {α : Type} (m : FileRun Sha α) : Prop :=
  ∀ (ts : Nat → Tick) (n : Nat) (c : FileCtx Sha), c.Sound →
    (∃ e, (m ts n c).1 = .error e) ∨ m ts n c = m (fun _ => {}) n c

section Rules

variable {α β : Type}

theorem Firm.pure (a : α) : Firm (pure a : FileRun Sha α) := fun _ _ _ _ => .inr rfl
theorem Firm.raise (e : PyErr Sha) : Firm (Run.raise e : FileRun Sha α) := fun _ _ _ _ => .inr rfl
theorem Firm.gets (f : FileCtx Sha → α) : Firm (Run.gets f) := fun _ _ _ _ => .inr rfl

theorem Firm.modify (f : FileCtx Sha → FileCtx Sha) : Firm (Run.modify f : FileRun Sha Unit) :=
  fun _ _ _ _ => .inr rfl

theorem Firm.bind {m : FileRun Sha α} {f : α → FileRun Sha β} (hm : Firm m) (hr : Robust m)
    (hf : ∀ a, Firm (f a)) : Firm (m >>= f) := by
  intro ts n c hc
  rcases hm ts n c hc with ⟨e, he⟩ | he
  · left
    refine ⟨e, ?_⟩
    rw [Run.bind_run]
    rcases hrun : m ts n c with ⟨r, n', c'⟩
    rw [hrun] at he
    obtain rfl : r = .error e := he
    rfl
  · have hsound := (hr (fun _ => {}) (fun _ => Tick.quiet_default) c hc n).1
    rw [Run.bind_run, Run.bind_run, he]
    rcases hrun : m (fun _ => {}) n c with ⟨r, n', c'⟩
    rw [hrun] at hsound
    cases r with
    | error e => exact .inr rfl
    | ok a => exact hf a ts n' c' hsound

theorem Firm.ite {p : Prop} [Decidable p] {m m' : FileRun Sha α} (hm : Firm m) (hm' : Firm m') :
    Firm (if p then m else m') := by
  split
  · exact hm
  · exact hm'

end Rules

theorem firm_checkOpen : Firm (checkOpen : FileRun Sha Unit) :=
  .bind (.gets _) (.gets _) fun _ => by
    unfold Run.require
    exact .ite (.pure ()) (.raise _)

theorem firm_tempWrite (off : Nat) (data : Bytes) : Firm (tempWrite off data : FileRun Sha Unit) :=
  .bind firm_checkOpen robust_checkOpen fun _ => .modify _

theorem firm_tempRead (off n : Nat) : Firm (tempRead off n : FileRun Sha Bytes) :=
  .bind firm_checkOpen robust_checkOpen fun _ => .gets _

theorem firm_tempTruncate (n : Nat) : Firm (tempTruncate n : FileRun Sha Unit) :=
  .bind firm_checkOpen robust_checkOpen fun _ => .modify _

/-- A download is the only thing that can fail. -/
theorem fetch_run {c : FileCtx Sha} (hc : c.Sound) {b : BaseChunk Sha} (hb : b ∈ c.st.base) :
    ∃ data, c.store.blobData b.sha = some data ∧ ∀ (ts : Nat → Tick) (n : Nat),
      call noSrc (Store.fetch b.sha) ts n c =
        (if (ts (n + 1)).downloadFails then .error .downloadFailed else .ok data, n + 2, c) := by
  obtain ⟨row, hrow, hsha⟩ := hc.backed b hb
  obtain ⟨data, hdata, -⟩ := hc.books.blobData_row hrow
  rw [hsha] at hdata
  refine ⟨data, hdata, fun ts n => ?_⟩
  unfold call Run.zoom
  simp only [Store.seqRun_fetch hc.books.readable hdata]

theorem firm_loadEach (is : List Nat) : Firm (loadEach is : FileRun Sha Unit) := by
  induction is with
  | nil => exact .pure ()
  | cons i is ih =>
    intro ts n c hc
    have hrest : ∀ (b : BaseChunk Sha) (data : Bytes), Firm (do
        tempWrite b.off data
        setState fun st => { st with loaded := insert i st.loaded }
        loadEach is : FileRun Sha Unit) := by
      intro b data
      refine .bind (firm_tempWrite _ _) (robust_tempWrite _ _) fun _ => ?_
      exact .bind (.modify _) (.setState fun _ => ⟨rfl, List.Subset.refl _⟩) fun _ => ih
    unfold loadEach
    rw [getState, Run.gets_bind_run, Run.gets_bind_run]
    cases hb : c.st.base[i]? with
    | none => exact .inr rfl
    | some b =>
      obtain ⟨data, -, hfetch⟩ := fetch_run hc (List.mem_of_getElem? hb)
      simp only [Run.bind_run, hfetch]
      cases (ts (n + 1)).downloadFails with
      | true => exact .inl ⟨.downloadFailed, rfl⟩
      | false => exact hrest b data ts (n + 2) c hc

theorem firm_load (lo hi : Nat) (skip : Finset Nat) : Firm (load lo hi skip : FileRun Sha Unit) :=
  .bind (.gets _) (.gets _) fun _ => firm_loadEach _

theorem materialize_run (cfg : WbConfig) {ts : Nat → Tick} {n : Nat} {c : FileCtx Sha}
    (hm : c.st.materialized = true) : materialize cfg ts n c = (.ok (), n, c) := by
  unfold materialize
  rw [getState, Run.bind_run, Run.gets]
  simp only [hm, if_true]
  rfl

theorem firm_prepare (cfg : WbConfig) (start fin : Nat) (overwrite : Bool) :
    Firm (prepare cfg start fin overwrite : FileRun Sha Unit) := by
  refine .bind (.gets _) (.gets _) fun st => .ite (.pure ()) ?_
  exact .bind (.modify _) (.setState fun _ => ⟨rfl, List.Subset.refl _⟩) fun _ => firm_load _ _ _

theorem firm_touch (b : Nat) : Firm (touch b : FileRun Sha Unit) :=
  .bind (firm_load _ _ _) (robust_load _ _ _) fun _ => .modify _

theorem firm_grow (cfg : WbConfig) (newSize : Nat) : Firm (grow cfg newSize : FileRun Sha Unit) := by
  refine .bind (.gets _) (.gets _) fun st => .ite (.pure ()) ?_
  exact .ite (.bind (firm_touch _) (robust_touch _) fun _ => .modify _) (.modify _)

theorem firm_shrink (cfg : WbConfig) (length : Nat) : Firm (shrink cfg length : FileRun Sha Unit) := by
  refine .bind (.gets _) (.gets _) fun st => ?_
  exact .ite (.bind (firm_touch _) (robust_touch _) fun _ => .modify _) (.modify _)

/-- On a state in write mode, everything but a flush. -/
theorem perform_firm (cfg : WbConfig) {op : FileOp} (hop : op ≠ .sync) {ts : Nat → Tick} {n : Nat}
    {c : FileCtx Sha} (hc : c.Sound) (hm : c.st.materialized = true) {a : Bytes}
    (h : (perform cfg op ts n c).1 = .ok a) :
    perform cfg op ts n c = perform cfg op (fun _ => {}) n c := by
  have hfirm : ∀ m : FileRun Sha Bytes, Firm m → (∀ ts, perform cfg op ts n c = m ts n c) →
      perform cfg op ts n c = perform cfg op (fun _ => {}) n c := by
    intro m hfirm heq
    rcases hfirm ts n c hc with ⟨e, he⟩ | he
    · rw [heq, he] at h
      cases h
    · rw [heq, heq, he]
  have hset : ∀ f : FileState Sha → FileState Sha, Firm (setState f) := fun f => .modify _
  cases op with
  | sync => exact absurd rfl hop
  | read offset size =>
    apply hfirm (if min (offset + size) c.st.size ≤ offset then pure [] else do
      prepare cfg offset (min (offset + size) c.st.size) false
      tempRead offset (min (offset + size) c.st.size - offset))
    · exact .ite (.pure _) (.bind (firm_prepare _ _ _ _) (robust_prepare _ _ _ _)
        fun _ => firm_tempRead _ _)
    · intro ts
      change Wb.read cfg size offset ts n c = _
      unfold Wb.read
      rw [getState, Run.bind_run, Run.gets]
      simp only [hm, if_true]
  | write offset data =>
    apply hfirm (do
      prepare cfg offset (offset + data.length) true
      grow cfg (offset + data.length)
      tempWrite offset data
      setState fun st => { st with
        dirtyIdx := st.dirtyIdx ∪ if data = [] then ∅ else
          Finset.Ico (offset / cfg.chunkSize) ((offset + data.length - 1) / cfg.chunkSize + 1)
        dirty := true }
      pure [])
    · apply Firm.bind (firm_prepare _ _ _ _) (robust_prepare _ _ _ _)
      intro _
      apply Firm.bind (firm_grow _ _) (robust_grow _ _)
      intro _
      apply Firm.bind (firm_tempWrite _ _) (robust_tempWrite _ _)
      intro _
      exact .bind (hset _) (.setState fun _ => ⟨rfl, List.Subset.refl _⟩) fun _ => .pure _
    · intro ts
      change (Wb.write cfg data offset >>= fun _ => pure []) ts n c = _
      unfold Wb.write
      rw [Run.bind_assoc, Run.bind_run_ok (materialize_run cfg hm)]
      simp only [Run.bind_assoc]
      rfl
  | truncate length =>
    apply hfirm (do
      if length < c.st.size then shrink cfg length else grow cfg length
      tempTruncate length
      setState fun st => { st with dirty := true }
      pure [])
    · have hrest : ∀ _ : Unit, Firm (do
          tempTruncate length
          setState fun st => { st with dirty := true }
          pure [] : FileRun Sha Bytes) := by
        intro _
        apply Firm.bind (firm_tempTruncate _) (robust_tempTruncate _)
        intro _
        exact .bind (hset _) (.setState fun _ => ⟨rfl, List.Subset.refl _⟩) fun _ => .pure _
      exact .ite (.bind (firm_shrink _ _) (robust_shrink _ _) hrest)
        (.bind (firm_grow _ _) (robust_grow _ _) hrest)
    · intro ts
      change (Wb.truncate cfg length >>= fun _ => pure []) ts n c = _
      unfold Wb.truncate
      rw [Run.bind_assoc, Run.bind_run_ok (materialize_run cfg hm)]
      rw [getState, Run.bind_assoc, Run.bind_run, Run.gets]
      by_cases hlt : length < c.st.size
      · simp only [if_pos hlt, Run.bind_assoc]
      · simp only [if_neg hlt, Run.bind_assoc]

/-! ## Calls that raise -/

section Raising

variable {cs a z m : Nat} {c c' : FileCtx Sha} {ref : Bytes} {ts : Nat → Tick} {cfg : WbConfig}

theorem ViewAt.sound (h : ViewAt cs a z m c ref) : c.Sound := by
  refine ⟨h.books, fun b hb => ?_⟩
  obtain ⟨i, hi, rfl⟩ := List.getElem_of_mem hb
  obtain ⟨row, hrow, hof⟩ := h.base_row i _ (List.getElem?_eq_getElem hi)
  exact ⟨row, List.mem_of_getElem? hrow, congrArg BaseChunk.sha hof⟩

/-- Chunks were loaded, and nothing else was done. -/
structure Harmless (cs : Nat) (ref : Bytes) (c c' : FileCtx Sha) : Prop where
  view : View cs c' ref
  loaded : ∃ L, SetLoaded c c' L

theorem Harmless.refl (h : View cs c ref) : Harmless cs ref c c := ⟨h, c.st.loaded, rfl, rfl⟩

theorem Harmless.trans {c₁ : FileCtx Sha} (h : Harmless cs ref c c₁)
    (h' : Harmless cs ref c₁ c') : Harmless cs ref c c' := by
  obtain ⟨L, hst, hstore⟩ := h.loaded
  obtain ⟨L', hst', hstore'⟩ := h'.loaded
  exact ⟨h'.view, L', by rw [hst', hst], hstore'.trans hstore⟩

section Loading

variable (hcs : 0 < cs) (hinj : Function.Injective (sha256 : Bytes → Sha))
include hcs hinj

/-- Loading may stop behind any chunk. -/
theorem View.loadEach_harmless {is : List Nat} (h : View cs c ref) (hn : is.Nodup)
    (his : ∀ i ∈ is, i < c.st.base.length ∧ i ∉ c.st.loaded) :
    Wp ts (loadEach is) (fun _ c' => Harmless cs ref c c') c := by
  induction is generalizing c with
  | nil => exact Run.wp_pure.mpr (.refl h)
  | cons i is ih =>
    obtain ⟨hlt, hi⟩ := his i List.mem_cons_self
    obtain ⟨hni, hn'⟩ := List.nodup_cons.mp hn
    have hb := List.getElem?_eq_getElem hlt
    have hdata := h.blobData hinj hb hi
    unfold Wb.loadEach
    rw [getState, Run.wp_gets_bind]
    simp only [hb]
    refine Wp.bind (wp_call fun n => ?_)
    rw [Store.seqRun_fetch h.books.readable hdata]
    cases (ts (n + 1)).downloadFails with
    | true => exact .refl h
    | false =>
      refine Wp.bind_ok (wp_tempWrite h.opened ⟨_, rfl, ?_⟩)
      rw [setState, Run.wp_modify_bind]
      have h₁ : View cs _ ref := ViewAt.loadOne hcs h hb
      refine (ih h₁ hn' fun j hj => ?_).mono fun r c' h' => ?_
      · obtain ⟨hj₁, hj₂⟩ := his j (List.mem_cons_of_mem _ hj)
        refine ⟨hj₁, fun hm => ?_⟩
        rcases Finset.mem_insert.mp hm with rfl | hm
        · exact hni hj
        · exact hj₂ hm
      · exact Harmless.trans ⟨h₁, _, rfl, rfl⟩ h'

theorem View.load_harmless (h : View cs c ref) (lo hi : Nat) (skip : Finset Nat) :
    Wp ts (load lo hi skip) (fun _ c' => Harmless cs ref c c') c := by
  unfold Wb.load
  rw [getState, Run.wp_gets_bind]
  apply h.loadEach_harmless hcs hinj (List.Nodup.filter _ List.nodup_range')
  intro i hi
  obtain ⟨hi, hp⟩ := List.mem_filter.mp hi
  rw [List.mem_range'_1] at hi
  have hp : i ∉ c.st.loaded ∧ i ∉ skip := by simpa using hp
  exact ⟨by omega, hp.1⟩

/-- `_prepare`, unless it passes over a chunk that is still to be loaded. -/
theorem View.prepare_harmless (h : View cs c ref) {start fin : Nat} {overwrite : Bool}
    (hskip : overwrite = true → ∀ i b, c.st.base[i]? = some b → start ≤ b.off →
      b.off + b.len ≤ fin → i ∈ c.st.loaded) :
    Wp ts (prepare cfg start fin overwrite) (fun _ c' => Harmless cs ref c c') c := by
  unfold Wb.prepare
  rw [getState, Run.wp_gets_bind]
  dsimp only
  split
  · exact Run.wp_pure.mpr (.refl h)
  · rw [setState, Run.wp_modify_bind]
    generalize hs : (if overwrite = true then _ else _ : Finset Nat) = skip
    have hsub : skip ⊆ c.st.loaded := by
      intro i hi
      cases overwrite with
      | false => simp [← hs] at hi
      | true =>
        obtain ⟨b, hb, hstart, hfin⟩ := mem_covered (hs ▸ hi)
        exact hskip rfl i b hb hstart (by omega)
    rw [Finset.union_eq_left.mpr hsub]
    exact h.load_harmless hcs hinj _ _ _

theorem View.touch_harmless (h : View cs c ref) (b : Nat) :
    Wp ts (touch b) (fun r c' => ∀ e, r = .error e → Harmless cs ref c c') c := by
  refine Wp.bind ((h.load_harmless hcs hinj b (b + 1) ∅).mono ?_)
  intro r c₁ h₁
  cases r with
  | error e => exact fun _ _ => h₁
  | ok u => exact wp_setState.mpr nofun

theorem View.grow_harmless (h : View cs c ref) (n : Nat) :
    Wp ts (grow cfg n) (fun r c' => ∀ e, r = .error e → Harmless cs ref c c') c := by
  unfold Wb.grow
  rw [getState, Run.wp_gets_bind]
  dsimp only
  split
  · exact Run.wp_pure.mpr (by simp)
  · split
    · refine Wp.bind ((h.touch_harmless hcs hinj _).mono ?_)
      intro r c₁ h₁
      cases r with
      | error e => exact fun e' he => h₁ e rfl
      | ok u => exact wp_setState.mpr (by simp)
    · exact wp_setState.mpr (by simp)

theorem View.shrink_harmless (h : View cs c ref) (length : Nat) :
    Wp ts (Wb.shrink cfg length) (fun r c' => ∀ e, r = .error e → Harmless cs ref c c') c := by
  unfold Wb.shrink
  rw [getState, Run.wp_gets_bind]
  dsimp only
  split
  · refine Wp.bind ((h.touch_harmless hcs hinj _).mono ?_)
    intro r c₁ h₁
    cases r with
    | error e => exact fun e' he => h₁ e rfl
    | ok u => exact wp_setState.mpr (by simp)
  · exact wp_setState.mpr (by simp)

/-- Every chunk that a write covers is in the temp file when it begins. -/
def FileOp.Spares (op : FileOp) (st : FileState Sha) : Prop :=
  ∀ offset data, op = .write offset data → ∀ i b, st.base[i]? = some b → offset ≤ b.off →
    b.off + b.len ≤ offset + data.length → i ∈ st.loaded

omit [DecidableEq Sha] [Sha256 Sha] hcs hinj in
theorem FileOp.spares_write {offset : Nat} {data : Bytes} {st : FileState Sha} :
    (FileOp.write offset data).Spares st ↔ ∀ i < st.base.length, ∀ b ∈ st.base[i]?,
      offset ≤ b.off → b.off + b.len ≤ offset + data.length → i ∈ st.loaded := by
  constructor
  · intro h i _ b hb
    exact h offset data rfl i b hb
  · intro h _ _ hop i b hb
    cases hop
    exact h i (List.getElem?_eq_some_iff.mp hb).1 b hb

instance FileOp.Spares.decide : (op : FileOp) → (st : FileState Sha) → Decidable (op.Spares st)
  | .write _ _, _ => decidable_of_iff _ FileOp.spares_write.symm
  | .truncate _, _ | .read _ _, _ | .sync, _ => isTrue nofun

omit hcs hinj in
theorem keeps_frozen {m : FileRun Sha Unit}
    (h : ∀ {J : FileCtx Sha → Prop}, Passive J → Run.Preserves J m) :
    Run.Keeps (fun c : FileCtx Sha => c.st.frozen) m :=
  Run.keeps_of_preserves fun v => h (frozen_aside.passive v)

omit hcs hinj in
/-- The end of a write or a truncate does not raise. -/
theorem Harmless.behind {m : FileRun Sha Unit} {f : Unit → FileRun Sha Bytes} {c₁ : FileCtx Sha}
    (h : Harmless cs ref c c₁) (hk : Run.Keeps (fun c : FileCtx Sha => c.st.frozen) m)
    (hm : Wp ts m (fun r c' => ∀ e, r = .error e → Harmless cs ref c₁ c') c₁)
    (hf : ∀ c' : FileCtx Sha, c'.st.closed = false →
      Wp ts (f ()) (fun r _ => ∀ e, r ≠ .error e) c') :
    Wp ts (m >>= f) (fun r c' => ∀ e, r = .error e → Harmless cs ref c c') c₁ := by
  refine Wp.bind ((hm.and hk.wp).mono ?_)
  intro r c₂ ⟨herr, hfr⟩
  cases r with
  | error e => exact fun _ _ => h.trans (herr e rfl)
  | ok u =>
    have hclosed : c₂.st.closed = c₁.st.closed := congrArg (fun p => p.2.2.1) hfr
    refine (hf c₂ ?_).mono fun r c' hr e he => absurd he (hr e)
    rw [hclosed]
    exact h.view.opened

/-- Whatever a call does that raises: it has loaded some chunks. -/
theorem View.perform_harmless (h : View cs c ref) (hm : c.st.materialized = true) {op : FileOp}
    (hop : op ≠ .sync) (hs : op.Spares c.st) :
    Wp ts (Wb.perform cfg op) (fun r c' => ∀ e, r = .error e → Harmless cs ref c c') c := by
  cases op with
  | sync => exact absurd rfl hop
  | read offset size =>
    change Wp ts (Wb.read cfg size offset) _ c
    unfold Wb.read
    rw [getState, Run.wp_gets_bind]
    simp only [hm, if_true]
    split
    · exact Run.wp_pure.mpr (by simp)
    · refine Wp.bind ((h.prepare_harmless hcs hinj fun hov => absurd hov (by decide)).mono ?_)
      intro r c₁ h₁
      cases r with
      | error e => exact fun _ _ => h₁
      | ok u => exact wp_tempRead h₁.view.opened (by simp)
  | write offset data =>
    change Wp ts (Wb.write cfg data offset >>= fun _ => pure []) _ c
    unfold Wb.write
    simp only [Run.bind_assoc]
    refine Wp.bind_ok (materialize_noop hm ⟨(), rfl, ?_⟩)
    refine Wp.bind ((h.prepare_harmless hcs hinj fun _ => hs offset data rfl).mono ?_)
    intro r c₁ h₁
    cases r with
    | error e => exact fun _ _ => h₁
    | ok u =>
      apply h₁.behind (keeps_frozen fun v => v.grow _ _) (h₁.view.grow_harmless hcs hinj _)
      intro c₂ ho
      exact Wp.bind_ok (wp_tempWrite ho ⟨(), rfl, fun _ _ he => by cases he⟩)
  | truncate length =>
    change Wp ts (Wb.truncate cfg length >>= fun _ => pure []) _ c
    unfold Wb.truncate
    simp only [Run.bind_assoc]
    refine Wp.bind_ok (materialize_noop hm ⟨(), rfl, ?_⟩)
    rw [getState, Run.wp_gets_bind]
    have hend : ∀ c' : FileCtx Sha, c'.st.closed = false → Wp ts (do
        tempTruncate length
        setState fun st => { st with dirty := true }
        pure [] : FileRun Sha Bytes) (fun r _ => ∀ e, r ≠ .error e) c' :=
      fun c' ho => Wp.bind_ok (wp_tempTruncate ho ⟨(), rfl, fun _ _ he => by cases he⟩)
    split
    · simp only [Run.bind_assoc]
      exact (Harmless.refl h).behind (keeps_frozen fun v => v.shrink _ _)
        (h.shrink_harmless hcs hinj _) hend
    · simp only [Run.bind_assoc]
      exact (Harmless.refl h).behind (keeps_frozen fun v => v.grow _ _)
        (h.grow_harmless hcs hinj _) hend

end Loading

/-- The temp file gets its length before a flush begins. -/
theorem View.resized (h : View cs c ref) {s : Store Sha} (hs : s.Accounted)
    (hrows : s.index.getChunks c.st.ino = c.store.index.getChunks c.st.ino) :
    View cs { c with temp := resize c.temp ref.length, store := s } ref := by
  refine { h with books := hs, temp_le := ?_, base_row := ?_, shown := ?_, long := ?_ }
  · rw [length_resize]
  · rw [hrows]
    exact h.base_row
  · intro p hp hout hv
    rw [getElem?_resize, if_pos hp]
    exact h.shown p hp hout hv
  · intro p hp _ _
    rwa [length_resize]

/-- A flush may fail at any time, and then has done nothing to the rows. -/
theorem View.flush_fails (hcs : 0 < cs) (hts : ∀ n, (ts n).Quiet True) (hcfg : cfg.chunkSize = cs)
    (h : View cs c ref) : Wp ts (flushLocked cfg) (fun r c' => View cs c' ref ∧
      c'.st.materialized = c.st.materialized ∧ c'.st.ino = c.st.ino ∧
        ∀ e, r = .error e → c'.marks = c.marks) c := by
  unfold Wb.flushLocked
  rw [getState, Run.wp_gets_bind]
  split
  case isFalse => exact Run.wp_pure.mpr ⟨h, rfl, rfl, by simp⟩
  case isTrue =>
    refine Wp.bind_ok (wp_tempTruncate h.opened ⟨(), rfl, ?_⟩)
    rw [Run.wp_gets_bind]
    refine Wp.bind (wp_call fun n => ?_)
    simp only [h.opened, h.size]
    have hput := Store.seqRun_putFile (tempSrc false (resize c.temp ref.length)) cfg.toStoreConfig
      c.st.ino (resize c.temp ref.length).length (some c.st.dirtyIdx) h.books hts n
    rcases hout : Store.machine.seqRun (tempSrc false (resize c.temp ref.length)) ts
      (Store.putFile cfg.toStoreConfig c.st.ino (resize c.temp ref.length).length
        (some c.st.dirtyIdx)) n c.store with ⟨r, n', s'⟩
    rw [hout] at hput
    obtain ⟨hs', hfr, hpost⟩ := hput
    rw [length_resize] at hout
    rw [hout]
    cases r with
    | error e =>
      obtain ⟨-, how⟩ := hpost
      have hrows : s'.index.getChunks c.st.ino = c.store.index.getChunks c.st.ino :=
        congrArg Owned.rows how
      refine ⟨h.resized hs' hrows, trivial, trivial, fun _ _ => ?_⟩
      unfold FileCtx.marks
      rw [hrows]
    | ok u =>
      obtain ⟨new, off, now, hscan, hend, how⟩ := hpost
      obtain ⟨rfl, rfl⟩ := scan_rows hscan hend
      have hrows : s'.index.getChunks c.st.ino = flushRows cs c ref := by
        rw [show s'.index.getChunks c.st.ino = _ from congrArg Owned.rows how, length_resize, hcfg]
        rfl
      rw [getRows, Run.wp_gets_bind, wp_setState]
      dsimp only
      rw [hrows]
      exact ⟨h.afterFlush hcs hs' hrows, rfl, rfl, by simp⟩

theorem Harmless.marks (h : Harmless cs ref c c') : c'.marks = c.marks := by
  obtain ⟨L, hst, hstore⟩ := h.loaded
  unfold FileCtx.marks
  rw [hst, hstore]

/-- One operation, whether it returns or raises. -/
theorem View.attempt (hcfg : cfg.chunkSize = cs) (hinj : Function.Injective (sha256 : Bytes → Sha))
    (hts : ∀ n, (ts n).Quiet True) (h : View cs c ref) (hm : c.st.materialized = true)
    {op : FileOp} (hop : op.Nonempty) (n : Nat)
    (hs : (∃ e, (Wb.perform cfg op ts n c).1 = .error e) → op.Spares c.st) :
    (∃ ref', View cs (Wb.perform cfg op ts n c).2.2 ref') ∧
      (Wb.perform cfg op ts n c).2.2.st.materialized = true ∧
        (Wb.perform cfg op ts n c).2.2.st.ino = c.st.ino ∧
          ∀ e, (Wb.perform cfg op ts n c).1 = .error e →
            View cs (Wb.perform cfg op ts n c).2.2 ref ∧
              (Wb.perform cfg op ts n c).2.2.marks = c.marks := by
  have hcs : 0 < cs := hcfg ▸ cfg.chunkSize_pos
  by_cases hsync : op = .sync
  · subst hsync
    have hrun : Wp ts (Wb.perform cfg .sync) (fun r c' => View cs c' ref ∧
        c'.st.materialized = c.st.materialized ∧ c'.st.ino = c.st.ino ∧
          ∀ e, r = .error e → c'.marks = c.marks) c := by
      refine Wp.bind ((h.flush_fails hcs hts hcfg).mono ?_)
      rintro (e | u) c' ⟨h', hm', hino', hk'⟩
      · exact ⟨h', hm', hino', fun _ _ => hk' e rfl⟩
      · exact Run.wp_pure.mpr ⟨h', hm', hino', nofun⟩
    obtain ⟨h', hm', hino', hk'⟩ := hrun n
    exact ⟨⟨ref, h'⟩, hm'.trans hm, hino', fun e he => ⟨h', hk' e he⟩⟩
  · cases hr : (Wb.perform cfg op ts n c).1 with
    | ok a =>
      rw [perform_firm cfg hsync h.sound hm hr]
      obtain ⟨-, h', hm', hino', -⟩ :=
        h.perform hcfg hinj (fun _ => Tick.quiet_default) hm hop n
      exact ⟨⟨_, h'⟩, hm', hino', nofun⟩
    | error e =>
      have hh := h.perform_harmless hcs hinj hm hsync (hs ⟨e, hr⟩) n e hr
      obtain ⟨L, hst, -⟩ := hh.loaded
      refine ⟨⟨ref, hh.view⟩, ?_, ?_, fun _ _ => ⟨hh.view, hh.marks⟩⟩
      · rw [hst]
        exact hm
      · rw [hst]

end Raising

/-! ## Whole runs -/

namespace Wb

/-- The operations one after the other, whether they return or raise. -/
def attempted (cfg : WbConfig) (ts : Nat → Tick) :
    List FileOp → Nat × FileCtx Sha → Nat × FileCtx Sha
  | [], at_ => at_
  | op :: ops, at_ => attempted cfg ts ops (perform cfg op ts at_.1 at_.2).2

/-- Whenever a write raises, the chunks it covers are in the temp file. -/
def Sparing (cfg : WbConfig) (ts : Nat → Tick) : List FileOp → Nat × FileCtx Sha → Prop
  | [], _ => True
  | op :: ops, at_ =>
    ((∃ e, (perform cfg op ts at_.1 at_.2).1 = .error e) → op.Spares at_.2.st) ∧
      Sparing cfg ts ops (perform cfg op ts at_.1 at_.2).2

end Wb

theorem sparing_append {cfg : WbConfig} {ts : Nat → Tick} {ops ops' : List FileOp}
    {p : Nat × FileCtx Sha} (h : Sparing cfg ts (ops ++ ops') p) :
    Sparing cfg ts ops p ∧ Sparing cfg ts ops' (attempted cfg ts ops p) := by
  induction ops generalizing p with
  | nil => exact ⟨trivial, h⟩
  | cons op ops ih =>
    obtain ⟨h₁, h₂⟩ := h
    exact ⟨⟨h₁, (ih h₂).1⟩, (ih h₂).2⟩

theorem View.attempted {cfg : WbConfig} (hinj : Function.Injective (sha256 : Bytes → Sha))
    {ts : Nat → Tick} (hts : ∀ n, (ts n).Quiet True) {ops : List FileOp}
    (hops : ∀ op ∈ ops, op.Nonempty) {p : Nat × FileCtx Sha} {ref : Bytes}
    (h : View cfg.chunkSize p.2 ref) (hm : p.2.st.materialized = true)
    (hs : Sparing cfg ts ops p) :
    (∃ ref', View cfg.chunkSize (Wb.attempted cfg ts ops p).2 ref') ∧
      (Wb.attempted cfg ts ops p).2.st.materialized = true ∧
        (Wb.attempted cfg ts ops p).2.st.ino = p.2.st.ino := by
  induction ops generalizing p ref with
  | nil => exact ⟨⟨ref, h⟩, hm, rfl⟩
  | cons op ops ih =>
    obtain ⟨⟨ref₁, h₁⟩, hm₁, hino₁, -⟩ :=
      h.attempt rfl hinj hts hm (hops op List.mem_cons_self) p.1 hs.1
    obtain ⟨h', hm', hino'⟩ := ih (fun o ho => hops o (List.mem_cons_of_mem _ ho)) h₁ hm₁ hs.2
    exact ⟨h', hm', hino'.trans hino₁⟩

/-- A call that raises changes neither what is read later nor what is stored later, in every run
in which raising writes find the chunks they cover in the temp file. -/
theorem attempted_harmless (cfg : WbConfig) (hinj : Function.Injective (sha256 : Bytes → Sha))
    {ts : Nat → Tick} (hts : ∀ n, (ts n).Quiet True) {s : Store Sha} {ino : Ino} {ref : Bytes}
    (hs : s.Accounted) (hst : s.StoredAs cfg.chunkSize ino ref) (gen n : Nat) {ops : List FileOp}
    {op : FileOp} (hops : ∀ o ∈ ops ++ [op], o.Nonempty)
    (hsparing : Sparing cfg ts (ops ++ [op]) (materialize cfg ts n (freshCtx ino gen s)).2) :
    let p := attempted cfg ts ops (materialize cfg ts n (freshCtx ino gen s)).2
    let out := perform cfg op ts p.1 p.2
    (∃ e, out.1 = .error e) →
      liveSize (some out.2.2.st) = liveSize (some p.2.st) ∧
      ∀ (later : List FileOp), (∀ o ∈ later, o.Nonempty) → ∀ (ts₁ ts₂ : Nat → Tick),
        (∀ k, (ts₁ k).Quiet False) → (∀ k, (ts₂ k).Quiet False) → ∀ n₁ n₂,
        (∃ answers, (performAll cfg later ts₁ n₁ out.2.2).1 = .ok answers ∧
          (performAll cfg later ts₂ n₂ p.2).1 = .ok answers) ∧
        (performAll cfg later ts₁ n₁ out.2.2).2.2.store.content ino =
          (performAll cfg later ts₂ n₂ p.2).2.2.store.content ino := by
  intro p out ⟨e, he⟩
  obtain ⟨n₁, c₁, hrun, hview, hm, hino, -⟩ := materialize_fresh ts cfg hs hst gen n
  rw [hrun] at hsparing
  have hp : p = attempted cfg ts ops (n₁, c₁) := by
    change attempted cfg ts ops (materialize cfg ts n (freshCtx ino gen s)).2 = _
    rw [hrun]
  obtain ⟨hsp, hsp'⟩ := sparing_append hsparing
  obtain ⟨⟨ref', h⟩, hm, hino⟩ : (∃ ref', View cfg.chunkSize p.2 ref') ∧
      p.2.st.materialized = true ∧ p.2.st.ino = ino := by
    obtain ⟨h, hm', hino'⟩ := View.attempted hinj hts
      (fun o ho => hops o (List.mem_append_left _ ho)) (p := (n₁, c₁)) hview hm hsp
    rw [hp]
    exact ⟨h, hm', hino'.trans hino⟩
  rw [← hp] at hsp'
  obtain ⟨-, hm', hino', hraise⟩ := h.attempt rfl hinj hts hm
    (hops op (List.mem_append_right _ (List.mem_singleton_self _))) p.1 hsp'.1
  obtain ⟨h', hk⟩ := hraise e he
  refine ⟨?_, fun later hlater ts₁ ts₂ hts₁ hts₂ n₁ n₂ => ?_⟩
  · change liveSize (some (Wb.perform cfg op ts p.1 p.2).2.2.st) = _
    rw [liveSize, if_pos hm', liveSize, if_pos hm, h'.size, h.size]
  obtain ⟨ha₁, hv₁, -⟩ := h'.performAll rfl hinj hts₁ hm' hlater n₁
  obtain ⟨ha₂, hv₂, -⟩ := h.performAll rfl hinj hts₂ hm hlater n₂
  obtain ⟨hi₁, hk₁⟩ := h'.performAll_marks rfl hinj hts₁ hm' hlater n₁
  obtain ⟨hi₂, hk₂⟩ := h.performAll_marks rfl hinj hts₂ hm hlater n₂
  refine ⟨⟨_, ha₁, ha₂⟩, Store.content_eq hinj hv₂.books hv₁.books ?_⟩
  have hrows : (Wb.performAll cfg later ts₁ n₁ out.2.2).2.2.marks.rows =
      (Wb.performAll cfg later ts₂ n₂ p.2).2.2.marks.rows := by
    rw [hk] at hk₁
    exact congrArg Marks.rows (hk₁.trans hk₂.symm)
  unfold FileCtx.marks at hrows
  dsimp only at hrows
  rwa [hi₁, hi₂, hino', hino] at hrows

/-- The downloads from tick `k` on fail. -/
def failingFrom (k : Nat) : Nat → Tick := fun n => { downloadFails := decide (k ≤ n) }

theorem quiet_failingFrom (k n : Nat) : (failingFrom k n).Quiet True :=
  ⟨⟨rfl, fun _ => trivial⟩, nofun, fun _ => ⟨rfl, nofun⟩⟩

/-- Two writes that raise when only the first chunk is loaded: one covers no chunk, the other one
covers that chunk. Neither is seen by the write and the sync that come later. -/
theorem attempted_harmless_writes :
    let cfg : WbConfig := ⟨⟨2, 1, Nat.two_pos, Nat.one_pos⟩, 0⟩
    let start : FileCtx Bytes := freshCtx 2 0 (Store.oneFile cfg.toStoreConfig [1, 2, 3, 4, 5, 6])
    let p := attempted cfg (failingFrom 2) [.read 0 1, .write 3 [8, 8]]
      (materialize cfg (failingFrom 2) 0 start).2
    let out := perform cfg (.write 0 [7, 8, 9]) (failingFrom 2) p.1 p.2
    out.1 = .error .downloadFailed ∧
      (performAll cfg [.write 1 [9], .sync] (fun _ => {}) 0 out.2.2).2.2.store.content 2 =
        (performAll cfg [.write 1 [9], .sync] (fun _ => {}) 0 p.2).2.2.store.content 2 := by
  intro cfg start p out
  have hf := Store.oneFile_stored Bytes cfg.toStoreConfig [1, 2, 3, 4, 5, 6]
  have hops : ∀ o ∈ [.read 0 1, .write 3 [8, 8]] ++ [FileOp.write 0 [7, 8, 9]], o.Nonempty := by
    simp [FileOp.Nonempty]
  have hsparing : Sparing cfg (failingFrom 2)
      ([.read 0 1, .write 3 [8, 8]] ++ [.write 0 [7, 8, 9]])
      (materialize cfg (failingFrom 2) 0 start).2 :=
    ⟨fun _ => by decide +kernel, fun _ => by decide +kernel, fun _ => by decide +kernel, trivial⟩
  have hraised : out.1 = .error .downloadFailed := by decide +kernel
  refine ⟨hraised, ?_⟩
  exact ((attempted_harmless cfg (fun _ _ h => h) (quiet_failingFrom 2) hf.1 hf.2 0 0 hops hsparing
    ⟨_, hraised⟩).2 [.write 1 [9], .sync] (by simp [FileOp.Nonempty])
    (fun _ => {}) (fun _ => {}) (fun _ => Tick.quiet_default) (fun _ => Tick.quiet_default) 0 0).2

/-- The download numbered `k` fails. -/
def failingAt (k : Nat) : Nat → Tick := fun n => { downloadFails := n = k }

/-- A write whose second chunk cannot be loaded takes the first one for loaded. -/
theorem attempted_harmless_covered :
    let p := (materialize ⟨⟨2, 1, by decide, by decide⟩, 0⟩ (failingAt 1) 0 (freshCtx 2 0
      (Store.oneFile ⟨2, 1, by decide, by decide⟩ [1, 2, 3, 4] : Store Bytes))).2
    let out := perform ⟨⟨2, 1, by decide, by decide⟩, 0⟩ (.write 0 [7, 8, 9]) (failingAt 1) p.1 p.2
    (∃ e, out.1 = .error e) ∧
      (perform ⟨⟨2, 1, by decide, by decide⟩, 0⟩ (.read 0 4) (fun _ => {}) 0 p.2).1 =
        .ok [1, 2, 3, 4] ∧
      (perform ⟨⟨2, 1, by decide, by decide⟩, 0⟩ (.read 0 4) (fun _ => {}) 0 out.2.2).1 =
        .ok [0, 0, 3, 4] := by
  exact ⟨⟨.downloadFailed, by decide +kernel⟩, by decide +kernel, by decide +kernel⟩

end Tgfs
