import Tgfs.Cache.Proofs.View

/-!
# Operations on a state when transfers fail

Whatever raises in the middle, the books stay exact, only the state's own inode is touched, and
every chunk the state refers to stays in the index. `Robust` says this of a piece of code; it
passes from the parts to the whole.
-/

namespace Tgfs

open Run (Wp)
open Wb

variable {Sha : Type}

/-- The fields that the operations on an open state leave alone. -/
def FileState.frozen (st : FileState Sha) : Ino × Nat × Bool × Int × Time :=
  (st.ino, st.gen, st.closed, st.refcount, st.idleSince)

/-- Every chunk that `base` refers to is a stored chunk of the inode. -/
def Backed (m : Meta Sha) (st : FileState Sha) : Prop :=
  ∀ b ∈ st.base, ∃ row ∈ m.getChunks st.ino, row.sha = b.sha

variable [DecidableEq Sha] [Sha256 Sha]

structure FileCtx.Sound (c : FileCtx Sha) : Prop where
  books : c.store.Accounted
  backed : Backed c.store.index c.st

structure Steady (c c' : FileCtx Sha) : Prop where
  frozen : c'.st.frozen = c.st.frozen
  framed : Store.Framed c.st.ino c.store c'.store

omit [DecidableEq Sha] [Sha256 Sha] in
theorem Steady.refl (c : FileCtx Sha) : Steady c c := ⟨rfl, Store.Framed.refl _ _⟩

omit [DecidableEq Sha] [Sha256 Sha] in
theorem Steady.ino {c c' : FileCtx Sha} (h : Steady c c') : c'.st.ino = c.st.ino :=
  congrArg Prod.fst h.frozen

omit [DecidableEq Sha] [Sha256 Sha] in
theorem Steady.trans {c₁ c₂ c₃ : FileCtx Sha} (h : Steady c₁ c₂) (h' : Steady c₂ c₃) :
    Steady c₁ c₃ :=
  ⟨h'.frozen.trans h.frozen, h.framed.trans (h.ino ▸ h'.framed)⟩

/-- How code on a state may end. -/
def Ends {α : Type} (c : FileCtx Sha) (r : Except (PyErr Sha) α) (c' : FileCtx Sha) : Prop :=
  c'.Sound ∧ Steady c c' ∧ ∀ e, r = .error e → e.Expected

def Robust {α : Type} (m : FileRun Sha α) : Prop :=
  ∀ ts, (∀ n, (ts n).Quiet True) → ∀ c : FileCtx Sha, c.Sound → Wp ts m (Ends c) c

/-! ## Putting code together -/

section Rules

variable {α β : Type}

theorem Robust.pure (a : α) : Robust (pure a : FileRun Sha α) :=
  fun _ _ c hc => Run.wp_pure.mpr ⟨hc, .refl c, nofun⟩

theorem Robust.raise {e : PyErr Sha} (he : e.Expected) : Robust (Run.raise e : FileRun Sha α) :=
  fun _ _ c hc => Run.wp_raise.mpr ⟨hc, .refl c, fun _ h => (Except.error.inj h) ▸ he⟩

theorem Robust.gets (f : FileCtx Sha → α) : Robust (Run.gets f : FileRun Sha α) :=
  fun _ _ c hc => Run.wp_gets.mpr ⟨hc, .refl c, nofun⟩

/-- Sequencing, from a middle state on. -/
theorem Ends.bind {ts : Nat → Tick} {c c₁ : FileCtx Sha} (h : Steady c c₁) {m : FileRun Sha α}
    (hm : Wp ts m (Ends c₁) c₁) : Wp ts m (Ends c) c₁ :=
  hm.mono fun _ _ hr => ⟨hr.1, h.trans hr.2.1, hr.2.2⟩

theorem Robust.bind {m : FileRun Sha α} {f : α → FileRun Sha β} (hm : Robust m)
    (hf : ∀ a, Robust (f a)) : Robust (m >>= f) := by
  intro ts hts c hc
  refine Wp.bind ((hm ts hts c hc).mono ?_)
  rintro (e | a) c₁ ⟨hc₁, hst, he⟩
  · exact ⟨hc₁, hst, fun e' h => he e' (congrArg Except.error (Except.error.inj h))⟩
  · exact Ends.bind hst (hf a ts hts c₁ hc₁)

theorem Robust.ite {p : Prop} [Decidable p] {m m' : FileRun Sha α} (hm : Robust m)
    (hm' : Robust m') : Robust (if p then m else m') := by
  split
  · exact hm
  · exact hm'

/-- A change of the state that refers to no new chunk. -/
theorem Robust.setState {f : FileState Sha → FileState Sha}
    (hf : ∀ st, (f st).frozen = st.frozen ∧ (f st).base ⊆ st.base) : Robust (setState f) := by
  intro ts hts c hc
  have hino : (f c.st).ino = c.st.ino := congrArg Prod.fst (hf c.st).1
  refine wp_setState.mpr ⟨⟨hc.books, fun b hb => ?_⟩, ⟨(hf c.st).1, Store.Framed.refl _ _⟩, nofun⟩
  rw [show ({ c with st := f c.st } : FileCtx Sha).st.ino = c.st.ino from hino]
  exact hc.backed b ((hf c.st).2 hb)

theorem Robust.setTemp (f : Bytes → Bytes) :
    Robust (Run.modify fun c => { c with temp := f c.temp } : FileRun Sha Unit) :=
  fun _ _ _ hc => Run.wp_modify.mpr ⟨⟨hc.books, hc.backed⟩, ⟨rfl, Store.Framed.refl _ _⟩, nofun⟩

end Rules

theorem robust_checkOpen : Robust (checkOpen : FileRun Sha Unit) := by
  refine .bind (.gets _) fun st => ?_
  unfold Run.require
  exact .ite (.pure ()) (.raise ⟨nofun, nofun⟩)

theorem robust_tempWrite (off : Nat) (data : Bytes) : Robust (tempWrite off data : FileRun Sha Unit) :=
  robust_checkOpen.bind fun _ => .setTemp (pwrite · off data)

theorem robust_tempRead (off n : Nat) : Robust (tempRead off n : FileRun Sha Bytes) :=
  robust_checkOpen.bind fun _ => .gets _

theorem robust_tempTruncate (n : Nat) : Robust (tempTruncate n : FileRun Sha Unit) :=
  robust_checkOpen.bind fun _ => .setTemp (resize · n)

/-! ## Loading -/

/-- A chunk that the state refers to is in the index. -/
theorem Ends.fetch {ts : Nat → Tick} {c : FileCtx Sha} (hc : c.Sound) {b : BaseChunk Sha}
    (hb : b ∈ c.st.base) : Wp ts (call noSrc (Store.fetch b.sha)) (fun r c' => c' = c ∧
      ∀ e, r = .error e → e.Expected) c := by
  obtain ⟨row, hrow, hsha⟩ := hc.backed b hb
  obtain ⟨data, hdata, -⟩ := hc.books.blobData_row hrow
  rw [hsha] at hdata
  refine wp_call fun n => ?_
  rw [Store.seqRun_fetch hc.books.readable hdata]
  refine ⟨rfl, fun e he => ?_⟩
  split at he
  · cases he
    exact ⟨nofun, nofun⟩
  · cases he

theorem robust_loadEach (is : List Nat) : Robust (loadEach is : FileRun Sha Unit) := by
  induction is with
  | nil => exact .pure ()
  | cons i is ih =>
    intro ts hts c hc
    unfold loadEach
    rw [getState, Run.wp_gets_bind]
    cases hb : c.st.base[i]? with
    | none => exact Run.wp_pure.mpr ⟨hc, .refl c, by simp⟩
    | some b =>
      refine Wp.bind ((Ends.fetch hc (List.mem_of_getElem? hb)).mono ?_)
      rintro (e | data) c₁ ⟨rfl, he⟩
      · exact ⟨hc, .refl _, fun e' h => he e' (congrArg Except.error (Except.error.inj h))⟩
      · refine Robust.bind (robust_tempWrite _ _) (fun _ => ?_) ts hts c₁ hc
        exact .bind (.setState fun _ => ⟨rfl, List.Subset.refl _⟩) fun _ => ih

theorem robust_load (lo hi : Nat) (skip : Finset Nat) :
    Robust (load lo hi skip : FileRun Sha Unit) :=
  Robust.bind (.gets _) fun _ => robust_loadEach _

theorem robust_materialize (cfg : WbConfig) : Robust (materialize cfg : FileRun Sha Unit) := by
  intro ts hts c hc
  unfold materialize
  rw [getState, Run.wp_gets_bind]
  split
  · exact Run.wp_pure.mpr ⟨hc, .refl c, by simp⟩
  · rw [getRows, Run.wp_gets_bind, getInode, Run.wp_gets_bind]
    cases c.store.index.getInode c.st.ino with
    | none => exact Run.wp_raise.mpr ⟨hc, .refl c, fun e h => by cases h; simp [PyErr.Expected]⟩
    | some n =>
      simp only
      rw [setState, Run.wp_modify_bind]
      generalize hbase : (c.store.index.getChunks c.st.ino).map BaseChunk.ofRow = base
      refine Ends.bind (?_ : Steady c _) ?_
      · exact ⟨rfl, Store.Framed.refl _ _⟩
      have hmark : Robust (setState fun st : FileState Sha => { st with materialized := true }) :=
        .setState fun _ => ⟨rfl, List.Subset.refl _⟩
      refine Robust.ite hmark ?_ ts hts _ ⟨hc.books, fun b hb => ?_⟩
      · exact .bind (robust_load _ _ _) fun _ =>
          .bind (.setState fun _ => ⟨rfl, List.nil_subset _⟩) fun _ => hmark
      · obtain ⟨row, hrow, rfl⟩ := List.mem_map.mp (hbase ▸ hb)
        exact ⟨row, hrow, rfl⟩

theorem robust_prepare (cfg : WbConfig) (start fin : Nat) (overwrite : Bool) :
    Robust (prepare cfg start fin overwrite : FileRun Sha Unit) := by
  refine .bind (.gets _) fun st => .ite (.pure ()) (.bind (.setState fun _ => ?_) fun _ => ?_)
  · exact ⟨rfl, List.Subset.refl _⟩
  · exact robust_load _ _ _

theorem robust_touch (b : Nat) : Robust (touch b : FileRun Sha Unit) :=
  .bind (robust_load _ _ _) fun _ => .setState fun _ => ⟨rfl, List.Subset.refl _⟩

theorem robust_grow (cfg : WbConfig) (newSize : Nat) :
    Robust (grow cfg newSize : FileRun Sha Unit) := by
  refine .bind (.gets _) fun st => .ite (.pure ()) ?_
  have hsize : Robust (setState fun st : FileState Sha => { st with size := newSize }) :=
    .setState fun _ => ⟨rfl, List.Subset.refl _⟩
  exact .ite (.bind (robust_touch _) fun _ => hsize) hsize

/-! ## The operations -/

theorem robust_readRange (offset length : Nat) :
    Robust (do
      let st ← getState
      call noSrc (Store.readRange st.ino offset length) : FileRun Sha Bytes) := by
  intro ts hts c hc
  rw [getState, Run.wp_gets_bind]
  refine wp_call fun n => ?_
  obtain ⟨r, n', hrun, -, herr⟩ : ∃ r n', Store.machine.seqRun noSrc ts
      (Store.readRange c.st.ino offset length) n c.store = (r, n', c.store) ∧ _ ∧ _ :=
    Store.seqRun_readRange hc.books hc.books rfl (fun _ _ => rfl) offset length n
  rw [hrun]
  refine ⟨hc, .refl c, fun e he => ?_⟩
  obtain rfl := herr e he
  simp [PyErr.Expected]

theorem robust_read (cfg : WbConfig) (size offset : Nat) :
    Robust (read cfg size offset : FileRun Sha Bytes) := by
  intro ts hts c hc
  unfold Wb.read
  rw [getState, Run.wp_gets_bind]
  split
  · refine Robust.ite (.pure []) ?_ ts hts c hc
    exact .bind (robust_prepare _ _ _ _) fun _ => robust_tempRead _ _
  · exact robust_readRange offset size ts hts c hc

theorem robust_write (cfg : WbConfig) (data : Bytes) (offset : Nat) :
    Robust (write cfg data offset : FileRun Sha Nat) := by
  refine .bind (robust_materialize cfg) fun _ => .bind (robust_prepare _ _ _ _) fun _ =>
    .bind (robust_grow _ _) fun _ => .bind (robust_tempWrite _ _) fun _ => .bind ?_ fun _ => .pure _
  exact .setState fun _ => ⟨rfl, List.Subset.refl _⟩

theorem robust_shrink (cfg : WbConfig) (length : Nat) :
    Robust (shrink cfg length : FileRun Sha Unit) := by
  refine .bind (.gets _) fun st => ?_
  refine .ite (.bind (robust_touch _) fun _ => .setState fun _ => ?_) (.setState fun _ => ?_)
  · exact ⟨rfl, List.take_subset _ _⟩
  · exact ⟨rfl, List.take_subset _ _⟩

theorem robust_truncate (cfg : WbConfig) (length : Nat) :
    Robust (truncate cfg length : FileRun Sha Unit) := by
  refine .bind (robust_materialize cfg) fun _ => .bind (.gets _) fun st => ?_
  have hrest : Robust (do
      tempTruncate length
      setState fun st => { st with dirty := true } : FileRun Sha Unit) :=
    .bind (robust_tempTruncate _) fun _ => .setState fun _ => ⟨rfl, List.Subset.refl _⟩
  exact .ite (.bind (robust_shrink _ _) fun _ => hrest) (.bind (robust_grow _ _) fun _ => hrest)

/-- `put_file` on the state's own inode. -/
theorem Ends.putFile {ts : Nat → Tick} (hts : ∀ n, (ts n).Quiet True) {c : FileCtx Sha}
    (hc : c.Sound) (cfg : StoreConfig) (closed : Bool) (size : Nat) (dirty : Option (Finset Nat)) :
    Wp ts (call (tempSrc closed c.temp) (Store.putFile cfg c.st.ino size dirty)) (fun r c' =>
      c'.st = c.st ∧ c'.store.Accounted ∧ Store.Framed c.st.ino c.store c'.store ∧
        ∀ e, r = .error e → c'.Sound ∧ e.Expected) c := by
  refine wp_call fun n => ?_
  have hput := Store.seqRun_putFile (tempSrc closed c.temp) cfg c.st.ino size dirty hc.books hts n
  rcases hrun : Store.machine.seqRun (tempSrc closed c.temp) ts
    (Store.putFile cfg c.st.ino size dirty) n c.store with ⟨r, n', s'⟩
  rw [hrun] at hput
  obtain ⟨hs', hfr, hpost⟩ := hput
  refine ⟨rfl, hs', hfr, fun e he => ?_⟩
  obtain rfl : r = .error e := he
  obtain ⟨herr, how⟩ := hpost
  have hrows : s'.index.getChunks c.st.ino = c.store.index.getChunks c.st.ino :=
    congrArg Owned.rows how
  refine ⟨⟨hs', fun b hb => ?_⟩, ?_⟩
  · rw [hrows]
    exact hc.backed b hb
  · obtain ⟨rfl, -⟩ | ⟨pos, want, hread⟩ := herr
    · exact ⟨nofun, nofun⟩
    · unfold tempSrc at hread
      split at hread
      · cases hread
        exact ⟨nofun, nofun⟩
      · cases hread

theorem robust_flushLocked (cfg : WbConfig) : Robust (flushLocked cfg : FileRun Sha Unit) := by
  intro ts hts c hc
  unfold flushLocked
  rw [getState, Run.wp_gets_bind]
  split
  case isFalse => exact Run.wp_pure.mpr ⟨hc, .refl c, by simp⟩
  case isTrue =>
    unfold tempTruncate checkOpen
    simp only [Run.wp_bind_assoc]
    rw [getState, Run.wp_gets_bind]
    refine Wp.bind (Run.wp_require.mpr ?_)
    split
    case isFalse =>
      exact ⟨hc, .refl c, fun e he => by cases he; simp [PyErr.Expected]⟩
    case isTrue =>
      rw [Run.wp_modify_bind, Run.wp_gets_bind]
      have hc₁ : ({ c with temp := resize c.temp c.st.size } : FileCtx Sha).Sound :=
        ⟨hc.books, hc.backed⟩
      refine Wp.bind ((Ends.putFile hts hc₁ _ _ _ _).mono ?_)
      rintro (e | u) c' ⟨hst, hs', hfr, herr⟩
      · obtain ⟨hc', hexp⟩ := herr e rfl
        exact ⟨hc', ⟨by rw [hst], hfr⟩, fun e' he => Except.error.inj he ▸ hexp⟩
      · rw [getRows, Run.wp_gets_bind, wp_setState]
        refine ⟨⟨hs', fun b hb => ?_⟩, ⟨by rw [hst]; rfl, hfr⟩, by simp⟩
        obtain ⟨row, hrow, rfl⟩ := List.mem_map.mp hb
        exact ⟨row, hrow, rfl⟩

theorem robust_flush (cfg : WbConfig) : Robust (flush cfg : FileRun Sha Unit) :=
  .ite (.pure ()) (robust_flushLocked cfg)

end Tgfs
