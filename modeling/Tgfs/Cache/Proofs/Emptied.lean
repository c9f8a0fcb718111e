import Tgfs.Cache.Proofs.Manager
import Tgfs.Cache.Proofs.Marks
import Tgfs.MetaSteps
import Tgfs.Store.Proofs.Stops

/-!
# Truncating a file to nothing

The truncate itself loads nothing. The state that is left either waits for its flush or has been
flushed, and the flush leaves neither rows nor a size. So `truncate_path` to nothing leaves a state
in write mode that is empty, or no state and an empty file in the index.
-/

namespace Tgfs

open Run (Wp Preserves)

variable {Sha : Type}

/-! ## Storing no content -/

namespace Store

variable [DecidableEq Sha] [Sha256 Sha]

theorem putBody_zero (cfg : StoreConfig) (ino : Ino) (dirty : Option (Finset Nat))
    (old : List (Chunk Sha)) : putBody cfg ino 0 dirty old = .ret ({}, none) := by
  unfold putBody putLoop
  rfl

/-- What `put_file` does behind its two writes. -/
def putTail (old : List (Chunk Sha)) : StoreProg Sha (Except (PyErr Sha) Unit) := do
  match ← releaseAll (old.map (·.sha)) with
  | some e => pure (.error e)
  | none => pure (.ok ())

theorem putFile_zero (cfg : StoreConfig) (ino : Ino) (dirty : Option (Finset Nat)) :
    (putFile cfg ino 0 dirty : StoreProg Sha _) = .act (.getChunks ino) fun (old : List (Chunk Sha)) =>
      .act (.setChunks ino []) fun _ => .act (.setSize ino 0) fun _ => putTail old := by
  exact congrArg (Prog.act _) (funext fun (old : List (Chunk Sha)) =>
    congrArg (Prog.bind · _) (putBody_zero cfg ino dirty old))

/-- `put_file` of no content leaves no rows and sets the size to zero. -/
theorem seqRun_putFile_zero (src : Src Sha) (cfg : StoreConfig) (ino : Ino)
    (dirty : Option (Finset Nat)) (ts : Nat → Tick) (n : Nat) (s : Store Sha) :
    (machine.seqRun src ts (putFile cfg ino 0 dirty) n s).2.2.saved ino =
      ([], (s.saved ino).2.map fun _ => 0) := by
  have hturn : ∀ t a (s' : Store Sha), (machine.turn t a s').saved ino = s'.saved ino := by
    intro t a s'
    refine Machine.turn_stable (M := machine) (P := fun s'' => s''.saved ino = s'.saved ino)
      (fun e s'' h => ?_) t a rfl
    obtain ⟨hc, hi⟩ := poolStep_plain e s''
    exact (saved_congr hc hi ino).trans h
  have htail : ∀ old n (s' : Store Sha),
      (machine.seqRun src ts (putTail old) n s').2.2.saved ino = s'.saved ino := by
    intro old n s'
    have hplain : (putTail old : StoreProg Sha _).All Plain := by
      refine (all_releaseAll (fun _ => trivial) (fun _ => trivial) _).bind fun e => ?_
      cases e <;> trivial
    obtain ⟨hc, hi⟩ := seqRun_plain hplain src ts n s'
    exact saved_congr hc hi ino
  set s₁ := machine.turn (ts n) (.getChunks ino) s with hs₁
  set s₂ := machine.turn (ts (n + 1)) (.setChunks ino []) s₁ with hs₂
  set s₃ := machine.turn (ts (n + 2)) (.setSize ino 0)
    (exec src (ts (n + 1)) (.setChunks ino []) s₂).2 with hs₃
  have hsaved₂ : s₂.saved ino = s.saved ino := (hturn _ _ s₁).trans (hturn _ _ s)
  have hsaved₃ : s₃.saved ino = ([], (s.saved ino).2) := by
    rw [hturn, saved_setChunks List.Pairwise.nil, hsaved₂]
  rw [putFile_zero]
  change (machine.seqRun src ts (putTail (s₁.index.getChunks ino)) (n + 3)
    (exec src (ts (n + 2)) (.setSize ino 0) s₃).2).2.2.saved ino = _
  rw [htail, saved_setSize, hsaved₃]

end Store

/-! ## One open state -/

namespace Wb

variable [DecidableEq Sha] [Sha256 Sha] {ts : Nat → Tick} {c : FileCtx Sha} {cfg : WbConfig}

theorem inodes_passive (v : Ino → Option Inode) :
    Passive fun c : FileCtx Sha => c.store.index.inodes = v where
  fetch ts n sha _ h :=
    (Store.seqRun_plain (Store.all_fetch (fun _ => trivial) (fun _ => trivial) sha) _ ts n _).2.trans h
  readRange ts n offset length _ ino h :=
    (Store.seqRun_plain (Store.all_readRange (fun _ => trivial) (fun _ => trivial) (fun _ => trivial)
      ino offset length) _ ts n _).2.trans h
  temp _ _ h := h
  state _ _ _ _ h := h

/-- A state that is switched to write mode takes the size of its inode. -/
theorem wp_materialize_size : Wp ts (materialize cfg) (fun r c' => ∀ u, r = .ok u →
    c'.st.materialized = true ∧ some c'.st.size = if c.st.materialized then some c.st.size
      else (c.store.index.inodes c.st.ino).map (·.size)) c := by
  unfold materialize
  rw [getState, Run.wp_gets_bind]
  cases hm : c.st.materialized with
  | true => exact Run.wp_pure.mpr fun _ _ => ⟨hm, rfl⟩
  | false =>
    rw [if_neg (by simp), getRows, Run.wp_gets_bind, getInode, Run.wp_gets_bind]
    cases hi : c.store.index.getInode c.st.ino with
    | none => exact Run.wp_raise.mpr (by simp)
    | some node =>
      obtain ⟨-, row, hrow, rfl⟩ := Meta.getInode_eq_some hi
      rw [hrow]
      dsimp only
      refine Wp.bind_ok (wp_setState.mpr ⟨(), rfl, ?_⟩)
      split
      · exact wp_setState.mpr fun _ _ => ⟨rfl, rfl⟩
      · refine Wp.bind_partial (((load_onlyLoads _ _ _ _).wp ⟨_, rfl⟩).mono ?_)
        rintro r c₁ ⟨L, hL⟩ u -
        refine Wp.bind_ok (wp_setState.mpr ⟨(), rfl, wp_setState.mpr fun _ _ => ⟨rfl, ?_⟩⟩)
        rw [hL]
        rfl

/-- The state is in write mode and holds no byte. -/
structure Emptied (st : FileState Sha) : Prop where
  materialized : st.materialized = true
  size : st.size = 0

/-- `truncate` to nothing loads nothing. -/
theorem wp_truncate_zero (hm : c.st.materialized = true) : Wp ts (truncate cfg 0) (fun r c' =>
    ∀ u, r = .ok u → Emptied c'.st ∧ c'.st.dirty = true) c := by
  have hend : ∀ {c₁ : FileCtx Sha}, Emptied c₁.st → Wp ts (do
      tempTruncate 0
      setState fun st => { st with dirty := true }) (fun r c' =>
        ∀ u, r = .ok u → Emptied c'.st ∧ c'.st.dirty = true) c₁ := by
    intro c₁ h₁
    refine Wp.bind_partial ((keeps_tempTruncate (f := FileCtx.st) (fun _ _ => rfl) 0).wp.mono
      fun r c₂ hst u _ => ?_)
    exact wp_setState.mpr fun _ _ => ⟨⟨hst ▸ h₁.1, hst ▸ h₁.2⟩, rfl⟩
  unfold truncate
  refine Wp.bind_ok (materialize_noop hm ⟨(), rfl, ?_⟩)
  rw [getState, Run.wp_gets_bind]
  dsimp only
  split
  · unfold shrink
    refine Wp.bind_ok ?_
    rw [getState, Run.wp_gets_bind]
    dsimp only
    rw [if_neg (by simp)]
    exact wp_setState.mpr ⟨(), rfl, hend ⟨hm, rfl⟩⟩
  · next hsize =>
    have hzero : c.st.size = 0 := Nat.eq_zero_of_not_pos hsize
    unfold grow
    refine Wp.bind_ok ?_
    rw [getState, Run.wp_gets_bind]
    dsimp only
    rw [if_pos (Nat.zero_le _)]
    exact Run.wp_pure.mpr ⟨(), rfl, hend ⟨hm, hzero⟩⟩

/-- A flush takes the rows from the inode and sets its size to nothing. -/
theorem wp_flush_zero (h : Emptied c.st) (hd : c.st.dirty = true) : Wp ts (flushLocked cfg) (fun r c' =>
    ∀ u, r = .ok u → Emptied c'.st ∧ c'.st.dirty = false ∧
      c'.store.saved c.st.ino = ([], (c.store.saved c.st.ino).2.map fun _ => 0)) c := by
  unfold flushLocked
  rw [getState, Run.wp_gets_bind, if_pos hd, h.size]
  refine Wp.bind_partial ((keeps_tempTruncate (f := fun c' : FileCtx Sha => (c'.st, c'.store))
    (fun _ _ => rfl) 0).wp.mono fun r c₁ h₁ u _ => ?_)
  obtain ⟨hst, hstore⟩ := Prod.mk.inj h₁
  refine Run.wp_gets_bind.mpr (Wp.bind_partial (wp_call fun n => fun u _ => ?_))
  refine Run.wp_gets_bind.mpr (wp_setState.mpr fun _ _ => ⟨⟨?_, ?_⟩, rfl, ?_⟩)
  · exact hst ▸ h.materialized
  · exact hst ▸ h.size
  · rw [← hstore]
    exact Store.seqRun_putFile_zero _ _ _ _ ts n c₁.store

end Wb

/-! ## The manager -/

namespace Writeback

/-- The size of an inode: that of its state, if it is in write mode, or that of its row. -/
def sizeOf (w : Writeback Sha) (ino : Ino) : Option Nat :=
  match w.liveSize ino with
  | some size => some size
  | none => (w.store.index.inodes ino).map (·.size)

/-- The file is empty: its state is, or it has none and nothing is stored. -/
def Bare (w : Writeback Sha) (ino : Ino) : Prop :=
  (∃ sid, w.get ino = some sid ∧ Wb.Emptied (w.heap sid)) ∨
    w.get ino = none ∧ w.store.saved ino = ([], some 0)

variable {w w' : Writeback Sha} {sid : StateId} {ino : Ino} {ts : Nat → Tick}

theorem sizeOf_state (hget : w.get ino = some sid) : w.sizeOf ino =
    if (w.heap sid).materialized then some (w.heap sid).size
    else (w.store.index.inodes ino).map (·.size) := by
  unfold sizeOf liveSize Wb.liveSize
  rw [hget]
  cases hm : (w.heap sid).materialized <;> simp [hm]

theorem sizeOf_row (hget : w.get ino = none) :
    w.sizeOf ino = (w.store.index.inodes ino).map (·.size) := by
  unfold sizeOf liveSize Wb.liveSize
  rw [hget]
  rfl

theorem Bare.sizeOf (h : w.Bare ino) : w.sizeOf ino = some 0 := by
  obtain ⟨sid, hget, hempty⟩ | ⟨hget, hsaved⟩ := h
  · rw [sizeOf_state hget, if_pos hempty.materialized, hempty.size]
  · rw [sizeOf_row hget]
    exact congrArg Prod.snd hsaved

/-- `open` finds the registered state or makes one, and the size stays. -/
theorem openLocked_size (w : Writeback Sha) (ino : Ino) :
    (w.openLocked ino).2.get ino = some (w.openLocked ino).1 ∧
      (w.openLocked ino).2.sizeOf ino = w.sizeOf ino := by
  cases hget : w.get ino with
  | some sid =>
    rw [openLocked_old hget]
    refine ⟨hget, ?_⟩
    have hsame : (w.modState sid fun st => { st with refcount := st.refcount + 1 }).get ino =
        some sid := hget
    dsimp only
    rw [sizeOf_state hsame, heap_modState, sizeOf_state hget]
    rfl
  | none =>
    obtain ⟨gen, nextGen, ho, -⟩ := openLocked_new hget
    have hnew : (w.openLocked ino).2.get ino = some w.nextState := by
      rw [ho]
      have hnone : w.states.find? (fun p => p.1 = ino) = none := Option.map_eq_none_iff.mp hget
      unfold get
      rw [List.find?_append, hnone]
      simp
    rw [sizeOf_state hnew, sizeOf_row hget, hnew, ho]
    refine ⟨rfl, ?_⟩
    simp only [Function.update_self]
    rfl

variable [DecidableEq Sha] [Sha256 Sha] (cfg : WbConfig)

/-- A file that is opened has the size that it had. -/
theorem wp_openFile_size (hino : ((w.openLocked ino).2.heap (w.openLocked ino).1).ino = ino)
    (forWrite : Bool) : Wp ts (Writeback.openFile cfg ino forWrite) (fun r w' => ∀ sid, r = .ok sid →
      w'.get ino = some sid ∧ (w'.heap sid).ino = ino ∧ w'.sizeOf ino = w.sizeOf ino ∧
        w'.store.index.inodes = w.store.index.inodes ∧
        (forWrite = true → (w'.heap sid).materialized = true)) w := by
  obtain ⟨hget, hsize⟩ := openLocked_size w ino
  have hstore := openLocked_store ino w
  unfold Writeback.openFile
  rw [Run.wp_modifyGet_bind]
  generalize Writeback.openLocked ino w = o at hget hsize hstore hino ⊢
  cases forWrite with
  | false =>
    refine Run.wp_pure.mpr fun sid hs => ?_
    obtain rfl := Except.ok.inj hs
    exact ⟨hget, hino, hsize, by rw [hstore], nofun⟩
  | true =>
    rw [if_pos rfl]
    refine Wp.bind_partial (Run.wp_zoom.mpr (((Wb.frozen_aside.keeps_materialize cfg).wp.and
      (((Wb.inodes_passive _).materialize cfg |>.wp rfl).and Wb.wp_materialize_size)).mono ?_))
    rintro r c ⟨hfrozen, hrows, hc⟩ u hu
    obtain ⟨hm, hsz⟩ := hc u hu
    refine Run.wp_pure.mpr fun sid hs => ?_
    obtain rfl := Except.ok.inj hs
    have hself : ((o.2.put o.1 c).heap o.1) = c.st := Function.update_self _ _ _
    have hview : (o.2.view o.1).st = o.2.heap o.1 := rfl
    have hget' : (o.2.put o.1 c).get ino = some o.1 := hget
    have hrows' : c.store.index.inodes = o.2.store.index.inodes := hrows
    refine ⟨hget', ?_, ?_, hrows'.trans (by rw [hstore]), fun _ => ?_⟩
    · rw [hself]
      exact (congrArg Prod.fst hfrozen).trans hino
    · rw [← hsize, sizeOf_state hget', sizeOf_state hget, hself, if_pos hm, hsz, hview, hino]
      rfl
    · rw [hself]
      exact hm

/-- An emptied file is to be flushed by the reaper, or is flushed. -/
def Settled (w : Writeback Sha) (ino : Ino) (sid : StateId) : Prop :=
  0 < cfg.flushDelay ∧ (w.heap sid).dirty = true ∨
    (w.heap sid).dirty = false ∧ w.store.saved ino = ([], some 0)

variable {cfg}

/-- An emptied file that is released still is. -/
theorem wp_release_bare (hget : w.get ino = some sid) (hino : (w.heap sid).ino = ino)
    (h : Wb.Emptied (w.heap sid)) (hs : Settled cfg w ino sid) :
    Wp ts (release cfg sid) (fun _ w' => w'.Bare ino) w := by
  have hlive : ∀ (w' : Writeback Sha), w'.get ino = some sid →
      (w'.heap sid).materialized = (w.heap sid).materialized →
      (w'.heap sid).size = (w.heap sid).size → w'.Bare ino := by
    intro w' hget' hm hsize
    exact .inl ⟨sid, hget', hm.trans h.materialized, hsize.trans h.size⟩
  refine Run.Wp.tick_bind fun n => ?_
  rw [Run.wp_modifyGet_bind]
  unfold releaseLocked
  have hself := w.heap_modState sid fun st => { st with refcount := st.refcount - 1 }
  generalize hw₁ : (w.modState sid fun st => { st with refcount := st.refcount - 1 }) = w₁ at hself
  have hget₁ : w₁.get ino = some sid := hw₁ ▸ hget
  have hstore₁ : w₁.store = w.store := hw₁ ▸ rfl
  dsimp only
  split
  · exact Run.wp_pure.mpr (hlive w₁ hget₁ (by rw [hself]) (by rw [hself]))
  · split
    · refine Run.wp_pure.mpr (hlive _ hget₁ ?_ ?_)
      · rw [heap_modState, hself]
      · rw [heap_modState, hself]
    · next hlazy =>
      rw [hself] at hlazy ⊢
      obtain ⟨hclean, hsaved⟩ := hs.resolve_left hlazy
      rw [if_pos rfl, show (w.heap sid).ino = ino from hino]
      have hclean₁ : ((w₁.pop ino).heap sid).dirty = false :=
        (congrArg FileState.dirty hself).trans hclean
      refine Wp.bind (wp_flush_clean hclean₁ (Run.wp_modify.mpr (.inr ⟨?_, ?_⟩)))
      · refine Option.map_eq_none_iff.mpr (List.find?_eq_none.mpr fun p hp => ?_)
        have hne : p.1 ≠ ino := of_decide_eq_true (List.mem_filter.mp hp).2
        simpa using hne
      · exact (congrArg (Store.saved · ino) hstore₁).trans hsaved

/-- The part of `truncate_path` on the state that it opened. -/
theorem wp_truncated_zero (hget : w.get ino = some sid) (hino : (w.heap sid).ino = ino)
    (hm : (w.heap sid).materialized = true) {row : Inode}
    (hrow : w.store.index.inodes ino = some row) :
    Wp ts (do
      onState sid (Wb.truncate cfg 0)
      onState sid (Wb.flush cfg)) (fun r w' => ∀ u, r = .ok u → w'.get ino = some sid ∧
        (w'.heap sid).ino = ino ∧ Wb.Emptied (w'.heap sid) ∧ Settled cfg w' ino sid) w := by
  have hview : ∀ (w' : Writeback Sha) (c : FileCtx Sha), (w'.put sid c).heap sid = c.st :=
    fun w' c => Function.update_self _ _ _
  have hset : ∀ g : FileState Sha → FileState Sha, (∀ st, (g st).frozen = st.frozen) →
      Preserves (fun c : FileCtx Sha => c.store.index.inodes = w.store.index.inodes)
        (Wb.setState g) := fun g _ => Run.preserves_modify fun _ h => h
  refine Wp.bind_partial (Run.wp_zoom.mpr (((Wb.wp_truncate_zero (c := w.view sid) hm).and
    ((((Wb.inodes_passive _).truncate hset cfg 0).wp rfl).and
      (Wb.frozen_aside.keeps_truncate cfg 0).wp)).mono ?_))
  rintro r c ⟨htrunc, hrows, hfrozen⟩ u hu
  obtain ⟨hempty, hdirty⟩ := htrunc u hu
  have hcino : c.st.ino = ino := (congrArg Prod.fst hfrozen).trans hino
  generalize hw₁ : w.put sid c = w₁
  have hst : w₁.heap sid = c.st := hw₁ ▸ hview w c
  have hget₁ : w₁.get ino = some sid := hw₁ ▸ hget
  have hstore₁ : w₁.store = c.store := hw₁ ▸ rfl
  have hempty₁ : Wb.Emptied (w₁.heap sid) := hst ▸ hempty
  have hdirty₁ : (w₁.heap sid).dirty = true := hst ▸ hdirty
  have hino₁ : (w₁.heap sid).ino = ino := hst ▸ hcino
  unfold Wb.flush
  split
  · next hlazy =>
    refine Run.wp_zoom.mpr (Run.wp_pure.mpr fun _ _ => ?_)
    have hput : w₁.put sid (w₁.view sid) = w₁ := by simp [put, view]
    rw [hput]
    exact ⟨hget₁, hino₁, hempty₁, .inl ⟨hlazy, hdirty₁⟩⟩
  · refine Run.wp_zoom.mpr (((Wb.wp_flush_zero (c := w₁.view sid) hempty₁ hdirty₁).and
      (Wb.frozen_aside.keeps_flushLocked cfg).wp).mono ?_)
    rintro r c₂ ⟨hflush, hfrozen₂⟩ u hu
    obtain ⟨hempty₂, hclean, hsaved⟩ := hflush u hu
    have hino₂ : c₂.st.ino = ino := (congrArg Prod.fst hfrozen₂).trans hino₁
    have hrow₁ : w₁.store.index.inodes ino = some row := by
      rw [hstore₁]
      exact (congrFun hrows ino).trans hrow
    have hst₁ : (w₁.view sid).st.ino = ino := hino₁
    refine ⟨hget₁, hview w₁ c₂ ▸ hino₂, hview w₁ c₂ ▸ hempty₂, .inr ⟨hview w₁ c₂ ▸ hclean, ?_⟩⟩
    rw [hst₁] at hsaved
    refine hsaved.trans (Prod.ext rfl ?_)
    exact (Option.map_map ..).trans (congrArg (Option.map _) hrow₁)

/-- `truncate_path` to nothing leaves an empty file. -/
theorem wp_truncatePath_bare (hino : ((w.openLocked ino).2.heap (w.openLocked ino).1).ino = ino)
    {row : Inode} (hrow : w.store.index.inodes ino = some row) :
    Wp ts (truncatePath cfg ino 0) (fun r w' => ∀ u, r = .ok u → w'.Bare ino) w := by
  unfold Writeback.truncatePath
  refine Wp.bind_partial ((wp_openFile_size cfg hino true).mono fun r w₁ h₁ sid hs => ?_)
  obtain ⟨hget, hheap, -, hrows, hm⟩ := h₁ sid hs
  refine Run.Wp.andFinally ((wp_truncated_zero hget hheap (hm rfl) (hrows ▸ hrow)).mono ?_)
  intro r w₂ hw₂
  cases r with
  | error e =>
    intro n
    rcases release cfg sid ts n w₂ with ⟨e' | u, n', w₃⟩ <;> exact nofun
  | ok u =>
    obtain ⟨hget₂, hino₂, hempty, hsettled⟩ := hw₂ u rfl
    refine (wp_release_bare hget₂ hino₂ hempty hsettled).mono fun r w₃ hw₃ => ?_
    cases r with
    | error e => exact nofun
    | ok u' => exact fun _ _ => hw₃

end Writeback

end Tgfs
