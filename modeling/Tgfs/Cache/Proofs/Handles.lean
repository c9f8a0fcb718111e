import Tgfs.Cache.Proofs.Emptied
import Tgfs.Cache.Proofs.Reaper

/-!
# The reference counts of the registered states

`Exact` says that every registered state counts its handles, and that one without handles waits
for the reaper with something to flush. The sections under the manager's lock move a count
together with a handle. Between them only one thing can go wrong: an open for writing raises its
count and then fails to re-chunk a file of another chunk size. `Rechunks` is when it does not.
-/

namespace Tgfs

open Run (Wp Keeps)

variable {Sha : Type}

namespace Wb

variable [DecidableEq Sha] [Sha256 Sha] {ts : Nat → Tick}

/-- Loading whose downloads succeed does not raise. A fetch takes two ticks, and its download is
at the second. -/
theorem loadEach_ok {is : List Nat} {n : Nat} {c : FileCtx Sha} (hs : c.store.Readable)
    (ho : c.st.closed = false) (hbase : ∀ b ∈ c.st.base, ∃ data, c.store.blobData b.sha = some data)
    (hts : ∀ k < is.length, (ts (n + 2 * k + 1)).downloadFails = false) :
    (loadEach is ts n c).1 = .ok () := by
  induction is generalizing n c with
  | nil => rfl
  | cons i is ih =>
    unfold loadEach
    rw [Run.bind_run_ok (show getState ts n c = (.ok c.st, n, c) from rfl)]
    cases hb : c.st.base[i]? with
    | none => rfl
    | some b =>
      obtain ⟨data, hd⟩ := hbase b (List.mem_of_getElem? hb)
      have hdown : (ts (n + 1)).downloadFails = false := hts 0 (Nat.succ_pos _)
      have hcall : call noSrc (Store.fetch b.sha) ts n c = (.ok data, n + 2, c) := by
        unfold call Run.zoom
        simp only [Store.seqRun_fetch hs hd, hdown]
        rfl
      have hwrite : tempWrite b.off data ts (n + 2) c =
          (.ok (), n + 2, { c with temp := pwrite c.temp b.off data }) := by
        unfold tempWrite checkOpen
        simp only [Run.bind_run, getState, Run.gets, ho]
        rfl
      simp only
      rw [Run.bind_run_ok hcall, Run.bind_run_ok hwrite]
      change (loadEach is ts (n + 2) { c with
        temp := pwrite c.temp b.off data
        st := { c.st with loaded := insert i c.st.loaded } }).1 = _
      refine ih hs ho hbase ?_
      intro k hk
      have := hts (k + 1) (Nat.succ_lt_succ hk)
      rwa [show n + 2 * (k + 1) + 1 = n + 2 + 2 * k + 1 by omega] at this

/-- When the switch to write mode does not raise: there is nothing to switch, the rows lie on the
grid of the chunk size, or all chunks arrive. -/
theorem materialize_ok {cfg : WbConfig} {n : Nat} {c : FileCtx Sha} {inode : Inode}
    (hs : c.store.Accounted) (ho : c.st.closed = false)
    (hi : c.store.index.getInode c.st.ino = some inode)
    (h : c.st.materialized = true ∨
      aligned cfg.chunkSize ((c.store.index.getChunks c.st.ino).map BaseChunk.ofRow) = true ∨
      ∀ k < (c.store.index.getChunks c.st.ino).length,
        (ts (n + 2 * k + 1)).downloadFails = false) :
    (materialize cfg ts n c).1 = .ok () := by
  unfold materialize
  rw [Run.bind_run_ok (show getState ts n c = (.ok c.st, n, c) from rfl)]
  split
  case isTrue => rfl
  case isFalse hm =>
    rw [Run.bind_run_ok (show getRows ts n c = (.ok _, n, c) from rfl),
      Run.bind_run_ok (show getInode ts n c = (.ok (some inode), n, c) by
        rw [← hi]
        rfl)]
    simp only
    set rows := (c.store.index.getChunks c.st.ino).map BaseChunk.ofRow with hrows
    set c₁ : FileCtx Sha := { c with st := { c.st with
      size := inode.size, base := rows, loaded := ∅, dirtyIdx := ∅ } } with hc₁
    rw [Run.bind_run_ok (show setState _ ts n c = (.ok (), n, c₁) from rfl)]
    by_cases hal : aligned cfg.chunkSize rows = true
    · rw [if_pos hal]
      rfl
    · rw [if_neg hal]
      have hdown := (h.resolve_left (by simpa using hm)).resolve_left hal
      have hlen : rows.length = (c.store.index.getChunks c.st.ino).length := List.length_map ..
      have hload : (load 0 rows.length ∅ ts n c₁).1 = .ok () := by
        refine loadEach_ok (c := c₁) hs.readable ho ?_ ?_
        · intro b hb
          obtain ⟨row, hrow, rfl⟩ := List.mem_map.mp hb
          obtain ⟨data, hd, -⟩ := hs.blobData_row hrow
          exact ⟨data, hd⟩
        · intro k hk
          apply hdown
          refine Nat.lt_of_lt_of_le hk ((List.length_filter_le _ _).trans ?_)
          rw [List.length_range', Nat.sub_zero]
          exact (Nat.min_le_left _ _).trans hlen.le
      rcases hrun : load 0 rows.length ∅ ts n c₁ with ⟨r, n₁, c₂⟩
      rw [hrun] at hload
      simp only at hload
      subst hload
      rw [Run.bind_run_ok hrun]
      rfl

end Wb

namespace Writeback

/-! ## Exact counts -/

/-- A registered state with `k` handles. -/
structure Tight (cfg : WbConfig) (k : Nat) (w : Writeback Sha) (ino : Ino) (sid : StateId) :
    Prop where
  lt : sid < w.nextState
  ino : (w.heap sid).ino = ino
  opened : (w.heap sid).closed = false
  count : (w.heap sid).refcount = k
  pending : k = 0 → 0 < cfg.flushDelay ∧ (w.heap sid).dirty = true

/-- The registered states, if each state `sid` has `held sid` handles. -/
structure Exact (cfg : WbConfig) (held : StateId → Nat) (w : Writeback Sha) : Prop where
  keys : (w.states.map Prod.fst).Nodup
  entry : ∀ ino sid, (ino, sid) ∈ w.states → Tight cfg (held sid) w ino sid
  held : ∀ sid, 0 < held sid → ∃ ino, (ino, sid) ∈ w.states

variable {cfg : WbConfig} {held held' : StateId → Nat} {w w' : Writeback Sha} {ino : Ino}
  {sid : StateId} {k : Nat}

theorem Tight.congr (h : Tight cfg k w ino sid) (hnext : w.nextState ≤ w'.nextState)
    (hheap : w'.heap sid = w.heap sid) : Tight cfg k w' ino sid :=
  ⟨h.lt.trans_le hnext, hheap ▸ h.ino, hheap ▸ h.opened, hheap ▸ h.count, hheap ▸ h.pending⟩

theorem Exact.unique (h : Exact cfg held w) {sid' : StateId} (hm : (ino, sid) ∈ w.states)
    (hm' : (ino, sid') ∈ w.states) : sid = sid' := by
  have hinj := List.inj_on_of_nodup_map h.keys hm hm' rfl
  exact congrArg Prod.snd hinj

/-- A change of one state that keeps it tight. -/
theorem Exact.modState (h : Exact cfg held w) {f : FileState Sha → FileState Sha}
    (hself : ∀ ino, (ino, sid) ∈ w.states → Tight cfg (held' sid) (w.modState sid f) ino sid)
    (hother : ∀ sid', sid' ≠ sid → held' sid' = held sid')
    (hheld : 0 < held' sid → ∃ ino, (ino, sid) ∈ w.states) :
    Exact cfg held' (w.modState sid f) := by
  refine ⟨h.keys, fun ino sid' hm => ?_, fun sid' hp => ?_⟩
  · by_cases hs : sid' = sid
    · subst hs
      exact hself ino hm
    · rw [hother sid' hs]
      exact (h.entry ino sid' hm).congr le_rfl (heap_modState_ne w hs f)
  · by_cases hs : sid' = sid
    · subst hs
      exact hheld hp
    · exact h.held sid' (hother sid' hs ▸ hp)

/-- A state without handles may leave the table. -/
theorem Exact.pop (h : Exact cfg held w) (hfree : ∀ sid, (ino, sid) ∈ w.states → held sid = 0) :
    Exact cfg held (w.pop ino) := by
  refine ⟨?_, fun ino' sid hm => ?_, fun sid hp => ?_⟩
  · exact h.keys.sublist (List.filter_sublist.map _)
  · exact (h.entry ino' sid (mem_pop.mp hm).1).congr le_rfl rfl
  · obtain ⟨ino', hm⟩ := h.held sid hp
    refine ⟨ino', mem_pop.mpr ⟨hm, ?_⟩⟩
    rintro rfl
    have := hfree sid hm
    omega

/-- What is not registered does not count. -/
theorem Exact.modState_free (h : Exact cfg held w) (hno : ∀ ino, (ino, sid) ∉ w.states)
    (f : FileState Sha → FileState Sha) : Exact cfg held (w.modState sid f) :=
  h.modState (fun ino hm => absurd hm (hno ino)) (fun _ _ => rfl) (h.held sid)

theorem Exact.closeState (h : Exact cfg held w) (hno : ∀ ino, (ino, sid) ∉ w.states) :
    Exact cfg held (w.closeState sid) :=
  let h' := h.modState_free hno fun st => { st with closed := true }
  ⟨h'.keys, fun ino sid hm => (h'.entry ino sid hm).congr le_rfl rfl, h'.held⟩

section OnState

variable {ts : Nat → Tick} {α : Type}

/-- Code on one state keeps the counts, if the state has handles or is not registered. -/
theorem Exact.onState (h : Exact cfg held w) {m : FileRun Sha α}
    (hm : Keeps (fun c => c.st.frozen) m)
    (hfree : ∀ ino, (ino, sid) ∈ w.states → 0 < held sid) :
    Wp ts (onState sid m) (fun _ w' => Exact cfg held w' ∧ w'.states = w.states ∧
      (w'.heap sid).frozen = (w.heap sid).frozen) w := by
  intro n
  have hfrozen : (m ts n (w.view sid)).2.2.st.frozen = (w.heap sid).frozen := hm ts n (w.view sid)
  have hself : (Writeback.onState sid m ts n w).2.2.heap sid = (m ts n (w.view sid)).2.2.st :=
    Function.update_self _ _ _
  refine ⟨⟨h.keys, fun ino sid' hm' => ?_, h.held⟩, rfl, (congrArg _ hself).trans hfrozen⟩
  by_cases hs : sid' = sid
  · subst hs
    have he := h.entry ino sid' hm'
    refine ⟨he.lt, ?_, ?_, ?_, fun h0 => absurd h0 (hfree ino hm').ne'⟩
    · rw [hself]
      exact (congrArg Prod.fst hfrozen).trans he.ino
    · rw [hself]
      exact (congrArg (fun q : Ino × Nat × Bool × Int × Time => q.2.2.1) hfrozen).trans he.opened
    · rw [hself]
      exact (congrArg (fun q : Ino × Nat × Bool × Int × Time => q.2.2.2.1) hfrozen).trans he.count
  · exact (h.entry ino sid' hm').congr le_rfl (Function.update_of_ne hs _ _)

end OnState

/-! ## The sections under the manager's lock -/

theorem Exact.openLocked (h : Exact cfg held w) (ino : Ino) :
    (ino, (w.openLocked ino).1) ∈ (w.openLocked ino).2.states ∧
      Exact cfg (bump held (w.openLocked ino).1) (w.openLocked ino).2 := by
  cases hget : w.get ino with
  | some sid =>
    have hm := mem_of_get hget
    rw [openLocked_old hget]
    refine ⟨hm, ?_⟩
    change Exact cfg (bump held sid)
      (w.modState sid fun st => { st with refcount := st.refcount + 1 })
    refine h.modState (fun ino' hm' => ?_) (fun sid' hs => Function.update_of_ne hs _ _)
      fun _ => ⟨ino, hm⟩
    have he := h.entry ino' sid hm'
    have hself := w.heap_modState sid fun st => { st with refcount := st.refcount + 1 }
    refine ⟨he.lt, ?_, ?_, ?_, ?_⟩
    · rw [hself]
      exact he.ino
    · rw [hself]
      exact he.opened
    · rw [hself, bump, Function.update_self]
      change (w.heap sid).refcount + 1 = _
      rw [he.count]
      push_cast
      rfl
    · intro h0
      rw [bump, Function.update_self] at h0
      omega
  | none =>
    have hnew : ∀ ino', (ino', w.nextState) ∉ w.states :=
      fun ino' hm => absurd (h.entry ino' _ hm).lt (lt_irrefl _)
    have hzero : held w.nextState = 0 := by
      by_contra hne
      obtain ⟨ino', hm⟩ := h.held w.nextState (Nat.pos_of_ne_zero hne)
      exact hnew ino' hm
    obtain ⟨gen, nextGen, ho, -⟩ := openLocked_new hget
    rw [ho]
    refine ⟨List.mem_append_right _ (List.mem_singleton_self _), ?_, fun ino' sid hm => ?_,
      fun sid hp => ?_⟩
    · rw [List.map_append, List.nodup_append]
      refine ⟨h.keys, by simp, ?_⟩
      intro a ha b hb hab
      obtain ⟨⟨_, sid⟩, hm, rfl⟩ := List.mem_map.mp ha
      simp only [List.map_cons, List.map_nil, List.mem_singleton] at hb
      exact not_mem_of_get hget sid (hab.trans hb ▸ hm)
    · rcases List.mem_append.mp hm with hm | hm
      · have hne : sid ≠ w.nextState := (h.entry ino' sid hm).lt.ne
        rw [bump, Function.update_of_ne hne]
        exact (h.entry ino' sid hm).congr (Nat.le_succ _) (Function.update_of_ne hne _ _)
      · obtain ⟨rfl, rfl⟩ := Prod.mk.inj (List.mem_singleton.mp hm)
        refine ⟨Nat.lt_succ_self _, ?_, ?_, ?_, ?_⟩
        · simp
        · simp
        · simp [bump, hzero]
        · simp [bump]
    · by_cases hs : sid = w.nextState
      · subst hs
        exact ⟨ino, List.mem_append_right _ (List.mem_singleton_self _)⟩
      · rw [bump, Function.update_of_ne hs] at hp
        obtain ⟨ino', hm⟩ := h.held sid hp
        exact ⟨ino', List.mem_append_left _ hm⟩

/-- A handle is given back. The state stays with its other handles, or with something to flush,
or it leaves the table. -/
theorem Exact.releaseLocked (h : Exact cfg (bump held sid) w) (hm : (ino, sid) ∈ w.states)
    (now : Time) :
    Exact cfg held (w.releaseLocked cfg now sid).2 ∧
      ((w.releaseLocked cfg now sid).1 = true →
        ∀ ino, (ino, sid) ∉ (w.releaseLocked cfg now sid).2.states) := by
  have he := h.entry ino sid hm
  have hcount : (w.heap sid).refcount - 1 = held sid := by
    rw [he.count, bump, Function.update_self]
    push_cast
    omega
  have hother : ∀ sid', sid' ≠ sid → held sid' = bump held sid sid' :=
    fun sid' hs => (Function.update_of_ne hs _ _).symm
  have hino : ∀ ino', (ino', sid) ∈ w.states → ino' = ino := by
    intro ino' hm'
    rw [← (h.entry ino' sid hm').ino, he.ino]
  unfold Writeback.releaseLocked
  simp only [heap_modState, hcount]
  split
  case isTrue hpos =>
    refine ⟨?_, by simp⟩
    change Exact cfg held (w.modState sid fun st => { st with refcount := st.refcount - 1 })
    refine h.modState (fun ino' hm' => ?_) hother fun _ => ⟨ino, hm⟩
    refine ⟨he.lt, ?_, ?_, ?_, fun h0 => ?_⟩
    · rw [heap_modState]
      exact he.ino.trans (hino ino' hm').symm
    · rw [heap_modState]
      exact he.opened
    · rw [heap_modState]
      exact hcount
    · omega
  case isFalse hzero =>
    split
    case isTrue hdirty =>
      have hset : (w.modState sid fun st => { st with refcount := st.refcount - 1 }).modState sid
          (fun st => { st with idleSince := now }) = w.modState sid fun st =>
            { st with refcount := st.refcount - 1, idleSince := now } := by
        unfold Writeback.modState
        simp only [Function.update_self, Function.update_idem]
      rw [hset]
      refine ⟨?_, by simp⟩
      change Exact cfg held (w.modState sid fun st =>
        { st with refcount := st.refcount - 1, idleSince := now })
      refine h.modState (fun ino' hm' => ?_) hother fun _ => ⟨ino, hm⟩
      refine ⟨he.lt, ?_, ?_, ?_, fun _ => ⟨hdirty.1, ?_⟩⟩
      · rw [heap_modState]
        exact he.ino.trans (hino ino' hm').symm
      · rw [heap_modState]
        exact he.opened
      · rw [heap_modState]
        exact hcount
      · rw [heap_modState]
        exact hdirty.2
    case isFalse =>
      have hzero' : held sid = 0 := by omega
      have hno : ∀ ino', (ino', sid) ∉ (w.pop ino).states := by
        intro ino' hm'
        obtain ⟨hm', hne⟩ := mem_pop.mp hm'
        exact hne (hino ino' hm')
      have hpop : Exact cfg held (w.pop ino) := by
        refine ⟨h.keys.sublist (List.filter_sublist.map _), fun ino' sid' hm' => ?_,
          fun sid' hp => ?_⟩
        · have hs : sid' ≠ sid := by
            rintro rfl
            exact hno ino' hm'
          rw [hother sid' hs]
          exact (h.entry ino' sid' (mem_pop.mp hm').1).congr le_rfl rfl
        · have hs : sid' ≠ sid := by
            rintro rfl
            omega
          rw [hother sid' hs] at hp
          obtain ⟨ino', hm'⟩ := h.held sid' hp
          refine ⟨ino', mem_pop.mpr ⟨hm', ?_⟩⟩
          rintro rfl
          exact hs (h.unique hm' hm)
      have hfree := hpop.modState_free hno fun st => { st with refcount := st.refcount - 1 }
      have hi : (w.heap sid).ino = ino := he.ino
      simp only [hi]
      exact ⟨hfree, fun _ => hno⟩

/-! ## The methods -/

section Methods

variable [DecidableEq Sha] [Sha256 Sha] {ts : Nat → Tick}

/-- An open that returns has counted the handle to come. -/
theorem Exact.openFile (h : Exact cfg held w) (ino : Ino) (forWrite : Bool) :
    Wp ts (openFile cfg ino forWrite) (fun r w' => ∀ sid, r = .ok sid →
      (ino, sid) ∈ w'.states ∧ Exact cfg (bump held sid) w') w := by
  unfold Writeback.openFile
  rw [Run.wp_modifyGet_bind]
  obtain ⟨hm, hs⟩ := h.openLocked ino
  generalize Writeback.openLocked ino w = o at hm hs ⊢
  cases forWrite with
  | false =>
    refine Run.wp_pure.mpr fun sid he => ?_
    cases he
    exact ⟨hm, hs⟩
  | true =>
    have hpos : ∀ ino', (ino', o.1) ∈ o.2.states → 0 < bump held o.1 o.1 := by
      intro _ _
      rw [bump, Function.update_self]
      exact Nat.succ_pos _
    refine Wp.bind ((hs.onState (Wb.frozen_aside.keeps_materialize cfg) hpos).mono ?_)
    intro r w' h'
    obtain ⟨hs', hstates, -⟩ := h'
    cases r with
    | error e => simp
    | ok u =>
      refine Run.wp_pure.mpr fun sid he => ?_
      cases he
      exact ⟨hstates ▸ hm, hs'⟩

theorem Exact.release (h : Exact cfg (bump held sid) w) (hm : (ino, sid) ∈ w.states) :
    Wp ts (release cfg sid) (fun _ w' => Exact cfg held w') w := by
  refine Run.Wp.tick_bind fun n => ?_
  rw [Run.wp_modifyGet_bind]
  obtain ⟨hs, hlast⟩ := h.releaseLocked hm (ts n).now
  generalize Writeback.releaseLocked cfg (ts n).now sid w = o at hs hlast ⊢
  split
  case isFalse => exact Run.wp_pure.mpr hs
  case isTrue hl =>
    have hno := hlast hl
    refine Wp.bind ((hs.onState (Wb.frozen_aside.keeps_flushLocked cfg)
      fun ino hm => absurd hm (hno ino)).mono ?_)
    intro r w' h'
    obtain ⟨hs', hstates, -⟩ := h'
    cases r with
    | error e => exact hs'
    | ok u => exact Run.wp_modify.mpr (hs'.closeState fun ino => hstates ▸ hno ino)

/-- `truncate_path`, once it has opened the file. -/
theorem Exact.truncatePath (h : Exact cfg held w) (ino : Ino) (length n : Nat)
    (hopen : ∃ sid, (Writeback.openFile cfg ino true ts n w).1 = .ok sid) :
    Exact cfg held (truncatePath cfg ino length ts n w).2.2 := by
  obtain ⟨sid, hok⟩ := hopen
  have ho := @Exact.openFile Sha cfg held w _ _ ts h ino true n
  rcases hrun : Writeback.openFile cfg ino true ts n w with ⟨r, n₁, w₁⟩
  rw [hrun] at hok ho
  simp only at hok
  subst hok
  obtain ⟨hm, hs⟩ := ho sid rfl
  have hpos : ∀ ino', (ino', sid) ∈ w₁.states → 0 < bump held sid sid := by
    intro _ _
    rw [bump, Function.update_self]
    exact Nat.succ_pos _
  unfold Writeback.truncatePath
  rw [Run.bind_run_ok hrun]
  have hbody : Wp ts (do
      Writeback.onState sid (Wb.truncate cfg length)
      Writeback.onState sid (Wb.flush cfg)) (fun _ w' => Exact cfg (bump held sid) w' ∧
        (ino, sid) ∈ w'.states) w₁ := by
    refine Wp.bind ((hs.onState (Wb.frozen_aside.keeps_truncate cfg length) hpos).mono ?_)
    intro r w₂ h₂
    obtain ⟨hs₂, hst₂, -⟩ := h₂
    cases r with
    | error e => exact ⟨hs₂, hst₂ ▸ hm⟩
    | ok u =>
      refine (hs₂.onState (Wb.frozen_aside.keeps_flush cfg) fun ino' hm' => hpos ino' (hst₂ ▸ hm')).mono ?_
      intro r w₃ h₃
      obtain ⟨hs₃, hst₃, -⟩ := h₃
      exact ⟨hs₃, hst₃ ▸ hst₂ ▸ hm⟩
  have hend : Wp ts (Run.andFinally (do
      Writeback.onState sid (Wb.truncate cfg length)
      Writeback.onState sid (Wb.flush cfg)) (Writeback.release cfg sid)) (fun _ w' => Exact cfg held w') w₁ := by
    refine Wp.andFinally (hbody.mono ?_)
    intro r w₂ h₂
    refine (h₂.1.release h₂.2).mono ?_
    intro r' w₃ h₃
    cases r' <;> exact h₃
  exact hend n₁

omit [DecidableEq Sha] [Sha256 Sha] in
theorem Exact.discard (h : Exact cfg held w) (hfree : ∀ sid, (ino, sid) ∈ w.states → held sid = 0) :
    Wp ts (discard ino) (fun _ w' => Exact cfg held w') w := by
  unfold Writeback.discard
  rw [Run.wp_modifyGet_bind]
  have hpop := h.pop hfree
  cases hget : w.get ino with
  | none => exact Run.wp_pure.mpr hpop
  | some sid =>
    have hm := mem_of_get hget
    have hno : ∀ ino', (ino', sid) ∉ (w.pop ino).states := by
      intro ino' hm'
      obtain ⟨hm', hne⟩ := mem_pop.mp hm'
      exact hne ((h.entry ino' sid hm').ino.symm.trans (h.entry ino sid hm).ino)
    rw [Run.wp_modify_bind, Run.wp_modify]
    exact (hpop.modState_free hno _).closeState hno

/-- What one candidate of the reaper comes to: the others stay as they are. -/
theorem Exact.reapState (h : Exact cfg held w) (hm : (ino, sid) ∈ w.states)
    (hzero : held sid = 0) :
    Wp ts (reapState cfg false sid) (fun r w' => Exact cfg held w' ∧
      (∀ ino' sid', sid' ≠ sid → (ino', sid') ∈ w.states → (ino', sid') ∈ w'.states) ∧
        ∃ o, r = .ok o) w := by
  have he := h.entry ino sid hm
  have hone : ∀ ino', (ino', sid) ∈ w.states → ino' = ino := by
    intro ino' hm'
    exact (h.entry ino' sid hm').ino.symm.trans he.ino
  have hflush : Wp ts (Writeback.onState sid (Wb.flushLocked cfg)) (fun r w' =>
      w'.states = w.states ∧ w'.nextState = w.nextState ∧
      (∀ sid', sid' ≠ sid → w'.heap sid' = w.heap sid') ∧
      (w'.heap sid).frozen = (w.heap sid).frozen ∧
      ((∃ e, r = .error e) → (w'.heap sid).dirty = (w.heap sid).dirty)) w := by
    intro n
    have hself : (Writeback.onState sid (Wb.flushLocked cfg) ts n w).2.2.heap sid =
        (Wb.flushLocked cfg ts n (w.view sid)).2.2.st := Function.update_self _ _ _
    refine ⟨rfl, rfl, fun sid' hs => Function.update_of_ne hs _ _,
      (congrArg _ hself).trans (Wb.frozen_aside.keeps_flushLocked cfg ts n (w.view sid)), ?_⟩
    intro hr
    obtain ⟨e, hr⟩ := hr
    have hd := Clients.wp_flush_dirty cfg ts (w.view sid) n
    have hr' : (Wb.flushLocked cfg ts n (w.view sid)).1 = .error e := hr
    rw [hr'] at hd
    rw [hself]
    exact hd
  unfold Writeback.reapState
  refine Wp.bind (Run.Wp.tryCatch (Wp.bind (hflush.mono ?_)))
  intro r w₁ h₁
  obtain ⟨hstates, hnext, hother, hfrozen, hdirty⟩ := h₁
  have hino : (w₁.heap sid).ino = ino := (congrArg Prod.fst hfrozen).trans he.ino
  have hcount : (w₁.heap sid).refcount = 0 := by
    have hc : (w₁.heap sid).refcount = (w.heap sid).refcount :=
      congrArg (fun q : Ino × Nat × Bool × Int × Time => q.2.2.2.1) hfrozen
    rw [hc, he.count, hzero]
    rfl
  cases r with
  | error e =>
    refine Run.Wp.tick_bind fun n => ?_
    rw [Run.wp_modify_bind]
    have hopen : (w₁.heap sid).closed = false :=
      (congrArg (fun q : Ino × Nat × Bool × Int × Time => q.2.2.1) hfrozen).trans he.opened
    refine Run.wp_pure.mpr (Run.wp_pure.mpr ⟨⟨?_, fun ino' sid' hm' => ?_, fun sid' hp => ?_⟩,
      fun ino' sid' _ hm' => (hstates ▸ hm' : (ino', sid') ∈ w₁.states), some e, rfl⟩)
    · change (w₁.states.map Prod.fst).Nodup
      rw [hstates]
      exact h.keys
    · have hm₁ : (ino', sid') ∈ w.states := hstates ▸ hm'
      by_cases hs : sid' = sid
      · subst hs
        have hd := hdirty ⟨e, rfl⟩
        have hlt : sid' < w₁.nextState := hnext ▸ he.lt
        refine ⟨hlt, ?_, ?_, ?_, fun _ => ⟨(he.pending hzero).1, ?_⟩⟩
        · rw [heap_modState]
          exact hino.trans (hone ino' hm₁).symm
        · rw [heap_modState]
          exact hopen
        · rw [heap_modState, hzero]
          exact hcount
        · rw [heap_modState]
          exact hd.trans (he.pending hzero).2
      · exact (h.entry ino' sid' hm₁).congr hnext.ge
          ((heap_modState_ne _ hs _).trans (hother sid' hs))
    · obtain ⟨ino', hm'⟩ := h.held sid' hp
      exact ⟨ino', (hstates ▸ hm' : (ino', sid') ∈ w₁.states)⟩
  | ok u =>
    -- nobody holds the state, so that it leaves the table
    have hget : w₁.get (w₁.heap sid).ino = some sid := by
      rw [hino]
      exact get_of_mem (hstates ▸ h.keys) (hstates ▸ hm)
    refine Run.wp_pure.mpr ?_
    simp only
    rw [Run.wp_modifyGet_bind]
    unfold reapLocked
    rw [if_pos (show _ ∧ _ from ⟨hcount, hget⟩), if_pos rfl, Run.wp_modify_bind, hino]
    have hno : ∀ ino', (ino', sid) ∉ (w₁.pop ino).states := by
      intro ino' hm'
      obtain ⟨hm', hne⟩ := mem_pop.mp hm'
      exact hne (hone ino' (hstates ▸ hm'))
    have hpop : Exact cfg held (w₁.pop ino) := by
      refine ⟨?_, fun ino' sid' hm' => ?_, fun sid' hp => ?_⟩
      · have hkeys : (w₁.states.map Prod.fst).Nodup := by
          rw [hstates]
          exact h.keys
        exact hkeys.sublist (List.filter_sublist.map _)
      · have hs : sid' ≠ sid := by
          rintro rfl
          exact hno ino' hm'
        exact (h.entry ino' sid' (hstates ▸ (mem_pop.mp hm').1)).congr hnext.ge (hother sid' hs)
      · obtain ⟨ino', hm'⟩ := h.held sid' hp
        refine ⟨ino', mem_pop.mpr ⟨(hstates ▸ hm' : (ino', sid') ∈ w₁.states), ?_⟩⟩
        rintro rfl
        have := h.unique hm hm'
        subst this
        omega
    refine Run.wp_pure.mpr ⟨hpop.closeState hno, fun ino' sid' hs hm' => ?_, none, rfl⟩
    refine mem_pop.mpr ⟨(hstates ▸ hm' : (ino', sid') ∈ w₁.states), ?_⟩
    rintro rfl
    exact hs (h.unique hm' hm)

theorem Exact.reapEach {sids : List StateId} (h : Exact cfg held w) (hn : sids.Nodup)
    (hm : ∀ sid ∈ sids, held sid = 0 ∧ ∃ ino, (ino, sid) ∈ w.states) :
    Wp ts (reapEach cfg false sids) (fun _ w' => Exact cfg held w') w := by
  induction sids generalizing w with
  | nil => exact Run.wp_pure.mpr h
  | cons sid sids ih =>
    obtain ⟨hns, hn'⟩ := List.nodup_cons.mp hn
    obtain ⟨hzero, ino, hm₀⟩ := hm sid List.mem_cons_self
    refine Wp.bind_ok ((h.reapState hm₀ hzero).mono ?_)
    intro r w₁ h₁
    obtain ⟨h₁, hkeep, o, rfl⟩ := h₁
    refine ⟨o, rfl, Wp.bind ((ih h₁ hn' ?_).mono ?_)⟩
    · intro sid' hs'
      obtain ⟨hz, ino', hm'⟩ := hm sid' (List.mem_cons_of_mem _ hs')
      refine ⟨hz, ino', hkeep ino' sid' ?_ hm'⟩
      rintro rfl
      exact hns hs'
    · intro r w₂ h₂
      cases r with
      | error e => exact h₂
      | ok l => exact Run.wp_pure.mpr h₂

theorem Exact.reapOnce (h : Exact cfg held w) (n : Nat) :
    Exact cfg held (reapOnce cfg false ts n w).2.2 := by
  refine h.reapEach ?_ ?_ (n + 1)
  · refine List.Nodup.filter _ (List.Nodup.map_on ?_ h.keys.of_map)
    rintro ⟨ino, sid⟩ hm ⟨ino', sid'⟩ hm' (rfl : sid = sid')
    rw [← (h.entry ino sid hm).ino, (h.entry ino' sid hm').ino]
  · intro sid hs
    obtain ⟨hmem, hc⟩ := List.mem_filter.mp hs
    obtain ⟨⟨ino, sid'⟩, hm, rfl⟩ := List.mem_map.mp hmem
    simp only [decide_eq_true_eq] at hc
    have hcount := (h.entry ino sid' hm).count
    rw [hc.1] at hcount
    exact ⟨by simpa using hcount.symm, ino, hm⟩

/-! ## Opening for writing -/

/-- An open of `ino` for writing that starts at tick `n` does not fail to switch the file to write
mode: it already is in write mode, its rows lie on the grid of the chunk size, or all its chunks
arrive. -/
def Rechunks (cfg : WbConfig) (ts : Nat → Tick) (n : Nat) (ino : Ino) (w : Writeback Sha) : Prop :=
  (∃ sid, w.get ino = some sid ∧ (w.heap sid).materialized = true) ∨
  aligned cfg.chunkSize ((w.store.index.getChunks ino).map BaseChunk.ofRow) = true ∨
  ∀ k < (w.store.index.getChunks ino).length, (ts (n + 2 * k + 1)).downloadFails = false

theorem Exact.openFile_ok (h : Exact cfg held w) (hs : w.store.Accounted) {ino : Ino} {n : Nat}
    {inode : Inode} (hi : w.store.index.getInode ino = some inode) {forWrite : Bool}
    (hload : forWrite = true → Rechunks cfg ts n ino w) :
    ∃ sid, (Writeback.openFile cfg ino forWrite ts n w).1 = .ok sid := by
  cases forWrite with
  | false => exact ⟨_, rfl⟩
  | true =>
    obtain ⟨hm, hex⟩ := h.openLocked ino
    have he := hex.entry _ _ hm
    have hmat : (Wb.materialize cfg ts n ((w.openLocked ino).2.view (w.openLocked ino).1)).1 =
        .ok () := by
      have hino : ((w.openLocked ino).2.view (w.openLocked ino).1).st.ino = ino := he.ino
      have hst : ((w.openLocked ino).2.view (w.openLocked ino).1).store = w.store :=
        openLocked_store ino w
      apply Wb.materialize_ok
      · rw [hst]
        exact hs
      · exact he.opened
      · rw [hst, hino]
        exact hi
      · rw [hst, hino]
        rcases hload rfl with ⟨sid, hget, hd⟩ | hd
        · left
          rw [openLocked_old hget]
          have hself := w.heap_modState sid fun st => { st with refcount := st.refcount + 1 }
          exact (congrArg FileState.materialized hself).trans hd
        · exact .inr hd
    refine ⟨(w.openLocked ino).1, ?_⟩
    unfold Writeback.openFile
    rw [Run.bind_run_ok (show Run.modifyGet (Writeback.openLocked ino) ts n w =
      (.ok (w.openLocked ino).1, n, (w.openLocked ino).2) from rfl), if_pos rfl]
    rcases hrun : Writeback.onState (w.openLocked ino).1 (Wb.materialize cfg) ts n
      (w.openLocked ino).2 with ⟨r, n₁, w₁⟩
    have hr : r = .ok () := (congrArg Prod.fst hrun).symm.trans hmat
    subst hr
    rw [Run.bind_run_ok hrun]
    rfl

omit [DecidableEq Sha] [Sha256 Sha] in
theorem Bare.rechunks (h : w.Bare ino) (n : Nat) : Rechunks cfg ts n ino w := by
  obtain ⟨sid, hget, hempty⟩ | ⟨-, hsaved⟩ := h
  · exact .inl ⟨sid, hget, hempty.materialized⟩
  · right
    left
    have hrows : w.store.index.getChunks ino = [] := congrArg Prod.fst hsaved
    rw [hrows]
    rfl

/-- Behind a truncate to nothing an open for writing has nothing to load. -/
theorem Exact.truncatePath_nothing (h : Exact cfg held w) {ino : Ino} {inode : Inode}
    (hi : w.store.index.getInode ino = some inode) :
    Wp ts (Writeback.truncatePath cfg ino 0)
      (fun r w' => ∀ u, r = .ok u → ∀ n, Rechunks cfg ts n ino w') w := by
  obtain ⟨hm, hs⟩ := h.openLocked ino
  obtain ⟨-, row, hrow, -⟩ := Meta.getInode_eq_some hi
  refine (wp_truncatePath_bare (hs.entry _ _ hm).ino hrow).mono fun r w' hbare u hu => ?_
  exact (hbare u hu).rechunks

end Methods

end Writeback

end Tgfs
