import Tgfs.Cache.Proofs.Contents
import Tgfs.Cache.Proofs.Reaper

/-!
# The flush at shutdown

`shutdown` makes one forced pass of the reaper over all registered states. A pass that is not
forced logs a flush that fails and goes on; a forced pass raises there. So the two passes agree
up to the first failure, and which flushes would fail is read off the pass that goes on.
-/

namespace Tgfs

open Run (Wp)

variable {Sha : Type} [DecidableEq Sha] [Sha256 Sha]

/-! ## One flush that may fail -/

/-- What a flush of the state is to store: the temp file, cut or extended to the size of the
state, in chunks of which those that are not dirty keep their rows. -/
def pendingRows (cfg : WbConfig) (c : FileCtx Sha) : List (Chunk Sha) :=
  (List.range (chunkCount cfg.chunkSize c.st.size)).map
    (gridRow cfg.chunkSize (some c.st.dirtyIdx) (c.store.index.getChunks c.st.ino)
      (resize c.temp c.st.size))

/-- The pending content of the state is stored. -/
def Stored (cfg : WbConfig) (c : FileCtx Sha) (s : Store Sha) : Prop :=
  s.index.getChunks c.st.ino = pendingRows cfg c ∧
    (s.index.inodes c.st.ino).map (·.size) =
      (c.store.index.inodes c.st.ino).map fun _ => c.st.size

theorem Stored.holds {cfg : WbConfig} {c : FileCtx Sha} {s : Store Sha} {ref : Bytes}
    (hinj : Function.Injective (sha256 : Bytes → Sha)) (hs : s.Accounted) (h : Stored cfg c s)
    (hd : c.st.dirty = true) (hv : View cfg.chunkSize c ref) (hy : Synced cfg.chunkSize c ref)
    (hn : NoStaleRow cfg.chunkSize c) : s.Holds c.st.ino ref := by
  have hcs := cfg.chunkSize_pos
  apply Store.StoredAs.holds hcs hinj hs
  have hrows := hv.flushRows_eq hcs hy.clean hd hn
  obtain ⟨hstored, hsize⟩ := h
  obtain ⟨node, hnode⟩ := hy.inode
  rw [hnode, hv.size] at hsize
  obtain ⟨node', hnode', hlen⟩ := Option.map_eq_some_iff.mp hsize
  refine ⟨?_, node', hnode', hlen⟩
  rw [hstored, ← hrows]
  unfold pendingRows flushRows
  rw [hv.size]

theorem wp_flush_stores {cfg : WbConfig} {ts : Nat → Tick} {c : FileCtx Sha}
    (hts : ∀ n, (ts n).Quiet True) (hs : c.store.Accounted) (ho : c.st.closed = false) :
    Wp ts (Wb.flushLocked cfg) (fun r c' => c'.store.Accounted ∧
      Store.Framed c.st.ino c.store c'.store ∧
      (r = .ok () → c.st.dirty = true → Stored cfg c c'.store)) c := by
  unfold Wb.flushLocked
  rw [Wb.getState, Run.wp_gets_bind]
  cases hd : c.st.dirty with
  | false =>
    rw [if_neg (by simp)]
    exact Run.wp_pure.mpr ⟨hs, .refl _ _, by simp⟩
  | true =>
    rw [if_pos rfl]
    refine Wp.bind (Wb.wp_tempTruncate ho ?_)
    rw [Run.wp_gets_bind]
    refine Wp.bind (Wb.wp_call fun n => ?_)
    have hlen : (resize c.temp c.st.size).length = c.st.size := length_resize ..
    have hput := Store.seqRun_putFile (Wb.tempSrc c.st.closed (resize c.temp c.st.size))
      cfg.toStoreConfig c.st.ino c.st.size (some c.st.dirtyIdx) hs hts n
    unfold Stored pendingRows
    dsimp only
    generalize resize c.temp c.st.size = temp at hlen hput ⊢
    obtain ⟨hs', hfr, hpost⟩ := hput
    generalize Store.machine.seqRun (Wb.tempSrc c.st.closed temp) ts
      (Store.putFile cfg.toStoreConfig c.st.ino c.st.size (some c.st.dirtyIdx)) n c.store = out
      at hs' hfr hpost ⊢
    rcases out with ⟨r, n', s'⟩
    cases r with
    | error e => exact ⟨hs', hfr, by simp⟩
    | ok u =>
      rw [Wb.getRows]
      refine Run.wp_gets_bind.mpr (Wb.wp_setState.mpr ⟨hs', hfr, fun _ _ => ?_⟩)
      obtain ⟨new, off, now, hscan, hend, how⟩ := hpost
      rw [ho, ← hlen] at hscan hend
      obtain ⟨rfl, rfl⟩ := scan_rows hscan hend
      rw [hlen] at how
      constructor
      · exact congrArg Owned.rows how
      · have hinode : s'.index.inodes c.st.ino = (c.store.index.inodes c.st.ino).map fun n =>
          { n with size := c.st.size, mtime := now, ctime := now } := congrArg Owned.inode how
        rw [hinode, Option.map_map]
        rfl

/-! ## One state of the pass -/

namespace Writeback

variable {cfg : WbConfig} {ts : Nat → Tick} {sid : StateId} {n : Nat} {w : Writeback Sha}

/-- The reaper's second section, with the closing of the state. -/
def settle (sid : StateId) (w : Writeback Sha) : Writeback Sha :=
  if (w.reapLocked sid).1 then (w.reapLocked sid).2.closeState sid else (w.reapLocked sid).2

theorem reapState_ok {n' : Nat} {w' : Writeback Sha}
    (h : onState sid (Wb.flushLocked cfg) ts n w = (.ok (), n', w')) (force : Bool) :
    reapState cfg force sid ts n w = (.ok none, n', settle sid w') := by
  have htail : ∀ n₁ w₁, (do
      let done ← Run.modifyGet (reapLocked sid)
      if done then
        Run.modify (closeState sid)
        pure none
      else pure none : WbRun Sha (Option (PyErr Sha))) ts n₁ w₁ =
        (.ok none, n₁, settle sid w₁) := by
    intro n₁ w₁
    rw [Run.bind_run, Run.modifyGet]
    unfold settle
    dsimp only
    cases (w₁.reapLocked sid).1 <;> rfl
  unfold reapState
  rw [Run.bind_run, Run.tryCatch, Run.bind_run_ok h]
  exact htail n' w'

theorem reapState_error {n' : Nat} {w' : Writeback Sha} {e : PyErr Sha}
    (h : onState sid (Wb.flushLocked cfg) ts n w = (.error e, n', w')) (force : Bool) :
    reapState cfg force sid ts n w = (if force then .error e else .ok (some e), n' + 1,
      w'.modState sid fun st => { st with idleSince := (ts n').now }) := by
  unfold reapState
  rw [Run.bind_run, Run.tryCatch, Run.bind_run, h]
  cases force <;> rfl

/-- A state whose flush returns is treated alike in both kinds of pass. -/
theorem reapState_force (cfg : WbConfig) (ts : Nat → Tick) (sid : StateId) (n : Nat)
    (w : Writeback Sha) :
    (∃ n' w', ∀ force, reapState cfg force sid ts n w = (.ok none, n', w')) ∨
      ∃ e, (reapState cfg true sid ts n w).1 = .error e ∧
        (reapState cfg false sid ts n w).1 = .ok (some e) := by
  rcases h : onState sid (Wb.flushLocked cfg) ts n w with ⟨_ | _, n', w'⟩
  case ok => exact .inl ⟨n', settle sid w', reapState_ok h⟩
  case error e =>
    right
    refine ⟨e, ?_, ?_⟩
    · rw [reapState_error h]
      rfl
    · rw [reapState_error h]
      rfl

/-- A pass over `sids` finds open states of different inodes. -/
structure Visits (w : Writeback Sha) (sids : List StateId) : Prop where
  books : w.store.Accounted
  inos : (sids.map fun sid => (w.heap sid).ino).Nodup
  opened : ∀ sid ∈ sids, (w.heap sid).closed = false

omit [Sha256 Sha] [DecidableEq Sha] in
theorem store_settle (sid : StateId) (w : Writeback Sha) : (settle sid w).store = w.store := by
  unfold settle reapLocked
  split
  · rw [if_pos rfl]
    rfl
  · rfl

omit [Sha256 Sha] [DecidableEq Sha] in
theorem view_settle {sid' : StateId} (h : sid' ≠ sid) (w : Writeback Sha) :
    (settle sid w).view sid' = w.view sid' := by
  have hclose : ∀ w : Writeback Sha, (w.closeState sid).view sid' = w.view sid' := by
    intro w
    simp only [view, closeState, modState, Function.update_of_ne h]
  unfold settle reapLocked
  split
  · rw [if_pos rfl]
    exact hclose _
  · rfl

/-- Behind the visit of one state, what belongs to the other inodes is as it was. -/
structure Past (sid : StateId) (w w' : Writeback Sha) : Prop where
  books : w'.store.Accounted
  framed : Store.Framed (w.heap sid).ino w.store w'.store
  others : ∀ sid', (w.heap sid').ino ≠ (w.heap sid).ino → w'.heap sid' = w.heap sid' ∧
    (w'.view sid').temp = (w.view sid').temp

theorem wp_reapState (hts : ∀ n, (ts n).Quiet True) (hs : w.store.Accounted)
    (ho : (w.heap sid).closed = false) (force : Bool) :
    Wp ts (reapState cfg force sid) (fun r w' => Past sid w w' ∧
      (r = .ok none → (w.heap sid).dirty = true → Stored cfg (w.view sid) w'.store)) w := by
  intro n
  have hflush := @wp_flush_stores Sha _ _ cfg ts (w.view sid) hts hs ho n
  obtain ⟨hs', hfr, hstored⟩ := hflush
  have hother : ∀ sid', (w.heap sid').ino ≠ (w.heap sid).ino →
      (onState sid (Wb.flushLocked cfg) ts n w).2.2.heap sid' = w.heap sid' ∧
      ((onState sid (Wb.flushLocked cfg) ts n w).2.2.view sid').temp = (w.view sid').temp := by
    intro sid' hne
    have hsid : sid' ≠ sid := ne_of_apply_ne (fun sid => (w.heap sid).ino) hne
    have hh : (onState sid (Wb.flushLocked cfg) ts n w).2.2.heap sid' = w.heap sid' :=
      Function.update_of_ne hsid _ _
    refine ⟨hh, ?_⟩
    unfold view
    rw [hh]
    exact Function.update_of_ne (fun he => hne (Prod.mk.inj he).1) _ _
  rcases h : onState sid (Wb.flushLocked cfg) ts n w with ⟨r, n', w'⟩
  have hst : (Wb.flushLocked cfg ts n (w.view sid)).2.2.store = w'.store :=
    congrArg (fun o => o.2.2.store) h
  have hres : (Wb.flushLocked cfg ts n (w.view sid)).1 = r := congrArg Prod.fst h
  rw [hst] at hs' hfr hstored
  rw [hres] at hstored
  rw [h] at hother
  cases r with
  | ok u =>
    rw [reapState_ok h]
    have hstore := store_settle sid w'
    refine ⟨⟨hstore ▸ hs', hstore ▸ hfr, fun sid' hne => ?_⟩, fun _ hd => ?_⟩
    · obtain ⟨hh, htemp⟩ := hother sid' hne
      have hv := view_settle (ne_of_apply_ne (fun sid => (w.heap sid).ino) hne) w'
      exact ⟨(congrArg FileCtx.st hv).trans hh, (congrArg FileCtx.temp hv).trans htemp⟩
    · rw [hstore]
      exact hstored rfl hd
  | error e =>
    rw [reapState_error h]
    refine ⟨⟨hs', hfr, fun sid' hne => ?_⟩, fun hr => ?_⟩
    · obtain ⟨hh, htemp⟩ := hother sid' hne
      have hm := heap_modState_ne w' (ne_of_apply_ne (fun sid => (w.heap sid).ino) hne)
        fun st => { st with idleSince := (ts n').now }
      refine ⟨hm.trans hh, ?_⟩
      unfold view at htemp ⊢
      rw [hm]
      exact htemp
    · cases force <;> cases hr

/-! ## The pass -/

variable {sids : List StateId}

/-- The states whose flush raises, in a pass that goes on behind each of them. -/
def failures (cfg : WbConfig) (ts : Nat → Tick) : List StateId → Nat → Writeback Sha → List StateId
  | [], _, _ => []
  | sid :: sids, n, w =>
    let (r, n', w') := reapState cfg false sid ts n w
    match r with
    | .ok none => failures cfg ts sids n' w'
    | _ => sid :: failures cfg ts sids n' w'

/-- The states whose flush a forced pass calls. -/
def attempts (cfg : WbConfig) (ts : Nat → Tick) : List StateId → Nat → Writeback Sha → List StateId
  | [], _, _ => []
  | sid :: sids, n, w =>
    let (r, n', w') := reapState cfg true sid ts n w
    match r with
    | .ok _ => sid :: attempts cfg ts sids n' w'
    | .error _ => [sid]

/-- The pass behind a state that raised nothing. -/
theorem reapEach_state {n' : Nat} {w' : Writeback Sha} {force : Bool} {o : Option (PyErr Sha)}
    (h : reapState cfg force sid ts n w = (.ok o, n', w')) :
    (reapEach cfg force (sid :: sids) ts n w).2.2 = (reapEach cfg force sids ts n' w').2.2 := by
  have hcons : (reapEach cfg force (sid :: sids) : WbRun Sha _) = (do
      let raised ← reapState cfg force sid
      let rest ← reapEach cfg force sids
      pure (raised.toList ++ rest)) := rfl
  rw [hcons, Run.bind_run_ok h, Run.bind_run]
  rcases reapEach cfg force sids ts n' w' with ⟨_ | _, n'', w''⟩ <;> rfl

theorem failures_ok {n' : Nat} {w' : Writeback Sha}
    (h : reapState cfg false sid ts n w = (.ok none, n', w')) :
    failures cfg ts (sid :: sids) n w = failures cfg ts sids n' w' := by
  rw [failures, h]

theorem failures_error {e : PyErr Sha} (h : (reapState cfg false sid ts n w).1 = .ok (some e)) :
    failures cfg ts (sid :: sids) n w = sid :: failures cfg ts sids
      (reapState cfg false sid ts n w).2.1 (reapState cfg false sid ts n w).2.2 := by
  rw [failures]
  rcases hr : reapState cfg false sid ts n w with ⟨r, n', w'⟩
  rw [hr] at h
  obtain rfl : r = .ok (some e) := h
  rfl

theorem attempts_ok {n' : Nat} {w' : Writeback Sha} {o : Option (PyErr Sha)}
    (h : reapState cfg true sid ts n w = (.ok o, n', w')) :
    attempts cfg ts (sid :: sids) n w = sid :: attempts cfg ts sids n' w' := by
  rw [attempts, h]

theorem attempts_error {e : PyErr Sha} (h : (reapState cfg true sid ts n w).1 = .error e) :
    attempts cfg ts (sid :: sids) n w = [sid] := by
  rw [attempts]
  rcases hr : reapState cfg true sid ts n w with ⟨r, n', w'⟩
  rw [hr] at h
  obtain rfl : r = .error e := h
  rfl

theorem mem_of_failures {sid : StateId} (h : sid ∈ failures cfg ts sids n w) : sid ∈ sids := by
  induction sids generalizing n w with
  | nil => exact h
  | cons sid' sids ih =>
    rcases reapState_force cfg ts sid' n w with ⟨n', w', hok⟩ | ⟨e, -, herr⟩
    · rw [failures_ok (hok false)] at h
      exact List.mem_cons_of_mem _ (ih h)
    · rw [failures_error herr] at h
      rcases List.mem_cons.mp h with rfl | h
      · exact List.mem_cons_self
      · exact List.mem_cons_of_mem _ (ih h)

theorem mem_of_attempts {sid : StateId} (h : sid ∈ attempts cfg ts sids n w) : sid ∈ sids := by
  induction sids generalizing n w with
  | nil => exact h
  | cons sid' sids ih =>
    rcases reapState_force cfg ts sid' n w with ⟨n', w', hok⟩ | ⟨e, herr, -⟩
    · rw [attempts_ok (hok true)] at h
      rcases List.mem_cons.mp h with rfl | h
      · exact List.mem_cons_self
      · exact List.mem_cons_of_mem _ (ih h)
    · rw [attempts_error herr, List.mem_singleton] at h
      exact h ▸ List.mem_cons_self

/-- What the pass has passed does not concern the states that it still has to visit. -/
theorem Visits.ne (hv : Visits w (sid :: sids)) {sid' : StateId}
    (hm : sid' ∈ sids) : (w.heap sid').ino ≠ (w.heap sid).ino := by
  obtain ⟨hn, -⟩ := List.nodup_cons.mp hv.inos
  intro he
  exact hn (List.mem_map.mpr ⟨sid', hm, he⟩)

theorem Visits.ne_sid (hv : Visits w (sid :: sids)) : sid ∉ sids :=
  fun hm => hv.ne hm rfl

theorem Past.visits {w' : Writeback Sha} (h : Past sid w w') (hv : Visits w (sid :: sids)) :
    Visits w' sids where
  books := h.books
  inos := by
    obtain ⟨-, hn⟩ := List.nodup_cons.mp hv.inos
    have heq : (sids.map fun sid' => (w'.heap sid').ino) = sids.map fun sid' => (w.heap sid').ino :=
      List.map_congr_left fun sid' hm => by rw [(h.others sid' (hv.ne hm)).1]
    rw [heq]
    exact hn
  opened sid' hm := by
    rw [(h.others sid' (hv.ne hm)).1]
    exact hv.opened sid' (List.mem_cons_of_mem _ hm)

theorem Past.stored {w' : Writeback Sha} (h : Past sid w w') {sid' : StateId}
    (hne : (w.heap sid').ino ≠ (w.heap sid).ino) (s : Store Sha) :
    Stored cfg (w'.view sid') s ↔ Stored cfg (w.view sid') s := by
  obtain ⟨hst, htemp⟩ := h.others sid' hne
  have hst' : (w'.view sid').st = (w.view sid').st := hst
  unfold Stored pendingRows
  rw [hst', htemp]
  have hrows := h.framed.rows _ hne
  have hinodes := h.framed.inodes _ hne
  change _ ∧ _ = (w'.store.index.inodes (w.heap sid').ino).map _ ↔ _
  change _ = List.map (gridRow cfg.chunkSize _ (w'.store.index.getChunks (w.heap sid').ino) _) _ ∧
    _ ↔ _
  rw [hrows, hinodes]
  rfl

/-- What the pass does not visit is as it was. -/
theorem Visits.reapEach (hts : ∀ n, (ts n).Quiet True) (hv : Visits w sids) :
    Wp ts (reapEach cfg true sids) (fun _ w' => w'.store.Accounted ∧
      ∀ ino, (∀ sid ∈ sids, (w.heap sid).ino ≠ ino) →
        w'.store.index.getChunks ino = w.store.index.getChunks ino ∧
        w'.store.index.inodes ino = w.store.index.inodes ino) w := by
  induction sids generalizing w with
  | nil => exact Run.wp_pure.mpr ⟨hv.books, fun _ _ => ⟨rfl, rfl⟩⟩
  | cons sid sids ih =>
    have ho := hv.opened sid List.mem_cons_self
    refine Wp.bind ((wp_reapState hts hv.books ho true).mono ?_)
    intro r w₁ h₁
    obtain ⟨hp, -⟩ := h₁
    have hframe : ∀ ino, (∀ sid' ∈ sid :: sids, (w.heap sid').ino ≠ ino) →
        w₁.store.index.getChunks ino = w.store.index.getChunks ino ∧
        w₁.store.index.inodes ino = w.store.index.inodes ino := by
      intro ino hino
      have hne := hino sid List.mem_cons_self
      exact ⟨hp.framed.rows ino hne.symm, hp.framed.inodes ino hne.symm⟩
    cases r with
    | error e => exact ⟨hp.books, hframe⟩
    | ok o =>
      refine Wp.bind ((ih (hp.visits hv)).mono ?_)
      intro r w₂ h₂
      obtain ⟨hs₂, hframe₂⟩ := h₂
      have htotal : ∀ ino, (∀ sid' ∈ sid :: sids, (w.heap sid').ino ≠ ino) →
          w₂.store.index.getChunks ino = w.store.index.getChunks ino ∧
          w₂.store.index.inodes ino = w.store.index.inodes ino := by
        intro ino hino
        obtain ⟨hrows, hinode⟩ := hframe ino hino
        obtain ⟨hrows₂, hinode₂⟩ := hframe₂ ino fun sid' hm => by
          rw [(hp.others sid' (hv.ne hm)).1]
          exact hino sid' (List.mem_cons_of_mem _ hm)
        exact ⟨hrows₂.trans hrows, hinode₂.trans hinode⟩
      cases r with
      | error e => exact ⟨hs₂, htotal⟩
      | ok l => exact Run.wp_pure.mpr ⟨hs₂, htotal⟩

/-- What the pass attempts without a failure is stored. -/
theorem Visits.stored (hts : ∀ n, (ts n).Quiet True) (hv : Visits w sids) {sid : StateId}
    (hm : sid ∈ attempts cfg ts sids n w) (hf : sid ∉ failures cfg ts sids n w)
    (hd : (w.heap sid).dirty = true) :
    Stored cfg (w.view sid) (Writeback.reapEach cfg true sids ts n w).2.2.store := by
  induction sids generalizing n w with
  | nil => cases hm
  | cons sid' sids ih =>
    have ho := hv.opened sid' List.mem_cons_self
    have hstep := @wp_reapState Sha _ _ cfg ts sid' w hts hv.books ho true n
    rcases reapState_force cfg ts sid' n w with ⟨n', w', hok⟩ | ⟨e, herr, herr'⟩
    · rw [hok true] at hstep
      obtain ⟨hp, hhead⟩ := hstep
      rw [reapEach_state (hok true)]
      rw [attempts_ok (hok true)] at hm
      rw [failures_ok (hok false)] at hf
      rcases List.mem_cons.mp hm with rfl | hm
      · obtain ⟨-, hframe⟩ := @Visits.reapEach Sha _ _ cfg ts _ _ hts (hp.visits hv) n'
        obtain ⟨hrows, hinode⟩ := hframe (w.heap sid).ino fun sid' hm' => by
          rw [(hp.others sid' (hv.ne hm')).1]
          exact hv.ne hm'
        obtain ⟨hr, hi⟩ := hhead rfl hd
        exact ⟨hrows.trans hr, (congrArg (Option.map _) hinode).trans hi⟩
      · have hne := hv.ne (mem_of_attempts hm)
        rw [← hp.stored hne]
        refine ih (hp.visits hv) hm hf ?_
        rw [(hp.others sid hne).1]
        exact hd
    · rw [attempts_error herr, List.mem_singleton] at hm
      rw [failures_error herr', hm] at hf
      exact absurd List.mem_cons_self hf

/-- The pass reaches every state that is to be flushed, if and only if none of these stands behind
a state whose flush raises. -/
theorem Visits.attempts_iff (hts : ∀ n, (ts n).Quiet True) (hv : Visits w sids) :
    (∀ sid ∈ sids, (w.heap sid).dirty = true → sid ∈ attempts cfg ts sids n w) ↔
      ∀ x y, List.Sublist [x, y] sids → x ∈ failures cfg ts sids n w → (w.heap y).dirty = false := by
  induction sids generalizing n w with
  | nil => simp
  | cons sid sids ih =>
    have ho := hv.opened sid List.mem_cons_self
    have hstep := @wp_reapState Sha _ _ cfg ts sid w hts hv.books ho true n
    rcases reapState_force cfg ts sid n w with ⟨n', w', hok⟩ | ⟨e, herr, herr'⟩
    · rw [hok true] at hstep
      obtain ⟨hp, -⟩ := hstep
      have hdirty : ∀ sid' ∈ sids, (w'.heap sid').dirty = (w.heap sid').dirty :=
        fun sid' hm => by rw [(hp.others sid' (hv.ne hm)).1]
      have ih := ih (n := n') (hp.visits hv)
      rw [attempts_ok (hok true), failures_ok (hok false)]
      constructor
      · intro h x y hxy hx
        have htail : List.Sublist [x, y] sids := by
          rcases List.sublist_cons_iff.mp hxy with hxy | ⟨r, hr, -⟩
          · exact hxy
          · obtain ⟨rfl, -⟩ := List.cons.inj hr
            exact absurd (mem_of_failures hx) hv.ne_sid
        have hy : y ∈ sids := htail.subset (by simp)
        rw [← hdirty y hy]
        refine ih.mp (fun sid' hm hd => ?_) x y htail hx
        rcases List.mem_cons.mp (h sid' (List.mem_cons_of_mem _ hm) (hdirty sid' hm ▸ hd))
          with rfl | hatt
        · exact absurd hm hv.ne_sid
        · exact hatt
      · intro h sid' hm hd
        rcases List.mem_cons.mp hm with rfl | hm
        · exact List.mem_cons_self
        · refine List.mem_cons_of_mem _ (ih.mpr (fun x y hxy hx => ?_) sid' hm ?_)
          · rw [hdirty y (hxy.subset (by simp))]
            exact h x y (hxy.cons _) hx
          · rw [hdirty sid' hm]
            exact hd
    · rw [attempts_error herr, failures_error herr']
      constructor
      · intro h x y hxy hx
        have hy : y ∈ sids := by
          rcases List.sublist_cons_iff.mp hxy with hxy | ⟨r, hr, hr'⟩
          · exact hxy.subset (by simp)
          · obtain ⟨-, rfl⟩ := List.cons.inj hr
            exact hr'.subset (by simp)
        cases hd : (w.heap y).dirty with
        | false => rfl
        | true =>
          obtain rfl := List.mem_singleton.mp (h y (List.mem_cons_of_mem _ hy) hd)
          exact absurd hy hv.ne_sid
      · intro h sid' hm hd
        rcases List.mem_cons.mp hm with rfl | hm
        · exact List.mem_cons_self
        · have hclean := h sid sid' ((List.singleton_sublist.mpr hm).cons_cons sid)
            List.mem_cons_self
          rw [hclean] at hd
          cases hd

/-! ## Shutdown -/

/-- A set of registered states: one for each inode, each with its file object open. -/
structure Registered (w : Writeback Sha) : Prop where
  books : w.store.Accounted
  keys : (w.states.map (·.1)).Nodup
  entry : ∀ p ∈ w.states, (w.heap p.2).ino = p.1 ∧ (w.heap p.2).closed = false

/-- The order in which shutdown visits the states. -/
def order (w : Writeback Sha) : List StateId := w.states.map (·.2)

omit [Sha256 Sha] [DecidableEq Sha] in
theorem heap_zeroCounts (w : Writeback Sha) (sid : StateId) : w.zeroCounts.heap sid =
    { w.heap sid with refcount := (w.zeroCounts.heap sid).refcount } := by
  unfold zeroCounts
  dsimp only
  split <;> rfl

omit [Sha256 Sha] [DecidableEq Sha] in
theorem candidates_zeroCounts (cfg : WbConfig) (now : Time) (w : Writeback Sha) :
    w.zeroCounts.candidates cfg true now = w.order := by
  refine List.filter_eq_self.mpr fun sid hm => ?_
  obtain ⟨p, hp, rfl⟩ := List.mem_map.mp hm
  have hany : w.states.any (fun q => q.2 = p.2) = true :=
    List.any_eq_true.mpr ⟨p, hp, decide_eq_true rfl⟩
  simp [zeroCounts, hany]

theorem Registered.visits (h : Registered w) : Visits w.zeroCounts w.order where
  books := h.books
  inos := by
    have heq : w.order.map (fun sid => (w.zeroCounts.heap sid).ino) = w.states.map (·.1) := by
      unfold order
      rw [List.map_map]
      refine List.map_congr_left fun p hp => ?_
      change (w.zeroCounts.heap p.2).ino = p.1
      rw [heap_zeroCounts]
      exact (h.entry p hp).1
    rw [heq]
    exact h.keys
  opened sid hm := by
    obtain ⟨p, hp, rfl⟩ := List.mem_map.mp hm
    rw [heap_zeroCounts]
    exact (h.entry p hp).2

omit [DecidableEq Sha] in
theorem stored_zeroCounts (sid : StateId) (w : Writeback Sha) (s : Store Sha) :
    Stored cfg (w.zeroCounts.view sid) s ↔ Stored cfg (w.view sid) s := by
  unfold Stored pendingRows view
  rw [heap_zeroCounts]
  rfl

theorem store_shutdown (cfg : WbConfig) (ts : Nat → Tick) (n : Nat) (w : Writeback Sha) :
    (shutdown cfg ts n w).2.2 =
      (Writeback.reapEach cfg true w.order ts (n + 1) w.zeroCounts).2.2 := by
  have hpass : reapOnce cfg true ts n w.zeroCounts =
      Writeback.reapEach cfg true w.order ts (n + 1) w.zeroCounts := by
    change Writeback.reapEach cfg true (w.zeroCounts.candidates cfg true (ts n).now) ts (n + 1)
      w.zeroCounts = _
    rw [candidates_zeroCounts]
  have hrun : shutdown cfg ts n w =
      (reapOnce cfg true >>= fun _ => pure () : WbRun Sha Unit) ts n w.zeroCounts := rfl
  rw [hrun, Run.bind_run, hpass]
  rcases Writeback.reapEach cfg true w.order ts (n + 1) w.zeroCounts with ⟨_ | _, n', w'⟩ <;> rfl

/-- Shutdown attempts the flush of every state that is to be flushed, and stores what each of them
holds whose flush raises nothing, if and only if it visits no such state behind a state whose
flush raises. -/
theorem shutdown_flushes_iff (cfg : WbConfig) (hinj : Function.Injective (sha256 : Bytes → Sha))
    (hts : ∀ n, (ts n).Quiet True) (hw : Registered w) (n : Nat) :
    (∀ sid ∈ w.order, (w.heap sid).dirty = true →
      sid ∈ attempts cfg ts w.order (n + 1) w.zeroCounts ∧
      (sid ∉ failures cfg ts w.order (n + 1) w.zeroCounts →
        Stored cfg (w.view sid) (shutdown cfg ts n w).2.2.store ∧
        ∀ ref, View cfg.chunkSize (w.view sid) ref → Synced cfg.chunkSize (w.view sid) ref →
          NoStaleRow cfg.chunkSize (w.view sid) →
          (shutdown cfg ts n w).2.2.store.Holds (w.heap sid).ino ref)) ↔
    ∀ x y, List.Sublist [x, y] w.order → x ∈ failures cfg ts w.order (n + 1) w.zeroCounts →
      (w.heap y).dirty = false := by
  have hv := hw.visits
  have hdirty : ∀ sid, (w.zeroCounts.heap sid).dirty = (w.heap sid).dirty :=
    fun sid => by rw [heap_zeroCounts]
  have hatt := @Visits.attempts_iff Sha _ _ cfg ts (n + 1) _ _ hts hv
  simp only [hdirty] at hatt
  rw [← hatt, store_shutdown]
  constructor
  · intro h sid hm hd
    exact (h sid hm hd).1
  · intro h sid hm hd
    refine ⟨h sid hm hd, fun hf => ?_⟩
    have hst := hv.stored hts (h sid hm hd) hf ((hdirty sid).trans hd)
    rw [stored_zeroCounts] at hst
    obtain ⟨hbooks, -⟩ := @Visits.reapEach Sha _ _ cfg ts _ _ hts hv (n + 1)
    exact ⟨hst, fun ref hview hsync hno => hst.holds hinj hbooks hd hview hsync hno⟩

def pairCfg : WbConfig := ⟨⟨2, 1, Nat.two_pos, Nat.one_pos⟩, 1⟩

/-- Two empty files. -/
def pairStore : Store Bytes :=
  { Store.empty 0 0 0 with
    index := (Meta.create 0 rootIno [98] 0o100644 .file 0 0 none
      (Meta.create 0 rootIno [97] 0o100644 .file 0 0 none (Meta.fresh 0 0 0)).2).2 }

def openPair : WbRun Bytes Unit := do
  let a ← openFile pairCfg 2 true
  let _ ← onState a (Wb.write pairCfg [7] 0)
  let b ← openFile pairCfg 3 true
  let _ ← onState b (Wb.write pairCfg [8] 0)
  pure ()

/-- Both files are open and modified. -/
def pair : Writeback Bytes := (openPair (fun _ => {}) 0 (built pairStore)).2.2

theorem pair_registered : Registered pair where
  books := by
    have hts : ∀ _ : Nat, ({} : Tick).Quiet True := fun _ => Tick.quiet_default
    have hbooks : pairStore.Accounted :=
      (Store.empty_accounted 0 0 0).reindex rfl rfl
    have hs : Sound (fun _ => 0) (built pairStore) := ⟨hbooks, by simp [built], by simp [built], by simp⟩
    have hopen : Wp (fun _ => {}) openPair (fun _ w => w.store.Accounted) (built pairStore) := by
      refine Wp.bind ((hs.openFile hts 2 true).mono fun r w hr => ?_)
      obtain ⟨hd, hok⟩ := hr
      cases r with
      | error e => exact hd.sound.books
      | ok a =>
        obtain ⟨hm, hs⟩ := hok a rfl
        refine Wp.bind ((hs.onState hts (robust_write _ _ _) (hs.usable hm)).mono fun r w hr => ?_)
        obtain ⟨hs, -⟩ := hr
        cases r with
        | error e => exact hs.books
        | ok _ =>
          refine Wp.bind ((hs.openFile hts 3 true).mono fun r w hr => ?_)
          obtain ⟨hd, hok⟩ := hr
          cases r with
          | error e => exact hd.sound.books
          | ok b =>
            obtain ⟨hm, hs⟩ := hok b rfl
            refine Wp.bind ((hs.onState hts (robust_write _ _ _) (hs.usable hm)).mono
              fun r w hr => ?_)
            obtain ⟨hs, -⟩ := hr
            cases r with
            | error e => exact hs.books
            | ok _ => exact Run.wp_pure.mpr hs.books
    exact hopen 0
  keys := by decide +kernel
  entry := by decide +kernel

/-- Uploads that wait for tick `k` fail. -/
def failsAt (k : Nat) : Nat → Tick := fun n => { finish := fun _ => { uploadFails := n = k } }

/-- The flush of the second state fails, behind which there is none. -/
theorem shutdown_flushes_iff_second :
    0 ∈ attempts pairCfg (failsAt 12) pair.order 1 pair.zeroCounts ∧
      1 ∈ attempts pairCfg (failsAt 12) pair.order 1 pair.zeroCounts ∧
        Stored pairCfg (pair.view 0) (shutdown pairCfg (failsAt 12) 0 pair).2.2.store := by
  have hts : ∀ n, (failsAt 12 n).Quiet True :=
    fun n => ⟨⟨rfl, nofun⟩, nofun, fun _ => ⟨rfl, fun _ => trivial⟩⟩
  have horder : pair.order = [0, 1] := by decide +kernel
  have hfail : failures pairCfg (failsAt 12) pair.order 1 pair.zeroCounts = [1] := by
    decide +kernel
  have hall := (shutdown_flushes_iff pairCfg (fun _ _ h => h) hts pair_registered 0).mpr (by
    intro x y hxy hx
    rw [hfail, List.mem_singleton] at hx
    subst hx
    rw [horder] at hxy
    have heq := hxy.eq_of_length rfl
    simp at heq)
  have hdirty : (pair.heap 0).dirty = true ∧ (pair.heap 1).dirty = true := by decide +kernel
  obtain ⟨hzero, hstored⟩ := hall 0 (by simp [horder]) hdirty.1
  obtain ⟨hone, -⟩ := hall 1 (by simp [horder]) hdirty.2
  exact ⟨hzero, hone, (hstored (by simp [hfail])).1⟩

/-- The flush of the first state fails, and the second state is given up. -/
theorem shutdown_flushes_abandoned :
    1 ∈ pair.order ∧ (pair.heap 1).dirty = true ∧
      failures pairCfg (failsAt 5) pair.order 1 pair.zeroCounts = [0] ∧
      attempts pairCfg (failsAt 5) pair.order 1 pair.zeroCounts = [0] ∧
      pendingRows pairCfg (pair.view 1) = [⟨0, 0, 1, [8]⟩] ∧
      (shutdown pairCfg (failsAt 5) 0 pair).2.2.store.index.getChunks (pair.heap 1).ino = [] := by
  decide +kernel

end Writeback

end Tgfs
