import Tgfs.Cache.Clients
import Tgfs.Cache.Proofs.Frame
import Tgfs.Cache.Proofs.Flush
import Tgfs.Cache.Proofs.Manager
import Tgfs.Misc.Tally

/-!
# What the reaper removes

A state is used by the clients between `open` and `release`, and its `refcount` counts at least
these. So a state without references that is clean stays so until a client opens it; only the
release that ends the last use can leave a modified state without references. When none of these
falls between the flush and the removal test of the reaper, the reaper removes clean states only.
-/

namespace Tgfs

open Run (Keeps)

namespace Clients

/-! ## The clients of a state -/

/-- The client is between `open` and `release`. -/
def Client.uses (sid : StateId) : Client → Bool
  | .opened sid' | .holding sid' => sid' = sid
  | .idle | .flushing _ | .closing _ => false

/-- The state a client refers to. -/
def Client.sid? : Client → Option StateId
  | .idle => none
  | .opened sid | .holding sid | .flushing sid | .closing sid => some sid

theorem Client.sid_of_uses {pc : Client} {sid : StateId} (h : 0 < (pc.uses sid).toNat) :
    pc.sid? = some sid := by
  cases pc with
  | opened sid' | holding sid' =>
    by_cases he : sid' = sid
    · exact congrArg some he
    · simp [Client.uses, he] at h
  | idle | flushing sid' | closing sid' => cases h

/-- The states `_reap_once` refers to. -/
def Reaper.sids : Reaper → List StateId
  | .idle => []
  | .reaping cands => cands
  | .flushed sid cands | .removed sid cands => sid :: cands

/-- How many clients use a state. -/
def users (sid : StateId) (pcs : List Client) : Nat := (pcs.map fun pc => (pc.uses sid).toNat).sum

theorem users_set {pcs : List Client} {k : Nat} {pc : Client} (h : pcs[k]? = some pc)
    (pc' : Client) (sid : StateId) :
    users sid (pcs.set k pc') + (pc.uses sid).toNat = users sid pcs + (pc'.uses sid).toNat :=
  tally_set (fun pc => (pc.uses sid).toNat) h pc'

/-- A client that uses a state is counted. -/
theorem users_pos {pcs : List Client} {k : Nat} {pc : Client} {sid : StateId}
    (h : pcs[k]? = some pc) (hu : pc.uses sid = true) : 0 < users sid pcs := by
  have := le_tally (fun pc : Client => (pc.uses sid).toNat) (List.mem_of_getElem? h)
  rw [hu] at this
  exact this

variable {Sha : Type}

/-! ## The invariant -/

/-- The table and the reference counts go with the clients, and the state that the reaper has
flushed or removed is clean unless somebody has come to use it. -/
structure Counted (c : Clients Sha) : Prop where
  counts : ∀ sid, sid < c.wb.nextState → (users sid c.clients : Int) ≤ (c.wb.heap sid).refcount
  entry : ∀ {ino sid}, (ino, sid) ∈ c.wb.states →
    (c.wb.heap sid).ino = ino ∧ sid < c.wb.nextState
  known : ∀ pc ∈ c.clients, ∀ sid, pc.sid? = some sid → sid < c.wb.nextState
  reaped : ∀ sid ∈ c.reaper.sids, sid < c.wb.nextState
  flushed : ∀ {sid cands}, c.reaper = .flushed sid cands → (c.wb.heap sid).refcount = 0 →
    (c.wb.heap sid).dirty = false
  removed : ∀ {sid cands}, c.reaper = .removed sid cands →
    (c.wb.heap sid).refcount = 0 ∧ (c.wb.heap sid).dirty = false ∧
      ∀ ino, (ino, sid) ∉ c.wb.states

/-- A change of the manager that leaves the table and the counts, and makes no state dirty that
nobody uses. -/
structure Quiet (w w' : Writeback Sha) : Prop where
  states : w'.states = w.states
  nextState : w'.nextState = w.nextState
  ino : ∀ sid, (w'.heap sid).ino = (w.heap sid).ino
  refcount : ∀ sid, (w'.heap sid).refcount = (w.heap sid).refcount
  clean : ∀ sid, (w.heap sid).refcount = 0 → (w.heap sid).dirty = false →
    (w'.heap sid).dirty = false

variable {c : Clients Sha} {w w' : Writeback Sha} {sid : StateId}

theorem Quiet.refl (w : Writeback Sha) : Quiet w w :=
  ⟨rfl, rfl, fun _ => rfl, fun _ => rfl, fun _ _ hd => hd⟩

theorem Counted.quiet (h : Counted c) (hw : Quiet c.wb w') (n : Nat) :
    Counted { c with wb := w', tick := n } where
  counts := by
    intro sid hlt
    rw [hw.refcount]
    exact h.counts sid (hw.nextState ▸ hlt)
  entry := by
    intro ino sid hm
    rw [hw.ino, hw.nextState]
    exact h.entry (hw.states ▸ hm)
  known := by
    intro pc hpc sid hs
    rw [hw.nextState]
    exact h.known pc hpc sid hs
  reaped := by
    intro sid hs
    rw [hw.nextState]
    exact h.reaped sid hs
  flushed := by
    intro sid cands hr h0
    rw [hw.refcount] at h0
    exact hw.clean sid h0 (h.flushed hr h0)
  removed := by
    intro sid cands hr
    obtain ⟨h0, hd, hs⟩ := h.removed hr
    refine ⟨(hw.refcount sid).trans h0, hw.clean sid h0 hd, ?_⟩
    rw [hw.states]
    exact hs

/-- A client goes on, without a use that was not counted. -/
theorem Counted.setClient (h : Counted c) {k : Nat} {pc pc' : Client}
    (hpc : c.clients[k]? = some pc) (huses : ∀ sid, pc'.uses sid = true → pc.uses sid = true)
    (hsid : ∀ sid, pc'.sid? = some sid → pc.sid? = some sid) : Counted (c.setClient k pc') where
  counts := by
    intro sid hlt
    have hset := users_set hpc pc' sid
    have hle : (pc'.uses sid).toNat ≤ (pc.uses sid).toNat := by
      cases hu : pc'.uses sid with
      | false => exact Nat.zero_le _
      | true => rw [huses sid hu]
    have := h.counts sid hlt
    simp only [Clients.setClient]
    omega
  entry := h.entry
  known := by
    intro q hq sid hs
    rcases List.mem_or_eq_of_mem_set hq with hold | rfl
    · exact h.known q hold sid hs
    · exact h.known pc (List.mem_of_getElem? hpc) sid (hsid sid hs)
  reaped := h.reaped
  flushed := h.flushed
  removed := h.removed

/-! ## The sections -/

section Sections

variable [DecidableEq Sha] [Sha256 Sha] {cfg : WbConfig} {ts : Nat → Tick}

omit [DecidableEq Sha] [Sha256 Sha] in
/-- Code under a state's lock that keeps what is frozen of the state. -/
theorem quiet_onState {α : Type} {m : FileRun Sha α} (hm : Keeps (fun c => c.st.frozen) m)
    (hclean : ∀ n, (w.heap sid).refcount = 0 → (w.heap sid).dirty = false →
      (m ts n (w.view sid)).2.2.st.dirty = false) (n : Nat) :
    Quiet w (Writeback.onState sid m ts n w).2.2 := by
  have hfrozen : (m ts n (w.view sid)).2.2.st.frozen = (w.heap sid).frozen := hm ts n (w.view sid)
  have hino := congrArg Prod.fst hfrozen
  have hcount := congrArg (fun q => q.2.2.2.1) hfrozen
  have heap : ∀ sid', (Writeback.onState sid m ts n w).2.2.heap sid' =
      if sid' = sid then (m ts n (w.view sid)).2.2.st else w.heap sid' := by
    intro sid'
    change Function.update w.heap sid _ sid' = _
    rw [Function.update_apply]
  refine ⟨rfl, rfl, ?_, ?_, ?_⟩
  · intro sid'
    rw [heap]
    split
    · next he =>
      subst he
      exact hino
    · rfl
  · intro sid'
    rw [heap]
    split
    · next he =>
      subst he
      exact hcount
    · rfl
  · intro sid' h0 hd
    rw [heap]
    split
    · next he =>
      subst he
      exact hclean n h0 hd
    · exact hd

omit [DecidableEq Sha] [Sha256 Sha] in
/-- Setting fields that do not count. -/
theorem quiet_modState {f : FileState Sha → FileState Sha}
    (hf : ∀ st, (f st).ino = st.ino ∧ (f st).refcount = st.refcount ∧ (f st).dirty = st.dirty) :
    Quiet w (w.modState sid f) := by
  have heap : ∀ sid', (w.modState sid f).heap sid' =
      if sid' = sid then f (w.heap sid') else w.heap sid' := by
    intro sid'
    change Function.update w.heap sid _ sid' = _
    rw [Function.update_apply]
    split
    · next he => rw [he]
    · rfl
  refine ⟨rfl, rfl, ?_, ?_, ?_⟩
  · intro sid'
    rw [heap]
    split
    · exact (hf _).1
    · rfl
  · intro sid'
    rw [heap]
    split
    · exact (hf _).2.1
    · rfl
  · intro sid' _ hd
    rw [heap]
    split
    · exact (hf _).2.2.trans hd
    · exact hd

omit [DecidableEq Sha] [Sha256 Sha] in
theorem quiet_closeState : Quiet w (w.closeState sid) := by
  have h : Quiet w (w.modState sid fun st => { st with closed := true }) :=
    quiet_modState fun _ => ⟨rfl, rfl, rfl⟩
  exact ⟨h.states, h.nextState, h.ino, h.refcount, h.clean⟩

/-- A flush leaves a clean state, unless it raises, and then it is as dirty as before. -/
theorem wp_flush_dirty (cfg : WbConfig) (ts : Nat → Tick) (x : FileCtx Sha) :
    Run.Wp ts (Wb.flushLocked cfg) (fun r x' => match r with
      | .ok _ => x'.st.dirty = false
      | .error _ => x'.st.dirty = x.st.dirty) x := by
  unfold Wb.flushLocked
  rw [Wb.getState, Run.wp_gets_bind]
  split
  · have htrunc : Keeps (fun x : FileCtx Sha => x.st) (Wb.tempTruncate x.st.size) :=
      Wb.keeps_tempTruncate (fun _ _ => rfl) _
    refine Run.Wp.bind (htrunc.wp.mono ?_)
    intro r x₁ hx₁
    cases r with
    | error e => exact congrArg FileState.dirty hx₁
    | ok _ =>
      have hcall : Keeps (fun x : FileCtx Sha => x.st) (Wb.call (Wb.tempSrc x.st.closed x₁.temp)
          (Store.putFile cfg.toStoreConfig x.st.ino x.st.size (some x.st.dirtyIdx))) :=
        fun _ _ _ => rfl
      rw [Run.wp_gets_bind]
      refine Run.Wp.bind (hcall.wp.mono ?_)
      intro r x₂ hx₂
      cases r with
      | error e => exact (congrArg FileState.dirty hx₂).trans (congrArg FileState.dirty hx₁)
      | ok _ =>
        rw [Wb.getRows, Run.wp_gets_bind]
        exact Run.wp_modify.mpr rfl
  · next hd => exact Run.wp_pure.mpr (Bool.eq_false_iff.mpr hd)

theorem quiet_flush (sid : StateId) (cfg : WbConfig) (ts : Nat → Tick) (n : Nat) :
    Quiet w (Writeback.onState sid (Wb.flushLocked cfg) ts n w).2.2 := by
  refine quiet_onState (Wb.frozen_aside.keeps_flushLocked cfg) ?_ n
  intro n _ hd
  have h := wp_flush_dirty cfg ts (w.view sid) n
  revert h
  cases (Wb.flushLocked cfg ts n (w.view sid)).1 with
  | ok _ => exact id
  | error e => exact fun h => h.trans hd

/-- A flush that returns leaves a clean state. -/
theorem flush_clean {n : Nat} {u : Unit}
    (h : (Writeback.onState sid (Wb.flushLocked cfg) ts n w).1 = .ok u) :
    ((Writeback.onState sid (Wb.flushLocked cfg) ts n w).2.2.heap sid).dirty = false := by
  have hd := wp_flush_dirty cfg ts (w.view sid) n
  rw [show (Wb.flushLocked cfg ts n (w.view sid)).1 = .ok u from h] at hd
  refine Eq.trans (congrArg FileState.dirty ?_) hd
  exact Function.update_self _ _ _

end Sections

/-! ## Opening, releasing and removing -/

section Table

variable {k : Nat} {ino : Ino}

/-- What the locked section of `open` does: one more reference to a state that is registered, or
the first one to a new state. -/
theorem openLocked_cases (ino : Ino) (w : Writeback Sha) :
    (∃ sid, (ino, sid) ∈ w.states ∧ w.openLocked ino =
      (sid, w.modState sid fun st => { st with refcount := st.refcount + 1 })) ∨
    ∃ gen files linked nextGen, w.openLocked ino = (w.nextState, { w with
      files := files
      linked := linked
      nextGen := nextGen
      heap := Function.update w.heap w.nextState { ino := ino, gen := gen, refcount := 1 }
      nextState := w.nextState + 1
      states := w.states ++ [(ino, w.nextState)] }) := by
  cases hget : w.get ino with
  | some sid => exact Or.inl ⟨sid, Writeback.mem_of_get hget, Writeback.openLocked_old hget⟩
  | none =>
    obtain ⟨gen, nextGen, he, -⟩ := Writeback.openLocked_new hget
    exact Or.inr ⟨gen, _, _, nextGen, he⟩

theorem Counted.openFile (h : Counted c) (hpc : c.clients[k]? = some .idle) (ino : Ino)
    (pc : StateId → Client) (huses : ∀ sid sid', (pc sid).uses sid' = decide (sid = sid'))
    (hsid : ∀ sid, (pc sid).sid? = some sid) :
    Counted ({ c with wb := (c.wb.openLocked ino).2 }.setClient k (pc (c.wb.openLocked ino).1)) := by
  have hset : ∀ sid sid', users sid' (c.clients.set k (pc sid)) =
      users sid' c.clients + (decide (sid = sid')).toNat := by
    intro sid sid'
    rw [← huses]
    exact users_set hpc _ sid'
  rcases openLocked_cases ino c.wb with ⟨sid, hm, he⟩ | ⟨gen, files, linked, nextGen, he⟩
  · rw [he]
    have heap : ∀ sid', ((c.wb.modState sid fun st => { st with refcount := st.refcount + 1 }).heap
        sid') = if sid' = sid then { c.wb.heap sid with refcount := (c.wb.heap sid).refcount + 1 }
          else c.wb.heap sid' := by
      intro sid'
      change Function.update c.wb.heap sid _ sid' = _
      rw [Function.update_apply]
    have hlt := (h.entry hm).2
    have hnonneg : (0 : Int) ≤ (c.wb.heap sid).refcount :=
      (Int.natCast_nonneg _).trans (h.counts sid hlt)
    refine ⟨?_, ?_, ?_, h.reaped, ?_, ?_⟩
    · intro sid' hlt'
      have hcount := h.counts sid' hlt'
      have hu := hset sid sid'
      simp only [Clients.setClient, heap]
      split
      · next hs =>
        subst hs
        simp only [decide_true, Bool.toNat_true] at hu
        push_cast [hu]
        omega
      · next hs =>
        simp only [decide_eq_false (Ne.symm hs), Bool.toNat_false, Nat.add_zero] at hu
        rw [hu]
        exact hcount
    · intro ino' sid' hm'
      have hold := h.entry hm'
      simp only [Clients.setClient, heap]
      split
      · next hs =>
        subst hs
        exact hold
      · exact hold
    · intro q hq sid' hs
      rcases List.mem_or_eq_of_mem_set hq with hold | rfl
      · exact h.known q hold sid' hs
      · rw [hsid] at hs
        cases hs
        exact hlt
    · intro sid' cands hr h0
      simp only [Clients.setClient, heap] at h0 ⊢
      split at h0
      · dsimp only at h0
        omega
      · next hs =>
        rw [if_neg hs]
        exact h.flushed hr h0
    · intro sid' cands hr
      obtain ⟨h0, hd, hno⟩ := h.removed hr
      have hs : sid' ≠ sid := by
        intro hs
        subst hs
        exact hno ino hm
      simp only [Clients.setClient, heap, if_neg hs]
      exact ⟨h0, hd, hno⟩
  · rw [he]
    have heap : ∀ {sid'}, sid' < c.wb.nextState →
        Function.update c.wb.heap c.wb.nextState { ino := ino, gen := gen, refcount := 1 } sid' =
          c.wb.heap sid' := fun hlt => Function.update_of_ne (Nat.ne_of_lt hlt) _ _
    have hnone : users c.wb.nextState c.clients = 0 := by
      by_contra hne
      obtain ⟨q, hq, hu⟩ := exists_of_tally_pos _ (Nat.pos_of_ne_zero hne)
      exact Nat.lt_irrefl _ (h.known q hq _ (Client.sid_of_uses hu))
    refine ⟨?_, ?_, ?_, ?_, ?_, ?_⟩
    · intro sid' hlt'
      have hu := hset c.wb.nextState sid'
      simp only [Clients.setClient] at hlt' ⊢
      rcases Nat.lt_succ_iff_lt_or_eq.mp hlt' with hlt | rfl
      · have hne : c.wb.nextState ≠ sid' := Nat.ne_of_gt hlt
        simp only [decide_eq_false hne, Bool.toNat_false, Nat.add_zero] at hu
        rw [heap hlt, hu]
        exact h.counts sid' hlt
      · simp only [decide_true, Bool.toNat_true, hnone] at hu
        rw [hu, Function.update_self]
        simp
    · intro ino' sid' hm'
      rcases List.mem_append.mp hm' with hold | hnew
      · obtain ⟨hino, hlt⟩ := h.entry hold
        exact ⟨(congrArg FileState.ino (heap hlt)).trans hino, Nat.lt_succ_of_lt hlt⟩
      · cases List.mem_singleton.mp hnew
        refine ⟨?_, Nat.lt_succ_self _⟩
        simp [Clients.setClient]
    · intro q hq sid' hs
      rcases List.mem_or_eq_of_mem_set hq with hold | rfl
      · exact Nat.lt_succ_of_lt (h.known q hold sid' hs)
      · rw [hsid] at hs
        cases hs
        exact Nat.lt_succ_self _
    · intro sid' hs
      exact Nat.lt_succ_of_lt (h.reaped sid' hs)
    · intro sid' cands hr h0
      have hlt := h.reaped sid' (by rw [show c.reaper = _ from hr]; exact List.mem_cons_self)
      simp only [Clients.setClient] at h0 ⊢
      rw [heap hlt] at h0 ⊢
      exact h.flushed hr h0
    · intro sid' cands hr
      have hlt := h.reaped sid' (by rw [show c.reaper = _ from hr]; exact List.mem_cons_self)
      obtain ⟨h0, hd, hno⟩ := h.removed hr
      simp only [Clients.setClient]
      rw [heap hlt]
      refine ⟨h0, hd, ?_⟩
      intro ino' hm'
      rcases List.mem_append.mp hm' with hold | hnew
      · exact hno ino' hold
      · cases List.mem_singleton.mp hnew
        exact Nat.lt_irrefl _ hlt

/-- The locked section of `release`, unless it leaves a modified state without users while the
reaper is about to remove it. -/
theorem Counted.release (h : Counted c) (hpc : c.clients[k]? = some (.holding sid))
    (cfg : WbConfig) (now : Time) (n : Nat)
    (hrace : ∀ cands, c.reaper = .flushed sid cands → (c.wb.heap sid).dirty = true →
      (c.wb.heap sid).refcount ≠ 1)
    {pc : Client} (huses : ∀ sid', pc.uses sid' = false)
    (hsid : ∀ sid', pc.sid? = some sid' → sid' = sid) :
    Counted ({ c with wb := (c.wb.releaseLocked cfg now sid).2, tick := n }.setClient k pc) := by
  have hlt : sid < c.wb.nextState := h.known _ (List.mem_of_getElem? hpc) sid rfl
  have hset : ∀ sid', users sid' (c.clients.set k pc) + (decide (sid = sid')).toNat =
      users sid' c.clients := by
    intro sid'
    have := users_set hpc pc sid'
    rw [huses sid'] at this
    exact this
  have hpos : (1 : Int) ≤ (c.wb.heap sid).refcount := by
    have hu : 0 < users sid c.clients := users_pos hpc (by simp [Client.uses])
    have := h.counts sid hlt
    omega
  -- the release changes one count, and perhaps the time and the table
  obtain ⟨t, hheap, hnext, hstates⟩ : ∃ t,
      (∀ sid', (c.wb.releaseLocked cfg now sid).2.heap sid' = if sid' = sid then
        { c.wb.heap sid with refcount := (c.wb.heap sid).refcount - 1, idleSince := t }
        else c.wb.heap sid') ∧
      (c.wb.releaseLocked cfg now sid).2.nextState = c.wb.nextState ∧
      ∀ p ∈ (c.wb.releaseLocked cfg now sid).2.states, p ∈ c.wb.states := by
    have hupd : ∀ (st : FileState Sha) sid', Function.update c.wb.heap sid st sid' =
        if sid' = sid then st else c.wb.heap sid' := fun st sid' => Function.update_apply _ _ _ _
    unfold Writeback.releaseLocked
    dsimp only
    split
    · exact ⟨(c.wb.heap sid).idleSince, fun sid' => hupd _ sid', rfl, fun _ hp => hp⟩
    · split
      · refine ⟨now, ?_, rfl, fun _ hp => hp⟩
        intro sid'
        simp only [Writeback.modState, Function.update_self, Function.update_idem]
        exact hupd _ sid'
      · exact ⟨(c.wb.heap sid).idleSince, fun sid' => hupd _ sid', rfl,
          fun _ hp => List.mem_of_mem_filter hp⟩
  refine ⟨?_, ?_, ?_, ?_, ?_, ?_⟩
  · intro sid' hlt'
    have hcount := h.counts sid' (hnext ▸ hlt')
    have hu := hset sid'
    simp only [Clients.setClient, hheap]
    split
    · next hs =>
      subst hs
      simp only [decide_true, Bool.toNat_true] at hu
      dsimp only
      omega
    · next hs =>
      simp only [decide_eq_false (Ne.symm hs), Bool.toNat_false, Nat.add_zero] at hu
      rw [hu]
      exact hcount
  · intro ino sid' hm
    obtain ⟨hino, hlt'⟩ := h.entry (hstates _ hm)
    simp only [Clients.setClient, hheap, hnext]
    split
    · next hs =>
      subst hs
      exact ⟨hino, hlt'⟩
    · exact ⟨hino, hlt'⟩
  · intro q hq sid' hs
    simp only [Clients.setClient, hnext]
    rcases List.mem_or_eq_of_mem_set hq with hold | rfl
    · exact h.known q hold sid' hs
    · rw [hsid sid' hs]
      exact hlt
  · intro sid' hs
    simp only [Clients.setClient, hnext]
    exact h.reaped sid' hs
  · intro sid' cands hr h0
    simp only [Clients.setClient, hheap] at h0 ⊢
    split at h0
    · next hs =>
      subst hs
      rw [if_pos rfl]
      dsimp only at h0 ⊢
      by_contra hd
      exact hrace cands hr (Bool.eq_true_of_not_eq_false hd) (by omega)
    · next hs =>
      rw [if_neg hs]
      exact h.flushed hr h0
  · intro sid' cands hr
    obtain ⟨h0, hd, hno⟩ := h.removed hr
    have hs : sid' ≠ sid := by
      intro hs
      subst hs
      omega
    simp only [Clients.setClient, hheap, if_neg hs]
    exact ⟨h0, hd, fun ino hm => hno ino (hstates _ hm)⟩

/-- The reaper goes on to something it may refer to. -/
theorem Counted.setReaper (h : Counted c) {r : Reaper} (hr : ∀ sid ∈ r.sids, sid < c.wb.nextState)
    (hflushed : ∀ sid cands, r = .flushed sid cands → (c.wb.heap sid).dirty = false)
    (hremoved : ∀ sid cands, r ≠ .removed sid cands) : Counted (c.setReaper r) where
  counts := h.counts
  entry := h.entry
  known := h.known
  reaped := hr
  flushed := by
    intro sid cands he _
    exact hflushed sid cands he
  removed := by
    intro sid cands he
    exact absurd he (hremoved sid cands)

/-- The removal test of the reaper. -/
theorem Counted.remove (h : Counted c) {cands : List StateId}
    (hr : c.reaper = .flushed sid cands) :
    Counted ({ c with wb := (c.wb.reapLocked sid).2 }.setReaper
      (if (c.wb.reapLocked sid).1 then .removed sid cands else .reaping cands)) := by
  have hsids : ∀ sid' ∈ sid :: cands, sid' < c.wb.nextState := by
    intro sid' hs
    apply h.reaped
    rw [hr]
    exact hs
  unfold Writeback.reapLocked
  split
  · next hcond =>
    refine ⟨h.counts, ?_, h.known, hsids, ?_, ?_⟩
    · intro ino sid' hm
      exact h.entry (Writeback.mem_pop.mp hm).1
    · intro sid' cands' he
      cases he
    · intro sid' cands' he
      cases he
      refine ⟨hcond.1, h.flushed hr hcond.1, ?_⟩
      intro ino hm
      obtain ⟨hold, hne⟩ := Writeback.mem_pop.mp hm
      exact hne (h.entry hold).1.symm
  · exact h.setReaper (fun sid' hs => hsids sid' (List.mem_cons_of_mem sid hs)) nofun nofun

end Table

/-! ## Every run -/

/-- `l` is not a release that leaves a modified state without users between the reaper's flush of
the state and its removal test. -/
def Unraced (l : Label) (c : Clients Sha) : Prop :=
  ∀ k sid cands, l = .client k .release → c.clients[k]? = some (.holding sid) →
    c.reaper = .flushed sid cands → (c.wb.heap sid).dirty = true → (c.wb.heap sid).refcount ≠ 1

variable [DecidableEq Sha] [Sha256 Sha] (cfg : WbConfig) (ts : Nat → Tick)

/-- Every step of the run meets the condition in the state before it. -/
def EachStep (P : Label → Clients Sha → Prop) : List Label → Clients Sha → Prop
  | [], _ => True
  | l :: ls, c => P l c ∧ EachStep P ls (step cfg ts l c)

variable {cfg ts}

omit [DecidableEq Sha] [Sha256 Sha] in
variable (ts) in
/-- Code that a client runs on a state it uses. -/
theorem Counted.perform (h : Counted c) {k : Nat} {pc : Client} (hpc : c.clients[k]? = some pc)
    (hu : pc.uses sid = true) (hlt : sid < c.wb.nextState) {α : Type} {m : FileRun Sha α}
    (hm : Keeps (fun x => x.st.frozen) m) :
    Counted (c.perform ts (Writeback.onState sid m)).2 := by
  apply h.quiet
  apply quiet_onState hm
  intro n h0
  have hpos := users_pos hpc hu
  have := h.counts sid hlt
  omega

theorem Counted.clientStep (h : Counted c) {k : Nat} {call : Call}
    (hl : Unraced (.client k call) c) : Counted (clientStep cfg ts k call c) := by
  unfold Clients.clientStep
  split
  · exact h
  · next ino forWrite hpc =>
    cases forWrite with
    | true => exact h.openFile hpc ino Client.opened (fun _ _ => rfl) fun _ => rfl
    | false => exact h.openFile hpc ino Client.holding (fun _ _ => rfl) fun _ => rfl
  · exact h
  · next sid hpc =>
    have hlt := h.known _ (List.mem_of_getElem? hpc) sid rfl
    have hrun := h.perform ts hpc (by simp [Client.uses]) hlt
      (Wb.frozen_aside.keeps_materialize cfg)
    split
    · next hres =>
      obtain rfl := (congrArg Prod.snd hres).symm
      exact hrun.setClient hpc (fun _ hu => hu) fun _ hs => hs
    · next hres =>
      obtain rfl := (congrArg Prod.snd hres).symm
      exact hrun.setClient hpc nofun nofun
  · exact h
  · next sid offset data hpc =>
    have hlt := h.known _ (List.mem_of_getElem? hpc) sid rfl
    exact h.perform ts hpc (by simp [Client.uses]) hlt (Wb.frozen_aside.keeps_write cfg data offset)
  · next sid length hpc =>
    have hlt := h.known _ (List.mem_of_getElem? hpc) sid rfl
    exact h.perform ts hpc (by simp [Client.uses]) hlt (Wb.frozen_aside.keeps_truncate cfg length)
  · next sid hpc =>
    have hrace := fun cands => hl k sid cands rfl hpc
    dsimp only
    cases (Writeback.releaseLocked cfg (ts c.tick).now sid c.wb).1 with
    | true => exact h.release hpc cfg _ _ hrace (fun _ => rfl) fun _ hs => (Option.some.inj hs).symm
    | false => exact h.release hpc cfg _ _ hrace (fun _ => rfl) nofun
  · next sid hpc =>
    have hrun := h.quiet (quiet_flush sid cfg ts c.tick)
      (Writeback.onState sid (Wb.flushLocked cfg) ts c.tick c.wb).2.1
    split
    · next hres =>
      obtain rfl := (congrArg Prod.snd hres).symm
      exact hrun.setClient hpc nofun fun _ hs => hs
    · next hres =>
      obtain rfl := (congrArg Prod.snd hres).symm
      exact hrun.setClient hpc nofun nofun
  · next sid hpc =>
    exact (h.quiet quiet_closeState c.tick).setClient hpc nofun nofun

theorem Counted.reaperStep (h : Counted c) : Counted (reaperStep cfg ts c) := by
  unfold Clients.reaperStep
  split
  · -- the candidates are registered
    refine Counted.setReaper (h.quiet (Quiet.refl c.wb) _) ?_ nofun nofun
    intro sid hs
    obtain ⟨p, hp, rfl⟩ := List.mem_map.mp (List.mem_of_mem_filter hs)
    exact (h.entry hp).2
  · exact h.setReaper nofun nofun nofun
  · next sid cands hr =>
    have hsids : ∀ sid' ∈ sid :: cands, sid' < c.wb.nextState := by
      intro sid' hs
      apply h.reaped
      rw [hr]
      exact hs
    have hrun := h.quiet (quiet_flush sid cfg ts c.tick)
      (Writeback.onState sid (Wb.flushLocked cfg) ts c.tick c.wb).2.1
    split
    · next hres =>
      obtain rfl := (congrArg Prod.snd hres).symm
      refine hrun.setReaper hsids ?_ nofun
      intro sid' cands' he
      cases he
      exact flush_clean (congrArg Prod.fst hres)
    · next hres =>
      obtain rfl := (congrArg Prod.snd hres).symm
      refine Counted.setReaper (hrun.quiet (quiet_modState ?_) _) ?_ nofun nofun
      · intro _
        exact ⟨rfl, rfl, rfl⟩
      intro sid' hs
      exact hsids sid' (List.mem_cons_of_mem sid hs)
  · next sid cands hr => exact h.remove hr
  · next sid cands hr =>
    refine (h.quiet quiet_closeState c.tick).setReaper ?_ nofun nofun
    intro sid' hs
    apply h.reaped
    rw [hr]
    exact List.mem_cons_of_mem sid hs

omit [DecidableEq Sha] [Sha256 Sha] in
theorem counted_start (store : Store Sha) (n : Nat) : Counted (start store n) where
  counts := by
    intro sid hlt
    cases hlt
  entry := by
    intro ino sid hm
    cases hm
  known := by
    intro pc hpc sid hs
    rw [List.eq_of_mem_replicate hpc] at hs
    cases hs
  reaped := nofun
  flushed := nofun
  removed := nofun

theorem Counted.run (h : Counted c) {ls : List Label} (hls : EachStep cfg ts Unraced ls c) :
    Counted (run cfg ts ls c) := by
  induction ls generalizing c with
  | nil => exact h
  | cons l ls ih =>
    apply ih
    · cases l with
      | client k call => exact h.clientStep hls.1
      | reaper => exact h.reaperStep
    · exact hls.2

end Clients

open Clients in
/-- The reaper drops no write: a state that it has removed and closes is not dirty. -/
theorem reaper_keeps_writes {Sha : Type} [DecidableEq Sha] [Sha256 Sha] {cfg : WbConfig}
    {ts : Nat → Tick} {store : Store Sha} {clients : Nat} {ls : List Label}
    (hls : EachStep cfg ts Unraced ls (start store clients)) {sid : StateId} {cands : List StateId}
    (hr : (run cfg ts ls (start store clients)).reaper = .removed sid cands) :
    ((run cfg ts ls (start store clients)).wb.heap sid).dirty = false :=
  (((counted_start store clients).run hls).removed hr).2.1

namespace Clients

def reaperCfg : WbConfig := ⟨⟨2, 1, by decide, by decide⟩, 1⟩

/-- A manager over a store with one file, and one client. -/
def oneClient : Clients Bytes := start (Store.oneFile reaperCfg.toStoreConfig [1]) 1

/-- The client opens the file, writes `b` to its start and releases it. -/
def writeOnce (b : UInt8) : List Label :=
  [.client 0 (.openFile 2 true), .client 0 (.openFile 2 true), .client 0 (.write 0 [b]),
    .client 0 .release]

end Clients

open Clients in
theorem reaper_keeps_writes_once :
    let c := run reaperCfg (fun n => { now := n }) (writeOnce 7 ++ [.reaper, .reaper, .reaper])
      oneClient
    c.reaper = .removed 0 [] ∧ (c.wb.heap 0).dirty = false := by
  have hr : (run reaperCfg (fun n => { now := n }) (writeOnce 7 ++ [.reaper, .reaper, .reaper])
      oneClient).reaper = .removed 0 [] := by decide +kernel
  have hls : EachStep reaperCfg (fun n => { now := n }) Unraced
      (writeOnce 7 ++ [.reaper, .reaper, .reaper]) oneClient := by
    refine ⟨nofun, nofun, nofun, ?_, nofun, nofun, nofun, trivial⟩
    intro k sid cands _ _ hflushed
    have hidle : (run reaperCfg (fun n => { now := n }) ((writeOnce 7).take 3) oneClient).reaper =
      .idle := by decide +kernel
    cases hidle.symm.trans hflushed
  exact ⟨hr, reaper_keeps_writes hls hr⟩

open Clients in
/-- The file is written once more while the reaper is between the flush of the state and its
removal. -/
theorem reaper_keeps_writes_late :
    let c := run reaperCfg (fun n => { now := n })
      (writeOnce 7 ++ [.reaper, .reaper] ++ writeOnce 8 ++ [.reaper]) oneClient
    c.reaper = .removed 0 [] ∧ (c.wb.heap 0).dirty = true ∧ c.wb.store.content 2 = some [7] := by
  decide +kernel

end Tgfs
