import Tgfs.Fuse.Proofs.Handles
import Tgfs.Fuse.Proofs.Times
import Tgfs.Names.Runs

/-!
# Inode numbers

A number that has not been given out yet is free everywhere: no inode row, no chunk row and no
open state carries it. So a new inode starts without content.
-/

namespace Tgfs

open Run (Wp Preserves)

variable {Sha : Type}

/-! ## The index -/

namespace Meta

/-- The rows of the tables are of inodes whose number has been given out. -/
structure Numbered (m : Meta Sha) : Prop where
  dated : m.Dated none
  rows : ∀ r ∈ m.chunks, r.1 < m.nextIno

variable {m m' : Meta Sha}

theorem Numbered.lt (h : m.Numbered) {ino : Ino} {n : Inode} (hn : m.getInode ino = some n) :
    ino < m.nextIno := by
  obtain ⟨-, row, hrow, -⟩ := getInode_eq_some hn
  exact h.dated.given ino row hrow

theorem getInode_of_lookup {parent : Ino} {name : Str} {n : Inode} (h : m.lookup parent name = some n) :
    m.getInode n.id = some n := by
  have hc := child_of_lookup h
  unfold lookup at h
  rwa [hc] at h

theorem Numbered.unborn (h : m.Numbered) : m.getChunks m.nextIno = [] := by
  rw [List.eq_nil_iff_forall_not_mem]
  intro c hc
  exact Nat.lt_irrefl _ (h.rows _ (mem_getChunks.mp hc))

theorem Numbered.change (h : m.Numbered) (hd : m'.Dated none) (hc : m'.chunks = m.chunks)
    (hn : m.nextIno ≤ m'.nextIno) : m'.Numbered :=
  ⟨hd, fun r hr => Nat.lt_of_lt_of_le (h.rows r (hc ▸ hr)) hn⟩

theorem dropLink_nextIno (m : Meta Sha) (parent : Ino) (name : Str) (c : Ino) (row : Inode)
    (f : Inode → Inode) (left : Int) :
    ((m.dropLink parent name c row f).reap c left).nextIno = m.nextIno := by
  unfold reap dropLink
  split <;> exact addDirLink_nextIno _ _ _ _

theorem Numbered.create (h : m.Numbered) (now : Time) (parent : Ino) (name : Str) (mode : Nat)
    (kind : Kind) (uid gid : Nat) (target : Option Str) :
    m.nextIno ≤ (m.create now parent name mode kind uid gid target).2.nextIno ∧
      (m.create now parent name mode kind uid gid target).2.Numbered := by
  have hle : m.nextIno ≤ (m.create now parent name mode kind uid gid target).2.nextIno := by
    rcases m.create_cases now parent name mode kind uid gid target with ⟨-, he⟩ | ⟨-, n, -, he⟩
    · rw [he]
      exact Nat.le_succ _
    · rw [he, addDirLink_nextIno]
      exact Nat.le_succ _
  have hsame := sameContent_create now parent name mode kind uid gid target m
  exact ⟨hle, h.change (h.dated.create now parent name mode kind uid gid target) hsame.chunks hle⟩

theorem Numbered.link (h : m.Numbered) (now : Time) (parent : Ino) (name : Str) (ino : Ino) :
    (m.link now parent name ino).2.nextIno = m.nextIno ∧
      (m.link now parent name ino).2.Numbered := by
  have hnext : (m.link now parent name ino).2.nextIno = m.nextIno := by
    rcases m.link_cases now parent name ino with ⟨-, he⟩ | ⟨-, he⟩
    · rw [he]
    · rw [he]
      rfl
  have hsame : SameContent (fun _ => False) m (m.link now parent name ino).2 :=
    sameContent_link now parent name ino m
  exact ⟨hnext, h.change (h.dated.link now parent name ino) hsame.chunks hnext.ge⟩

theorem Numbered.unlinkDirent (h : m.Numbered) (now : Time) (parent : Ino) (name : Str) :
    (m.unlinkDirent now parent name).2.nextIno = m.nextIno ∧
      (m.unlinkDirent now parent name).2.Numbered := by
  have hnext : (m.unlinkDirent now parent name).2.nextIno = m.nextIno := by
    rcases m.unlinkDirent_cases now parent name with ⟨⟨e, -, he⟩, -⟩ | ⟨c, row, -, -, he⟩
    · rw [he]
    · rw [he]
      exact dropLink_nextIno m parent name c row _ _
  have hsame := sameContent_unlinkDirent now parent name m
  exact ⟨hnext, h.change (h.dated.unlinkDirent now parent name) hsame.chunks hnext.ge⟩

theorem replaceDst_nextIno (m : Meta Sha) (np : Ino) (nname : Str) :
    (m.replaceDst np nname).2.nextIno = m.nextIno := by
  rcases m.replaceDst_cases np nname with ⟨-, he⟩ | ⟨c, -, -, he⟩ | ⟨c, row, -, -, he⟩
  · rw [he]
  · rw [he]
  · rw [he]
    exact dropLink_nextIno m np nname c row _ _

theorem moveDirLink_nextIno (m : Meta Sha) (kind : Kind) (op np : Ino) :
    (m.moveDirLink kind op np).nextIno = m.nextIno := by
  unfold moveDirLink
  split <;> rfl

theorem Numbered.rename (h : m.Numbered) (op : Ino) (oname : Str) (np : Ino) (nname : Str) :
    (m.rename op oname np nname).2.nextIno = m.nextIno ∧
      (m.rename op oname np nname).2.Numbered := by
  have hnext : (m.rename op oname np nname).2.nextIno = m.nextIno := by
    rcases m.rename_cases op oname np nname with ⟨e, -, he⟩ | ⟨c, row, r, m₁, -, -, hrep, he⟩
    · rw [he]
    · rw [he, moveDirLink_nextIno]
      have := m.replaceDst_nextIno np nname
      rwa [hrep] at this
  have hsame := sameContent_rename op oname np nname m
  exact ⟨hnext, h.change (h.dated.rename op oname np nname) hsame.chunks hnext.ge⟩

theorem Numbered.setattr (h : m.Numbered) (now : Time) (ino : Ino) {a : Attrs} (ha : a.size = none) :
    (m.setattr now ino a).nextIno = m.nextIno ∧ (m.setattr now ino a).Numbered := by
  have hnext : (m.setattr now ino a).nextIno = m.nextIno := by
    unfold Meta.setattr
    split <;> rfl
  have hsame : SameContent (fun _ => False) m (m.setattr now ino a) :=
    sameContent_setattr now ino ha m
  exact ⟨hnext, h.change (h.dated.setattr now ino nofun) hsame.chunks hnext.ge⟩

end Meta

/-! ## The store -/

namespace Store

variable [DecidableEq Sha]

/-- Rows are written only below `bound`. -/
def Below (bound : Ino) : Act Sha → Prop
  | .setChunks j rows => j < bound ∨ rows = []
  | _ => True

theorem exec_numbered {src : Src Sha} {t : Tick} {a : Act Sha} {bound : Ino} (ha : Below bound a)
    {s : Store Sha} (hb : s.index.nextIno = bound) (h : s.index.Numbered) :
    (exec src t a s).2.index.Numbered := by
  have hnext : (exec src t a s).2.index.nextIno = s.index.nextIno :=
    congrArg Prod.snd (exec_dirents src t a s)
  have hdated : (exec src t a s).2.index.Dated none := by
    refine exec_dated ?_ h.dated
    cases a with
    | setSize j size => exact nofun
    | _ => trivial
  refine ⟨hdated, ?_⟩
  rw [hnext]
  have hplain : Plain a → ∀ r ∈ (exec src t a s).2.index.chunks, r.1 < s.index.nextIno := by
    intro hp
    rw [(exec_plain hp).1]
    exact h.rows
  cases a with
  | setSize j size => exact h.rows
  | setChunks j rows =>
    intro r hr
    rcases List.mem_append.mp hr with hr | hr
    · exact h.rows r (List.mem_of_mem_filter hr)
    · obtain ⟨c, hc, rfl⟩ := List.mem_map.mp hr
      rcases ha with hj | rfl
      · exact hb ▸ hj
      · cases hc
  | _ => exact hplain trivial

/-- A program that writes rows below the next number only. -/
theorem seqRun_numbered {α : Type} {p : StoreProg Sha α} {s : Store Sha}
    (hp : p.All (Below s.index.nextIno)) (src : Src Sha) (ts : Nat → Tick) (n : Nat)
    (h : s.index.Numbered) :
    (machine.seqRun src ts p n s).2.2.index.nextIno = s.index.nextIno ∧
      (machine.seqRun src ts p n s).2.2.index.Numbered := by
  have henv : ∀ (e : FutId × PoolTick) (s' : Store Sha) (_ : Nat), True →
      (s'.index.nextIno = s.index.nextIno ∧ s'.index.Numbered) →
        (machine.env e s').index.nextIno = s.index.nextIno ∧ (machine.env e s').index.Numbered := by
    rintro e s' _ - ⟨hn, hs⟩
    have hnext : (poolStep e s').index.nextIno = s'.index.nextIno :=
      congrArg Prod.snd (poolStep_dirents e s')
    exact ⟨hnext.trans hn, hs.change (hs.dated.congr (poolStep_plain e s').2 hnext)
      (poolStep_plain e s').1 hnext.ge⟩
  have hsafe : machine.Safe (fun s' (_ : Nat) => s'.index.nextIno = s.index.nextIno ∧
      s'.index.Numbered) (fun _ => True) src (fun _ g' => g' = 0) p 0 := by
    refine Machine.Safe.ofAll (fun a ha s' t _ hs => ?_) hp
    have hnext : (exec src t a s').2.index.nextIno = s'.index.nextIno :=
      congrArg Prod.snd (exec_dirents src t a s')
    exact ⟨hnext.trans hs.1, exec_numbered ha hs.1 hs.2⟩
  obtain ⟨_, -, hs⟩ := Machine.Safe.seqRun (o := 0) henv hsafe (fun _ => trivial)
    (fun _ _ _ => trivial) (fun _ _ _ _ => trivial) ⟨rfl, h⟩
  exact hs

variable {bound : Ino}

omit [DecidableEq Sha] in
theorem below_freeFile (ino : Ino) : (freeFile ino : StoreProg Sha _).All (Below bound) := by
  refine ⟨trivial, fun shas => ?_⟩
  apply (all_releaseAll (fun _ => trivial) (fun _ => trivial) _).bind
  intro e
  cases e with
  | some e => trivial
  | none => exact ⟨.inr rfl, fun _ => trivial⟩

theorem below_putFile [Sha256 Sha] (cfg : StoreConfig) {ino : Ino} (hino : ino < bound) (size : Nat)
    (dirty : Option (Finset Nat)) :
    (putFile cfg ino size dirty : StoreProg Sha _).All (Below bound) := by
  have honly : (putFile cfg ino size dirty : StoreProg Sha _).All (Only ino) :=
    only_putFile cfg ino size dirty
  refine honly.mono fun a ha => ?_
  cases a with
  | setChunks j rows => exact .inl ((show j = ino from ha) ▸ hino)
  | _ => trivial

end Store

/-! ## One open state -/

namespace Wb

variable [DecidableEq Sha]

/-- The tables are numbered, and the state is of an inode whose number has been given out. -/
def Numbered (c : FileCtx Sha) : Prop :=
  c.store.index.Numbered ∧ c.st.ino < c.store.index.nextIno

theorem Numbered.seqRun {α : Type} {c : FileCtx Sha} (h : Numbered c) {p : StoreProg Sha α}
    (hp : p.All (Store.Below c.store.index.nextIno)) (src : Src Sha) (ts : Nat → Tick) (n : Nat) :
    Numbered { c with store := (Store.machine.seqRun src ts p n c.store).2.2 } := by
  obtain ⟨hnext, hnum⟩ := Store.seqRun_numbered hp src ts n h.1
  exact ⟨hnum, Nat.lt_of_lt_of_eq h.2 hnext.symm⟩

omit [DecidableEq Sha] in
theorem numbered_setState (g : FileState Sha → FileState Sha)
    (hg : ∀ st, (g st).frozen = st.frozen) : Preserves Numbered (Wb.setState g) := by
  refine Run.preserves_modify fun c h => ⟨h.1, ?_⟩
  have hino : (g c.st).ino = c.st.ino := congrArg Prod.fst (hg c.st)
  exact hino ▸ h.2

variable [Sha256 Sha]

theorem numbered_passive : Passive (Numbered : FileCtx Sha → Prop) where
  fetch ts n sha c h := h.seqRun (Store.all_fetch (fun _ => trivial) (fun _ => trivial) sha) _ ts n
  readRange ts n offset length c ino h :=
    h.seqRun (Store.all_readRange (fun _ => trivial) (fun _ => trivial) (fun _ => trivial) ino offset
      length) _ ts n
  temp c temp h := h
  state c st hf hd h := by
    have hino : st.ino = c.st.ino := congrArg Prod.fst hf
    exact ⟨h.1, hino ▸ h.2⟩

/-- The rows that a flush writes are of the inode of its state. -/
theorem numbered_flushLocked (cfg : WbConfig) :
    Preserves (Numbered : FileCtx Sha → Prop) (flushLocked cfg) := by
  intro ts n c h
  have hput : ∀ src, Preserves (fun c' : FileCtx Sha => Numbered c' ∧ c'.st.ino = c.st.ino) (call src
      (Store.putFile cfg.toStoreConfig c.st.ino c.st.size (some c.st.dirtyIdx))) :=
    fun src ts n c' h' => ⟨h'.1.seqRun (Store.below_putFile _ (h'.2 ▸ h'.1.2) _ _) src ts n, h'.2⟩
  have hrest : Preserves (fun c' : FileCtx Sha => Numbered c' ∧ c'.st.ino = c.st.ino) (do
      tempTruncate c.st.size
      let temp ← Run.gets FileCtx.temp
      call (tempSrc c.st.closed temp)
        (Store.putFile cfg.toStoreConfig c.st.ino c.st.size (some c.st.dirtyIdx))
      let rows ← getRows
      setState fun s => { s with
        base := rows.map BaseChunk.ofRow
        loaded := s.loaded ∪ Finset.Ico c.st.base.length rows.length
        dirtyIdx := ∅
        dirty := false }) := by
    refine Preserves.bind (preserves_checkOpen.bind fun _ =>
      Run.preserves_modify fun _ h' => h') fun _ => ?_
    refine Preserves.bind (Run.preserves_gets _) fun temp => ?_
    refine Preserves.bind (hput _) fun _ => ?_
    exact Preserves.bind (Run.preserves_gets _) fun rows => Run.preserves_modify fun _ h' => h'
  revert n
  change Wp ts (flushLocked cfg) (fun _ c' => Numbered c') c
  unfold flushLocked
  rw [getState, Run.wp_gets_bind]
  split
  · exact (hrest.wp ⟨h, rfl⟩).mono fun _ _ h' => h'.1
  · exact Run.wp_pure.mpr h

theorem numbered_flush (cfg : WbConfig) : Preserves (Numbered : FileCtx Sha → Prop) (flush cfg) := by
  unfold flush
  split
  · exact Run.preserves_pure ()
  · exact numbered_flushLocked cfg

end Wb

/-! ## The manager -/

namespace Writeback

/-- The tables are numbered, every state is of an inode whose number has been given out, and the
registered ones are found under it. -/
structure Numbered (w : Writeback Sha) : Prop where
  index : w.store.index.Numbered
  heap : ∀ sid, (w.heap sid).ino < w.store.index.nextIno
  entry : ∀ p ∈ w.states, (w.heap p.2).ino = p.1 ∧ p.2 < w.nextState

variable {w w' : Writeback Sha} {sid : StateId} {ino : Ino} {ts : Nat → Tick} {α : Type}

/-- A change that leaves the table, or shortens it. -/
theorem Numbered.change (h : w.Numbered) (hi : w'.store.index.Numbered)
    (hn : w.store.index.nextIno ≤ w'.store.index.nextIno) (hstates : w'.states ⊆ w.states)
    (hnext : w'.nextState = w.nextState) (hino : ∀ sid, (w'.heap sid).ino = (w.heap sid).ino) :
    w'.Numbered := by
  refine ⟨hi, fun sid => ?_, fun p hp => ?_⟩
  · rw [hino]
    exact Nat.lt_of_lt_of_le (h.heap sid) hn
  · rw [hino, hnext]
    exact h.entry p (hstates hp)

theorem ino_modState {f : FileState Sha → FileState Sha} (hf : ∀ st, (f st).ino = st.ino)
    (w : Writeback Sha) (sid sid' : StateId) :
    ((w.modState sid f).heap sid').ino = (w.heap sid').ino := by
  by_cases hs : sid' = sid
  · subst hs
    rw [heap_modState, hf]
  · rw [heap_modState_ne w hs]

theorem Numbered.modState (h : w.Numbered) {f : FileState Sha → FileState Sha}
    (hf : ∀ st, (f st).ino = st.ino) : (w.modState sid f).Numbered :=
  h.change h.index le_rfl (List.Subset.refl _) rfl (ino_modState hf w sid)

theorem Numbered.pop (h : w.Numbered) (ino : Ino) : (w.pop ino).Numbered :=
  h.change h.index le_rfl (List.filter_subset_self _) rfl fun _ => rfl

theorem Numbered.closeState (h : w.Numbered) : (w.closeState sid).Numbered := by
  have hmod : (w.modState sid fun st => { st with closed := true }).Numbered :=
    h.modState fun _ => rfl
  exact ⟨hmod.index, hmod.heap, hmod.entry⟩

theorem Numbered.openLocked (h : w.Numbered) (hino : ino < w.store.index.nextIno) :
    ((w.openLocked ino).2.heap (w.openLocked ino).1).ino = ino ∧ (w.openLocked ino).2.Numbered := by
  cases hget : w.get ino with
  | some sid =>
    have hmod : (w.modState sid fun st => { st with refcount := st.refcount + 1 }).Numbered :=
      h.modState fun _ => rfl
    rw [openLocked_old hget]
    exact ⟨(hmod.entry _ (mem_of_get hget)).1, hmod⟩
  | none =>
    obtain ⟨gen, nextGen, ho, -⟩ := openLocked_new hget
    rw [ho]
    have hself : ∀ st, Function.update w.heap w.nextState st w.nextState = st :=
      fun st => Function.update_self _ _ _
    have hother : ∀ sid st, sid ≠ w.nextState →
        Function.update w.heap w.nextState st sid = w.heap sid :=
      fun sid st hne => Function.update_of_ne hne _ _
    refine ⟨congrArg FileState.ino (hself _), h.index, fun sid => ?_, fun p hp => ?_⟩
    · dsimp only
      by_cases hs : sid = w.nextState
      · subst hs
        rw [hself]
        exact hino
      · rw [hother _ _ hs]
        exact h.heap sid
    · dsimp only at hp ⊢
      rcases List.mem_append.mp hp with hp | hp
      · obtain ⟨hi, hlt⟩ := h.entry p hp
        rw [hother _ _ (Nat.ne_of_lt hlt)]
        exact ⟨hi, Nat.lt_succ_of_lt hlt⟩
      · obtain rfl := List.mem_singleton.mp hp
        exact ⟨congrArg FileState.ino (hself _), Nat.lt_succ_self _⟩

variable [DecidableEq Sha]

omit [DecidableEq Sha] in
/-- Code on a state. -/
theorem numbered_onState {m : FileRun Sha α} (hm : Preserves Wb.Numbered m)
    (hf : Run.Keeps (fun c => c.st.frozen) m) (hn : Run.Keeps Wb.names m) (sid : StateId) :
    Preserves Numbered (Writeback.onState sid m) := by
  intro ts n w h
  have hnext : (Writeback.onState sid m ts n w).2.2.store.index.nextIno = w.store.index.nextIno :=
    congrArg Namespace.nextIno (hn ts n (w.view sid))
  have hino : (m ts n (w.view sid)).2.2.st.ino = (w.heap sid).ino :=
    congrArg Prod.fst (hf ts n (w.view sid))
  refine h.change (hm ts n (w.view sid) ⟨h.index, h.heap sid⟩).1 hnext.ge (List.Subset.refl _) rfl
    fun sid' => ?_
  change (Function.update w.heap sid _ sid').ino = _
  rw [Function.update_apply]
  split
  · next he => exact he ▸ hino
  · rfl

variable [Sha256 Sha] (cfg : WbConfig)

theorem numbered_flushed (sid : StateId) :
    Preserves (Numbered : Writeback Sha → Prop) (Writeback.onState sid (Wb.flushLocked cfg)) :=
  numbered_onState (Wb.numbered_flushLocked cfg) (Wb.frozen_aside.keeps_flushLocked cfg)
    (Wb.names_aside.keeps_flushLocked cfg) sid

theorem Numbered.openFile (h : w.Numbered) (hino : ino < w.store.index.nextIno) (forWrite : Bool) :
    Wp ts (openFile cfg ino forWrite) (fun _ w' => w'.Numbered) w := by
  unfold Writeback.openFile
  rw [Run.wp_modifyGet_bind]
  obtain ⟨-, ho⟩ := h.openLocked hino
  have hmat : ∀ sid, Preserves (Numbered : Writeback Sha → Prop)
      (Writeback.onState sid (Wb.materialize cfg)) :=
    fun sid => numbered_onState (Wb.numbered_passive.materialize cfg)
      (Wb.frozen_aside.keeps_materialize cfg) (Wb.names_aside.keeps_materialize cfg) sid
  split
  · exact (Preserves.bind (hmat _) fun _ => Run.preserves_pure _).wp ho
  · exact Run.wp_pure.mpr ho

theorem numbered_release (sid : StateId) :
    Preserves (Numbered : Writeback Sha → Prop) (release cfg sid) := by
  refine Preserves.bind Run.preserves_tick fun t => ?_
  refine Preserves.bind (Run.preserves_modifyGet fun w h => ?_) fun last => ?_
  · have hmod : (w.modState sid fun st => { st with refcount := st.refcount - 1 }).Numbered :=
      h.modState fun _ => rfl
    unfold releaseLocked
    dsimp only
    split
    · exact hmod
    · split
      · exact hmod.modState (f := fun st => { st with idleSince := t.now }) fun _ => rfl
      · exact hmod.pop _
  · split
    · exact Preserves.bind (numbered_flushed cfg sid) fun _ =>
        Run.preserves_modify fun _ h => h.closeState
    · exact Run.preserves_pure ()

omit [DecidableEq Sha] [Sha256 Sha] in
theorem numbered_discard (ino : Ino) :
    Preserves (Numbered : Writeback Sha → Prop) (discard ino) := by
  refine Preserves.bind (Run.preserves_modifyGet fun _ h => h.pop ino) fun sid => ?_
  cases sid with
  | none => exact Run.preserves_pure ()
  | some sid =>
    refine Preserves.bind (Run.preserves_modify fun _ h => h.modState fun _ => rfl) fun _ => ?_
    exact Run.preserves_modify fun _ h => h.closeState

theorem numbered_reapState (force : Bool) (sid : StateId) :
    Preserves (Numbered : Writeback Sha → Prop) (reapState cfg force sid) := by
  refine Preserves.bind (Preserves.tryCatch ?_ fun e => ?_) fun raised => ?_
  · exact Preserves.bind (numbered_flushed cfg sid) fun _ => Run.preserves_pure _
  · refine Preserves.bind Run.preserves_tick fun t => ?_
    refine Preserves.bind (Run.preserves_modify fun _ h => h.modState fun _ => rfl) fun _ => ?_
    split
    · exact Run.preserves_raise _
    · exact Run.preserves_pure _
  · cases raised with
    | some e => exact Run.preserves_pure _
    | none =>
      refine Preserves.bind (Run.preserves_modifyGet fun w h => ?_) fun done => ?_
      · unfold reapLocked
        split
        · exact h.pop _
        · exact h
      · split
        · exact Preserves.bind (Run.preserves_modify fun _ h => h.closeState) fun _ =>
            Run.preserves_pure _
        · exact Run.preserves_pure _

theorem numbered_reapEach (force : Bool) (sids : List StateId) :
    Preserves (Numbered : Writeback Sha → Prop) (reapEach cfg force sids) := by
  induction sids with
  | nil => exact Run.preserves_pure _
  | cons sid sids ih =>
    exact Preserves.bind (numbered_reapState cfg force sid) fun _ =>
      Preserves.bind ih fun _ => Run.preserves_pure _

theorem numbered_reapOnce (force : Bool) :
    Preserves (Numbered : Writeback Sha → Prop) (reapOnce cfg force) :=
  Preserves.bind Run.preserves_tick fun _ => Preserves.bind (Run.preserves_gets _) fun _ =>
    numbered_reapEach cfg force _

theorem numbered_shutdown : Preserves (Numbered : Writeback Sha → Prop) (shutdown cfg) := by
  refine Preserves.bind (Run.preserves_modify fun w h => ?_) fun _ =>
    Preserves.bind (numbered_reapOnce cfg true) fun _ => Run.preserves_pure _
  refine h.change h.index le_rfl (List.Subset.refl _) rfl fun sid => ?_
  unfold zeroCounts
  dsimp only
  split <;> rfl

theorem Numbered.truncatePath (h : w.Numbered) (hino : ino < w.store.index.nextIno) (length : Nat) :
    Wp ts (truncatePath cfg ino length) (fun _ w' => w'.Numbered) w := by
  have hedit : ∀ sid, Preserves (Numbered : Writeback Sha → Prop) (Run.andFinally (do
      Writeback.onState sid (Wb.truncate cfg length)
      Writeback.onState sid (Wb.flush cfg)) (Writeback.release cfg sid)) := by
    intro sid
    refine Preserves.andFinally ?_ (numbered_release cfg sid)
    refine Preserves.bind (numbered_onState
      (Wb.numbered_passive.truncate Wb.numbered_setState cfg length)
      (Wb.frozen_aside.keeps_truncate cfg length) (Wb.names_aside.keeps_truncate cfg length) sid)
      fun _ => ?_
    exact numbered_onState (Wb.numbered_flush cfg) (Wb.frozen_aside.keeps_flush cfg)
      (Wb.names_aside.keeps_flush cfg) sid
  refine Wp.bind ((h.openFile cfg hino true).mono fun r w' hw => ?_)
  cases r with
  | error e => exact hw
  | ok sid => exact (hedit sid).wp hw

omit [Sha256 Sha] in
theorem numbered_freeFile (ino : Ino) :
    Preserves (Numbered : Writeback Sha → Prop) (callStore (Store.freeFile ino)) := by
  intro ts n w h
  obtain ⟨hnext, hi⟩ := Store.seqRun_numbered (Store.below_freeFile ino) Wb.noSrc ts n h.index
  exact h.change hi hnext.ge (List.Subset.refl _) rfl fun _ => rfl

end Writeback

/-! ## The operations -/

namespace FsCore

/-- The invariant of the manager. -/
def Numbered (s : FsCore Sha) : Prop := s.toWriteback.Numbered

variable {s : FsCore Sha} {ts : Nat → Tick} {α : Type}

theorem numbered_wb {m : WbRun Sha α} (hm : Preserves Writeback.Numbered m) :
    Preserves Numbered (wb m) :=
  fun ts n s h => hm ts n s.toWriteback h

theorem numbered_index {f : Meta Sha → Except (PyErr Sha) α × Meta Sha}
    (hf : ∀ m : Meta Sha, m.Numbered → m.nextIno ≤ (f m).2.nextIno ∧ (f m).2.Numbered) :
    Preserves Numbered (index f) :=
  Run.preserves_attempt fun _ h => Writeback.Numbered.change h (hf _ h.index).2 (hf _ h.index).1
    (List.Subset.refl _) rfl fun _ => rfl

theorem numbered_getattr (ino : Ino) : Preserves (Numbered : FsCore Sha → Prop) (getattr ino) := by
  refine Preserves.bind (Run.preserves_gets _) fun n => ?_
  cases n with
  | none => exact Run.preserves_raise _
  | some n => exact Run.preserves_gets _

theorem numbered_ensureAbsent (parent : Ino) (name : Str) :
    Preserves (Numbered : FsCore Sha → Prop) (ensureAbsent parent name) := by
  refine Preserves.bind (Run.preserves_gets _) fun n => ?_
  cases n with
  | none => exact Run.preserves_pure _
  | some n => exact Run.preserves_raise _

theorem numbered_makeNode (parent : Ino) (name : Str) (mode : Nat) (kind : Kind) (uid gid : Nat)
    (target : Option Str) : Preserves (Numbered : FsCore Sha → Prop)
      (makeNode parent name mode kind uid gid target) :=
  Preserves.bind Run.preserves_tick fun t =>
    numbered_index fun _ h => h.create t.now parent name mode kind uid gid target

variable [DecidableEq Sha]

theorem numbered_dropInode (ino : Ino) : Preserves (Numbered : FsCore Sha → Prop) (dropInode ino) := by
  refine Preserves.bind (Run.preserves_gets _) fun opened => ?_
  split
  · exact Run.preserves_modify fun _ h => h
  · exact Preserves.bind (numbered_wb (Writeback.numbered_discard ino)) fun _ =>
      numbered_wb (Writeback.numbered_freeFile ino)

omit [DecidableEq Sha] in
theorem numbered_rmdir (parent : Ino) (name : Str) :
    Preserves (Numbered : FsCore Sha → Prop) (rmdir parent name) := by
  refine Preserves.bind (Run.preserves_gets _) fun n => ?_
  cases n with
  | none => exact Run.preserves_raise _
  | some n =>
    dsimp only
    split
    · exact Run.preserves_raise _
    · refine Preserves.bind (Run.preserves_gets _) fun count => ?_
      split
      · exact Run.preserves_raise _
      · refine Preserves.bind Run.preserves_tick fun t => ?_
        have hdrop : Preserves (Numbered : FsCore Sha → Prop)
            (index (Meta.unlinkDirent t.now parent name)) :=
          numbered_index fun _ h => ⟨(h.unlinkDirent t.now parent name).1.ge,
            (h.unlinkDirent t.now parent name).2⟩
        exact hdrop.bind fun _ => Run.preserves_pure _

omit [DecidableEq Sha] in
theorem numbered_link (ino parent : Ino) (name : Str) :
    Preserves (Numbered : FsCore Sha → Prop) (link ino parent name) := by
  refine Preserves.bind (Run.preserves_gets _) fun n => ?_
  cases n with
  | none => exact Run.preserves_raise _
  | some n =>
    dsimp only
    split
    · exact Run.preserves_raise _
    · refine Preserves.bind (numbered_ensureAbsent parent name) fun _ => ?_
      refine Preserves.bind Run.preserves_tick fun t => ?_
      refine Preserves.bind (numbered_index fun _ h => ?_) fun _ => numbered_getattr ino
      exact ⟨(h.link t.now parent name ino).1.ge, (h.link t.now parent name ino).2⟩

theorem numbered_unlink (parent : Ino) (name : Str) :
    Preserves (Numbered : FsCore Sha → Prop) (unlink parent name) := by
  refine Preserves.bind (Run.preserves_gets _) fun n => ?_
  cases n with
  | none => exact Run.preserves_raise _
  | some n =>
    dsimp only
    split
    · exact Run.preserves_raise _
    · refine Preserves.bind Run.preserves_tick fun t => ?_
      refine Preserves.bind (numbered_index fun _ h => ?_) fun r => ?_
      · exact ⟨(h.unlinkDirent t.now parent name).1.ge, (h.unlinkDirent t.now parent name).2⟩
      · split
        · exact numbered_dropInode _
        · exact Run.preserves_pure _

theorem numbered_rename (oldp : Ino) (oldname : Str) (newp : Ino) (newname : Str) :
    Preserves (Numbered : FsCore Sha → Prop) (rename oldp oldname newp newname) := by
  refine Preserves.bind (Run.preserves_gets _) fun n => ?_
  cases n with
  | none => exact Run.preserves_raise _
  | some n =>
    refine Preserves.bind (Run.preserves_gets _) fun full => ?_
    split
    · exact Run.preserves_raise _
    · refine Preserves.bind (numbered_index fun _ h => ?_) fun r => ?_
      · exact ⟨(h.rename oldp oldname newp newname).1.ge, (h.rename oldp oldname newp newname).2⟩
      · cases r with
        | none => exact Run.preserves_pure _
        | some ino => exact numbered_dropInode ino

variable [Sha256 Sha] (cfg : WbConfig)

theorem Numbered.openFile (h : s.Numbered) {ino : Ino} (hino : ino < s.store.index.nextIno)
    (forWrite : Bool) :
    Wp ts (wb (Writeback.openFile cfg ino forWrite)) (fun _ s' => s'.Numbered) s :=
  Run.wp_zoom.mpr (Writeback.Numbered.openFile cfg h hino forWrite)

theorem numbered_setattr (ino : Ino) (a : Meta.Attrs) :
    Preserves (Numbered : FsCore Sha → Prop) (setattr cfg ino a) := by
  have hrest : Preserves (Numbered : FsCore Sha → Prop) (do
      let t ← Run.tick
      index fun m => (.ok (), m.setattr t.now ino { a with size := none })
      getattr ino) := by
    refine Preserves.bind Run.preserves_tick fun t => ?_
    refine Preserves.bind (numbered_index fun m h => ?_) fun _ => numbered_getattr ino
    have hset := h.setattr t.now ino (show ({ a with size := none } : Meta.Attrs).size = none from rfl)
    exact ⟨hset.1.ge, hset.2⟩
  intro ts n s h
  revert n
  change Wp ts (setattr cfg ino a) (fun _ s' => s'.Numbered) s
  unfold setattr getInode
  rw [Run.wp_gets_bind]
  cases hi : s.store.index.getInode ino with
  | none => exact Run.wp_raise.mpr h
  | some node =>
    cases a.size with
    | none => exact hrest.wp h
    | some size =>
      dsimp only
      split
      · refine Wp.bind (Run.wp_zoom.mpr ((Writeback.Numbered.truncatePath cfg h
          (h.index.lt hi) size).mono fun r w' hw => ?_))
        cases r with
        | error e => exact hw
        | ok u => exact hrest.wp hw
      · exact hrest.wp h

theorem numbered_openFh (ino : Ino) (flags : Nat) :
    Preserves (Numbered : FsCore Sha → Prop) (openFh cfg ino flags) := by
  have hopen : ∀ {ts : Nat → Tick} {s : FsCore Sha}, s.Numbered → ino < s.store.index.nextIno →
      Wp ts (do
        let sid ← wb (Writeback.openFile cfg ino (wantsWrite flags))
        newFh sid) (fun _ s' => s'.Numbered) s := by
    intro ts s h hino
    refine Wp.bind ((h.openFile cfg hino _).mono fun r s' hs => ?_)
    cases r with
    | error e => exact hs
    | ok sid => exact Run.wp_modifyGet.mpr hs
  intro ts n s h
  revert n
  change Wp ts (openFh cfg ino flags) (fun _ s' => s'.Numbered) s
  unfold openFh getInode
  rw [Run.wp_gets_bind]
  cases hi : s.store.index.getInode ino with
  | none => exact Run.wp_raise.mpr h
  | some node =>
    have hino := h.index.lt hi
    dsimp only
    split
    · exact Run.wp_raise.mpr h
    · split
      · have hkeep : Wp ts (Writeback.truncatePath cfg ino 0)
            (fun _ w' => w'.names = s.toWriteback.names) s.toWriteback :=
          (Writeback.keeps_truncatePath cfg ino 0).wp
        refine Wp.bind (Run.wp_zoom.mpr (((Writeback.Numbered.truncatePath cfg h hino 0).and
          hkeep).mono fun r w' hw => ?_))
        cases r with
        | error e => exact hw.1
        | ok u =>
          have hnext : w'.store.index.nextIno = s.store.index.nextIno :=
            congrArg Namespace.nextIno hw.2
          exact hopen hw.1 (Nat.lt_of_lt_of_eq hino hnext.symm)
      · exact hopen h hino

theorem numbered_create (parent : Ino) (name : Str) (mode flags uid gid : Nat) :
    Preserves (Numbered : FsCore Sha → Prop) (create cfg parent name mode flags uid gid) := by
  have hopen : ∀ {ts : Nat → Tick} {s : FsCore Sha} (node : Inode), s.Numbered →
      node.id < s.store.index.nextIno → Wp ts (do
        let sid ← wb (Writeback.openFile cfg node.id true)
        let fh ← newFh sid
        pure (fh, node)) (fun _ s' => s'.Numbered) s := by
    intro ts s node h hino
    refine Wp.bind ((h.openFile cfg hino _).mono fun r s' hs => ?_)
    cases r with
    | error e => exact hs
    | ok sid => exact Run.wp_modifyGet_bind.mpr (Run.wp_pure.mpr hs)
  intro ts n s h
  revert n
  change Wp ts (create cfg parent name mode flags uid gid) (fun _ s' => s'.Numbered) s
  unfold create lookup
  rw [Run.wp_gets_bind]
  cases hl : s.store.index.lookup parent name with
  | some node =>
    dsimp only
    split
    · exact Run.wp_raise_bind.mpr h
    · exact hopen node h (h.index.lt (Meta.getInode_of_lookup hl))
  | none =>
    have hmake : Wp ts (makeNode parent name (sIfreg ||| (mode &&& 0o7777)) .file uid gid none)
        (fun r s' => s'.Numbered ∧ ∀ node, r = .ok node →
          ∃ node', s'.store.index.getInode node.id = some node') s := by
      refine Run.Wp.tick_bind fun n => Run.wp_attempt.mpr ⟨?_, fun node hr => created_row hr⟩
      obtain ⟨hle, hi⟩ := h.index.create (ts n).now parent name (sIfreg ||| (mode &&& 0o7777)) .file
        uid gid none
      exact Writeback.Numbered.change h hi hle (List.Subset.refl _) rfl fun _ => rfl
    refine Wp.bind (hmake.mono fun r s' hs => ?_)
    cases r with
    | error e => exact hs.1
    | ok node =>
      obtain ⟨node', hnode⟩ := hs.2 node rfl
      exact hopen node hs.1 (Writeback.Numbered.index hs.1 |>.lt hnode)

omit [DecidableEq Sha] [Sha256 Sha] in
theorem numbered_onHandle (fh : Nat) {m : FileRun Sha α} (hm : Preserves Wb.Numbered m)
    (hf : Run.Keeps (fun c => c.st.frozen) m) (hn : Run.Keeps Wb.names m) :
    Preserves Numbered (do
      let sid ← getState fh
      wb (Writeback.onState sid m)) := by
  refine Preserves.bind (Preserves.bind (Run.preserves_gets _) fun sid => ?_) fun sid =>
    numbered_wb (Writeback.numbered_onState hm hf hn sid)
  cases sid with
  | none => exact Run.preserves_raise _
  | some sid => exact Run.preserves_pure _

theorem numbered_release (fh : Nat) : Preserves (Numbered : FsCore Sha → Prop) (release cfg fh) := by
  refine Preserves.bind (Run.preserves_modifyGet fun _ h => h) fun sid => ?_
  cases sid with
  | none => exact Run.preserves_pure _
  | some sid =>
    refine Preserves.bind (numbered_wb (Writeback.numbered_release cfg sid)) fun _ => ?_
    refine Preserves.bind (Run.preserves_gets _) fun ino => ?_
    refine Preserves.bind (Run.preserves_gets _) fun last => ?_
    split
    · refine Preserves.bind (Run.preserves_modify fun _ h => h) fun _ => ?_
      exact Preserves.bind (numbered_wb (Writeback.numbered_discard ino)) fun _ =>
        numbered_wb (Writeback.numbered_freeFile ino)
    · exact Run.preserves_pure _

end FsCore

/-! ## Runs -/

namespace Event

variable {cfg : WbConfig} [DecidableEq Sha] [Sha256 Sha] {ts : Nat → Tick} {s : FsCore Sha}

variable (cfg) in
theorem numbered_perform (e : Event) :
    Preserves (FsCore.Numbered : FsCore Sha → Prop) (e.perform cfg) := by
  have hdone : ∀ {α : Type} {m : FsRun Sha α}, Preserves FsCore.Numbered m →
      Preserves FsCore.Numbered (do
        let _ ← m
        pure [] : FsRun Sha (List (PyErr Sha))) :=
    fun hm => hm.bind fun _ => Run.preserves_pure _
  have hnode : ∀ parent name mode kind uid gid target, Preserves (FsCore.Numbered : FsCore Sha → Prop) (do
      FsCore.ensureAbsent parent name
      FsCore.makeNode parent name mode kind uid gid target) := fun _ _ _ _ _ _ _ =>
    (FsCore.numbered_ensureAbsent _ _).bind fun _ => FsCore.numbered_makeNode _ _ _ _ _ _ _
  cases e with
  | shutdown => exact hdone (FsCore.numbered_wb (Writeback.numbered_shutdown cfg))
  | op o =>
    cases o with
    | mkdir parent name mode uid gid => exact hdone (hnode _ _ _ _ _ _ _)
    | rmdir parent name => exact hdone (FsCore.numbered_rmdir parent name)
    | createNode parent name mode uid gid => exact hdone (hnode _ _ _ _ _ _ _)
    | symlink parent name target uid gid => exact hdone (hnode _ _ _ _ _ _ _)
    | link ino newParent newName => exact hdone (FsCore.numbered_link _ _ _)
    | unlink parent name => exact hdone (FsCore.numbered_unlink _ _)
    | rename oldp oldname newp newname => exact hdone (FsCore.numbered_rename _ _ _ _)
    | setattr ino a => exact hdone (FsCore.numbered_setattr cfg ino a)
    | openFh ino flags => exact hdone (FsCore.numbered_openFh cfg ino flags)
    | create parent name mode flags uid gid =>
      exact hdone (FsCore.numbered_create cfg parent name mode flags uid gid)
    | read fh off size =>
      exact hdone (FsCore.numbered_onHandle fh (Wb.numbered_passive.read cfg size off)
        (Wb.frozen_aside.keeps_read cfg size off) (Wb.names_aside.keeps_read cfg size off))
    | write fh off data =>
      exact hdone (FsCore.numbered_onHandle fh
        (Wb.numbered_passive.write Wb.numbered_setState cfg data off)
        (Wb.frozen_aside.keeps_write cfg data off) (Wb.names_aside.keeps_write cfg data off))
    | flush fh =>
      exact hdone (FsCore.numbered_onHandle fh (Wb.numbered_flush cfg)
        (Wb.frozen_aside.keeps_flush cfg) (Wb.names_aside.keeps_flush cfg))
    | fsync fh =>
      exact hdone (FsCore.numbered_onHandle fh (Wb.numbered_flushLocked cfg)
        (Wb.frozen_aside.keeps_flushLocked cfg) (Wb.names_aside.keeps_flushLocked cfg))
    | release fh => exact hdone (FsCore.numbered_release cfg fh)
    | reap => exact FsCore.numbered_wb (Writeback.numbered_reapOnce cfg false)

theorem runAll_numbered (h : s.Numbered) (es : List Event) (n : Nat) :
    (runAll cfg ts es n s).2.Numbered := by
  induction es generalizing n s with
  | nil => exact h
  | cons e es ih => exact ih (numbered_perform cfg e ts n s h) _

omit [DecidableEq Sha] [Sha256 Sha] in
/-- On a new filesystem the root has its number. -/
theorem empty_numbered (now : Time) (uid gid : Nat) :
    (FsCore.empty now uid gid : FsCore Sha).Numbered := by
  refine ⟨⟨⟨fun i n hn => ?_, nofun, nofun⟩, nofun⟩, fun sid => Nat.succ_pos 1, nofun⟩
  by_cases hi : i = rootIno
  · rw [hi]
    exact Nat.lt_succ_self 1
  · have hnone : (Meta.fresh now uid gid : Meta Sha).inodes i = none := by
      simp [Meta.fresh, Function.update_of_ne hi]
    cases hnone.symm.trans hn

end Event

end Tgfs
