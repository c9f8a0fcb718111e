import Tgfs.Cache.Proofs.Handles
import Tgfs.Fuse.FsCore
import Tgfs.MetaSteps
import Tgfs.Store.Proofs.Incremental

/-!
# Modification times

The modification time of an inode is written by `setattr` and by the `set_size` of a flush. So a
time that was set stays as long as no state of the inode that is in use has anything to flush.
-/

namespace Tgfs

open Run (Wp Preserves)

variable {Sha : Type}

/-! ## The index -/

namespace Meta

/-- Inode numbers have been given out, and the promised time is that of its row. -/
structure Dated (promise : Option (Ino × Time)) (m : Meta Sha) : Prop where
  given : ∀ i n, m.inodes i = some n → i < m.nextIno
  old : ∀ ino t, promise = some (ino, t) → ino < m.nextIno
  time : ∀ ino t n, promise = some (ino, t) → m.inodes ino = some n → n.mtime = t

variable {promise : Option (Ino × Time)} {m m' : Meta Sha}

theorem Dated.congr (h : m.Dated promise) (hi : m'.inodes = m.inodes)
    (hn : m'.nextIno = m.nextIno) : m'.Dated promise := by
  refine ⟨?_, ?_, ?_⟩
  · rw [hi, hn]
    exact h.given
  · rw [hn]
    exact h.old
  · rw [hi]
    exact h.time

theorem Dated.updateInode (h : m.Dated promise) {i : Ino} {f : Inode → Inode}
    (hf : ∀ ino t, promise = some (ino, t) → i = ino → ∀ n, (f n).mtime = n.mtime) :
    (m.updateInode i f).Dated promise := by
  have hrow : ∀ j n, (m.updateInode i f).inodes j = some n →
      ∃ n', m.inodes j = some n' ∧ (n = n' ∨ j = i ∧ n = f n') := by
    intro j n hn
    by_cases hj : j = i
    · subst hj
      rw [updateInode_self] at hn
      obtain ⟨n', hn', rfl⟩ := Option.map_eq_some_iff.mp hn
      exact ⟨n', hn', .inr ⟨rfl, rfl⟩⟩
    · rw [updateInode_ne m hj] at hn
      exact ⟨n, hn, .inl rfl⟩
  refine ⟨fun j n hn => ?_, h.old, fun ino t n hp hn => ?_⟩
  · obtain ⟨n', hn', -⟩ := hrow j n hn
    exact h.given j n' hn'
  · obtain ⟨n', hn', rfl | ⟨rfl, rfl⟩⟩ := hrow ino n hn
    · exact h.time ino t n hp hn'
    · rw [hf ino t hp rfl]
      exact h.time ino t n' hp hn'

theorem Dated.deleteInode (h : m.Dated promise) (i : Ino) : (m.deleteInode i).Dated promise := by
  have hrow : ∀ j n, (m.deleteInode i).inodes j = some n → m.inodes j = some n := by
    intro j n hn
    by_cases hj : j = i
    · subst hj
      have hself : (m.deleteInode j).inodes j = none := Function.update_self _ _ _
      cases hself.symm.trans hn
    · exact (Function.update_of_ne hj _ _).symm.trans hn
  exact ⟨fun j n hn => h.given j n (hrow j n hn), h.old,
    fun ino t n hp hn => h.time ino t n hp (hrow ino n hn)⟩

theorem Dated.addRow (h : m.Dated promise) (row : Inode) : (m.addRow row).Dated promise := by
  refine ⟨fun i n hn => ?_, fun ino t hp => Nat.lt_succ_of_lt (h.old ino t hp),
    fun ino t n hp hn => ?_⟩
  · by_cases hi : i = m.nextIno
    · exact hi ▸ Nat.lt_succ_self _
    · exact Nat.lt_succ_of_lt (h.given i n ((Function.update_of_ne hi _ _).symm.trans hn))
  · have hne := Nat.ne_of_lt (h.old ino t hp)
    exact h.time ino t n hp ((Function.update_of_ne hne _ _).symm.trans hn)

theorem Dated.addDirLink (h : m.Dated promise) (kind : Kind) (parent : Ino) (k : Int) :
    (m.addDirLink kind parent k).Dated promise := by
  unfold Meta.addDirLink
  split
  · exact h.updateInode fun _ _ _ _ _ => rfl
  · exact h

theorem Dated.dropLink (h : m.Dated promise) (parent : Ino) (name : Str) (c : Ino) (row : Inode)
    {f : Inode → Inode} (hf : ∀ n, (f n).mtime = n.mtime) :
    (m.dropLink parent name c row f).Dated promise := by
  have hd : (m.deleteDirent parent name).Dated promise := h.congr rfl rfl
  exact (hd.updateInode fun _ _ _ _ => hf).addDirLink _ _ _

theorem Dated.reap (h : m.Dated promise) (c : Ino) (k : Int) : (m.reap c k).Dated promise := by
  unfold Meta.reap
  split
  · exact h.deleteInode c
  · exact h

theorem Dated.create (h : m.Dated promise) (now : Time) (parent : Ino) (name : Str) (mode : Nat)
    (kind : Kind) (uid gid : Nat) (target : Option Str) :
    (m.create now parent name mode kind uid gid target).2.Dated promise := by
  rcases m.create_cases now parent name mode kind uid gid target with ⟨-, he⟩ | ⟨-, n, -, he⟩
  · rw [he]
    exact h.addRow _
  · rw [he]
    have hrow := h.addRow (m.newRow now mode kind uid gid target)
    have hent : ((m.addRow (m.newRow now mode kind uid gid target)).insertDirent parent name
        m.nextIno).Dated promise := hrow.congr rfl rfl
    exact hent.addDirLink _ _ _

theorem Dated.link (h : m.Dated promise) (now : Time) (parent : Ino) (name : Str) (ino : Ino) :
    (m.link now parent name ino).2.Dated promise := by
  rcases m.link_cases now parent name ino with ⟨-, he⟩ | ⟨-, he⟩
  · rw [he]
    exact h
  · rw [he]
    have hent : (m.insertDirent parent name ino).Dated promise := h.congr rfl rfl
    exact hent.updateInode fun _ _ _ _ _ => rfl

theorem Dated.unlinkDirent (h : m.Dated promise) (now : Time) (parent : Ino) (name : Str) :
    (m.unlinkDirent now parent name).2.Dated promise := by
  rcases m.unlinkDirent_cases now parent name with ⟨⟨e, -, he⟩, -⟩ | ⟨c, row, -, -, he⟩
  · rw [he]
    exact h
  · rw [he]
    refine (h.dropLink parent name c row ?_).reap _ _
    intro n
    rfl

theorem Dated.rename (h : m.Dated promise) (op : Ino) (oname : Str) (np : Ino) (nname : Str) :
    (m.rename op oname np nname).2.Dated promise := by
  rcases m.rename_cases op oname np nname with ⟨e, -, he⟩ | ⟨c, row, r, m₁, -, -, hrep, he⟩
  · rw [he]
    exact h
  · have h₁ : m₁.Dated promise := by
      rcases m.replaceDst_cases np nname with ⟨-, hr⟩ | ⟨c', -, -, hr⟩ | ⟨c', row', -, -, hr⟩
      · rw [hr] at hrep
        cases hrep
        exact h
      · rw [hr] at hrep
        cases hrep
      · rw [hr] at hrep
        cases hrep
        refine (h.dropLink np nname c' row' ?_).reap _ _
        intro n
        rfl
    rw [he]
    have hmove : (m₁.moveDirent op oname np nname).Dated promise := h₁.congr rfl rfl
    unfold Meta.moveDirLink
    split
    · have hold := hmove.updateInode (i := op) (f := addNlink (-1)) fun _ _ _ _ _ => rfl
      exact hold.updateInode fun _ _ _ _ _ => rfl
    · exact hmove

theorem Dated.setattr (h : m.Dated promise) (now : Time) (i : Ino) {a : Attrs}
    (ha : ∀ ino t, promise = some (ino, t) → i = ino → a.mtime = none) :
    (m.setattr now i a).Dated promise := by
  unfold Meta.setattr
  split
  · exact h
  · refine h.updateInode fun ino t hp hi n => ?_
    rw [ha ino t hp hi]
    rfl

end Meta

/-! ## The store -/

variable [DecidableEq Sha] {promise : Option (Ino × Time)}

namespace Store

/-- The action is not the `set_size` of the promised inode. -/
def Timeless (promise : Option (Ino × Time)) : Act Sha → Prop
  | .setSize j _ => ∀ ino t, promise = some (ino, t) → j ≠ ino
  | _ => True

theorem exec_dated {src : Src Sha} {t : Tick} {a : Act Sha} (ha : Timeless promise a)
    {s : Store Sha} (h : s.index.Dated promise) : (exec src t a s).2.index.Dated promise := by
  have hn : (exec src t a s).2.index.nextIno = s.index.nextIno :=
    congrArg Prod.snd (exec_dirents src t a s)
  have hplain : Plain a → (exec src t a s).2.index.Dated promise :=
    fun hp => h.congr (exec_plain hp).2 hn
  cases a with
  | setSize j size => exact h.updateInode fun ino t' hp hj => absurd hj (ha ino t' hp)
  | setChunks j rows => exact h.congr rfl rfl
  | _ => exact hplain trivial

theorem seqRun_dated {α : Type} {p : StoreProg Sha α} (hp : p.All (Timeless promise))
    (src : Src Sha) (ts : Nat → Tick) (n : Nat) {s : Store Sha} (h : s.index.Dated promise) :
    (machine.seqRun src ts p n s).2.2.index.Dated promise := by
  have henv : ∀ (e : FutId × PoolTick) (s' : Store Sha) (_ : Nat), True →
      s'.index.Dated promise → (machine.env e s').index.Dated promise :=
    fun e s' _ _ hs => hs.congr (poolStep_plain e s').2 (congrArg Prod.snd (poolStep_dirents e s'))
  have hsafe : machine.Safe (fun s' (_ : Nat) => s'.index.Dated promise) (fun _ => True) src
      (fun _ g' => g' = 0) p 0 :=
    Machine.Safe.ofAll (fun a ha s' t _ hs => exec_dated ha hs) hp
  obtain ⟨_, -, hs⟩ := Machine.Safe.seqRun (o := 0) henv hsafe (fun _ => trivial)
    (fun _ _ _ => trivial) (fun _ _ _ _ => trivial) h
  exact hs

variable [Sha256 Sha]

theorem timeless_fetch (sha : Sha) : (fetch sha : StoreProg Sha _).All (Timeless promise) :=
  all_fetch (fun _ => trivial) (fun _ => trivial) sha

theorem timeless_readRange (ino : Ino) (offset length : Nat) :
    (readRange ino offset length : StoreProg Sha _).All (Timeless promise) :=
  all_readRange (fun _ => trivial) (fun _ => trivial) (fun _ => trivial) ino offset length

omit [DecidableEq Sha] [Sha256 Sha] in
theorem timeless_freeFile (ino : Ino) :
    (freeFile ino : StoreProg Sha _).All (Timeless promise) := by
  refine ⟨trivial, fun shas => ?_⟩
  apply (all_releaseAll (fun _ => trivial) (fun _ => trivial) _).bind
  intro e
  cases e with
  | some e => trivial
  | none => exact ⟨trivial, fun _ => trivial⟩

theorem timeless_putFile (cfg : StoreConfig) {ino : Ino}
    (hino : ∀ i t, promise = some (i, t) → ino ≠ i) (size : Nat) (dirty : Option (Finset Nat)) :
    (putFile cfg ino size dirty : StoreProg Sha _).All (Timeless promise) := by
  have honly : (putFile cfg ino size dirty : StoreProg Sha _).All (Only ino) :=
    only_putFile cfg ino size dirty
  refine honly.mono fun a ha => ?_
  cases a with
  | setSize j size => exact fun i t hp => (show j = ino from ha) ▸ hino i t hp
  | _ => trivial

end Store

/-! ## One open state -/

namespace Wb

/-- The promise holds, and the state has nothing to flush that would break it. -/
def Calm (promise : Option (Ino × Time)) (c : FileCtx Sha) : Prop :=
  c.store.index.Dated promise ∧
    ∀ ino t, promise = some (ino, t) → c.st.ino = ino → c.st.dirty = false

/-- The promise holds, and the state is not one of its inode. -/
def Distant (promise : Option (Ino × Time)) (c : FileCtx Sha) : Prop :=
  c.store.index.Dated promise ∧ ∀ ino t, promise = some (ino, t) → c.st.ino ≠ ino

theorem calm_passive [Sha256 Sha] : Passive (Calm promise : FileCtx Sha → Prop) where
  fetch ts n sha c h := ⟨Store.seqRun_dated (Store.timeless_fetch sha) _ ts n h.1, h.2⟩
  readRange ts n offset length c ino h :=
    ⟨Store.seqRun_dated (Store.timeless_readRange ino offset length) _ ts n h.1, h.2⟩
  temp c temp h := h
  state c st hf hd h := by
    have hino : st.ino = c.st.ino := congrArg Prod.fst hf
    refine ⟨h.1, fun ino t hp hi => ?_⟩
    rw [hd]
    exact h.2 ino t hp (hino ▸ hi)

theorem distant_passive [Sha256 Sha] : Passive (Distant promise : FileCtx Sha → Prop) where
  fetch ts n sha c h := ⟨Store.seqRun_dated (Store.timeless_fetch sha) _ ts n h.1, h.2⟩
  readRange ts n offset length c ino h :=
    ⟨Store.seqRun_dated (Store.timeless_readRange ino offset length) _ ts n h.1, h.2⟩
  temp c temp h := h
  state c st hf hd h := by
    have hino : st.ino = c.st.ino := congrArg Prod.fst hf
    exact ⟨h.1, fun ino t hp => hino ▸ h.2 ino t hp⟩

omit [DecidableEq Sha] in
theorem distant_setState (g : FileState Sha → FileState Sha)
    (hg : ∀ st, (g st).frozen = st.frozen) :
    Preserves (Distant promise) (Wb.setState g) := by
  refine Run.preserves_modify fun c h => ⟨h.1, fun ino t hp => ?_⟩
  have hino : (g c.st).ino = c.st.ino := congrArg Prod.fst (hg c.st)
  exact hino ▸ h.2 ino t hp

variable [Sha256 Sha]

/-- A flush of a calm state does nothing, or is one of another inode. -/
theorem calm_flushLocked (cfg : WbConfig) :
    Preserves (Calm promise : FileCtx Sha → Prop) (flushLocked cfg) := by
  intro ts n c h
  revert n
  change Wp ts (flushLocked cfg) (fun _ c' => Calm promise c') c
  unfold flushLocked
  rw [getState, Run.wp_gets_bind]
  cases hd : c.st.dirty with
  | false =>
    rw [if_neg (by simp)]
    exact Run.wp_pure.mpr h
  | true =>
    have hne : ∀ ino t, promise = some (ino, t) → c.st.ino ≠ ino := by
      intro ino t hp hi
      have := h.2 ino t hp hi
      rw [hd] at this
      cases this
    have hput : ∀ src, Preserves (Distant promise : FileCtx Sha → Prop) (call src
        (Store.putFile cfg.toStoreConfig c.st.ino c.st.size (some c.st.dirtyIdx))) := by
      intro src ts n c' h'
      exact ⟨Store.seqRun_dated (Store.timeless_putFile _ hne _ _) src ts n h'.1, h'.2⟩
    have hrest : Preserves (Distant promise : FileCtx Sha → Prop) (do
        tempTruncate c.st.size
        let temp ← Run.gets FileCtx.temp
        call (tempSrc c.st.closed temp)
          (Store.putFile cfg.toStoreConfig c.st.ino c.st.size (some c.st.dirtyIdx))
        let rows ← getRows
        setState fun s => { s with
          base := rows.map BaseChunk.ofRow
          loaded := s.loaded ∪ Finset.Ico c.st.base.length rows.length
          dirtyIdx := ∅
          dirty := false }) := by
      refine Preserves.bind (distant_passive.tempTruncate _) fun _ => ?_
      refine Preserves.bind (Run.preserves_gets _) fun temp => ?_
      refine Preserves.bind (hput _) fun _ => ?_
      exact Preserves.bind (Run.preserves_gets _) fun rows => distant_setState _ fun _ => rfl
    rw [if_pos rfl]
    refine (hrest.wp ⟨h.1, hne⟩).mono fun r c' h' => ?_
    exact ⟨h'.1, fun ino t hp hi => absurd hi (h'.2 ino t hp)⟩

theorem calm_flush (cfg : WbConfig) :
    Preserves (Calm promise : FileCtx Sha → Prop) (flush cfg) := by
  unfold flush
  split
  · exact Run.preserves_pure ()
  · exact calm_flushLocked cfg

end Wb

/-! ## The manager -/

namespace Writeback

/-- The promise holds, and no state of its inode that is registered or otherwise in use has
anything to flush. -/
structure Promised (promise : Option (Ino × Time)) (used : StateId → Prop) (w : Writeback Sha) :
    Prop where
  dated : w.store.index.Dated promise
  entry : ∀ p ∈ w.states, (w.heap p.2).ino = p.1 ∧ p.2 < w.nextState
  clean : ∀ ino t, promise = some (ino, t) → ∀ sid, (used sid ∨ ∃ i, (i, sid) ∈ w.states) →
    (w.heap sid).ino = ino → (w.heap sid).dirty = false

variable {used used' : StateId → Prop} {w w' : Writeback Sha} {sid : StateId} {ino : Ino}
  {ts : Nat → Tick}

omit [DecidableEq Sha] in
theorem Promised.mono (h : Promised promise used w) (hu : ∀ sid, used' sid → used sid) :
    Promised promise used' w :=
  ⟨h.dated, h.entry, fun ino t hp sid hs =>
    h.clean ino t hp sid (hs.imp_left (hu sid))⟩

omit [DecidableEq Sha] in
/-- A change that leaves the table, or shortens it, and makes no state dirty. -/
theorem Promised.change (h : Promised promise used w) (hd : w'.store.index.Dated promise)
    (hstates : w'.states ⊆ w.states) (hnext : w'.nextState = w.nextState)
    (hino : ∀ sid, (w'.heap sid).ino = (w.heap sid).ino)
    (hdirty : ∀ ino t, promise = some (ino, t) → ∀ sid, (used sid ∨ ∃ i, (i, sid) ∈ w.states) →
      (w.heap sid).ino = ino → (w'.heap sid).dirty = false) : Promised promise used w' := by
  refine ⟨hd, fun p hp => ?_, fun ino t hp sid hs hi => ?_⟩
  · rw [hino, hnext]
    exact h.entry p (hstates hp)
  · rw [hino] at hi
    exact hdirty ino t hp sid (hs.imp_right fun ⟨i, hm⟩ => ⟨i, hstates hm⟩) hi

omit [DecidableEq Sha] in
theorem Promised.modState (h : Promised promise used w) {f : FileState Sha → FileState Sha}
    (hf : ∀ st, (f st).ino = st.ino ∧ (st.dirty = false → (f st).dirty = false)) :
    Promised promise used (w.modState sid f) := by
  have heap : ∀ sid', (w.modState sid f).heap sid' =
      if sid' = sid then f (w.heap sid') else w.heap sid' := by
    intro sid'
    change Function.update w.heap sid (f (w.heap sid)) sid' = _
    rw [Function.update_apply]
    split
    · next he => rw [he]
    · rfl
  refine h.change h.dated (List.Subset.refl _) rfl (fun sid' => ?_) fun ino t hp sid' hs hi => ?_
  · rw [heap]
    split
    · exact (hf _).1
    · rfl
  · have hclean := h.clean ino t hp sid' hs hi
    rw [heap]
    split
    · exact (hf _).2 hclean
    · exact hclean

omit [DecidableEq Sha] in
theorem Promised.pop (h : Promised promise used w) (ino : Ino) : Promised promise used (w.pop ino) :=
  h.change h.dated (List.filter_subset_self _) rfl (fun _ => rfl) h.clean

omit [DecidableEq Sha] in
theorem Promised.closeState (h : Promised promise used w) : Promised promise used (w.closeState sid) := by
  have hmod : Promised promise used (w.modState sid fun st => { st with closed := true }) :=
    h.modState fun st => ⟨rfl, id⟩
  exact ⟨hmod.dated, hmod.entry, hmod.clean⟩

omit [DecidableEq Sha] in
/-- Code on a state that is in use. -/
theorem Promised.onState {α : Type} {m : FileRun Sha α} (h : Promised promise used w)
    (hs : used sid ∨ ∃ i, (i, sid) ∈ w.states)
    (hm : Preserves (Wb.Calm promise) m) (hf : Run.Keeps (fun c => c.st.frozen) m) :
    Wp ts (onState sid m) (fun _ w' => Promised promise used w' ∧ w'.states = w.states) w := by
  intro n
  have hcalm : Wb.Calm promise (w.view sid) := ⟨h.dated, fun ino t hp => h.clean ino t hp sid hs⟩
  obtain ⟨hd, hclean⟩ := hm ts n _ hcalm
  have hino : (m ts n (w.view sid)).2.2.st.ino = (w.heap sid).ino :=
    congrArg Prod.fst (hf ts n (w.view sid))
  have heap : ∀ sid', (Writeback.onState sid m ts n w).2.2.heap sid' =
      if sid' = sid then (m ts n (w.view sid)).2.2.st else w.heap sid' := by
    intro sid'
    change Function.update w.heap sid _ sid' = _
    rw [Function.update_apply]
  refine ⟨h.change hd (List.Subset.refl _) rfl (fun sid' => ?_) fun ino t hp sid' hs' hi => ?_, rfl⟩
  · rw [heap]
    split
    · next he => exact he ▸ hino
    · rfl
  · rw [heap]
    split
    · next he => exact hclean ino t hp (hino.trans (he ▸ hi))
    · exact h.clean ino t hp sid' hs' hi

omit [DecidableEq Sha] in
theorem Promised.openLocked (h : Promised promise used w) (ino : Ino) :
    ((w.openLocked ino).2.heap (w.openLocked ino).1).ino = ino ∧
      Promised promise (fun sid => used sid ∨ sid = (w.openLocked ino).1) (w.openLocked ino).2 := by
  cases hget : w.get ino with
  | some sid =>
    have hm := mem_of_get hget
    have hmod : Promised promise used
        (w.modState sid fun st => { st with refcount := st.refcount + 1 }) :=
      h.modState fun st => ⟨rfl, id⟩
    rw [openLocked_old hget]
    refine ⟨?_, hmod.dated, hmod.entry, fun i t hp sid' hs hi => ?_⟩
    · rw [heap_modState]
      exact (h.entry _ hm).1
    · rcases hs with (hs | rfl) | hs
      · exact hmod.clean i t hp sid' (.inl hs) hi
      · exact hmod.clean i t hp sid' (.inr ⟨ino, hm⟩) hi
      · exact hmod.clean i t hp sid' (.inr hs) hi
  | none =>
    obtain ⟨gen, nextGen, ho, -⟩ := openLocked_new hget
    rw [ho]
    have hself : ∀ st, Function.update w.heap w.nextState st w.nextState = st :=
      fun st => Function.update_self _ _ _
    have hother : ∀ sid st, sid ≠ w.nextState →
        Function.update w.heap w.nextState st sid = w.heap sid :=
      fun sid st hne => Function.update_of_ne hne _ _
    refine ⟨congrArg FileState.ino (hself _), h.dated, fun p hp => ?_, fun i t hp sid' hs hi => ?_⟩
    · dsimp only at hp ⊢
      rcases List.mem_append.mp hp with hp | hp
      · obtain ⟨hino, hlt⟩ := h.entry p hp
        rw [hother _ _ (Nat.ne_of_lt hlt)]
        exact ⟨hino, Nat.lt_succ_of_lt hlt⟩
      · obtain rfl := List.mem_singleton.mp hp
        exact ⟨congrArg FileState.ino (hself _), Nat.lt_succ_self _⟩
    · dsimp only at hs hi ⊢
      by_cases hne : sid' = w.nextState
      · rw [hne, hself]
      · rw [hother _ _ hne] at hi ⊢
        refine h.clean i t hp sid' ?_ hi
        rcases hs with (hs | hs) | ⟨j, hm⟩
        · exact .inl hs
        · exact absurd hs hne
        · rcases List.mem_append.mp hm with hm | hm
          · exact .inr ⟨j, hm⟩
          · exact absurd (Prod.mk.inj (List.mem_singleton.mp hm)).2 hne

variable [Sha256 Sha] (cfg : WbConfig)

theorem Promised.openFile (h : Promised promise used w) (ino : Ino) (forWrite : Bool) :
    Wp ts (openFile cfg ino forWrite) (fun r w' => Promised promise used w' ∧
      ∀ sid, r = .ok sid → (w'.heap sid).ino = ino ∧
        Promised promise (fun sid' => used sid' ∨ sid' = sid) w') w := by
  unfold Writeback.openFile
  rw [Run.wp_modifyGet_bind]
  obtain ⟨hino, hk⟩ := h.openLocked ino
  generalize Writeback.openLocked ino w = o at hino hk ⊢
  cases forWrite with
  | false =>
    refine Run.wp_pure.mpr ⟨hk.mono fun _ hs => .inl hs, fun sid hs => ?_⟩
    obtain rfl := Except.ok.inj hs
    exact ⟨hino, hk⟩
  | true =>
    rw [if_pos rfl]
    have haside : Wb.Aside fun c : FileCtx Sha => c.st.frozen := Wb.frozen_aside
    have hm := @Promised.onState Sha _ _ _ o.1 ts _ _ hk (.inl (.inr rfl))
      (Wb.calm_passive.materialize cfg) (haside.keeps_materialize cfg)
    have hkeep : Wp ts (Writeback.onState o.1 (Wb.materialize cfg)) (fun _ w' =>
        (w'.heap o.1).ino = ino) o.2 := by
      intro n
      have hself : (Writeback.onState o.1 (Wb.materialize cfg) ts n o.2).2.2.heap o.1 =
        (Wb.materialize cfg ts n (o.2.view o.1)).2.2.st := Function.update_self _ _ _
      rw [hself]
      exact (congrArg Prod.fst (haside.keeps_materialize cfg ts n (o.2.view o.1))).trans hino
    refine Wp.bind ((hm.and hkeep).mono fun r w' hr => ?_)
    obtain ⟨⟨hk', -⟩, hino'⟩ := hr
    cases r with
    | error e => exact ⟨hk'.mono fun _ hs => .inl hs, nofun⟩
    | ok u =>
      refine Run.wp_pure.mpr ⟨hk'.mono fun _ hs => .inl hs, fun sid hs => ?_⟩
      obtain rfl := Except.ok.inj hs
      exact ⟨hino', hk'⟩

theorem Promised.release (h : Promised promise used w) (hs : used sid) :
    Wp ts (release cfg sid) (fun _ w' => Promised promise used w') w := by
  refine Run.Wp.tick_bind fun n => ?_
  rw [Run.wp_modifyGet_bind]
  have hlocked : Promised promise used (w.releaseLocked cfg (ts n).now sid).2 := by
    have hmod : Promised promise used
        (w.modState sid fun st => { st with refcount := st.refcount - 1 }) :=
      h.modState fun st => ⟨rfl, id⟩
    unfold releaseLocked
    dsimp only
    split
    · exact hmod
    · split
      · exact hmod.modState (f := fun st => { st with idleSince := (ts n).now }) fun st => ⟨rfl, id⟩
      · exact hmod.pop _
  split
  · refine Wp.bind ((hlocked.onState (.inl hs) (Wb.calm_flushLocked cfg)
      (Wb.frozen_aside.keeps_flushLocked cfg)).mono fun r w' hr => ?_)
    cases r with
    | error e => exact hr.1
    | ok u => exact Run.wp_modify.mpr hr.1.closeState
  · exact Run.wp_pure.mpr hlocked

omit [DecidableEq Sha] [Sha256 Sha] in
theorem Promised.discard (h : Promised promise used w) (ino : Ino) :
    Wp ts (discard ino) (fun _ w' => Promised promise used w') w := by
  unfold Writeback.discard
  rw [Run.wp_modifyGet_bind]
  cases w.get ino with
  | none => exact Run.wp_pure.mpr (h.pop ino)
  | some sid =>
    have hmod : Promised promise used
        ((w.pop ino).modState sid fun st => { st with dirty := false }) :=
      (h.pop ino).modState fun st => ⟨rfl, fun _ => rfl⟩
    exact Run.wp_modify_bind.mpr (Run.wp_modify.mpr hmod.closeState)

theorem Promised.reapState (h : Promised promise used w) (force : Bool) (hs : used sid) :
    Wp ts (reapState cfg force sid) (fun _ w' => Promised promise used w') w := by
  unfold Writeback.reapState
  refine Wp.bind (Run.Wp.tryCatch (Wp.bind ((h.onState (.inl hs) (Wb.calm_flushLocked cfg)
    (Wb.frozen_aside.keeps_flushLocked cfg)).mono fun r w₁ h₁ => ?_)))
  cases r with
  | error e =>
    refine Run.Wp.tick_bind fun n => ?_
    rw [Run.wp_modify_bind]
    have hmod : Promised promise used (w₁.modState sid fun st => { st with idleSince := (ts n).now }) :=
      h₁.1.modState fun st => ⟨rfl, id⟩
    split
    · exact Run.wp_raise.mpr hmod
    · exact Run.wp_pure.mpr (Run.wp_pure.mpr hmod)
  | ok u =>
    refine Run.wp_pure.mpr ?_
    simp only
    rw [Run.wp_modifyGet_bind]
    have hlocked : Promised promise used (w₁.reapLocked sid).2 := by
      unfold reapLocked
      split
      · exact h₁.1.pop _
      · exact h₁.1
    split
    · exact Run.wp_modify_bind.mpr (Run.wp_pure.mpr hlocked.closeState)
    · exact Run.wp_pure.mpr hlocked

theorem Promised.reapEach {sids : List StateId} (h : Promised promise used w) (force : Bool)
    (hs : ∀ sid ∈ sids, used sid) :
    Wp ts (reapEach cfg force sids) (fun _ w' => Promised promise used w') w := by
  induction sids generalizing w with
  | nil => exact Run.wp_pure.mpr h
  | cons sid sids ih =>
    refine Wp.bind ((h.reapState cfg force (hs sid List.mem_cons_self)).mono fun r w₁ h₁ => ?_)
    cases r with
    | error e => exact h₁
    | ok o =>
      refine Wp.bind ((ih h₁ fun sid' hm => hs sid' (List.mem_cons_of_mem _ hm)).mono
        fun r w₂ h₂ => ?_)
      cases r with
      | error e => exact h₂
      | ok l => exact Run.wp_pure.mpr h₂

theorem Promised.reapOnce (h : Promised promise used w) (force : Bool) :
    Wp ts (reapOnce cfg force) (fun _ w' => Promised promise used w') w := by
  refine Run.Wp.tick_bind fun n => ?_
  rw [Run.wp_gets_bind]
  -- the candidates stay in use until the pass is over
  have hall : Promised promise (fun sid => used sid ∨ sid ∈ w.candidates cfg force (ts n).now) w := by
    refine ⟨h.dated, h.entry, fun ino t hp sid hs hi => h.clean ino t hp sid ?_ hi⟩
    rcases hs with (hs | hs) | hs
    · exact .inl hs
    · obtain ⟨p, hm, rfl⟩ := List.mem_map.mp (List.mem_of_mem_filter hs)
      exact .inr ⟨p.1, hm⟩
    · exact .inr hs
  exact (hall.reapEach cfg force fun sid hm => .inr hm).mono
    fun _ _ h' => h'.mono fun _ hs => .inl hs

theorem Promised.shutdown (h : Promised promise used w) :
    Wp ts (shutdown cfg) (fun _ w' => Promised promise used w') w := by
  have hzero : Promised promise used w.zeroCounts := by
    have hheap : ∀ sid, (w.zeroCounts.heap sid).ino = (w.heap sid).ino ∧
        (w.zeroCounts.heap sid).dirty = (w.heap sid).dirty := by
      intro sid
      unfold zeroCounts
      dsimp only
      split <;> exact ⟨rfl, rfl⟩
    refine h.change h.dated (List.Subset.refl _) rfl (fun sid => (hheap sid).1) ?_
    intro ino t hp sid hs hi
    rw [(hheap sid).2]
    exact h.clean ino t hp sid hs hi
  refine Run.wp_modify_bind.mpr (Wp.bind ((hzero.reapOnce cfg true).mono fun r w' h' => ?_))
  cases r with
  | error e => exact h'
  | ok l => exact Run.wp_pure.mpr h'

omit [Sha256 Sha] in
theorem Promised.callStore {α : Type} {p : StoreProg Sha (Except (PyErr Sha) α)}
    (h : Promised promise used w) (hp : p.All (Store.Timeless promise)) :
    Wp ts (callStore p) (fun _ w' => Promised promise used w') w :=
  fun n => ⟨Store.seqRun_dated hp Wb.noSrc ts n h.dated, h.entry, h.clean⟩

omit [DecidableEq Sha] [Sha256 Sha] in
/-- Code on a state of another inode. -/
theorem Promised.onDistant {α : Type} {m : FileRun Sha α} (h : Promised promise used w)
    (hne : ∀ ino t, promise = some (ino, t) → (w.heap sid).ino ≠ ino)
    (hm : Preserves (Wb.Distant promise) m) (hf : Run.Keeps (fun c => c.st.frozen) m) :
    Wp ts (Writeback.onState sid m) (fun _ w' => Promised promise used w' ∧
      (w'.heap sid).ino = (w.heap sid).ino) w := by
  intro n
  obtain ⟨hd, -⟩ := hm ts n (w.view sid) ⟨h.dated, hne⟩
  have hino : (m ts n (w.view sid)).2.2.st.ino = (w.heap sid).ino :=
    congrArg Prod.fst (hf ts n (w.view sid))
  have heap : ∀ sid', (Writeback.onState sid m ts n w).2.2.heap sid' =
      if sid' = sid then (m ts n (w.view sid)).2.2.st else w.heap sid' := by
    intro sid'
    change Function.update w.heap sid _ sid' = _
    rw [Function.update_apply]
  refine ⟨h.change hd (List.Subset.refl _) rfl (fun sid' => ?_) fun ino t hp sid' hs' hi => ?_, ?_⟩
  · rw [heap]
    split
    · next he => exact he ▸ hino
    · rfl
  · have hs : sid' ≠ sid := by
      rintro rfl
      exact hne ino t hp hi
    rw [heap, if_neg hs]
    exact h.clean ino t hp sid' hs' hi
  · rw [heap, if_pos rfl]
    exact hino

theorem Promised.truncatePath (h : Promised promise used w) {ino : Ino}
    (hne : ∀ i t, promise = some (i, t) → ino ≠ i) (length : Nat) :
    Wp ts (truncatePath cfg ino length) (fun _ w' => Promised promise used w') w := by
  have hflush : Preserves (Wb.Distant promise : FileCtx Sha → Prop) (Wb.flush cfg) := by
    intro ts n c hc
    have hcalm := Wb.calm_flush cfg ts n c ⟨hc.1, fun i t hp hi => absurd hi (hc.2 i t hp)⟩
    have hino : (Wb.flush cfg ts n c).2.2.st.ino = c.st.ino :=
      congrArg Prod.fst (Wb.frozen_aside.keeps_flush cfg ts n c)
    exact ⟨hcalm.1, fun i t hp => hino ▸ hc.2 i t hp⟩
  refine Wp.bind ((h.openFile cfg ino true).mono fun r w₁ h₁ => ?_)
  cases r with
  | error e => exact h₁.1
  | ok sid =>
    obtain ⟨hino, hk⟩ := h₁.2 sid rfl
    have hend : ∀ {w₃ : Writeback Sha}, Promised promise (fun sid' => used sid' ∨ sid' = sid) w₃ →
        Wp ts (Writeback.release cfg sid) (fun _ w' => Promised promise used w') w₃ :=
      fun h₃ => (h₃.release cfg (.inr rfl)).mono fun _ _ h' => h'.mono fun _ hs => .inl hs
    refine Run.Wp.andFinally (Wp.bind ((hk.onDistant (hino ▸ hne)
      (Wb.distant_passive.truncate Wb.distant_setState cfg length)
      (Wb.frozen_aside.keeps_truncate cfg length)).mono fun r w₂ h₂ => ?_))
    obtain ⟨hk₂, hino₂⟩ := h₂
    cases r with
    | error e => exact (hend hk₂).mono fun r' w' h' => by cases r' <;> exact h'
    | ok u =>
      have hne₂ : ∀ i t, promise = some (i, t) → (w₂.heap sid).ino ≠ i :=
        fun i t hp => (hino₂.trans hino) ▸ hne i t hp
      refine (hk₂.onDistant hne₂ hflush (Wb.frozen_aside.keeps_flush cfg)).mono fun r w₃ h₃ => ?_
      exact (hend h₃.1).mono fun r' w' h' => by cases r' <;> exact h'

end Writeback

/-! ## The operations -/

namespace FsCore

/-- A state that a handle refers to. -/
def Refers (s : FsCore Sha) (sid : StateId) : Prop := ∃ p ∈ s.fh, p.2 = sid

/-- The promise holds, and no state of its inode that is registered or that a handle refers to
has anything to flush. -/
def Promised (promise : Option (Ino × Time)) (s : FsCore Sha) : Prop :=
  s.toWriteback.Promised promise s.Refers

variable {s : FsCore Sha} {ts : Nat → Tick} {α : Type}

omit [DecidableEq Sha] in
theorem kept_wb {m : WbRun Sha α} (hm : ∀ (used : StateId → Prop) (w : Writeback Sha)
    (ts : Nat → Tick), w.Promised promise used → Wp ts m (fun _ w' => w'.Promised promise used) w) :
    Preserves (Promised promise) (wb m) :=
  fun ts n s h => hm s.Refers s.toWriteback ts h n

omit [DecidableEq Sha] in
theorem kept_index {f : Meta Sha → Except (PyErr Sha) α × Meta Sha}
    (hf : ∀ m : Meta Sha, m.Dated promise → (f m).2.Dated promise) :
    Preserves (Promised promise) (index f) :=
  Run.preserves_attempt fun _ h => ⟨hf _ h.dated, h.entry, h.clean⟩

omit [DecidableEq Sha] in
theorem kept_getattr (ino : Ino) : Preserves (Promised promise : FsCore Sha → Prop) (getattr ino) := by
  refine Preserves.bind (Run.preserves_gets _) fun n => ?_
  cases n with
  | none => exact Run.preserves_raise _
  | some n => exact Run.preserves_gets _

omit [DecidableEq Sha] in
theorem kept_ensureAbsent (parent : Ino) (name : Str) :
    Preserves (Promised promise : FsCore Sha → Prop) (ensureAbsent parent name) := by
  refine Preserves.bind (Run.preserves_gets _) fun n => ?_
  cases n with
  | none => exact Run.preserves_pure _
  | some n => exact Run.preserves_raise _

omit [DecidableEq Sha] in
theorem kept_makeNode (parent : Ino) (name : Str) (mode : Nat) (kind : Kind) (uid gid : Nat)
    (target : Option Str) : Preserves (Promised promise : FsCore Sha → Prop)
      (makeNode parent name mode kind uid gid target) :=
  Preserves.bind Run.preserves_tick fun t =>
    kept_index fun _ h => h.create t.now parent name mode kind uid gid target

variable [Sha256 Sha]

omit [Sha256 Sha] in
theorem kept_freeInode (ino : Ino) :
    Preserves (Promised promise : FsCore Sha → Prop) (freeInode ino) :=
  Preserves.bind (kept_wb fun _ _ _ h => h.discard ino) fun _ =>
    kept_wb fun _ _ _ h => h.callStore (Store.timeless_freeFile ino)

omit [Sha256 Sha] in
theorem kept_dropInode (ino : Ino) :
    Preserves (Promised promise : FsCore Sha → Prop) (dropInode ino) := by
  refine Preserves.bind (Run.preserves_gets _) fun opened => ?_
  cases opened with
  | true => exact Run.preserves_modify fun _ h => h
  | false => exact kept_freeInode ino

omit [DecidableEq Sha] [Sha256 Sha] in
theorem kept_rmdir (parent : Ino) (name : Str) :
    Preserves (Promised promise : FsCore Sha → Prop) (rmdir parent name) := by
  refine Preserves.bind (Run.preserves_gets _) fun n => ?_
  cases n with
  | none => exact Run.preserves_raise _
  | some n =>
    dsimp only
    split
    · exact Run.preserves_raise _
    · refine Preserves.bind (Run.preserves_gets _) fun count => ?_
      split
      · exact Run.preserves_raise _
      · refine Preserves.bind Run.preserves_tick fun t => ?_
        exact Preserves.bind (kept_index fun _ h => h.unlinkDirent t.now parent name) fun _ =>
          Run.preserves_pure _

omit [DecidableEq Sha] [Sha256 Sha] in
theorem kept_link (ino parent : Ino) (name : Str) :
    Preserves (Promised promise : FsCore Sha → Prop) (link ino parent name) := by
  refine Preserves.bind (Run.preserves_gets _) fun n => ?_
  cases n with
  | none => exact Run.preserves_raise _
  | some n =>
    dsimp only
    split
    · exact Run.preserves_raise _
    · refine Preserves.bind (kept_ensureAbsent parent name) fun _ => ?_
      refine Preserves.bind Run.preserves_tick fun t => ?_
      exact Preserves.bind (kept_index fun _ h => h.link t.now parent name ino) fun _ =>
        kept_getattr ino

omit [Sha256 Sha] in
theorem kept_unlink (parent : Ino) (name : Str) :
    Preserves (Promised promise : FsCore Sha → Prop) (unlink parent name) := by
  refine Preserves.bind (Run.preserves_gets _) fun n => ?_
  cases n with
  | none => exact Run.preserves_raise _
  | some n =>
    dsimp only
    split
    · exact Run.preserves_raise _
    · refine Preserves.bind Run.preserves_tick fun t => ?_
      refine Preserves.bind (kept_index fun _ h => h.unlinkDirent t.now parent name) fun r => ?_
      split
      · exact kept_dropInode _
      · exact Run.preserves_pure _

omit [Sha256 Sha] in
theorem kept_rename (oldp : Ino) (oldname : Str) (newp : Ino) (newname : Str) :
    Preserves (Promised promise : FsCore Sha → Prop) (rename oldp oldname newp newname) := by
  refine Preserves.bind (Run.preserves_gets _) fun n => ?_
  cases n with
  | none => exact Run.preserves_raise _
  | some n =>
    refine Preserves.bind (Run.preserves_gets _) fun full => ?_
    split
    · exact Run.preserves_raise _
    · refine Preserves.bind (kept_index fun _ h => h.rename oldp oldname newp newname) fun r => ?_
      cases r with
      | none => exact Run.preserves_pure _
      | some ino => exact kept_dropInode ino

variable (cfg : WbConfig)

theorem kept_setattr {ino : Ino} {a : Meta.Attrs}
    (ha : ∀ i t, promise = some (i, t) → ino = i → a.size = none ∧ a.mtime = none) :
    Preserves (Promised promise : FsCore Sha → Prop) (setattr cfg ino a) := by
  refine Preserves.bind (Run.preserves_gets _) fun n => ?_
  cases n with
  | none => exact Run.preserves_raise _
  | some n =>
    have htime : Preserves (Promised promise : FsCore Sha → Prop) (do
        let t ← Run.tick
        index fun m => (.ok (), m.setattr t.now ino { a with size := none })
        getattr ino) := by
      refine Preserves.bind Run.preserves_tick fun t => ?_
      refine Preserves.bind (kept_index fun m h => ?_) fun _ => kept_getattr ino
      exact h.setattr t.now ino fun i t' hp hi => (ha i t' hp hi).2
    dsimp only
    cases hsize : a.size with
    | none => exact htime
    | some size =>
      have hne : ∀ i t, promise = some (i, t) → ino ≠ i := by
        intro i t hp hi
        have := (ha i t hp hi).1
        rw [hsize] at this
        cases this
      dsimp only
      split
      · exact Preserves.bind (kept_wb fun _ _ _ h => h.truncatePath cfg hne size) fun _ => htime
      · exact htime

/-- Opening a file and giving it a handle. -/
theorem Promised.openHandle (h : Promised promise s) (ino : Ino) (forWrite : Bool) :
    Wp ts (do
      let sid ← wb (Writeback.openFile cfg ino forWrite)
      newFh sid) (fun _ s' => Promised promise s') s := by
  refine Wp.bind (Run.wp_zoom.mpr ((Writeback.Promised.openFile cfg h ino forWrite).mono
    fun r w' hr => ?_))
  cases r with
  | error e => exact hr.1
  | ok sid =>
    refine Run.wp_modifyGet.mpr ((hr.2 sid rfl).2.mono fun sid' hs => ?_)
    obtain ⟨p, hp, rfl⟩ := hs
    rcases List.mem_append.mp hp with hp | hp
    · exact .inl ⟨p, hp, rfl⟩
    · exact .inr (congrArg Prod.snd (List.mem_singleton.mp hp))

theorem kept_openFh {ino : Ino} {flags : Nat}
    (hf : ∀ i t, promise = some (i, t) → ino = i → flags &&& oTrunc = 0) :
    Preserves (Promised promise : FsCore Sha → Prop) (openFh cfg ino flags) := by
  refine Preserves.bind (Run.preserves_gets _) fun n => ?_
  cases n with
  | none => exact Run.preserves_raise _
  | some n =>
    have hopen : Preserves (Promised promise : FsCore Sha → Prop) (do
        let sid ← wb (Writeback.openFile cfg ino (wantsWrite flags))
        newFh sid) :=
      fun ts n s h => h.openHandle cfg ino (wantsWrite flags) n
    dsimp only
    split
    · exact Run.preserves_raise _
    · split
      · next htrunc =>
        have hne : ∀ i t, promise = some (i, t) → ino ≠ i := by
          intro i t hp hi
          exact htrunc (hf i t hp hi)
        exact Preserves.bind (kept_wb fun _ _ _ h => h.truncatePath cfg hne 0) fun _ => hopen
      · exact hopen

theorem kept_create (parent : Ino) (name : Str) (mode flags uid gid : Nat) :
    Preserves (Promised promise : FsCore Sha → Prop) (create cfg parent name mode flags uid gid) := by
  have hopen : ∀ node : Inode, Preserves (Promised promise : FsCore Sha → Prop) (do
      let sid ← wb (Writeback.openFile cfg node.id true)
      let fh ← newFh sid
      pure (fh, node)) := by
    intro node ts n s h
    have hw : Wp ts (do
        let fh ← (do
          let sid ← wb (Writeback.openFile cfg node.id true)
          newFh sid)
        pure (fh, node)) (fun _ s' => Promised promise s') s := by
      refine Wp.bind ((h.openHandle cfg node.id true).mono fun r s' hr => ?_)
      cases r with
      | error e => exact hr
      | ok fh => exact Run.wp_pure.mpr hr
    exact Run.wp_bind_assoc.mp hw n
  unfold create
  refine Preserves.bind (Run.preserves_gets _) fun n => ?_
  cases n with
  | none => exact Preserves.bind (kept_makeNode _ _ _ _ _ _ _) hopen
  | some n =>
    dsimp only
    split
    · exact Run.preserves_raise _
    · exact hopen n

omit [DecidableEq Sha] [Sha256 Sha] in
theorem refers_of_findFh {fh : Nat} {sid : StateId} (h : s.findFh fh = some sid) :
    s.Refers sid := by
  obtain ⟨p, hp, rfl⟩ := Option.map_eq_some_iff.mp h
  exact ⟨p, List.mem_of_find?_eq_some hp, rfl⟩

omit [DecidableEq Sha] [Sha256 Sha] in
theorem Promised.onHandle {m : FileRun Sha α} (h : Promised promise s) (fh : Nat)
    (hm : ∀ sid, s.findFh fh = some sid → Wp ts (Writeback.onState sid m)
      (fun _ w' => w'.Promised promise s.Refers) s.toWriteback) :
    Wp ts (do
      let sid ← getState fh
      wb (Writeback.onState sid m)) (fun _ s' => Promised promise s') s := by
  unfold getState
  rw [Run.wp_bind_assoc, Run.wp_gets_bind]
  cases hf : s.findFh fh with
  | none => exact Run.wp_raise_bind.mpr h
  | some sid =>
    rw [Run.wp_pure_bind]
    exact Run.wp_zoom.mpr (hm sid hf)

omit [DecidableEq Sha] [Sha256 Sha] in
/-- Calm code on the state of a handle. -/
theorem Promised.onHandle_calm {m : FileRun Sha α} (h : Promised promise s) (fh : Nat)
    (hm : Preserves (Wb.Calm promise) m) (hf : Run.Keeps (fun c => c.st.frozen) m) :
    Wp ts (do
      let sid ← getState fh
      wb (Writeback.onState sid m)) (fun _ s' => Promised promise s') s := by
  apply h.onHandle
  intro sid hfind
  have huse : s.Refers sid := refers_of_findFh hfind
  exact (Writeback.Promised.onState h (.inl huse) hm hf).mono fun _ _ hw => hw.1

theorem Promised.release (h : Promised promise s) (fh : Nat) :
    Wp ts (release cfg fh) (fun _ s' => Promised promise s') s := by
  unfold FsCore.release
  rw [Run.wp_modifyGet_bind]
  have hsub : ∀ sid, (∃ p ∈ s.fh.filter fun p => p.1 ≠ fh, p.2 = sid) → s.Refers sid := by
    intro sid hs
    obtain ⟨p, hp, rfl⟩ := hs
    exact ⟨p, List.mem_of_mem_filter hp, rfl⟩
  cases hfind : s.findFh fh with
  | none => exact Run.wp_pure.mpr (Writeback.Promised.mono h hsub)
  | some sid =>
    have huse : s.Refers sid := refers_of_findFh hfind
    refine Wp.bind (Run.wp_zoom.mpr ((Writeback.Promised.release cfg h huse).mono fun r w' hw => ?_))
    have hk : Promised promise { s with toWriteback := w', fh := s.fh.filter fun p => p.1 ≠ fh } :=
      hw.mono hsub
    cases r with
    | error e => exact hk
    | ok u =>
      refine Run.wp_gets_bind.mpr (Run.wp_gets_bind.mpr ?_)
      split
      · refine Run.wp_modify_bind.mpr ?_
        exact (kept_freeInode _).wp hk
      · exact Run.wp_pure.mpr hk

end FsCore

/-! ## Runs with shutdowns -/

namespace Event

variable {cfg : WbConfig} [Sha256 Sha] {ts : Nat → Tick}

/-- Nothing in the event writes or truncates the inode or sets its modification time. -/
def Leaves (ino : Ino) (s : FsCore Sha) : Event → Prop
  | .op (.write fh _ _) => ∀ sid, s.findFh fh = some sid → (s.heap sid).ino ≠ ino
  | .op (.setattr i a) => i = ino → a.size = none ∧ a.mtime = none
  | .op (.openFh i flags) => i = ino → flags &&& oTrunc = 0
  | _ => True

/-- No event of the run does. -/
def Leave (cfg : WbConfig) (ts : Nat → Tick) (ino : Ino) : List Event → Nat → FsCore Sha → Prop
  | [], _, _ => True
  | e :: es, n, s => e.Leaves ino s ∧
    Leave cfg ts ino es (e.perform cfg ts n s).2.1 (e.perform cfg ts n s).2.2

variable {s : FsCore Sha}

theorem perform_kept (h : s.Promised promise) {e : Event}
    (he : ∀ ino t, promise = some (ino, t) → e.Leaves ino s) (n : Nat) :
    (e.perform cfg ts n s).2.2.Promised promise := by
  have hdone : ∀ {α : Type} {m : FsRun Sha α}, Wp ts m (fun _ s' => s'.Promised promise) s →
      ((do
        let _ ← m
        pure [] : FsRun Sha (List (PyErr Sha))) ts n s).2.2.Promised promise := by
    intro α m hm
    have hw : Wp ts (do
        let _ ← m
        pure [] : FsRun Sha (List (PyErr Sha))) (fun _ s' => s'.Promised promise) s := by
      refine Wp.bind (hm.mono fun r s' hr => ?_)
      cases r with
      | error e => exact hr
      | ok a => exact Run.wp_pure.mpr hr
    exact hw n
  have hpres : ∀ {α : Type} {m : FsRun Sha α}, Preserves (FsCore.Promised promise) m →
      ((do
        let _ ← m
        pure [] : FsRun Sha (List (PyErr Sha))) ts n s).2.2.Promised promise :=
    fun hm => hdone (hm.wp h)
  cases e with
  | shutdown => exact hpres (FsCore.kept_wb fun _ _ _ hw => hw.shutdown cfg)
  | op o =>
    cases o with
    | mkdir parent name mode uid gid =>
      exact hpres (Preserves.bind (FsCore.kept_ensureAbsent parent name) fun _ =>
        FsCore.kept_makeNode _ _ _ _ _ _ _)
    | rmdir parent name => exact hpres (FsCore.kept_rmdir parent name)
    | createNode parent name mode uid gid =>
      exact hpres (Preserves.bind (FsCore.kept_ensureAbsent parent name) fun _ =>
        FsCore.kept_makeNode _ _ _ _ _ _ _)
    | symlink parent name target uid gid =>
      exact hpres (Preserves.bind (FsCore.kept_ensureAbsent parent name) fun _ =>
        FsCore.kept_makeNode _ _ _ _ _ _ _)
    | link ino newParent newName => exact hpres (FsCore.kept_link ino newParent newName)
    | unlink parent name => exact hpres (FsCore.kept_unlink parent name)
    | rename oldp oldname newp newname =>
      exact hpres (FsCore.kept_rename oldp oldname newp newname)
    | setattr ino a => exact hpres (FsCore.kept_setattr cfg he)
    | openFh ino flags => exact hpres (FsCore.kept_openFh cfg he)
    | create parent name mode flags uid gid =>
      exact hpres (FsCore.kept_create cfg parent name mode flags uid gid)
    | read fh off size =>
      exact hdone (h.onHandle_calm fh (Wb.calm_passive.read cfg size off)
        (Wb.frozen_aside.keeps_read cfg size off))
    | write fh off data =>
      refine hdone (h.onHandle fh fun sid hf => ?_)
      have hne : ∀ ino t, promise = some (ino, t) → (s.heap sid).ino ≠ ino :=
        fun ino t hp => he ino t hp sid hf
      exact (Writeback.Promised.onDistant h hne
        (Wb.distant_passive.write Wb.distant_setState cfg data off)
        (Wb.frozen_aside.keeps_write cfg data off)).mono fun _ _ hw => hw.1
    | flush fh =>
      exact hdone (h.onHandle_calm fh (Wb.calm_flush cfg) (Wb.frozen_aside.keeps_flush cfg))
    | fsync fh =>
      exact hdone (h.onHandle_calm fh (Wb.calm_flushLocked cfg)
        (Wb.frozen_aside.keeps_flushLocked cfg))
    | release fh => exact hdone (h.release cfg fh)
    | reap => exact FsCore.kept_wb (fun _ _ _ hw => hw.reapOnce cfg false) ts n s h

theorem runAll_kept {es : List Event} (h : s.Promised promise) (n : Nat)
    (he : ∀ ino t, promise = some (ino, t) → Leave cfg ts ino es n s) :
    (runAll cfg ts es n s).2.Promised promise := by
  induction es generalizing n s with
  | nil => exact h
  | cons e es ih =>
    exact ih (perform_kept h (fun ino t hp => (he ino t hp).1) n) _
      fun ino t hp => (he ino t hp).2

/-! ## The time that `setattr` sets -/

omit [DecidableEq Sha] [Sha256 Sha] in
/-- What `getattr` returns has the time of the row. -/
theorem wp_getattr_row (ino : Ino) : Wp ts (FsCore.getattr ino) (fun r s' => s' = s ∧
    ∀ node, r = .ok node → ∃ row, s.store.index.inodes ino = some row ∧ node.mtime = row.mtime)
    s := by
  unfold FsCore.getattr FsCore.live FsCore.getInode
  rw [Run.wp_gets_bind]
  cases hget : s.store.index.getInode ino with
  | none => exact Run.wp_raise.mpr ⟨rfl, nofun⟩
  | some n =>
    obtain ⟨-, row, hrow, rfl⟩ := Meta.getInode_eq_some hget
    refine Run.wp_gets.mpr ⟨rfl, fun node hnode => ⟨row, hrow, ?_⟩⟩
    obtain rfl := Except.ok.inj hnode
    split
    · split <;> rfl
    · rfl

theorem wp_setattr_time {ino : Ino} {a : Meta.Attrs} {t : Time} (ha : a.mtime = some t) :
    Wp ts (FsCore.setattr cfg ino a) (fun r s' => ∀ node, r = .ok node →
      ∃ row, s'.store.index.inodes ino = some row ∧ row.mtime = t) s := by
  have htime : ∀ s : FsCore Sha, Wp ts (do
      let now ← Run.tick
      FsCore.index fun m => (.ok (), m.setattr now.now ino { a with size := none })
      FsCore.getattr ino) (fun r s' => ∀ node, r = .ok node →
        ∃ row, s'.store.index.inodes ino = some row ∧ row.mtime = t) s := by
    intro s
    refine Run.Wp.tick_bind fun n => Wp.bind (Run.wp_attempt.mpr ?_)
    refine (wp_getattr_row ino).mono fun r s' hr => ?_
    obtain ⟨rfl, hr⟩ := hr
    intro node hnode
    obtain ⟨row, hrow, -⟩ := hr node hnode
    refine ⟨row, hrow, ?_⟩
    have hset : ({ a with size := none } : Meta.Attrs) ≠ {} := by
      intro he
      have := congrArg Meta.Attrs.mtime he
      rw [show ({ a with size := none } : Meta.Attrs).mtime = a.mtime from rfl, ha] at this
      cases this
    dsimp only at hrow
    unfold Meta.setattr at hrow
    rw [if_neg hset, Meta.updateInode_self] at hrow
    obtain ⟨old, -, rfl⟩ := Option.map_eq_some_iff.mp hrow
    dsimp only
    rw [ha]
    rfl
  unfold FsCore.setattr FsCore.getInode
  rw [Run.wp_gets_bind]
  cases s.store.index.getInode ino with
  | none => exact Run.wp_raise.mpr nofun
  | some n =>
    dsimp only
    cases a.size with
    | none => exact htime s
    | some size =>
      dsimp only
      split
      · refine Wp.bind fun k => ?_
        rcases FsCore.wb (Writeback.truncatePath cfg ino size) ts k s with ⟨r, k', s'⟩
        cases r with
        | error e => exact nofun
        | ok u => exact htime s'
      · exact htime s

/-- The time that `setattr` sets stays, if no state of the inode in use has anything to flush
when it is set, for as long as the inode is neither written nor truncated and its time is not set
again. -/
theorem runAll_keeps_mtime (cfg : WbConfig) (ts : Nat → Tick) {store : Store Sha}
    (hgiven : ∀ i n, store.index.inodes i = some n → i < store.index.nextIno)
    (pre post : List Event) {ino : Ino} {a : Meta.Attrs} {t : Time} (ha : a.mtime = some t)
    {node : Inode} {n n₁ : Nat} {s s₁ : FsCore Sha}
    (hpre : runAll cfg ts pre 0 (FsCore.mounted store) = (n, s))
    (hset : FsCore.setattr cfg ino a ts n s = (.ok node, n₁, s₁))
    (hclean : ∀ sid, (s₁.Refers sid ∨ ∃ i, (i, sid) ∈ s₁.states) → (s₁.heap sid).ino = ino →
      (s₁.heap sid).dirty = false)
    (hpost : Leave cfg ts ino post n₁ s₁) :
    ∀ node', (FsCore.getattr ino ts (runAll cfg ts post n₁ s₁).1
      (runAll cfg ts post n₁ s₁).2).1 = .ok node' → node'.mtime = t := by
  have hstart : (FsCore.mounted store).Promised none :=
    ⟨⟨hgiven, nofun, nofun⟩, by simp [FsCore.mounted, FsCore.empty], nofun⟩
  have hs : s.Promised none := by
    have hrun : (runAll cfg ts pre 0 (FsCore.mounted store)).2.Promised none :=
      runAll_kept hstart 0 (by
        intro i t hp
        cases hp)
    rw [hpre] at hrun
    exact hrun
  have hs₁ : s₁.Promised none := by
    have hrun : (FsCore.setattr cfg ino a ts n s).2.2.Promised none :=
      FsCore.kept_setattr cfg (by
        intro i t hp
        cases hp) ts n s hs
    rw [hset] at hrun
    exact hrun
  obtain ⟨row, hrow, hrowt⟩ : ∃ row, s₁.store.index.inodes ino = some row ∧ row.mtime = t := by
    have htime : Wp ts (FsCore.setattr cfg ino a) (fun r s' => ∀ node, r = .ok node →
        ∃ row, s'.store.index.inodes ino = some row ∧ row.mtime = t) s := wp_setattr_time ha
    have htime := htime n
    rw [hset] at htime
    exact htime node rfl
  have hk : s₁.Promised (some (ino, t)) := by
    refine ⟨⟨hs₁.dated.given, ?_, ?_⟩, hs₁.entry, ?_⟩
    · rintro i t' ⟨⟩
      exact hs₁.dated.given ino row hrow
    · rintro i t' m ⟨⟩ hm
      obtain rfl := Option.some.inj (hrow.symm.trans hm)
      exact hrowt
    · rintro i t' ⟨⟩
      exact hclean
  have hend : (runAll cfg ts post n₁ s₁).2.Promised (some (ino, t)) := by
    apply runAll_kept hk n₁
    rintro i t' ⟨⟩
    exact hpost
  intro node' hnode
  obtain ⟨-, hattr⟩ := wp_getattr_row ino (runAll cfg ts post n₁ s₁).1
  obtain ⟨row', hrow', heq⟩ := hattr node' hnode
  rw [heq]
  exact hend.dated.time ino t row' rfl hrow'

def timesCfg : WbConfig := ⟨⟨2, 1, Nat.two_pos, Nat.one_pos⟩, 1⟩

/-- A new file with one byte that is not flushed. -/
def written : List Event := [.op (.create 1 [97] 0o644 0 0 0), .op (.write 1 0 [7])]

/-- The file behind `pre`, and behind the time that is set then. -/
def beforeTime (pre : List Event) : Nat × FsCore Bytes :=
  runAll timesCfg (fun _ => {}) pre 0 (FsCore.mounted (Store.empty 0 0 0))

def setTime (pre : List Event) : Except (PyErr Bytes) Inode × Nat × FsCore Bytes :=
  FsCore.setattr timesCfg 2 { mtime := some 5 } (fun _ => {}) (beforeTime pre).1 (beforeTime pre).2

def timeAfter (pre post : List Event) : Except (PyErr Bytes) Inode :=
  let p := runAll timesCfg (fun _ => {}) post (setTime pre).2.1 (setTime pre).2.2
  (FsCore.getattr 2 (fun _ => {}) p.1 p.2).1

def setNode : Inode := ⟨2, .file, 0o100644, 0, 0, 1, 0, 5, 0, 1, none⟩

/-- The byte is flushed first. -/
theorem runAll_keeps_mtime_flushed : ∃ node,
    timeAfter (written ++ [.op (.fsync 1)]) [.op .reap, .op (.release 1), .shutdown] = .ok node ∧
      node.mtime = 5 := by
  have hgiven : ∀ i n, (Store.empty 0 0 0 : Store Bytes).index.inodes i = some n →
      i < (Store.empty 0 0 0 : Store Bytes).index.nextIno := by
    intro i n hn
    by_cases hi : i = rootIno
    · rw [hi]
      decide
    · have hnone : (Store.empty 0 0 0 : Store Bytes).index.inodes i = none := by
        simp [Store.empty, Meta.fresh, Function.update_of_ne hi]
      cases hnone.symm.trans hn
  have hset : (setTime (written ++ [.op (.fsync 1)])).1 = .ok setNode := by decide +kernel
  have hclean : ∀ sid, (∃ p ∈ (setTime (written ++ [.op (.fsync 1)])).2.2.fh, p.2 = sid) ∨
      (∃ p ∈ (setTime (written ++ [.op (.fsync 1)])).2.2.states, p.2 = sid) →
      ((setTime (written ++ [.op (.fsync 1)])).2.2.heap sid).dirty = false := by
    intro sid hs
    have hfh : (setTime (written ++ [.op (.fsync 1)])).2.2.fh = [(1, 0)] := by decide +kernel
    have hstates : (setTime (written ++ [.op (.fsync 1)])).2.2.states = [(2, 0)] := by
      decide +kernel
    have hheap : ((setTime (written ++ [.op (.fsync 1)])).2.2.heap 0).dirty = false := by
      decide +kernel
    rw [hfh, hstates] at hs
    have hsid : sid = 0 := by simpa [eq_comm] using hs
    rw [hsid]
    exact hheap
  have hrun : FsCore.setattr timesCfg 2 { mtime := some 5 } (fun _ => {})
      (beforeTime (written ++ [.op (.fsync 1)])).1 (beforeTime (written ++ [.op (.fsync 1)])).2 =
      (.ok setNode, (setTime (written ++ [.op (.fsync 1)])).2) := Prod.ext hset rfl
  have hafter : timeAfter (written ++ [.op (.fsync 1)]) [.op .reap, .op (.release 1), .shutdown] =
      .ok setNode := by decide +kernel
  refine ⟨setNode, hafter, runAll_keeps_mtime timesCfg (fun _ => {}) hgiven
    (written ++ [.op (.fsync 1)]) [.op .reap, .op (.release 1), .shutdown] rfl rfl hrun ?_ ?_
    setNode hafter⟩
  · intro sid hs _
    apply hclean sid
    rcases hs with hs | ⟨i, hm⟩
    · exact .inl hs
    · exact .inr ⟨_, hm, rfl⟩
  · exact ⟨trivial, trivial, trivial, trivial⟩

/-- A flush of what was written before loses the time. -/
theorem runAll_keeps_mtime_lost :
    (setTime written).1 = .ok setNode ∧
      Leave timesCfg (fun _ => {}) 2 [.op (.fsync 1)] (setTime written).2.1 (setTime written).2.2 ∧
      timeAfter written [.op (.fsync 1)] = .ok { setNode with mtime := 0 } := by
  refine ⟨?_, ⟨trivial, trivial⟩, ?_⟩
  · decide +kernel
  · decide +kernel

end Event

end Tgfs
