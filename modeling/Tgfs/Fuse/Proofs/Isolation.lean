import Tgfs.Cache.Proofs.Manager
import Tgfs.Fuse.FsCore
import Tgfs.Fuse.Proofs.Names

/-!
# Every operation keeps the books and the other files

`Sound` is the invariant of a sequential run: that of the manager, with the open handles as
its users. `Kept A s s'` says in addition that the operation touched no inode outside `A`.
Both hold for every operation, whether it succeeds or raises somewhere on the way.
-/

namespace Tgfs

open Run (Wp)

namespace FsCore

variable {Sha : Type}

/-- The number of handles that refer to a state. -/
def held (s : FsCore Sha) (sid : StateId) : Nat := s.fh.countP fun p => p.2 = sid

theorem mem_of_findFh {s : FsCore Sha} {fh : Nat} {sid : StateId} (h : s.findFh fh = some sid) :
    (fh, sid) ∈ s.fh := by
  unfold findFh at h
  obtain ⟨p, hp, rfl⟩ := Option.map_eq_some_iff.mp h
  have hfh := List.find?_some hp
  simp only [decide_eq_true_eq] at hfh
  exact hfh ▸ List.mem_of_find?_eq_some hp

theorem held_pos {s : FsCore Sha} {fh : Nat} {sid : StateId} (h : (fh, sid) ∈ s.fh) :
    0 < s.held sid :=
  List.countP_pos_iff.mpr ⟨(fh, sid), h, by simp⟩

variable [DecidableEq Sha] [Sha256 Sha]

/-- The invariant between operations. -/
def Sound (s : FsCore Sha) : Prop := Writeback.Sound s.held s.toWriteback

/-- A handle's state is registered and in use. -/
theorem Sound.handle {s : FsCore Sha} (h : s.Sound) {fh : Nat} {sid : StateId}
    (hf : s.findFh fh = some sid) : ((s.heap sid).ino, sid) ∈ s.states ∧ sid < s.nextState ∧
      0 < (s.heap sid).refcount := by
  have hpos := held_pos (mem_of_findFh hf)
  obtain ⟨ino, hm⟩ := h.held sid hpos
  have he := h.entry ino sid hm
  refine ⟨he.ino ▸ hm, he.lt, ?_⟩
  have := he.count
  omega

/-- What an operation that touches the inodes in `A` leaves. -/
structure Kept (A : Ino → Prop) (s s' : FsCore Sha) : Prop where
  sound : s'.Sound
  apart : ∀ B, ¬ A B → Writeback.Apart B s.toWriteback s'.toWriteback
  handles : ∀ fh sid, s.findFh fh = some sid → ¬ A (s.heap sid).ino → s'.findFh fh = some sid

variable {A : Ino → Prop} {s s' s'' : FsCore Sha}

theorem Kept.refl (A : Ino → Prop) (h : s.Sound) : Kept A s s :=
  ⟨h, fun _ _ => .refl _ _, fun _ _ hf _ => hf⟩

theorem Kept.trans (hs : s.Sound) (h : Kept A s s') (h' : Kept A s' s'') : Kept A s s'' := by
  refine ⟨h'.sound, fun B hB => (h.apart B hB).trans (h'.apart B hB), fun fh sid hf hA => ?_⟩
  obtain ⟨-, hlt, hpos⟩ := hs.handle hf
  have hheap := ((h.apart _ hA).states sid hlt rfl hpos).1
  exact h'.handles fh sid (h.handles fh sid hf hA) (by rwa [hheap])

/-- How an operation may end. -/
def Ends {α : Type} (A : Ino → Prop) (s : FsCore Sha) (r : Except (PyErr Sha) α)
    (s' : FsCore Sha) : Prop :=
  Kept A s s' ∧ ∀ e, r = .error e → e.Expected

theorem Ends.widen {α : Type} {A' : Ino → Prop} {r : Except (PyErr Sha) α} (h : Ends A s r s')
    (hA : ∀ B, A B → A' B) : Ends A' s r s' :=
  ⟨⟨h.1.sound, fun B hB => h.1.apart B fun ha => hB (hA B ha),
    fun fh sid hf hB => h.1.handles fh sid hf fun ha => hB (hA _ ha)⟩, h.2⟩

section Rules

variable {α β : Type} {ts : Nat → Tick}

theorem Ends.bind (hs : s.Sound) {m : FsRun Sha α} {f : α → FsRun Sha β}
    (hm : Wp ts m (fun r s' => Ends A s r s' ∧
      ∀ a, r = .ok a → s'.Sound → Wp ts (f a) (Ends A s') s') s) :
    Wp ts (m >>= f) (Ends A s) s := by
  refine Wp.bind (hm.mono ?_)
  rintro (e | a) s' ⟨⟨hk, he⟩, hf⟩
  · exact ⟨hk, fun e' h => he e' (congrArg Except.error (Except.error.inj h))⟩
  · exact (hf a rfl hk.sound).mono fun r s'' h => ⟨hk.trans hs h.1, h.2⟩

theorem ends_err {s : FsCore Sha} (hs : s.Sound) (code : Errno) :
    Ends A s (.error (.osError code) : Except (PyErr Sha) α) s := by
  refine ⟨.refl A hs, fun e h => ?_⟩
  cases h
  exact ⟨nofun, nofun⟩

theorem wp_err {s : FsCore Sha} (hs : s.Sound) (code : Errno) :
    Wp ts (err code : FsRun Sha α) (Ends A s) s :=
  Run.wp_raise.mpr (ends_err hs code)

theorem wp_ret {s : FsCore Sha} (hs : s.Sound) (a : α) :
    Wp ts (pure a : FsRun Sha α) (Ends A s) s :=
  Run.wp_pure.mpr ⟨.refl A hs, nofun⟩

/-- A change of the names. -/
theorem Kept.index (hs : s.Sound) {m : Meta Sha} (hm : Meta.SameContent A s.store.index m) :
    Kept A s { s with store := { s.store with index := m } } := by
  refine ⟨⟨hs.books.reindex hm.blobs hm.chunks, hs.keys, fun ino sid hmem => ?_, hs.held⟩,
    fun B hB => ⟨Meta.getChunks_congr hm.chunks B, hm.size B hB, le_rfl, fun _ _ _ _ => ⟨rfl, rfl⟩⟩,
    fun _ _ hf _ => hf⟩
  have he := hs.entry ino sid hmem
  exact he.congr he.lt rfl (Meta.getChunks_congr hm.chunks ino)

theorem wp_index (hs : s.Sound) {f : Meta Sha → Except (PyErr Sha) α × Meta Sha}
    (hm : Meta.SameContent A s.store.index (f s.store.index).2)
    (he : ∀ e, (f s.store.index).1 = .error e → e.Expected) :
    Wp ts (index f) (fun r s' => Ends A s r s' ∧ r = (f s.store.index).1) s :=
  Run.wp_attempt.mpr ⟨⟨.index hs hm, he⟩, rfl⟩

/-- A call of the manager that works on inode `ino` and gives back what it took. -/
theorem Ends.ofDone {ino : Ino} (hA : ∀ B, ¬ A B → B ≠ ino) {r : Except (PyErr Sha) α}
    {w' : Writeback Sha} (h : Writeback.Done s.held ino s.toWriteback r w') :
    Ends A s r { s with toWriteback := w' } :=
  ⟨⟨h.sound, fun B hB => h.apart B (hA B hB), fun _ _ hf _ => hf⟩, h.expected⟩

theorem wp_wb {ino : Ino} (hA : ∀ B, ¬ A B → B ≠ ino) {m : WbRun Sha α}
    (h : Wp ts m (Writeback.Done s.held ino s.toWriteback) s.toWriteback) :
    Wp ts (wb m) (Ends A s) s :=
  Run.wp_zoom.mpr (h.mono fun _ _ hd => Ends.ofDone hA hd)

end Rules

/-! ## Handles -/

omit [DecidableEq Sha] [Sha256 Sha] in
theorem held_le_filter (s : FsCore Sha) (q : Nat × StateId → Bool) (sid : StateId) :
    ({ s with fh := s.fh.filter q } : FsCore Sha).held sid ≤ s.held sid :=
  List.Sublist.countP_le List.filter_sublist

omit [DecidableEq Sha] [Sha256 Sha] in
/-- Removing a handle frees one use of its state. -/
theorem bump_filter_le {s : FsCore Sha} {fh : Nat} {sid : StateId} (h : (fh, sid) ∈ s.fh)
    (sid' : StateId) :
    Writeback.bump ({ s with fh := s.fh.filter fun p => p.1 ≠ fh } : FsCore Sha).held sid sid' ≤
      s.held sid' := by
  have hle := held_le_filter s (fun p => p.1 ≠ fh)
  by_cases hs : sid' = sid
  · subst hs
    rw [Writeback.bump, Function.update_self]
    have hsplit := List.countP_eq_countP_filter_add s.fh (fun p => decide (p.2 = sid'))
      (fun p => decide (p.1 ≠ fh))
    have hone : 0 < (s.fh.filter fun p => !decide (p.1 ≠ fh)).countP
        (fun p => decide (p.2 = sid')) :=
      List.countP_pos_iff.mpr ⟨(fh, sid'), by simp [h], by simp⟩
    unfold held
    dsimp only
    omega
  · rw [Writeback.bump, Function.update_of_ne hs]
    exact hle sid'

/-- Nobody holds the states of an inode that is not open. -/
theorem Sound.held_zero (hs : s.Sound) {ino : Ino} (ho : s.isOpen ino = false) (sid : StateId)
    (hm : (ino, sid) ∈ s.states) : s.held sid = 0 := by
  by_contra hne
  obtain ⟨p, hp, hsid⟩ := List.countP_pos_iff.mp (Nat.pos_of_ne_zero hne)
  have hino := (hs.entry ino sid hm).ino
  unfold isOpen at ho
  rw [List.any_eq_false] at ho
  apply ho p hp
  simp only [decide_eq_true_eq] at hsid ⊢
  rw [hsid, hino]

/-! ## The operations -/

section Ops

variable {ts : Nat → Tick} (hts : ∀ n, (ts n).Quiet True) {cfg : WbConfig}

theorem wp_getattr (hs : s.Sound) (ino : Ino) : Wp ts (getattr ino) (Ends A s) s := by
  unfold getattr FsCore.live FsCore.getInode
  rw [Run.wp_gets_bind]
  cases s.store.index.getInode ino with
  | none => exact wp_err hs .enoent
  | some n => exact Run.wp_gets.mpr ⟨.refl A hs, nofun⟩

omit [DecidableEq Sha] [Sha256 Sha] in
theorem wp_ensureAbsent (s : FsCore Sha) (parent : Ino) (name : Str) :
    Wp ts (ensureAbsent parent name) (fun r s' => s' = s ∧ (∀ e, r = .error e → e.Expected) ∧
      (r = .ok () → s.store.index.lookup parent name = none)) s := by
  unfold ensureAbsent FsCore.lookup
  rw [Run.wp_gets_bind]
  cases hl : s.store.index.lookup parent name with
  | some n =>
    refine Run.wp_raise.mpr ⟨rfl, fun e he => ?_, nofun⟩
    cases he
    exact ⟨nofun, nofun⟩
  | none => exact Run.wp_pure.mpr ⟨rfl, nofun, fun _ => rfl⟩

theorem wp_makeNode (hs : s.Sound) (parent : Ino) (name : Str) (mode : Nat) (kind : Kind)
    (uid gid : Nat) (target : Option Str) :
    Wp ts (makeNode parent name mode kind uid gid target) (fun r s' =>
      Ends (· = s.store.index.nextIno) s r s' ∧ ∀ n, r = .ok n → n.id = s.store.index.nextIno) s := by
  refine Run.Wp.tick_bind fun n => ?_
  refine (wp_index hs (Meta.sameContent_create _ _ _ _ _ _ _ _ _)
    fun e he => Meta.create_expected he).mono ?_
  rintro r s' ⟨he, rfl⟩
  exact ⟨he, fun n hn => Meta.create_id hn⟩

theorem wp_newFh {ino : Ino} {sid : StateId} (hm : (ino, sid) ∈ s.states)
    (hs : Writeback.Sound (Writeback.bump s.held sid) s.toWriteback) :
    Wp ts (newFh sid) (Ends A s) s := by
  refine Run.wp_modifyGet.mpr ⟨⟨?_, fun B _ => .refl B _, fun fh sid' hf _ => ?_⟩, nofun⟩
  · refine hs.mono fun sid' => le_of_eq ?_
    unfold held
    rw [List.countP_append]
    by_cases h : sid' = sid
    · subst h
      simp [Writeback.bump]
    · rw [Writeback.bump, Function.update_of_ne h]
      simp [Ne.symm h]
  · unfold findFh at hf ⊢
    obtain ⟨p, hp, hsid⟩ := Option.map_eq_some_iff.mp hf
    rw [List.find?_append, hp]
    exact congrArg some hsid

include hts

/-- Dropping the content of an inode that is not open. -/
theorem wp_freeInode (hs : s.Sound) {ino : Ino} (ho : s.isOpen ino = false) :
    Wp ts (freeInode ino) (Ends (· = ino) s) s := by
  have hA : ∀ B, ¬ B = ino → B ≠ ino := fun _ h => h
  refine Ends.bind hs (Run.wp_zoom.mpr ((Writeback.Sound.discard hs (hs.held_zero ho)).mono ?_))
  rintro r w ⟨rfl, hd, -, hno⟩
  refine ⟨Ends.ofDone hA hd, fun _ _ hs' => ?_⟩
  exact wp_wb hA (Writeback.Sound.freeFile hts hs' hno)

/-- The end of an unlinked file. -/
theorem wp_freePending (hs : s.Sound) {ino : Ino} (ho : s.isOpen ino = false) :
    Wp ts (do
      Run.modify fun s : FsCore Sha => { s with pendingUnlink := s.pendingUnlink.erase ino }
      freeInode ino) (Ends (· = ino) s) s := by
  rw [Run.wp_modify_bind]
  have hs' : FsCore.Sound { s with pendingUnlink := s.pendingUnlink.erase ino } := hs
  refine (wp_freeInode hts hs' ho).mono fun r s' h => ⟨⟨h.1.sound, h.1.apart, h.1.handles⟩, h.2⟩

theorem wp_dropInode (hs : s.Sound) (ino : Ino) :
    Wp ts (dropInode ino) (Ends (· = ino) s) s := by
  unfold dropInode
  rw [Run.wp_gets_bind]
  cases ho : s.isOpen ino with
  | true =>
    rw [if_pos rfl]
    exact Run.wp_modify.mpr ⟨⟨hs, fun B _ => .refl B _, fun _ _ hf _ => hf⟩, nofun⟩
  | false =>
    rw [if_neg (by simp)]
    exact wp_freeInode hts hs ho

omit hts in
theorem wp_mkNode (hs : s.Sound) (parent : Ino) (name : Str) (mode : Nat) (kind : Kind)
    (uid gid : Nat) (target : Option Str) :
    Wp ts (do
      ensureAbsent parent name
      makeNode parent name mode kind uid gid target) (Ends (· = s.store.index.nextIno) s) s := by
  refine Ends.bind hs ((wp_ensureAbsent s parent name).mono ?_)
  rintro r s' ⟨rfl, he, -⟩
  refine ⟨⟨.refl _ hs, he⟩, fun _ _ hs' => ?_⟩
  exact (wp_makeNode hs' parent name mode kind uid gid target).mono fun _ _ h => h.1

omit hts in
theorem wp_rmdir (hs : s.Sound) (parent : Ino) (name : Str) :
    Wp ts (rmdir parent name) (Ends (fun B => s.store.index.child parent name = some B) s) s := by
  unfold rmdir FsCore.lookup
  rw [Run.wp_gets_bind]
  cases s.store.index.lookup parent name with
  | none => exact wp_err hs .enoent
  | some n =>
    simp only
    split
    · exact wp_err hs .enotdir
    · rw [Run.wp_gets_bind]
      split
      · exact wp_err hs .enotempty
      · refine Run.Wp.tick_bind fun k => ?_
        refine Ends.bind hs ((wp_index hs (Meta.sameContent_unlinkDirent _ _ _ _)
          fun e he => Meta.unlinkDirent_expected he).mono ?_)
        exact fun r s' h => ⟨h.1, fun _ _ hs' => wp_ret hs' ()⟩

omit hts in
theorem wp_link (hs : s.Sound) (ino newParent : Ino) (newName : Str) :
    Wp ts (link ino newParent newName) (Ends (fun _ => False) s) s := by
  unfold link FsCore.getInode
  rw [Run.wp_gets_bind]
  cases s.store.index.getInode ino with
  | none => exact wp_err hs .enoent
  | some n =>
    simp only
    split
    · exact wp_err hs .eperm
    · refine Ends.bind hs ((wp_ensureAbsent s newParent newName).mono ?_)
      rintro r s' ⟨rfl, he, -⟩
      refine ⟨⟨.refl _ hs, he⟩, fun _ _ hs' => Run.Wp.tick_bind fun k => ?_⟩
      refine Ends.bind hs' ((wp_index (A := fun _ => False) hs' (Meta.sameContent_link _ _ _ _ _)
        fun e he => Meta.link_expected he).mono ?_)
      exact fun r s' h => ⟨h.1, fun _ _ hs'' => wp_getattr hs'' ino⟩

theorem wp_unlink (hs : s.Sound) (parent : Ino) (name : Str) :
    Wp ts (unlink parent name) (Ends (fun B => s.store.index.child parent name = some B) s) s := by
  unfold unlink FsCore.lookup
  rw [Run.wp_gets_bind]
  cases hl : s.store.index.lookup parent name with
  | none => exact wp_err hs .enoent
  | some n =>
    have hchild := Meta.child_of_lookup hl
    simp only
    split
    · exact wp_err hs .eisdir
    · refine Run.Wp.tick_bind fun k => ?_
      refine Ends.bind hs ((wp_index hs (Meta.sameContent_unlinkDirent _ _ _ _)
        fun e he => Meta.unlinkDirent_expected he).mono ?_)
      rintro r s' ⟨he, -⟩
      refine ⟨he, fun a _ hs' => ?_⟩
      split
      · refine (wp_dropInode hts hs' n.id).mono fun _ _ h => h.widen fun B hB => ?_
        rw [hchild, hB]
      · exact wp_ret hs' ()

theorem wp_rename (hs : s.Sound) (oldp : Ino) (oldname : Str) (newp : Ino) (newname : Str) :
    Wp ts (rename oldp oldname newp newname)
      (Ends (fun B => s.store.index.child newp newname = some B) s) s := by
  unfold rename FsCore.lookup
  rw [Run.wp_gets_bind]
  cases s.store.index.lookup oldp oldname with
  | none => exact wp_err hs .enoent
  | some n =>
    simp only
    rw [Run.wp_gets_bind]
    split
    · exact wp_err hs .enotempty
    · refine Ends.bind hs ((wp_index hs (Meta.sameContent_rename _ _ _ _ _)
        fun e he => Meta.rename_expected he).mono ?_)
      rintro r s' ⟨he, hr⟩
      refine ⟨he, fun a ha hs' => ?_⟩
      cases a with
      | none => exact wp_ret hs' ()
      | some ino =>
        refine (wp_dropInode hts hs' ino).mono fun _ _ h => h.widen fun B hB => ?_
        rw [hB]
        exact Meta.rename_replaced (hr.symm.trans ha)

/-- Opening a state and giving it a handle. -/
theorem wp_openState (hs : s.Sound) (ino : Ino) (forWrite : Bool) :
    Wp ts (do
      let sid ← wb (Writeback.openFile cfg ino forWrite)
      newFh sid) (Ends (· = ino) s) s := by
  refine Ends.bind hs (Run.wp_zoom.mpr ((Writeback.Sound.openFile hts hs ino forWrite).mono ?_))
  rintro r w ⟨hd, hok⟩
  refine ⟨Ends.ofDone (fun _ h => h) hd, fun sid he hs' => ?_⟩
  obtain ⟨hm, hb⟩ := hok sid he
  exact wp_newFh hm hb

theorem wp_setattr (hs : s.Sound) (ino : Ino) (a : Meta.Attrs) :
    Wp ts (setattr cfg ino a) (Ends (· = ino) s) s := by
  have hrest : ∀ s : FsCore Sha, s.Sound → Wp ts (do
      let t ← Run.tick
      index fun m => (.ok (), m.setattr t.now ino { a with size := none })
      getattr ino) (Ends (· = ino) s) s := by
    intro s hs
    refine Run.Wp.tick_bind fun k => ?_
    refine Ends.bind hs ((wp_index (A := (· = ino)) hs (Meta.sameContent_setattr _ _ rfl _)
      fun e he => by cases he).mono ?_)
    exact fun _ _ h => ⟨h.1, fun _ _ hs' => wp_getattr hs' ino⟩
  unfold setattr FsCore.getInode
  rw [Run.wp_gets_bind]
  cases s.store.index.getInode ino with
  | none => exact wp_err hs .enoent
  | some n =>
    cases a.size with
    | none => exact hrest s hs
    | some size =>
      simp only
      split
      · refine Ends.bind hs ((wp_wb (fun _ h => h)
          (Writeback.Sound.truncatePath hts hs ino size)).mono ?_)
        exact fun _ _ h => ⟨h, fun _ _ hs' => hrest _ hs'⟩
      · exact hrest s hs

theorem wp_openFh (hs : s.Sound) (ino : Ino) (flags : Nat) :
    Wp ts (openFh cfg ino flags) (Ends (· = ino) s) s := by
  unfold openFh FsCore.getInode
  rw [Run.wp_gets_bind]
  cases s.store.index.getInode ino with
  | none => exact wp_err hs .enoent
  | some n =>
    simp only
    split
    · exact wp_err hs .eisdir
    · split
      · refine Ends.bind hs ((wp_wb (fun _ h => h)
          (Writeback.Sound.truncatePath hts hs ino 0)).mono ?_)
        exact fun _ _ h => ⟨h, fun _ _ hs' => wp_openState hts hs' ino (wantsWrite flags)⟩
      · exact wp_openState hts hs ino (wantsWrite flags)

/-- The inode that `create` opens. -/
def createdIno (s : FsCore Sha) (parent : Ino) (name : Str) : Ino :=
  ((s.store.index.lookup parent name).map (·.id)).getD s.store.index.nextIno

theorem wp_create (hs : s.Sound) (parent : Ino) (name : Str) (mode flags uid gid : Nat) :
    Wp ts (create cfg parent name mode flags uid gid) (Ends (· = s.createdIno parent name) s) s := by
  have hrest : ∀ (s : FsCore Sha) (n : Inode), s.Sound → Wp ts (do
      let sid ← wb (Writeback.openFile cfg n.id true)
      let fh ← newFh sid
      pure (fh, n)) (Ends (· = n.id) s) s := by
    intro s n hs
    refine Run.wp_bind_assoc.mp (Ends.bind hs ((wp_openState hts hs n.id true).mono ?_))
    exact fun _ _ h => ⟨h, fun _ _ hs' => wp_ret hs' _⟩
  unfold create FsCore.lookup createdIno
  rw [Run.wp_gets_bind]
  cases s.store.index.lookup parent name with
  | some n =>
    simp only [Option.map_some, Option.getD_some]
    split
    · exact Run.wp_raise_bind.mpr (ends_err hs .eexist)
    · exact hrest s n hs
  | none =>
    refine Ends.bind hs ((wp_makeNode hs _ _ _ _ _ _ _).mono ?_)
    rintro r s' ⟨he, hid⟩
    refine ⟨he, fun n hn hs' => ?_⟩
    rw [Option.map_none, Option.getD_none, ← hid n hn]
    exact hrest s' n hs'

/-- Code on the state that a handle refers to. -/
theorem wp_onHandle (hs : s.Sound) (fh : Nat) {α : Type} {m : FileRun Sha α} (hm : Robust m) :
    Wp ts (do
      let sid ← getState fh
      wb (Writeback.onState sid m))
      (Ends (fun B => ∃ sid, s.findFh fh = some sid ∧ (s.heap sid).ino = B) s) s := by
  unfold getState
  rw [Run.wp_bind_assoc, Run.wp_gets_bind]
  cases hf : s.findFh fh with
  | none => exact Run.wp_raise_bind.mpr (ends_err hs .ebadf)
  | some sid =>
    rw [Run.wp_pure_bind]
    have hmem := (hs.handle hf).1
    refine Run.wp_zoom.mpr ((Writeback.Sound.onState hts hm hs (hs.usable hmem)).mono ?_)
    rintro r w ⟨hs', -, ht, he⟩
    refine ⟨⟨hs', fun B hB => ht.apart B ?_, fun _ _ hf' _ => hf'⟩, he⟩
    rintro rfl
    exact hB ⟨sid, rfl, rfl⟩

omit [DecidableEq Sha] [Sha256 Sha] hts in
/-- The other handles stay. -/
theorem findFh_filter (s : FsCore Sha) {fh fh' : Nat} (hne : fh' ≠ fh) :
    ({ s with fh := s.fh.filter fun p => p.1 ≠ fh } : FsCore Sha).findFh fh' = s.findFh fh' := by
  unfold findFh
  rw [List.find?_filter]
  congr 2
  funext p
  by_cases hp : p.1 = fh'
  · simp [hp, hne]
  · simp [hp]

theorem wp_release (hs : s.Sound) (fh : Nat) :
    Wp ts (release cfg fh)
      (Ends (fun B => ∃ sid, s.findFh fh = some sid ∧ (s.heap sid).ino = B) s) s := by
  unfold release
  rw [Run.wp_modifyGet_bind]
  have hle := held_le_filter s fun p => p.1 ≠ fh
  have hkept : ∀ A : Ino → Prop, (∀ sid, s.findFh fh = some sid → A (s.heap sid).ino) →
      Kept A s { s with fh := s.fh.filter fun p => p.1 ≠ fh } := by
    intro A hA
    refine ⟨hs.mono hle, fun B _ => .refl B _, fun fh' sid hf' hB => ?_⟩
    rw [findFh_filter, hf']
    rintro rfl
    exact hB (hA sid hf')
  cases hf : s.findFh fh with
  | none =>
    exact Run.wp_pure.mpr ⟨hkept _ (by simp [hf]), nofun⟩
  | some sid =>
    set A : Ino → Prop := fun B => ∃ sid', some sid = some sid' ∧ (s.heap sid').ino = B with hA
    have hAino : A (s.heap sid).ino := ⟨sid, rfl, rfl⟩
    have hk := hkept A fun sid' h => ⟨sid', hf.symm.trans h, rfl⟩
    have hb := hs.mono (bump_filter_le (mem_of_findFh hf))
    refine Wp.mono (Ends.bind (A := A) hk.sound (Run.wp_zoom.mpr
      ((Writeback.Sound.release hts hb (hs.handle hf).1).mono ?_))) fun r s' h =>
        ⟨hk.trans hs h.1, h.2⟩
    rintro r w ⟨hd, hino⟩
    refine ⟨Ends.ofDone (fun B hB => ?_) hd, fun _ _ hs' => ?_⟩
    · rintro rfl
      exact hB hAino
    · rw [Run.wp_gets_bind, Run.wp_gets_bind, hino]
      split
      case isFalse => exact wp_ret hs' ()
      case isTrue hlast =>
        simp only [Bool.and_eq_true, Bool.not_eq_true'] at hlast
        refine (wp_freePending hts hs' hlast.2).mono fun _ _ h => h.widen fun B hB => ?_
        exact hB ▸ hAino

end Ops

end FsCore

end Tgfs
