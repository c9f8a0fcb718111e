import Tgfs.Cache.Proofs.Files
import Tgfs.Fuse.Proofs.Handles
import Tgfs.Fuse.Proofs.Numbers
import Tgfs.Names.Runs

/-!
# The file system as a table of byte arrays

Along a run in which nothing fails every file is a byte array: its size is the length, every read
through any handle is a piece of it, and behind a shutdown the store holds it for the next mount.
Only `write`, `setattr` and an `open` that truncates change the bytes of a file.
-/

namespace Tgfs

open Run (Wp)

variable {Sha : Type}

/-! ## What the names do to the files -/

namespace Meta

variable {m m₁ m' : Meta Sha}

/-- No chunk is touched; the inodes that are left have their size, a new one has none. -/
structure Renames (m m' : Meta Sha) : Prop where
  chunks : m'.chunks = m.chunks
  blobs : m'.blobs = m.blobs
  next : m.nextIno ≤ m'.nextIno
  inode : ∀ i n', m'.inodes i = some n' →
    (∃ n, m.inodes i = some n ∧ n'.size = n.size) ∨ i = m.nextIno ∧ n'.size = 0

theorem Renames.then (h : Renames m m₁) (h' : SameContent (fun _ => False) m₁ m')
    (hn : m'.nextIno = m₁.nextIno) : Renames m m' := by
  refine ⟨h'.chunks.trans h.chunks, h'.blobs.trans h.blobs, hn ▸ h.next, fun i n' hn' => ?_⟩
  have hsize := h'.size i id
  rw [hn', Option.map_some] at hsize
  obtain ⟨n₁, hn₁, hsame⟩ := Option.map_eq_some_iff.mp hsize.symm
  rcases h.inode i n₁ hn₁ with ⟨n, hn, he⟩ | ⟨hi, he⟩
  · exact .inl ⟨n, hn, hsame.symm.trans he⟩
  · exact .inr ⟨hi, hsame.symm.trans he⟩

theorem Renames.refl (m : Meta Sha) : Renames m m :=
  ⟨rfl, rfl, Nat.le_refl _, fun _ n hn => .inl ⟨n, hn, rfl⟩⟩

theorem renames_create (now : Time) (parent : Ino) (name : Str) (mode : Nat) (kind : Kind)
    (uid gid : Nat) (target : Option Str) (m : Meta Sha) :
    Renames m (m.create now parent name mode kind uid gid target).2 := by
  have hadd : Renames m (m.addRow (m.newRow now mode kind uid gid target)) := by
    refine ⟨rfl, rfl, Nat.le_succ _, fun i n' hn' => ?_⟩
    by_cases hi : i = m.nextIno
    · subst hi
      have hrow : (m.addRow (m.newRow now mode kind uid gid target)).inodes m.nextIno =
          some (m.newRow now mode kind uid gid target) := Function.update_self _ _ _
      rw [hrow] at hn'
      cases hn'
      exact .inr ⟨rfl, rfl⟩
    · exact .inl ⟨n', (Function.update_of_ne hi _ _).symm.trans hn', rfl⟩
  rcases m.create_cases now parent name mode kind uid gid target with ⟨-, h⟩ | ⟨-, n, -, h⟩
  · rw [h]
    exact hadd
  · rw [h]
    exact hadd.then ((sameContent_insertDirent _ _ _ _).trans (sameContent_addDirLink _ _ _ _))
      (addDirLink_nextIno _ _ _ _)

/-- One link fewer, and no inode where that was the last. -/
theorem renames_dropLink (m : Meta Sha) (parent : Ino) (name : Str) {c : Ino} {row : Inode}
    (hrow : m.inodes c = some row) {f : Inode → Inode} (hf : ∀ n, (f n).size = n.size) (left : Int) :
    Renames m ((m.dropLink parent name c row f).reap c left) := by
  have hsame := sameContent_dropLink m parent name c row f hf left
  refine ⟨hsame.chunks, hsame.blobs, ?_, fun i n' hn' => .inl ?_⟩
  · rw [dropLink_nextIno]
  · by_cases hi : c = i
    · subst hi
      refine ⟨row, hrow, ?_⟩
      unfold reap at hn'
      split at hn'
      · have hnone : ((m.dropLink parent name c row f).deleteInode c).inodes c = none :=
          Function.update_self _ _ _
        rw [hnone] at hn'
        cases hn'
      · rw [dropLink_row parent name f hrow] at hn'
        cases hn'
        exact hf row
    · have hsize := hsame.size i (fun he => hi (Option.some.inj he))
      rw [hn', Option.map_some] at hsize
      obtain ⟨n, hn, he⟩ := Option.map_eq_some_iff.mp hsize.symm
      exact ⟨n, hn, he.symm⟩

theorem renames_unlinkDirent (now : Time) (parent : Ino) (name : Str) (m : Meta Sha) :
    Renames m (m.unlinkDirent now parent name).2 := by
  rcases m.unlinkDirent_cases now parent name with ⟨⟨e, -, h⟩, -⟩ | ⟨c, row, -, hrow, h⟩
  · rw [h]
    exact .refl m
  · rw [h]
    apply renames_dropLink m parent name hrow
    intro n
    rfl

theorem renames_rename (op : Ino) (oname : Str) (np : Ino) (nname : Str) (m : Meta Sha) :
    Renames m (m.rename op oname np nname).2 := by
  rcases m.rename_cases op oname np nname with ⟨e, -, h⟩ | ⟨src, row, r, m₁, -, -, hrep, h⟩
  · rw [h]
    exact .refl m
  have hm₁ : Renames m m₁ := by
    rcases m.replaceDst_cases np nname with ⟨-, h'⟩ | ⟨c, -, -, h'⟩ | ⟨c, row', -, hrow', h'⟩
    · rw [h'] at hrep
      cases hrep
      exact .refl m
    · rw [h'] at hrep
      cases hrep
    · rw [h'] at hrep
      cases hrep
      apply renames_dropLink m np nname hrow'
      intro n
      rfl
  rw [h]
  exact hm₁.then ((sameContent_moveDirent _ _ _ _ _).trans (sameContent_moveDirLink _ _ _ _))
    (moveDirLink_nextIno _ _ _ _)

theorem renames_link (now : Time) (parent : Ino) (name : Str) (ino : Ino) (m : Meta Sha) :
    Renames m (m.link now parent name ino).2 := by
  apply (Renames.refl m).then (sameContent_link now parent name ino m)
  rcases m.link_cases now parent name ino with ⟨-, h⟩ | ⟨-, h⟩
  · rw [h]
  · rw [h]
    rfl

theorem renames_setattr (now : Time) (ino : Ino) {a : Attrs} (ha : a.size = none) (m : Meta Sha) :
    Renames m (m.setattr now ino a) := by
  apply (Renames.refl m).then (sameContent_setattr now ino ha m)
  unfold setattr
  split
  · rfl
  · rfl

theorem SameContent.gone (h : SameContent (fun _ => False) m m') {i : Ino}
    (hg : m.inodes i = none) : m'.inodes i = none := by
  have hsize := h.size i id
  rw [hg] at hsize
  exact Option.map_eq_none_iff.mp hsize

/-- The inode that `rename` gives back to be freed. -/
theorem replaceDst_gone (h : m.Numbered) {np : Ino} {nname : Str} {c : Ino}
    (hr : m.replaceDst np nname = (.ok (some c), m₁)) :
    c < m₁.nextIno ∧ m₁.inodes c = none := by
  rcases m.replaceDst_cases np nname with ⟨-, h'⟩ | ⟨c', -, -, h'⟩ | ⟨c', row, -, hrow, h'⟩
  · rw [h'] at hr
    cases hr
  · rw [h'] at hr
    cases hr
  rw [h'] at hr
  obtain ⟨hout, rfl⟩ := Prod.mk.inj hr
  have hout := Except.ok.inj hout
  split at hout
  case isTrue => cases hout
  case isFalse hleft =>
    cases hout
    refine ⟨?_, ?_⟩
    · rw [dropLink_nextIno]
      exact h.lt (getInode_of_row hrow)
    · rw [reap, if_pos (Int.not_lt.mp hleft)]
      exact Function.update_self _ _ _

end Meta

namespace FsCore

variable [DecidableEq Sha] [Sha256 Sha] {cs : Nat} {s s' : FsCore Sha} {f : Ino → Bytes}
  {ino : Ino} {ref : Bytes} {ts : Nat → Tick} {cfg : WbConfig}

/-- Every file has its bytes. The inodes that wait for their last handle are gone. -/
structure Files (cs : Nat) (s : FsCore Sha) (f : Ino → Bytes) : Prop where
  sound : s.Sound
  has : ∀ ino, s.toWriteback.Has cs ino (f ino)
  blank : ∀ ino, s.store.index.nextIno ≤ ino → f ino = []
  pending : ∀ ino ∈ s.pendingUnlink,
    ino < s.store.index.nextIno ∧ s.store.index.inodes ino = none

omit [DecidableEq Sha] in
theorem storedAs_nil {store : Store Sha} {n : Inode} (hrows : store.index.getChunks ino = [])
    (hn : store.index.inodes ino = some n) (hsize : n.size = 0) : store.StoredAs cs ino [] := by
  refine ⟨?_, n, hn, hsize⟩
  have hcount : chunkCount cs 0 = 0 := by
    unfold chunkCount
    rw [Nat.zero_add]
    rcases Nat.eq_zero_or_pos cs with hcs | hcs
    · rw [hcs]
    · exact Nat.div_eq_of_lt (Nat.sub_lt hcs Nat.one_pos)
  rw [hrows, List.length_nil, hcount]
  rfl

/-- A change of the names. -/
theorem Files.index (h : Files cs s f) (hn : s.Numbered) {m : Meta Sha}
    (hm : Meta.Renames s.store.index m) :
    Files cs { s with store := { s.store with index := m } } f := by
  have hsame : Meta.SameContent (fun _ => True) s.store.index m :=
    ⟨hm.chunks, hm.blobs, fun _ hB => absurd trivial hB⟩
  have hsound := (Kept.index h.sound hsame).sound
  have hrows := Meta.getChunks_congr hm.chunks
  have hspared : ∀ ino, ino ≠ s.store.index.nextIno →
      s.store.Spared ino { s.store with index := m } := by
    intro ino hne
    refine ⟨hrows ino, fun n' hn' => ?_⟩
    rcases hm.inode ino n' hn' with hold | ⟨hi, -⟩
    · exact hold
    · exact absurd hi hne
  refine ⟨hsound, fun ino => ⟨fun sid hmem => ?_, fun n' hn' hno => ?_⟩,
    fun ino hi => h.blank ino (hm.next.trans hi), fun ino hi => ?_⟩
  · have hino : (s.toWriteback.view sid).st.ino = ino := (h.sound.entry ino sid hmem).ino
    have hlt : (s.heap sid).ino < s.store.index.nextIno := hn.heap sid
    have hne : (s.toWriteback.view sid).st.ino ≠ s.store.index.nextIno := Nat.ne_of_lt hlt
    exact ((h.has ino).state sid hmem).congr (k := (s.heap sid).refcount)
      (t := (s.heap sid).idleSince) rfl rfl hsound.books (hspared _ hne)
  · by_cases hne : ino = s.store.index.nextIno
    · subst hne
      rw [h.blank _ (Nat.le_refl _)]
      rcases hm.inode _ n' hn' with ⟨n, hold, -⟩ | ⟨-, hsize⟩
      · exact absurd (hn.index.lt (Meta.getInode_of_row hold)) (Nat.lt_irrefl _)
      · exact storedAs_nil ((hrows _).trans hn.index.unborn) hn' hsize
    · obtain ⟨n, hold, -⟩ := (hspared ino hne).inode n' hn'
      exact ((h.has ino).stored n hold hno).congr (hspared ino hne) hn'
  · obtain ⟨hlt, hgone⟩ := h.pending ino hi
    refine ⟨Nat.lt_of_lt_of_le hlt hm.next, ?_⟩
    cases hn' : m.inodes ino with
    | none => rfl
    | some n' =>
      rcases hm.inode ino n' hn' with ⟨n, hold, -⟩ | ⟨hi, -⟩
      · rw [hgone] at hold
        cases hold
      · exact absurd hi (Nat.ne_of_lt hlt)

theorem Files.wp_index (h : Files cs s f) (hn : s.Numbered) {α : Type}
    {g : Meta Sha → Except (PyErr Sha) α × Meta Sha}
    (hg : Meta.Renames s.store.index (g s.store.index).2) :
    Wp ts (FsCore.index g) (fun r s' => Files cs s' f ∧ r = (g s.store.index).1 ∧
      s'.store.index = (g s.store.index).2) s :=
  Run.wp_attempt.mpr ⟨h.index hn hg, rfl, rfl⟩

/-- A call of the manager for one file. -/
theorem Files.wb (h : Files cs s f) (hlt : ino < s.store.index.nextIno ∨ ref = f ino) {α : Type}
    {m : WbRun Sha α} {P : Except (PyErr Sha) α → Writeback Sha → Prop}
    (hm : Wp ts m (fun r w' => Writeback.Sound s.held w' ∧ Writeback.Beside ino s.toWriteback w' ∧
      w'.Has cs ino ref ∧ w'.names = s.toWriteback.names ∧ P r w') s.toWriteback) :
    Wp ts (FsCore.wb m) (fun r s' => Files cs s' (Function.update f ino ref) ∧
      s'.toWriteback.names = s.toWriteback.names ∧ s'.held = s.held ∧ P r s'.toWriteback) s := by
  refine Run.wp_zoom.mpr (hm.mono ?_)
  rintro r w' ⟨hsound, hb, hhas, hnames, hr⟩
  have hnext : w'.store.index.nextIno = s.store.index.nextIno := congrArg Namespace.nextIno hnames
  refine ⟨⟨hsound, fun B => ?_, fun B hB => ?_, fun B hB => ?_⟩, hnames, rfl, hr⟩
  · by_cases hB : B = ino
    · subst hB
      rw [Function.update_self]
      exact hhas
    · rw [Function.update_of_ne hB]
      exact (h.has B).beside h.sound hb hB hsound.books
  · have hB' : s.store.index.nextIno ≤ B := hnext ▸ hB
    by_cases hBi : B = ino
    · subst hBi
      rw [Function.update_self]
      rcases hlt with hlt | rfl
      · exact absurd hB' (Nat.not_le_of_lt hlt)
      · exact h.blank B hB'
    · rw [Function.update_of_ne hBi]
      exact h.blank B hB'
  · obtain ⟨hlt', hgone⟩ := h.pending B hB
    exact ⟨hnext.symm ▸ hlt', (Writeback.gone_iff hnames).mpr hgone⟩

/-- The files behind a `setattr` of the size. -/
def resized (s : FsCore Sha) (f : Ino → Bytes) (ino : Ino) (size : Option Nat) : Ino → Bytes :=
  match s.store.index.getInode ino with
  | some n =>
    if n.isDir then f
    else size.elim f fun size => Function.update f ino (resize (f ino) size)
  | none => f

/-- The files behind an edit through a handle. -/
def edited (s : FsCore Sha) (f : Ino → Bytes) (fh : Nat) (g : Bytes → Bytes) : Ino → Bytes :=
  match s.findFh fh with
  | some sid => Function.update f (s.heap sid).ino (g (f (s.heap sid).ino))
  | none => f

/-! ## The operations -/

section Ops

variable (hcfg : cfg.chunkSize = cs) (hinj : Function.Injective (sha256 : Bytes → Sha))
  (hts : ∀ n, (ts n).Quiet False)
include hts

/-- The content of an unlinked file that nobody has open. -/
theorem Files.freeInode (h : Files cs s f) (ho : s.isOpen ino = false)
    (hg : s.store.index.inodes ino = none) :
    Wp ts (FsCore.freeInode ino) (fun _ s' => Files cs s' f) s := by
  have hts' : ∀ n, (ts n).Quiet True := fun n => (hts n).mono False.elim
  have hself := Function.update_eq_self ino f
  unfold FsCore.freeInode
  have hdiscard : Wp ts (Writeback.discard ino) (fun r w' => Writeback.Sound s.held w' ∧
      Writeback.Beside ino s.toWriteback w' ∧ w'.Has cs ino (f ino) ∧
      w'.names = s.toWriteback.names ∧ r = .ok () ∧ ∀ sid, (ino, sid) ∉ w'.states)
      s.toWriteback := by
    refine ((Writeback.Sound.discard h.sound (h.sound.held_zero ho)).and
      (Writeback.Sound.discard_beside h.sound ino)).mono ?_
    rintro r w' ⟨⟨hr, hd, hstore, hno⟩, hb⟩
    refine ⟨hd.sound, hb, ⟨fun sid hm => absurd hm (hno sid), fun n hn => ?_⟩,
      congrArg Store.names hstore, hr, hno⟩
    rw [hstore] at hn
    exact absurd (hn.symm.trans hg) (by simp)
  refine Wp.bind_ok ((h.wb (.inr rfl) (P := fun r w' => r = .ok () ∧ ∀ sid, (ino, sid) ∉ w'.states)
    hdiscard).mono ?_)
  rintro r s₁ ⟨h₁, hnames, -, rfl, hno⟩
  rw [hself] at h₁
  refine ⟨(), rfl, ?_⟩
  have hfree : Wp ts (Writeback.callStore (Store.freeFile ino)) (fun _ w' =>
      Writeback.Sound s₁.held w' ∧ Writeback.Beside ino s₁.toWriteback w' ∧ w'.Has cs ino (f ino) ∧
      w'.names = s₁.toWriteback.names ∧ True) s₁.toWriteback := by
    refine (((Writeback.Sound.freeFile hts' h₁.sound hno).and
      (Writeback.Sound.freeFile_beside hts h₁.sound ino)).and
      (Writeback.keeps_callStore _).wp).mono ?_
    rintro r w' ⟨⟨hd, hb, hstates⟩, hnames'⟩
    refine ⟨hd.sound, hb, ⟨fun sid hm => absurd (hstates ▸ hm) (hno sid), fun n hn => ?_⟩, hnames',
      trivial⟩
    have hgone := (Writeback.gone_iff (hnames'.trans hnames)).mpr hg
    exact absurd (hn.symm.trans hgone) (by simp)
  refine (h₁.wb (.inr rfl) (P := fun _ _ => True) hfree).mono fun _ s' h' => ?_
  exact hself ▸ h'.1

theorem Files.dropInode (h : Files cs s f) (hlt : ino < s.store.index.nextIno)
    (hg : s.store.index.inodes ino = none) :
    Wp ts (FsCore.dropInode ino) (fun _ s' => Files cs s' f) s := by
  unfold FsCore.dropInode
  rw [Run.wp_gets_bind]
  cases ho : s.isOpen ino with
  | true =>
    rw [if_pos rfl]
    refine Run.wp_modify.mpr ⟨h.sound, h.has, h.blank, fun B hB => ?_⟩
    rcases Finset.mem_insert.mp hB with rfl | hB
    · exact ⟨hlt, hg⟩
    · exact h.pending B hB
  | false =>
    rw [if_neg (by simp)]
    exact h.freeInode hts ho hg

omit hts in
theorem Files.makeNode (h : Files cs s f) (hn : s.Numbered) (parent : Ino) (name : Str)
    (mode : Nat) (kind : Kind) (uid gid : Nat) (target : Option Str) :
    Wp ts (FsCore.makeNode parent name mode kind uid gid target) (fun _ s' => Files cs s' f) s := by
  refine Run.Wp.tick_bind fun n => ?_
  exact (h.wp_index hn (Meta.renames_create _ _ _ _ _ _ _ _ _)).mono fun _ _ h' => h'.1

omit hts in
theorem Files.mkNode (h : Files cs s f) (hn : s.Numbered) (parent : Ino) (name : Str)
    (mode : Nat) (kind : Kind) (uid gid : Nat) (target : Option Str) :
    Wp ts (do
      ensureAbsent parent name
      FsCore.makeNode parent name mode kind uid gid target) (fun _ s' => Files cs s' f) s := by
  refine Wp.bind ((wp_ensureAbsent s parent name).mono ?_)
  rintro (e | u) s' ⟨rfl, -⟩
  · exact h
  · exact h.makeNode hn parent name mode kind uid gid target

omit hts in
theorem Files.getattr (h : Files cs s f) (ino : Ino) :
    Wp ts (FsCore.getattr ino) (fun _ s' => Files cs s' f) s := by
  unfold FsCore.getattr FsCore.live FsCore.getInode
  rw [Run.wp_gets_bind]
  cases s.store.index.getInode ino with
  | none => exact Run.wp_raise.mpr h
  | some n => exact Run.wp_gets.mpr h

omit hts in
theorem Files.rmdir (h : Files cs s f) (hn : s.Numbered) (parent : Ino) (name : Str) :
    Wp ts (FsCore.rmdir parent name) (fun _ s' => Files cs s' f) s := by
  unfold FsCore.rmdir FsCore.lookup
  rw [Run.wp_gets_bind]
  cases s.store.index.lookup parent name with
  | none => exact Run.wp_raise.mpr h
  | some n =>
    dsimp only
    split
    · exact Run.wp_raise.mpr h
    · rw [Run.wp_gets_bind]
      split
      · exact Run.wp_raise.mpr h
      · refine Run.Wp.tick_bind fun k => ?_
        refine Wp.bind ((h.wp_index hn (Meta.renames_unlinkDirent _ _ _ _)).mono ?_)
        rintro (e | r) s' ⟨h', -⟩
        · exact h'
        · exact Run.wp_pure.mpr h'

omit hts in
theorem Files.link (h : Files cs s f) (hn : s.Numbered) (ino newParent : Ino) (newName : Str) :
    Wp ts (FsCore.link ino newParent newName) (fun _ s' => Files cs s' f) s := by
  unfold FsCore.link FsCore.getInode
  rw [Run.wp_gets_bind]
  cases s.store.index.getInode ino with
  | none => exact Run.wp_raise.mpr h
  | some n =>
    dsimp only
    split
    · exact Run.wp_raise.mpr h
    · refine Wp.bind ((wp_ensureAbsent s newParent newName).mono ?_)
      rintro (e | u) s' ⟨rfl, -⟩
      · exact h
      refine Run.Wp.tick_bind fun k => ?_
      refine Wp.bind ((h.wp_index hn (Meta.renames_link _ _ _ _ _)).mono ?_)
      rintro (e | r) s' ⟨h', -⟩
      · exact h'
      · exact h'.getattr ino

theorem Files.unlink (h : Files cs s f) (hn : s.Numbered) (parent : Ino) (name : Str) :
    Wp ts (FsCore.unlink parent name) (fun _ s' => Files cs s' f) s := by
  unfold FsCore.unlink FsCore.lookup
  rw [Run.wp_gets_bind]
  cases hl : s.store.index.lookup parent name with
  | none => exact Run.wp_raise.mpr h
  | some n =>
    have hchild := Meta.child_of_lookup hl
    dsimp only
    split
    · exact Run.wp_raise.mpr h
    · refine Run.Wp.tick_bind fun k => ?_
      refine Wp.bind ((h.wp_index hn (Meta.renames_unlinkDirent _ _ _ _)).mono ?_)
      rintro (e | r) s' ⟨h', hr, hindex⟩
      · exact h'
      dsimp only
      split
      case isFalse => exact Run.wp_pure.mpr h'
      case isTrue hleft =>
        rcases s.store.index.unlinkDirent_cases (ts k).now parent name with
          ⟨⟨e, -, hrun⟩, -⟩ | ⟨c, row, hc, hrow, hrun⟩
        · rw [hrun] at hr
          cases hr
        · rw [hrun] at hr hindex
          cases hr
          obtain rfl : n.id = c := Option.some.inj (hchild.symm.trans hc)
          dsimp only at hleft hindex
          have hlt := hn.index.lt (Meta.getInode_of_row hrow)
          refine h'.dropInode hts ?_ ?_
          · rw [hindex, Meta.dropLink_nextIno]
            exact hlt
          · rw [hindex, Meta.reap, if_pos hleft]
            exact Function.update_self _ _ _

theorem Files.rename (h : Files cs s f) (hn : s.Numbered) (oldp : Ino) (oldname : Str) (newp : Ino)
    (newname : Str) :
    Wp ts (FsCore.rename oldp oldname newp newname) (fun _ s' => Files cs s' f) s := by
  unfold FsCore.rename FsCore.lookup
  rw [Run.wp_gets_bind]
  cases s.store.index.lookup oldp oldname with
  | none => exact Run.wp_raise.mpr h
  | some n =>
    dsimp only
    rw [Run.wp_gets_bind]
    split
    · exact Run.wp_raise.mpr h
    · refine Wp.bind ((h.wp_index hn (Meta.renames_rename _ _ _ _ _)).mono ?_)
      rintro (e | r) s' ⟨h', hr, hindex⟩
      · exact h'
      cases r with
      | none => exact Run.wp_pure.mpr h'
      | some c =>
        rcases s.store.index.rename_cases oldp oldname newp newname with
          ⟨e, -, hrun⟩ | ⟨src, row, r, m₁, -, -, hrep, hrun⟩
        · rw [hrun] at hr
          cases hr
        rw [hrun] at hr hindex
        cases hr
        dsimp only at hindex
        obtain ⟨hlt, hgone⟩ := Meta.replaceDst_gone hn.index hrep
        refine h'.dropInode hts ?_ ?_
        · rw [hindex, Meta.moveDirLink_nextIno]
          exact hlt
        · rw [hindex]
          exact ((Meta.sameContent_moveDirent _ _ _ _ _).trans
            (Meta.sameContent_moveDirLink _ _ _ _)).gone hgone

/-- Opening a state and giving it a handle. -/
theorem Files.openState (hcfg : cfg.chunkSize = cs) (h : Files cs s f)
    (hlt : ino < s.store.index.nextIno) (forWrite : Bool) :
    Wp ts (do
      let sid ← FsCore.wb (Writeback.openFile cfg ino forWrite)
      newFh sid) (fun _ s' => Files cs s' f) s := by
  have hts' : ∀ n, (ts n).Quiet True := fun n => (hts n).mono False.elim
  have hself := Function.update_eq_self ino f
  have hopen : Wp ts (Writeback.openFile cfg ino forWrite) (fun r w' =>
      Writeback.Sound s.held w' ∧ Writeback.Beside ino s.toWriteback w' ∧ w'.Has cs ino (f ino) ∧
      w'.names = s.toWriteback.names ∧ ∀ sid, r = .ok sid →
        (ino, sid) ∈ w'.states ∧ Writeback.Sound (Writeback.bump s.held sid) w') s.toWriteback := by
    refine (((Writeback.Sound.openFile hts' h.sound ino forWrite).and
      ((h.has ino).openFile hcfg hts h.sound forWrite)).and
      (Writeback.keeps_openFile cfg ino forWrite).wp).mono ?_
    rintro r w' ⟨⟨⟨hd, hreg⟩, hb, hhas, -⟩, hnames⟩
    exact ⟨hd.sound, hb, hhas, hnames, hreg⟩
  refine Wp.bind ((h.wb (.inl hlt) (P := fun r w' => ∀ sid, r = .ok sid →
    (ino, sid) ∈ w'.states ∧ Writeback.Sound (Writeback.bump s.held sid) w') hopen).mono ?_)
  rintro (e | sid) s' ⟨h', -, hheld, hreg⟩
  · exact hself ▸ h'
  · obtain ⟨hm, hb⟩ := hreg sid rfl
    rw [← hheld] at hb
    rw [hself] at h'
    have hnew : Wp ts (newFh sid) (Ends (fun _ => True) s') s' := wp_newFh hm hb
    intro n
    exact ⟨(hnew n).1.sound, h'.has, h'.blank, h'.pending⟩

theorem Files.create (hcfg : cfg.chunkSize = cs) (h : Files cs s f) (hn : s.Numbered) (parent : Ino)
    (name : Str) (mode flags uid gid : Nat) :
    Wp ts (FsCore.create cfg parent name mode flags uid gid) (fun _ s' => Files cs s' f) s := by
  have hrest : ∀ (s : FsCore Sha) (n : Inode), Files cs s f → n.id < s.store.index.nextIno →
      Wp ts (do
        let sid ← FsCore.wb (Writeback.openFile cfg n.id true)
        let fh ← newFh sid
        pure (fh, n)) (fun _ s' => Files cs s' f) s := by
    intro s n h hlt
    refine Run.wp_bind_assoc.mp (Wp.bind ((h.openState hts hcfg hlt true).mono ?_))
    rintro (e | fh) s' h'
    · exact h'
    · exact Run.wp_pure.mpr h'
  unfold FsCore.create FsCore.lookup
  rw [Run.wp_gets_bind]
  cases hl : s.store.index.lookup parent name with
  | some n =>
    dsimp only
    split
    · exact Run.wp_raise_bind.mpr h
    · exact hrest s n h (hn.index.lt (Meta.getInode_of_lookup hl))
  | none =>
    dsimp only
    have hmake : Wp ts (FsCore.makeNode parent name (sIfreg ||| (mode &&& 0o7777)) .file uid gid none)
        (fun r s' => Files cs s' f ∧ ∀ n, r = .ok n → n.id < s'.store.index.nextIno) s := by
      refine Run.Wp.tick_bind fun k => ?_
      refine (h.wp_index hn (Meta.renames_create _ _ _ _ _ _ _ _ _)).mono ?_
      rintro r s' ⟨h', hr, hindex⟩
      refine ⟨h', fun n he => ?_⟩
      rcases s.store.index.create_cases (ts k).now parent name (sIfreg ||| (mode &&& 0o7777)) .file
        uid gid none with ⟨-, hrun⟩ | ⟨-, n', hid, hrun⟩
      · rw [hrun, he] at hr
        cases hr
      · rw [hrun, he] at hr
        rw [hrun] at hindex
        cases hr
        rw [hindex, hid]
        dsimp only
        rw [Meta.addDirLink_nextIno]
        exact Nat.lt_succ_self _
    refine Wp.bind (hmake.mono ?_)
    rintro (e | n) s' ⟨h', hid⟩
    · exact h'
    · exact hrest s' n h' (hid n rfl)

end Ops

/-! ## The operations on contents -/

/-- `live_size`, and where there is none the size in the index. -/
theorem Files.size (h : Files cs s f) {n : Inode} (hn : s.store.index.inodes ino = some n) :
    (∀ size, s.liveSize ino = some size → size = (f ino).length) ∧
      (s.liveSize ino = none → n.size = (f ino).length) := by
  unfold Writeback.liveSize
  cases hget : s.get ino with
  | none =>
    obtain ⟨n', hn', hsize⟩ := ((h.has ino).stored n hn (Writeback.not_mem_of_get hget)).inode
    rw [hn] at hn'
    cases hn'
    exact ⟨by simp [Wb.liveSize], fun _ => hsize⟩
  | some sid =>
    have hm := Writeback.mem_of_get hget
    have hino := (h.sound.entry ino sid hm).ino
    have hview : (s.toWriteback.view sid).store.index.inodes (s.toWriteback.view sid).st.ino =
        some n := by
      change s.store.index.inodes (s.heap sid).ino = some n
      rw [hino, hn]
    have hserves := (((h.has ino).state sid hm).serves hview).size
    rw [hview] at hserves
    exact ⟨hserves.1, fun hnone => Option.some.inj (hserves.2 hnone)⟩

section Contents

variable (hcfg : cfg.chunkSize = cs) (hinj : Function.Injective (sha256 : Bytes → Sha))
  (hts : ∀ n, (ts n).Quiet False)

omit [DecidableEq Sha] in
theorem resize_self (ref : Bytes) : resize ref ref.length = ref := by
  simp [resize]

include hts

section Truncate

include hcfg hinj

theorem Files.truncatePath (h : Files cs s f) (hn : s.Numbered)
    (hlt : ino < s.store.index.nextIno) {size : Nat}
    (hspares : ∀ sid, (ino, sid) ∈ s.states →
      (s.toWriteback.view sid).Spares cs (.truncate size)) :
    Wp ts (FsCore.wb (Writeback.truncatePath cfg ino size)) (fun _ s' =>
      Files cs s' (Function.update f ino (resize (f ino) size)) ∧ s'.Numbered ∧
        ino < s'.store.index.nextIno) s := by
  have hts' : ∀ n, (ts n).Quiet True := fun n => (hts n).mono False.elim
  have htrunc : Wp ts (Writeback.truncatePath cfg ino size) (fun _ w' =>
      Writeback.Sound s.held w' ∧ Writeback.Beside ino s.toWriteback w' ∧
      w'.Has cs ino (resize (f ino) size) ∧ w'.names = s.toWriteback.names ∧ w'.Numbered)
      s.toWriteback := by
    refine ((((Writeback.Sound.truncatePath hts' h.sound ino size).and
      ((h.has ino).truncatePath hcfg hinj hts h.sound hspares)).and
      (Writeback.keeps_truncatePath cfg ino size).wp).and
      (Writeback.Numbered.truncatePath cfg hn hlt size)).mono ?_
    rintro r w' ⟨⟨⟨hd, hb, hhas, -⟩, hnames⟩, hn'⟩
    exact ⟨hd.sound, hb, hhas, hnames, hn'⟩
  refine (h.wb (.inl hlt) (P := fun _ w' => w'.Numbered) htrunc).mono ?_
  rintro r s' ⟨h', hnames, -, hn'⟩
  have hnext : s'.store.index.nextIno = s.store.index.nextIno := congrArg Namespace.nextIno hnames
  exact ⟨h', hn', hnext.symm ▸ hlt⟩

theorem Files.setattr (h : Files cs s f) (hn : s.Numbered) (ino : Ino) (a : Meta.Attrs)
    (hspares : ∀ size, a.size = some size → ∀ sid, (ino, sid) ∈ s.states →
      (s.toWriteback.view sid).Spares cs (.truncate size))
    (hlive : ∀ n size, s.store.index.getInode ino = some n → a.size = some size → size = n.size →
      s.liveSize ino = none ∨ s.liveSize ino = some size) :
    Wp ts (FsCore.setattr cfg ino a) (fun _ s' => Files cs s' (s.resized f ino a.size)) s := by
  have hrest : ∀ (s : FsCore Sha) (f : Ino → Bytes), Files cs s f → s.Numbered → Wp ts (do
      let t ← Run.tick
      FsCore.index fun m => (.ok (), m.setattr t.now ino { a with size := none })
      FsCore.getattr ino) (fun _ s' => Files cs s' f) s := by
    intro s f h hn
    refine Run.Wp.tick_bind fun k => ?_
    refine Wp.bind ((h.wp_index hn (Meta.renames_setattr _ _ rfl _)).mono ?_)
    rintro (e | u) s' ⟨h', -⟩
    · exact h'
    · exact h'.getattr ino
  unfold FsCore.setattr FsCore.getInode FsCore.resized
  rw [Run.wp_gets_bind]
  cases hi : s.store.index.getInode ino with
  | none => exact Run.wp_raise.mpr h
  | some n =>
    cases hsize : a.size with
    | none =>
      dsimp only
      rw [Option.elim_none, ite_self]
      exact hrest s f h hn
    | some size =>
      dsimp only
      rw [Option.elim_some]
      by_cases hdir : n.isDir = true
      · rw [if_pos hdir, if_neg (by simp [hdir])]
        exact hrest s f h hn
      · rw [if_neg hdir]
        by_cases he : size = n.size
        · have hsame : Function.update f ino (resize (f ino) size) = f := by
            obtain ⟨-, row, hrow, rfl⟩ := Meta.getInode_eq_some hi
            have hfile := h.size hrow
            have hlen : size = (f ino).length := by
              rcases hlive _ size hi hsize he with hno | hsome
              · exact he.trans (hfile.2 hno)
              · exact hfile.1 size hsome
            rw [hlen, resize_self, Function.update_eq_self]
          rw [if_neg (by simp [he]), hsame]
          exact hrest s f h hn
        · rw [if_pos (by simp [hdir, he])]
          refine Wp.bind ((h.truncatePath hcfg hinj hts hn
            (hn.index.lt hi) (hspares size hsize)).mono ?_)
          rintro (e | u) s' ⟨h', hn', -⟩
          · exact h'
          · exact hrest s' _ h' hn'

theorem Files.openFh (h : Files cs s f) (hn : s.Numbered) (ino : Ino) (flags : Nat) :
    Wp ts (FsCore.openFh cfg ino flags) (fun _ s' =>
      Files cs s' (s.resized f ino (if flags &&& oTrunc = 0 then none else some 0))) s := by
  unfold FsCore.openFh FsCore.getInode FsCore.resized
  rw [Run.wp_gets_bind]
  cases hi : s.store.index.getInode ino with
  | none => exact Run.wp_raise.mpr h
  | some n =>
    have hlt := hn.index.lt hi
    dsimp only
    by_cases hdir : n.isDir = true
    · rw [if_pos hdir, if_pos hdir]
      exact Run.wp_raise.mpr h
    · rw [if_neg hdir, if_neg hdir]
      by_cases ht : flags &&& oTrunc = 0
      · rw [if_neg (not_not.mpr ht), if_pos ht]
        exact h.openState hts hcfg hlt (wantsWrite flags)
      · rw [if_pos ht, if_neg ht]
        have hspares : ∀ sid, (ino, sid) ∈ s.states →
            (s.toWriteback.view sid).Spares cs (.truncate 0) :=
          fun _ _ _ _ _ => Nat.not_lt_zero _
        refine Wp.bind ((h.truncatePath hcfg hinj hts hn hlt hspares).mono ?_)
        rintro (e | u) s' ⟨h', -, hlt'⟩
        · exact h'
        · exact h'.openState hts hcfg hlt' (wantsWrite flags)

end Truncate

/-- Code on the state of a handle. -/
theorem Files.onHandle (h : Files cs s f) (hn : s.Numbered) (fh : Nat) {α : Type}
    {m : FileRun Sha α} (hm : Robust m) (hnames : Run.Keeps Wb.names m) {g : Bytes → Bytes}
    (hP : ∀ sid, s.findFh fh = some sid → Tracks cs (s.toWriteback.view sid) (f (s.heap sid).ino) →
      Wp ts m (fun _ c' => Tracks cs c' (g (f (s.heap sid).ino))) (s.toWriteback.view sid)) :
    Wp ts (do
      let sid ← getState fh
      FsCore.wb (Writeback.onState sid m)) (fun _ s' => Files cs s' (s.edited f fh g)) s := by
  have hts' : ∀ n, (ts n).Quiet True := fun n => (hts n).mono False.elim
  unfold getState edited
  rw [Run.wp_bind_assoc, Run.wp_gets_bind]
  cases hf : s.findFh fh with
  | none => exact Run.wp_raise_bind.mpr h
  | some sid =>
    dsimp only
    rw [Run.wp_pure_bind]
    have hmem := (h.sound.handle hf).1
    have hlt : (s.heap sid).ino < s.store.index.nextIno := hn.heap sid
    have hon : Wp ts (Writeback.onState sid m) (fun _ w' => Writeback.Sound s.held w' ∧
        Writeback.Beside (s.heap sid).ino s.toWriteback w' ∧
        w'.Has cs (s.heap sid).ino (g (f (s.heap sid).ino)) ∧ w'.names = s.toWriteback.names ∧
        True) s.toWriteback := by
      refine ((h.sound.wp_onState hts' hm (h.sound.usable hmem)
        (hP sid hf ((h.has _).state sid hmem))).and (Writeback.keeps_onState sid hnames).wp).mono ?_
      rintro r w' ⟨⟨htracks, hs', -, ht, hb⟩, hnames'⟩
      exact ⟨hs', hb, .ofState hs' (ht.states ▸ hmem) htracks, hnames', trivial⟩
    refine (h.wb (.inl hlt) (P := fun _ _ => True) hon).mono fun _ s' h' => ?_
    exact h'.1

omit hts in
/-- A handle is closed. -/
theorem Files.dropFh (h : Files cs s f) (fh : Nat) :
    Files cs { s with fh := s.fh.filter fun p => p.1 ≠ fh } f :=
  ⟨h.sound.mono (held_le_filter s _), h.has, h.blank, h.pending⟩

section Release

include hcfg hinj

theorem Files.release (h : Files cs s f) (hn : s.Numbered) (fh : Nat) :
    Wp ts (FsCore.release cfg fh) (fun _ s' => Files cs s' f) s := by
  have hts' : ∀ n, (ts n).Quiet True := fun n => (hts n).mono False.elim
  unfold FsCore.release
  rw [Run.wp_modifyGet_bind]
  have h₀ := h.dropFh fh
  cases hf : s.findFh fh with
  | none => exact Run.wp_pure.mpr h₀
  | some sid =>
    have hmem := (h.sound.handle hf).1
    have hb := h.sound.mono (bump_filter_le (mem_of_findFh hf))
    have hlt : (s.heap sid).ino < s.store.index.nextIno := hn.heap sid
    have hrel : Wp ts (Writeback.release cfg sid) (fun _ w' =>
        Writeback.Sound ({ s with fh := s.fh.filter fun p => p.1 ≠ fh } : FsCore Sha).held w' ∧
        Writeback.Beside (s.heap sid).ino s.toWriteback w' ∧
        w'.Has cs (s.heap sid).ino (f (s.heap sid).ino) ∧ w'.names = s.toWriteback.names ∧
        (w'.heap sid).ino = (s.heap sid).ino) s.toWriteback := by
      refine (((Writeback.Sound.release hts' hb hmem).and
        ((h.has _).release hcfg hinj hts hb hmem)).and (Writeback.keeps_release cfg sid).wp).mono ?_
      rintro r w' ⟨⟨⟨hd, hino⟩, hb', hhas, -⟩, hnames⟩
      exact ⟨hd.sound, hb', hhas, hnames, hino⟩
    refine Wp.bind ((h₀.wb (.inl hlt)
      (P := fun _ w' => (w'.heap sid).ino = (s.heap sid).ino) hrel).mono ?_)
    rintro r s' ⟨h', hnames, -, hino⟩
    rw [Function.update_eq_self] at h'
    cases r with
    | error e => exact h'
    | ok u =>
      dsimp only
      rw [Run.wp_gets_bind, Run.wp_gets_bind]
      split
      case isFalse => exact Run.wp_pure.mpr h'
      case isTrue hlast =>
        simp only [Bool.and_eq_true, Bool.not_eq_true', decide_eq_true_eq] at hlast
        rw [Run.wp_modify_bind]
        have h₁ : Files cs { s' with pendingUnlink := s'.pendingUnlink.erase (s'.heap sid).ino } f :=
          ⟨h'.sound, h'.has, h'.blank, fun B hB => h'.pending B (Finset.mem_of_mem_erase hB)⟩
        exact h₁.freeInode hts hlast.2 (h'.pending _ hlast.1).2

theorem Files.reap (h : Files cs s f) :
    Wp ts (FsCore.wb (Writeback.reapOnce cfg false)) (fun _ s' => Files cs s' f) s := by
  refine Run.wp_zoom.mpr (((Writeback.Has.reapOnce hcfg hinj hts h.has h.sound false).and
    (Writeback.keeps_reapOnce cfg false).wp).mono ?_)
  rintro r w' ⟨⟨-, hsound, hhas, -⟩, hnames⟩
  have hnext : w'.store.index.nextIno = s.store.index.nextIno := congrArg Namespace.nextIno hnames
  refine ⟨hsound, hhas, fun B hB => h.blank B (hnext ▸ hB), fun B hB => ?_⟩
  obtain ⟨hlt, hgone⟩ := h.pending B hB
  exact ⟨hnext.symm ▸ hlt, (Writeback.gone_iff hnames).mpr hgone⟩

end Release

end Contents

end FsCore

end Tgfs
