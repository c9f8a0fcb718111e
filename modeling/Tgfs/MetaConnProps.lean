import Tgfs.MetaConn
import Tgfs.Names.Index

/-!
# What a raising mutator leaves

Most mutators raise at their first change or not at all, and then nothing is left of the call.
`create` has inserted its inode by the time it finds that the name exists, and `set_chunks` has
deleted the old rows by the time it finds an index twice.
-/

namespace Tgfs

namespace Meta

variable {Sha : Type}

/-- No two rows have one primary key. -/
structure Keyed (m : Meta Sha) : Prop where
  dirents : m.dirents.Pairwise fun a b => ¬ (a.parent = b.parent ∧ a.name = b.name)
  chunks : m.chunks.Pairwise fun a b => ¬ (a.1 = b.1 ∧ a.2.idx = b.2.idx)

/-- The same rows, in whatever order they were inserted. -/
structure Same (m m' : Meta Sha) : Prop where
  inodes : m.inodes = m'.inodes
  nextIno : m.nextIno = m'.nextIno
  dirents : ∀ d, d ∈ m.dirents ↔ d ∈ m'.dirents
  chunks : ∀ r, r ∈ m.chunks ↔ r ∈ m'.chunks
  blobs : m.blobs = m'.blobs

/-- Two databases with the same rows. -/
structure Matched (m m' : Meta Sha) : Prop where
  left : m.Keyed
  right : m'.Keyed
  same : m.Same m'

variable {m m' : Meta Sha}

theorem Same.refl (m : Meta Sha) : m.Same m := ⟨rfl, rfl, fun _ => Iff.rfl, fun _ => Iff.rfl, rfl⟩

theorem Keyed.matched (h : m.Keyed) : m.Matched m := ⟨h, h, .refl m⟩

/-! ## Reading -/

theorem Keyed.child_iff (h : m.Keyed) {parent : Ino} {name : Str} {c : Ino} :
    m.child parent name = some c ↔ ⟨parent, name, c⟩ ∈ m.dirents := by
  constructor
  · intro hc
    obtain ⟨d, hd, rfl, rfl, rfl⟩ := child_eq_some hc
    exact hd
  · intro hd
    cases hc : m.child parent name with
    | none => exact absurd ⟨rfl, rfl⟩ (child_eq_none.mp hc _ hd)
    | some c' =>
      obtain ⟨e, he, hp, hn, rfl⟩ := child_eq_some hc
      have hperm := Namespace.perm_others (s := m.names) h.dirents hd
      rcases List.mem_cons.mp (hperm.mem_iff.mp he) with rfl | hin
      · rfl
      · exact absurd ⟨hp, hn⟩ (of_decide_eq_true (List.mem_filter.mp hin).2)

theorem Matched.child (h : Matched m m') (parent : Ino) (name : Str) :
    m.child parent name = m'.child parent name := by
  refine Option.ext fun c => ?_
  exact h.left.child_iff.trans ((h.same.dirents _).trans h.right.child_iff.symm)

theorem Matched.getInode (h : Matched m m') (ino : Ino) : m.getInode ino = m'.getInode ino := by
  unfold Meta.getInode
  rw [h.same.inodes]

/-! ## Changing -/

theorem Matched.addRow (h : Matched m m') (row : Ino → Inode) :
    m.nextIno = m'.nextIno ∧ Matched (m.addRow (row m.nextIno)) (m'.addRow (row m'.nextIno)) := by
  refine ⟨h.same.nextIno, ⟨h.left.dirents, h.left.chunks⟩, ⟨h.right.dirents, h.right.chunks⟩, ?_⟩
  refine ⟨?_, ?_, h.same.dirents, h.same.chunks, h.same.blobs⟩
  · change Function.update m.inodes m.nextIno _ = Function.update m'.inodes m'.nextIno _
    rw [h.same.inodes, h.same.nextIno]
  · exact congrArg (· + 1) h.same.nextIno

/-- A change of one row of `inodes`. -/
theorem Matched.update (h : Matched m m') (ino : Ino) (f : Option Inode → Option Inode) :
    Matched { m with inodes := Function.update m.inodes ino (f (m.inodes ino)) }
      { m' with inodes := Function.update m'.inodes ino (f (m'.inodes ino)) } := by
  refine ⟨⟨h.left.dirents, h.left.chunks⟩, ⟨h.right.dirents, h.right.chunks⟩, ?_⟩
  refine ⟨?_, h.same.nextIno, h.same.dirents, h.same.chunks, h.same.blobs⟩
  dsimp only
  rw [h.same.inodes]

theorem Matched.putBlob [DecidableEq Sha] (h : Matched m m') (sha : Sha) (b : Option Blob) :
    Matched (m.putBlob sha b) (m'.putBlob sha b) := by
  refine ⟨⟨h.left.dirents, h.left.chunks⟩, ⟨h.right.dirents, h.right.chunks⟩, ?_⟩
  refine ⟨h.same.inodes, h.same.nextIno, h.same.dirents, h.same.chunks, ?_⟩
  exact congrArg (Function.update · sha b) h.same.blobs

theorem Keyed.insertDirent (h : m.Keyed) {parent : Ino} {name : Str}
    (hfree : m.child parent name = none) (c : Ino) : (m.insertDirent parent name c).Keyed := by
  refine ⟨List.pairwise_append.mpr ⟨h.dirents, List.pairwise_singleton _ _, ?_⟩, h.chunks⟩
  intro a ha b hb
  rw [List.mem_singleton.mp hb]
  exact child_eq_none.mp hfree a ha

theorem Matched.insertDirent (h : Matched m m') {parent : Ino} {name : Str}
    (hfree : m.child parent name = none) (c : Ino) :
    Matched (m.insertDirent parent name c) (m'.insertDirent parent name c) := by
  refine ⟨h.left.insertDirent hfree c, h.right.insertDirent (h.child parent name ▸ hfree) c, ?_⟩
  refine ⟨h.same.inodes, h.same.nextIno, fun d => ?_, h.same.chunks, h.same.blobs⟩
  exact List.mem_append.trans ((or_congr (h.same.dirents d) Iff.rfl).trans List.mem_append.symm)

theorem Matched.deleteDirent (h : Matched m m') (parent : Ino) (name : Str) :
    Matched (m.deleteDirent parent name) (m'.deleteDirent parent name) := by
  refine ⟨⟨h.left.dirents.filter _, h.left.chunks⟩, ⟨h.right.dirents.filter _, h.right.chunks⟩, ?_⟩
  refine ⟨h.same.inodes, h.same.nextIno, fun d => ?_, h.same.chunks, h.same.blobs⟩
  refine List.mem_filter.trans (Iff.trans ?_ List.mem_filter.symm)
  exact and_congr (h.same.dirents d) Iff.rfl

theorem Keyed.moveDirent (h : m.Keyed) {op : Ino} {oname : Str} {np : Ino} {nname : Str}
    (hfree : ¬ m.Taken op oname np nname) : (m.moveDirent op oname np nname).Keyed := by
  refine ⟨List.pairwise_map.mpr (h.dirents.imp_of_mem ?_), h.chunks⟩
  intro a b ha hb hab
  -- one of the two is moved onto the key of the other
  have hclash : ∀ {a b : Dirent}, a ∈ m.dirents → b ∈ m.dirents → a.parent = op ∧ a.name = oname →
      ¬ (b.parent = op ∧ b.name = oname) → ¬ (b.parent = np ∧ b.name = nname) := by
    rintro a b ha hb ⟨rfl, rfl⟩ hne ⟨rfl, rfl⟩
    refine hfree ⟨?_, fun heq => hne ⟨heq.1.symm, heq.2.symm⟩, ?_⟩
    · rw [h.child_iff.mpr ha]
      rfl
    · rw [h.child_iff.mpr hb]
      rfl
  by_cases hma : a.parent = op ∧ a.name = oname
  · by_cases hmb : b.parent = op ∧ b.name = oname
    · exact absurd ⟨hma.1.trans hmb.1.symm, hma.2.trans hmb.2.symm⟩ hab
    · rw [if_pos hma, if_neg hmb]
      exact fun heq => hclash ha hb hma hmb ⟨heq.1.symm, heq.2.symm⟩
  · by_cases hmb : b.parent = op ∧ b.name = oname
    · rw [if_neg hma, if_pos hmb]
      exact fun heq => hclash hb ha hmb hma heq
    · rw [if_neg hma, if_neg hmb]
      exact hab

theorem Matched.taken (h : Matched m m') (op : Ino) (oname : Str) (np : Ino) (nname : Str) :
    m.Taken op oname np nname ↔ m'.Taken op oname np nname := by
  unfold Taken
  rw [h.child, h.child]

theorem Matched.moveDirent (h : Matched m m') {op : Ino} {oname : Str} {np : Ino} {nname : Str}
    (hfree : ¬ m.Taken op oname np nname) :
    Matched (m.moveDirent op oname np nname) (m'.moveDirent op oname np nname) := by
  refine ⟨h.left.moveDirent hfree, h.right.moveDirent (mt (h.taken op oname np nname).mpr hfree), ?_⟩
  refine ⟨h.same.inodes, h.same.nextIno, fun d => ?_, h.same.chunks, h.same.blobs⟩
  refine List.mem_map.trans (Iff.trans ?_ List.mem_map.symm)
  exact exists_congr fun e => and_congr (h.same.dirents e) Iff.rfl

theorem Keyed.deleteChunks (h : m.Keyed) (ino : Ino) : (m.setChunks ino []).Keyed := by
  refine ⟨h.dirents, ?_⟩
  unfold setChunks
  rw [List.map_nil, List.append_nil]
  exact h.chunks.filter _

theorem mem_deleteChunks {ino : Ino} {r : Ino × Chunk Sha} :
    r ∈ (m.setChunks ino []).chunks ↔ r ∈ m.chunks ∧ r.1 ≠ ino := by
  simp [setChunks]

theorem Matched.deleteChunks (h : Matched m m') (ino : Ino) :
    Matched (m.setChunks ino []) (m'.setChunks ino []) := by
  refine ⟨h.left.deleteChunks ino, h.right.deleteChunks ino, ?_⟩
  refine ⟨h.same.inodes, h.same.nextIno, h.same.dirents, fun r => ?_, h.same.blobs⟩
  rw [mem_deleteChunks, mem_deleteChunks, h.same.chunks]

theorem Matched.hasChunk (h : Matched m m') (ino : Ino) (idx : Nat) :
    m.HasChunk ino idx ↔ m'.HasChunk ino idx :=
  exists_congr fun r => and_congr (h.same.chunks r) Iff.rfl

theorem Keyed.addChunk (h : m.Keyed) {ino : Ino} {c : Chunk Sha} (hfree : ¬ m.HasChunk ino c.idx) :
    (m.addChunk ino c).Keyed := by
  refine ⟨h.dirents, List.pairwise_append.mpr ⟨h.chunks, List.pairwise_singleton _ _, ?_⟩⟩
  intro a ha b hb heq
  rw [List.mem_singleton.mp hb] at heq
  exact hfree ⟨a, ha, heq⟩

theorem Matched.addChunk (h : Matched m m') {ino : Ino} {c : Chunk Sha}
    (hfree : ¬ m.HasChunk ino c.idx) : Matched (m.addChunk ino c) (m'.addChunk ino c) := by
  refine ⟨h.left.addChunk hfree, h.right.addChunk (mt (h.hasChunk ino c.idx).mpr hfree), ?_⟩
  refine ⟨h.same.inodes, h.same.nextIno, h.same.dirents, fun r => ?_, h.same.blobs⟩
  exact List.mem_append.trans ((or_congr (h.same.chunks r) Iff.rfl).trans List.mem_append.symm)

end Meta

/-! ## Calls on matched databases -/

namespace MetaDb

open Conn Meta

variable {Sha : Type}

theorem respects_insertInode (row : Ino → Inode) :
    Respects Matched (insertInode row : MetaDb Sha Ino) :=
  respects_updateGet fun h => h.addRow row

theorem respects_updateInode (ino : Ino) (f : Inode → Inode) :
    Respects Matched (updateInode ino f : MetaDb Sha Unit) :=
  respects_update fun h => h.update ino fun row => row.map f

theorem respects_deleteInode (ino : Ino) : Respects Matched (deleteInode ino : MetaDb Sha Unit) :=
  respects_update fun h => h.update ino fun _ => none

theorem respects_inodeColumn {α : Type} (column : Inode → α) (ino : Ino) :
    Respects Matched (inodeColumn column ino : MetaDb Sha α) := by
  refine (respects_select fun h => h.getInode ino).bind fun n => ?_
  cases n with
  | none => exact respects_raise _
  | some n => exact respects_pure _

theorem respects_insertDirent (parent : Ino) (name : Str) (c : Ino) :
    Respects Matched (insertDirent parent name c : MetaDb Sha Unit) :=
  respects_execute (fun h => by rw [h.child]) fun h hfree =>
    h.insertDirent (Option.not_isSome_iff_eq_none.mp hfree) c

theorem respects_deleteDirent (parent : Ino) (name : Str) :
    Respects Matched (deleteDirent parent name : MetaDb Sha Unit) :=
  respects_update fun h => h.deleteDirent parent name

theorem respects_moveDirent (op : Ino) (oname : Str) (np : Ino) (nname : Str) :
    Respects Matched (moveDirent op oname np nname : MetaDb Sha Unit) :=
  respects_execute (fun h => h.taken op oname np nname) fun h hfree => h.moveDirent hfree

theorem respects_insertChunks (ino : Ino) (cs : List (Chunk Sha)) :
    Respects Matched (insertChunks ino cs) := by
  induction cs with
  | nil => exact respects_pure ()
  | cons c cs ih =>
    have hone : Respects Matched (insertChunk ino c) :=
      respects_execute (fun h => h.hasChunk ino c.idx) fun h hfree => h.addChunk hfree
    exact hone.bind fun _ => ih

theorem respects_create (now : Time) (parent : Ino) (name : Str) (mode : Nat) (kind : Kind)
    (uid gid : Nat) (target : Option Str) :
    Respects Matched (create now parent name mode kind uid gid target : MetaDb Sha Inode) := by
  unfold create
  refine (respects_insertInode _).bind fun ino => (respects_insertDirent _ _ _).bind fun _ => ?_
  have hend := respects_commit.bind fun _ => @respects_inodeColumn Sha _ id ino
  exact ((respects_updateInode _ _).bind fun _ => hend).ite hend

theorem respects_link (now : Time) (parent : Ino) (name : Str) (targetIno : Ino) :
    Respects Matched (link now parent name targetIno : MetaDb Sha Unit) :=
  (respects_insertDirent _ _ _).bind fun _ => (respects_updateInode _ _).bind fun _ => respects_commit

theorem respects_unlinkDirent (now : Time) (parent : Ino) (name : Str) :
    Respects Matched (unlinkDirent now parent name : MetaDb Sha (Ino × Int)) := by
  unfold unlinkDirent
  refine (respects_select fun h => h.child parent name).bind fun found => ?_
  cases found with
  | none => exact respects_raise _
  | some c =>
    have hend : ∀ nlink : Int, Respects Matched (do
        commit
        pure (c, nlink) : MetaDb Sha (Ino × Int)) :=
      fun nlink => respects_commit.bind fun _ => respects_pure _
    have hreap := (@respects_inodeColumn Sha _ (·.nlink) c).bind fun nlink =>
      ((respects_deleteInode c).bind fun _ => hend nlink).ite (p := nlink ≤ 0) (hend nlink)
    refine (respects_inodeColumn _ c).bind fun kind => (respects_deleteDirent _ _).bind fun _ => ?_
    exact (respects_updateInode _ _).bind fun _ =>
      ((respects_updateInode _ _).bind fun _ => hreap).ite hreap

theorem respects_replaceDst (np : Ino) (nname : Str) :
    Respects Matched (replaceDst np nname : MetaDb Sha (Option Ino)) := by
  unfold replaceDst
  refine (respects_select fun h => h.child np nname).bind fun found => ?_
  cases found with
  | none => exact respects_pure _
  | some replaced =>
    have hend := (@respects_inodeColumn Sha _ (·.nlink) replaced).bind fun left =>
      (respects_pure none).ite (p := left > 0)
        ((respects_deleteInode replaced).bind fun _ => respects_pure (some replaced))
    refine (respects_inodeColumn _ _).bind fun kind => (respects_deleteDirent _ _).bind fun _ => ?_
    exact (respects_updateInode _ _).bind fun _ =>
      ((respects_updateInode _ _).bind fun _ => hend).ite hend

theorem respects_rename (op : Ino) (oname : Str) (np : Ino) (nname : Str) :
    Respects Matched (rename op oname np nname : MetaDb Sha (Option Ino)) := by
  unfold rename
  refine (respects_select fun h => h.child op oname).bind fun found => ?_
  cases found with
  | none => exact respects_raise _
  | some src =>
    have hend : ∀ replaced : Option Ino, Respects Matched (do
        commit
        pure replaced : MetaDb Sha (Option Ino)) :=
      fun replaced => respects_commit.bind fun _ => respects_pure _
    refine (respects_inodeColumn _ src).bind fun srcKind =>
      (respects_replaceDst np nname).bind fun replaced => (respects_moveDirent _ _ _ _).bind fun _ => ?_
    exact ((respects_updateInode _ _).bind fun _ => (respects_updateInode _ _).bind fun _ =>
      hend replaced).ite (hend replaced)

theorem respects_setattr (now : Time) (ino : Ino) (a : Attrs) :
    Respects Matched (setattr now ino a : MetaDb Sha Unit) := by
  refine (respects_pure ()).ite ((respects_update fun h => ?_).bind fun _ => respects_commit)
  unfold Meta.setattr
  split
  · exact h
  · exact h.update ino _

theorem respects_setSize (now : Time) (ino : Ino) (size : Nat) :
    Respects Matched (setSize now ino size : MetaDb Sha Unit) :=
  (respects_update fun h => h.update ino _).bind fun _ => respects_commit

theorem respects_setChunks (ino : Ino) (chunks : List (Chunk Sha)) :
    Respects Matched (setChunks ino chunks) :=
  (respects_update fun h => h.deleteChunks ino).bind fun _ =>
    (respects_insertChunks ino chunks).bind fun _ => respects_commit

variable [DecidableEq Sha]

theorem respects_blobCreate (sha : Sha) (handle : Handle) (length : Nat) :
    Respects Matched (blobCreate sha handle length) :=
  (respects_execute (fun h => by rw [h.same.blobs]) fun h _ => h.putBlob sha _).bind fun _ =>
    respects_commit

theorem respects_blobIncref (sha : Sha) : Respects Matched (blobIncref sha) := by
  refine (respects_update fun {m m'} h => ?_).bind fun _ => respects_commit
  unfold Meta.blobIncref
  rw [h.same.blobs]
  exact h.putBlob sha _

theorem respects_blobDecref (sha : Sha) : Respects Matched (blobDecref sha) := by
  refine (respects_select fun h => congrFun h.same.blobs sha).bind fun found => ?_
  cases found with
  | none => exact respects_pure _
  | some b =>
    have hput : ∀ (row : Option Blob) (handle : Option Handle), Respects Matched (do
        update (·.putBlob sha row)
        commit
        pure handle : MetaDb Sha (Option Handle)) := fun row handle =>
      (respects_update fun h => h.putBlob sha row).bind fun _ =>
        respects_commit.bind fun _ => respects_pure _
    exact (hput _ _).ite (hput _ _)

end MetaDb

namespace MetaCall

open Conn Meta

variable {Sha : Type} [DecidableEq Sha]

theorem respects (call : MetaCall Sha) : Respects Matched call.run := by
  cases call with
  | create now parent name mode kind uid gid target =>
    exact (MetaDb.respects_create now parent name mode kind uid gid target).bind fun _ =>
      respects_pure ()
  | link now parent name targetIno => exact MetaDb.respects_link now parent name targetIno
  | unlinkDirent now parent name =>
    exact (MetaDb.respects_unlinkDirent now parent name).bind fun _ => respects_pure ()
  | rename op oname np nname =>
    exact (MetaDb.respects_rename op oname np nname).bind fun _ => respects_pure ()
  | setattr now ino a => exact MetaDb.respects_setattr now ino a
  | setSize now ino size => exact MetaDb.respects_setSize now ino size
  | setChunks ino chunks => exact MetaDb.respects_setChunks ino chunks
  | blobCreate sha handle length => exact MetaDb.respects_blobCreate sha handle length
  | blobIncref sha => exact MetaDb.respects_blobIncref sha
  | blobDecref sha => exact (MetaDb.respects_blobDecref sha).bind fun _ => respects_pure ()

/-- On matched databases, the same calls raise the same and leave matched databases. -/
theorem perform_matched {c c' : Conn (Meta Sha)} (h : Like Matched c c') (call : MetaCall Sha) :
    (call.perform c).1 = (call.perform c').1 ∧ Like Matched (call.perform c).2 (call.perform c').2 :=
  let hr := respects call (fun _ => ()) 0 c c' h
  ⟨hr.1, hr.2.2⟩

theorem performAll_matched {c c' : Conn (Meta Sha)} (h : Like Matched c c')
    (calls : List (MetaCall Sha)) : Like Matched (performAll calls c) (performAll calls c') := by
  induction calls generalizing c c' with
  | nil => exact h
  | cons call calls ih => exact ih (perform_matched h call).2

end MetaCall

end Tgfs
