import Tgfs.Fuse.MountNames
import Tgfs.Fuse.Proofs.Numbers
import Tgfs.Names.Listing

/-!
# Names that come back

A name of a new entry is found again and listed as the bytes that it was made with, and no other
bytes lead to the entry. Names that are no UTF-8 do not get that far: sqlite3 does not bind them.
-/

namespace Tgfs

open Run (Wp)

variable {Sha : Type} {ts : Nat → Tick}

/-- What the kernel passes as a name. -/
structure PosixName (b : Bytes) : Prop where
  nonempty : b ≠ []
  slash : 47 ∉ b
  nul : 0 ∉ b
  dot : b ≠ [46]
  dotdot : b ≠ [46, 46]

/-- An entry of `parent` and the bytes that stand for it. -/
structure Denotes (ts : Nat → Tick) (s : FsCore Sha) (parent : Ino) (b : Bytes) (ino : Ino) : Prop where
  /-- A lookup of the bytes finds it. -/
  found : ∀ n, ∃ node, (ByteOperations.lookup parent b ts n s).1 = .ok node ∧ node.id = ino
  /-- A listing has it under the bytes, and only once. -/
  listed : ∀ n room, s.store.index.childCount parent ≤ room →
    ∃ replies, (ByteOperations.readdir parent 0 room ts n s).1 = .ok replies ∧
      (replies.filter fun r => r.node.id = ino).map (·.name) = [b]
  /-- A lookup of other bytes does not find it. -/
  only : ∀ b', PosixName b' → ∀ n node,
    (ByteOperations.lookup parent b' ts n s).1 = .ok node → node.id = ino → b' = b

namespace ByteOperations

theorem call_ok {α : Type} {m : FsRun Sha α} {n n' : Nat} {s s' : FsCore Sha} {a : α}
    (h : m ts n s = (.ok a, n', s')) : call m ts n s = (.ok a, n', s') := by
  unfold call
  rw [h]
  rfl

theorem of_call_ok {α : Type} {m : FsRun Sha α} {n : Nat} {s : FsCore Sha} {a : α}
    (h : (call m ts n s).1 = .ok a) : (m ts n s).1 = .ok a := by
  unfold call at h
  cases hr : (m ts n s).1 with
  | ok a' =>
    rw [hr] at h
    cases h
    rfl
  | error e =>
    rw [hr] at h
    cases h

theorem callNamed_ok {α : Type} {nm : Str} (hb : Bindable nm) (m : FsRun Sha α) :
    callNamed nm m = call m := by
  unfold callNamed Run.require
  rw [if_pos (decide_eq_true hb)]
  rfl

theorem callNamed_refused {α : Type} {nm : Str} (hb : ¬ Bindable nm) (m : FsRun Sha α) (n : Nat)
    (s : FsCore Sha) : callNamed nm m ts n s = (.error .unicodeEncode, n, s) := by
  unfold callNamed Run.require
  rw [if_neg (by simpa using hb)]
  rfl

theorem bindable_name {b : Bytes} : Bindable (name b) ↔ Utf8.WellFormed b := Utf8.wellFormed_iff.symm

/-- Only the two dots are read as the two dots. -/
theorem name_dots {b : Bytes} (h : PosixName b) : name b ≠ [46] ∧ name b ≠ [46, 46] := by
  have hdot : name [46] = [46] := by decide
  have hdotdot : name [46, 46] = [46, 46] := by decide
  exact ⟨fun heq => h.dot (Utf8.decode_injective (heq.trans hdot.symm)),
    fun heq => h.dotdot (Utf8.decode_injective (heq.trans hdotdot.symm))⟩

theorem lookup_posix {b : Bytes} (h : PosixName b) (parent : Ino) :
    (lookup parent b : MountRun Sha Inode) =
      callNamed (name b) (FsCore.lookupLive parent (name b)) := by
  unfold lookup
  dsimp only
  rw [if_neg (name_dots h).1, if_neg (name_dots h).2]

end ByteOperations

namespace FsCore

variable {s : FsCore Sha}

variable (ts) in
/-- A name that is found leads to the inode of its entry. -/
theorem lookupLive_run {parent : Ino} {nm : Str} {node : Inode}
    (h : s.store.index.lookup parent nm = some node) (n : Nat) :
    ∃ node', lookupLive parent nm ts n s = (.ok node', n, s) ∧ node'.id = node.id := by
  unfold lookupLive
  rw [Run.bind_run_ok (show lookup parent nm ts n s = (.ok (some node), n, s) by rw [← h]; rfl)]
  exact live_run ts s node n

theorem lookupLive_id {parent : Ino} {nm : Str} {node : Inode} {n : Nat}
    (h : (lookupLive parent nm ts n s).1 = .ok node) :
    s.store.index.child parent nm = some node.id := by
  cases hl : s.store.index.lookup parent nm with
  | none =>
    unfold lookupLive at h
    rw [Run.bind_run_ok (show lookup parent nm ts n s = (.ok none, n, s) by rw [← hl]; rfl)] at h
    cases h
  | some found =>
    obtain ⟨node', hrun, hid⟩ := lookupLive_run ts hl n
    rw [hrun] at h
    cases h
    rw [hid]
    exact Meta.child_of_lookup hl

end FsCore

/-! ## A listing -/

/-- The name came through the mount, and sqlite3 has bound it. -/
def Passed (nm : Str) : Prop := ∃ b : Bytes, nm = ByteOperations.name b ∧ Bindable nm

namespace ByteOperations

variable {s : FsCore Sha}

theorem bname_name (b : Bytes) (n : Nat) : bname (name b) ts n s = (.ok b, n, s) := by
  unfold bname name
  rw [Utf8.encode_decode]
  rfl

variable (ts) in
theorem entry_run {e : Str × Ino} (h : (s.store.index.getInode e.2).isSome = true) {b : Bytes}
    (hb : e.1 = name b) (n : Nat) :
    ∃ node, entry e ts n s = (.ok (b, node), n, s) ∧ node.id = e.2 := by
  obtain ⟨node, hnode, hid⟩ := FsCore.getattr_run ts h n
  unfold entry
  rw [Run.bind_run_ok (call_ok hnode), hb, Run.bind_run_ok (bname_name b n)]
  exact ⟨node, rfl, hid⟩

variable (ts) in
/-- With room for all, every entry is listed, under bytes that are decoded to its name. -/
theorem listed_run {entries : List (Str × Ino)}
    (h : ∀ e ∈ entries, (s.store.index.getInode e.2).isSome = true ∧ Passed e.1) (room : Nat)
    (hroom : entries.length ≤ room) (n : Nat) :
    ∃ replies, TgfsOperations.readdirFrom entry 0 room 0 entries ts n s = (.ok replies, n, s) ∧
      replies.map (fun r => (name r.name, r.node.id)) = entries := by
  have hbytes : ∀ e : Str × Ino, ∃ b, Passed e.1 → e.1 = name b := by
    intro e
    by_cases he : Passed e.1
    · obtain ⟨b, hb, -⟩ := he
      exact ⟨b, fun _ => hb⟩
    · exact ⟨[], fun hp => absurd hp he⟩
  choose f hf using hbytes
  obtain ⟨replies, hrun, hpage, -⟩ := TgfsOperations.readdirFrom_run 0 room 0
    fun e he => entry_run ts (h e he).1 (hf e (h e he).2) n
  refine ⟨replies, hrun, ?_⟩
  have hall : Paging.page (0 - 0) room (entries.map fun e => (f e, e.2)) =
      entries.map fun e => (f e, e.2) := List.take_of_length_le (by simpa using hroom)
  have := congrArg (List.map fun p => (name p.1, p.2)) (hpage.trans hall)
  rw [List.map_map, List.map_map] at this
  refine this.trans ((List.map_congr_left fun e he => ?_).trans (List.map_id _))
  exact Prod.ext (hf e (h e he).2).symm rfl

end ByteOperations

theorem Meta.length_readdir (m : Meta Sha) (dir : Ino) : (m.readdir dir).length = m.childCount dir := by
  rw [(m.readdir_perm dir).length_eq, List.length_map, ← List.countP_eq_length_filter]
  rfl

/-- A new entry, whose inode no other entry leads to. -/
theorem denotes_of_new {s : FsCore Sha} (hl : s.names.Linked) (hp : s.names.Spelt Passed)
    {parent ino : Ino} {b : Bytes} (hb : PosixName b) {old : List Dirent}
    (hnew : s.store.index.dirents = old ++ [⟨parent, ByteOperations.name b, ino⟩])
    (hold : ∀ d ∈ old, d.child ≠ ino) : Denotes ts s parent b ino := by
  have hmem : ⟨parent, ByteOperations.name b, ino⟩ ∈ s.store.index.dirents := by
    rw [hnew]
    exact List.mem_append_right _ (List.mem_singleton_self _)
  have hcounts := FsOp.linkCounts_of_linked hl
  -- the entry is the only one of its inode
  have honly : ∀ d ∈ s.store.index.dirents, d.child = ino →
      d = ⟨parent, ByteOperations.name b, ino⟩ := by
    intro d hd hc
    rw [hnew] at hd
    rcases List.mem_append.mp hd with hd | hd
    · exact absurd hc (hold d hd)
    · exact List.mem_singleton.mp hd
  constructor
  case found =>
    intro n
    obtain ⟨row, hrow⟩ := Option.isSome_iff_exists.mp (hcounts.child _ hmem)
    have hlook : s.store.index.lookup parent (ByteOperations.name b) = some row := by
      unfold Meta.lookup
      rw [show s.store.index.child parent (ByteOperations.name b) = some ino from
        Meta.child_of_mem hl hmem]
      exact hrow
    obtain ⟨b', -, hbind⟩ := hp _ hmem
    obtain ⟨node, hrun, hid⟩ := FsCore.lookupLive_run ts hlook n
    rw [ByteOperations.lookup_posix hb, ByteOperations.callNamed_ok hbind,
      ByteOperations.call_ok hrun]
    exact ⟨node, rfl, hid.trans (Meta.getInode_eq_some hrow).1⟩
  case listed =>
    intro n room hroom
    have hdir : (s.store.index.getInode parent).any (·.isDir) = true :=
      (FsOp.isDir_names _ _).symm.trans (hl.parent _ hmem)
    have hentries : ∀ e ∈ s.store.index.readdir parent,
        (s.store.index.getInode e.2).isSome = true ∧ Passed e.1 := by
      intro e he
      have hd := (s.store.index.mem_readdir).mp he
      exact ⟨hcounts.child _ hd, hp _ hd⟩
    obtain ⟨replies, hrun, hreplies⟩ := ByteOperations.listed_run ts hentries room
      ((s.store.index.length_readdir parent).trans_le hroom) n
    unfold ByteOperations.readdir
    rw [Run.bind_run_ok (ByteOperations.call_ok (FsCore.readdir_run hdir n)), hrun]
    refine ⟨replies, rfl, ?_⟩
    have hlist : (s.store.index.readdir parent).filter (fun e => e.2 = ino) =
        [(ByteOperations.name b, ino)] := by
      have hperm := (s.store.index.readdir_perm parent).filter fun e => e.2 = ino
      have hnone : ((old.filter fun d => d.parent = parent).map fun d => (d.name, d.child)).filter
          (fun e => e.2 = ino) = [] := by
        rw [List.filter_eq_nil_iff]
        intro e he
        obtain ⟨d, hd, rfl⟩ := List.mem_map.mp he
        simpa using hold d (List.mem_of_mem_filter hd)
      rw [hnew, List.filter_append, List.map_append, List.filter_append, hnone] at hperm
      exact List.perm_singleton.mp (by simpa using hperm)
    have hone : (replies.filter fun r => r.node.id = ino).map
        (fun r => (ByteOperations.name r.name, r.node.id)) = [(ByteOperations.name b, ino)] := by
      rw [← hlist, ← hreplies, List.filter_map]
      rfl
    obtain ⟨r, hr, hpair⟩ := List.map_eq_singleton_iff.mp hone
    rw [hr, List.map_singleton, Utf8.decode_injective (congrArg Prod.fst hpair)]
  case only =>
    intro b' hb' n node hrun hid
    rw [ByteOperations.lookup_posix hb'] at hrun
    by_cases hbind : Bindable (ByteOperations.name b')
    · rw [ByteOperations.callNamed_ok hbind] at hrun
      have hchild := FsCore.lookupLive_id (ByteOperations.of_call_ok hrun)
      obtain ⟨d, hd, -, hname, hc⟩ := Meta.child_eq_some hchild
      have heq := honly d hd (hc.trans hid)
      rw [heq] at hname
      exact Utf8.decode_injective hname.symm
    · rw [ByteOperations.callNamed_refused hbind] at hrun
      cases hrun

/-! ## A new name -/

/-- A file without rows is switched to write mode without a transfer. -/
theorem Wb.wp_materialize_empty [DecidableEq Sha] [Sha256 Sha] {cfg : WbConfig} {c : FileCtx Sha}
    (hm : c.st.materialized = false) (hrows : c.store.index.getChunks c.st.ino = [])
    (hinode : (c.store.index.getInode c.st.ino).isSome = true) :
    Wp ts (materialize cfg) (fun r _ => r = .ok ()) c := by
  obtain ⟨row, hrow⟩ := Option.isSome_iff_exists.mp hinode
  unfold materialize
  rw [getState, Run.wp_gets_bind, hm, if_neg (by simp), getRows, Run.wp_gets_bind, hrows, getInode,
    Run.wp_gets_bind, hrow]
  dsimp only
  refine Wp.bind_ok (Wb.wp_setState.mpr ⟨(), rfl, ?_⟩)
  rw [if_pos (by simp [aligned])]
  exact Wb.wp_setState.mpr rfl

namespace Writeback

variable {w : Writeback Sha} {ino : Ino}

theorem Numbered.get_unborn (h : w.Numbered) : w.get w.store.index.nextIno = none := by
  refine Option.map_eq_none_iff.mpr (List.find?_eq_none.mpr fun p hp => ?_)
  have hlt := h.heap p.2
  rw [(h.entry p hp).1] at hlt
  simpa using Nat.ne_of_lt hlt

theorem wp_openFile_new [DecidableEq Sha] [Sha256 Sha] {cfg : WbConfig} (hget : w.get ino = none)
    (hrows : w.store.index.getChunks ino = [])
    (hinode : (w.store.index.getInode ino).isSome = true) :
    Wp ts (openFile cfg ino true) (fun r _ => ∃ sid, r = .ok sid) w := by
  obtain ⟨gen, nextGen, ho, -⟩ := openLocked_new hget
  have hst : ((w.openLocked ino).2.view (w.openLocked ino).1).st =
      { ino := ino, gen := gen, refcount := 1 } := by
    rw [ho]
    exact Function.update_self _ _ _
  have hstore : ((w.openLocked ino).2.view (w.openLocked ino).1).store = w.store := by
    rw [ho]
    rfl
  unfold openFile
  rw [Run.wp_modifyGet_bind, if_pos rfl]
  refine Wp.bind_ok (Run.wp_zoom.mpr ((Wb.wp_materialize_empty ?_ ?_ ?_).mono fun r c hr =>
    ⟨(), hr, Run.wp_pure.mpr ⟨_, rfl⟩⟩))
  · rw [hst]
  · rw [hst, hstore]
    exact hrows
  · rw [hst, hstore]
    exact hinode

end Writeback

namespace FsCore

variable {s : FsCore Sha} {parent : Ino} {nm : Str}

/-- What `create` and `mkdir` do with a free name: an entry for the next inode. -/
structure Made (s : FsCore Sha) (parent : Ino) (nm : Str) (node : Inode) (s' : FsCore Sha) : Prop where
  id : node.id = s.store.index.nextIno
  dirents : s'.store.index.dirents = s.store.index.dirents ++ [⟨parent, nm, s.store.index.nextIno⟩]

variable (ts)

theorem lookup_none (hfree : s.store.index.child parent nm = none) (n : Nat) :
    lookup parent nm ts n s = (.ok none, n, s) := by
  have hl : s.store.index.lookup parent nm = none := by
    unfold Meta.lookup
    rw [hfree]
  exact congrArg (fun o => (Except.ok o, n, s)) hl

theorem makeNode_run (hfree : s.store.index.child parent nm = none) (mode : Nat) (kind : Kind)
    (uid gid : Nat) (target : Option Str) (n : Nat) : ∃ node m,
      makeNode parent nm mode kind uid gid target ts n s =
        (.ok node, n + 1, { s with store := { s.store with index := m } }) ∧
      Made s parent nm node { s with store := { s.store with index := m } } ∧
      m.chunks = s.store.index.chunks ∧ (m.getInode s.store.index.nextIno).isSome = true := by
  rcases s.store.index.create_cases (ts n).now parent nm mode kind uid gid target with
    ⟨htaken, -⟩ | ⟨-, node, hid, hcreate⟩
  · rw [hfree] at htaken
    cases htaken
  · refine ⟨node, ((s.store.index.addRow (s.store.index.newRow (ts n).now mode kind uid gid
      target)).insertDirent parent nm s.store.index.nextIno).addDirLink kind parent 1, ?_,
      ⟨hid, ?_⟩, ?_, ?_⟩
    · exact congrArg (fun r : Except (PyErr Sha) Inode × Meta Sha =>
        (r.1, n + 1, { s with store := { s.store with index := r.2 } })) hcreate
    · exact Meta.addDirLink_dirents _ _ _ _
    · unfold Meta.addDirLink
      split <;> rfl
    · have hrow : (((s.store.index.addRow
          (s.store.index.newRow (ts n).now mode kind uid gid target)).insertDirent parent nm
            s.store.index.nextIno)).inodes s.store.index.nextIno = some _ := Function.update_self _ _ _
      rw [Meta.getInode_of_row (Meta.addDirLink_row hrow kind parent 1)]
      rfl

theorem wp_mkdir_new (hfree : s.store.index.child parent nm = none) (mode uid gid : Nat) :
    Wp ts (mkdir parent nm mode uid gid)
      (fun r s' => ∃ node, r = .ok node ∧ Made s parent nm node s') s := by
  intro n
  obtain ⟨node, m, hrun, hmade, -, -⟩ := makeNode_run ts hfree (sIfdir ||| (mode &&& 0o7777)) .dir
    uid gid none n
  unfold mkdir ensureAbsent
  rw [Run.bind_assoc, Run.bind_run_ok (lookup_none ts hfree n)]
  change ∃ node', (makeNode parent nm _ .dir uid gid none ts n s).1 = .ok node' ∧
    Made s parent nm node' (makeNode parent nm _ .dir uid gid none ts n s).2.2
  rw [hrun]
  exact ⟨node, rfl, hmade⟩

variable [DecidableEq Sha] [Sha256 Sha] (cfg : WbConfig)

theorem wp_create_new (hnum : s.Numbered) (hfree : s.store.index.child parent nm = none)
    (mode flags uid gid : Nat) : Wp ts (create cfg parent nm mode flags uid gid)
      (fun r s' => ∃ fh node, r = .ok (fh, node) ∧ Made s parent nm node s') s := by
  intro n
  obtain ⟨node, m, hrun, hmade, hchunks, hinode⟩ := makeNode_run ts hfree
    (sIfreg ||| (mode &&& 0o7777)) .file uid gid none n
  have hrows : m.getChunks node.id = [] := by
    rw [Meta.getChunks_congr hchunks, hmade.id]
    exact hnum.index.unborn
  have hrest : Wp ts (do
      let sid ← wb (Writeback.openFile cfg node.id true)
      let fh ← newFh sid
      pure (fh, node)) (fun r s' => ∃ fh node, r = .ok (fh, node) ∧ Made s parent nm node s')
      { s with store := { s.store with index := m } } := by
    refine Wp.bind_ok (Run.wp_zoom.mpr ((Wp.and (Writeback.wp_openFile_new ?_ hrows ?_)
      (Writeback.keeps_openFile cfg node.id true).wp).mono ?_))
    · rw [hmade.id]
      exact hnum.get_unborn
    · rw [hmade.id]
      exact hinode
    · rintro r w ⟨⟨sid, rfl⟩, hnames⟩
      refine ⟨sid, rfl, Run.wp_modifyGet_bind.mpr (Run.wp_pure.mpr ⟨_, node, rfl, hmade.id, ?_⟩)⟩
      exact (congrArg Namespace.dirents hnames).trans hmade.dirents
  unfold create
  rw [Run.bind_run_ok (lookup_none ts hfree n)]
  dsimp only
  rw [Run.bind_run_ok hrun]
  exact hrest (n + 1)

end FsCore

/-! ## Round trips -/

section RoundTrips

variable [DecidableEq Sha] [Sha256 Sha]

/-- `create` and `mkdir` of the name succeed, and the bytes denote the new entry. -/
structure RoundTrips (cfg : WbConfig) (ts : Nat → Tick) (n : Nat) (s : FsCore Sha) (parent : Ino)
    (b : Bytes) (mode flags uid gid : Nat) : Prop where
  create : ∃ fh node n' s',
    ByteOperations.create cfg parent b mode flags uid gid ts n s = (.ok (fh, node), n', s') ∧
      Denotes ts s' parent b node.id
  mkdir : ∃ node n' s', ByteOperations.mkdir parent b mode uid gid ts n s = (.ok node, n', s') ∧
    Denotes ts s' parent b node.id

/-- An operation of the kernel whose names sqlite3 binds. Of another the first query raises. -/
def FsOp.Mounted (s : FsCore Sha) (op : FsOp) : Prop :=
  FsOp.OnDirs s op ∧ ∀ nm ∈ op.spelling, Passed nm

/-- The names of every state that the kernel's operations lead to. -/
structure FsCore.Spelled (s : FsCore Sha) : Prop where
  linked : s.names.Linked
  spelt : s.names.Spelt Passed
  numbered : s.Numbered

variable {s : FsCore Sha}

theorem FsOp.perform_spelled (cfg : WbConfig) (ts : Nat → Tick) (op : FsOp) (n : Nat) (h : s.Spelled)
    (hdirs : ∀ p ∈ op.parents, s.names.isDir p = true) (hpass : ∀ nm ∈ op.spelling, Passed nm) :
    (op.perform cfg ts n s).2.2.Spelled := by
  have hc : s.names.Change op (op.perform cfg ts n s).2.2.names :=
    FsOp.perform_change cfg h.linked op n
  exact ⟨hc.linked h.linked hdirs, hc.spelt h.linked h.spelt hpass,
    Event.numbered_perform cfg (.op op) ts n s h.numbered⟩

omit [DecidableEq Sha] [Sha256 Sha] in
/-- What a free name was made for is denoted by its bytes. -/
theorem FsCore.Spelled.denotes {s' : FsCore Sha} (h : s.Spelled) (h' : s'.Spelled) {parent : Ino}
    {b : Bytes} (hb : PosixName b) {node : Inode}
    (hmade : FsCore.Made s parent (ByteOperations.name b) node s') : Denotes ts s' parent b node.id := by
  rw [hmade.id]
  refine denotes_of_new h'.linked h'.spelt hb hmade.dirents fun d hd hc => ?_
  have hrow := h.linked.child d hd
  have hunborn : s.names.row s.store.index.nextIno = none := h.linked.unborn _ (Nat.le_refl _)
  rw [hc, hunborn] at hrow
  cases hrow

/-- A name makes the round trip if, and only if, it is UTF-8. -/
theorem roundTrips_iff (cfg : WbConfig) (ts : Nat → Tick) (now : Time) (uid₀ gid₀ : Nat)
    (ops : List FsOp) (n : Nat)
    (hops : FsOp.Each cfg ts FsOp.Mounted ops n (FsCore.empty now uid₀ gid₀ : FsCore Sha)) {n' : Nat}
    {s : FsCore Sha}
    (hs : (FsOp.runAll cfg ts ops n (FsCore.empty now uid₀ gid₀ : FsCore Sha)).2 = (n', s))
    {parent : Ino} (hdir : (s.store.index.getInode parent).any (·.isDir) = true) {b : Bytes}
    (hb : PosixName b) (hfree : s.store.index.child parent (ByteOperations.name b) = none)
    (mode flags uid gid : Nat) :
    RoundTrips cfg ts n' s parent b mode flags uid gid ↔ Utf8.WellFormed b := by
  have hspelled : s.Spelled := by
    have hrun := FsOp.runAll_keeps (I := fun s : FsCore Sha => s.Spelled)
      (fun s op n h (hop : FsOp.Mounted s op) => FsOp.perform_spelled cfg ts op n h
        (fun p hp => (FsOp.isDir_names _ p).trans (hop.1 p hp).1) hop.2)
      ⟨FsOp.empty_linked now uid₀ gid₀, nofun, Event.empty_numbered now uid₀ gid₀⟩ hops
    rwa [hs] at hrun
  have hparent : s.names.isDir parent = true := (FsOp.isDir_names _ _).trans hdir
  constructor
  · rintro ⟨⟨fh, node, n₁, s₁, hrun, -⟩, -⟩
    by_contra hbad
    have hrefused : ByteOperations.create cfg parent b mode flags uid gid ts n' s =
        (.error .unicodeEncode, n', s) :=
      ByteOperations.callNamed_refused (mt ByteOperations.bindable_name.mp hbad) _ n' s
    cases hrefused.symm.trans hrun
  · intro hgood
    have hbind := ByteOperations.bindable_name.mpr hgood
    have hpass : ∀ nm ∈ [ByteOperations.name b], Passed nm := by
      intro nm hnm
      rw [List.mem_singleton.mp hnm]
      exact ⟨b, rfl, hbind⟩
    have hdirs : ∀ p ∈ [parent], s.names.isDir p = true := by
      intro p hp
      rw [List.mem_singleton.mp hp]
      exact hparent
    constructor
    case create =>
      have hnew := FsCore.wp_create_new ts cfg hspelled.numbered hfree mode flags uid gid n'
      have hnext := FsOp.perform_spelled cfg ts (.create parent (ByteOperations.name b) mode flags
        uid gid) n' hspelled hdirs hpass
      unfold ByteOperations.create
      rw [ByteOperations.callNamed_ok hbind]
      rcases hrun : FsCore.create cfg parent (ByteOperations.name b) mode flags uid gid ts n' s with
        ⟨r, n₁, s₁⟩
      rw [hrun] at hnew
      obtain ⟨fh, node, rfl, hmade⟩ := hnew
      have hstate : ((FsOp.create parent (ByteOperations.name b) mode flags uid gid).perform cfg ts n'
          s).2.2 = s₁ := by
        unfold FsOp.perform
        dsimp only
        rw [Run.bind_run_ok hrun]
        rfl
      rw [hstate] at hnext
      exact ⟨fh, node, n₁, s₁, ByteOperations.call_ok hrun, hspelled.denotes hnext hb hmade⟩
    case mkdir =>
      have hnew := FsCore.wp_mkdir_new ts hfree mode uid gid n'
      have hnext := FsOp.perform_spelled cfg ts (.mkdir parent (ByteOperations.name b) mode uid gid)
        n' hspelled hdirs hpass
      unfold ByteOperations.mkdir
      rw [ByteOperations.callNamed_ok hbind]
      rcases hrun : FsCore.mkdir parent (ByteOperations.name b) mode uid gid ts n' s with ⟨r, n₁, s₁⟩
      rw [hrun] at hnew
      obtain ⟨node, rfl, hmade⟩ := hnew
      have hstate : ((FsOp.mkdir parent (ByteOperations.name b) mode uid gid).perform cfg ts n'
          s).2.2 = s₁ := by
        unfold FsOp.perform
        dsimp only
        rw [Run.bind_run_ok hrun]
        rfl
      rw [hstate] at hnext
      exact ⟨node, n₁, s₁, ByteOperations.call_ok hrun, hspelled.denotes hnext hb hmade⟩

end RoundTrips

/-- The name `é` in a directory `a`. -/
theorem roundTrips_accent :
    RoundTrips ⟨⟨2, 1, by decide, by decide⟩, 0⟩ (fun _ => {}) 1
      (FsOp.runAll ⟨⟨2, 1, by decide, by decide⟩, 0⟩ (fun _ => {}) [.mkdir rootIno [97] 0o755 0 0] 0
        (FsCore.empty 0 0 0 : FsCore Bytes)).2.2 2 [0xC3, 0xA9] 0o644 2 0 0 :=
  (roundTrips_iff _ (fun _ => {}) 0 0 0 [.mkdir rootIno [97] 0o755 0 0] 0
    ⟨⟨by decide +kernel, fun nm h => (List.mem_singleton.mp h : nm = [97]) ▸
      ⟨[97], by decide +kernel, by decide⟩⟩, trivial⟩ rfl (by decide +kernel)
    ⟨by decide, by decide, by decide, by decide, by decide⟩
    (by decide +kernel) 0o644 2 0 0).mpr ⟨['é'], by decide +kernel⟩

/-- The byte `FF`, which is a name in POSIX, is in no UTF-8. -/
theorem not_roundTrips_latin :
    PosixName [0xFF] ∧
      (FsCore.empty 0 0 0 : FsCore Bytes).store.index.child rootIno (ByteOperations.name [0xFF]) = none ∧
      (ByteOperations.create ⟨⟨2, 1, by decide, by decide⟩, 0⟩ rootIno [0xFF] 0o644 2 0 0 (fun _ => {}) 0
        (FsCore.empty 0 0 0 : FsCore Bytes)).1 = .error .unicodeEncode ∧
      ¬ RoundTrips ⟨⟨2, 1, by decide, by decide⟩, 0⟩ (fun _ => {}) 0
        (FsCore.empty 0 0 0 : FsCore Bytes) rootIno [0xFF] 0o644 2 0 0 := by
  have hrefused : (ByteOperations.create ⟨⟨2, 1, by decide, by decide⟩, 0⟩ rootIno [0xFF] 0o644 2 0 0
      (fun _ => {}) 0 (FsCore.empty 0 0 0 : FsCore Bytes)).1 = .error .unicodeEncode := by
    decide +kernel
  refine ⟨⟨by decide, by decide, by decide, by decide, by decide⟩, rfl, hrefused, fun h => ?_⟩
  obtain ⟨fh, node, n, s, hrun, -⟩ := h.create
  rw [hrun] at hrefused
  cases hrefused

end Tgfs
