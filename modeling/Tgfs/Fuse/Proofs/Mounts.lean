import Tgfs.Fuse.Proofs.Files

/-!
# The bytes of the files over runs and mounts

What a run of operations does to the table of byte arrays, what `getattr` and `read` show of it,
and what a shutdown leaves of it for the next mount.
-/

namespace Tgfs

open Run (Wp)

variable {Sha : Type} [DecidableEq Sha] [Sha256 Sha]

/-! ## What is shown -/

/-- `getattr` shows the length of every file, and a read through any handle of a file that is not
deleted gives the bytes. -/
structure Shows (cfg : WbConfig) (ts : Nat → Tick) (s : FsCore Sha) (f : Ino → Bytes) : Prop where
  size : ∀ ino n, s.store.index.getInode ino = some n → n.kind = .file →
    ∀ k, (FsCore.getattr ino ts k s).1 = .ok { n with size := (f ino).length }
  read : ∀ fh sid, s.findFh fh = some sid →
    (s.store.index.getInode (s.heap sid).ino).isSome = true →
      ∀ off size k, (FsCore.read cfg fh off size ts k s).1 =
        .ok (pread (f (s.heap sid).ino) off size)

/-- The store holds every file. -/
structure Filed (cs : Nat) (store : Store Sha) (f : Ino → Bytes) : Prop where
  books : store.Accounted
  index : store.index.Numbered
  pos : 0 < store.index.nextIno
  stored : ∀ ino n, store.index.inodes ino = some n → store.StoredAs cs ino (f ino)
  blank : ∀ ino, store.index.nextIno ≤ ino → f ino = []

namespace FsCore

variable {cs : Nat} {s s' : FsCore Sha} {f : Ino → Bytes} {ts : Nat → Tick} {cfg : WbConfig}
  {store : Store Sha}

omit [DecidableEq Sha] [Sha256 Sha] in
theorem edited_id (s : FsCore Sha) (f : Ino → Bytes) (fh : Nat) :
    s.edited f fh (fun ref => ref) = f := by
  unfold edited
  cases s.findFh fh with
  | none => rfl
  | some sid => exact Function.update_eq_self _ _

theorem Files.shows (hcfg : cfg.chunkSize = cs) (hinj : Function.Injective (sha256 : Bytes → Sha))
    (hts : ∀ n, (ts n).Quiet False) (h : Files cs s f) : Shows cfg ts s f := by
  refine ⟨fun ino n hi hkind k => ?_, fun fh sid hf hlive off size k => ?_⟩
  · have hwp : Wp ts (FsCore.getattr ino)
        (fun r _ => r = .ok { n with size := (f ino).length }) s := by
      unfold FsCore.getattr FsCore.live FsCore.getInode
      rw [Run.wp_gets_bind, hi]
      refine Run.wp_gets.mpr ?_
      rw [if_pos hkind]
      obtain ⟨hid, row, hrow, rfl⟩ := Meta.getInode_eq_some hi
      have hsize := h.size hrow
      dsimp only
      cases hlive : s.liveSize ino with
      | none => rw [← hsize.2 hlive]
      | some size => rw [hsize.1 size hlive]
    exact hwp k
  · obtain ⟨n, hi⟩ := Option.isSome_iff_exists.mp hlive
    obtain ⟨-, row, hrow, -⟩ := Meta.getInode_eq_some hi
    have hmem := (h.sound.handle hf).1
    have htracks := (h.has _).state sid hmem
    have hserves : Serves cs (s.toWriteback.view sid) (f (s.heap sid).ino) := htracks.serves hrow
    rw [FsOp.findFh_read hf]
    exact (htracks.read hcfg hinj hts off size k).2 hserves

theorem Files.shutdown (hcfg : cfg.chunkSize = cs)
    (hinj : Function.Injective (sha256 : Bytes → Sha)) (hts : ∀ n, (ts n).Quiet False)
    (h : Files cs s f) (hn : s.Numbered) :
    Wp ts (Event.shutdown.perform cfg) (fun r s' => r = .ok [] ∧ Filed cs s'.store f) s := by
  have hdown : Wp ts (FsCore.wb (Writeback.shutdown cfg)) (fun r s' => r.isOk = true ∧
      Filed cs s'.store f) s := by
    refine Run.wp_zoom.mpr ((((Writeback.Has.shutdown hcfg hinj hts h.has h.sound).and
      (Writeback.keeps_shutdown cfg).wp).and ((Writeback.numbered_shutdown cfg).wp hn)).mono ?_)
    rintro r w' ⟨⟨⟨hok, hstates, hsound, hhas⟩, hnames⟩, hn'⟩
    have hnext : w'.store.index.nextIno = s.store.index.nextIno := congrArg Namespace.nextIno hnames
    refine ⟨hok, hsound.books, hn'.index, ?_, fun ino n hi => (hhas ino).stored n hi ?_,
      fun ino hi => h.blank ino (hnext ▸ hi)⟩
    · exact Nat.lt_of_le_of_lt (Nat.zero_le _) (hn'.heap 0)
    · intro sid hm
      rw [hstates] at hm
      exact absurd hm List.not_mem_nil
  refine Wp.bind (hdown.mono ?_)
  rintro (e | u) s' ⟨hok, hfiled⟩
  · cases hok
  · exact Run.wp_pure.mpr ⟨rfl, hfiled⟩

end FsCore

/-- Over it the file system starts with these files. -/
theorem Filed.mounted {cs : Nat} {store : Store Sha} {f : Ino → Bytes} (h : Filed cs store f) :
    FsCore.Files cs (FsCore.mounted store) f ∧ (FsCore.mounted store).Numbered := by
  refine ⟨⟨FsOp.mounted_sound h.books, fun ino => ⟨fun sid hm => ?_, fun n hn _ => ?_⟩, h.blank,
    fun ino hi => ?_⟩, h.index, fun _ => h.pos, fun p hp => ?_⟩
  · exact absurd hm List.not_mem_nil
  · exact h.stored ino n hn
  · exact absurd hi (Finset.notMem_empty ino)
  · exact absurd hp List.not_mem_nil

/-! ## Runs -/

namespace FsOp

variable {cs : Nat} {s : FsCore Sha} {f : Ino → Bytes} {ts : Nat → Tick} {cfg : WbConfig}
  {store : Store Sha}

/-- What an operation makes of the files. -/
def rewrite (s : FsCore Sha) (f : Ino → Bytes) : FsOp → Ino → Bytes
  | .write fh off data => s.edited f fh fun ref => pwrite ref off data
  | .setattr ino a => s.resized f ino a.size
  | .openFh ino flags => s.resized f ino (if flags &&& oTrunc = 0 then none else some 0)
  | _ => f

/-- A write has data. No chunk that an earlier truncation cut off, and that is still stored, comes
back without being written; and where `setattr` meets the size in the index, it is the size of the
file. -/
def Regular (cs : Nat) (s : FsCore Sha) : FsOp → Prop
  | .write fh off data => data ≠ [] ∧ ∀ sid, s.findFh fh = some sid →
      (s.toWriteback.view sid).Spares cs (.write off data)
  | .setattr ino a => ∀ size, a.size = some size →
      (∀ sid, (ino, sid) ∈ s.states → (s.toWriteback.view sid).Spares cs (.truncate size)) ∧
        ∀ n, s.store.index.getInode ino = some n → size = n.size →
          s.liveSize ino = none ∨ s.liveSize ino = some size
  | _ => True

/-- The files behind a run. -/
def rewriteAll (cfg : WbConfig) (ts : Nat → Tick) :
    List FsOp → Nat → FsCore Sha → (Ino → Bytes) → Ino → Bytes
  | [], _, _, f => f
  | op :: ops, n, s, f =>
    let o := op.perform cfg ts n s
    rewriteAll cfg ts ops o.2.1 o.2.2 (op.rewrite s f)

theorem perform_files_of {α : Type} {m : FsRun Sha α} {g : Ino → Bytes}
    (hm : Wp ts m (fun _ s' => FsCore.Files cs s' g) s) :
    Wp ts (do
      let _ ← m
      pure [] : FsRun Sha (List (PyErr Sha))) (fun _ s' => FsCore.Files cs s' g) s := by
  refine Wp.bind (hm.mono ?_)
  rintro (e | a) s' h
  · exact h
  · exact Run.wp_pure.mpr h

section Run

variable (hcfg : cfg.chunkSize = cs) (hinj : Function.Injective (sha256 : Bytes → Sha))
  (hts : ∀ n, (ts n).Quiet False)
include hcfg hinj hts

/-- The step lemma. -/
theorem perform_files (h : FsCore.Files cs s f) (hn : s.Numbered) {op : FsOp}
    (hop : op.Regular cs s) :
    Wp ts (op.perform cfg) (fun _ s' => FsCore.Files cs s' (op.rewrite s f)) s := by
  cases op with
  | mkdir parent name mode uid gid =>
    exact perform_files_of (h.mkNode hn parent name _ .dir uid gid none)
  | rmdir parent name => exact perform_files_of (h.rmdir hn parent name)
  | createNode parent name mode uid gid =>
    exact perform_files_of (h.mkNode hn parent name _ .file uid gid none)
  | symlink parent name target uid gid =>
    exact perform_files_of (h.mkNode hn parent name _ .link uid gid (some target))
  | link ino newParent newName => exact perform_files_of (h.link hn ino newParent newName)
  | unlink parent name => exact perform_files_of (h.unlink hts hn parent name)
  | rename oldp oldname newp newname => exact perform_files_of (h.rename hts hn _ _ _ _)
  | setattr ino a =>
    exact perform_files_of (h.setattr hcfg hinj hts hn ino a (fun size he => (hop size he).1)
      fun n size hi he => (hop size he).2 n hi)
  | openFh ino flags => exact perform_files_of (h.openFh hcfg hinj hts hn ino flags)
  | create parent name mode flags uid gid =>
    exact perform_files_of (h.create hts hcfg hn parent name mode flags uid gid)
  | read fh off size =>
    have hread := h.onHandle hts hn fh (g := fun ref => ref) (robust_read cfg size off)
      (Wb.names_aside.keeps_read cfg size off) fun sid _ ht =>
        (ht.read hcfg hinj hts off size).mono fun _ _ h' => h'.1
    rw [FsCore.edited_id] at hread
    exact perform_files_of hread
  | write fh off data =>
    exact perform_files_of (h.onHandle hts hn fh (g := fun ref => pwrite ref off data)
      (robust_write cfg data off)
      (Wb.names_aside.keeps_write cfg data off) fun sid hf ht =>
        (ht.write hcfg hinj hts hop.1 (hop.2 sid hf)).mono fun _ _ h' => h'.1)
  | flush fh =>
    have hflush := h.onHandle hts hn fh (g := fun ref => ref) (robust_flush cfg)
      (Wb.names_aside.keeps_flush cfg) fun sid _ ht =>
        (ht.flush hcfg hinj hts).mono fun _ _ h' => h'.1
    rw [FsCore.edited_id] at hflush
    exact perform_files_of hflush
  | fsync fh =>
    have hsync := h.onHandle hts hn fh (g := fun ref => ref) (robust_flushLocked cfg)
      (Wb.names_aside.keeps_flushLocked cfg) fun sid _ ht =>
        (ht.flushLocked hcfg hinj hts).mono fun _ _ h' => h'.1
    rw [FsCore.edited_id] at hsync
    exact perform_files_of hsync
  | release fh => exact perform_files_of (h.release hcfg hinj hts hn fh)
  | reap => exact h.reap hcfg hinj hts

/-- The run lemma. -/
theorem runAll_files (h : FsCore.Files cs s f) (hn : s.Numbered) {ops : List FsOp} {n : Nat}
    (hops : Each cfg ts (Regular cs) ops n s) :
    FsCore.Files cs (runAll cfg ts ops n s).2.2 (rewriteAll cfg ts ops n s f) ∧
      (runAll cfg ts ops n s).2.2.Numbered := by
  induction ops generalizing n s f with
  | nil => exact ⟨h, hn⟩
  | cons op ops ih =>
    have hn' := Event.numbered_perform cfg (.op op) ts n s hn
    exact ih (perform_files hcfg hinj hts h hn hops.1 n) hn' hops.2

end Run

/-- Whatever operations run, on one file or on many, and wherever its blocks are, every file is
the byte array that POSIX makes of it. -/
theorem runAll_shows (cfg : WbConfig) (hinj : Function.Injective (sha256 : Bytes → Sha))
    (hts : ∀ n, (ts n).Quiet False) (h : Filed cfg.chunkSize store f) {ops : List FsOp} {n : Nat}
    (hops : Each cfg ts (Regular cfg.chunkSize) ops n (FsCore.mounted store)) :
    Shows cfg ts (runAll cfg ts ops n (FsCore.mounted store)).2.2
      (rewriteAll cfg ts ops n (FsCore.mounted store) f) :=
  (runAll_files rfl hinj hts h.mounted.1 h.mounted.2 hops).1.shows rfl hinj hts

/-- An empty database. -/
theorem empty_filed (cs : Nat) (now : Time) (uid gid : Nat) :
    Filed cs (Store.empty now uid gid : Store Sha) (fun _ => []) := by
  refine ⟨Store.empty_accounted now uid gid, (Event.empty_numbered now uid gid).index,
    Nat.succ_pos 1, fun ino n hn => FsCore.storedAs_nil rfl hn ?_, fun _ _ => rfl⟩
  change (Function.update (fun _ => none) rootIno _ ino : Option Inode) = some n at hn
  by_cases hi : ino = rootIno
  · rw [hi, Function.update_self] at hn
    cases hn
    rfl
  · rw [Function.update_of_ne hi] at hn
    cases hn

omit [DecidableEq Sha] [Sha256 Sha] in
/-- Where no chunk is cut off, every write is regular. -/
theorem regular_write {fh off : Nat} {data : Bytes} (hd : data ≠ [])
    (hrows : (s.findFh fh).all (fun sid => decide
      ((s.store.index.getChunks (s.heap sid).ino).length ≤ (s.heap sid).base.length)) = true) :
    Regular cs s (.write fh off data) := by
  refine ⟨hd, fun sid hf _ i hi => ?_⟩
  rw [hf, Option.all_some, decide_eq_true_eq] at hrows
  exact absurd (Nat.lt_of_lt_of_le hi.row (hrows.trans hi.cut)) (Nat.lt_irrefl i)

/-- A file is written, flushed, and written again behind its end through a second handle. -/
theorem runAll_shows_write :
    Shows ⟨⟨2, 1, Nat.two_pos, Nat.one_pos⟩, 0⟩ (fun _ => {})
      (runAll ⟨⟨2, 1, Nat.two_pos, Nat.one_pos⟩, 0⟩ (fun _ => {})
        [.create rootIno [97] 0o644 2 0 0, .write 1 0 [5, 6, 7], .fsync 1, .openFh 2 oRdwr,
          .write 2 4 [8]] 0 (FsCore.mounted (Store.empty 0 0 0 : Store Bytes))).2.2
      (rewriteAll ⟨⟨2, 1, Nat.two_pos, Nat.one_pos⟩, 0⟩ (fun _ => {})
        [.create rootIno [97] 0o644 2 0 0, .write 1 0 [5, 6, 7], .fsync 1, .openFh 2 oRdwr,
          .write 2 4 [8]] 0 (FsCore.mounted (Store.empty 0 0 0 : Store Bytes)) (fun _ => [])) := by
  refine runAll_shows _ (fun _ _ h => h) (fun _ => Tick.quiet_default) (empty_filed 2 0 0 0) ?_
  refine ⟨trivial, regular_write (by decide) ?_, trivial, trivial, regular_write (by decide) ?_,
    trivial⟩
  · decide +kernel
  · decide +kernel

end FsOp

/-! ## Mounts -/

section Mounts

variable {cs : Nat} {f : Ino → Bytes} {ts : Nat → Tick} {cfg : WbConfig} {store : Store Sha}

/-- One mount after the other: the operations of each, and a shutdown. -/
def mounts (cfg : WbConfig) (ts : Nat → Tick) : List (List FsOp) → Nat → Store Sha → Nat × Store Sha
  | [], n, store => (n, store)
  | ops :: runs, n, store =>
    let o := FsOp.runAll cfg ts ops n (FsCore.mounted store)
    let d := Event.shutdown.perform cfg ts o.2.1 o.2.2
    mounts cfg ts runs d.2.1 d.2.2.store

/-- The files behind the mounts. -/
def rewriteMounts (cfg : WbConfig) (ts : Nat → Tick) :
    List (List FsOp) → Nat → Store Sha → (Ino → Bytes) → Ino → Bytes
  | [], _, _, f => f
  | ops :: runs, n, store, f =>
    let o := FsOp.runAll cfg ts ops n (FsCore.mounted store)
    let d := Event.shutdown.perform cfg ts o.2.1 o.2.2
    rewriteMounts cfg ts runs d.2.1 d.2.2.store
      (FsOp.rewriteAll cfg ts ops n (FsCore.mounted store) f)

/-- `P` holds of every operation of every mount and the state in which it starts. -/
def EachMount (cfg : WbConfig) (ts : Nat → Tick) (P : FsCore Sha → FsOp → Prop) :
    List (List FsOp) → Nat → Store Sha → Prop
  | [], _, _ => True
  | ops :: runs, n, store =>
    let o := FsOp.runAll cfg ts ops n (FsCore.mounted store)
    let d := Event.shutdown.perform cfg ts o.2.1 o.2.2
    FsOp.Each cfg ts P ops n (FsCore.mounted store) ∧
      EachMount cfg ts P runs d.2.1 d.2.2.store

theorem mounts_filed (hcfg : cfg.chunkSize = cs)
    (hinj : Function.Injective (sha256 : Bytes → Sha)) (hts : ∀ n, (ts n).Quiet False)
    (h : Filed cs store f) {runs : List (List FsOp)} {n : Nat}
    (hruns : EachMount cfg ts (FsOp.Regular cs) runs n store) :
    Filed cs (mounts cfg ts runs n store).2 (rewriteMounts cfg ts runs n store f) := by
  induction runs generalizing n store f with
  | nil => exact h
  | cons ops runs ih =>
    obtain ⟨hfiles, hn⟩ := FsOp.runAll_files hcfg hinj hts h.mounted.1 h.mounted.2 hruns.1
    exact ih (hfiles.shutdown hcfg hinj hts hn _).2 hruns.2

/-- However often a new file system is mounted, written to and shut down: the store holds the bytes
of every file behind it. -/
theorem mounts_holds (cfg : WbConfig) (hinj : Function.Injective (sha256 : Bytes → Sha))
    (hts : ∀ n, (ts n).Quiet False) (now : Time) (uid gid : Nat) {runs : List (List FsOp)} {n : Nat}
    (hruns : EachMount cfg ts (FsOp.Regular cfg.chunkSize) runs n
      (Store.empty now uid gid : Store Sha)) {ino : Ino}
    (hlive : (mounts cfg ts runs n (Store.empty now uid gid : Store Sha)).2.index.inodes ino ≠ none) :
    (mounts cfg ts runs n (Store.empty now uid gid : Store Sha)).2.Holds ino
      (rewriteMounts cfg ts runs n (Store.empty now uid gid : Store Sha) (fun _ => []) ino) := by
  have h := mounts_filed rfl hinj hts (FsOp.empty_filed cfg.chunkSize now uid gid) hruns
  obtain ⟨node, hnode⟩ := Option.ne_none_iff_exists'.mp hlive
  exact (h.stored ino node hnode).holds cfg.chunkSize_pos hinj h.books

omit [DecidableEq Sha] [Sha256 Sha] in
/-- A file is written in one mount and still open at its end, and written again in the next. -/
theorem mounts_holds_two :
    (mounts ⟨⟨2, 1, Nat.two_pos, Nat.one_pos⟩, 1⟩ (fun _ => {})
      [[.create rootIno [97] 0o644 2 0 0, .write 1 0 [5, 6, 7]],
        [.openFh 2 oRdwr, .write 1 1 [8], .release 1]] 0
      (Store.empty 0 0 0 : Store Bytes)).2.Holds 2 [5, 8, 7] := by
  have hregular : EachMount ⟨⟨2, 1, Nat.two_pos, Nat.one_pos⟩, 1⟩ (fun _ => {}) (FsOp.Regular 2)
      [[.create rootIno [97] 0o644 2 0 0, .write 1 0 [5, 6, 7]],
        [.openFh 2 oRdwr, .write 1 1 [8], .release 1]] 0 (Store.empty 0 0 0 : Store Bytes) := by
    refine ⟨⟨trivial, FsOp.regular_write (by decide) ?_, trivial⟩,
      ⟨trivial, FsOp.regular_write (by decide) ?_, trivial, trivial⟩, trivial⟩
    · decide +kernel
    · decide +kernel
  have hrewrite : rewriteMounts ⟨⟨2, 1, Nat.two_pos, Nat.one_pos⟩, 1⟩ (fun _ => {})
      [[.create rootIno [97] 0o644 2 0 0, .write 1 0 [5, 6, 7]],
        [.openFh 2 oRdwr, .write 1 1 [8], .release 1]] 0 (Store.empty 0 0 0 : Store Bytes)
      (fun _ => []) 2 = [5, 8, 7] := by
    decide +kernel
  rw [← hrewrite]
  apply mounts_holds _ (fun _ _ h => h) (fun _ => Tick.quiet_default) 0 0 0 hregular
  decide +kernel

end Mounts

end Tgfs
