import Tgfs.Cache.Proofs.Flush
import Tgfs.Cache.Proofs.Twin
import Tgfs.Fuse.Proofs.Isolation

/-!
# Runs of operations

The invariant of `Isolation` along every run, and with it the exact accounting of blobs.
-/

namespace Tgfs

open Run (Wp)

namespace FsOp

variable {Sha : Type}

/-- The inodes whose content an operation started at `now` may work on. -/
def touches (cfg : WbConfig) (now : Time) (s : FsCore Sha) : FsOp → Ino → Prop
  | .mkdir .. | .createNode .. | .symlink .. => fun B => B = s.store.index.nextIno
  | .rmdir parent name | .unlink parent name | .rename _ _ parent name =>
    fun B => s.store.index.child parent name = some B
  | .link .. => fun _ => False
  | .setattr ino _ | .openFh ino _ => fun B => B = ino
  | .create parent name .. => fun B => B = s.createdIno parent name
  | .read fh .. | .write fh .. | .flush fh | .fsync fh | .release fh =>
    fun B => ∃ sid, s.findFh fh = some sid ∧ (s.heap sid).ino = B
  | .reap => fun B => ∃ sid ∈ s.candidates cfg false now,
    (s.heap sid).ino = B ∧ (s.heap sid).dirty = true

variable [DecidableEq Sha] [Sha256 Sha] {s : FsCore Sha} {ts : Nat → Tick}
  {cfg : WbConfig}

/-- What an operation logs is expected, too. -/
def Logged (r : Except (PyErr Sha) (List (PyErr Sha))) : Prop :=
  ∀ l, r = .ok l → ∀ e ∈ l, e.Expected

omit [DecidableEq Sha] [Sha256 Sha] in
theorem Logged.nil : Logged (.ok [] : Except (PyErr Sha) (List (PyErr Sha))) := by
  intro l hl
  cases hl
  simp

/-- An operation that logs nothing. -/
theorem perform_of_wp {A : Ino → Prop} {α : Type} {m : FsRun Sha α} (hs : s.Sound)
    (hm : Wp ts m (FsCore.Ends A s) s) :
    Wp ts (do
      let _ ← m
      pure []) (fun r s' => FsCore.Ends A s r s' ∧ Logged r) s := by
  have hlog : Wp ts (do
      let _ ← m
      pure [] : FsRun Sha (List (PyErr Sha))) (fun r _ => Logged r) s := by
    refine Wp.bind (hm.mono fun r s' _ => ?_)
    cases r with
    | error e => exact nofun
    | ok a => exact Run.wp_pure.mpr Logged.nil
  refine Wp.and (FsCore.Ends.bind hs (hm.mono fun r s' h => ⟨h, fun _ _ hs' => ?_⟩)) hlog
  exact FsCore.wp_ret hs' []

variable (cfg) in
/-- Every operation keeps the invariant and the inodes it does not touch. -/
theorem perform_ends (hts : ∀ n, (ts n).Quiet True) (hs : s.Sound) (op : FsOp) (n : Nat) :
    FsCore.Ends (op.touches cfg (ts n).now s) s (op.perform cfg ts n s).1
      (op.perform cfg ts n s).2.2 ∧ Logged (op.perform cfg ts n s).1 := by
  cases op with
  | mkdir parent name mode uid gid =>
    exact perform_of_wp hs (FsCore.wp_mkNode hs _ _ _ _ _ _ _) n
  | rmdir parent name => exact perform_of_wp hs (FsCore.wp_rmdir hs parent name) n
  | createNode parent name mode uid gid =>
    exact perform_of_wp hs (FsCore.wp_mkNode hs _ _ _ _ _ _ _) n
  | symlink parent name target uid gid =>
    exact perform_of_wp hs (FsCore.wp_mkNode hs _ _ _ _ _ _ _) n
  | link ino newParent newName => exact perform_of_wp hs (FsCore.wp_link hs _ _ _) n
  | unlink parent name => exact perform_of_wp hs (FsCore.wp_unlink hts hs parent name) n
  | rename oldp oldname newp newname =>
    exact perform_of_wp hs (FsCore.wp_rename hts hs _ _ _ _) n
  | setattr ino attrs => exact perform_of_wp hs (FsCore.wp_setattr hts hs ino attrs) n
  | openFh ino flags => exact perform_of_wp hs (FsCore.wp_openFh hts hs ino flags) n
  | create parent name mode flags uid gid =>
    exact perform_of_wp hs (FsCore.wp_create hts hs _ _ _ _ _ _) n
  | read fh off size => exact perform_of_wp hs (FsCore.wp_onHandle hts hs fh (robust_read cfg _ _)) n
  | write fh off data =>
    exact perform_of_wp hs (FsCore.wp_onHandle hts hs fh (robust_write cfg _ _)) n
  | flush fh => exact perform_of_wp hs (FsCore.wp_onHandle hts hs fh (robust_flush cfg)) n
  | fsync fh => exact perform_of_wp hs (FsCore.wp_onHandle hts hs fh (robust_flushLocked cfg)) n
  | release fh => exact perform_of_wp hs (FsCore.wp_release hts hs fh) n
  | reap =>
    obtain ⟨hreap, l, hl, hexp⟩ := Writeback.Sound.reapOnce hts cfg hs n
    refine ⟨⟨⟨hreap.sound, fun B hB => hreap.apart B ?_, fun _ _ hf _ => hf⟩, ?_⟩, ?_⟩
    · intro sid hsid hino
      by_contra hd
      exact hB ⟨sid, hsid, hino, by simpa using hd⟩
    · intro e he
      rw [show (FsOp.perform cfg .reap ts n s).1 = .ok l from hl] at he
      cases he
    · intro l' hl' e he
      obtain rfl := Except.ok.inj (hl.symm.trans hl')
      exact hexp e he

/-! ## Runs -/

theorem runAll_append (cfg : WbConfig) (ts : Nat → Tick) (ops ops' : List FsOp) (n : Nat)
    (s : FsCore Sha) : (runAll cfg ts (ops ++ ops') n s).2 =
      (runAll cfg ts ops' (runAll cfg ts ops n s).2.1 (runAll cfg ts ops n s).2.2).2 := by
  induction ops generalizing n s with
  | nil => rfl
  | cons op ops ih => exact ih _ _

variable (cfg) in
theorem runAll_sound (hts : ∀ n, (ts n).Quiet True) (hs : s.Sound) (ops : List FsOp) (n : Nat) :
    (runAll cfg ts ops n s).2.2.Sound ∧
      ∀ r ∈ (runAll cfg ts ops n s).1, (∀ e, r = .error e → e.Expected) ∧ Logged r := by
  induction ops generalizing n s with
  | nil => exact ⟨hs, by simp [runAll]⟩
  | cons op ops ih =>
    obtain ⟨⟨hk, he⟩, hl⟩ := perform_ends cfg hts hs op n
    obtain ⟨hs', hr⟩ := ih hk.sound (op.perform cfg ts n s).2.1
    refine ⟨hs', fun r hmem => ?_⟩
    rcases List.mem_cons.mp hmem with rfl | hmem
    · exact ⟨he, hl⟩
    · exact hr r hmem

/-- An empty filesystem. -/
theorem empty_sound (now : Time) (uid gid : Nat) : (FsCore.empty now uid gid : FsCore Sha).Sound := by
  refine ⟨Store.empty_accounted now uid gid, List.nodup_nil, ?_, ?_⟩
  · intro ino sid hm
    simp [FsCore.empty] at hm
  · intro sid hp
    simp [FsCore.held, FsCore.empty] at hp

/-! ## The blobs of a run -/

/-- The index and the backend agree on the blobs: there is one for each hash that a chunk names,
it counts the chunks that do, and its content is stored. Nothing else is. -/
structure ExactBlobs (s : Store Sha) : Prop where
  row : ∀ h, (s.index.blobs h).isSome = true ↔ ∃ r ∈ s.index.chunks, r.2.sha = h
  refcount : ∀ h b, s.index.blobs h = some b → b.refcount = s.index.rowCount h
  stored : ∀ h b, s.index.blobs h = some b →
    ∃ data, s.backend.blobs b.handle = some data ∧ sha256 data = h
  only : ∀ hd data, s.backend.blobs hd = some data →
    ∃ h b, s.index.blobs h = some b ∧ b.handle = hd

theorem exactBlobs_of_accounted {s : Store Sha} (h : s.Accounted) : ExactBlobs s where
  row sha := by
    have hcount := h.refcount sha
    have hpos : 0 < s.index.rowCount sha ↔ ∃ r ∈ s.index.chunks, r.2.sha = sha := by
      unfold Meta.rowCount
      rw [List.countP_pos_iff]
      simp
    rw [← hpos, ← hcount]
    cases hb : s.index.blobs sha with
    | none => simp [Meta.refcount, hb]
    | some b =>
      rw [Meta.refcount_of_blob hb]
      simp [(h.stored sha b hb).1]
  refcount sha b hb := by
    rw [← h.refcount, Meta.refcount_of_blob hb]
  stored sha b hb := by
    obtain ⟨-, data, hdata, hsha, -⟩ := h.stored sha b hb
    exact ⟨data, hdata, hsha⟩
  only := h.held

/-- Whatever operations run on a new filesystem and whichever transfers fail, the blobs are
exact between the operations, and no operation raises or logs that a blob is missing. -/
theorem runAll_exactBlobs (cfg : WbConfig) (hts : ∀ n, (ts n).Quiet True) (now : Time)
    (uid gid : Nat) (ops : List FsOp) (n : Nat) :
    ExactBlobs (runAll cfg ts ops n (FsCore.empty now uid gid : FsCore Sha)).2.2.store ∧
      ∀ r ∈ (runAll cfg ts ops n (FsCore.empty now uid gid : FsCore Sha)).1,
        (∀ e, r = .error e → e.Expected) ∧ Logged r := by
  have hempty : (FsCore.empty now uid gid : FsCore Sha).Sound := empty_sound now uid gid
  obtain ⟨hs, hr⟩ := runAll_sound cfg hts hempty ops n
  exact ⟨exactBlobs_of_accounted hs.books, hr⟩

theorem runAll_exactBlobs_write :
    ExactBlobs (runAll ⟨⟨2, 1, by decide, by decide⟩, 0⟩ (fun _ => {})
      [.create rootIno [97] 0o644 2 0 0, .write 1 0 [5, 6, 5, 6], .release 1] 0
      (FsCore.empty 0 0 0 : FsCore Bytes)).2.2.store :=
  (runAll_exactBlobs _ (fun _ => Tick.quiet_default) 0 0 0 _ 0).1

/-! ## The other files -/

/-- Inode `B` has the same content in both states, in the store and behind its handles. -/
structure Untouched (cfg : WbConfig) (B : Ino) (s s' : FsCore Sha) : Prop where
  rows : s'.store.index.getChunks B = s.store.index.getChunks B
  blobs : ∀ c ∈ s.store.index.getChunks B,
    ∃ data, s.store.blobData c.sha = some data ∧ s'.store.blobData c.sha = some data
  size : (s'.store.index.inodes B).map (·.size) = (s.store.index.inodes B).map (·.size)
  content : s'.store.content B = s.store.content B
  handles : ∀ fh sid, s.findFh fh = some sid → (s.heap sid).ino = B → s'.findFh fh = some sid
  reads : ∀ fh sid, s.findFh fh = some sid → (s.heap sid).ino = B →
    ∀ (ts : Nat → Tick) (n off size : Nat),
      (FsCore.read cfg fh off size ts n s').1 = (FsCore.read cfg fh off size ts n s).1

theorem findFh_read {fh : Nat} {sid : StateId} (hf : s.findFh fh = some sid) (off size n : Nat) :
    (FsCore.read cfg fh off size ts n s).1 =
      (Wb.read cfg size off ts n (s.toWriteback.view sid)).1 := by
  have hget : FsCore.getState fh ts n s = (.ok sid, n, s) := by
    unfold FsCore.getState
    rw [Run.gets_bind_run, hf]
    rfl
  unfold FsCore.read
  rw [Run.bind_run_ok hget]
  rfl

variable (hinj : Function.Injective (sha256 : Bytes → Sha))
include hinj

theorem Kept.untouched {A : Ino → Prop} {s' : FsCore Sha} (hs : s.Sound) (h : FsCore.Kept A s s')
    {B : Ino} (hB : ¬ A B) : Untouched cfg B s s' := by
  have hap := h.apart B hB
  have hdata : ∀ c ∈ s.store.index.getChunks B,
      ∃ data, s.store.blobData c.sha = some data ∧ s'.store.blobData c.sha = some data := by
    intro c hc
    obtain ⟨data, hd, hsha⟩ := hs.books.blobData_row hc
    obtain ⟨data', hd', hsha'⟩ := h.sound.books.blobData_row (hap.rows ▸ hc)
    rw [hinj (hsha'.trans hsha.symm)] at hd'
    exact ⟨data, hd, hd'⟩
  have hkeep : ∀ fh sid, s.findFh fh = some sid → (s.heap sid).ino = B →
      s'.findFh fh = some sid := fun fh sid hf hino => h.handles fh sid hf (hino ▸ hB)
  refine ⟨hap.rows, hdata, hap.size, ?_, hkeep, fun fh sid hf hino ts n off size => ?_⟩
  · have hfun : ∀ c ∈ s.store.index.getChunks B,
        s.store.blobData c.sha = some ((s.store.blobData c.sha).getD []) ∧
          s'.store.blobData c.sha = some ((s.store.blobData c.sha).getD []) := by
      intro c hc
      obtain ⟨data, hd, hd'⟩ := hdata c hc
      rw [hd, hd']
      exact ⟨rfl, rfl⟩
    unfold Store.content
    rw [hap.rows, Store.mapM_some fun c hc => (hfun c hc).1,
      Store.mapM_some fun c hc => (hfun c hc).2]
  · obtain ⟨hmem, hlt, hpos⟩ := hs.handle hf
    obtain ⟨hheap, hfile⟩ := hap.states sid hlt hino hpos
    obtain ⟨hmem', -, -⟩ := h.sound.handle (hkeep fh sid hf hino)
    have htwin : Twin (s.toWriteback.view sid) (s'.toWriteback.view sid) := by
      refine ⟨hheap, ?_, ?_, ?_, ⟨hs.books, (hs.entry _ _ hmem).backed⟩,
        ⟨h.sound.books, (h.sound.entry _ _ hmem').backed⟩⟩
      · change s'.files ((s'.heap sid).ino, (s'.heap sid).gen) =
          s.files ((s.heap sid).ino, (s.heap sid).gen)
        rw [hheap, hino]
        exact hfile
      · change s'.store.index.getChunks (s.heap sid).ino = s.store.index.getChunks (s.heap sid).ino
        rw [hino]
        exact hap.rows
      · intro row hrow
        change row ∈ s.store.index.getChunks (s.heap sid).ino at hrow
        rw [hino] at hrow
        obtain ⟨data, hd, hd'⟩ := hdata row hrow
        exact hd'.trans hd.symm
    rw [findFh_read hf, findFh_read (hkeep fh sid hf hino)]
    exact (alike_read cfg size off ts n _ _ htwin).1

/-- Whatever an operation does, and wherever it fails, the content of every inode that it does
not work on is the same behind it. -/
theorem perform_untouched (cfg : WbConfig) (hts : ∀ n, (ts n).Quiet True) (now : Time)
    (uid gid : Nat) (ops : List FsOp) (n : Nat) (op : FsOp) {B : Ino}
    (hB : ¬ op.touches cfg (ts (runAll cfg ts ops n (FsCore.empty now uid gid : FsCore Sha)).2.1).now
      (runAll cfg ts ops n (FsCore.empty now uid gid : FsCore Sha)).2.2 B) :
    Untouched cfg B (runAll cfg ts ops n (FsCore.empty now uid gid : FsCore Sha)).2.2
      (runAll cfg ts (ops ++ [op]) n (FsCore.empty now uid gid : FsCore Sha)).2.2 := by
  have hempty : (FsCore.empty now uid gid : FsCore Sha).Sound := empty_sound now uid gid
  have hs := (runAll_sound cfg hts hempty ops n).1
  rw [runAll_append cfg ts ops [op]]
  exact Kept.untouched hinj hs (perform_ends cfg hts hs op _).1.1 hB

omit hinj [DecidableEq Sha] [Sha256 Sha] in
/-- Two files with the same content, one of which is removed. -/
theorem perform_untouched_unlink :
    Untouched ⟨⟨2, 1, by decide, by decide⟩, 0⟩ 3
      (runAll ⟨⟨2, 1, by decide, by decide⟩, 0⟩ (fun _ => {})
        [.create rootIno [97] 0o644 2 0 0, .write 1 0 [5, 6, 7], .release 1,
          .create rootIno [98] 0o644 2 0 0, .write 2 0 [5, 6, 7], .flush 2] 0
        (FsCore.empty 0 0 0 : FsCore Bytes)).2.2
      (runAll ⟨⟨2, 1, by decide, by decide⟩, 0⟩ (fun _ => {})
        ([.create rootIno [97] 0o644 2 0 0, .write 1 0 [5, 6, 7], .release 1,
          .create rootIno [98] 0o644 2 0 0, .write 2 0 [5, 6, 7], .flush 2] ++
          [.unlink rootIno [97]]) 0 (FsCore.empty 0 0 0 : FsCore Bytes)).2.2 := by
  refine perform_untouched (fun _ _ h => h) _ (fun _ => Tick.quiet_default) 0 0 0 _ 0 _ ?_
  unfold touches
  decide +kernel

end FsOp

end Tgfs
