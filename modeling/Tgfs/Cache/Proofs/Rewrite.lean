import Tgfs.Cache.Readers
import Tgfs.Cache.Proofs.Contents
import Tgfs.Store.Proofs.Stops
import Tgfs.Store.Proofs.Undo
import Tgfs.Store.Proofs.Roundtrip

/-!
# A read beside a rewrite

A read without the lock works from the rows that it found. They are those of the file after some
of the acknowledged operations, and `put_file` uploads before it replaces them; but it releases the
old blobs without regard to readers. The read is right as long as no blob is freed that it still
has to fetch.
-/

namespace Tgfs

open Run (Wp)
open Wb

variable {Sha : Type} [DecidableEq Sha] [Sha256 Sha]

/-! ## The rows of a file -/

/-- The rows that `put_file` stores for a file. -/
def fileRows (Sha : Type) [Sha256 Sha] (cs : Nat) (ref : Bytes) : List (Chunk Sha) :=
  (List.range (chunkCount cs ref.length)).map fun i =>
    ⟨i, i * cs, (chunkAt cs ref i).length, sha256 (chunkAt cs ref i)⟩

variable (Sha) in
omit [DecidableEq Sha] in
/-- They cover the file without gaps. -/
theorem fileRows_covers {cs : Nat} (hcs : 0 < cs) (ref : Bytes) :
    Store.Contiguous 0 (fileRows Sha cs ref) ∧
      ((fileRows Sha cs ref).map (·.len)).sum = ref.length := by
  have key : ∀ n, n ≤ chunkCount cs ref.length →
      Store.Contiguous 0 ((List.range n).map fun i =>
        (⟨i, i * cs, (chunkAt cs ref i).length, sha256 (chunkAt cs ref i)⟩ : Chunk Sha)) ∧
        (((List.range n).map fun i => (⟨i, i * cs, (chunkAt cs ref i).length,
          sha256 (chunkAt cs ref i)⟩ : Chunk Sha)).map (·.len)).sum = min (n * cs) ref.length := by
    intro n hn
    induction n with
    | zero => exact ⟨trivial, by simp⟩
    | succ n ih =>
      obtain ⟨hc, hsum⟩ := ih (by omega)
      have hlt := (lt_chunkCount hcs).mp (Nat.lt_of_succ_le hn)
      rw [List.range_succ, List.map_append]
      constructor
      · apply hc.concat
        rw [hsum]
        dsimp only
        omega
      · rw [List.map_append, List.sum_append, hsum, Nat.succ_mul]
        simp only [List.map_singleton, List.sum_singleton, length_chunkAt]
        omega
  obtain ⟨hc, hsum⟩ := key _ le_rfl
  refine ⟨hc, hsum.trans (Nat.min_eq_right ?_)⟩
  have h := (lt_chunkCount (i := chunkCount cs ref.length) hcs).not.mp (Nat.lt_irrefl _)
  exact Nat.le_of_not_lt h

omit [DecidableEq Sha] in
theorem fileRows_sha {cs : Nat} {ref : Bytes} {ch : Chunk Sha} (h : ch ∈ fileRows Sha cs ref) :
    ch.sha = sha256 (pread ref ch.off ch.len) := by
  obtain ⟨i, -, rfl⟩ := List.mem_map.mp h
  dsimp only
  rw [length_chunkAt, pread_chunk]

namespace Readers

/-! ## The parts of a read -/

def Part.needs (p : Part Sha) : Bool :=
  match p.progress with
  | .waiting | .looked _ => true
  | .ended _ => false

/-- A part of a read of `content`. Its blob is in the index for as long as it is needed. -/
structure Part.Ok (s : Store Sha) (content : Bytes) (p : Part Sha) : Prop where
  sha : p.chunk.sha = sha256 (pread content p.chunk.off p.chunk.len)
  waiting : p.progress = .waiting → ∃ b, s.index.blobs p.chunk.sha = some b
  looked : ∀ handle, p.progress = .looked handle →
    ∃ b, s.index.blobs p.chunk.sha = some b ∧ b.handle = handle
  ended : ∀ r, p.progress = .ended r → r = .ok (pread content p.chunk.off p.chunk.len)

variable {s s' : Store Sha} {content : Bytes} {p : Part Sha}

omit [DecidableEq Sha] in
/-- A step that keeps the blob of a part that needs it. -/
theorem Part.Ok.step (h : p.Ok s content) (hblob : p.needs = true →
    ∀ b, s.index.blobs p.chunk.sha = some b →
      ∃ b', s'.index.blobs p.chunk.sha = some b' ∧ b'.handle = b.handle) : p.Ok s' content := by
  refine ⟨h.sha, fun hp => ?_, fun handle hp => ?_, h.ended⟩
  · obtain ⟨b, hb⟩ := h.waiting hp
    obtain ⟨b', hb', -⟩ := hblob (by simp [Part.needs, hp]) b hb
    exact ⟨b', hb'⟩
  · obtain ⟨b, hb, hh⟩ := h.looked handle hp
    obtain ⟨b', hb', hh'⟩ := hblob (by simp [Part.needs, hp]) b hb
    exact ⟨b', hb', hh'.trans hh⟩

omit [DecidableEq Sha] in
theorem Part.Ok.lookup (h : p.Ok s content) : (p.lookup s).Ok s content := by
  unfold Part.lookup
  cases hp : p.progress with
  | looked handle | ended r => exact h
  | waiting =>
    obtain ⟨b, hb⟩ := h.waiting hp
    simp only [Meta.blobGet, hb]
    refine ⟨h.sha, by simp, fun handle he => ⟨b, hb, ?_⟩, by simp⟩
    simpa using he

theorem Part.Ok.download (hinj : Function.Injective (sha256 : Bytes → Sha))
    (hheld : ∀ sha b, s.index.blobs sha = some b → Store.Held s.backend sha b)
    (h : p.Ok s content) : (p.download s).Ok s content := by
  unfold Part.download
  cases hp : p.progress with
  | waiting | ended r => exact h
  | looked handle =>
    obtain ⟨b, hb, rfl⟩ := h.looked handle hp
    obtain ⟨data, hdata, hsha, -⟩ := hheld _ b hb
    obtain rfl := hinj (hsha.trans h.sha)
    simp only [Backend.download, hdata, hsha, if_true]
    refine ⟨h.sha, by simp, by simp, fun r he => ?_⟩
    simpa using he.symm

omit [DecidableEq Sha] in
/-- A read that is over returns the bytes of the file. -/
theorem joined_eq {offset fin a : Nat} {rows : List (Chunk Sha)} {parts : List (Part Sha)}
    {r : Except (PyErr Sha) Bytes} (hc : Store.Contiguous a rows)
    (hparts : parts.map (·.chunk) = rows.filter fun ch => ch.off + ch.len > offset ∧ ch.off < fin)
    (hok : ∀ p ∈ parts, p.Ok s content) (hj : joined offset fin parts = some r) :
    r = .ok (Store.slice content (max offset a) (min fin (a + (rows.map (·.len)).sum))) := by
  induction rows generalizing a parts r with
  | nil =>
    obtain rfl : parts = [] := by simpa using hparts
    rw [Store.slice_nil (by simp only [List.map_nil, List.sum_nil]; omega)]
    exact (Option.some.inj hj).symm
  | cons ch rows ih =>
    obtain ⟨rfl, hrest⟩ := hc
    rw [List.map_cons, List.sum_cons, ← Nat.add_assoc,
      ← Store.slice_border (Nat.le_add_right _ ch.len) (Nat.le_add_right (ch.off + ch.len) _)]
    by_cases hhit : ch.off + ch.len > offset ∧ ch.off < fin
    · rw [List.filter_cons_of_pos (by simpa using hhit)] at hparts
      obtain ⟨p, ps, rfl, hp, hps⟩ := List.map_eq_cons_iff.mp hparts
      have hpok := hok p List.mem_cons_self
      unfold joined at hj
      cases hprog : p.progress with
      | waiting | looked handle => simp [hprog] at hj
      | ended r' =>
        obtain rfl := hpok.ended r' hprog
        rw [hp] at hprog hj
        simp only [hprog, Option.map_eq_some_iff] at hj
        obtain ⟨rest, hrun, rfl⟩ := hj
        obtain rfl := ih hrest hps (fun q hq => hok q (List.mem_cons_of_mem _ hq)) hrun
        rw [Store.pread_piece (by omega) (by omega)]
        rfl
    · rw [List.filter_cons_of_neg (by simpa using hhit)] at hparts
      rw [Store.slice_nil (by omega), List.nil_append]
      exact ih hrest hparts hok hj

end Readers

/-! ## A flush in the middle -/

/-- The state in the middle of the `put_file` of a flush that was begun in `old`. `good` holds of
the rows all the time. -/
structure Storing (cfg : WbConfig) (ref : Bytes) (good : List (Chunk Sha) → Prop)
    (old c : FileCtx Sha) (oldN : Nat) (rest : StoreProg Sha (Except (PyErr Sha) Unit)) : Prop where
  view : View cfg.chunkSize old ref
  synced : Synced cfg.chunkSize old ref
  dirty : old.st.dirty = true
  fresh : NoStaleRow cfg.chunkSize old
  st : c.st = old.st
  temp : c.temp = resize old.temp ref.length
  oldN : oldN = old.st.base.length
  counting : c.store.Counting
  books : ∃ g, Store.Inv False Store.NoFree c.store g ∧
    Store.StoreSafe False Store.NoFree (tempSrc false c.temp)
      (Store.Over old.st.ino (Store.PutPost False cfg.toStoreConfig c.temp.length
        (some old.st.dirtyIdx) (tempSrc false c.temp) (Store.Inv.own old.store old.st.ino))) rest g
  saves : Store.SavedSafe old.st.ino (fun w => good w.1) (tempSrc false c.temp) (fun _ _ => True)
    rest {c.store.saved old.st.ino}
  good : good (c.store.index.getChunks old.st.ino)

section Storing

variable {cfg : WbConfig} {ref : Bytes} {good : List (Chunk Sha) → Prop} {old c : FileCtx Sha}
  {oldN : Nat}

/-- `put_file` is about to begin. -/
theorem View.storing (good : List (Chunk Sha) → Prop) (h : View cfg.chunkSize c ref) (hs : Synced cfg.chunkSize c ref)
    (hd : c.st.dirty = true) (hn : NoStaleRow cfg.chunkSize c)
    (hold : good (c.store.index.getChunks c.st.ino)) (hnew : good (fileRows Sha cfg.chunkSize ref)) :
    Storing cfg ref good c { c with temp := resize c.temp ref.length } c.st.base.length
      (Store.putFile cfg.toStoreConfig c.st.ino (resize c.temp ref.length).length
        (some c.st.dirtyIdx)) := by
  have hflush := h.flushRows_eq cfg.chunkSize_pos hs.clean hd hn
  have hinv : Store.Inv False Store.NoFree c.store
      ({ owns := {Store.Inv.own c.store c.st.ino} } + 0) := h.books.inv.take (by simp)
  refine ⟨h, hs, hd, hn, rfl, rfl, rfl, h.books.counting, ⟨_, hinv, ?_⟩, ?_, hold⟩
  · rw [add_zero]
    exact Store.safe_putFile (show (Store.Inv.own c.store c.st.ino).freeing = false from rfl)
  · apply Store.saved_putFile hold
    intro new off hscan hend
    obtain ⟨rfl, -⟩ := scan_rows hscan hend
    have hrows : good ((List.range (chunkCount cfg.chunkSize (resize c.temp ref.length).length)).map
        (gridRow cfg.chunkSize (some c.st.dirtyIdx) (c.store.index.getChunks c.st.ino)
          (resize c.temp ref.length))) := by
      rw [length_resize]
      change good (flushRows cfg.chunkSize c ref)
      rw [hflush]
      exact hnew
    exact ⟨hrows, hrows⟩

/-- One action of `put_file`. -/
theorem Storing.exec {a : Act Sha} {k : a.Reply → StoreProg Sha (Except (PyErr Sha) Unit)}
    (h : Storing cfg ref good old c oldN (.act a k)) {t : Tick} (ht : t.QuietAct False)
    (hr : Store.ready a c.store = true) :
    Storing cfg ref good old
      { c with store := (Store.exec (tempSrc false c.temp) t a c.store).2 } oldN
      (k (Store.exec (tempSrc false c.temp) t a c.store).1) := by
  obtain ⟨g, hi, hsafe⟩ := h.books
  obtain ⟨g', hi', hk⟩ := hsafe c.store t 0 ht hr (by rwa [add_zero])
  obtain ⟨w, hw, hk'⟩ := h.saves c.store t 0 trivial hr
    ⟨add_zero _, h.good⟩
  rw [add_zero] at hi' hw
  refine { h with
    counting := Store.counting_exec _ t a c.store h.counting
    books := ⟨g', hi', hk⟩
    saves := ?_
    good := hw.2 }
  rw [hw.1] at hk'
  exact hk'

/-- A step of the upload pool. -/
theorem Storing.poolStep {rest : StoreProg Sha (Except (PyErr Sha) Unit)}
    (h : Storing cfg ref good old c oldN rest) {e : FutId × PoolTick} (he : e.2.Quiet False) :
    Storing cfg ref good old { c with store := Store.poolStep e c.store } oldN rest := by
  obtain ⟨g, hi, hsafe⟩ := h.books
  obtain ⟨hchunks, hinodes⟩ := Store.poolStep_plain e c.store
  refine { h with
    counting := Store.counting_poolStep e c.store h.counting
    books := ⟨g, Store.env_inv e c.store g he hi, hsafe⟩
    saves := ?_
    good := ?_ }
  · rw [Store.saved_congr hchunks hinodes]
    exact h.saves
  · rw [Meta.getChunks_congr hchunks]
    exact h.good

/-- `put_file` has returned. -/
theorem Storing.ret {r : Except (PyErr Sha) Unit} (h : Storing cfg ref good old c oldN (.ret r)) :
    r = .ok () ∧ c.store.Accounted ∧
      c.store.index.getChunks old.st.ino = flushRows cfg.chunkSize old ref ∧
      ∃ n, c.store.index.inodes old.st.ino = some n ∧ n.size = ref.length := by
  obtain ⟨g, hi, ow, hpost, hino, hfree, hidle⟩ := h.books
  rw [← add_zero g] at hi
  have hrows := hi.owned_rows hidle.owns
  have hinode := hi.owned_inode hidle.owns
  have hi' := hi.leave hidle.refs hidle.futs hidle.doomed hidle.trash fun ow' ho => by
    rw [hidle.owns, Multiset.mem_singleton] at ho
    exact ho ▸ hfree
  rw [hino] at hrows hinode
  cases r with
  | error e =>
    obtain ⟨⟨-, hf⟩ | ⟨pos, want, hread⟩, -⟩ := hpost
    · exact hf.elim
    · cases hread
  | ok u =>
    obtain ⟨new, off, now, hscan, hend, rfl⟩ := hpost
    obtain ⟨rfl, rfl⟩ := scan_rows hscan hend
    obtain ⟨n, hn⟩ := h.synced.inode
    refine ⟨rfl, hi'.accounted h.counting, ?_, ?_⟩
    · rw [hrows, h.temp]
      simp only [Store.written, length_resize]
      rfl
    · rw [hinode, h.temp]
      simp only [Store.written, Store.Inv.own, hn, Option.map_some, length_resize]
      exact ⟨_, rfl, rfl⟩

/-- What `_flush_locked` does behind `put_file`. -/
theorem Storing.done {r : Except (PyErr Sha) Unit} (h : Storing cfg ref good old c oldN (.ret r))
    {c' : FileCtx Sha} (hc' : c' = { c with st := { c.st with
      base := (c.store.index.getChunks c.st.ino).map BaseChunk.ofRow
      loaded := c.st.loaded ∪ Finset.Ico oldN (c.store.index.getChunks c.st.ino).length
      dirtyIdx := ∅
      dirty := false } }) :
    View cfg.chunkSize c' ref ∧ Synced cfg.chunkSize c' ref := by
  obtain ⟨-, hbooks, hrows, hinode⟩ := h.ret
  have hview := h.view.afterFlush cfg.chunkSize_pos hbooks hrows
  subst hc'
  rw [h.st, hrows, h.oldN, h.temp]
  exact ⟨hview, h.view.syncedRows cfg.chunkSize_pos h.synced h.dirty h.fresh rfl rfl hrows hinode⟩

end Storing

/-! ## Between two sections of the writer -/

/-- The state is still in read mode, or shows the file. -/
def Between (cfg : WbConfig) (ino : Ino) (gen : Nat) (ref : Bytes) (c : FileCtx Sha) : Prop :=
  (c = freshCtx ino gen c.store ∧ c.store.Accounted ∧ c.store.StoredAs cfg.chunkSize ino ref) ∨
    (c.st.materialized = true ∧ c.st.ino = ino ∧ View cfg.chunkSize c ref ∧
      Synced cfg.chunkSize c ref)

section Between

variable {cfg : WbConfig} {ino : Ino} {gen : Nat} {ref : Bytes} {c : FileCtx Sha} {ts : Nat → Tick}

theorem Between.books (h : Between cfg ino gen ref c) : c.store.Accounted := by
  obtain ⟨-, hs, -⟩ | ⟨-, -, hview, -⟩ := h
  · exact hs
  · exact hview.books

theorem Between.ino_eq (h : Between cfg ino gen ref c) : c.st.ino = ino := by
  obtain ⟨hc, -, -⟩ | ⟨-, hino, -, -⟩ := h
  · rw [hc]
    rfl
  · exact hino

theorem Between.view (h : Between cfg ino gen ref c) (hm : c.st.materialized = true) :
    c.st.ino = ino ∧ View cfg.chunkSize c ref ∧ Synced cfg.chunkSize c ref := by
  obtain ⟨hc, -, -⟩ | ⟨-, h⟩ := h
  · rw [hc] at hm
    cases hm
  · exact h

/-- The state is opened for writing. -/
theorem Between.materialize (h : Between cfg ino gen ref c) :
    Wp ts (Wb.materialize cfg) (fun _ c' => Between cfg ino gen ref c' ∧ c'.store = c.store) c := by
  obtain ⟨hc, hs, hst⟩ | ⟨hm, h⟩ := h
  · rw [hc]
    refine (View.materialize rfl hs hst rfl rfl rfl :
      Wp ts (Wb.materialize cfg) _ (freshCtx ino gen c.store)).mono ?_
    rintro r c' ⟨-, hview, hclean, -, hmat⟩
    have hstore : c'.store = c.store := hmat.store
    have hino : c'.st.ino = ino := hmat.ino
    obtain ⟨n, hn, -⟩ := hst.inode
    refine ⟨.inr ⟨hmat.mat, hino, hview, hclean, ⟨n, ?_⟩, fun _ => ?_⟩, hstore⟩
    · rwa [hstore, hino]
    · rwa [hstore, hino]
  · exact materialize_noop hm ⟨.inr ⟨hm, h⟩, rfl⟩

/-- An operation through the handle that is open for writing. -/
theorem Between.edit (hinj : Function.Injective (sha256 : Bytes → Sha))
    (hts : ∀ n, (ts n).Quiet False) (h : Between cfg ino gen ref c)
    (hm : c.st.materialized = true) {op : FileOp} (hop : op.Nonempty) (hsync : op ≠ .sync) :
    Wp ts (perform cfg op) (fun r c' => r = .ok (op.answer ref) ∧
      Between cfg ino gen (op.apply ref) c' ∧ c'.store = c.store) c := by
  obtain ⟨hino, hview, hs⟩ := h.view hm
  refine (hview.edit rfl hinj hts hm hop hsync).mono ?_
  rintro r c' ⟨rfl, hview', hsame, hs'⟩
  exact ⟨rfl, .inr ⟨hsame.mat.trans hm, hsame.ino.trans hino, hview', hs' hs⟩, hsame.store⟩

end Between

namespace Readers

/-! ## Steps -/

/-- The backend does not fail in the step, and a write has data. -/
def Label.Quiet : Label → Prop
  | .openWrite ts | .test ts => ∀ n, (ts n).Quiet False
  | .edit op ts => op.Nonempty ∧ ∀ n, (ts n).Quiet False
  | .store t => t.QuietAct False
  | .pool e => e.2.Quiet False
  | _ => True

/-- The blobs that the read has still to look up or to download. -/
def needed (c : Readers Sha) : List Sha :=
  match c.reader with
  | .loading parts => (parts.filter Part.needs).map (·.chunk.sha)
  | _ => []

/-- The blob whose last reference the next action of `put_file` drops. -/
def frees (c : Readers Sha) : List Sha :=
  match c.writer with
  | .storing _ (.act (.blobDecref sha) _) =>
    if c.ctx.store.index.refcount sha ≤ 1 then [sha] else []
  | _ => []

/-- The step frees no blob that the read still needs, and it begins no flush that meets a stale
row. -/
def Spares (cs : Nat) (l : Label) (c : Readers Sha) : Prop :=
  match l with
  | .sync => c.writer = .idle → NoStaleRow cs c.ctx
  | .store _ => ∀ sha ∈ c.frees, sha ∉ c.needed
  | _ => True

/-- The file after some of the acknowledged operations. -/
def Reached (ref : Bytes) (acked : List FileOp) (content : Bytes) : Prop :=
  ∃ pre, pre <+: acked ∧ content = FileOp.applyAll pre ref

theorem Reached.mono {ref content : Bytes} {acked acked' : List FileOp}
    (h : Reached ref acked content) (hpre : acked <+: acked') : Reached ref acked' content := by
  obtain ⟨pre, hp, rfl⟩ := h
  exact ⟨pre, hp.trans hpre, rfl⟩

theorem Reached.now (ref : Bytes) (acked : List FileOp) :
    Reached ref acked (FileOp.applyAll acked ref) :=
  ⟨acked, List.prefix_rfl, rfl⟩

/-- Rows of the file after some of the acknowledged operations. -/
def Saves (cs : Nat) (ref : Bytes) (acked : List FileOp) (rows : List (Chunk Sha)) : Prop :=
  ∃ content, Reached ref acked content ∧ rows = fileRows Sha cs content

/-- What the read has done so far is right for one content of the file. -/
def ReaderOk (cs : Nat) (ref : Bytes) (c : Readers Sha) : Prop :=
  match c.reader with
  | .calling | .querying => True
  | .loading parts => ∃ content, Reached ref c.acked content ∧
    parts.map (·.chunk) = ((fileRows Sha cs content).filter fun ch =>
      ch.off + ch.len > c.offset ∧ ch.off < c.offset + c.size) ∧
    ∀ p ∈ parts, p.Ok c.ctx.store content
  | .returned r => ∃ content, Reached ref c.acked content ∧ r = .ok (pread content c.offset c.size)

/-- What holds in every state. -/
structure RunInv (cfg : WbConfig) (ino : Ino) (gen : Nat) (ref : Bytes) (c : Readers Sha) :
    Prop where
  idle : c.writer = .idle → Between cfg ino gen (FileOp.applyAll c.acked ref) c.ctx
  storing : ∀ oldN rest, c.writer = .storing oldN rest → ∃ old : FileCtx Sha,
    old.st.ino = ino ∧ old.st.materialized = true ∧
      Storing cfg (FileOp.applyAll c.acked ref) (Saves cfg.chunkSize ref c.acked) old c.ctx oldN rest
  rows : Saves cfg.chunkSize ref c.acked (c.ctx.store.index.getChunks ino)
  reader : ReaderOk cfg.chunkSize ref c

section Steps

variable {cfg : WbConfig} {ino : Ino} {gen : Nat} {ref : Bytes} {c c' : Readers Sha}

omit [DecidableEq Sha] in
/-- The read does not notice a step that keeps the blobs it needs. -/
theorem ReaderOk.step {cs : Nat} (h : ReaderOk cs ref c) (hreader : c'.reader = c.reader)
    (hoffset : c'.offset = c.offset) (hsize : c'.size = c.size) (hacked : c.acked <+: c'.acked)
    (hblob : ∀ sha ∈ c.needed, ∀ b, c.ctx.store.index.blobs sha = some b →
      ∃ b', c'.ctx.store.index.blobs sha = some b' ∧ b'.handle = b.handle) :
    ReaderOk cs ref c' := by
  unfold ReaderOk at h ⊢
  rw [hreader]
  cases hr : c.reader with
  | calling | querying => trivial
  | returned r =>
    rw [hr] at h
    obtain ⟨content, hcontent, hread⟩ := h
    exact ⟨content, hcontent.mono hacked, by rw [hoffset, hsize]; exact hread⟩
  | loading parts =>
    rw [hr] at h
    obtain ⟨content, hcontent, hparts, hok⟩ := h
    refine ⟨content, hcontent.mono hacked, by rw [hoffset, hsize]; exact hparts, fun p hp => ?_⟩
    refine (hok p hp).step fun hneeds b hb => hblob _ ?_ b hb
    unfold needed
    rw [hr]
    exact List.mem_map_of_mem (List.mem_filter.mpr ⟨hp, hneeds⟩)

omit [DecidableEq Sha] in
/-- The same if the store is the same. -/
theorem ReaderOk.sameStore {cs : Nat} (h : ReaderOk cs ref c) (hreader : c'.reader = c.reader)
    (hoffset : c'.offset = c.offset) (hsize : c'.size = c.size) (hacked : c.acked <+: c'.acked)
    (hstore : c'.ctx.store = c.ctx.store) : ReaderOk cs ref c' :=
  h.step hreader hoffset hsize hacked fun _ _ b hb => ⟨b, by rw [hstore]; exact hb, rfl⟩

/-- The books at any time. -/
theorem RunInv.inv (h : RunInv cfg ino gen ref c) :
    ∃ g, Store.Inv False Store.NoFree c.ctx.store g := by
  cases hw : c.writer with
  | idle => exact ⟨0, (h.idle hw).books.inv⟩
  | storing oldN rest =>
    obtain ⟨old, -, -, hst⟩ := h.storing oldN rest hw
    obtain ⟨g, hi, -⟩ := hst.books
    exact ⟨g, hi⟩

theorem RunInv.ino_eq (h : RunInv cfg ino gen ref c) : c.ctx.st.ino = ino := by
  cases hw : c.writer with
  | idle => exact (h.idle hw).ino_eq
  | storing oldN rest =>
    obtain ⟨old, hino, -, hst⟩ := h.storing oldN rest hw
    rw [hst.st]
    exact hino

/-- A step of an idle writer that leaves the store alone. -/
theorem RunInv.ofBetween (h : RunInv cfg ino gen ref c) {acked : List FileOp} {ctx : FileCtx Sha}
    (hacked : c.acked <+: acked) (hw : c.writer = .idle)
    (hb : Between cfg ino gen (FileOp.applyAll acked ref) ctx) (hstore : ctx.store = c.ctx.store) :
    RunInv cfg ino gen ref { c with ctx := ctx, acked := acked } := by
  refine ⟨fun _ => hb, fun oldN rest hw' => ?_, ?_, h.reader.sameStore rfl rfl rfl hacked hstore⟩
  · rw [show c.writer = _ from hw'] at hw
    cases hw
  · obtain ⟨content, hcontent, hrows⟩ := h.rows
    refine ⟨content, hcontent.mono hacked, ?_⟩
    rw [hstore]
    exact hrows

/-- A step of the reader alone. -/
theorem RunInv.ofReader (h : RunInv cfg ino gen ref c) {r : Reader Sha}
    (hr : ReaderOk cfg.chunkSize ref { c with reader := r }) :
    RunInv cfg ino gen ref { c with reader := r } :=
  ⟨h.idle, h.storing, h.rows, hr⟩

theorem RunInv.openWrite (h : RunInv cfg ino gen ref c) (hw : c.writer = .idle) (ts : Nat → Tick) :
    RunInv cfg ino gen ref { c with ctx := (Wb.materialize cfg ts 0 c.ctx).2.2 } := by
  have hrun : Wp ts _ _ _ := (h.idle hw).materialize
  obtain ⟨hb, hstore⟩ := hrun 0
  exact h.ofBetween List.prefix_rfl hw hb hstore

theorem RunInv.edit (hinj : Function.Injective (sha256 : Bytes → Sha))
    (h : RunInv cfg ino gen ref c) (hw : c.writer = .idle) {op : FileOp} {ts : Nat → Tick}
    (hop : op.Nonempty) (hts : ∀ n, (ts n).Quiet False) (hm : c.ctx.st.materialized = true)
    (hsync : op ≠ .sync) :
    RunInv cfg ino gen ref (match Wb.perform cfg op ts 0 c.ctx with
      | (.ok _, _, ctx) => { c with ctx := ctx, acked := c.acked ++ [op] }
      | (.error _, _, ctx) => { c with ctx := ctx }) := by
  obtain ⟨hr, hb, hstore⟩ := (h.idle hw).edit hinj hts hm hop hsync 0
  rcases hrun : Wb.perform cfg op ts 0 c.ctx with ⟨r, n, ctx⟩
  rw [hrun] at hr hb hstore
  obtain rfl := hr
  refine h.ofBetween (List.prefix_append _ _) hw ?_ hstore
  rw [FileOp.applyAll_append]
  exact hb

theorem RunInv.sync (h : RunInv cfg ino gen ref c) (hw : c.writer = .idle)
    (hn : NoStaleRow cfg.chunkSize c.ctx) : RunInv cfg ino gen ref (c.sync cfg) := by
  unfold Readers.sync
  dsimp only
  split
  case isFalse => exact h
  case isTrue hd =>
    obtain ⟨hc, -, -⟩ | ⟨hm, hino, hview, hs⟩ := h.idle hw
    · rw [hc] at hd
      cases hd
    have hrows := h.rows
    have hst := hview.storing (Saves cfg.chunkSize ref c.acked) hs hd hn
      (by rw [hino]; exact hrows) ⟨_, Reached.now ref c.acked, rfl⟩
    rw [length_resize, ← hview.size] at hst
    have htrunc : Wp (fun _ => {}) (Wb.tempTruncate c.ctx.st.size) (fun r ctx => r = .ok () ∧
        ctx = { c.ctx with temp := resize c.ctx.temp c.ctx.st.size }) c.ctx :=
      wp_tempTruncate hview.opened ⟨rfl, rfl⟩
    obtain ⟨hr, hctx⟩ := htrunc 0
    rcases hrun : Wb.tempTruncate c.ctx.st.size (fun _ => {}) 0 c.ctx with ⟨r, n, ctx⟩
    rw [hrun] at hr hctx
    obtain rfl := hr
    obtain rfl := hctx
    refine ⟨nofun, fun oldN rest he => ?_, hrows, h.reader.sameStore rfl rfl rfl List.prefix_rfl rfl⟩
    obtain ⟨rfl, rfl⟩ := Writer.storing.inj he
    exact ⟨c.ctx, hino, hm, hst⟩

/-- A step of `put_file`, or of the pool beside it. -/
theorem RunInv.ofStoring (h : RunInv cfg ino gen ref c) {old : FileCtx Sha} {s : Store Sha}
    {oldN : Nat} {rest : StoreProg Sha (Except (PyErr Sha) Unit)} (hino : old.st.ino = ino)
    (hm : old.st.materialized = true)
    (hst : Storing cfg (FileOp.applyAll c.acked ref) (Saves cfg.chunkSize ref c.acked) old
      { c.ctx with store := s } oldN rest)
    (hblob : ∀ sha ∈ c.needed, ∀ b, c.ctx.store.index.blobs sha = some b →
      ∃ b', s.index.blobs sha = some b' ∧ b'.handle = b.handle) :
    RunInv cfg ino gen ref
      { c with ctx := { c.ctx with store := s }, writer := .storing oldN rest } := by
  refine ⟨nofun, fun oldN' rest' he => ?_, ?_, h.reader.step rfl rfl rfl List.prefix_rfl hblob⟩
  · obtain ⟨rfl, rfl⟩ := Writer.storing.inj he
    exact ⟨old, hino, hm, hst⟩
  · have := hst.good
    rwa [hino] at this

theorem RunInv.store (h : RunInv cfg ino gen ref c) {t : Tick} (ht : t.QuietAct False)
    (hspares : Spares cfg.chunkSize (.store t) c) : RunInv cfg ino gen ref (c.store t) := by
  unfold Readers.store
  split
  case h_1 => exact h
  case h_2 oldN a k hw =>
    split
    case isFalse => exact h
    case isTrue hr =>
      obtain ⟨old, hino, hm, hst⟩ := h.storing _ _ hw
      have hclosed : c.ctx.st.closed = false := by
        rw [hst.st]
        exact hst.view.opened
      rw [hclosed]
      refine h.ofStoring hino hm (hst.exec ht hr) fun sha hneeded b hb => ?_
      obtain ⟨-, rfl, hle⟩ | ⟨b', hb', hh, -⟩ := Store.exec_blob t a c.ctx.store hb
      · -- the last reference to a blob that the read needs
        refine absurd hneeded (hspares sha ?_)
        unfold frees
        rw [hw]
        simp [Meta.refcount_of_blob hb, hle]
      · exact ⟨b', hb', hh⟩
  case h_3 e hw =>
    obtain ⟨old, -, -, hst⟩ := h.storing _ _ hw
    obtain ⟨hr, -⟩ := hst.ret
    cases hr
  case h_4 oldN u hw =>
    obtain ⟨old, hino, hm, hst⟩ := h.storing _ _ hw
    obtain ⟨hview, hs⟩ := hst.done rfl
    refine ⟨fun _ => .inr ⟨?_, ?_, hview, hs⟩, nofun, h.rows, h.reader.sameStore rfl rfl rfl
      List.prefix_rfl rfl⟩
    · change c.ctx.st.materialized = true
      rw [hst.st]
      exact hm
    · exact h.ino_eq

theorem RunInv.pool (h : RunInv cfg ino gen ref c) {e : FutId × PoolTick} (he : e.2.Quiet False) :
    RunInv cfg ino gen ref
      { c with ctx := { c.ctx with store := Store.poolStep e c.ctx.store } } := by
  cases hw : c.writer with
  | idle =>
    have hsame : Store.poolStep e c.ctx.store = c.ctx.store :=
      (h.idle hw).books.readable.poolStep e
    rw [hsame, ← hw]
    exact h
  | storing oldN rest =>
    obtain ⟨old, hino, hm, hst⟩ := h.storing _ _ hw
    refine h.ofStoring hino hm (hst.poolStep he) fun sha _ b hb => ?_
    obtain ⟨b', hb', hh, -⟩ := Store.poolStep_blob e c.ctx.store hb
    exact ⟨b', hb', hh⟩

theorem RunInv.test (hinj : Function.Injective (sha256 : Bytes → Sha))
    (h : RunInv cfg ino gen ref c) (hw : c.writer = .idle) {ts : Nat → Tick}
    (hts : ∀ n, (ts n).Quiet False) : RunInv cfg ino gen ref (c.test cfg ts) := by
  unfold Readers.test
  split
  case isFalse => exact h.ofReader trivial
  case isTrue hm =>
    obtain ⟨hr, hb, hstore⟩ := (h.idle hw).edit hinj hts hm
      (show (FileOp.read c.offset c.size).Nonempty from trivial) (by simp) 0
    have h' := h.ofBetween List.prefix_rfl hw hb hstore
    exact h'.ofReader ⟨_, Reached.now ref c.acked, hr⟩

theorem RunInv.query (h : RunInv cfg ino gen ref c) : RunInv cfg ino gen ref c.query := by
  unfold Readers.query
  split
  case isTrue hz =>
    refine h.ofReader ⟨_, Reached.now ref c.acked, ?_⟩
    rw [hz]
    rfl
  case isFalse =>
    obtain ⟨content, hcontent, hrows⟩ := h.rows
    obtain ⟨g, hi⟩ := h.inv
    refine h.ofReader ⟨content, hcontent, ?_, fun p hp => ?_⟩
    · rw [h.ino_eq, hrows, List.map_map]
      exact List.map_id _
    · obtain ⟨ch, hch, rfl⟩ := List.mem_map.mp hp
      have hmem := (List.mem_filter.mp hch).1
      rw [h.ino_eq] at hmem
      refine ⟨fileRows_sha (hrows ▸ hmem), fun _ => ?_, nofun, nofun⟩
      exact hi.blob_of_row (hi.not_freeing ino) hmem

/-- A step of one part of the read. -/
theorem RunInv.part (h : RunInv cfg ino gen ref c) {parts : List (Part Sha)}
    (hr : c.reader = .loading parts) (i : Nat) {f : Part Sha → Part Sha}
    (hchunk : ∀ p, (f p).chunk = p.chunk)
    (hf : ∀ content p, p.Ok c.ctx.store content → (f p).Ok c.ctx.store content) :
    RunInv cfg ino gen ref { c with reader := .loading (parts.modify i f) } := by
  have hreader := h.reader
  unfold ReaderOk at hreader
  rw [hr] at hreader
  obtain ⟨content, hcontent, hparts, hok⟩ := hreader
  refine h.ofReader ⟨content, hcontent, ?_, fun p hp => ?_⟩
  · rw [← hparts]
    apply List.ext_getElem?
    intro j
    rw [List.getElem?_map, List.getElem?_map, List.getElem?_modify]
    cases parts[j]? with
    | none => rfl
    | some p => by_cases hij : i = j <;> simp [hij, hchunk]
  · obtain ⟨j, hj⟩ := List.getElem?_of_mem hp
    rw [List.getElem?_modify] at hj
    obtain ⟨q, hq, rfl⟩ := Option.map_eq_some_iff.mp hj
    have hqok := hok q (List.mem_of_getElem? hq)
    split
    · exact hf content q hqok
    · exact hqok

theorem RunInv.join (h : RunInv cfg ino gen ref c) {parts : List (Part Sha)}
    (hr : c.reader = .loading parts) {r : Except (PyErr Sha) Bytes}
    (hj : joined c.offset (c.offset + c.size) parts = some r) :
    RunInv cfg ino gen ref { c with reader := .returned r } := by
  have hreader := h.reader
  unfold ReaderOk at hreader
  rw [hr] at hreader
  obtain ⟨content, hcontent, hparts, hok⟩ := hreader
  obtain ⟨hcov, hsum⟩ := fileRows_covers Sha cfg.chunkSize_pos content
  refine h.ofReader ⟨content, hcontent, ?_⟩
  rw [joined_eq hcov hparts hok hj, hsum, Nat.max_zero, Nat.zero_add, Store.slice_clamp]

theorem RunInv.start {s : Store Sha} (hs : s.Accounted) (hst : s.StoredAs cfg.chunkSize ino ref)
    (offset size : Nat) : RunInv cfg ino gen ref (start ino gen s offset size) :=
  ⟨fun _ => .inl ⟨rfl, hs, hst⟩, nofun, ⟨ref, Reached.now ref [], hst.rows⟩, trivial⟩

/-- One step of the writer, of the pool or of the reader. -/
theorem RunInv.step (hinj : Function.Injective (sha256 : Bytes → Sha))
    (h : RunInv cfg ino gen ref c) {l : Label} (hl : l.Quiet) (hspares : Spares cfg.chunkSize l c) :
    RunInv cfg ino gen ref (step cfg l c) := by
  unfold Readers.step
  split
  case h_1 ts hw => exact h.openWrite hw ts
  case h_2 op ts hw =>
    split
    case isTrue hop => exact h.edit hinj hw hl.1 hl.2 hop.1 hop.2
    case isFalse => exact h
  case h_3 hw => exact h.sync hw (hspares hw)
  case h_4 t => exact h.store hl hspares
  case h_5 e => exact h.pool hl
  case h_6 ts hw _ => exact h.test hinj hw hl
  case h_7 => exact h.query
  case h_8 i parts hr =>
    refine h.part hr i (fun p => ?_) fun content p hp => hp.lookup
    unfold Part.lookup
    split
    · split <;> rfl
    · rfl
  case h_9 i parts hr =>
    obtain ⟨g, hi⟩ := h.inv
    refine h.part hr i (fun p => ?_) fun content p hp => hp.download hinj hi.blobs.stored
    unfold Part.download
    split
    · split
      · rfl
      · split <;> rfl
    · rfl
  case h_10 parts hr =>
    split
    case h_1 r hj => exact h.join hr hj
    case h_2 => exact h
  case h_11 => exact h

end Steps

/-! ## Runs -/

/-- Every step of the run spares what the read needs. -/
def Sparing (cfg : WbConfig) : List Label → Readers Sha → Prop
  | [], _ => True
  | l :: ls, c => Spares cfg.chunkSize l c ∧ Sparing cfg ls (step cfg l c)

theorem RunInv.run {cfg : WbConfig} (hinj : Function.Injective (sha256 : Bytes → Sha)) {ino : Ino}
    {gen : Nat} {ref : Bytes} {ls : List Label} {c : Readers Sha} (h : RunInv cfg ino gen ref c)
    (hls : ∀ l ∈ ls, l.Quiet) (hspares : Sparing cfg ls c) :
    RunInv cfg ino gen ref (run cfg ls c) := by
  induction ls generalizing c with
  | nil => exact h
  | cons l ls ih =>
    exact ih (h.step hinj (hls l List.mem_cons_self) hspares.1)
      (fun l' hl' => hls l' (List.mem_cons_of_mem _ hl')) hspares.2

/-- The range that is read stays what it is. -/
theorem range_step (cfg : WbConfig) (l : Label) (c : Readers Sha) :
    ((step cfg l c).offset, (step cfg l c).size) = (c.offset, c.size) := by
  unfold Readers.step Readers.sync Readers.store Readers.test Readers.query
  dsimp only
  split
  case h_1 | h_5 | h_8 | h_9 | h_11 => rfl
  case h_2 | h_3 => split <;> first | rfl | (split <;> rfl)
  case h_4 => split <;> first | rfl | (split <;> rfl)
  case h_6 | h_7 | h_10 => split <;> rfl

theorem range_run (cfg : WbConfig) (ls : List Label) (c : Readers Sha) :
    ((run cfg ls c).offset, (run cfg ls c).size) = (c.offset, c.size) := by
  induction ls generalizing c with
  | nil => rfl
  | cons l ls ih => exact (ih _).trans (range_step cfg l c)

/-! ## The read ends -/

/-- The steps that are left of a read of so many parts. -/
def fetches (n : Nat) : List Label := (List.range n).flatMap fun i => [.lookup i, .download i]

theorem Part.fetch_ended (s : Store Sha) (p : Part Sha) :
    ∃ r, ((p.lookup s).download s).progress = .ended r := by
  have hdownload : ∀ q : Part Sha, q.progress ≠ .waiting →
      ∃ r, (q.download s).progress = .ended r := by
    intro q hq
    unfold Part.download
    cases hp : q.progress with
    | waiting => exact absurd hp hq
    | ended r => exact ⟨r, hp⟩
    | looked handle =>
      cases hd : s.backend.download handle with
      | none => simp [hd]
      | some data => by_cases hsha : sha256 data = q.chunk.sha <;> simp [hd, hsha]
  apply hdownload
  unfold Part.lookup
  cases hp : p.progress with
  | waiting => cases s.index.blobGet p.chunk.sha <;> simp
  | looked handle | ended r => simp [hp]

theorem run_fetches (cfg : WbConfig) {c : Readers Sha} {parts : List (Part Sha)}
    (hr : c.reader = .loading parts) (n : Nat) :
    ∃ ps, run cfg (fetches n) c = { c with reader := .loading ps } ∧
      ∀ j, ps[j]? = parts[j]?.map fun p =>
        if j < n then (p.lookup c.ctx.store).download c.ctx.store else p := by
  induction n with
  | zero => exact ⟨parts, by rw [← hr]; rfl, fun j => by simp⟩
  | succ n ih =>
    obtain ⟨ps, hrun, hps⟩ := ih
    refine ⟨(ps.modify n (Part.lookup c.ctx.store)).modify n (Part.download c.ctx.store), ?_, ?_⟩
    · unfold fetches run at hrun ⊢
      rw [List.range_succ, List.flatMap_append, List.foldl_append, hrun]
      rfl
    · intro j
      rw [List.getElem?_modify, List.getElem?_modify, hps]
      cases parts[j]? with
      | none => rfl
      | some p =>
        simp only [Option.map_some]
        rcases Nat.lt_trichotomy j n with hlt | rfl | hgt
        · simp [Nat.ne_of_gt hlt, hlt, Nat.lt_succ_of_lt hlt]
        · simp
        · simp [Nat.ne_of_lt hgt, Nat.not_lt_of_gt hgt, Nat.not_lt.mpr hgt]

omit [DecidableEq Sha] [Sha256 Sha] in
theorem joined_of_ended (offset fin : Nat) {parts : List (Part Sha)}
    (h : ∀ p ∈ parts, ∃ r, p.progress = .ended r) : ∃ r, joined offset fin parts = some r := by
  induction parts with
  | nil => exact ⟨_, rfl⟩
  | cons p ps ih =>
    obtain ⟨r, hr⟩ := h p List.mem_cons_self
    obtain ⟨rest, hrest⟩ := ih fun q hq => h q (List.mem_cons_of_mem _ hq)
    unfold joined
    rw [hr]
    cases r with
    | error e => exact ⟨_, rfl⟩
    | ok data => exact ⟨_, by rw [hrest]; rfl⟩

/-- A read that has the rows returns with the steps that it still has to take itself. -/
theorem read_returns (cfg : WbConfig) {c : Readers Sha} {parts : List (Part Sha)}
    (hr : c.reader = .loading parts) :
    ∃ r, (run cfg (fetches parts.length ++ [.join]) c).result = some r := by
  obtain ⟨ps, hrun, hps⟩ := run_fetches cfg hr parts.length
  have hended : ∀ p ∈ ps, ∃ r, p.progress = .ended r := by
    intro p hp
    obtain ⟨j, hj⟩ := List.getElem?_of_mem hp
    rw [hps] at hj
    obtain ⟨q, hq, rfl⟩ := Option.map_eq_some_iff.mp hj
    rw [if_pos (List.getElem?_eq_some_iff.mp hq).1]
    exact q.fetch_ended c.ctx.store
  obtain ⟨r, hj⟩ := joined_of_ended c.offset (c.offset + c.size) hended
  refine ⟨r, ?_⟩
  unfold run at hrun ⊢
  rw [List.foldl_append, hrun, List.foldl_cons, List.foldl_nil]
  simp only [Readers.step, hj, Readers.result]

theorem RunInv.result {cfg : WbConfig} {ino : Ino} {gen : Nat} {ref : Bytes} {c : Readers Sha}
    (h : RunInv cfg ino gen ref c) {r : Except (PyErr Sha) Bytes} (hr : c.result = some r) :
    ∃ pre, pre <+: c.acked ∧ r = .ok (pread (FileOp.applyAll pre ref) c.offset c.size) := by
  have hreader := h.reader
  unfold Readers.result at hr
  unfold ReaderOk at hreader
  cases hc : c.reader with
  | calling | querying | loading parts => simp [hc] at hr
  | returned r' =>
    rw [hc] at hr hreader
    obtain rfl := Option.some.inj hr
    obtain ⟨content, ⟨pre, hpre, rfl⟩, hread⟩ := hreader
    exact ⟨pre, hpre, hread⟩

/-- The steps of the read free nothing and flush nothing. -/
theorem sparing_fetches (cfg : WbConfig) (n : Nat) (c : Readers Sha) :
    (∀ l ∈ fetches n ++ [.join], l.Quiet) ∧ Sparing cfg (fetches n ++ [.join]) c := by
  have hreads : ∀ l ∈ fetches n ++ [.join], ∃ i, l = .lookup i ∨ l = .download i ∨ l = .join := by
    intro l hl
    rcases List.mem_append.mp hl with hl | hl
    · obtain ⟨i, -, hi⟩ := List.mem_flatMap.mp hl
      have hi : l = .lookup i ∨ l = .download i := by simpa using hi
      exact ⟨i, hi.imp_right .inl⟩
    · exact ⟨0, .inr (.inr (List.mem_singleton.mp hl))⟩
  generalize fetches n ++ [.join] = ls at hreads ⊢
  constructor
  · intro l hl
    obtain ⟨i, rfl | rfl | rfl⟩ := hreads l hl <;> trivial
  · induction ls generalizing c with
    | nil => trivial
    | cons l ls ih =>
      refine ⟨?_, ih _ fun l' hl' => hreads l' (List.mem_cons_of_mem _ hl')⟩
      obtain ⟨i, rfl | rfl | rfl⟩ := hreads l List.mem_cons_self <;> trivial

/-- In every run that frees no blob the read still needs, and in which no flush meets a stale row,
the read returns what the file held after some of the acknowledged operations; and as soon as it
has the rows, its own steps take it to its end. -/
theorem read_beside_rewrite (cfg : WbConfig) (hinj : Function.Injective (sha256 : Bytes → Sha))
    {s : Store Sha} {ino : Ino} {ref : Bytes} (hs : s.Accounted)
    (hst : s.StoredAs cfg.chunkSize ino ref) (gen offset size : Nat) {ls : List Label}
    (hls : ∀ l ∈ ls, l.Quiet) (hspares : Sparing cfg ls (start ino gen s offset size)) :
    (∀ r, (run cfg ls (start ino gen s offset size)).result = some r →
      ∃ pre, pre <+: (run cfg ls (start ino gen s offset size)).acked ∧
        r = .ok (pread (FileOp.applyAll pre ref) offset size)) ∧
    ∀ parts, (run cfg ls (start ino gen s offset size)).reader = .loading parts →
      ∃ pre, pre <+: (run cfg (ls ++ (fetches parts.length ++ [.join]))
          (start ino gen s offset size)).acked ∧
        (run cfg (ls ++ (fetches parts.length ++ [.join])) (start ino gen s offset size)).result =
          some (.ok (pread (FileOp.applyAll pre ref) offset size)) := by
  have hstart : RunInv cfg ino gen ref (start ino gen s offset size) := .start hs hst offset size
  have h := hstart.run hinj hls hspares
  have hrange := fun ls => Prod.mk.inj (range_run cfg ls (start ino gen s offset size))
  constructor
  · intro r hr
    obtain ⟨pre, hpre, hread⟩ := h.result hr
    rw [(hrange ls).1, (hrange ls).2] at hread
    exact ⟨pre, hpre, hread⟩
  · intro parts hparts
    obtain ⟨hquiet, hsp⟩ := sparing_fetches cfg parts.length
      (run cfg ls (start ino gen s offset size))
    have h' := h.run hinj hquiet hsp
    obtain ⟨r, hr⟩ := read_returns cfg hparts
    have happend : run cfg (ls ++ (fetches parts.length ++ [.join])) (start ino gen s offset size) =
        run cfg (fetches parts.length ++ [.join]) (run cfg ls (start ino gen s offset size)) :=
      List.foldl_append
    obtain ⟨pre, hpre, hread⟩ := h'.result hr
    rw [← happend] at hpre hr hread
    rw [(hrange _).1, (hrange _).2] at hread
    exact ⟨pre, hpre, hr.trans (congrArg some hread)⟩

/-- A read that looks its chunk up before a flush and downloads it during the flush. -/
def readDuringUpload : List Label :=
  [.test fun _ => {}, .query, .openWrite fun _ => {}, .edit (.write 0 [9]) fun _ => {}, .lookup 0,
    .sync, .store {}, .store {}, .pool (0, {}), .download 0, .join]

theorem read_beside_rewrite_upload :
    ∃ pre, pre <+: (run ⟨⟨2, 1, by decide, by decide⟩, 0⟩ readDuringUpload
      (start 2 0 (Store.oneFile ⟨2, 1, by decide, by decide⟩ [1, 2] : Store Bytes) 0 2)).acked ∧
      (.ok [1, 2] : Except (PyErr Bytes) Bytes) = .ok (pread (FileOp.applyAll pre [1, 2]) 0 2) := by
  have hf := Store.oneFile_stored Bytes ⟨2, 1, by decide, by decide⟩ [1, 2]
  have hquiet : ∀ l ∈ readDuringUpload, l.Quiet := by
    have hpool : PoolTick.Quiet False {} := ⟨rfl, nofun⟩
    simp [readDuringUpload, Label.Quiet, Tick.quiet_default, Tick.quiet_default.toQuietAct, hpool,
      FileOp.Nonempty]
  refine (read_beside_rewrite ⟨⟨2, 1, by decide, by decide⟩, 0⟩ (fun _ _ h => h) hf.1 hf.2 0 0 2
    hquiet ?_).1 _ (by decide +kernel)
  have hno : ∀ {c : Readers Bytes}, (∀ sha ∈ c.frees, sha ∉ c.needed) → Spares 2 (.store {}) c := id
  refine ⟨trivial, trivial, trivial, trivial, trivial, fun _ => noStaleRow_of_covered ?_, hno ?_,
    hno ?_, trivial, trivial, trivial, trivial⟩ <;> decide +kernel

/-- The old blob is released between the query of the rows and the lookup of its handle. -/
theorem read_beside_rewrite_released :
    (run ⟨⟨2, 1, by decide, by decide⟩, 0⟩
      ([.test fun _ => {}, .query, .openWrite fun _ => {}, .edit (.write 0 [9]) fun _ => {}, .sync] ++
        List.replicate 5 (.store {}) ++ List.replicate 3 (.pool (1, {})) ++
        List.replicate 4 (.store {}) ++ [.lookup 0, .download 0, .join])
      (start 2 0 (Store.oneFile ⟨2, 1, by decide, by decide⟩ [1, 2] : Store Bytes) 0 2)).result =
      some (.error (.blobNotInIndex [1, 2])) := by
  decide +kernel

end Readers

end Tgfs
