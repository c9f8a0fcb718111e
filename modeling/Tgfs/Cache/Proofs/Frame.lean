import Tgfs.Cache.Proofs.Robust

/-!
# What code on an open state never reaches

The methods under a state's lock work on the store, on the temp file and on some fields of the
state. What depends on none of these is as it was, whether they return or raise.
-/

namespace Tgfs

open Run (Keeps Preserves)

namespace Wb

variable {Sha γ : Type} [DecidableEq Sha]

/-- `f` shows nothing that the methods of the store, a change of the temp file or a change of the
fields that are not frozen could alter. -/
structure Aside (f : FileCtx Sha → γ) : Prop where
  call : ∀ (src : Src Sha) (ts : Nat → Tick) {α : Type} (p : StoreProg Sha α) (n : Nat)
    (c : FileCtx Sha), f { c with store := (Store.machine.seqRun src ts p n c.store).2.2 } = f c
  temp : ∀ (c : FileCtx Sha) (temp : Bytes), f { c with temp := temp } = f c
  state : ∀ (c : FileCtx Sha) {st : FileState Sha}, st.frozen = c.st.frozen →
    f { c with st := st } = f c

theorem frozen_aside : Aside fun c : FileCtx Sha => c.st.frozen where
  call _ _ _ _ _ _ := rfl
  temp _ _ := rfl
  state _ _ h := h

omit [DecidableEq Sha] in
theorem preserves_checkOpen {J : FileCtx Sha → Prop} :
    Preserves J (checkOpen : FileRun Sha Unit) :=
  (Run.preserves_gets _).bind fun _ => Run.preserves_require _ _

variable [Sha256 Sha]

/-! ## Code that does not modify the file -/

/-- `J` survives the downloads of the store, a change of the temp file and a change of the fields
that are not frozen and say nothing about whether the file is modified. -/
structure Passive (J : FileCtx Sha → Prop) : Prop where
  fetch : ∀ (ts : Nat → Tick) (n : Nat) (sha : Sha) (c : FileCtx Sha), J c →
    J { c with store := (Store.machine.seqRun noSrc ts (Store.fetch sha) n c.store).2.2 }
  readRange : ∀ (ts : Nat → Tick) (n offset length : Nat) (c : FileCtx Sha) (ino : Ino), J c →
    J { c with store :=
      (Store.machine.seqRun noSrc ts (Store.readRange ino offset length) n c.store).2.2 }
  temp : ∀ (c : FileCtx Sha) (temp : Bytes), J c → J { c with temp := temp }
  state : ∀ (c : FileCtx Sha) {st : FileState Sha}, st.frozen = c.st.frozen →
    st.dirty = c.st.dirty → J c → J { c with st := st }

section Passive

variable {J : FileCtx Sha → Prop} (hJ : Passive J)
include hJ

theorem Passive.setState {g : FileState Sha → FileState Sha}
    (hg : ∀ st, (g st).frozen = st.frozen) (hd : ∀ st, (g st).dirty = st.dirty) :
    Preserves J (setState g) :=
  Run.preserves_modify fun c => hJ.state c (hg c.st) (hd c.st)

theorem Passive.tempWrite (off : Nat) (data : Bytes) : Preserves J (tempWrite off data) :=
  preserves_checkOpen.bind fun _ => Run.preserves_modify fun c => hJ.temp c _

theorem Passive.tempTruncate (n : Nat) : Preserves J (tempTruncate n) :=
  preserves_checkOpen.bind fun _ => Run.preserves_modify fun c => hJ.temp c _

theorem Passive.loadEach (is : List Nat) : Preserves J (loadEach is) := by
  induction is with
  | nil => exact Run.preserves_pure ()
  | cons i is ih =>
    unfold Wb.loadEach
    refine Preserves.bind (Run.preserves_gets _) fun st => ?_
    cases st.base[i]? with
    | none => exact Run.preserves_pure ()
    | some b =>
      have hfetch : Preserves J (call noSrc (Store.fetch b.sha)) :=
        fun ts n c => hJ.fetch ts n b.sha c
      refine Preserves.bind hfetch fun data => ?_
      refine Preserves.bind (hJ.tempWrite _ _) fun _ => ?_
      exact Preserves.bind (hJ.setState (fun _ => rfl) fun _ => rfl) fun _ => ih

theorem Passive.load (lo hi : Nat) (skip : Finset Nat) : Preserves J (load lo hi skip) :=
  (Run.preserves_gets _).bind fun _ => hJ.loadEach _

theorem Passive.materialize (cfg : WbConfig) : Preserves J (materialize cfg) := by
  unfold Wb.materialize
  refine Preserves.bind (Run.preserves_gets _) fun st => ?_
  split
  · exact Run.preserves_pure ()
  · refine Preserves.bind (Run.preserves_gets _) fun rows => ?_
    refine Preserves.bind (Run.preserves_gets _) fun inode => ?_
    cases inode with
    | none => exact Run.preserves_raise _
    | some n =>
      dsimp only
      refine Preserves.bind (hJ.setState (fun _ => rfl) fun _ => rfl) fun _ => ?_
      split
      · exact hJ.setState (fun _ => rfl) fun _ => rfl
      · exact (hJ.load _ _ _).bind fun _ =>
          Preserves.bind (hJ.setState (fun _ => rfl) fun _ => rfl) fun _ =>
            hJ.setState (fun _ => rfl) fun _ => rfl

theorem Passive.prepare (cfg : WbConfig) (start fin : Nat) (overwrite : Bool) :
    Preserves J (prepare cfg start fin overwrite) := by
  unfold Wb.prepare
  refine Preserves.bind (Run.preserves_gets _) fun st => ?_
  dsimp only
  split
  · exact Run.preserves_pure ()
  · exact Preserves.bind (hJ.setState (fun _ => rfl) fun _ => rfl) fun _ => hJ.load _ _ _

theorem Passive.touch (b : Nat) : Preserves J (touch b) :=
  (hJ.load _ _ _).bind fun _ => hJ.setState (fun _ => rfl) fun _ => rfl

theorem Passive.grow (cfg : WbConfig) (size : Nat) : Preserves J (grow cfg size) := by
  unfold Wb.grow
  refine Preserves.bind (Run.preserves_gets _) fun st => ?_
  dsimp only
  split
  · exact Run.preserves_pure ()
  · split
    · exact (hJ.touch _).bind fun _ => hJ.setState (fun _ => rfl) fun _ => rfl
    · exact hJ.setState (fun _ => rfl) fun _ => rfl

theorem Passive.shrink (cfg : WbConfig) (length : Nat) : Preserves J (shrink cfg length) := by
  unfold Wb.shrink
  refine Preserves.bind (Run.preserves_gets _) fun st => ?_
  dsimp only
  split
  · exact (hJ.touch _).bind fun _ => hJ.setState (fun _ => rfl) fun _ => rfl
  · exact hJ.setState (fun _ => rfl) fun _ => rfl

theorem Passive.read (cfg : WbConfig) (size offset : Nat) : Preserves J (read cfg size offset) := by
  unfold Wb.read
  refine Preserves.bind (Run.preserves_gets _) fun st => ?_
  split
  · dsimp only
    split
    · exact Run.preserves_pure _
    · exact (hJ.prepare _ _ _ _).bind fun _ => preserves_checkOpen.bind fun _ =>
        Run.preserves_gets _
  · exact fun ts n c => hJ.readRange ts n offset size c st.ino

/-- Code that sets `dirty`, where `J` does not depend on it. -/
theorem Passive.write (hset : ∀ g : FileState Sha → FileState Sha,
    (∀ st, (g st).frozen = st.frozen) → Preserves J (Wb.setState g))
    (cfg : WbConfig) (data : Bytes) (offset : Nat) : Preserves J (write cfg data offset) :=
  (hJ.materialize _).bind fun _ => (hJ.prepare _ _ _ _).bind fun _ =>
    (hJ.grow _ _).bind fun _ => (hJ.tempWrite _ _).bind fun _ =>
      Preserves.bind (hset _ fun _ => rfl) fun _ => Run.preserves_pure _

theorem Passive.truncate (hset : ∀ g : FileState Sha → FileState Sha,
    (∀ st, (g st).frozen = st.frozen) → Preserves J (Wb.setState g))
    (cfg : WbConfig) (length : Nat) : Preserves J (truncate cfg length) := by
  have hrest : Preserves J (do
      Wb.tempTruncate length
      Wb.setState fun st => { st with dirty := true }) :=
    (hJ.tempTruncate _).bind fun _ => hset _ fun _ => rfl
  unfold Wb.truncate
  refine Preserves.bind (hJ.materialize _) fun _ => ?_
  refine Preserves.bind (Run.preserves_gets _) fun st => ?_
  dsimp only
  split
  · exact (hJ.shrink _ _).bind fun _ => hrest
  · exact (hJ.grow _ _).bind fun _ => hrest

end Passive

/-! ## What is out of reach -/

variable {f : FileCtx Sha → γ} (hf : Aside f)

include hf

theorem Aside.passive (v : γ) : Passive fun c => f c = v where
  fetch ts n sha c h := (hf.call noSrc ts (Store.fetch sha) n c).trans h
  readRange ts n offset length c ino h :=
    (hf.call noSrc ts (Store.readRange ino offset length) n c).trans h
  temp c temp h := (hf.temp c temp).trans h
  state c _ hst _ h := (hf.state c hst).trans h

omit [Sha256 Sha] in
theorem Aside.keeps_setState {g : FileState Sha → FileState Sha}
    (hg : ∀ st, (g st).frozen = st.frozen) : Keeps f (setState g) :=
  Run.keeps_modify fun c => hf.state c (hg c.st)

omit [Sha256 Sha] in
theorem Aside.preserves_setState (v : γ) (g : FileState Sha → FileState Sha)
    (hg : ∀ st, (g st).frozen = st.frozen) : Preserves (fun c => f c = v) (setState g) :=
  Run.preserves_modify fun c h => (hf.state c (hg c.st)).trans h

omit [Sha256 Sha] in
theorem Aside.keeps_call {α : Type} (src : Src Sha)
    (p : StoreProg Sha (Except (PyErr Sha) α)) : Keeps f (Wb.call src p) :=
  fun ts n c => hf.call src ts p n c

theorem Aside.keeps_materialize (cfg : WbConfig) : Keeps f (materialize cfg) :=
  Run.keeps_of_preserves fun v => (hf.passive v).materialize cfg

theorem Aside.keeps_read (cfg : WbConfig) (size offset : Nat) : Keeps f (read cfg size offset) :=
  Run.keeps_of_preserves fun v => (hf.passive v).read cfg size offset

theorem Aside.keeps_write (cfg : WbConfig) (data : Bytes) (offset : Nat) :
    Keeps f (write cfg data offset) :=
  Run.keeps_of_preserves fun v =>
    (hf.passive v).write (hf.preserves_setState v) cfg data offset

theorem Aside.keeps_truncate (cfg : WbConfig) (length : Nat) : Keeps f (truncate cfg length) :=
  Run.keeps_of_preserves fun v => (hf.passive v).truncate (hf.preserves_setState v) cfg length

theorem Aside.keeps_flushLocked (cfg : WbConfig) : Keeps f (flushLocked cfg) := by
  unfold flushLocked
  apply (Run.keeps_gets _).bind
  intro st
  split
  · apply (keeps_tempTruncate hf.temp _).bind
    intro _
    apply (Run.keeps_gets _).bind
    intro temp
    exact (hf.keeps_call _ _).bind fun _ => (Run.keeps_gets _).bind fun _ =>
      hf.keeps_setState fun _ => rfl
  · exact Run.keeps_pure ()

theorem Aside.keeps_flush (cfg : WbConfig) : Keeps f (flush cfg) := by
  unfold flush
  split
  · exact Run.keeps_pure ()
  · exact hf.keeps_flushLocked cfg

end Wb

end Tgfs
