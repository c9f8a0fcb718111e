import Tgfs.Cache.Proofs.Robust

/-!
# Reads on two stores

A read of an open state depends on the state, on its temp file, and on the content behind the
rows of its inode. `Twin` says that two contexts agree on these; on such contexts a read runs
alike, tick for tick.
-/

namespace Tgfs

open Run (Wp)
open Wb

variable {Sha : Type} [DecidableEq Sha] [Sha256 Sha]

structure Twin (c c' : FileCtx Sha) : Prop where
  st : c'.st = c.st
  temp : c'.temp = c.temp
  rows : c'.store.index.getChunks c.st.ino = c.store.index.getChunks c.st.ino
  data : ∀ row ∈ c.store.index.getChunks c.st.ino,
    c'.store.blobData row.sha = c.store.blobData row.sha
  sound : c.Sound
  sound' : c'.Sound

/-- The code does the same on twins, and leaves twins. -/
def Alike {α : Type} (m : FileRun Sha α) : Prop :=
  ∀ (ts : Nat → Tick) (n : Nat) (c c' : FileCtx Sha), Twin c c' →
    (m ts n c').1 = (m ts n c).1 ∧ (m ts n c').2.1 = (m ts n c).2.1 ∧
      Twin (m ts n c).2.2 (m ts n c').2.2

section Rules

variable {α β : Type}

theorem Alike.pure (a : α) : Alike (pure a : FileRun Sha α) :=
  fun _ _ _ _ h => ⟨rfl, rfl, h⟩

theorem Alike.raise (e : PyErr Sha) : Alike (Run.raise e : FileRun Sha α) :=
  fun _ _ _ _ h => ⟨rfl, rfl, h⟩

theorem Alike.getState : Alike (getState : FileRun Sha (FileState Sha)) :=
  fun _ _ _ _ h => ⟨congrArg Except.ok h.st, rfl, h⟩

theorem Alike.bind {m : FileRun Sha α} {f : α → FileRun Sha β} (hm : Alike m)
    (hf : ∀ a, Alike (f a)) : Alike (m >>= f) := by
  intro ts n c c' h
  obtain ⟨hr, hn, htwin⟩ := hm ts n c c' h
  rw [Run.bind_run, Run.bind_run]
  rcases hrun : m ts n c with ⟨r, n₁, c₁⟩
  rcases hrun' : m ts n c' with ⟨r', n₁', c₁'⟩
  rw [hrun, hrun'] at hr hn htwin
  dsimp only at hr hn htwin
  subst hr hn
  cases r' with
  | error e => exact ⟨rfl, rfl, htwin⟩
  | ok a => exact hf a ts _ _ _ htwin

theorem Alike.ite {p : Prop} [Decidable p] {m m' : FileRun Sha α} (hm : Alike m)
    (hm' : Alike m') : Alike (if p then m else m') := by
  split
  · exact hm
  · exact hm'

theorem Alike.setState {f : FileState Sha → FileState Sha}
    (hf : ∀ st, (f st).ino = st.ino ∧ (f st).base = st.base) : Alike (setState f) := by
  intro ts n c c' h
  have hsound : ∀ c : FileCtx Sha, c.Sound → FileCtx.Sound { c with st := f c.st } := by
    intro c hc
    refine ⟨hc.books, fun b hb => ?_⟩
    dsimp only at hb ⊢
    rw [(hf c.st).2] at hb
    rw [(hf c.st).1]
    exact hc.backed b hb
  refine ⟨rfl, rfl, congrArg f h.st, h.temp, ?_, ?_, hsound c h.sound, hsound c' h.sound'⟩
  · change c'.store.index.getChunks (f c.st).ino = c.store.index.getChunks (f c.st).ino
    rw [(hf c.st).1]
    exact h.rows
  · change ∀ row ∈ c.store.index.getChunks (f c.st).ino, _
    rw [(hf c.st).1]
    exact h.data

theorem Alike.setTemp (f : Bytes → Bytes) :
    Alike (Run.modify fun c => { c with temp := f c.temp } : FileRun Sha Unit) := by
  intro ts n c c' h
  exact ⟨rfl, rfl, h.st, congrArg f h.temp, h.rows, h.data, ⟨h.sound.books, h.sound.backed⟩,
    ⟨h.sound'.books, h.sound'.backed⟩⟩

end Rules

theorem alike_checkOpen : Alike (checkOpen : FileRun Sha Unit) := by
  refine .bind .getState fun st => ?_
  unfold Run.require
  exact .ite (.pure ()) (.raise _)

theorem alike_tempWrite (off : Nat) (data : Bytes) :
    Alike (tempWrite off data : FileRun Sha Unit) :=
  alike_checkOpen.bind fun _ => .setTemp (pwrite · off data)

theorem alike_tempRead (off n : Nat) : Alike (tempRead off n : FileRun Sha Bytes) := by
  refine alike_checkOpen.bind fun _ => ?_
  intro ts k c c' h
  refine ⟨congrArg Except.ok ?_, rfl, h⟩
  dsimp only
  rw [h.temp]

omit [Sha256 Sha] in
theorem call_run {src : Src Sha} {α : Type} {p : StoreProg Sha (Except (PyErr Sha) α)}
    {ts : Nat → Tick} {n n' : Nat} {c : FileCtx Sha} {r : Except (PyErr Sha) α}
    (h : Store.machine.seqRun src ts p n c.store = (r, n', c.store)) :
    call src p ts n c = (r, n', c) := by
  unfold call Run.zoom
  simp only [h]

/-- A chunk that the state refers to has the same content in both stores. -/
theorem Twin.fetch {c c' : FileCtx Sha} (h : Twin c c') {b : BaseChunk Sha} (hb : b ∈ c.st.base)
    (ts : Nat → Tick) (n : Nat) : ∃ r, call noSrc (Store.fetch b.sha) ts n c = (r, n + 2, c) ∧
      call noSrc (Store.fetch b.sha) ts n c' = (r, n + 2, c') := by
  obtain ⟨row, hrow, hsha⟩ := h.sound.backed b hb
  obtain ⟨data, hdata, -⟩ := h.sound.books.blobData_row hrow
  have hdata' := (h.data row hrow).trans hdata
  rw [hsha] at hdata hdata'
  refine ⟨if (ts (n + 1)).downloadFails then .error .downloadFailed else .ok data, ?_, ?_⟩
  · exact call_run (Store.seqRun_fetch h.sound.books.readable hdata n)
  · exact call_run (Store.seqRun_fetch h.sound'.books.readable hdata' n)

theorem alike_loadEach (is : List Nat) : Alike (loadEach is : FileRun Sha Unit) := by
  induction is with
  | nil => exact .pure ()
  | cons i is ih =>
    intro ts n c c' h
    have hrest : ∀ (b : BaseChunk Sha) (data : Bytes), Alike (do
        tempWrite b.off data
        setState fun st => { st with loaded := insert i st.loaded }
        loadEach is : FileRun Sha Unit) := by
      intro b data
      exact (alike_tempWrite b.off data).bind fun _ =>
        .bind (.setState fun _ => ⟨rfl, rfl⟩) fun _ => ih
    unfold loadEach
    rw [getState, Run.gets_bind_run, Run.gets_bind_run, h.st]
    cases hb : c.st.base[i]? with
    | none => exact ⟨rfl, rfl, h⟩
    | some b =>
      obtain ⟨r, hr, hr'⟩ := h.fetch (List.mem_of_getElem? hb) ts n
      simp only [Run.bind_run, hr, hr']
      cases r with
      | error e => exact ⟨rfl, rfl, h⟩
      | ok data => exact hrest b data ts (n + 2) c c' h

theorem alike_load (lo hi : Nat) (skip : Finset Nat) :
    Alike (load lo hi skip : FileRun Sha Unit) :=
  .bind .getState fun _ => alike_loadEach _

theorem alike_prepare (cfg : WbConfig) (start fin : Nat) (overwrite : Bool) :
    Alike (prepare cfg start fin overwrite : FileRun Sha Unit) := by
  refine .bind .getState fun st => .ite (.pure ()) (.bind (.setState fun _ => ⟨rfl, rfl⟩) ?_)
  exact fun _ => alike_load _ _ _

theorem alike_readRange (offset length : Nat) :
    Alike (do
      let st ← getState
      call noSrc (Store.readRange st.ino offset length) : FileRun Sha Bytes) := by
  intro ts n c c' h
  obtain ⟨r, n', hrun, hrun', -⟩ : ∃ r n', Store.machine.seqRun noSrc ts
      (Store.readRange c.st.ino offset length) n c.store = (r, n', c.store) ∧ _ ∧ _ :=
    Store.seqRun_readRange h.sound.books h.sound'.books h.rows h.data offset length n
  have hc := call_run hrun
  have hc' := call_run hrun'
  rw [← h.st] at hc'
  rw [Run.bind_run_ok (m := getState) rfl, Run.bind_run_ok (m := getState) rfl, hc, hc']
  exact ⟨rfl, rfl, h⟩

/-- Reading from twins. -/
theorem alike_read (cfg : WbConfig) (size offset : Nat) :
    Alike (read cfg size offset : FileRun Sha Bytes) := by
  intro ts n c c' h
  have hread : ∀ c : FileCtx Sha, read cfg size offset ts n c =
      (if c.st.materialized then
        if min (offset + size) c.st.size ≤ offset then pure []
        else do
          prepare cfg offset (min (offset + size) c.st.size) false
          tempRead offset (min (offset + size) c.st.size - offset)
      else do
        let st ← getState
        call noSrc (Store.readRange st.ino offset size) : FileRun Sha Bytes) ts n c := by
    intro c
    change (if c.st.materialized then _ else _ : FileRun Sha Bytes) ts n c = _
    split <;> rfl
  rw [hread c, hread c', h.st]
  refine Alike.ite (.ite (.pure []) ?_) (alike_readRange offset size) ts n c c' h
  exact (alike_prepare cfg _ _ _).bind fun _ => alike_tempRead _ _

end Tgfs
