import Tgfs.Cache.Proofs.Frame
import Tgfs.Fuse.FsCore
import Tgfs.Names.Index
import Tgfs.Store.Proofs.Sequential

/-!
# Code that leaves the names alone

The store, the manager and the operations on open files never change an entry, the kind of an
inode or a link count, whether they return or raise.
-/

namespace Tgfs

open Run (Keeps)

variable {Sha : Type} [DecidableEq Sha]

namespace Store

/-- The names in the index. -/
def names (s : Store Sha) : Namespace := s.index.names

theorem exec_names (src : Src Sha) (t : Tick) (a : Act Sha) (s : Store Sha) :
    (exec src t a s).2.names = s.names := by
  cases a with
  | blobDecref sha =>
    change (s.index.blobDecref sha).2.names = s.index.names
    rcases s.index.blobDecref_cases sha with ⟨-, he⟩ | ⟨b, -, -, he⟩ | ⟨b, -, -, he⟩ <;>
      rw [he] <;> rfl
  | setSize ino size => exact Meta.names_setSize _ _ _ _
  | claimKnown sha | download sha | delete sha => simp only [exec]; split <;> first | rfl | (split <;> rfl)
  | result f | cancel f | failed f => simp only [exec]; split <;> rfl
  | _ => rfl

theorem poolStep_names (e : FutId × PoolTick) (s : Store Sha) :
    (poolStep e s).names = s.names := by
  unfold poolStep
  split
  · rfl
  · split <;> first | rfl | (split <;> rfl)

theorem seqRun_names {α : Type} (src : Src Sha) (ts : Nat → Tick) (p : StoreProg Sha α) (n : Nat)
    (s : Store Sha) : (machine.seqRun src ts p n s).2.2.names = s.names :=
  machine.seqRun_keeps names exec_names poolStep_names src ts p n s

end Store

/-! ## The code on one state -/

namespace Wb

def names (c : FileCtx Sha) : Namespace := c.store.names

theorem names_aside : Aside (names : FileCtx Sha → Namespace) where
  call src ts _ p n c := Store.seqRun_names src ts p n c.store
  temp _ _ := rfl
  state _ _ _ := rfl

end Wb

/-! ## The manager -/

namespace Writeback

def names (w : Writeback Sha) : Namespace := w.store.names

omit [DecidableEq Sha] in
theorem keeps_modState (sid : StateId) (f : FileState Sha → FileState Sha) :
    Keeps names (Run.modify (modState sid f) : WbRun Sha Unit) :=
  Run.keeps_modify fun _ => rfl

omit [DecidableEq Sha] in
theorem keeps_onState {α : Type} (sid : StateId) {m : FileRun Sha α} (hm : Keeps Wb.names m) :
    Keeps names (onState sid m) :=
  hm.zoom fun _ _ h => h

omit [DecidableEq Sha] in
theorem openLocked_names (ino : Ino) (w : Writeback Sha) : (openLocked ino w).2.names = w.names := by
  unfold openLocked newState openTemp
  cases w.get ino with
  | some sid => rfl
  | none => cases w.linked ino <;> rfl

omit [DecidableEq Sha] in
theorem releaseLocked_names (cfg : WbConfig) (now : Time) (sid : StateId) (w : Writeback Sha) :
    (releaseLocked cfg now sid w).2.names = w.names := by
  unfold releaseLocked
  dsimp only
  split
  · rfl
  · split <;> rfl

omit [DecidableEq Sha] in
theorem reapLocked_names (sid : StateId) (w : Writeback Sha) :
    (reapLocked sid w).2.names = w.names := by
  unfold reapLocked
  split <;> rfl

variable [Sha256 Sha] (cfg : WbConfig)

omit [Sha256 Sha] in
theorem keeps_callStore {α : Type} (p : StoreProg Sha (Except (PyErr Sha) α)) :
    Keeps names (callStore p) := by
  have hseq : Keeps Store.names (fun (ts : Nat → Tick) n s => Store.machine.seqRun Wb.noSrc ts p n s) :=
    fun ts n s => Store.seqRun_names Wb.noSrc ts p n s
  exact Keeps.zoom hseq fun _ _ h => h

theorem keeps_openFile (ino : Ino) (forWrite : Bool) :
    Keeps (names : Writeback Sha → Namespace) (openFile cfg ino forWrite) := by
  unfold openFile
  apply (Run.keeps_modifyGet (openLocked_names ino)).bind
  intro sid
  split
  · exact (keeps_onState sid (Wb.names_aside.keeps_materialize cfg)).bind fun _ => Run.keeps_pure _
  · exact Run.keeps_pure _

theorem keeps_release (sid : StateId) : Keeps (names : Writeback Sha → Namespace) (release cfg sid) := by
  unfold release
  apply Run.keeps_tick.bind
  intro t
  apply (Run.keeps_modifyGet (releaseLocked_names cfg t.now sid)).bind
  intro last
  split
  · exact (keeps_onState sid (Wb.names_aside.keeps_flushLocked cfg)).bind fun _ => Run.keeps_modify fun _ => rfl
  · exact Run.keeps_pure ()

omit [DecidableEq Sha] [Sha256 Sha] in
theorem keeps_discard (ino : Ino) : Keeps (names : Writeback Sha → Namespace) (discard ino) := by
  unfold discard
  apply (Run.keeps_modifyGet fun _ => rfl).bind
  intro sid
  cases sid with
  | none => exact Run.keeps_pure ()
  | some sid => exact (keeps_modState sid _).bind fun _ => Run.keeps_modify fun _ => rfl

theorem keeps_reapState (force : Bool) (sid : StateId) :
    Keeps (names : Writeback Sha → Namespace) (reapState cfg force sid) := by
  unfold reapState
  refine Keeps.bind (Keeps.tryCatch ?_ fun e => ?_) fun raised => ?_
  · exact (keeps_onState sid (Wb.names_aside.keeps_flushLocked cfg)).bind fun _ => Run.keeps_pure _
  · apply Run.keeps_tick.bind
    intro t
    apply (keeps_modState sid _).bind
    intro _
    split
    · exact Run.keeps_raise e
    · exact Run.keeps_pure _
  · cases raised with
    | some e => exact Run.keeps_pure _
    | none =>
      apply (Run.keeps_modifyGet (reapLocked_names sid)).bind
      intro done
      split
      · exact (Run.keeps_modify (g := closeState sid) fun _ => rfl).bind fun _ => Run.keeps_pure _
      · exact Run.keeps_pure _

theorem keeps_reapEach (force : Bool) (sids : List StateId) :
    Keeps (names : Writeback Sha → Namespace) (reapEach cfg force sids) := by
  induction sids with
  | nil => exact Run.keeps_pure _
  | cons sid sids ih =>
    exact (keeps_reapState cfg force sid).bind fun _ => ih.bind fun _ => Run.keeps_pure _

theorem keeps_reapOnce (force : Bool) : Keeps (names : Writeback Sha → Namespace) (reapOnce cfg force) :=
  Run.keeps_tick.bind fun _ => (Run.keeps_gets _).bind fun _ => keeps_reapEach cfg force _

theorem keeps_truncatePath (ino : Ino) (length : Nat) :
    Keeps (names : Writeback Sha → Namespace) (truncatePath cfg ino length) := by
  unfold truncatePath
  apply (keeps_openFile cfg ino true).bind
  intro sid
  refine Keeps.andFinally ?_ (keeps_release cfg sid)
  exact (keeps_onState sid (Wb.names_aside.keeps_truncate cfg length)).bind fun _ =>
    keeps_onState sid (Wb.names_aside.keeps_flush cfg)

end Writeback

end Tgfs
