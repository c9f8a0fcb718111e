import Tgfs.Store.Methods

/-!
# Which actions a method performs

For a property `P` of actions, each part of a method performs only actions with `P` as soon as
the kinds of actions it is made of have it.
-/

namespace Tgfs

namespace Store

variable {Sha : Type} {P : Act Sha → Prop}

section Waiting

variable (hresult : ∀ f, P (.result f)) (hwait : ∀ fs, P (.waitFirst fs))
include hresult

theorem all_results (fs : List FutId) : (results fs : StoreProg Sha _).All P := by
  induction fs with
  | nil => trivial
  | cons f fs ih =>
    refine ⟨hresult f, fun e => ?_⟩
    cases e with
    | some e => trivial
    | none => exact ih

include hwait

theorem all_waitSlot (workers k : Nat) (fs : List FutId) :
    (waitSlot workers k fs : StoreProg Sha _).All P := by
  induction k generalizing fs with
  | zero => trivial
  | succ k ih =>
    unfold waitSlot
    split
    case isFalse => trivial
    case isTrue =>
      refine ⟨hwait fs, fun done => (all_results hresult done).bind fun e => ?_⟩
      cases e with
      | some e => trivial
      | none => exact ih _

variable [DecidableEq Sha] (hclaim : ∀ sha, P (.claimKnown sha))
include hclaim

theorem all_acquire (workers : Nat) {sha : Sha} {data : Bytes} (hsubmit : P (.submit sha data))
    (r : Refs Sha) : (acquire workers sha data r).All P := by
  unfold acquire
  split
  case isTrue => trivial
  case isFalse =>
    refine ⟨hclaim sha, fun known => ?_⟩
    cases known with
    | true => trivial
    | false =>
      refine (all_waitSlot hresult hwait _ _ _).bind fun p => ?_
      rcases p with ⟨fs, e | e⟩
      · exact ⟨hsubmit, fun _ => trivial⟩
      · trivial

theorem all_putLoop [Sha256 Sha] (hsubmit : ∀ sha data, P (.submit sha data))
    (hread : ∀ pos want, P (.read pos want)) {cfg : StoreConfig}
    {ino : Ino} {size : Nat} {dirty : Option (Finset Nat)} {old : List (Chunk Sha)}
    (st : PutState Sha) : (putLoop cfg ino size dirty old st).All P := by
  induction hk : size - st.off using Nat.strong_induction_on generalizing st with
  | _ k ih =>
    subst hk
    unfold putLoop
    split
    case isFalse => trivial
    case isTrue hoff =>
      have hcs := cfg.chunkSize_pos
      split
      case h_1 row _ =>
        refine ⟨hclaim row.sha, fun (known : Bool) => ?_⟩
        cases known with
        | false => trivial
        | true => exact ih _ (by simp only; omega) _ rfl
      case h_2 =>
        refine ⟨hread _ _, fun (got : Except (PyErr Sha) Bytes) => ?_⟩
        cases got with
        | error e => trivial
        | ok data =>
          simp only
          split
          case isTrue => trivial
          case isFalse hdata =>
            have := List.length_pos_iff.mpr hdata
            refine (all_acquire hresult hwait hclaim _ (hsubmit _ _) _).bind fun acq => ?_
            rcases acq with ⟨refs, e | e⟩
            · exact ih _ (by simp only; omega) _ rfl
            · trivial

end Waiting

theorem all_increfAll (hincref : ∀ sha, P (.blobIncref sha)) (hs : List Sha) :
    (increfAll hs : StoreProg Sha _).All P := by
  induction hs with
  | nil => trivial
  | cons sha hs ih => exact ⟨hincref sha, fun _ => ih⟩

theorem all_cancelAll (hcancel : ∀ f, P (.cancel f)) (fs : List FutId) :
    (cancelAll fs : StoreProg Sha _).All P := by
  induction fs with
  | nil => trivial
  | cons f fs ih => exact ⟨hcancel f, fun _ => ih⟩

section Releasing

variable (hdecref : ∀ sha, P (.blobDecref sha)) (hdelete : ∀ handle, P (.delete handle))
include hdecref hdelete

theorem all_release (sha : Sha) : (release sha : StoreProg Sha _).All P := by
  refine ⟨hdecref sha, fun handle => ?_⟩
  cases handle with
  | none => trivial
  | some h => exact ⟨hdelete h, fun _ => trivial⟩

theorem all_releaseThen {p : StoreProg Sha (Option (PyErr Sha))} (hp : p.All P) (sha : Sha) :
    (do
      match ← release sha with
      | some e => pure (some e)
      | none => p : StoreProg Sha _).All P := by
  refine (all_release hdecref hdelete sha).bind fun e => ?_
  cases e with
  | some e => trivial
  | none => exact hp

theorem all_releaseAll (hs : List Sha) : (releaseAll hs : StoreProg Sha _).All P := by
  induction hs with
  | nil => trivial
  | cons sha hs ih => exact all_releaseThen hdecref hdelete ih sha

variable [DecidableEq Sha] (hfailed : ∀ f, P (.failed f))
include hfailed

theorem all_releaseAcquired (r : Refs Sha) (hs : List Sha) :
    (releaseAcquired r hs : StoreProg Sha _).All P := by
  induction hs with
  | nil => trivial
  | cons sha hs ih =>
    unfold releaseAcquired
    cases Refs.fut r sha with
    | none => exact all_releaseThen hdecref hdelete ih sha
    | some f =>
      refine ⟨hfailed f, fun (skip : Bool) => ?_⟩
      cases skip with
      | true => exact ih
      | false => exact all_releaseThen hdecref hdelete ih sha

theorem all_rollback (hcancel : ∀ f, P (.cancel f)) (hwait : ∀ fs, P (.waitAll fs))
    (r : Refs Sha) : (rollback r : StoreProg Sha _).All P :=
  (all_cancelAll hcancel _).bind fun _ =>
    ⟨hwait _, fun _ => all_releaseAcquired hdecref hdelete hfailed _ _⟩

end Releasing

section Reading

variable [DecidableEq Sha] [Sha256 Sha] (hblob : ∀ sha, P (.blobGet sha))
  (hdownload : ∀ handle, P (.download handle))
include hblob hdownload

theorem all_fetch (sha : Sha) : (fetch sha : StoreProg Sha _).All P := by
  refine ⟨hblob sha, fun (row : Option Blob) => ?_⟩
  cases row with
  | none => trivial
  | some b =>
    refine ⟨hdownload _, fun (got : Except (PyErr Sha) Bytes) => ?_⟩
    cases got with
    | error e => trivial
    | ok data =>
      change Prog.All _ (if sha256 data = sha then pure (Except.ok data) else
        pure (Except.error (PyErr.integrityCheck sha)))
      split <;> trivial

theorem all_readParts (offset fin : Nat) (cs : List (Chunk Sha)) :
    (readParts offset fin cs : StoreProg Sha _).All P := by
  induction cs with
  | nil => trivial
  | cons c cs ih =>
    apply (all_fetch hblob hdownload c.sha).bind
    intro got
    cases got with
    | error e => trivial
    | ok data =>
      apply ih.bind
      intro rest
      cases rest <;> trivial

theorem all_readRange (hchunks : ∀ ino, P (.getChunks ino)) (ino : Ino) (offset length : Nat) :
    (readRange ino offset length : StoreProg Sha _).All P := by
  unfold readRange
  split
  · trivial
  · exact ⟨hchunks ino, fun chunks => all_readParts hblob hdownload _ _ _⟩

end Reading

/-! ## `put_file` -/

section PutFile

variable [DecidableEq Sha] [Sha256 Sha] (cfg : StoreConfig) (ino : Ino) (size : Nat)
  (dirty : Option (Finset Nat))

/-- The action writes no rows and no inode row but those of `ino`. -/
def Only : Act Sha → Prop
  | .setChunks j _ | .setSize j _ => j = ino
  | _ => True

variable {P : Act Sha → Prop} in
theorem all_putBody (hresult : ∀ f, P (.result f)) (hwait : ∀ fs, P (.waitFirst fs))
    (hclaim : ∀ sha, P (.claimKnown sha)) (hsubmit : ∀ sha data, P (.submit sha data))
    (hread : ∀ pos want, P (.read pos want)) (hincref : ∀ sha, P (.blobIncref sha))
    (old : List (Chunk Sha)) : (putBody cfg ino size dirty old).All P := by
  apply (all_putLoop hresult hwait hclaim hsubmit hread _).bind
  intro p
  rcases p with ⟨st, e | e⟩
  · apply (all_results hresult _).bind
    intro e
    cases e with
    | some e => trivial
    | none => exact (all_increfAll hincref _).bind fun _ => trivial
  · trivial

theorem only_putBody (old : List (Chunk Sha)) :
    (putBody cfg ino size dirty old).All (Only ino) :=
  all_putBody cfg ino size dirty (fun _ => trivial) (fun _ => trivial) (fun _ => trivial)
    (fun _ _ => trivial) (fun _ _ => trivial) (fun _ => trivial) old

theorem only_putFile : (putFile cfg ino size dirty : StoreProg Sha _).All (Only ino) := by
  refine ⟨trivial, fun old => (only_putBody cfg ino size dirty old).bind fun p => ?_⟩
  rcases p with ⟨st, e | e⟩
  · refine ⟨rfl, fun _ => ⟨rfl, fun _ => ?_⟩⟩
    apply (all_releaseAll (fun _ => trivial) (fun _ => trivial) _).bind
    intro e
    cases e <;> trivial
  · apply (all_rollback (fun _ => trivial) (fun _ => trivial) (fun _ => trivial)
      (fun _ => trivial) (fun _ => trivial) _).bind
    intro e
    cases e <;> trivial

end PutFile

end Store

end Tgfs
