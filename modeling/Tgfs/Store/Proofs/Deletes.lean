import Tgfs.Store.Proofs.Failing

/-!
# Deletes that raise

`Backend.delete` is meant to be best-effort, but `_release` lets its error out. No future of a
`put_file` ever comes to a delete, so the deletes that matter are those of the calling thread:
the first that raises ends the call with its error and leaves the rest of the loop undone.
-/

namespace Tgfs

namespace Machine

variable {A : Type} {R : A → Type} {S T E X α : Type} {M : Machine A R S T E X}

/-- Alarms are only compared where the machine gives the reply. -/
theorem Alarmed.mono {alarm alarm' : (a : A) → R a → Prop} {x : X} {ts : Nat → T}
    (himp : ∀ t a s, alarm a (M.exec x t a s).1 → alarm' a (M.exec x t a s).1) {p : Prog A R α}
    {n : Nat} {s : S} (h : M.Alarmed alarm x ts p n s) : M.Alarmed alarm' x ts p n s := by
  induction p generalizing n s with
  | ret a => exact h
  | act a k ih =>
    rcases h with h | h
    · exact .inl (himp _ _ _ h)
    · exact .inr (ih _ h)

end Machine

namespace Store

variable {Sha : Type} [DecidableEq Sha] [Sha256 Sha] {src : Src Sha} {ts : Nat → Tick}
  {cfg : StoreConfig} {ino : Ino} {size : Nat} {dirty : Option (Finset Nat)} {s : Store Sha}

/-! ## A delete that raises ends the call -/

/-- The delete raised its own error. -/
def DeleteFailed : (a : Act Sha) → a.Reply → Prop
  | .delete _, (e : Option (PyErr Sha)) => e = some .deleteFailed
  | _, _ => False

omit [Sha256 Sha] in
theorem deleteFailed_exec (t : Tick) (a : Act Sha) (s : Store Sha)
    (h : DeleteRaised a (exec src t a s).1) : DeleteFailed a (exec src t a s).1 := by
  cases a with
  | delete hd =>
    simp only [exec] at h ⊢
    split at h
    case isTrue hf =>
      rw [if_pos hf]
      rfl
    case isFalse => exact absurd rfl h
  | _ => exact h

section Heeds

omit [DecidableEq Sha] [Sha256 Sha]

theorem fails_release (sha : Sha) :
    (release sha : StoreProg Sha _).Heeds DeleteFailed (· = some .deleteFailed) := by
  refine fun handle => ⟨False.elim, ?_⟩
  cases handle with
  | none => trivial
  | some h => exact fun e => ⟨fun he => he, trivial⟩

/-- A loop that stops at the first error hands it on. -/
theorem fails_then {p q : StoreProg Sha (Option (PyErr Sha))}
    (hp : p.Heeds DeleteFailed (· = some .deleteFailed))
    (hq : q.Heeds DeleteFailed (· = some .deleteFailed)) :
    (p.bind fun e => match e with
      | some e => pure (some e)
      | none => q).Heeds DeleteFailed (· = some .deleteFailed) := by
  apply hp.bind
  · intro e he
    subst he
    exact rfl
  · intro e
    cases e with
    | some e => trivial
    | none => exact hq

theorem fails_releaseAll (hs : List Sha) :
    (releaseAll hs : StoreProg Sha _).Heeds DeleteFailed (· = some .deleteFailed) := by
  induction hs with
  | nil => trivial
  | cons sha hs ih => exact fails_then (fails_release sha) ih

/-- What ends with the loop's error, or else goes on to return. -/
theorem fails_result {p : StoreProg Sha (Option (PyErr Sha))}
    {q : StoreProg Sha (Except (PyErr Sha) Unit)}
    (hp : p.Heeds DeleteFailed (· = some .deleteFailed))
    (hq : q.Heeds DeleteFailed (· = .error .deleteFailed)) :
    (p.bind fun e => match e with
      | some e => pure (.error e)
      | none => q).Heeds DeleteFailed (· = .error .deleteFailed) := by
  apply hp.bind
  · intro e he
    subst he
    exact rfl
  · intro e
    cases e with
    | some e => trivial
    | none => exact hq

theorem fails_freeFile (ino : Ino) :
    (freeFile ino : StoreProg Sha _).Heeds DeleteFailed (· = .error .deleteFailed) :=
  fun shas => ⟨False.elim, fails_result (fails_releaseAll shas) fun _ => ⟨False.elim, trivial⟩⟩

theorem fails_commit (old : List (Chunk Sha)) (st : PutState Sha) :
    (commit ino old st).Heeds DeleteFailed (· = .error .deleteFailed) :=
  fun _ => ⟨False.elim, fun _ => ⟨False.elim,
    fails_result (fails_releaseAll _) (q := .ret (.ok ())) trivial⟩⟩

end Heeds

omit [Sha256 Sha] in
theorem fails_releaseAcquired (r : Refs Sha) (hs : List Sha) :
    (releaseAcquired r hs : StoreProg Sha _).Heeds DeleteFailed (· = some .deleteFailed) := by
  induction hs with
  | nil => trivial
  | cons sha hs ih =>
    have hrest : ∀ skip : Bool, (if skip then releaseAcquired r hs else do
        match ← release sha with
        | some e => pure (some e)
        | none => releaseAcquired r hs : StoreProg Sha _).Heeds DeleteFailed
          (· = some .deleteFailed) := by
      intro skip
      cases skip with
      | true => exact ih
      | false => exact fails_then (fails_release sha) ih
    unfold releaseAcquired
    cases Refs.fut r sha with
    | none => exact hrest false
    | some f => exact fun skip => ⟨False.elim, hrest skip⟩

omit [Sha256 Sha] in
theorem fails_undo (r : Refs Sha) (e : PyErr Sha) :
    (undo r e).Heeds DeleteFailed (· = .error .deleteFailed) := by
  have hquiet : (cancelAll (r.pending.map (·.2)) : StoreProg Sha _).Heeds DeleteFailed
      fun _ => False := by
    apply Prog.Heeds.ofAll
    exact all_cancelAll (fun f _ => id) _
  have hroll : (rollback r).Heeds DeleteFailed (· = some .deleteFailed) := by
    apply hquiet.bind
    · exact fun _ => False.elim
    · exact fun _ => fun _ => ⟨False.elim, fails_releaseAcquired r r.acquired⟩
  exact fails_result hroll (q := .ret (.error e)) trivial

theorem fails_putFile : (putFile cfg ino size dirty : StoreProg Sha _).Heeds DeleteFailed
    (· = .error .deleteFailed) := by
  rw [putFile_eq]
  refine fun old => ⟨False.elim, ?_⟩
  have hbody : (putBody cfg ino size dirty old).Heeds DeleteFailed fun _ => False := by
    apply Prog.Heeds.ofAll
    exact all_putBody cfg ino size dirty (fun _ _ => id) (fun _ _ => id) (fun _ _ => id)
      (fun _ _ _ => id) (fun _ _ _ => id) (fun _ _ => id) old
  apply hbody.bind
  · exact fun _ => False.elim
  · intro r
    rcases r with ⟨st, e | e⟩
    · exact fails_commit old st
    · exact fails_undo st.refs e

/-! ## When deletes do no harm -/

/-- The new content is stored: the rows are those of a scan of the source, and the size is where
the scan ended. -/
def Written (cfg : StoreConfig) (ino : Ino) (size : Nat) (dirty : Option (Finset Nat))
    (src : Src Sha) (s s' : Store Sha) : Prop :=
  ∃ new off now, Scanned cfg size dirty (s.index.getChunks ino) src new off ∧
    ScanEnd cfg size src off ∧ Inv.own s' ino = written (Inv.own s ino) new off now

/-- What a call owes its caller, whatever becomes of its deletes. A `put_file` returns with the
new content, or raises, if an upload or its source does, and restores rows, size and refcounts;
a `free_file` removes all rows. -/
def Call.Ends (cfg : StoreConfig) (s : Store Sha) (c : Call Sha) (fails : Prop)
    (r : Except (PyErr Sha) Unit) (s' : Store Sha) : Prop :=
  match c with
  | .putFile ino size dirty src =>
    (¬ fails → r = .ok () ∧ Written cfg ino size dirty src s s') ∧
      (fails → (∃ e, r = .error e) ∧ Inv.own s' ino = Inv.own s ino ∧
        ∀ h, s'.index.refcount h = s.index.refcount h)
  | .freeFile ino => s'.index.getChunks ino = []

/-- What a call leaves if deletes did no harm to it. -/
structure Unharmed (cfg : StoreConfig) (s : Store Sha) (c : Call Sha) (fails : Prop)
    (r : Except (PyErr Sha) Unit) (s' : Store Sha) : Prop where
  ends : Call.Ends cfg s c fails r s'
  refcount : ∀ h, s'.index.refcount h = s'.index.rowCount h
  counting : Counting s'
  stored : ∀ h b, s'.index.blobs h = some b → Held s'.backend h b

/-- Where a delete may raise: nowhere, but in a `put_file` that fails by itself for the last
reference that its rollback gives back. -/
def Call.Spared (cfg : StoreConfig) (c : Call Sha) (ts : Nat → Tick) (n : Nat) (s : Store Sha) :
    Prop :=
  (¬ Call.Fails cfg c ts n s → ¬ machine.Alarmed DeleteRaised c.src ts (c.prog cfg) n s) ∧
    (Call.Fails cfg c ts n s → ¬ machine.Missed undeleted Releases c.src ts (c.prog cfg) n s)

/-- A call without a raising delete runs as on a backend whose deletes never raise. -/
theorem call_calm (hs : Accounted s) (c : Call Sha) (n : Nat)
    (hquiet : ¬ machine.Alarmed DeleteRaised c.src ts (c.prog cfg) n s) :
    machine.seqRun c.src (fun k => (ts k).calm) (c.prog cfg) n s =
      machine.seqRun c.src ts (c.prog cfg) n s := by
  apply (seqRun_calm_of_not_alarmed (c.prog cfg) n s).2 _ hquiet
  cases c with
  | putFile ino size dirty src => exact putFile_spoils hs.readable n
  | freeFile ino => exact freeFile_spoils hs.readable n

/-- A delete that raises makes the whole call raise the delete's error. -/
theorem call_error (c : Call Sha) (n : Nat)
    (h : machine.Alarmed DeleteRaised c.src ts (c.prog cfg) n s) :
    (machine.seqRun c.src ts (c.prog cfg) n s).1 = .error .deleteFailed := by
  have hfailed := h.mono deleteFailed_exec
  cases c with
  | putFile ino size dirty src => exact hfailed.ends _ fails_putFile
  | freeFile ino => exact hfailed.ends _ (fails_freeFile ino)

/-- The books of a store where nobody else owns anything. -/
theorem Alone.refcount_iff {g : Res Sha} (h : Alone True NoFree s g)
    (howns : g.owns = {Inv.own s₀ ino}) :
    (∀ x, s.index.refcount x = s.index.rowCount x) ↔ ¬ Owes s.tasks g := by
  have hcount : ∀ x, s.index.refcount x = s.index.rowCount x +
      (g.refs.count x + futRefs s.tasks (g.futs + g.doomed) x) := by
    intro x
    have hc := h.inv.counts x
    rw [add_zero, howns, freeing_singleton] at hc
    have hrows : s.index.liveRows 0 x = s.index.rowCount x := Meta.liveRows_zero _ _
    change s.index.refcount x = s.index.liveRows 0 x + _ + _ at hc
    omega
  simp only [Owes, hcount, Nat.add_eq_left, not_exists, Nat.pos_iff_ne_zero, ne_eq, not_not]

/-- A `put_file` that fails by itself restores the books exactly if its rollback missed no
release. -/
theorem putFile_failing (hs : Accounted s) (n : Nat)
    (hfails : Call.Fails cfg (.putFile ino size dirty src) ts n s) :
    Unharmed cfg s (.putFile ino size dirty src)
        (Call.Fails cfg (.putFile ino size dirty src) ts n s)
        (machine.seqRun src ts (putFile cfg ino size dirty) n s).1
        (machine.seqRun src ts (putFile cfg ino size dirty) n s).2.2 ↔
      ¬ machine.Missed undeleted Releases src ts (putFile cfg ino size dirty) n s := by
  rcases hrun : machine.seqRun src ts (putBody cfg ino size dirty (s.index.getChunks ino)) (n + 1)
    s with ⟨⟨st, e⟩, n', m⟩
  obtain ⟨x, rfl⟩ := Option.ne_none_iff_exists'.mp ((putFile_fails_iff hs hrun).mp hfails)
  obtain ⟨herror, hchunks, g, halone, howns, hmissed⟩ := putFile_raised hs hrun
  rw [hmissed, ← halone.refcount_iff howns]
  refine ⟨fun h => h.refcount, fun hcount => ⟨⟨fun h => absurd hfails h, fun _ => ?_⟩, hcount,
    seqRun_counting src ts _ n hs.counting, halone.inv.blobs.stored⟩⟩
  refine ⟨herror, ?_, fun h => ?_⟩
  · have hmem : Inv.own s ino ∈ (g + 0).owns := by
      rw [add_zero, howns]
      exact Multiset.mem_singleton_self _
    obtain ⟨hrows, hinode⟩ := halone.inv.owns.seen _ hmem
    unfold Inv.own
    exact congrArg₂ (fun rows inode => Owned.mk ino rows inode false) hrows hinode
  · rw [hcount, rowCount_congr hchunks, ← hs.refcount]

/-- A `put_file` that does not fail by itself returns, if no delete raises. -/
theorem putFile_returns (hs : Accounted s) (n : Nat)
    (hwell : ¬ Call.Fails cfg (.putFile ino size dirty src) ts n s)
    (hquiet : ¬ machine.Alarmed DeleteRaised src ts (putFile cfg ino size dirty) n s) :
    (machine.seqRun src ts (putFile cfg ino size dirty) n s).1 = .ok () := by
  rcases hrun : machine.seqRun src ts (putBody cfg ino size dirty (s.index.getChunks ino)) (n + 1)
    s with ⟨⟨st, e⟩, n', m⟩
  obtain rfl : e = none := by
    by_contra hne
    exact hwell ((putFile_fails_iff hs hrun).mpr hne)
  obtain ⟨hcalmBody, g, hbd⟩ := putBody_done hs hrun
  have hcalm : machine.seqRun src (fun k => (ts k).calm) (putFile cfg ino size dirty) n s =
      machine.seqRun src ts (putFile cfg ino size dirty) n s :=
    call_calm hs (.putFile ino size dirty src) n hquiet
  rw [← hcalm, seqRun_putFile_parts hs.readable, hcalmBody]
  obtain ⟨g', ⟨hok, -⟩, -⟩ := (@safe_commit Sha _ src _ _ _ _ _
    (show (Inv.own s ino).freeing = false from rfl) _ hbd.owns hbd.refs hbd.sorted).seqRun
    (fun k => (ts k).quiet_calm) (n := n') hbd.inv
  exact hok

/-- A `put_file` whose uploads and reads succeed is unharmed exactly if no delete raises. -/
theorem putFile_unharmed_iff (hs : Accounted s) (n : Nat)
    (hwell : ¬ Call.Fails cfg (.putFile ino size dirty src) ts n s) :
    Unharmed cfg s (.putFile ino size dirty src)
        (Call.Fails cfg (.putFile ino size dirty src) ts n s)
        (machine.seqRun src ts (putFile cfg ino size dirty) n s).1
        (machine.seqRun src ts (putFile cfg ino size dirty) n s).2.2 ↔
      ¬ machine.Alarmed DeleteRaised src ts (putFile cfg ino size dirty) n s := by
  constructor
  · intro h halarmed
    have herr := call_error (.putFile ino size dirty src) n halarmed
    obtain ⟨hok, -⟩ := h.ends.1 hwell
    cases herr.symm.trans hok
  intro hquiet
  have hcalm : machine.seqRun src (fun k => (ts k).calm) (putFile cfg ino size dirty) n s =
      machine.seqRun src ts (putFile cfg ino size dirty) n s :=
    call_calm hs (.putFile ino size dirty src) n hquiet
  have hticks : ∀ k, ((ts k).calm).Quiet True := fun k => (ts k).quiet_calm
  obtain ⟨hacc, -, hpost⟩ := seqRun_putFile src cfg ino size dirty hs hticks n
  have hok := putFile_returns hs n hwell hquiet
  rw [hcalm] at hacc hpost
  rw [hok] at hpost
  exact ⟨⟨fun _ => ⟨hok, hpost⟩, fun h => absurd h hwell⟩, hacc.refcount, hacc.counting,
    hacc.readable.held⟩

variable (ts cfg ino) in
/-- A `free_file` uploads and reads nothing. -/
theorem freeFile_never_fails (hs : Readable s) (n : Nat) :
    ¬ Call.Fails cfg (.freeFile ino) ts n s := by
  rintro (⟨t, ht, -⟩ | h)
  · have htasks : (machine.seqRun (Call.freeFile ino : Call Sha).src ts (freeFile ino) n
        s).2.2.tasks = s.tasks := idle_tasks idles_freeFile n hs.settled
    change t ∈ (machine.seqRun (Call.freeFile ino : Call Sha).src ts (freeFile ino) n
      s).2.2.tasks.drop s.tasks.length at ht
    rw [htasks, List.drop_length] at ht
    cases ht
  · refine machine.not_alarmed_of_all ?_ h
    refine ⟨fun _ => id, fun shas => ?_⟩
    apply (all_releaseAll (fun _ _ => id) (fun _ _ => id) _).bind
    intro e
    cases e with
    | some e => trivial
    | none => exact ⟨fun _ => id, fun _ => trivial⟩

/-- How `free_file` ends. -/
def freeEnd (ino : Ino) : Option (PyErr Sha) → StoreProg Sha (Except (PyErr Sha) Unit)
  | some e => pure (.error e)
  | none => do
    let _ : Unit ← perform (.setChunks ino [])
    pure (.ok ())

/-- A `free_file` removes all rows exactly if no delete raises. -/
theorem freeFile_unharmed_iff (hs : Accounted s) (n : Nat) (fails : Prop) :
    Unharmed cfg s (.freeFile ino) fails (machine.seqRun src ts (freeFile ino) n s).1
        (machine.seqRun src ts (freeFile ino) n s).2.2 ↔
      ¬ machine.Alarmed DeleteRaised src ts (freeFile ino) n s := by
  have heq : (freeFile ino : StoreProg Sha _) = .act (.getChunkShas ino)
      fun shas : Act.Reply (.getChunkShas ino) => (releaseAll shas).bind (freeEnd ino) := by
    rfl
  have hstep : machine.exec src (ts n) (.getChunkShas ino)
      (machine.turn (ts n) (.getChunkShas ino) s) = (s.index.getChunkShas ino, s) :=
    congrArg _ (hs.readable.turn rfl)
  constructor
  · intro h halarmed
    have herr := (halarmed.mono deleteFailed_exec).ends _ (fails_freeFile ino)
    rcases hrel : machine.seqRun src ts (releaseAll (s.index.getChunkShas ino)) (n + 1) s
      with ⟨e, n', m⟩
    have hfree : machine.seqRun src ts (freeFile ino) n s =
        machine.seqRun src ts (freeEnd ino e) n' m := by
      rw [heq]
      refine (machine.seqRun_step hstep).trans ?_
      rw [Machine.seqRun_bind, hrel]
    rw [hfree] at h herr
    cases e with
    | none => cases herr
    | some e =>
      -- the rows are still there, so that there was something to release
      have hplain : (releaseAll (s.index.getChunkShas ino) : StoreProg Sha _).All Plain :=
        all_releaseAll (fun _ => trivial) (fun _ => trivial) _
      have hchunks : (machine.seqRun src ts (releaseAll (s.index.getChunkShas ino)) (n + 1)
          s).2.2.index.chunks = s.index.chunks :=
            (seqRun_plain hplain src ts (n + 1) s).1
      rw [hrel] at hchunks
      have hnone : s.index.getChunks ino = [] := by
        have := h.ends
        change m.index.getChunks ino = [] at this
        unfold Meta.getChunks at this ⊢
        rwa [← hchunks]
      rw [Meta.getChunkShas, hnone] at hrel
      cases hrel
  · intro hquiet
    have hcalm := (seqRun_calm_of_not_alarmed (freeFile ino) n s).2 (freeFile_spoils hs.readable n)
      hquiet
    have hticks : ∀ k, ((ts k).calm).Quiet True := fun k => (ts k).quiet_calm
    obtain ⟨hacc, -, -, hown⟩ := seqRun_freeFile src ino hs hticks n
    rw [hcalm] at hacc hown
    exact ⟨congrArg Owned.rows hown, hacc.refcount, hacc.counting, hacc.readable.held⟩

/-- Deletes do no harm to a call exactly when none of them raises, or the call is a `put_file`
that fails by itself and only the delete of its last release raises. -/
theorem call_unharmed_iff (cfg : StoreConfig) (hs : Accounted s) (c : Call Sha) (ts : Nat → Tick)
    (n : Nat) :
    Unharmed cfg s c (Call.Fails cfg c ts n s) (machine.seqRun c.src ts (c.prog cfg) n s).1
        (machine.seqRun c.src ts (c.prog cfg) n s).2.2 ↔ Call.Spared cfg c ts n s := by
  unfold Call.Spared
  cases c with
  | putFile ino size dirty src =>
    by_cases hfails : Call.Fails cfg (.putFile ino size dirty src) ts n s
    · exact (putFile_failing hs n hfails).trans
        ⟨fun h => ⟨fun hno => absurd hfails hno, fun _ => h⟩, fun h => h.2 hfails⟩
    · exact (putFile_unharmed_iff hs n hfails).trans
        ⟨fun h => ⟨fun _ => h, fun hf => absurd hf hfails⟩, fun h => h.1 hfails⟩
  | freeFile ino =>
    have hnever := freeFile_never_fails ts cfg ino hs.readable n
    exact (freeFile_unharmed_iff hs n _).trans
      ⟨fun h => ⟨fun _ => h, fun hf => absurd hf hnever⟩, fun h => h.1 hnever⟩

/-- Of the deletes of a `put_file` that fails at its third upload, only the last one raises. -/
theorem call_unharmed_iff_lastDelete :
    let ts : Nat → Tick := fun k =>
      { deleteFails := k == 26, finish := fun f => { uploadFails := f == 2 } }
    let c : Call Bytes := .putFile 2 6 none (Src.whole [1, 2, 3, 4, 5, 6])
    let out := machine.seqRun c.src ts (c.prog ⟨2, 1, Nat.two_pos, Nat.one_pos⟩) 0 newFile
    out.1 = .error .deleteFailed ∧ Unharmed ⟨2, 1, Nat.two_pos, Nat.one_pos⟩ newFile c
      (Call.Fails ⟨2, 1, Nat.two_pos, Nat.one_pos⟩ c ts 0 newFile) out.1 out.2.2 :=
  ⟨by decide +kernel, (call_unharmed_iff ⟨2, 1, Nat.two_pos, Nat.one_pos⟩ newFile_accounted
    (.putFile 2 6 none (Src.whole [1, 2, 3, 4, 5, 6])) _ 0).mpr
    ⟨fun hwell => absurd (.inl (by decide +kernel)) hwell, fun _ => by decide +kernel⟩⟩

/-- With deletes that raise, a `put_file` whose uploads succeed raises, a `free_file` keeps its
rows and loses a blob that one of them names, and a `put_file` that fails at its third upload
leaves the second blob without a row. -/
theorem deletes_do_harm :
    let raising : Tick := { deleteFails := true }
    let failing : Tick := { deleteFails := true, finish := fun f => { uploadFails := f == 2 } }
    let freed := (machine.seqRun (Src.whole []) (fun _ => raising) (freeFile 2) 0 twoChunks).2.2
    let failed := (machine.seqRun (Src.whole [1, 2, 3, 4, 5, 6]) (fun _ => failing)
      (putFile ⟨2, 1, by decide, by decide⟩ 2 6 none) 0 newFile).2.2
    (machine.seqRun (Src.whole [1, 2, 9]) (fun _ => raising)
        (putFile ⟨2, 1, by decide, by decide⟩ 2 3 none) 0 twoChunks).1 =
      .error (.deleteFailed : PyErr Bytes) ∧
    (⟨0, 0, 2, [1, 2]⟩ ∈ freed.index.getChunks 2 ∧ freed.index.blobs [1, 2] = none) ∧
    failed.index.refcount [3, 4] = 1 ∧ failed.index.rowCount [3, 4] = 0 := by
  decide +kernel

end Store

end Tgfs
