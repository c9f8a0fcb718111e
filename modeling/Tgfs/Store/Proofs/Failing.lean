import Tgfs.Store.Proofs.Dedup
import Tgfs.Store.Proofs.Rollback

/-!
# When a `put_file` raises by itself

No future of a `put_file` ever comes to a delete, so that up to its last releases deletes play no
part: the body of the `try` raises exactly if an upload of the call or a read of the source does.
What the `except` clause then leaves depends on its own deletes.
-/

namespace Tgfs

namespace Store

variable {Sha : Type} [DecidableEq Sha] [Sha256 Sha] {src : Src Sha} {ts : Nat → Tick}

/-! ## What can raise -/

/-- An upload of the call raised. -/
def UploadFailed (s s' : Store Sha) : Prop :=
  ∃ t ∈ s'.tasks.drop s.tasks.length, t.phase = .failed .uploadFailed

omit [Sha256 Sha] in
instance UploadFailed.decide (s s' : Store Sha) : Decidable (UploadFailed s s') :=
  inferInstanceAs (Decidable (∃ t ∈ s'.tasks.drop s.tasks.length, t.phase = _))

/-- A read of the source raised. -/
def ReadRaised : (a : Act Sha) → a.Reply → Prop
  | .read _ _, (got : Except (PyErr Sha) Bytes) => got.isOk = false
  | _, _ => False

def readRaised : (a : Act Sha) → a.Reply → Bool
  | .read _ _, (got : Except (PyErr Sha) Bytes) => !got.isOk
  | _, _ => false

omit [DecidableEq Sha] [Sha256 Sha] in
theorem readRaised_iff (a : Act Sha) (r : a.Reply) : readRaised a r = true ↔ ReadRaised a r := by
  cases a <;> simp [readRaised, ReadRaised]

instance ReadRaised.decide (a : Act Sha) (r : a.Reply) : Decidable (ReadRaised a r) :=
  decidable_of_iff _ (readRaised_iff a r)

/-! ## The pool deletes nothing -/

section Gathering

variable {undoing : Prop} {s₀ : Store Sha} {new : List (Task Sha)}
  {s s' : Store Sha × List BackendCall} {g : Multiset (List Sha)}

/-- A call may give back what it has gathered. -/
theorem Gathers.undo (h : Gathers undoing s₀ new s) : Gathers True s₀ new s :=
  ⟨h.tasks, h.sha, h.nodup, h.fresh,
    fun t ht => ⟨fun _ => trivial, (h.phase t ht).dropCopy, (h.phase t ht).failed⟩, h.known,
    fun hn => absurd trivial hn, h.uploads, fun hn => absurd trivial hn⟩

theorem Gathering.undo (h : Gathering undoing s₀ s g) : Gathering True s₀ s g := by
  obtain ⟨new, hnew, hg⟩ := h
  exact ⟨new, hnew.undo, hg⟩

/-- Blobs rows may go and messages may be deleted. -/
theorem Gathers.shrink (h : Gathers True s₀ new s) (htasks : s'.1.tasks = s.1.tasks)
    (hblobs : ∀ x, s.1.index.blobs x = none → s'.1.index.blobs x = none)
    (hcalls : ∀ x : Sha, Store.uploads x s'.2 = Store.uploads x s.2) : Gathers True s₀ new s' where
  tasks := htasks.trans h.tasks
  sha := h.sha
  nodup := h.nodup
  fresh := h.fresh
  phase := h.phase
  known x hx := h.known x (mt (hblobs x) hx)
  grown hn := absurd trivial hn
  uploads x := by rw [hcalls, h.uploads]
  deletes hn := absurd trivial hn

/-- A cancelled task is one that waits in the queue, and none of those is older than the call. -/
theorem Gathers.cancel (hold : ∀ t ∈ s₀.tasks, t.phase.settled = true) (h : Gathers True s₀ new s)
    {t : Tick} (f : FutId) : ∃ new', Gathers True s₀ new' (journal.exec src t (.cancel f) s).2 ∧
      new'.map (·.sha) = new.map (·.sha) := by
  have hexec : (journal.exec src t (.cancel f) s).2 =
      ((Store.exec src t (.cancel f) s.1).2, s.2 ++ []) := rfl
  rw [hexec, List.append_nil]
  simp only [Store.exec]
  split
  case h_2 => exact ⟨new, h, rfl⟩
  case h_1 sha data ht =>
    have hge : s₀.tasks.length ≤ f := by
      by_contra hlt
      rw [h.tasks, List.getElem?_append_left (by omega)] at ht
      cases hold _ (List.mem_of_getElem? ht)
    obtain ⟨j, rfl⟩ := Nat.exists_eq_add_of_le hge
    have htj : new[j]? = some ⟨sha, data, .queued⟩ := by
      rwa [h.tasks, List.getElem?_append_right hge, Nat.add_sub_cancel_left] at ht
    have hsolo : Solo True (.cancelled : Phase Sha) := by constructor <;> simp
    refine ⟨_, h.setPhase htj hsolo ?_ rfl (fun _ hx => .inl hx) (fun _ hx => hx)
      (.inl ⟨rfl, rfl⟩), map_sha_set htj _⟩
    intro hreg
    cases hreg

/-- Whatever gives references back leaves the tasks alone in uploading their hashes. -/
theorem Gathering.exec (hold : ∀ t ∈ s₀.tasks, t.phase.settled = true)
    (h : Gathering True s₀ s g) {t : Tick} {a : Act Sha} (ha : Idles a) :
    Gathering True s₀ (journal.exec src t a s).2 g := by
  obtain ⟨new, hnew, rfl⟩ := h
  cases a with
  | submit => exact ha.elim
  | cancel f =>
    obtain ⟨new', hnew', hsha⟩ := hnew.cancel hold (t := t) f
    exact ⟨new', hnew', by rw [hsha]⟩
  | blobDecref sha =>
    refine ⟨new, hnew.shrink rfl ?_ ?_, rfl⟩
    · intro x hx
      change (s.1.index.blobDecref sha).2.blobs x = none
      rcases s.1.index.blobDecref_cases sha with ⟨-, he⟩ | ⟨b, hb, -, he⟩ | ⟨b, hb, -, he⟩
      · rw [he]
        exact hx
      all_goals
        have hne : x ≠ sha := by
          rintro rfl
          rw [hx] at hb
          cases hb
        rw [he, Meta.putBlob_ne hne]
        exact hx
    · intro x
      exact congrArg (Store.uploads x) (List.append_nil s.2)
  | delete hd =>
    refine ⟨new, hnew.shrink ?_ ?_ ?_, rfl⟩
    · change (Store.exec src t (.delete hd) s.1).2.tasks = _
      simp only [Store.exec]
      split <;> rfl
    · intro x hx
      change (Store.exec src t (.delete hd) s.1).2.index.blobs x = none
      simp only [Store.exec]
      split <;> exact hx
    · intro x
      exact uploads_append x s.2 [.delete hd]
  | _ => exact ⟨new, hnew.exec trivial, rfl⟩

/-- While every hash has one uploader no future fails at its delete. -/
theorem Gathering.tasks (h : Gathering undoing s₀ s g) :
    ∃ new, s.1.tasks = s₀.tasks ++ new ∧
      ∀ t ∈ new, ∀ e, t.phase = .failed e → e = .uploadFailed := by
  obtain ⟨new, hnew, -⟩ := h
  exact ⟨new, hnew.tasks, fun t ht => (hnew.phase t ht).failed⟩

theorem Gathering.spoils (h : Gathering undoing s₀ s g) : s.1.spoils = s₀.spoils := by
  obtain ⟨new, hnew, hfailed⟩ := h.tasks
  have hnone : (new.countP fun t => t.phase = .failed .deleteFailed) = 0 := by
    rw [List.countP_eq_zero]
    intro t ht hp
    cases hfailed t ht _ (of_decide_eq_true hp)
  unfold Store.spoils
  rw [hnew, List.countP_append, hnone, Nat.add_zero]

end Gathering

variable {cfg : StoreConfig} {ino : Ino} {size : Nat} {dirty : Option (Finset Nat)} {s : Store Sha}

/-- A program that submits nothing, where each hash has one uploader. -/
theorem Gathering.seqRun {α : Type} {s₀ : Store Sha} {s : Store Sha × List BackendCall}
    {g : Multiset (List Sha)} (hold : ∀ t ∈ s₀.tasks, t.phase.settled = true)
    (h : Gathering True s₀ s g) {p : StoreProg Sha α} (hp : p.All Idles) (ts : Nat → Tick)
    (n : Nat) : (machine.seqRun src ts p n s.1).2.2.spoils = s₀.spoils := by
  have hsafe : journal.Safe (Gathering True s₀) (fun _ => True) src (fun _ g' => g' = g) p g :=
    Machine.Safe.ofAll (fun _ ha _ _ _ h => h.exec hold ha) hp
  rw [← add_zero g] at h
  obtain ⟨g', -, hend⟩ := h.run hold ts n hsafe
  rw [seqRun_journal]
  exact hend.spoils

section PutEnd

omit [Sha256 Sha]

theorem all_undo {P : Act Sha → Prop} (hdecref : ∀ sha, P (.blobDecref sha))
    (hdelete : ∀ handle, P (.delete handle)) (hfailed : ∀ f, P (.failed f))
    (hcancel : ∀ f, P (.cancel f)) (hwait : ∀ fs, P (.waitAll fs)) (r : Refs Sha)
    (e : PyErr Sha) : (undo r e).All P := by
  apply (all_rollback hdecref hdelete hfailed hcancel hwait _).bind
  intro e
  cases e <;> trivial

omit [DecidableEq Sha] in
theorem all_commit {P : Act Sha → Prop} (hdecref : ∀ sha, P (.blobDecref sha))
    (hdelete : ∀ handle, P (.delete handle)) (hchunks : ∀ ino chunks, P (.setChunks ino chunks))
    (hsize : ∀ ino size, P (.setSize ino size)) (old : List (Chunk Sha)) (st : PutState Sha) :
    (commit ino old st).All P := by
  refine ⟨hchunks ino st.new, fun _ => ⟨hsize ino st.off, fun _ => ?_⟩⟩
  apply (all_releaseAll hdecref hdelete _).bind
  intro e
  cases e <;> trivial

theorem idles_putEnd (old : List (Chunk Sha)) (r : PutState Sha × Option (PyErr Sha)) :
    (putEnd ino old r).All Idles := by
  rcases r with ⟨st, e | e⟩
  · exact all_commit (fun _ => trivial) (fun _ => trivial) (fun _ _ => trivial)
      (fun _ _ => trivial) old st
  · exact all_undo (fun _ => trivial) (fun _ => trivial) (fun _ => trivial) (fun _ => trivial)
      (fun _ => trivial) st.refs e

theorem readless_putEnd (old : List (Chunk Sha)) (r : PutState Sha × Option (PyErr Sha)) :
    (putEnd ino old r).All fun a => ∀ reply, ¬ ReadRaised a reply := by
  rcases r with ⟨st, e | e⟩
  · exact all_commit (fun _ _ => id) (fun _ _ => id) (fun _ _ _ => id) (fun _ _ _ => id) old st
  · exact all_undo (fun _ _ => id) (fun _ _ => id) (fun _ _ => id) (fun _ _ => id)
      (fun _ _ => id) st.refs e

end PutEnd

variable {rows : List (Chunk Sha)}

variable (src ts cfg ino size dirty rows) in
/-- However it ends, the body has gathered. -/
theorem putBody_gathering (hs : Readable s) (n : Nat) :
    ∃ calls w, Gathering False s
      ((machine.seqRun src ts (putBody cfg ino size dirty rows) n s).2.2, calls) w := by
  have hbody : GatherSafe s src _ (putBody cfg ino size dirty rows) {[]} := gather_putBody
  obtain ⟨w, -, hgather⟩ := (Gathering.start False s).run hs.settled ts n hbody
  have hplain := seqRun_journal src ts (putBody cfg ino size dirty rows) n (s, [])
  simp only at hplain
  rw [hplain]
  exact ⟨_, _, hgather⟩

/-- No future of a `put_file` fails at its delete. -/
theorem putFile_spoils (hs : Readable s) (n : Nat) :
    (machine.seqRun src ts (putFile cfg ino size dirty) n s).2.2.spoils = s.spoils := by
  obtain ⟨calls, w, hgather⟩ := putBody_gathering src ts cfg ino size dirty (s.index.getChunks ino)
    hs (n + 1)
  rw [seqRun_putFile_parts hs]
  exact hgather.undo.seqRun hs.settled (idles_putEnd _ _) ts _

omit [DecidableEq Sha] [Sha256 Sha] in
theorem idles_freeFile : (freeFile ino : StoreProg Sha _).All Idles := by
  refine ⟨trivial, fun shas => ?_⟩
  apply (all_releaseAll (fun _ => trivial) (fun _ => trivial) _).bind
  intro e
  cases e with
  | some e => trivial
  | none => exact ⟨trivial, fun _ => trivial⟩

theorem freeFile_spoils (hs : Readable s) (n : Nat) :
    (machine.seqRun src ts (freeFile ino) n s).2.2.spoils = s.spoils :=
  (Gathering.start True s).seqRun hs.settled idles_freeFile ts n

/-! ## Why the body raises -/

/-- The source, with nothing where it raises. -/
def forgiving (src : Src Sha) : Src Sha := fun pos want => .ok ((src pos want).toOption.getD [])

section Reads

theorem heeds_read_putLoop (st : PutState Sha) :
    (putLoop cfg ino size dirty rows st).Heeds ReadRaised (·.2 ≠ none) := by
  induction hk : size - st.off using Nat.strong_induction_on generalizing st with
  | _ k ih =>
    subst hk
    unfold putLoop
    split
    case isFalse => trivial
    case isTrue hoff =>
      have hcs := cfg.chunkSize_pos
      split
      case h_1 row _ =>
        refine fun known : Bool => ⟨False.elim, ?_⟩
        cases known with
        | false => trivial
        | true => exact ih (size - (st.off + min cfg.chunkSize (size - st.off))) (by omega) _ rfl
      case h_2 =>
        refine fun got : Except (PyErr Sha) Bytes => ?_
        cases got with
        | error e => exact ⟨fun _ => by simp [Prog.Ends], trivial⟩
        | ok data =>
          refine ⟨fun h => ?_, ?_⟩
          · cases h
          · simp only
            split
            case isTrue => trivial
            case isFalse hdata =>
              have := List.length_pos_iff.mpr hdata
              have hquiet : (acquire cfg.uploadWorkers (sha256 data) data st.refs).Heeds ReadRaised
                  fun _ => False := by
                apply Prog.Heeds.ofAll
                exact all_acquire (fun _ _ => id) (fun _ _ => id) (fun _ _ => id) _ (fun _ => id) _
              apply hquiet.bind
              · exact fun _ => False.elim
              · intro p
                rcases p with ⟨refs, e | e⟩
                · exact ih (size - (st.off + data.length)) (by omega) _ rfl
                · trivial

theorem heeds_read_putBody :
    (putBody cfg ino size dirty rows).Heeds ReadRaised (·.2 ≠ none) := by
  apply (heeds_read_putLoop {}).bind
  · intro p hp
    rcases p with ⟨st, e | e⟩
    · exact absurd rfl hp
    · simp [Prog.Ends]
  · intro p
    rcases p with ⟨st, e | e⟩
    · apply Prog.Heeds.ofAll
      apply (all_results (fun _ _ => id) _).bind
      intro e
      cases e with
      | some e => trivial
      | none => exact (all_increfAll (fun _ _ => id) _).bind fun _ => trivial
    · trivial

end Reads

section Body

variable (src ts cfg ino size dirty rows) in
/-- The body deletes nothing. -/
theorem putBody_calm (hs : Readable s) (n : Nat) :
    machine.seqRun src (fun k => (ts k).calm) (putBody cfg ino size dirty rows) n s =
      machine.seqRun src ts (putBody cfg ino size dirty rows) n s := by
  have hheeds : (putBody cfg ino size dirty rows).Heeds DeleteRaised fun _ => False := heeds_putBody
  obtain ⟨calls, w, hgather⟩ := putBody_gathering src ts cfg ino size dirty rows hs n
  exact (seqRun_calm hheeds n s).2 hgather.spoils id

/-- A body that returns met no failing upload and no failing read, and leaves nothing in flight. -/
theorem putBody_returned (hs : Readable s) {n n' : Nat} {st : PutState Sha} {m : Store Sha}
    (hrun : machine.seqRun src ts (putBody cfg ino size dirty rows) n s = ((st, none), n', m)) :
    (∀ t ∈ m.tasks, t.phase.settled = true) ∧ ¬ UploadFailed s m ∧
      ¬ machine.Alarmed ReadRaised src ts (putBody cfg ino size dirty rows) n s := by
  have hwatch : WatchSafe s.tasks src _ (putBody cfg ino size dirty rows) 0 :=
    watch_putBody hs.settled
  obtain ⟨w, hw, hwatched⟩ := hwatch.run hs.settled ts n
  rw [hrun] at hw hwatched
  obtain rfl := hw rfl
  obtain ⟨new, hnew, hsus⟩ := hwatched.alone
  refine ⟨fun t ht => ?_, fun hup => ?_, fun h => ?_⟩
  · rw [hnew] at ht
    rcases List.mem_append.mp ht with ht | ht
    · exact hs.settled t ht
    · by_contra hset
      exact hsus t ht (.inl (by simpa using hset))
  · obtain ⟨t, ht, hp⟩ := hup
    rw [hnew, List.drop_left] at ht
    apply hsus t ht
    right
    rw [hp]
    rfl
  · have := h.ends _ heeds_read_putBody
    rw [hrun] at this
    exact this rfl

omit [Sha256 Sha] in
/-- Where no read raises, a forgiving source makes no difference. -/
theorem seqRun_forgiving {α : Type} {p : StoreProg Sha α} {n : Nat}
    (h : ¬ machine.Alarmed ReadRaised src ts p n s) :
    machine.seqRun src ts p n s = machine.seqRun (forgiving src) ts p n s := by
  apply Machine.seqRun_congr
  intro a ha t s'
  cases a with
  | read pos want =>
    have hok : ∀ e, src pos want ≠ .error e := by
      intro e he
      apply h (machine.alarmed_of_acts _ ha)
      intro _ _
      change (src pos want).isOk = false
      rw [he]
      rfl
    change ((src pos want, s') : Except (PyErr Sha) Bytes × Store Sha) =
      (forgiving src pos want, s')
    unfold forgiving
    cases hread : src pos want with
    | ok data => rfl
    | error e => exact absurd hread (hok e)
  | _ => rfl

/-- A body that raises met a failing upload or a failing read. -/
theorem putBody_raised (hs : Accounted s) {n n' : Nat} {st : PutState Sha} {e : PyErr Sha}
    {m : Store Sha}
    (hrun : machine.seqRun src ts (putBody cfg ino size dirty (s.index.getChunks ino)) n s =
      ((st, some e), n', m)) :
    UploadFailed s m ∨ machine.Alarmed ReadRaised src ts
      (putBody cfg ino size dirty (s.index.getChunks ino)) n s := by
  by_contra hnone
  obtain ⟨hup, hread⟩ := not_or.mp hnone
  have hforgiven := seqRun_forgiving hread
  rw [hrun] at hforgiven
  -- none of the futures raised
  have hcount : m.endings Phase.raised = s.endings Phase.raised := by
    obtain ⟨calls, w, hgather⟩ := putBody_gathering src ts cfg ino size dirty
      (s.index.getChunks ino) hs.readable n
    obtain ⟨new, hnew, hfailed⟩ := hgather.tasks
    rw [hrun] at hnew
    have hnone : (new.countP fun t => t.phase.raised) = 0 := by
      rw [List.countP_eq_zero]
      intro t ht hp
      cases hph : t.phase with
      | failed e =>
        refine hup ⟨t, ?_, by rw [hph, hfailed t ht e hph]⟩
        rw [hnew, List.drop_left]
        exact ht
      | _ =>
        rw [hph] at hp
        cases hp
    unfold endings
    rw [hnew, List.countP_append, hnone, Nat.add_zero]
  have hquiet : ¬ machine.Alarmed (fun a r => Downloads a ∨ DeleteRaised a r) (forgiving src) ts
      (putBody cfg ino size dirty (s.index.getChunks ino)) n s := by
    apply Machine.not_alarmed_of_all
    exact all_putBody cfg ino size dirty (fun _ _ => by simp [Downloads, DeleteRaised])
      (fun _ _ => by simp [Downloads, DeleteRaised]) (fun _ _ => by simp [Downloads, DeleteRaised])
      (fun _ _ _ => by simp [Downloads, DeleteRaised])
      (fun _ _ _ => by simp [Downloads, DeleteRaised])
      (fun _ _ => by simp [Downloads, DeleteRaised]) _
  have hlucky := ((hushes_lucky (forgiving src)).seqRun ts
    (putBody cfg ino size dirty (s.index.getChunks ino)) n s).2
  rw [← hforgiven] at hlucky
  have hsame := hlucky hcount hquiet
  have htake : Inv False NoFree s ({ owns := {Inv.own s ino} } + 0) := hs.inv.take (by simp)
  obtain ⟨g, ⟨-, herr⟩, -⟩ := (@safe_putBody Sha _ _ False NoFree (forgiving src)
    (Inv.own s ino) cfg size dirty rfl).seqRun (fun k => (ts k).quiet_lucky) (n := n) htake
  change ∀ e, (machine.seqRun (forgiving src) (fun k => (ts k).lucky)
    (putBody cfg ino size dirty (s.index.getChunks ino)) n s).1.2 = some e → _ at herr
  rw [hsame] at herr
  obtain ⟨⟨-, hno⟩ | ⟨pos, want, hno⟩, -⟩ := herr e rfl
  · exact hno
  · cases hno

end Body

/-! ## A call that raises -/

omit [Sha256 Sha] in
/-- A future that is settled stays as it is. -/
theorem settled_stays {α : Type} (p : StoreProg Sha α) (n : Nat) {i : FutId} {t : Task Sha}
    (ht : s.tasks[i]? = some t) (hset : t.phase.settled = true) :
    (machine.seqRun src ts p n s).2.2.tasks[i]? = some t := by
  have hne : ∀ (s : Store Sha) (f : FutId) (u u' : Task Sha), s.tasks[i]? = some t →
      s.tasks[f]? = some u → u.phase.settled = false → (s.tasks.set f u')[i]? = some t := by
    intro s f u u' hi hf hu
    have hfi : f ≠ i := by
      rintro rfl
      rw [Option.some.inj (hi.symm.trans hf), hu] at hset
      cases hset
    rwa [List.getElem?_set_ne hfi]
  apply Machine.seqRun_stable (P := fun s' : Store Sha => s'.tasks[i]? = some t) _ _ src ts p n ht
  · intro x tk a s' h
    change (exec x tk a s').2.tasks[i]? = some t
    cases a with
    | submit sha data =>
      have hlt := (List.getElem?_eq_some_iff.mp h).1
      simp only [exec]
      rwa [List.getElem?_append_left hlt]
    | cancel f =>
      simp only [exec]
      split
      case h_1 sha data hf => exact hne s' f _ _ h hf rfl
      case h_2 => exact h
    | claimKnown sha | download sha | delete sha =>
      simp only [exec]
      split
      · exact h
      · first | exact h | (split <;> exact h)
    | result f | failed f =>
      simp only [exec]
      split <;> exact h
    | _ => exact h
  · intro e s' h
    change (poolStep e s').tasks[i]? = some t
    rcases poolStep_tasks e s' with ⟨he, -⟩ | ⟨u, p, hu, hlt, he⟩
    · rwa [he]
    · rw [he]
      refine hne s' e.1 u _ h hu ?_
      rw [← Bool.not_eq_true, u.phase.settled_iff_rank]
      omega

omit [Sha256 Sha] in
theorem UploadFailed.stays {α : Type} {m : Store Sha} (h : UploadFailed s m) (p : StoreProg Sha α)
    (n : Nat) : UploadFailed s (machine.seqRun src ts p n m).2.2 := by
  obtain ⟨t, ht, hp⟩ := h
  obtain ⟨i, hi⟩ := List.getElem?_of_mem ht
  rw [List.getElem?_drop] at hi
  refine ⟨t, List.mem_of_getElem? (i := i) ?_, hp⟩
  rw [List.getElem?_drop]
  exact settled_stays p n hi (by rw [hp]; rfl)

omit [Sha256 Sha] in
/-- Where nothing is in flight and nothing is submitted, the futures stay as they are. -/
theorem idle_tasks {α : Type} {p : StoreProg Sha α} (hp : p.All Idles) (n : Nat)
    (hset : ∀ t ∈ s.tasks, t.phase.settled = true) :
    (machine.seqRun src ts p n s).2.2.tasks = s.tasks := by
  apply Machine.seqRun_all (P := fun s' : Store Sha => s'.tasks = s.tasks) _ _ hp n rfl
  · intro e s' h
    change (poolStep e s').tasks = s.tasks
    rcases poolStep_tasks e s' with ⟨he, -⟩ | ⟨u, p, hu, hlt, -⟩
    · rwa [he]
    · have := hset u (h ▸ List.mem_of_getElem? hu)
      rw [u.phase.settled_iff_rank] at this
      omega
  · intro a ha tk s' h
    change (exec src tk a s').2.tasks = s.tasks
    cases a with
    | submit => exact ha.elim
    | cancel f =>
      simp only [exec]
      split
      case h_1 sha data hf => cases hset _ (h ▸ List.mem_of_getElem? hf)
      case h_2 => exact h
    | claimKnown sha | download sha | delete sha =>
      simp only [exec]
      split
      · exact h
      · first | exact h | (split <;> exact h)
    | result f | failed f =>
      simp only [exec]
      split <;> exact h
    | _ => exact h

/-- An upload of the call raises, or a read of its source. -/
def Call.Fails (cfg : StoreConfig) (c : Call Sha) (ts : Nat → Tick) (n : Nat) (s : Store Sha) :
    Prop :=
  UploadFailed s (machine.seqRun c.src ts (c.prog cfg) n s).2.2 ∨
    machine.Alarmed ReadRaised c.src ts (c.prog cfg) n s

section PutFile

variable {n n' : Nat} {st : PutState Sha} {e : Option (PyErr Sha)} {m : Store Sha}

theorem putFile_step (hs : Readable s) (src : Src Sha) (ts : Nat → Tick) (n : Nat) :
    machine.exec src (ts n) (.getChunks ino) (machine.turn (ts n) (.getChunks ino) s) =
      (s.index.getChunks ino, s) :=
  congrArg _ (hs.turn rfl)

/-- A `put_file` fails exactly if the body of its `try` raises. -/
theorem putFile_fails_iff (hs : Accounted s)
    (hrun : machine.seqRun src ts (putBody cfg ino size dirty (s.index.getChunks ino)) (n + 1) s =
      ((st, e), n', m)) :
    Call.Fails cfg (Call.putFile ino size dirty src) ts n s ↔ e ≠ none := by
  have hreads : machine.Alarmed ReadRaised src ts (putFile cfg ino size dirty) n s ↔
      machine.Alarmed ReadRaised src ts (putBody cfg ino size dirty (s.index.getChunks ino)) (n + 1)
        s := by
    rw [putFile_eq, machine.alarmed_step (putFile_step hs.readable src ts n), Machine.alarmed_bind]
    constructor
    · rintro (h | h | h)
      · exact h.elim
      · exact h
      · exact absurd h (machine.not_alarmed_of_all (readless_putEnd _ _))
    · exact fun h => .inr (.inl h)
  change UploadFailed s (machine.seqRun src ts (putFile cfg ino size dirty) n s).2.2 ∨
    machine.Alarmed ReadRaised src ts (putFile cfg ino size dirty) n s ↔ e ≠ none
  rw [hreads, seqRun_putFile_parts hs.readable, hrun]
  cases e with
  | none =>
    obtain ⟨hset, hup, hread⟩ := putBody_returned hs.readable hrun
    have htasks : (machine.seqRun src ts (putEnd ino (s.index.getChunks ino) (st, none)) n'
        m).2.2.tasks = m.tasks := idle_tasks (idles_putEnd _ _) n' hset
    constructor
    · rintro (⟨t, ht, hp⟩ | h)
      · exact absurd ⟨t, htasks ▸ ht, hp⟩ hup
      · exact absurd h hread
    · exact fun h => absurd rfl h
  | some x =>
    refine ⟨fun _ => by simp, fun _ => ?_⟩
    rcases putBody_raised hs hrun with h | h
    · exact .inl (h.stays _ _)
    · exact .inr h

omit [Sha256 Sha] in
theorem undo_eq (r : Refs Sha) (x : PyErr Sha) : undo r x =
    (settle r).bind fun _ => (releaseAcquired r r.acquired).bind fun raised =>
      (.ret (.error (raised.getD x)) : StoreProg Sha _) := by
  unfold undo
  rw [Prog.bind_eq, rollback_eq, Prog.bind_assoc]
  congr 1
  funext _
  congr 1
  funext raised
  cases raised <;> rfl

omit [Sha256 Sha] in
/-- Behind the `wait` of the `except` clause the futures of the call are settled. -/
theorem settled_settle (r : Refs Sha) (n : Nat) {f : FutId} (hf : f ∈ r.pending.map (·.2)) :
    (machine.seqRun src ts (settle r) n s).2.2.settled f = true := by
  let out := machine.seqRun src ts (cancelAll (r.pending.map (·.2))) n s
  have hstate : (machine.seqRun src ts (settle r) n s).2.2 =
      machine.turn (ts out.2.1) (.waitAll (r.pending.map (·.2))) out.2.2 :=
    congrArg (·.2.2) (machine.seqRun_bind src ts (cancelAll (r.pending.map (·.2)))
      (fun _ => (perform (.waitAll (r.pending.map (·.2))) : StoreProg Sha Unit)) n s)
  rw [hstate]
  have hready := machine.ready_turn (ts out.2.1) (.waitAll (r.pending.map (·.2))) out.2.2
  exact List.all_eq_true.mp hready f hf

/-- Up to its releases a rollback runs as on a backend whose deletes never raise. -/
theorem settle_alone {ow : Owned Sha} {r : Refs Sha} {known : Multiset Sha}
    {dones : Multiset (Sha × FutId)} {g : Res Sha} (h : PutRes ow r known dones g)
    (hi : Inv True NoFree m (g + 0))
    (hcalm : machine.seqRun src (fun k => (ts k).calm) (settle r) n m =
      machine.seqRun src ts (settle r) n m) :
    ∃ g', RollRes ow r r.acquired known dones g' ∧
      Alone True NoFree (machine.seqRun src ts (settle r) n m).2.2 g' := by
  obtain ⟨g', hroll, hi'⟩ := (@safe_settle Sha _ _ True NoFree src _ _ _ _ _ h).seqRun
    (fun k => (ts k).quiet_calm) (n := n) hi
  rw [hcalm] at hi'
  refine ⟨g', hroll, hi', fun t ht => ?_⟩
  obtain ⟨f, hf⟩ := List.getElem?_of_mem ht
  by_contra hset
  have howned := hi'.tasks.owned f t hf (by simpa using hset)
  rw [add_zero, hroll.futs, zero_add] at howned
  obtain ⟨p, hp, rfl⟩ := Multiset.mem_map.mp howned
  have hpend := hroll.pending p (Multiset.mem_add.mpr (.inr hp))
  have hdone : (machine.seqRun src ts (settle r) n m).2.2.settled p.2 = true :=
    settled_settle r n (List.mem_map_of_mem hpend)
  unfold Store.settled at hdone
  rw [hf] at hdone
  exact hset hdone

/-- What a `put_file` leaves that fails, whatever its deletes do. -/
theorem putFile_raised {x : PyErr Sha} (hs : Accounted s)
    (hrun : machine.seqRun src ts (putBody cfg ino size dirty (s.index.getChunks ino)) (n + 1) s =
      ((st, some x), n', m)) :
    (∃ x', (machine.seqRun src ts (putFile cfg ino size dirty) n s).1 = .error x') ∧
      (machine.seqRun src ts (putFile cfg ino size dirty) n s).2.2.index.chunks = s.index.chunks ∧
      ∃ g, Alone True NoFree (machine.seqRun src ts (putFile cfg ino size dirty) n s).2.2 g ∧
        g.owns = {Inv.own s ino} ∧
        (machine.Missed undeleted Releases src ts (putFile cfg ino size dirty) n s ↔
          Owes (machine.seqRun src ts (putFile cfg ino size dirty) n s).2.2.tasks g) := by
  have hcalmBody := putBody_calm src ts cfg ino size dirty (s.index.getChunks ino) hs.readable (n + 1)
  have htake : Inv True NoFree s ({ owns := {Inv.own s ino} } + 0) := hs.inv.take (by simp)
  obtain ⟨g, ⟨-, herr⟩, hi⟩ := (@safe_putBody Sha _ _ True NoFree src (Inv.own s ino) cfg size dirty
    rfl).seqRun (fun k => (ts k).quiet_calm) (n := n + 1) htake
  have hcalmRun := hcalmBody.trans hrun
  change machine.seqRun src (fun k => (ts k).calm) (putBody cfg (Inv.own s ino).ino size dirty
    (Inv.own s ino).rows) (n + 1) s = _ at hcalmRun
  rw [hcalmRun] at herr hi
  obtain ⟨-, known, dones, hres⟩ := herr x rfl
  -- the settling deletes nothing either
  have hcalmSettle : machine.seqRun src (fun k => (ts k).calm) (settle st.refs) n' m =
      machine.seqRun src ts (settle st.refs) n' m := by
    have hidle : (settle st.refs).All Idles :=
      (all_cancelAll (fun _ => trivial) _).bind fun _ => ⟨trivial, fun _ => trivial⟩
    have hquiet : (settle st.refs).All fun a => ∀ reply, ¬ DeleteRaised a reply :=
      (all_cancelAll (fun _ _ => id) _).bind fun _ => ⟨fun _ => id, fun _ => trivial⟩
    obtain ⟨calls, w, hgather⟩ := putBody_gathering src ts cfg ino size dirty
      (s.index.getChunks ino) hs.readable (n + 1)
    rw [hrun] at hgather
    apply (seqRun_calm_of_not_alarmed (settle st.refs) n' m).2 _
      (machine.not_alarmed_of_all hquiet)
    exact (hgather.undo.seqRun hs.readable.settled hidle ts n').trans hgather.spoils.symm
  obtain ⟨g', hroll, halone⟩ := settle_alone hres hi hcalmSettle
  rcases hsettle : machine.seqRun src ts (settle st.refs) n' m with ⟨u, n₁, m₁⟩
  rw [hsettle] at halone
  obtain ⟨g₁, htasks, halone₁, howns, hiff⟩ := run_releaseAcquired hroll halone src ts n₁
  have hput : machine.seqRun src ts (putFile cfg ino size dirty) n s =
      machine.seqRun src ts ((releaseAcquired st.refs st.refs.acquired).bind fun raised =>
        (.ret (.error (raised.getD x)) : StoreProg Sha _)) n₁ m₁ := by
    rw [seqRun_putFile_parts hs.readable, hrun]
    change machine.seqRun src ts (undo st.refs x) n' m = _
    rw [undo_eq, Machine.seqRun_bind, hsettle]
  have hmissed : machine.Missed undeleted Releases src ts (putFile cfg ino size dirty) n s ↔
      machine.Missed undeleted Releases src ts (releaseAcquired st.refs st.refs.acquired) n₁ m₁ := by
    have hbody : (putBody cfg ino size dirty (s.index.getChunks ino)).All
        fun a => ∀ reply, undeleted a reply = none :=
      all_putBody cfg ino size dirty (fun _ _ => rfl) (fun _ _ => rfl) (fun _ _ => rfl)
        (fun _ _ _ => rfl) (fun _ _ _ => rfl) (fun _ _ => rfl) _
    have hsettled : (settle st.refs).All fun a => ∀ reply, undeleted a reply = none :=
      (all_cancelAll (fun _ _ => rfl) _).bind fun _ => ⟨fun _ => rfl, fun _ => trivial⟩
    have hfirst : machine.Missed undeleted Releases src ts (putFile cfg ino size dirty) n s ↔
        machine.Missed undeleted Releases src ts ((putBody cfg ino size dirty
          (s.index.getChunks ino)).bind (putEnd ino (s.index.getChunks ino))) (n + 1) s := by
      rw [putFile_eq]
      refine (machine.missed_step (putFile_step hs.readable src ts n)).trans
        ⟨fun h => h.resolve_left ?_, .inr⟩
      simp [undeleted]
    rw [hfirst, machine.missed_bind hbody, hrun]
    change machine.Missed undeleted Releases src ts (undo st.refs x) n' m ↔ _
    rw [undo_eq, machine.missed_bind hsettled, hsettle]
    exact machine.missed_bind_ret fun raised => ⟨_, rfl⟩
  have hchunks : (machine.seqRun src ts (putFile cfg ino size dirty) n s).2.2.index.chunks =
      s.index.chunks := by
    have hbody : (machine.seqRun src ts (putBody cfg ino size dirty (s.index.getChunks ino)) (n + 1)
        s).2.2.index.chunks = s.index.chunks := (seqRun_plain (plain_putBody _) src ts (n + 1) s).1
    rw [hrun] at hbody
    rw [seqRun_putFile_parts hs.readable, hrun]
    exact (seqRun_plain (plain_undo st.refs x) src ts n' m).1.trans hbody
  rw [hput] at hchunks ⊢
  rw [Machine.seqRun_bind] at hchunks ⊢
  rw [hmissed, hiff, ← htasks]
  exact ⟨⟨_, rfl⟩, hchunks, g₁, halone₁, howns, Iff.rfl⟩

end PutFile

end Store

end Tgfs
