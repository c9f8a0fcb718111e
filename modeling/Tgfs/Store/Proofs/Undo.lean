import Tgfs.Store.Proofs.Incremental

/-!
# A call that fails leaves no trace

Up to `set_chunks` a `put_file` only takes references and uploads. As long as the rows stand,
every blob they name has a reference of their own, so that its row and its message stay where
they are, whatever the call takes and gives back.
-/

namespace Tgfs

namespace Store

variable {Sha : Type} [DecidableEq Sha] {src : Src Sha}

/-! ## Blobs that have a reference -/

/-- The row and the message of a blob are those of `s₀`, up to the refcount. -/
def SameBlob (s₀ s : Store Sha) (h : Sha) (b₀ : Blob) : Prop :=
  (∃ b, s.index.blobs h = some b ∧ b.handle = b₀.handle ∧ b.len = b₀.len) ∧
    s.backend.blobs b₀.handle = s₀.backend.blobs b₀.handle

/-- An action drops the row of a blob with its last reference, or changes no more of it than the
refcount. -/
theorem exec_blob (t : Tick) (a : Act Sha) (s : Store Sha) {h : Sha} {b : Blob}
    (hb : s.index.blobs h = some b) :
    ((exec src t a s).2.index.blobs h = none ∧ a = .blobDecref h ∧ b.refcount ≤ 1) ∨
      ∃ b', (exec src t a s).2.index.blobs h = some b' ∧ b'.handle = b.handle ∧ b'.len = b.len := by
  have hincref : ∀ sha, ∃ b', (s.index.blobIncref sha).blobs h = some b' ∧
      b'.handle = b.handle ∧ b'.len = b.len := by
    intro sha
    by_cases hh : h = sha
    · subst hh
      exact ⟨{ b with refcount := b.refcount + 1 }, by simp [Meta.blobIncref, Meta.putBlob, hb],
        rfl, rfl⟩
    · exact ⟨b, by simp [Meta.blobIncref, Meta.putBlob, Function.update_of_ne hh, hb], rfl, rfl⟩
  have hsame : ∃ b', s.index.blobs h = some b' ∧ b'.handle = b.handle ∧ b'.len = b.len :=
    ⟨b, hb, rfl, rfl⟩
  cases a with
  | blobIncref sha => exact .inr (hincref sha)
  | claimKnown sha =>
    simp only [exec]
    split
    · exact .inr (hincref sha)
    · exact .inr hsame
  | blobDecref sha =>
    simp only [exec, Meta.blobDecref]
    split
    · exact .inr hsame
    · rename_i b₁ hb₁
      by_cases hh : h = sha
      · subst hh
        obtain rfl : b = b₁ := Option.some.inj (hb.symm.trans hb₁)
        split
        case isTrue hle => exact .inl ⟨by simp [Meta.putBlob], rfl, hle⟩
        case isFalse =>
          exact .inr ⟨{ b with refcount := b.refcount - 1 }, by simp [Meta.putBlob], rfl, rfl⟩
      · right
        split <;> simpa [Meta.putBlob, Function.update_of_ne hh] using hsame
  | download sha | delete sha =>
    right
    simp only [exec]
    split
    · exact hsame
    · first | exact hsame | (split <;> exact hsame)
  | result f | cancel f | failed f =>
    right
    simp only [exec]
    split <;> exact hsame
  | _ => exact .inr hsame

/-- An action deletes a message or leaves it as it is. -/
theorem exec_message (t : Tick) (a : Act Sha) (s : Store Sha) (hd : Handle) :
    (exec src t a s).2.backend.blobs hd = none ∨
      (exec src t a s).2.backend.blobs hd = s.backend.blobs hd := by
  cases a with
  | delete handle =>
    simp only [exec]
    split
    · exact .inr rfl
    · by_cases hh : hd = handle
      · subst hh
        exact .inl (by simp [Backend.delete])
      · exact .inr (by simp [Backend.delete, Function.update_of_ne hh])
  | claimKnown sha | download sha =>
    simp only [exec]
    split
    · exact .inr rfl
    · first | exact .inr rfl | (split <;> exact .inr rfl)
  | result f | cancel f | failed f =>
    simp only [exec]
    split <;> exact .inr rfl
  | _ => exact .inr rfl

/-- A pool step keeps the rows of all blobs, up to their refcounts. -/
theorem poolStep_blob (e : FutId × PoolTick) (s : Store Sha) {h : Sha} {b : Blob}
    (hb : s.index.blobs h = some b) :
    ∃ b', (poolStep e s).index.blobs h = some b' ∧ b'.handle = b.handle ∧ b'.len = b.len := by
  unfold poolStep
  split
  · exact ⟨b, hb, rfl, rfl⟩
  · rename_i t _
    split
    case h_3 handle hp =>
      split
      · rename_i hnone
        have hh : h ≠ t.sha := by
          rintro rfl
          simp [Meta.blobGet, hb] at hnone
        exact ⟨b, by simp [Meta.blobCreate, Meta.putBlob, Function.update_of_ne hh, hb], rfl, rfl⟩
      · by_cases hh : h = t.sha
        · subst hh
          exact ⟨{ b with refcount := b.refcount + 1 }, by simp [Meta.blobIncref, Meta.putBlob, hb],
            rfl, rfl⟩
        · exact ⟨b, by simp [Meta.blobIncref, Meta.putBlob, Function.update_of_ne hh, hb], rfl, rfl⟩
    all_goals first
      | exact ⟨b, hb, rfl, rfl⟩
      | (split <;> exact ⟨b, hb, rfl, rfl⟩)

/-- A pool step deletes a message or leaves it as it is, if its handle has been given out. -/
theorem poolStep_message (e : FutId × PoolTick) (s : Store Sha) {hd : Handle}
    (hlt : hd < s.backend.next) : (poolStep e s).backend.blobs hd = none ∨
      (poolStep e s).backend.blobs hd = s.backend.blobs hd := by
  unfold poolStep
  split
  · exact .inr rfl
  · split
    case h_2 =>
      split
      · exact .inr rfl
      · exact .inr (by simp [Backend.upload, setPhase, Function.update_of_ne (Nat.ne_of_lt hlt)])
    case h_4 handle hp =>
      split
      · exact .inr rfl
      · by_cases hh : hd = handle
        · subst hh
          exact .inl (by simp [Backend.delete, setPhase])
        · exact .inr (by simp [Backend.delete, setPhase, Function.update_of_ne hh])
    all_goals first
      | exact .inr rfl
      | (split <;> exact .inr rfl)

/-! ## What stands while the rows stand -/

/-- The rows and inodes are those of `s₀`, and so are the blobs that had a row there. -/
structure Untouched (s₀ s : Store Sha) : Prop where
  chunks : s.index.chunks = s₀.index.chunks
  inodes : s.index.inodes = s₀.index.inodes
  blobs : ∀ h b₀, s₀.index.blobs h = some b₀ → SameBlob s₀ s h b₀

omit [DecidableEq Sha] in
theorem Untouched.refl (s : Store Sha) : Untouched s s :=
  ⟨rfl, rfl, fun _ b hb => ⟨⟨b, hb, rfl, rfl⟩, rfl⟩⟩

variable [Sha256 Sha] {s₀ s s' : Store Sha} {mayFail : Prop} {canFree : Ino → Prop} {g : Res Sha}

/-- Nobody is freeing an inode. -/
abbrev NoFree : Ino → Prop := fun _ => False

theorem Inv.not_freeing (hi : Inv mayFail NoFree s g) (ino : Ino) : ino ∉ freeing g.owns := by
  intro hf
  obtain ⟨ow, how, hfree⟩ := Multiset.mem_map.mp hf
  exact hi.owns.canFree ow (Multiset.mem_filter.mp how).1 (Multiset.mem_filter.mp how).2

/-- While nobody frees an inode, every hash that a row names has a message. -/
theorem Inv.held_of_row (hi : Inv mayFail NoFree s g) {h : Sha} (hrow : 0 < s.index.rowCount h) :
    ∃ b, s.index.blobs h = some b ∧ Held s.backend h b := by
  obtain ⟨r, hr, hsha⟩ := List.countP_pos_iff.mp hrow
  simp only [decide_eq_true_eq] at hsha
  obtain ⟨b, hb⟩ := hi.blob_of_row (hi.not_freeing r.1) (Meta.mem_getChunks.mpr hr)
  rw [hsha] at hb
  exact ⟨b, hb, hi.blobs.stored h b hb⟩

/-- A step after which the invariant holds keeps the blobs that rows name. -/
theorem SameBlob.step (hi : Inv mayFail NoFree s' g) {h : Sha} {b₀ : Blob}
    (hrow : 0 < s'.index.rowCount h) (hs : SameBlob s₀ s h b₀)
    (hblob : ∀ b, s.index.blobs h = some b → s'.index.blobs h = none ∨
      ∃ b', s'.index.blobs h = some b' ∧ b'.handle = b.handle ∧ b'.len = b.len)
    (hmsg : s'.backend.blobs b₀.handle = none ∨
      s'.backend.blobs b₀.handle = s.backend.blobs b₀.handle) : SameBlob s₀ s' h b₀ := by
  obtain ⟨⟨b, hb, hhandle, hlen⟩, hdata⟩ := hs
  obtain ⟨b', hb', data, hd, -⟩ := hi.held_of_row hrow
  rcases hblob b hb with hnone | ⟨b₁, hb₁, hh₁, hl₁⟩
  · rw [hb'] at hnone
    cases hnone
  · obtain rfl : b' = b₁ := Option.some.inj (hb'.symm.trans hb₁)
    have hhandle' : b'.handle = b₀.handle := hh₁.trans hhandle
    refine ⟨⟨b', hb', hhandle', hl₁.trans hlen⟩, ?_⟩
    rcases hmsg with hnone | hmsg
    · rw [← hhandle', hd] at hnone
      cases hnone
    · exact hmsg.trans hdata

/-- In a store with exact books each blob of a row is named by some row. -/
theorem Accounted.rowCount_pos (hs : Accounted s) {h : Sha} {b : Blob}
    (hb : s.index.blobs h = some b) : 0 < s.index.rowCount h := by
  rw [← hs.refcount, Meta.refcount_of_blob hb]
  exact hs.counting h b hb

omit [Sha256 Sha] in
theorem rowCount_congr {m m' : Meta Sha} (h : m'.chunks = m.chunks) (sha : Sha) :
    m'.rowCount sha = m.rowCount sha := by
  unfold Meta.rowCount
  rw [h]

/-- Where the rows are those of `s₀`, so are the blobs they name. -/
theorem Untouched.step (hs₀ : Accounted s₀) (hi : Inv mayFail NoFree s' g) (h : Untouched s₀ s)
    (hchunks : s'.index.chunks = s.index.chunks) (hinodes : s'.index.inodes = s.index.inodes)
    (hblob : ∀ h b, s.index.blobs h = some b → s'.index.blobs h = none ∨
      ∃ b', s'.index.blobs h = some b' ∧ b'.handle = b.handle ∧ b'.len = b.len)
    (hmsg : ∀ hd, s₀.backend.blobs hd ≠ none → s.backend.blobs hd = s₀.backend.blobs hd →
      s'.backend.blobs hd = none ∨ s'.backend.blobs hd = s.backend.blobs hd) :
    Untouched s₀ s' := by
  refine ⟨hchunks.trans h.chunks, hinodes.trans h.inodes, fun sha b₀ hb₀ => ?_⟩
  have hrow : 0 < s'.index.rowCount sha := by
    rw [rowCount_congr (hchunks.trans h.chunks)]
    exact hs₀.rowCount_pos hb₀
  obtain ⟨-, data, hd, -⟩ := hs₀.stored sha b₀ hb₀
  refine (h.blobs sha b₀ hb₀).step hi hrow (hblob sha) (hmsg b₀.handle ?_ (h.blobs sha b₀ hb₀).2)
  rw [hd]
  exact Option.some_ne_none data

theorem Untouched.exec (hs₀ : Accounted s₀) (t : Tick) {a : Act Sha} (ha : Plain a)
    (hi : Inv mayFail NoFree (exec src t a s).2 g) (h : Untouched s₀ s) :
    Untouched s₀ (exec src t a s).2 :=
  h.step hs₀ hi (exec_plain ha).1 (exec_plain ha).2 (fun _ _ hb => (exec_blob t a s hb).imp_left And.left)
    fun hd _ _ => exec_message t a s hd

theorem Untouched.poolStep (hs₀ : Accounted s₀) (e : FutId × PoolTick) (hi : Inv mayFail NoFree s g)
    (hi' : Inv mayFail NoFree (poolStep e s) g) (h : Untouched s₀ s) :
    Untouched s₀ (poolStep e s) := by
  refine h.step hs₀ hi' (poolStep_plain e s).1 (poolStep_plain e s).2
    (fun _ _ hb => .inr (poolStep_blob e s hb)) fun hd hne hsame => poolStep_message e s ?_
  by_contra hge
  exact hne (hsame ▸ hi.blobs.fresh hd (Nat.le_of_not_lt hge))

/-- A program that commits no rows leaves untouched what was there. -/
theorem StoreSafe.untouched {α : Type} {post : α → Res Sha → Prop} {p : StoreProg Sha α}
    {ts : Nat → Tick} {n : Nat} {o : Res Sha} (hs₀ : Accounted s₀)
    (hp : StoreSafe mayFail NoFree src post p g) (hall : p.All Plain)
    (hts : ∀ n, (ts n).Quiet mayFail) (hi : Inv mayFail NoFree s (g + o)) (h : Untouched s₀ s) :
    ∃ g', post (machine.seqRun src ts p n s).1 g' ∧
      Inv mayFail NoFree (machine.seqRun src ts p n s).2.2 (g' + o) ∧
        Untouched s₀ (machine.seqRun src ts p n s).2.2 := by
  have hsafe := Machine.Safe.along (M := machine) (J := Untouched s₀) (P := Plain)
    (fun a t s g g' ha _ hi' h => h.exec hs₀ t ha hi') hp hall
  have henv : ∀ (e : FutId × PoolTick) s g, e.2.Quiet mayFail →
      Inv mayFail NoFree s g ∧ Untouched s₀ s →
        Inv mayFail NoFree (machine.env e s) g ∧ Untouched s₀ (machine.env e s) := by
    intro e s g he h
    have hi' := env_inv e s g he h.1
    exact ⟨hi', h.2.poolStep hs₀ e h.1 hi'⟩
  apply Machine.Safe.seqRun henv hsafe (fun n => (hts n).toQuietAct) (fun n => (hts n).before)
  · intro n s e he
    obtain ⟨f, rfl⟩ := mem_finishPool he
    exact (hts n).finish f
  · exact ⟨hi, h⟩

/-! ## The parts of `put_file` -/

section Parts

variable {cfg : StoreConfig} {ino : Ino} {size : Nat} {dirty : Option (Finset Nat)}

/-- The `except` clause of `put_file`, with its `raise`. -/
def undo (r : Refs Sha) (e : PyErr Sha) : StoreProg Sha (Except (PyErr Sha) Unit) := do
  match ← rollback r with
  | some e' => pure (.error e')
  | none => pure (.error e)

/-- What `put_file` does once it has all its references. -/
def commit (ino : Ino) (old : List (Chunk Sha)) (st : PutState Sha) :
    StoreProg Sha (Except (PyErr Sha) Unit) := do
  let _ : Unit ← perform (.setChunks ino st.new)
  let _ : Unit ← perform (.setSize ino st.off)
  match ← releaseAll (old.map (·.sha)) with
  | some e => pure (.error e)
  | none => pure (.ok ())

/-- What follows the body of `put_file`'s `try`. -/
def putEnd (ino : Ino) (old : List (Chunk Sha)) :
    PutState Sha × Option (PyErr Sha) → StoreProg Sha (Except (PyErr Sha) Unit)
  | (st, some e) => undo st.refs e
  | (st, none) => commit ino old st

theorem putFile_eq : putFile cfg ino size dirty =
    (.act (.getChunks ino) fun old : Act.Reply (.getChunks ino) =>
      (putBody cfg ino size dirty old).bind (putEnd ino old) : StoreProg Sha _) := by
  change Prog.act (Act.getChunks ino) _ = _
  congr 1

/-- `put_file` in its parts. -/
theorem seqRun_putFile_parts {ts : Nat → Tick} (hs : Readable s) (n : Nat) :
    machine.seqRun src ts (putFile cfg ino size dirty) n s =
      let out := machine.seqRun src ts (putBody cfg ino size dirty (s.index.getChunks ino)) (n + 1) s
      machine.seqRun src ts (putEnd ino (s.index.getChunks ino) out.1) out.2.1 out.2.2 := by
  rw [putFile_eq, Machine.seqRun_act, hs.turn rfl]
  exact machine.seqRun_bind src ts _ _ (n + 1) s

theorem plain_putBody (old : List (Chunk Sha)) : (putBody cfg ino size dirty old).All Plain :=
  all_putBody cfg ino size dirty (fun _ => trivial) (fun _ => trivial) (fun _ => trivial)
    (fun _ _ => trivial) (fun _ _ => trivial) (fun _ => trivial) old

omit [Sha256 Sha] in
theorem plain_undo (r : Refs Sha) (e : PyErr Sha) : (undo r e).All Plain := by
  apply (all_rollback (fun _ => trivial) (fun _ => trivial) (fun _ => trivial)
    (fun _ => trivial) (fun _ => trivial) _).bind
  intro e
  cases e <;> trivial

variable {ow : Owned Sha} {known : Multiset Sha} {dones : Multiset (Sha × FutId)}

/-- The `except` clause gives back everything and raises again. -/
theorem safe_undo {r : Refs Sha} (h : PutRes ow r known dones g) (e : PyErr Sha) :
    StoreSafe mayFail canFree src (fun res g' => res = .error e ∧ Idle ow g') (undo r e) g := by
  apply safe_bind (safe_rollback h)
  intro e' g' he
  obtain ⟨rfl, hidle⟩ := he
  exact safe_pure ⟨rfl, hidle⟩

/-- Unless a delete raises, nothing raises once the references are taken. -/
theorem safe_commit (hf : ow.freeing = false) {st : PutState Sha} (howns : g.owns = {ow})
    (hrefs : g.refs = Meta.shas st.new) (hsorted : IdxSorted st.new) :
    StoreSafe mayFail canFree src (fun res g' => res = .ok () ∧
      ∃ inode, g'.owns = {{ ow with rows := st.new, inode := inode }}) (commit ow.ino ow.rows st) g := by
  apply safe_bind (safe_setChunks howns hf (hrefs.trans (add_zero _).symm) hsorted)
  intro _ g' hg'
  subst hg'
  apply safe_bind (safe_setSize (show _ = {{ ow with rows := st.new }} from rfl) st.off)
  intro _ g' hg'
  obtain ⟨now, rfl⟩ := hg'
  apply safe_bind (safe_releaseAll rfl)
  intro e g' he
  obtain ⟨rfl, rfl⟩ := he
  exact safe_pure ⟨rfl, _, rfl⟩

end Parts

/-! ## A failed call -/

/-- The two stores have the same rows, inodes and blobs, and hold the same messages. -/
structure Unchanged (s s' : Store Sha) : Prop where
  rows : ∀ j, s'.index.getChunks j = s.index.getChunks j
  inodes : ∀ j, s'.index.inodes j = s.index.inodes j
  blobs : ∀ h, s'.index.blobs h = s.index.blobs h
  messages : ∀ hd, s'.backend.blobs hd = s.backend.blobs hd

/-- With exact books before and after, no blob has come or gone. -/
theorem Untouched.unchanged (hs₀ : Accounted s₀) (hs : Accounted s) (h : Untouched s₀ s) :
    Unchanged s₀ s := by
  have hblobs : ∀ sha, s.index.blobs sha = s₀.index.blobs sha := by
    intro sha
    have hcount : s.index.refcount sha = s₀.index.refcount sha := by
      rw [hs.refcount, hs₀.refcount, rowCount_congr h.chunks]
    cases hb₀ : s₀.index.blobs sha with
    | none =>
      cases hb : s.index.blobs sha with
      | none => rfl
      | some b =>
        have := hs.counting sha b hb
        simp [Meta.refcount, hb, hb₀] at hcount
        omega
    | some b₀ =>
      obtain ⟨⟨b, hb, hhandle, hlen⟩, -⟩ := h.blobs sha b₀ hb₀
      rw [Meta.refcount_of_blob hb, Meta.refcount_of_blob hb₀] at hcount
      rw [hb]
      congr 1
      cases b
      cases b₀
      simp_all
  refine ⟨Meta.getChunks_congr h.chunks, fun j => congrFun h.inodes j, hblobs, fun hd => ?_⟩
  -- whoever holds a message, before or after, has a blobs row for it
  cases hd' : s.backend.blobs hd with
  | some data =>
    obtain ⟨sha, b, hb, rfl⟩ := hs.held hd data hd'
    rw [← hd', (h.blobs sha b (hblobs sha ▸ hb)).2]
  | none =>
    cases hd₀ : s₀.backend.blobs hd with
    | none => rfl
    | some data =>
      obtain ⟨sha, b, hb, rfl⟩ := hs₀.held hd data hd₀
      rw [← hd', ← hd₀, (h.blobs sha b hb).2]

/-- A `put_file` that raises before it commits rows leaves the store as it was: an upload may
fail at any point, and the source may raise at any position. -/
theorem putFile_undone (cfg : StoreConfig) (ino : Ino) (size : Nat) (dirty : Option (Finset Nat))
    {ts : Nat → Tick} (hs : Accounted s) (hts : ∀ n, (ts n).Quiet True) (n : Nat) {e : PyErr Sha}
    (he : (machine.seqRun src ts (putFile cfg ino size dirty) n s).1 = .error e) :
    Unchanged s (machine.seqRun src ts (putFile cfg ino size dirty) n s).2.2 := by
  have hfree : (Inv.own s ino).freeing = false := rfl
  have htake : Inv True NoFree s ({ owns := {Inv.own s ino} } + 0) := hs.inv.take (by simp)
  have hcount := seqRun_counting src ts (putFile cfg ino size dirty) n hs.counting
  rw [seqRun_putFile_parts hs.readable] at he hcount ⊢
  obtain ⟨g, ⟨hok, herr⟩, hi, hu⟩ := StoreSafe.untouched hs
    (@safe_putBody Sha _ _ _ _ src _ cfg size dirty hfree) (plain_putBody _) hts (n := n + 1) htake (.refl s)
  rcases hout : machine.seqRun src ts (putBody cfg ino size dirty (s.index.getChunks ino)) (n + 1) s
    with ⟨⟨st, e'⟩, n', s'⟩
  simp only [hout] at he hcount ⊢
  change machine.seqRun src ts (putBody cfg (Inv.own s ino).ino size dirty (Inv.own s ino).rows)
    (n + 1) s = _ at hout
  rw [hout] at hok herr hi hu
  cases e' with
  | none =>
    obtain ⟨hscan, -, hrefs, -, -, -, howns⟩ := hok rfl
    obtain ⟨_, ⟨hres, -⟩, -⟩ :=
      (@safe_commit Sha _ src _ _ _ _ _ hfree _ howns hrefs hscan.idxSorted).seqRun hts (n := n') hi
    cases he.symm.trans hres
  | some e' =>
    obtain ⟨-, known, dones, hres⟩ := herr e' rfl
    obtain ⟨g', ⟨-, hidle⟩, hi', hu'⟩ := StoreSafe.untouched hs (@safe_undo Sha _ src _ _ _ _ _ _ _ _ hres e')
      (plain_undo _ _) hts (n := n') hi hu
    have hover := hi'.leave hidle.refs hidle.futs hidle.doomed hidle.trash (by
      intro ow how
      rw [hidle.owns, Multiset.mem_singleton] at how
      rw [how]
      rfl)
    exact hu'.unchanged hs (hover.accounted hcount)

/-- The first chunk is known and gets a reference, the second is new and cannot be uploaded. -/
theorem putFile_undone_upload :
    Unchanged twoChunks (machine.seqRun (Src.whole [1, 2, 9])
      (fun _ => { finish := fun _ => { uploadFails := true } })
      (putFile ⟨2, 1, by decide, by decide⟩ 2 3 none) 0 twoChunks).2.2 :=
  putFile_undone _ _ _ _ twoChunks_accounted
    (fun _ => ⟨⟨rfl, by decide⟩, by simp, fun _ => ⟨rfl, fun _ => trivial⟩⟩) 0
    (e := .uploadFailed) (by decide +kernel)

end Store

end Tgfs
