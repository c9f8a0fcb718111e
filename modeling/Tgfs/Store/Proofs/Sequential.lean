import Tgfs.Store.Proofs.Threads

/-!
# The methods of `Store` run by themselves

From exact books, `put_file` and `free_file` end in exact books and change nothing but the
rows and the inode row of their own inode. The reads leave the store as it is.
-/

namespace Tgfs

namespace Machine

variable {A : Type} {R : A → Type} {S T E X α γ : Type} (M : Machine A R S T E X)

/-- What every action and every helper keeps, a whole program keeps. -/
theorem seqRun_keeps (f : S → γ) (hexec : ∀ x t a s, f (M.exec x t a s).2 = f s)
    (henv : ∀ e s, f (M.env e s) = f s) (x : X) (ts : Nat → T) (p : Prog A R α) (n : Nat) (s : S) :
    f (M.seqRun x ts p n s).2.2 = f s := by
  have hrun : ∀ es s, f (M.runEnv es s) = f s := by
    intro es
    induction es with
    | nil => exact fun _ => rfl
    | cons e es ih => exact fun s => (ih _).trans (henv e s)
  have hturn : ∀ t a s, f (M.turn t a s) = f s := by
    intro t a s
    unfold turn
    split
    · exact hrun _ _
    · exact (hrun _ _).trans (hrun _ _)
  induction p generalizing n s with
  | ret a => rfl
  | act a k ih => rw [seqRun_act, ih, hexec, hturn]

end Machine

namespace Store

variable {Sha : Type} [DecidableEq Sha]

/-! ## Names are never touched -/

theorem exec_dirents (src : Src Sha) (t : Tick) (a : Act Sha) (s : Store Sha) :
    ((exec src t a s).2.index.dirents, (exec src t a s).2.index.nextIno) =
      (s.index.dirents, s.index.nextIno) := by
  have hdec : ∀ sha, (s.index.blobDecref sha).2.dirents = s.index.dirents ∧
      (s.index.blobDecref sha).2.nextIno = s.index.nextIno := by
    intro sha
    obtain ⟨-, he⟩ | ⟨b, -, -, he⟩ | ⟨b, -, -, he⟩ := s.index.blobDecref_cases sha <;>
      rw [he] <;> exact ⟨rfl, rfl⟩
  cases a with
  | blobDecref sha => exact Prod.ext (hdec sha).1 (hdec sha).2
  | claimKnown sha | download sha | delete sha => simp only [exec]; split <;> first | rfl | (split <;> rfl)
  | result f | cancel f | failed f => simp only [exec]; split <;> rfl
  | _ => rfl

theorem poolStep_dirents (e : FutId × PoolTick) (s : Store Sha) :
    ((poolStep e s).index.dirents, (poolStep e s).index.nextIno) =
      (s.index.dirents, s.index.nextIno) := by
  unfold poolStep
  split
  · rfl
  · split <;> first | rfl | (split <;> rfl)

theorem seqRun_dirents {α : Type} (src : Src Sha) (ts : Nat → Tick) (p : StoreProg Sha α) (n : Nat)
    (s : Store Sha) :
    (machine.seqRun src ts p n s).2.2.index.dirents = s.index.dirents ∧
      (machine.seqRun src ts p n s).2.2.index.nextIno = s.index.nextIno :=
  Prod.mk.inj (machine.seqRun_keeps (fun s => (s.index.dirents, s.index.nextIno)) exec_dirents
    poolStep_dirents src ts p n s)

/-! ## Writing and freeing -/

/-- Nothing changed but the rows and the inode row of `ino`. -/
structure Framed (ino : Ino) (s s' : Store Sha) : Prop where
  dirents : s'.index.dirents = s.index.dirents
  nextIno : s'.index.nextIno = s.index.nextIno
  rows : ∀ j, j ≠ ino → s'.index.getChunks j = s.index.getChunks j
  inodes : ∀ j, j ≠ ino → s'.index.inodes j = s.index.inodes j

omit [DecidableEq Sha] in
theorem Framed.refl (ino : Ino) (s : Store Sha) : Framed ino s s :=
  ⟨rfl, rfl, fun _ _ => rfl, fun _ _ => rfl⟩

omit [DecidableEq Sha] in
theorem Framed.trans {ino : Ino} {s₁ s₂ s₃ : Store Sha} (h : Framed ino s₁ s₂)
    (h' : Framed ino s₂ s₃) : Framed ino s₁ s₃ :=
  ⟨h'.dirents.trans h.dirents, h'.nextIno.trans h.nextIno,
    fun j hj => (h'.rows j hj).trans (h.rows j hj),
    fun j hj => (h'.inodes j hj).trans (h.inodes j hj)⟩

variable [Sha256 Sha] {mayFail : Prop} {src : Src Sha} {ts : Nat → Tick} {s : Store Sha}

/-- What another call would own is what it was. -/
theorem seen_other {α : Type} {ino j : Ino} {post : α → Res Sha → Prop} {p : StoreProg Sha α}
    (hp : StoreSafe mayFail (fun _ => True) src post p { owns := {Inv.own s ino} })
    (hs : Accounted s) (hts : ∀ n, (ts n).Quiet mayFail) (n : Nat) (hj : j ≠ ino) :
    (machine.seqRun src ts p n s).2.2.index.getChunks j = s.index.getChunks j ∧
      (machine.seqRun src ts p n s).2.2.index.inodes j = s.index.inodes j := by
  have hI : Inv mayFail (fun _ => True) s
      ({ owns := {Inv.own s ino} } + ({ owns := {Inv.own s j} } + 0)) :=
    (hs.inv.take (by simp)).take (by simpa [Inv.own] using hj.symm)
  obtain ⟨g, -, hI'⟩ := hp.seqRun (n := n) hts hI
  exact hI'.owns.seen (Inv.own s j) (by simp)

/-- A safe call that works on one inode leaves to the others what they owned. -/
theorem seqRun_over {α : Type} {ino : Ino} {post : α → Owned Sha → Prop} {p : StoreProg Sha α}
    {o : Res Sha}
    (hp : StoreSafe mayFail (fun _ => True) src (Over ino post) p { owns := {Inv.own s ino} })
    (hs : Inv mayFail (fun _ => True) s ({ owns := {Inv.own s ino} } + o))
    (hts : ∀ n, (ts n).Quiet mayFail) (n : Nat) :
    Inv mayFail (fun _ => True) (machine.seqRun src ts p n s).2.2 o ∧
      post (machine.seqRun src ts p n s).1
        (Inv.own (machine.seqRun src ts p n s).2.2 ino) := by
  obtain ⟨g, ⟨ow, hpost, hino, hfree, hidle⟩, hI⟩ := hp.seqRun (n := n) hts hs
  constructor
  · refine hI.leave hidle.refs hidle.futs hidle.doomed hidle.trash fun ow' ho => ?_
    rw [hidle.owns, Multiset.mem_singleton] at ho
    exact ho ▸ hfree
  · have hrows := hI.owned_rows hidle.owns
    have hinode := hI.owned_inode hidle.owns
    rw [hino] at hrows hinode
    have : ow = Inv.own (machine.seqRun src ts p n s).2.2 ino := by
      obtain ⟨i, rows, inode, fr⟩ := ow
      simp only at hino hfree hrows hinode
      rw [Inv.own, hrows, hinode, hino, hfree]
    exact this ▸ hpost

/-- With exact books there are no others. -/
theorem seqRun_call {α : Type} {ino : Ino} {post : α → Owned Sha → Prop} {p : StoreProg Sha α}
    (hp : StoreSafe mayFail (fun _ => True) src (Over ino post) p { owns := {Inv.own s ino} })
    (hs : Accounted s) (hts : ∀ n, (ts n).Quiet mayFail) (n : Nat) :
    Accounted (machine.seqRun src ts p n s).2.2 ∧
      Framed ino s (machine.seqRun src ts p n s).2.2 ∧
        post (machine.seqRun src ts p n s).1
          (Inv.own (machine.seqRun src ts p n s).2.2 ino) := by
  obtain ⟨hI, hpost⟩ := seqRun_over (o := 0) hp (hs.inv.take (by simp)) hts n
  refine ⟨hI.accounted (seqRun_counting src ts p n hs.counting),
    ⟨?_, ?_, fun j hj => ?_, fun j hj => ?_⟩, hpost⟩
  · exact (seqRun_dirents src ts p n s).1
  · exact (seqRun_dirents src ts p n s).2
  · exact (seen_other hp hs hts n hj).1
  · exact (seen_other hp hs hts n hj).2

theorem seqRun_putFile (src : Src Sha) (cfg : StoreConfig) (ino : Ino) (size : Nat)
    (dirty : Option (Finset Nat)) (hs : Accounted s) (hts : ∀ n, (ts n).Quiet mayFail) (n : Nat) :
    Accounted (machine.seqRun src ts (putFile cfg ino size dirty) n s).2.2 ∧
      Framed ino s (machine.seqRun src ts (putFile cfg ino size dirty) n s).2.2 ∧
        PutPost mayFail cfg size dirty src (Inv.own s ino)
          (machine.seqRun src ts (putFile cfg ino size dirty) n s).1
          (Inv.own (machine.seqRun src ts (putFile cfg ino size dirty) n s).2.2 ino) :=
  seqRun_call (safe_putFile (show (Inv.own s ino).freeing = false from rfl)) hs hts n

theorem seqRun_freeFile (src : Src Sha) (ino : Ino) (hs : Accounted s) (hts : ∀ n, (ts n).Quiet mayFail)
    (n : Nat) :
    Accounted (machine.seqRun src ts (freeFile ino) n s).2.2 ∧
      Framed ino s (machine.seqRun src ts (freeFile ino) n s).2.2 ∧
        FreePost (Inv.own s ino) (machine.seqRun src ts (freeFile ino) n s).1
          (Inv.own (machine.seqRun src ts (freeFile ino) n s).2.2 ino) :=
  seqRun_call (safe_freeFile (show (Inv.own s ino).freeing = false from rfl) trivial) hs hts n

/-- The books are about blobs and rows only. -/
theorem Accounted.reindex {m : Meta Sha} (h : Accounted s) (hb : m.blobs = s.index.blobs)
    (hc : m.chunks = s.index.chunks) : Accounted { s with index := m } := by
  refine ⟨fun sha => ?_, fun sha b hsb => h.stored sha b (hb ▸ hsb), fun hd data hdata => ?_,
    h.fresh, h.tasks⟩
  · have := h.refcount sha
    unfold Meta.refcount Meta.rowCount at this ⊢
    rw [hb, hc]
    exact this
  · obtain ⟨sha, b, hsb, hh⟩ := h.held hd data hdata
    exact ⟨sha, b, hb ▸ hsb, hh⟩

/-! ## Reading -/

/-- All that a read relies on: nothing is in flight and no blobs row dangles. -/
structure Readable (s : Store Sha) : Prop where
  settled : ∀ t ∈ s.tasks, t.phase.settled = true
  held : ∀ h b, s.index.blobs h = some b → Held s.backend h b

theorem Accounted.readable (hs : Accounted s) : Readable s :=
  ⟨fun t ht => (hs.tasks t ht).1, fun h b hb => (hs.stored h b hb).2⟩

/-- The content behind a hash. -/
def blobData (s : Store Sha) (sha : Sha) : Option Bytes :=
  (s.index.blobs sha).bind fun b => s.backend.blobs b.handle

theorem Accounted.blobData_row (hs : Accounted s) {ino : Ino} {c : Chunk Sha}
    (hc : c ∈ s.index.getChunks ino) :
    ∃ data, s.blobData c.sha = some data ∧ sha256 data = c.sha := by
  have hI : Inv True (fun _ => True) s 0 := hs.inv
  obtain ⟨b, hb⟩ := hI.blob_of_row (by simp [freeing]) hc
  obtain ⟨-, data, hdata, hsha, -⟩ := hs.stored _ b hb
  exact ⟨data, by simp [blobData, hb, hdata], hsha⟩

omit [DecidableEq Sha] in
theorem Readable.sha_blobData (hs : Readable s) {sha : Sha} {data : Bytes}
    (hd : s.blobData sha = some data) : sha256 data = sha := by
  obtain ⟨b, hb, hdata⟩ := Option.bind_eq_some_iff.mp hd
  obtain ⟨data', hdata', hsha, -⟩ := hs.held _ b hb
  rw [hdata] at hdata'
  cases hdata'
  exact hsha

/-- With nothing in flight the pool has no step to take. -/
theorem Readable.poolStep (hs : Readable s) (e : FutId × PoolTick) : Store.poolStep e s = s := by
  unfold Store.poolStep
  cases ht : s.tasks[e.1]? with
  | none => rfl
  | some t =>
    have hset := hs.settled t (List.mem_of_getElem? ht)
    simp only
    cases hp : t.phase with
    | queued | running | uploaded _ | dropCopy _ => rw [hp] at hset; cases hset
    | done | failed _ | cancelled => rfl

theorem Readable.turn (hs : Readable s) {t : Tick} {a : Act Sha} (hr : ready a s = true) :
    machine.turn t a s = s := by
  have hrun : ∀ es, machine.runEnv es s = s := by
    intro es
    induction es with
    | nil => rfl
    | cons e es ih => exact (congrArg (machine.runEnv es) (hs.poolStep e)).trans ih
  have hr' : machine.ready a s = true := hr
  unfold Machine.turn
  rw [hrun, hr', if_pos rfl]

theorem seqRun_perform {α : Type} (hs : Readable s) {a : Act Sha} (hr : ready a s = true)
    (f : a.Reply → StoreProg Sha α) (n : Nat) :
    machine.seqRun src ts (perform a >>= f) n s =
      machine.seqRun src ts (f (exec src (ts n) a s).1) (n + 1) (exec src (ts n) a s).2 := by
  change machine.seqRun src ts (.act a f) n s = _
  rw [Machine.seqRun_act, hs.turn hr]
  rfl

theorem seqRun_loadBlob (hs : Readable s) {b : Blob} {data : Bytes}
    (hd : s.backend.blobs b.handle = some data) (n : Nat) :
    machine.seqRun src ts (loadBlob (sha256 data) b) n s =
      (if (ts n).downloadFails then .error .downloadFailed else .ok data, n + 1, s) := by
  refine (seqRun_perform hs (a := .download b.handle) rfl _ n).trans ?_
  simp only [exec, Backend.download, hd]
  cases (ts n).downloadFails with
  | true => rfl
  | false =>
    simp only [Bool.false_eq_true, if_false, if_true]
    rfl

theorem seqRun_fetch (hs : Readable s) {sha : Sha} {data : Bytes}
    (hd : s.blobData sha = some data) (n : Nat) :
    machine.seqRun src ts (fetch sha) n s =
      (if (ts (n + 1)).downloadFails then .error .downloadFailed else .ok data, n + 2, s) := by
  obtain ⟨b, hb, hdata⟩ := Option.bind_eq_some_iff.mp hd
  obtain rfl := hs.sha_blobData hd
  refine (seqRun_perform hs (a := .blobGet (sha256 data)) rfl _ n).trans ?_
  simp only [exec, Meta.blobGet, hb]
  exact seqRun_loadBlob hs hdata (n + 1)

/-- Reading the parts of a file leaves the store as it is. The outcome depends only on the
content behind the hashes, and only a download can raise. -/
theorem seqRun_readParts {s' : Store Sha} (hs : Readable s) (hs' : Readable s')
    (offset fin : Nat) {cs : List (Chunk Sha)}
    (hcs : ∀ c ∈ cs, ∃ data, s.blobData c.sha = some data ∧ s'.blobData c.sha = some data)
    (n : Nat) :
    ∃ r n', machine.seqRun src ts (readParts offset fin cs) n s = (r, n', s) ∧
      machine.seqRun src ts (readParts offset fin cs) n s' = (r, n', s') ∧
        ∀ e, r = .error e → e = .downloadFailed := by
  induction cs generalizing n with
  | nil => exact ⟨.ok [], n, rfl, rfl, by simp⟩
  | cons c cs ih =>
    obtain ⟨data, hd, hd'⟩ := hcs c List.mem_cons_self
    unfold readParts
    simp only [Prog.bind_eq, Machine.seqRun_bind, seqRun_fetch hs hd, seqRun_fetch hs' hd']
    cases (ts (n + 1)).downloadFails with
    | true => exact ⟨.error .downloadFailed, n + 2, rfl, rfl, by simp⟩
    | false =>
      obtain ⟨r, n', h, h', herr⟩ := ih (fun x hx => hcs x (List.mem_cons_of_mem _ hx)) (n + 2)
      simp only [Bool.false_eq_true, if_false, Machine.seqRun_bind, h, h']
      cases r with
      | error e => exact ⟨.error e, n', rfl, rfl, herr⟩
      | ok rest => exact ⟨.ok _, n', rfl, rfl, by simp⟩

theorem seqRun_readRange_parts (hs : Readable s) {ino : Ino} {offset length : Nat}
    (hl : length ≠ 0) (n : Nat) :
    machine.seqRun src ts (readRange ino offset length) n s =
      machine.seqRun src ts (readParts offset (offset + length)
        ((s.index.getChunks ino).filter fun c =>
          c.off + c.len > offset ∧ c.off < offset + length)) (n + 1) s := by
  unfold readRange
  rw [if_neg hl]
  exact seqRun_perform hs (a := .getChunks ino) rfl _ n

/-- The same for a range of a file. -/
theorem seqRun_readRange {s' : Store Sha} (hs : Accounted s) (hs' : Accounted s') {ino : Ino}
    (hrows : s'.index.getChunks ino = s.index.getChunks ino)
    (hdata : ∀ c ∈ s.index.getChunks ino, s'.blobData c.sha = s.blobData c.sha)
    (offset length n : Nat) :
    ∃ r n', machine.seqRun src ts (readRange ino offset length) n s = (r, n', s) ∧
      machine.seqRun src ts (readRange ino offset length) n s' = (r, n', s') ∧
        ∀ e, r = .error e → e = .downloadFailed := by
  by_cases hl : length = 0
  · unfold readRange
    rw [if_pos hl]
    exact ⟨.ok [], n, rfl, rfl, by simp⟩
  · rw [seqRun_readRange_parts hs.readable hl, seqRun_readRange_parts hs'.readable hl, hrows]
    refine seqRun_readParts hs.readable hs'.readable _ _ (fun c hc => ?_) (n + 1)
    have hmem := (List.mem_filter.mp hc).1
    obtain ⟨data, hd, -⟩ := hs.blobData_row hmem
    exact ⟨data, hd, (hdata c hmem).trans hd⟩

end Store

end Tgfs
