import Tgfs.Cache.Proofs.Handles
import Tgfs.Fuse.Proofs.Runs
import Tgfs.Names.Keeps

/-!
# Handle accounting

Between operations the count of every registered state is the number of handles that refer to
it. Each operation moves both together; an open for writing that fails to re-chunk its file is the
one that does not, and `Opens` is the condition that no open of an operation is of that kind.
-/

namespace Tgfs

open Run (Wp Keeps)

namespace FsCore

variable {Sha : Type}

/-! ## The two tables -/

/-- What `Exact` looks at. -/
def tables (s : FsCore Sha) : List (Ino × StateId) × (StateId → FileState Sha) × StateId × Nat ×
    List (Nat × StateId) :=
  (s.states, s.heap, s.nextState, s.fhSeq, s.fh)

/-- Every registered state counts the handles that refer to it. -/
structure Exact (cfg : WbConfig) (s : FsCore Sha) : Prop where
  counts : Writeback.Exact cfg s.held s.toWriteback
  keys : (s.fh.map Prod.fst).Nodup
  fresh : ∀ p ∈ s.fh, p.1 < s.fhSeq

variable {cfg : WbConfig} {s s' : FsCore Sha}

theorem Exact.congr (h : Exact cfg s) (ht : s'.tables = s.tables) : Exact cfg s' := by
  simp only [tables, Prod.mk.injEq] at ht
  obtain ⟨hstates, hheap, hnext, hseq, hfh⟩ := ht
  have hheld : s'.held = s.held := by
    funext sid
    unfold held
    rw [hfh]
  refine ⟨⟨hstates ▸ h.counts.keys, fun ino sid hm => ?_, fun sid hp => ?_⟩, hfh ▸ h.keys, fun p hp => ?_⟩
  · rw [hheld]
    exact (h.counts.entry ino sid (hstates ▸ hm)).congr hnext.ge (congrFun hheap sid)
  · obtain ⟨ino, hm⟩ := h.counts.held sid (hheld ▸ hp)
    exact ⟨ino, hstates ▸ hm⟩
  · rw [hseq]
    exact h.fresh p (hfh ▸ hp)

theorem Exact.keeps {α : Type} {m : FsRun Sha α} (hm : Keeps tables m) (h : Exact cfg s)
    (ts : Nat → Tick) (n : Nat) : Exact cfg (m ts n s).2.2 :=
  h.congr (hm ts n s)

/-- The manager may do what keeps its counts. -/
theorem Exact.setWb (h : Exact cfg s) {w : Writeback Sha} (hw : Writeback.Exact cfg s.held w) :
    Exact cfg { s with toWriteback := w } :=
  ⟨hw, h.keys, h.fresh⟩

theorem Exact.reindex (h : Exact cfg s) (m : Meta Sha) :
    Exact cfg { s with store := { s.store with index := m } } := h.congr rfl

theorem Exact.setPending (h : Exact cfg s) (inos : Finset Ino) :
    Exact cfg { s with pendingUnlink := inos } := h.congr rfl

/-- With a handle goes one use of its state. -/
theorem held_filter {l : List (Nat × StateId)} (hn : (l.map Prod.fst).Nodup) {fh : Nat}
    {sid : StateId} (hm : (fh, sid) ∈ l) (x : StateId) :
    (l.countP fun p => p.2 = x) =
      ((l.filter fun p => p.1 ≠ fh).countP fun p => p.2 = x) + if sid = x then 1 else 0 := by
  induction l with
  | nil => simp at hm
  | cons p l ih =>
    rw [List.map_cons, List.nodup_cons] at hn
    rcases List.mem_cons.mp hm with rfl | hm
    · have hrest : l.filter (fun p => p.1 ≠ fh) = l := by
        rw [List.filter_eq_self]
        intro q hq
        simp only [ne_eq, decide_eq_true_eq]
        intro he
        exact hn.1 (List.mem_map.mpr ⟨q, hq, he⟩)
      rw [List.filter_cons_of_neg (by simp), hrest, List.countP_cons]
      simp
    · have hp : p.1 ≠ fh := by
        intro he
        exact hn.1 (List.mem_map.mpr ⟨(fh, sid), hm, he.symm⟩)
      rw [List.filter_cons_of_pos (by simpa using hp), List.countP_cons, List.countP_cons, ih hn.2 hm]
      omega

/-- Nobody holds a state of an inode that is not open. -/
theorem Exact.held_zero (h : Exact cfg s) {ino : Ino} (ho : s.isOpen ino = false) (sid : StateId)
    (hm : (ino, sid) ∈ s.states) : s.held sid = 0 := by
  by_contra hne
  obtain ⟨p, hp, hsid⟩ := List.countP_pos_iff.mp (Nat.pos_of_ne_zero hne)
  have hino := (h.counts.entry ino sid hm).ino
  unfold isOpen at ho
  rw [List.any_eq_false] at ho
  apply ho p hp
  simp only [decide_eq_true_eq] at hsid ⊢
  rw [hsid, hino]

/-! ## Code that leaves both tables alone -/

theorem tables_index {α : Type} (f : Meta Sha → Except (PyErr Sha) α × Meta Sha) :
    Keeps tables (index f) := fun _ _ _ => rfl

theorem tables_err {α : Type} (code : Errno) : Keeps tables (err code : FsRun Sha α) :=
  Run.keeps_raise _

theorem tables_getattr (ino : Ino) : Keeps (tables : FsCore Sha → _) (getattr ino) := by
  unfold getattr live
  apply (Run.keeps_gets _).bind
  intro node
  cases node with
  | none => exact tables_err _
  | some n => exact Run.keeps_gets _

theorem tables_ensureAbsent (parent : Ino) (name : Str) :
    Keeps (tables : FsCore Sha → _) (ensureAbsent parent name) := by
  unfold ensureAbsent
  apply (Run.keeps_gets _).bind
  intro node
  cases node with
  | none => exact Run.keeps_pure ()
  | some n => exact tables_err _

theorem tables_makeNode (parent : Ino) (name : Str) (mode : Nat) (kind : Kind) (uid gid : Nat)
    (target : Option Str) :
    Keeps (tables : FsCore Sha → _) (makeNode parent name mode kind uid gid target) :=
  Run.keeps_tick.bind fun _ => tables_index _

theorem tables_rmdir (parent : Ino) (name : Str) : Keeps (tables : FsCore Sha → _) (rmdir parent name) := by
  unfold rmdir
  apply (Run.keeps_gets _).bind
  intro node
  cases node with
  | none => exact tables_err _
  | some n =>
    simp only
    split
    · exact tables_err _
    · apply (Run.keeps_gets _).bind
      intro count
      split
      · exact tables_err _
      · exact Run.keeps_tick.bind fun _ => (tables_index _).bind fun _ => Run.keeps_pure ()

theorem tables_link (ino newParent : Ino) (newName : Str) :
    Keeps (tables : FsCore Sha → _) (link ino newParent newName) := by
  unfold link
  apply (Run.keeps_gets _).bind
  intro node
  cases node with
  | none => exact tables_err _
  | some n =>
    simp only
    split
    · exact tables_err _
    · exact (tables_ensureAbsent _ _).bind fun _ => Run.keeps_tick.bind fun _ =>
        (tables_index _).bind fun _ => tables_getattr ino

/-! ## Operations that move a handle -/

variable [DecidableEq Sha] [Sha256 Sha] {ts : Nat → Tick}

omit [Sha256 Sha] in
/-- Dropping the content of an inode that is not open. -/
theorem Exact.freeInode (h : Exact cfg s) {ino : Ino} (ho : s.isOpen ino = false) :
    Wp ts (freeInode ino) (fun _ s' => Exact cfg s') s := by
  have hdiscard : Wp ts (wb (Writeback.discard ino)) (fun _ s' => Exact cfg s') s :=
    Run.wp_zoom.mpr ((h.counts.discard (h.held_zero ho)).mono fun _ _ hw => h.setWb hw)
  refine Wp.bind (hdiscard.mono ?_)
  intro r s' h'
  cases r with
  | error e => exact h'
  | ok u => exact fun n => h'.congr rfl

omit [Sha256 Sha] in
theorem Exact.dropInode (h : Exact cfg s) (ino : Ino) :
    Wp ts (dropInode ino) (fun _ s' => Exact cfg s') s := by
  unfold FsCore.dropInode
  rw [Run.wp_gets_bind]
  cases ho : s.isOpen ino with
  | true =>
    rw [if_pos rfl]
    exact Run.wp_modify.mpr (h.congr rfl)
  | false =>
    rw [if_neg (by simp)]
    exact h.freeInode ho

omit [Sha256 Sha] in
theorem Exact.unlink (h : Exact cfg s) (parent : Ino) (name : Str) :
    Wp ts (unlink parent name) (fun _ s' => Exact cfg s') s := by
  unfold FsCore.unlink FsCore.lookup
  rw [Run.wp_gets_bind]
  cases s.store.index.lookup parent name with
  | none => exact Run.wp_raise.mpr h
  | some n =>
    simp only
    split
    · exact Run.wp_raise.mpr h
    · refine Run.Wp.tick_bind fun k => Wp.bind (Run.wp_attempt.mpr ?_)
      split
      · split
        · exact (h.reindex _).dropInode n.id
        · exact Run.wp_pure.mpr (h.congr rfl)
      · exact h.congr rfl

omit [Sha256 Sha] in
theorem Exact.rename (h : Exact cfg s) (oldp : Ino) (oldname : Str) (newp : Ino) (newname : Str) :
    Wp ts (rename oldp oldname newp newname) (fun _ s' => Exact cfg s') s := by
  unfold FsCore.rename FsCore.lookup
  rw [Run.wp_gets_bind]
  cases s.store.index.lookup oldp oldname with
  | none => exact Run.wp_raise.mpr h
  | some n =>
    simp only
    rw [Run.wp_gets_bind]
    split
    · exact Run.wp_raise.mpr h
    · refine Wp.bind (Run.wp_attempt.mpr ?_)
      split
      · split
        · exact (h.reindex _).dropInode _
        · exact Run.wp_pure.mpr (h.congr rfl)
      · exact h.congr rfl

omit [DecidableEq Sha] [Sha256 Sha] in
/-- A new handle uses the state that was opened for it. -/
theorem Exact.addFh {ino : Ino} {sid : StateId} {w : Writeback Sha} (h : Exact cfg s)
    (hm : (ino, sid) ∈ w.states) (hw : Writeback.Exact cfg (Writeback.bump s.held sid) w) :
    Exact cfg { s with toWriteback := w, fhSeq := s.fhSeq + 1, fh := s.fh ++ [(s.fhSeq, sid)] } := by
  have hheld : ({ s with toWriteback := w, fhSeq := s.fhSeq + 1, fh := s.fh ++ [(s.fhSeq, sid)] } :
      FsCore Sha).held = Writeback.bump s.held sid := by
    funext x
    unfold held
    rw [List.countP_append]
    by_cases hx : x = sid
    · subst hx
      simp [Writeback.bump]
    · rw [Writeback.bump, Function.update_of_ne hx]
      simp [Ne.symm hx]
  refine ⟨hheld ▸ hw, ?_, fun p hp => ?_⟩
  · change ((s.fh ++ [(s.fhSeq, sid)]).map Prod.fst).Nodup
    rw [List.map_append, List.nodup_append]
    refine ⟨h.keys, by simp, ?_⟩
    intro a ha b hb hab
    obtain ⟨p, hp, rfl⟩ := List.mem_map.mp ha
    simp only [List.map_cons, List.map_nil, List.mem_singleton] at hb
    exact absurd (h.fresh p hp) (by omega)
  · rcases List.mem_append.mp hp with hp | hp
    · exact Nat.lt_succ_of_lt (h.fresh p hp)
    · rw [List.mem_singleton.mp hp]
      exact Nat.lt_succ_self _

/-- A handle is removed and its use given back. -/
theorem Exact.release (h : Exact cfg s) (fh : Nat) :
    Wp ts (release cfg fh) (fun _ s' => Exact cfg s') s := by
  unfold FsCore.release
  rw [Run.wp_modifyGet_bind]
  have hkeys : (({ s with fh := s.fh.filter fun p => p.1 ≠ fh } : FsCore Sha).fh.map
      Prod.fst).Nodup := h.keys.sublist (List.filter_sublist.map _)
  have hfresh : ∀ p ∈ s.fh.filter fun p => p.1 ≠ fh, p.1 < s.fhSeq :=
    fun p hp => h.fresh p (List.mem_filter.mp hp).1
  cases hf : s.findFh fh with
  | none =>
    have hsame : s.fh.filter (fun p => p.1 ≠ fh) = s.fh := by
      rw [List.filter_eq_self]
      intro p hp
      have := List.find?_eq_none.mp (Option.map_eq_none_iff.mp hf) p hp
      simpa using this
    refine Run.wp_pure.mpr (h.congr ?_)
    unfold tables
    simp only [hsame]
  | some sid =>
    have hmem := mem_of_findFh hf
    have hheld : Writeback.bump ({ s with fh := s.fh.filter fun p => p.1 ≠ fh } : FsCore Sha).held
        sid = s.held := by
      funext x
      have hx := held_filter h.keys hmem x
      unfold held
      rw [hx]
      by_cases hs : x = sid
      · subst hs
        simp [Writeback.bump]
      · rw [Writeback.bump, Function.update_of_ne hs, if_neg (Ne.symm hs)]
        rfl
    obtain ⟨ino, hm⟩ := h.counts.held sid (held_pos hmem)
    have hwb : Writeback.Exact cfg (Writeback.bump
        ({ s with fh := s.fh.filter fun p => p.1 ≠ fh } : FsCore Sha).held sid) s.toWriteback := by
      rw [hheld]
      exact h.counts
    refine Wp.bind (Run.wp_zoom.mpr ((hwb.release hm).mono ?_))
    intro r w hw
    have hs' : Exact cfg { s with toWriteback := w, fh := s.fh.filter fun p => p.1 ≠ fh } :=
      ⟨hw, hkeys, hfresh⟩
    cases r with
    | error e => exact hs'
    | ok u =>
      simp only
      rw [Run.wp_gets_bind, Run.wp_gets_bind]
      split
      case isFalse => exact Run.wp_pure.mpr hs'
      case isTrue hlast =>
        simp only [Bool.and_eq_true, Bool.not_eq_true'] at hlast
        rw [Run.wp_modify_bind]
        exact (hs'.setPending _).freeInode hlast.2

omit [DecidableEq Sha] [Sha256 Sha] in
/-- Code on the state of a handle. -/
theorem Exact.onHandle (h : Exact cfg s) (fh : Nat) {α : Type} {m : FileRun Sha α}
    (hm : Keeps (fun c => c.st.frozen) m) :
    Wp ts (do
      let sid ← getState fh
      wb (Writeback.onState sid m)) (fun _ s' => Exact cfg s') s := by
  unfold getState
  rw [Run.wp_bind_assoc, Run.wp_gets_bind]
  cases hf : s.findFh fh with
  | none => exact Run.wp_raise_bind.mpr h
  | some sid =>
    rw [Run.wp_pure_bind]
    have hpos := held_pos (mem_of_findFh hf)
    exact Run.wp_zoom.mpr ((h.counts.onState hm fun _ _ => hpos).mono fun _ _ hw => h.setWb hw.1)

/-! ## Operations that open -/

/-- A file that is opened gets its handle. -/
theorem Exact.openState (h : Exact cfg s) {ino : Ino} {forWrite : Bool} {n : Nat}
    (hok : ∃ sid, (Writeback.openFile cfg ino forWrite ts n s.toWriteback).1 = .ok sid) :
    ∃ sid n' w, wb (Writeback.openFile cfg ino forWrite) ts n s =
        (.ok sid, n', { s with toWriteback := w }) ∧
      Exact cfg { s with toWriteback := w, fhSeq := s.fhSeq + 1, fh := s.fh ++ [(s.fhSeq, sid)] } := by
  obtain ⟨sid, hok⟩ := hok
  have hopen := @Writeback.Exact.openFile Sha cfg s.held s.toWriteback _ _ ts h.counts ino forWrite n
  rcases hrun : Writeback.openFile cfg ino forWrite ts n s.toWriteback with ⟨r, n', w⟩
  rw [hrun] at hok hopen
  simp only at hok
  subst hok
  obtain ⟨hm, hw⟩ := hopen sid rfl
  refine ⟨sid, n', w, ?_, h.addFh hm hw⟩
  unfold FsCore.wb Run.zoom
  rw [hrun]

theorem Exact.truncatePath (h : Exact cfg s) {ino : Ino} {length n : Nat}
    (hok : ∃ sid, (Writeback.openFile cfg ino true ts n s.toWriteback).1 = .ok sid) :
    Exact cfg (wb (Writeback.truncatePath cfg ino length) ts n s).2.2 :=
  h.setWb (h.counts.truncatePath ino length n hok)

omit [DecidableEq Sha] [Sha256 Sha] in
theorem getInode_of_names {w w' : Writeback Sha} (hn : w'.names = w.names) {ino : Ino} {node : Inode}
    (h : w.store.index.getInode ino = some node) :
    ∃ node', w'.store.index.getInode ino = some node' := by
  obtain ⟨-, row, hrow, -⟩ := Meta.getInode_eq_some h
  have hkind : w'.store.index.names.row ino = w.store.index.names.row ino :=
    congrFun (congrArg Namespace.row hn) ino
  rw [Meta.names_row hrow, Meta.names_row_eq] at hkind
  obtain ⟨row', hrow', -⟩ := Option.map_eq_some_iff.mp hkind
  exact ⟨_, Meta.getInode_of_row hrow'⟩

theorem Exact.setattr (h : Exact cfg s) (hs : s.Sound) {ino : Ino} {a : Meta.Attrs} {n : Nat}
    (hload : ∀ node size, s.store.index.getInode ino = some node → a.size = some size →
      node.isDir = false → size ≠ node.size → Writeback.Rechunks cfg ts n ino s.toWriteback) :
    Exact cfg (setattr cfg ino a ts n s).2.2 := by
  have hrest : Keeps (tables : FsCore Sha → _) (do
      let t ← Run.tick
      index fun m => (.ok (), m.setattr t.now ino { a with size := none })
      getattr ino) :=
    Run.keeps_tick.bind fun _ => (tables_index _).bind fun _ => tables_getattr ino
  unfold FsCore.setattr
  rw [Run.bind_run_ok (show getInode ino ts n s = (.ok (s.store.index.getInode ino), n, s) from rfl)]
  cases hi : s.store.index.getInode ino with
  | none => exact h
  | some node =>
    cases hsize : a.size with
    | none => exact h.keeps hrest ts n
    | some size =>
      simp only
      by_cases hc : (!node.isDir && decide (size ≠ node.size)) = true
      · rw [if_pos hc]
        simp only [Bool.and_eq_true, Bool.not_eq_true', decide_eq_true_eq] at hc
        have hopen : ∃ sid, (Writeback.openFile cfg ino true ts n s.toWriteback).1 = .ok sid :=
          h.counts.openFile_ok hs.books hi fun _ => hload node size hi hsize hc.1 hc.2
        have htrunc : Exact cfg (wb (Writeback.truncatePath cfg ino size) ts n s).2.2 :=
          h.truncatePath hopen
        rcases hrun : wb (Writeback.truncatePath cfg ino size) ts n s with ⟨r, n₁, s₁⟩
        rw [hrun] at htrunc
        rw [Run.bind_run, hrun]
        cases r with
        | error e => exact htrunc
        | ok u => exact htrunc.keeps hrest ts n₁
      · rw [if_neg hc]
        exact h.keeps hrest ts n

theorem Exact.openFh (hts : ∀ n, (ts n).Quiet True) (h : Exact cfg s) (hs : s.Sound) {ino : Ino}
    {flags n : Nat}
    (hload : ∀ node, s.store.index.getInode ino = some node → node.isDir = false →
      flags &&& oTrunc ≠ 0 ∨ wantsWrite flags = true →
        Writeback.Rechunks cfg ts n ino s.toWriteback) :
    Exact cfg (openFh cfg ino flags ts n s).2.2 := by
  have hrest : ∀ (s : FsCore Sha) (n : Nat), Exact cfg s →
      (∃ sid, (Writeback.openFile cfg ino (wantsWrite flags) ts n s.toWriteback).1 = .ok sid) →
        Exact cfg ((do
          let sid ← wb (Writeback.openFile cfg ino (wantsWrite flags))
          newFh sid) ts n s).2.2 := by
    intro s n h hok
    obtain ⟨sid, n', w, hrun, hex⟩ := h.openState hok
    rw [Run.bind_run_ok hrun]
    exact hex
  unfold FsCore.openFh
  rw [Run.bind_run_ok (show getInode ino ts n s = (.ok (s.store.index.getInode ino), n, s) from rfl)]
  cases hi : s.store.index.getInode ino with
  | none => exact h
  | some node =>
    simp only
    cases hd : node.isDir with
    | true => exact h
    | false =>
      rw [if_neg (by simp)]
      have hload := hload node hi hd
      by_cases hf : flags &&& oTrunc ≠ 0
      · rw [if_pos hf]
        have hopen : ∃ sid, (Writeback.openFile cfg ino true ts n s.toWriteback).1 = .ok sid :=
          h.counts.openFile_ok hs.books hi fun _ => hload (.inl hf)
        have htrunc : Exact cfg (wb (Writeback.truncatePath cfg ino 0) ts n s).2.2 :=
          h.truncatePath hopen
        have hsound := (@Writeback.Sound.truncatePath Sha _ _ s.held s.toWriteback ts hts cfg hs ino 0 n).sound
        have hagain := @Writeback.Exact.truncatePath_nothing Sha cfg s.held s.toWriteback _ _ ts
          h.counts ino node hi n
        have hnames := Writeback.keeps_truncatePath cfg ino 0 ts n s.toWriteback
        have hzoom : wb (Writeback.truncatePath cfg ino 0) ts n s =
            ((Writeback.truncatePath cfg ino 0 ts n s.toWriteback).1,
              (Writeback.truncatePath cfg ino 0 ts n s.toWriteback).2.1,
              { s with toWriteback := (Writeback.truncatePath cfg ino 0 ts n s.toWriteback).2.2 }) :=
          rfl
        rw [Run.bind_run]
        rw [hzoom] at htrunc ⊢
        rcases hrun : Writeback.truncatePath cfg ino 0 ts n s.toWriteback with ⟨r, n₁, w₁⟩
        rw [hrun] at htrunc hagain hsound hnames
        cases r with
        | error e => exact htrunc
        | ok u =>
          obtain ⟨node', hi'⟩ := getInode_of_names hnames hi
          exact hrest _ n₁ htrunc (htrunc.counts.openFile_ok hsound.books hi' fun _ => hagain u rfl n₁)
      · rw [if_neg hf]
        exact hrest s n h (h.counts.openFile_ok hs.books hi fun hw => hload (.inr hw))

omit [DecidableEq Sha] [Sha256 Sha] in
theorem created_row {m : Meta Sha} {now : Time} {parent : Ino} {name : Str} {mode : Nat} {kind : Kind}
    {uid gid : Nat} {target : Option Str} {node : Inode}
    (h : (m.create now parent name mode kind uid gid target).1 = .ok node) :
    ∃ node', (m.create now parent name mode kind uid gid target).2.getInode node.id = some node' := by
  rcases m.create_cases now parent name mode kind uid gid target with ⟨-, he⟩ | ⟨-, node', hid, he⟩
  · rw [he] at h
    cases h
  · rw [he] at h ⊢
    obtain rfl := Except.ok.inj h
    have hrow : (((m.addRow (m.newRow now mode kind uid gid target)).insertDirent parent name
        m.nextIno)).inodes m.nextIno = some (m.newRow now mode kind uid gid target) :=
      Function.update_self _ _ _
    rw [hid]
    exact ⟨_, Meta.getInode_of_row (Meta.addDirLink_row hrow kind parent 1)⟩

theorem Exact.create (h : Exact cfg s) (hs : s.Sound) {parent : Ino} {name : Str}
    {mode flags uid gid n : Nat}
    (hload : ((s.store.index.lookup parent name).isSome = true → flags &&& oExcl = 0) →
      Writeback.Rechunks cfg ts (if (s.store.index.lookup parent name).isSome then n else n + 1)
        (s.createdIno parent name) s.toWriteback) :
    Exact cfg (create cfg parent name mode flags uid gid ts n s).2.2 := by
  have hrest : ∀ (s : FsCore Sha) (n : Nat) (node : Inode), Exact cfg s →
      (∃ sid, (Writeback.openFile cfg node.id true ts n s.toWriteback).1 = .ok sid) →
        Exact cfg ((do
          let sid ← wb (Writeback.openFile cfg node.id true)
          let fh ← newFh sid
          pure (fh, node)) ts n s).2.2 := by
    intro s n node h hok
    obtain ⟨sid, n', w, hrun, hex⟩ := h.openState hok
    rw [Run.bind_run_ok hrun]
    exact hex
  unfold FsCore.create FsCore.createdIno at *
  rw [Run.bind_run_ok (show lookup parent name ts n s =
    (.ok (s.store.index.lookup parent name), n, s) from rfl)]
  cases hl : s.store.index.lookup parent name with
  | some node =>
    rw [hl] at hload
    simp only
    by_cases hx : flags &&& oExcl ≠ 0
    · rw [if_pos hx]
      exact h
    · rw [if_neg hx]
      have hload := hload fun _ => not_not.mp hx
      have hnode : ∃ node', s.store.index.getInode node.id = some node' := by
        have hc := Meta.child_of_lookup hl
        unfold Meta.lookup at hl
        rw [hc] at hl
        exact ⟨node, hl⟩
      obtain ⟨node', hi⟩ := hnode
      have hopen : ∃ sid, (Writeback.openFile cfg node.id true ts n s.toWriteback).1 = .ok sid :=
        h.counts.openFile_ok hs.books hi fun _ => hload
      exact hrest s n node h hopen
  | none =>
    rw [hl] at hload
    have hload := hload nofun
    have hmake : makeNode parent name (sIfreg ||| (mode &&& 0o7777)) .file uid gid none ts n s =
        ((s.store.index.create (ts n).now parent name (sIfreg ||| (mode &&& 0o7777)) .file uid gid
          none).1, n + 1, { s with store := { s.store with
            index := (s.store.index.create (ts n).now parent name (sIfreg ||| (mode &&& 0o7777)) .file
              uid gid none).2 } }) := rfl
    have hmade := h.reindex (s.store.index.create (ts n).now parent name
      (sIfreg ||| (mode &&& 0o7777)) .file uid gid none).2
    have hsame := Meta.sameContent_create (ts n).now parent name (sIfreg ||| (mode &&& 0o7777)) .file
      uid gid none s.store.index
    simp only
    rw [Run.bind_run, hmake]
    cases hr : (s.store.index.create (ts n).now parent name (sIfreg ||| (mode &&& 0o7777)) .file uid
      gid none).1 with
    | error e => exact hmade
    | ok node =>
      obtain ⟨node', hi⟩ := created_row hr
      have hid := Meta.create_id hr
      refine hrest _ (n + 1) node hmade (hmade.counts.openFile_ok
        (hs.books.reindex hsame.blobs hsame.chunks) hi fun _ => ?_)
      rw [hid]
      unfold Writeback.Rechunks at hload ⊢
      have hrows := Meta.getChunks_congr hsame.chunks s.store.index.nextIno
      dsimp only
      rw [hrows]
      exact hload

end FsCore

/-! ## Runs -/

namespace FsOp

variable {Sha : Type} [DecidableEq Sha] [Sha256 Sha] {cfg : WbConfig} {ts : Nat → Tick}
  {s : FsCore Sha}

/-- Each open for writing that the operation makes, started at tick `n`, manages to re-chunk a
file that was stored under another chunk size. -/
def Opens (cfg : WbConfig) (ts : Nat → Tick) (n : Nat) (s : FsCore Sha) : FsOp → Prop
  | .setattr ino a => ∀ node size, s.store.index.getInode ino = some node → a.size = some size →
      node.isDir = false → size ≠ node.size → Writeback.Rechunks cfg ts n ino s.toWriteback
  | .openFh ino flags => ∀ node, s.store.index.getInode ino = some node → node.isDir = false →
      flags &&& oTrunc ≠ 0 ∨ wantsWrite flags = true →
        Writeback.Rechunks cfg ts n ino s.toWriteback
  | .create parent name _ flags _ _ =>
      ((s.store.index.lookup parent name).isSome = true → flags &&& oExcl = 0) →
        Writeback.Rechunks cfg ts (if (s.store.index.lookup parent name).isSome then n else n + 1)
          (s.createdIno parent name) s.toWriteback
  | _ => True

/-- Each operation of a run meets `P` in the state and at the tick it starts with. -/
def Along (cfg : WbConfig) (ts : Nat → Tick) (P : Nat → FsCore Sha → FsOp → Prop) :
    List FsOp → Nat → FsCore Sha → Prop
  | [], _, _ => True
  | op :: ops, n, s => P n s op ∧
    Along cfg ts P ops (op.perform cfg ts n s).2.1 (op.perform cfg ts n s).2.2

omit [DecidableEq Sha] [Sha256 Sha] in
/-- An operation leaves what its method leaves. -/
theorem perform_exact_of {α : Type} {m : FsRun Sha α} {n : Nat}
    (h : FsCore.Exact cfg (m ts n s).2.2) :
    FsCore.Exact cfg ((do
      let _ ← m
      pure [] : FsRun Sha (List (PyErr Sha))) ts n s).2.2 := by
  rw [Run.bind_run]
  rcases hrun : m ts n s with ⟨r, n', s'⟩
  rw [hrun] at h
  cases r <;> exact h

/-- The step lemma. -/
theorem perform_exact (hts : ∀ n, (ts n).Quiet True) (hs : s.Sound) (h : FsCore.Exact cfg s)
    {op : FsOp} {n : Nat} (hop : op.Opens cfg ts n s) :
    FsCore.Exact cfg (op.perform cfg ts n s).2.2 := by
  have hmk : ∀ (parent : Ino) (name : Str) (mode : Nat) (kind : Kind) (uid gid : Nat)
      (target : Option Str), Run.Keeps (FsCore.tables : FsCore Sha → _) (do
        FsCore.ensureAbsent parent name
        FsCore.makeNode parent name mode kind uid gid target) := fun parent name mode kind uid gid t =>
    (FsCore.tables_ensureAbsent parent name).bind fun _ =>
      FsCore.tables_makeNode parent name mode kind uid gid t
  cases op with
  | mkdir parent name mode uid gid =>
    exact perform_exact_of (h.keeps (hmk parent name _ .dir uid gid none) ts n)
  | rmdir parent name => exact perform_exact_of (h.keeps (FsCore.tables_rmdir parent name) ts n)
  | createNode parent name mode uid gid =>
    exact perform_exact_of (h.keeps (hmk parent name _ .file uid gid none) ts n)
  | symlink parent name target uid gid =>
    exact perform_exact_of (h.keeps (hmk parent name _ .link uid gid (some target)) ts n)
  | link ino newParent newName =>
    exact perform_exact_of (h.keeps (FsCore.tables_link ino newParent newName) ts n)
  | unlink parent name => exact perform_exact_of (h.unlink parent name n)
  | rename oldp oldname newp newname =>
    exact perform_exact_of (h.rename oldp oldname newp newname n)
  | setattr ino a => exact perform_exact_of (h.setattr hs hop)
  | openFh ino flags => exact perform_exact_of (h.openFh hts hs hop)
  | create parent name mode flags uid gid => exact perform_exact_of (h.create hs hop)
  | read fh off size =>
    exact perform_exact_of (h.onHandle fh (Wb.frozen_aside.keeps_read cfg size off) n)
  | write fh off data =>
    exact perform_exact_of (h.onHandle fh (Wb.frozen_aside.keeps_write cfg data off) n)
  | flush fh => exact perform_exact_of (h.onHandle fh (Wb.frozen_aside.keeps_flush cfg) n)
  | fsync fh => exact perform_exact_of (h.onHandle fh (Wb.frozen_aside.keeps_flushLocked cfg) n)
  | release fh => exact perform_exact_of (h.release fh n)
  | reap => exact h.setWb (h.counts.reapOnce n)

/-- The run lemma. -/
theorem runAll_exact (hts : ∀ n, (ts n).Quiet True) (hs : s.Sound) (h : FsCore.Exact cfg s)
    {ops : List FsOp} {n : Nat} (hops : Along cfg ts (Opens cfg ts) ops n s) :
    FsCore.Exact cfg (runAll cfg ts ops n s).2.2 := by
  induction ops generalizing n s with
  | nil => exact h
  | cons op ops ih =>
    obtain ⟨hop, hrest⟩ := hops
    exact ih (perform_ends cfg hts hs op n).1.1.sound (perform_exact hts hs h hop) hrest

/-- Every registered state counts its handles, every handle has a registered state, and a state
without handles waits for the reaper with something to flush. -/
structure CountsHandles (cfg : WbConfig) (s : FsCore Sha) : Prop where
  count : ∀ ino sid, (ino, sid) ∈ s.states → (s.heap sid).refcount = s.held sid
  handle : ∀ p ∈ s.fh, ∃ ino, (ino, p.2) ∈ s.states
  used : cfg.flushDelay = 0 → ∀ ino sid, (ino, sid) ∈ s.states → (s.heap sid).refcount ≠ 0
  pending : 0 < cfg.flushDelay → ∀ ino sid, (ino, sid) ∈ s.states → (s.heap sid).refcount = 0 →
    (s.heap sid).dirty = true

omit [DecidableEq Sha] [Sha256 Sha] in
theorem countsHandles (h : FsCore.Exact cfg s) : CountsHandles cfg s := by
  have hzero : ∀ ino sid, (ino, sid) ∈ s.states → (s.heap sid).refcount = 0 →
      0 < cfg.flushDelay ∧ (s.heap sid).dirty = true := by
    intro ino sid hm h0
    have he := h.counts.entry ino sid hm
    apply he.pending
    have := he.count
    omega
  refine ⟨fun ino sid hm => (h.counts.entry ino sid hm).count, fun p hp => ?_,
    fun hdelay ino sid hm h0 => ?_, fun _ ino sid hm h0 => (hzero ino sid hm h0).2⟩
  · exact h.counts.held p.2 (FsCore.held_pos (show (p.1, p.2) ∈ _ from hp))
  · have := (hzero ino sid hm h0).1
    omega

/-- A filesystem mounted over consistent books. -/
theorem mounted_sound {store : Store Sha} (hs : store.Accounted) : (FsCore.mounted store).Sound := by
  refine ⟨hs, List.nodup_nil, ?_, ?_⟩
  · intro ino sid hm
    simp [FsCore.mounted, FsCore.empty] at hm
  · intro sid hp
    simp [FsCore.held, FsCore.mounted, FsCore.empty] at hp

omit [DecidableEq Sha] [Sha256 Sha] in
theorem mounted_exact (store : Store Sha) : FsCore.Exact cfg (FsCore.mounted store) := by
  refine ⟨⟨List.nodup_nil, ?_, ?_⟩, List.nodup_nil, ?_⟩
  · intro ino sid hm
    simp [FsCore.mounted, FsCore.empty] at hm
  · intro sid hp
    simp [FsCore.held, FsCore.mounted, FsCore.empty] at hp
  · intro p hp
    simp [FsCore.mounted, FsCore.empty] at hp

/-- Handle accounting is exact between the operations of every run over every consistent store, as
long as no open for writing fails to re-chunk its file. -/
theorem runAll_countsHandles (cfg : WbConfig) (hts : ∀ n, (ts n).Quiet True) {store : Store Sha}
    (hs : store.Accounted) {ops : List FsOp} {n : Nat}
    (hops : Along cfg ts (Opens cfg ts) ops n (FsCore.mounted store)) :
    CountsHandles cfg (runAll cfg ts ops n (FsCore.mounted store)).2.2 :=
  countsHandles (runAll_exact hts (mounted_sound hs) (mounted_exact store) hops)

/-- A file of the old chunk size is opened, written and released, and then opened with
`O_TRUNC`. -/
theorem runAll_countsHandles_rechunk :
    CountsHandles ⟨⟨3, 1, by decide, by decide⟩, 1⟩ (runAll ⟨⟨3, 1, by decide, by decide⟩, 1⟩
      (fun _ => {}) [.openFh 2 oRdwr, .write 1 0 [9], .release 1, .openFh 2 (oRdwr ||| oTrunc)] 0
      (FsCore.mounted (Store.oneFile ⟨2, 1, by decide, by decide⟩ [1, 2, 3, 4] : Store Bytes))).2.2 := by
  refine runAll_countsHandles _ (fun _ => Tick.quiet_default) (Store.oneFile_stored Bytes _ _).1 ?_
  refine ⟨fun node _ _ _ => ?_, trivial, trivial, fun node _ _ _ => ?_, trivial⟩ <;>
    exact .inr (.inr fun _ _ => rfl)

/-- The same open with a download that fails: no handle, and a count of one that nobody gives
back. -/
theorem runAll_countsHandles_leak :
    let s := (runAll ⟨⟨3, 1, by decide, by decide⟩, 1⟩ (fun _ => { downloadFails := true })
      [.openFh 2 oRdwr] 0
      (FsCore.mounted (Store.oneFile ⟨2, 1, by decide, by decide⟩ [1, 2, 3, 4] : Store Bytes))).2.2
    s.states = [(2, 0)] ∧ s.fh = [] ∧ (s.heap 0).refcount = 1 := by
  decide +kernel

end FsOp

end Tgfs
