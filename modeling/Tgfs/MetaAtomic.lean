import Tgfs.MetaConnProps

/-!
# All or nothing

After a mutator that raises, every later call should see the tables from before it, and the next
commit should make those durable. `MetaCall.allOrNothing_iff` says when that is so.
-/

namespace Tgfs

open Conn Meta
open Run (Wp)

variable {Sha : Type}

/-- Nothing is left of code that raised. -/
def Undone {α : Type} (c : Conn (Meta Sha)) (r : Except (PyErr Sha) α) (c' : Conn (Meta Sha)) : Prop :=
  ∀ e, r = .error e → c' = c

namespace Meta

variable {m : Meta Sha}

theorem row_updateInode (m : Meta Sha) (i : Ino) (f : Inode → Inode) (j : Ino) :
    ((m.updateInode i f).getInode j).isSome = (m.getInode j).isSome := by
  unfold getInode
  by_cases h : j = i
  · subst h
    simp [updateInode]
  · simp [updateInode_ne m h]

@[simp] theorem child_addRow (m : Meta Sha) (row : Inode) (parent : Ino) (name : Str) :
    (m.addRow row).child parent name = m.child parent name := rfl

theorem child_deleteDirent (m : Meta Sha) (parent : Ino) (name : Str) :
    (m.deleteDirent parent name).child parent name = none :=
  child_eq_none.mpr fun _ hd => of_decide_eq_true (List.mem_filter.mp hd).2

theorem not_taken {op : Ino} {oname : Str} {np : Ino} {nname : Str}
    (h : m.child np nname = none) : ¬ m.Taken op oname np nname := by
  rintro ⟨-, -, hc⟩
  rw [h] at hc
  cases hc

end Meta

namespace MetaDb

variable {α β : Type} {ts : Nat → Unit} {c c₀ : Conn (Meta Sha)}
  {Q : Except (PyErr Sha) β → Conn (Meta Sha) → Prop}

@[simp] theorem wp_updateInode_bind {ino : Ino} {f : Inode → Inode} {g : Unit → MetaDb Sha β} :
    Wp ts (updateInode ino f >>= g) Q c ↔
      Wp ts (g ()) Q { c with tables := c.tables.updateInode ino f } := Iff.rfl

@[simp] theorem wp_deleteInode_bind {ino : Ino} {g : Unit → MetaDb Sha β} :
    Wp ts (deleteInode ino >>= g) Q c ↔
      Wp ts (g ()) Q { c with tables := c.tables.deleteInode ino } := Iff.rfl

@[simp] theorem wp_deleteDirent_bind {parent : Ino} {name : Str} {g : Unit → MetaDb Sha β} :
    Wp ts (deleteDirent parent name >>= g) Q c ↔
      Wp ts (g ()) Q { c with tables := c.tables.deleteDirent parent name } := Iff.rfl

/-- A subscript of a row that may be missing. -/
theorem wp_inodeColumn_bind {column : Inode → α} {ino : Ino} {g : α → MetaDb Sha β}
    (hnone : c.tables.getInode ino = none → Q (.error .typeError) c)
    (hsome : ∀ n, c.tables.getInode ino = some n → Wp ts (g (column n)) Q c) :
    Wp ts (inodeColumn column ino >>= g) Q c := by
  intro n
  unfold inodeColumn
  rw [Run.bind_assoc, Run.bind_run_ok (show select (·.getInode ino) ts n c =
    (.ok (c.tables.getInode ino), n, c) from rfl)]
  cases hrow : c.tables.getInode ino with
  | none => exact hnone hrow
  | some row => exact hsome row hrow n

theorem wp_insertDirent_bind {parent : Ino} {name : Str} {child : Ino} {g : Unit → MetaDb Sha β} :
    Wp ts (insertDirent parent name child >>= g) Q c ↔
      if (c.tables.child parent name).isSome then Q (.error .integrityError) c
      else Wp ts (g ()) Q { c with tables := c.tables.insertDirent parent name child } := by
  unfold insertDirent
  rw [wp_execute_bind]
  by_cases h : (c.tables.child parent name).isSome <;> simp [h]

theorem wp_moveDirent_bind {op : Ino} {oname : Str} {np : Ino} {nname : Str}
    {g : Unit → MetaDb Sha β} (hfree : ¬ c.tables.Taken op oname np nname) :
    Wp ts (moveDirent op oname np nname >>= g) Q c ↔
      Wp ts (g ()) Q { c with tables := c.tables.moveDirent op oname np nname } := by
  unfold moveDirent
  rw [wp_execute_bind, if_neg hfree]

theorem undone_link (now : Time) (parent : Ino) (name : Str) (targetIno : Ino) :
    Wp ts (link now parent name targetIno) (Undone c) c := by
  unfold link
  rw [wp_insertDirent_bind]
  split
  · exact fun _ _ => rfl
  · exact fun _ _ => nofun

theorem undone_unlinkDirent (now : Time) (parent : Ino) (name : Str) :
    Wp ts (unlinkDirent now parent name) (Undone c) c := by
  unfold unlinkDirent
  rw [wp_select_bind]
  cases c.tables.child parent name with
  | none => exact Run.wp_raise.mpr fun _ _ => rfl
  | some child =>
    refine wp_inodeColumn_bind (fun _ _ _ => rfl) fun n hn => ?_
    have hreap : ∀ c₁ : Conn (Meta Sha), (c₁.tables.getInode child).isSome = true →
        Wp ts (do
          let nlink ← inodeColumn (·.nlink) child
          if nlink ≤ 0 then deleteInode child
          commit
          pure (child, nlink)) (Undone c) c₁ := by
      intro c₁ hrow
      refine wp_inodeColumn_bind (fun hnone => ?_) fun n' _ => ?_
      · rw [hnone] at hrow
        cases hrow
      · split <;> exact fun _ _ => nofun
    have hrow : (c.tables.getInode child).isSome = true := by rw [hn]; rfl
    rw [wp_deleteDirent_bind, wp_updateInode_bind]
    dsimp only
    split
    · refine hreap _ ?_
      rw [row_updateInode, row_updateInode]
      exact hrow
    · refine hreap _ ?_
      rw [row_updateInode]
      exact hrow

/-- It raises before it changes anything, and behind it the destination is free. -/
theorem wp_replaceDst (np : Ino) (nname : Str) : Wp ts (replaceDst np nname) (fun r c' =>
    Undone c r c' ∧ ∀ replaced, r = .ok replaced → c'.tables.child np nname = none) c := by
  unfold replaceDst
  rw [wp_select_bind]
  cases hchild : c.tables.child np nname with
  | none => exact fun _ => ⟨fun _ => nofun, fun _ _ => hchild⟩
  | some replaced =>
    refine wp_inodeColumn_bind (fun _ => ⟨fun _ _ => rfl, fun _ => nofun⟩) fun n hn => ?_
    have hreap : ∀ c₁ : Conn (Meta Sha), (c₁.tables.getInode replaced).isSome = true →
        c₁.tables.child np nname = none → Wp ts (do
          let rem ← inodeColumn (·.nlink) replaced
          if rem > 0 then pure none
          else do
            deleteInode replaced
            pure (some replaced)) (fun r c' =>
              Undone c r c' ∧ ∀ replaced, r = .ok replaced → c'.tables.child np nname = none) c₁ := by
      intro c₁ hrow hfree
      refine wp_inodeColumn_bind (fun hnone => ?_) fun n' _ => ?_
      · rw [hnone] at hrow
        cases hrow
      · split
        · exact fun _ => ⟨fun _ => nofun, fun _ _ => hfree⟩
        · exact fun _ => ⟨fun _ => nofun, fun _ _ => hfree⟩
    have hrow : (c.tables.getInode replaced).isSome = true := by rw [hn]; rfl
    rw [wp_deleteDirent_bind, wp_updateInode_bind]
    dsimp only
    split
    · refine hreap _ ?_ (child_deleteDirent c.tables np nname)
      rw [row_updateInode, row_updateInode]
      exact hrow
    · refine hreap _ ?_ (child_deleteDirent c.tables np nname)
      rw [row_updateInode]
      exact hrow

theorem undone_rename (op : Ino) (oname : Str) (np : Ino) (nname : Str) :
    Wp ts (rename op oname np nname) (Undone c) c := by
  unfold rename
  rw [wp_select_bind]
  cases c.tables.child op oname with
  | none => exact Run.wp_raise.mpr fun _ _ => rfl
  | some src =>
    refine wp_inodeColumn_bind (fun _ _ _ => rfl) fun n _ => ?_
    refine Wp.bind ((wp_replaceDst np nname).mono fun r c₁ hr => ?_)
    cases r with
    | error e => exact fun _ _ => hr.1 e rfl
    | ok replaced =>
      dsimp only
      rw [wp_moveDirent_bind (not_taken (hr.2 replaced rfl))]
      split <;> exact fun _ _ => nofun

theorem undone_setattr (now : Time) (ino : Ino) (a : Attrs) :
    Wp ts (setattr now ino a) (Undone c) c := by
  unfold setattr
  split
  · exact fun _ _ => nofun
  · exact fun _ _ => nofun

theorem undone_blobCreate [DecidableEq Sha] (sha : Sha) (handle : Handle) (length : Nat) :
    Wp ts (blobCreate sha handle length) (Undone c) c := by
  unfold blobCreate
  rw [wp_execute_bind]
  by_cases h : (c.tables.blobs sha).isSome
  · rw [if_pos h]
    exact fun _ _ => rfl
  · rw [if_neg h]
    exact fun _ _ => nofun

theorem undone_blobDecref [DecidableEq Sha] (sha : Sha) :
    Wp ts (blobDecref sha) (Undone c) c := by
  unfold blobDecref
  rw [wp_select_bind]
  cases c.tables.blobGet sha with
  | none => exact fun _ _ => nofun
  | some b =>
    dsimp only
    split <;> exact fun _ _ => nofun

/-! ## `create` -/

section Create

variable (now : Time) {parent : Ino} {name : Str} (mode : Nat) (kind : Kind) (uid gid : Nat)
  (target : Option Str)

/-- A free name raises nothing. -/
theorem create_free (hfree : c.tables.child parent name = none) :
    Wp ts (create now parent name mode kind uid gid target) (fun r _ => ∀ e, r ≠ .error e) c := by
  unfold create insertInode
  rw [wp_updateGet_bind]
  dsimp only
  rw [wp_insertDirent_bind, if_neg (by simp [hfree])]
  have hend : ∀ c₁ : Conn (Meta Sha), (c₁.tables.getInode c.tables.nextIno).isSome = true →
      Wp ts (do
        commit
        inodeColumn id c.tables.nextIno) (fun r _ => ∀ e, r ≠ .error e) c₁ := by
    intro c₁ hrow n
    obtain ⟨row, hrow⟩ := Option.isSome_iff_exists.mp hrow
    rw [Run.bind_run_ok (show commit ts n c₁ = (.ok (), n, { c₁ with durable := c₁.tables }) from rfl)]
    unfold inodeColumn
    rw [Run.bind_run_ok (show select (·.getInode c.tables.nextIno) ts n
      { c₁ with durable := c₁.tables } = (.ok (some row), n, _) by rw [← hrow]; rfl)]
    exact nofun
  have hnew : ∀ row, ((c.tables.addRow row).getInode c.tables.nextIno).isSome = true := fun row => by
    simp [Meta.getInode, Meta.addRow]
  dsimp only
  split
  · refine hend _ ?_
    rw [row_updateInode]
    exact hnew _
  · exact hend _ (hnew _)

/-- A name that exists is found behind the insert of the inode. -/
theorem create_taken (htaken : c.tables.child parent name ≠ none) (n : Nat) :
    create now parent name mode kind uid gid target ts n c = (.error .integrityError, n,
      { c with tables := c.tables.addRow (c.tables.newRow now mode kind uid gid target) }) := by
  have hsome : (c.tables.child parent name).isSome = true :=
    Option.isSome_iff_ne_none.mpr htaken
  unfold create
  rw [Run.bind_run_ok rfl]
  rw [Run.bind_run]
  unfold insertDirent execute Run.attempt
  dsimp only
  rw [child_addRow, if_pos hsome]
  rfl

end Create

/-! ## `set_chunks` -/

/-- The rows that `executemany` inserts before it meets an index that is taken. -/
def inserted : List Nat → List (Chunk Sha) → List (Chunk Sha)
  | _, [] => []
  | taken, c :: cs => if c.idx ∈ taken then [] else c :: inserted (c.idx :: taken) cs

theorem inserted_eq (taken : List Nat) (cs : List (Chunk Sha)) :
    inserted taken cs = cs ↔ (cs.map (·.idx)).Nodup ∧ ∀ c ∈ cs, c.idx ∉ taken := by
  induction cs generalizing taken with
  | nil => simp [inserted]
  | cons c cs ih =>
    unfold inserted
    by_cases hc : c.idx ∈ taken
    · simp [hc]
    · rw [if_neg hc, List.cons.injEq, ih]
      constructor
      · rintro ⟨-, hnodup, hfree⟩
        refine ⟨List.nodup_cons.mpr ⟨fun hin => ?_, hnodup⟩, fun d hd => ?_⟩
        · obtain ⟨d, hd, heq⟩ := List.mem_map.mp hin
          exact hfree d hd (heq ▸ List.mem_cons_self)
        · rcases List.mem_cons.mp hd with rfl | hd
          · exact hc
          · exact fun hin => hfree d hd (List.mem_cons_of_mem _ hin)
      · rintro ⟨hnodup, hfree⟩
        obtain ⟨hne, hnodup⟩ := List.nodup_cons.mp hnodup
        refine ⟨rfl, hnodup, fun d hd hin => ?_⟩
        rcases List.mem_cons.mp hin with heq | hin
        · exact hne (List.mem_map.mpr ⟨d, hd, heq⟩)
        · exact hfree d (List.mem_cons_of_mem _ hd) hin

variable [DecidableEq Sha]

/-- The rows before the one that is stopped stay. -/
theorem insertChunks_run (ino : Ino) (cs : List (Chunk Sha)) (taken : List Nat) (n : Nat)
    (htaken : ∀ idx, c.tables.HasChunk ino idx ↔ idx ∈ taken) :
    insertChunks ino cs ts n c =
      (if inserted taken cs = cs then .ok () else .error .integrityError, n,
        { c with tables := { c.tables with
            chunks := c.tables.chunks ++ (inserted taken cs).map fun row => (ino, row) } }) := by
  induction cs generalizing c taken with
  | nil =>
    simp only [inserted, List.map_nil, List.append_nil]
    rfl
  | cons row rows ih =>
    unfold insertChunks inserted
    by_cases hrow : row.idx ∈ taken
    · have hstop : insertChunk ino row ts n c = (.error .integrityError, n, c) := by
        unfold insertChunk execute Run.attempt
        dsimp only
        rw [if_pos ((htaken _).mpr hrow)]
      rw [Run.bind_run, hstop, if_pos hrow]
      simp
    · have hone : insertChunk ino row ts n c =
          (.ok (), n, { c with tables := c.tables.addChunk ino row }) := by
        unfold insertChunk execute Run.attempt
        dsimp only
        rw [if_neg (mt (htaken _).mp hrow)]
      have htaken' : ∀ idx, (c.tables.addChunk ino row).HasChunk ino idx ↔ idx ∈ row.idx :: taken := by
        intro idx
        rw [List.mem_cons, ← htaken idx]
        constructor
        · rintro ⟨r, hr, hkey⟩
          rcases List.mem_append.mp hr with hr | hr
          · exact .inr ⟨r, hr, hkey⟩
          · rw [List.mem_singleton.mp hr] at hkey
            exact .inl hkey.2.symm
        · rintro (rfl | ⟨r, hr, hkey⟩)
          · exact ⟨(ino, row), List.mem_append_right _ (List.mem_singleton_self _), rfl, rfl⟩
          · exact ⟨r, List.mem_append_left _ hr, hkey⟩
      rw [Run.bind_run_ok hone, ih _ htaken', if_neg hrow]
      simp [Meta.addChunk]

theorem setChunks_run (ino : Ino) (chunks : List (Chunk Sha)) (n : Nat) :
    setChunks ino chunks ts n c = if inserted [] chunks = chunks then
        (.ok (), n, ⟨c.tables.setChunks ino chunks, c.tables.setChunks ino chunks⟩)
      else (.error .integrityError, n,
        { c with tables := c.tables.setChunks ino (inserted [] chunks) }) := by
  have htaken : ∀ idx, (c.tables.setChunks ino []).HasChunk ino idx ↔ idx ∈ ([] : List Nat) := by
    intro idx
    refine ⟨?_, nofun⟩
    rintro ⟨r, hr, hkey, -⟩
    exact absurd hkey (mem_deleteChunks.mp hr).2
  unfold setChunks deleteChunks
  rw [Run.bind_run_ok (show update (·.setChunks ino []) ts n c =
    (.ok (), n, { c with tables := c.tables.setChunks ino [] }) from rfl), Run.bind_run,
    insertChunks_run ino chunks [] n htaken]
  by_cases h : inserted [] chunks = chunks
  · rw [if_pos h, if_pos h, h]
    simp [Meta.setChunks, commit, Run.modify]
  · rw [if_neg h, if_neg h]
    simp [Meta.setChunks]

end MetaDb

/-! ## The calls -/

namespace MetaCall

variable [DecidableEq Sha]

/-- The call does not raise behind a change of the tables, or the change has put back what was
there. -/
def Atomic (m : Meta Sha) : MetaCall Sha → Prop
  | .create _ parent name _ _ _ _ _ => m.child parent name = none
  | .setChunks ino chunks => (chunks.map (·.idx)).Nodup ∨
      ∀ row, (ino, row) ∈ m.chunks ↔ row ∈ MetaDb.inserted [] chunks
  | _ => True

/-- If the call raises, whatever is called next sees, and makes durable, the tables that it would
without the call. -/
def AllOrNothing (call : MetaCall Sha) (c : Conn (Meta Sha)) : Prop :=
  ∀ e, (call.perform c).1 = .error e → ∀ calls : List (MetaCall Sha),
    Like Same (performAll calls (call.perform c).2) (performAll calls c)

variable {c : Conn (Meta Sha)}

omit [DecidableEq Sha] in
theorem undone_of_wp {α : Type} {m : MetaDb Sha α} (h : ∀ ts, Wp ts m (Undone c) c) (ts : Nat → Unit)
    (n : Nat) {e : PyErr Sha} (he : ((do
      let _ ← m
      pure ()) ts n c : Except (PyErr Sha) Unit × Nat × Conn (Meta Sha)).1 = .error e) :
    ((do
      let _ ← m
      pure ()) ts n c : Except (PyErr Sha) Unit × Nat × Conn (Meta Sha)).2.2 = c := by
  have hm : Wp ts (do
      let _ ← m
      pure () : MetaDb Sha Unit) (Undone c) c := by
    refine Wp.bind ((h ts).mono fun r c' hr => ?_)
    cases r with
    | error e => exact fun _ _ => hr e rfl
    | ok a => exact fun _ _ => nofun
  exact hm n e he

theorem perform_setChunks (ino : Ino) (chunks : List (Chunk Sha)) :
    (MetaCall.setChunks ino chunks).perform c = if MetaDb.inserted [] chunks = chunks then
        (.ok (), ⟨c.tables.setChunks ino chunks, c.tables.setChunks ino chunks⟩)
      else (.error .integrityError,
        { c with tables := c.tables.setChunks ino (MetaDb.inserted [] chunks) }) := by
  have hrun : (MetaCall.setChunks ino chunks).run (fun _ => ()) 0 c = _ :=
    MetaDb.setChunks_run ino chunks 0
  unfold perform
  rw [hrun]
  split <;> rfl

theorem perform_create_taken (now : Time) {parent : Ino} {name : Str} (mode : Nat) (kind : Kind)
    (uid gid : Nat) (target : Option Str) (htaken : c.tables.child parent name ≠ none) :
    (MetaCall.create now parent name mode kind uid gid target).perform c = (.error .integrityError,
      { c with tables := c.tables.addRow (c.tables.newRow now mode kind uid gid target) }) := by
  have hrun : MetaDb.create now parent name mode kind uid gid target (fun _ => ()) 0 c = _ :=
    MetaDb.create_taken now mode kind uid gid target htaken 0
  unfold perform run
  dsimp only
  rw [Run.bind_run, hrun]

/-- All calls but the two kinds raise at their first change or not at all. -/
theorem perform_undone (call : MetaCall Sha) (h : call.Atomic c.tables)
    (hset : ∀ ino chunks, call = .setChunks ino chunks → (chunks.map (·.idx)).Nodup) {e : PyErr Sha}
    (he : (call.perform c).1 = .error e) : (call.perform c).2 = c := by
  cases call with
  | create now parent name mode kind uid gid target =>
    have hfree : c.tables.child parent name = none := h
    refine undone_of_wp (fun ts => ?_) _ 0 he
    exact (MetaDb.create_free now mode kind uid gid target hfree).mono
      fun r c' hr e he => absurd he (hr e)
  | link now parent name targetIno => exact MetaDb.undone_link now parent name targetIno 0 e he
  | unlinkDirent now parent name =>
    exact undone_of_wp (fun ts => MetaDb.undone_unlinkDirent now parent name) _ 0 he
  | rename op oname np nname =>
    exact undone_of_wp (fun ts => MetaDb.undone_rename op oname np nname) _ 0 he
  | setattr now ino a => exact MetaDb.undone_setattr now ino a 0 e he
  | setSize now ino size => cases he
  | setChunks ino chunks =>
    have hall : MetaDb.inserted [] chunks = chunks :=
      (MetaDb.inserted_eq [] chunks).mpr ⟨hset ino chunks rfl, fun _ _ => nofun⟩
    rw [perform_setChunks, if_pos hall] at he
    cases he
  | blobCreate sha handle length => exact MetaDb.undone_blobCreate sha handle length 0 e he
  | blobIncref sha => cases he
  | blobDecref sha => exact undone_of_wp (fun ts => MetaDb.undone_blobDecref sha) _ 0 he

omit [DecidableEq Sha] in
theorem mem_setChunks {m : Meta Sha} {ino : Ino} {rows : List (Chunk Sha)} {i : Ino} {row : Chunk Sha} :
    (i, row) ∈ (m.setChunks ino rows).chunks ↔
      (i, row) ∈ m.chunks ∧ i ≠ ino ∨ row ∈ rows ∧ ino = i := by
  simp [Meta.setChunks]

/-- A call that raises leaves matched databases if it is atomic. -/
theorem Atomic.matched (hd : c.durable.Keyed) (ht : c.tables.Keyed) {call : MetaCall Sha}
    (h : call.Atomic c.tables) {e : PyErr Sha} (he : (call.perform c).1 = .error e) :
    Like Matched (call.perform c).2 c := by
  have hself : Like Matched c c := ⟨hd.matched, ht.matched⟩
  by_cases hset : ∀ ino chunks, call = .setChunks ino chunks → (chunks.map (·.idx)).Nodup
  · rw [perform_undone call h hset he]
    exact hself
  · push Not at hset
    obtain ⟨ino, chunks, rfl, hrep⟩ := hset
    have hstop : MetaDb.inserted [] chunks ≠ chunks :=
      fun heq => hrep ((MetaDb.inserted_eq [] chunks).mp heq).1
    have hrows := h.resolve_left hrep
    have hkeyed := (perform_matched hself (.setChunks ino chunks)).2.tables.left
    rw [perform_setChunks, if_neg hstop] at hkeyed ⊢
    refine ⟨hd.matched, hkeyed, ht, rfl, rfl, fun _ => Iff.rfl, ?_, rfl⟩
    rintro ⟨i, row⟩
    rw [mem_setChunks]
    constructor
    · rintro (⟨hin, -⟩ | ⟨hin, rfl⟩)
      · exact hin
      · exact (hrows row).mpr hin
    · intro hin
      by_cases hi : i = ino
      · subst hi
        exact .inr ⟨(hrows row).mp hin, rfl⟩
      · exact .inl ⟨hin, hi⟩

/-- A call is all or nothing, except a `create` of a name that exists and a `set_chunks` with an
index twice that replaces other rows. -/
theorem allOrNothing_iff (call : MetaCall Sha) (hd : c.durable.Keyed) (ht : c.tables.Keyed) :
    call.AllOrNothing c ↔ call.Atomic c.tables := by
  constructor
  · intro h
    cases call with
    | create now parent name mode kind uid gid target =>
      by_contra htaken
      have hperform := perform_create_taken now mode kind uid gid target htaken
      have hsame := (h .integrityError (by rw [hperform]) []).tables.nextIno
      rw [hperform] at hsame
      exact Nat.succ_ne_self _ hsame
    | setChunks ino chunks =>
      refine Classical.or_iff_not_imp_left.mpr fun hrep row => ?_
      have hstop : MetaDb.inserted [] chunks ≠ chunks :=
        fun heq => hrep ((MetaDb.inserted_eq [] chunks).mp heq).1
      have hperform := (perform_setChunks (c := c) ino chunks).trans (if_neg hstop)
      have hsame := (h .integrityError (by rw [hperform]) []).tables.chunks (ino, row)
      rw [hperform] at hsame
      refine hsame.symm.trans (mem_setChunks.trans ?_)
      simp
    | _ => trivial
  · intro h e he calls
    have hall := performAll_matched (h.matched hd ht he) calls
    exact ⟨hall.durable.same, hall.tables.same⟩

/-- Two files, the first one with a chunk. -/
def filled : Conn (Meta Bytes) :=
  performAll [.create 0 rootIno [97] 0o644 .file 0 0 none, .create 0 rootIno [98] 0o644 .file 0 0 none,
    .setChunks 2 [⟨0, 0, 1, [1]⟩], .setSize 0 2 1] ⟨Meta.fresh 0 0 0, Meta.fresh 0 0 0⟩

/-- A `link` onto a name that is taken, and a `set_chunks` that raises behind its first row, which
is the one it has deleted. -/
theorem allOrNothing_putBack :
    let link : MetaCall Bytes := .link 0 rootIno [98] 2
    let chunks : MetaCall Bytes := .setChunks 2 [⟨0, 0, 1, [1]⟩, ⟨0, 1, 1, [2]⟩]
    (link.perform filled).1 = .error .integrityError ∧ link.AllOrNothing filled ∧
      (chunks.perform filled).1 = .error .integrityError ∧ chunks.AllOrNothing filled := by
  intro link chunks
  have hd : filled.durable.Keyed := ⟨by decide, by decide⟩
  have ht : filled.tables.Keyed := ⟨by decide, by decide⟩
  have hrows : filled.tables.chunks = [(2, ⟨0, 0, 1, [1]⟩)] := rfl
  have hinserted : MetaDb.inserted [] [⟨0, 0, 1, [1]⟩, ⟨0, 1, 1, [2]⟩] =
      [(⟨0, 0, 1, [1]⟩ : Chunk Bytes)] := rfl
  refine ⟨rfl, (allOrNothing_iff link hd ht).mpr trivial, rfl,
    (allOrNothing_iff chunks hd ht).mpr (.inr fun row => ?_)⟩
  rw [hrows, hinserted, List.mem_singleton, List.mem_singleton, Prod.mk.injEq]
  exact and_iff_right rfl

/-- The second `create` of `a` raises, and the next `set_size` makes its inode 3 durable. The second
`set_chunks` raises, and the row that was there is gone. -/
theorem not_allOrNothing :
    (let a : MetaCall Bytes := .create 0 rootIno [97] 0o644 .file 0 0 none
    let c := performAll [a] ⟨Meta.fresh 0 0 0, Meta.fresh 0 0 0⟩
    (a.perform c).1 = .error .integrityError ∧ c.durable.inodes 3 = none ∧
      ((performAll [a, .setSize 0 2 5] c).durable.inodes 3).isSome ∧ ¬ a.AllOrNothing c) ∧
    let chunks : MetaCall Bytes := .setChunks 2 [⟨0, 0, 1, [1]⟩, ⟨0, 1, 1, [2]⟩]
    let c := performAll [.setChunks 2 [⟨0, 0, 1, [3]⟩]] ⟨Meta.fresh 0 0 0, Meta.fresh 0 0 0⟩
    (chunks.perform c).1 = .error .integrityError ∧
      c.durable.chunks = [(2, ⟨0, 0, 1, [3]⟩)] ∧
      (performAll [chunks, .setSize 0 1 0] c).durable.chunks = [(2, ⟨0, 0, 1, [1]⟩)] ∧
      ¬ chunks.AllOrNothing c := by
  refine ⟨⟨rfl, rfl, rfl, fun h => ?_⟩, rfl, rfl, rfl, fun h => ?_⟩
  · have hdurable := (h .integrityError rfl [.setSize 0 2 5]).durable.nextIno
    revert hdurable
    decide
  · have hdurable := (h .integrityError rfl [.setSize 0 1 0]).durable.chunks (2, ⟨0, 0, 1, [3]⟩)
    revert hdurable
    decide

end MetaCall

end Tgfs
