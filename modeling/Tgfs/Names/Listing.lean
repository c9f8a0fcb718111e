import Tgfs.Fuse.Mount
import Tgfs.Misc.Paging
import Tgfs.Names.Runs

/-!
# Listing a directory while it changes

The ids of `readdir` are positions in a list that is queried anew for every call, so that a
listing reads pages of a changing list. It is complete as long as each call resumes behind the
last name that the kernel was given.
-/

namespace Tgfs

open Paging

variable {Sha : Type} {ts : Nat → Tick}

namespace Meta

variable (m : Meta Sha)

theorem readdir_perm (dir : Ino) : (m.readdir dir).Perm
    ((m.dirents.filter fun d => d.parent = dir).map fun d => (d.name, d.child)) :=
  List.perm_insertionSort _ _

theorem mem_readdir {dir : Ino} {e : Str × Ino} :
    e ∈ m.readdir dir ↔ ⟨dir, e.1, e.2⟩ ∈ m.dirents := by
  rw [(m.readdir_perm dir).mem_iff, List.mem_map]
  constructor
  · rintro ⟨d, hd, rfl⟩
    obtain ⟨hmem, hp⟩ := List.mem_filter.mp hd
    obtain rfl := of_decide_eq_true hp
    exact hmem
  · intro h
    exact ⟨_, List.mem_filter.mpr ⟨h, by simp⟩, rfl⟩

/-- The names of a directory, in the order of a listing. -/
def dirNames (dir : Ino) : List Str := (m.readdir dir).map Prod.fst

omit m in
theorem dirNames_le (m : Meta Sha) (dir : Ino) : (m.dirNames dir).Pairwise (· ≤ ·) := by
  have htotal : Std.Total fun a b : Str × Ino => a.1 ≤ b.1 := ⟨fun a b => le_total a.1 b.1⟩
  have htrans : IsTrans (Str × Ino) fun a b => a.1 ≤ b.1 := ⟨fun _ _ _ hab hbc => hab.trans hbc⟩
  have hsorted : (m.readdir dir).Pairwise fun a b => a.1 ≤ b.1 :=
    List.pairwise_insertionSort (fun a b : Str × Ino => a.1 ≤ b.1) _
  exact List.pairwise_map.mpr hsorted

theorem dirNames_nodup (h : m.names.Linked) (dir : Ino) : (m.dirNames dir).Nodup := by
  have hperm := (m.readdir_perm dir).map Prod.fst
  rw [List.map_map] at hperm
  refine hperm.nodup_iff.mpr (List.Pairwise.map _ (fun a b hab => hab) ?_)
  have hkeys : (m.dirents.filter fun d => d.parent = dir).Pairwise fun a b =>
      ¬ (a.parent = b.parent ∧ a.name = b.name) := h.keys.sublist List.filter_sublist
  refine hkeys.imp_of_mem fun {a b} ha hb hab hname => hab ⟨?_, hname⟩
  exact (of_decide_eq_true (List.mem_filter.mp ha).2).trans
    (of_decide_eq_true (List.mem_filter.mp hb).2).symm

theorem dirNames_sorted (h : m.names.Linked) (dir : Ino) :
    (m.dirNames dir).Pairwise (· < ·) :=
  ((m.dirNames_le dir).and (m.dirNames_nodup h dir)).imp fun hab => lt_of_le_of_ne hab.1 hab.2

end Meta

/-! ## One call -/

namespace FsCore

variable (ts) in
theorem live_run (s : FsCore Sha) (node : Inode) (n : Nat) :
    ∃ node', live node ts n s = (.ok node', n, s) ∧ node'.id = node.id := by
  unfold live
  refine ⟨_, rfl, ?_⟩
  dsimp only
  split
  · cases s.liveSize node.id <;> rfl
  · rfl

variable (ts) in
/-- `getattr` of an inode that exists returns it and changes nothing. -/
theorem getattr_run {s : FsCore Sha} {ino : Ino} (h : (s.store.index.getInode ino).isSome = true)
    (n : Nat) : ∃ node, getattr ino ts n s = (.ok node, n, s) ∧ node.id = ino := by
  obtain ⟨node, hnode⟩ := Option.isSome_iff_exists.mp h
  have hget : getInode ino ts n s = (.ok (some node), n, s) := congrArg (fun o => (Except.ok o, n, s)) hnode
  unfold getattr
  rw [Run.bind_run_ok hget, ← (Meta.getInode_eq_some hnode).1]
  exact live_run ts s node n

theorem readdir_run {s : FsCore Sha} {dir : Ino}
    (h : (s.store.index.getInode dir).any (·.isDir) = true) (n : Nat) :
    readdir dir ts n s = (.ok (s.store.index.readdir dir), n, s) := by
  cases hnode : s.store.index.getInode dir with
  | none => simp [hnode] at h
  | some node =>
    rw [hnode] at h
    unfold readdir
    have hget : getInode dir ts n s = (.ok (some node), n, s) :=
      congrArg (fun o => (Except.ok o, n, s)) hnode
    rw [Run.bind_run_ok hget]
    simp only [show node.isDir = true from h, Bool.not_true, Bool.false_eq_true, if_false]
    rfl

end FsCore

namespace TgfsOperations

/-- The replies are the page of entries behind `startId`, with their positions as ids. -/
theorem readdirFrom_run {N ε : Type} {s : FsCore Sha} {n : Nat}
    {entry : Str × Ino → Run Tick (FsCore Sha) ε (N × Inode)} (startId room i : Nat)
    {entries : List (Str × Ino)} {f : Str × Ino → N} (h : ∀ e ∈ entries,
      ∃ node, entry e ts n s = (.ok (f e, node), n, s) ∧ node.id = e.2) :
    ∃ replies, readdirFrom entry startId room i entries ts n s = (.ok replies, n, s) ∧
      replies.map (fun r => (r.name, r.node.id)) =
        page (startId - i) room (entries.map fun e => (f e, e.2)) ∧
        replies.map (·.id) = List.range' (max startId i + 1) replies.length := by
  induction entries generalizing room i with
  | nil => exact ⟨[], rfl, by simp [page], rfl⟩
  | cons e entries ih =>
    have hrest := fun e he => h e (List.mem_cons_of_mem _ he)
    unfold readdirFrom
    split
    case isTrue hskip =>
      obtain ⟨replies, hrun, hpage, hids⟩ := ih room (i + 1) hrest
      refine ⟨replies, hrun, ?_, ?_⟩
      · have hsub : startId - i = startId - (i + 1) + 1 := by omega
        rw [hpage, hsub]
        rfl
      · rw [hids, Nat.max_eq_left hskip, Nat.max_eq_left (by omega)]
    case isFalse hskip =>
      obtain ⟨node, hnode, hid⟩ := h e List.mem_cons_self
      have hsub : startId - i = 0 := by omega
      rw [Run.bind_run_ok hnode, hsub, Nat.max_eq_right (by omega)]
      cases room with
      | zero => exact ⟨[], rfl, rfl, rfl⟩
      | succ room =>
        obtain ⟨replies, hrun, hpage, hids⟩ := ih room (i + 1) hrest
        refine ⟨⟨i + 1, f e, node⟩ :: replies, ?_, ?_, ?_⟩
        · simp only
          rw [Run.bind_run_ok hrun]
          rfl
        · have hsub' : startId - (i + 1) = 0 := by omega
          rw [List.map_cons, hpage, hsub', hid]
          rfl
        · rw [List.map_cons, hids, Nat.max_eq_right (by omega), List.length_cons, List.range'_succ]

variable (ts) in
theorem entry_run {s : FsCore Sha} {e : Str × Ino}
    (h : (s.store.index.getInode e.2).isSome = true) (n : Nat) :
    ∃ node, entry e ts n s = (.ok (e.1, node), n, s) ∧ node.id = e.2 := by
  obtain ⟨node, hnode, hid⟩ := FsCore.getattr_run ts h n
  unfold entry
  rw [Run.bind_run_ok hnode]
  exact ⟨node, rfl, hid⟩

end TgfsOperations

/-! ## A whole listing -/

section Listing

variable [DecidableEq Sha] [Sha256 Sha] (cfg : WbConfig) (ts : Nat → Tick) (dir : Ino)

/-- The names in the directory at each call, with the room in the buffer. -/
def rounds : List (Nat × List FsOp) → Nat → FsCore Sha → List (List Str × Nat)
  | [], _, _ => []
  | (room, ops) :: calls, n, s =>
    (s.store.index.dirNames dir, room) ::
      rounds calls (FsOp.runAll cfg ts ops n s).2.1 (FsOp.runAll cfg ts ops n s).2.2

/-- The directory stays one while it is listed, and entries are made and removed in
directories only. -/
def Lasting : List (Nat × List FsOp) → Nat → FsCore Sha → Prop
  | [], _, _ => True
  | (_, ops) :: calls, n, s =>
    (s.store.index.getInode dir).any (·.isDir) = true ∧ FsOp.Each cfg ts FsOp.OnDirs ops n s ∧
      Lasting calls (FsOp.runAll cfg ts ops n s).2.1 (FsOp.runAll cfg ts ops n s).2.2

instance Lasting.decidable : ∀ (calls : List (Nat × List FsOp)) (n : Nat) (s : FsCore Sha),
    Decidable (Lasting cfg ts dir calls n s)
  | [], _, _ => .isTrue trivial
  | (_, ops) :: calls, n, s =>
    have := Lasting.decidable calls (FsOp.runAll cfg ts ops n s).2.1
      (FsOp.runAll cfg ts ops n s).2.2
    inferInstanceAs (Decidable (_ ∧ FsOp.Each cfg ts FsOp.OnDirs ops n s ∧ _))

variable {cfg ts dir}

omit [DecidableEq Sha] [Sha256 Sha] in
/-- The names that the kernel takes in a listing. -/
def reported (out : List (Except (PyErr Sha) (List (DirReply Str)))) : List Str :=
  out.flatMap fun r =>
    match r with
    | .ok replies => replies.map (·.name)
    | .error _ => []

/-- Every call returns, no name is reported twice, and one that was there at every call is
reported exactly once. -/
structure Complete (names : List (List Str × Nat))
    (out : List (Except (PyErr Sha) (List (DirReply Str)))) : Prop where
  returns : ∀ r ∈ out, ∃ replies, r = .ok replies
  nodup : (reported out).Nodup
  once : ∀ name, (∀ round ∈ names, name ∈ round.1) → (reported out).count name = 1

omit [DecidableEq Sha] [Sha256 Sha] in
theorem nextId_eq {startId : Nat} {replies : List (DirReply Str)}
    (h : replies.map (·.id) = List.range' (startId + 1) replies.length) :
    nextId startId (.ok replies : Except (PyErr Sha) _) = startId + replies.length := by
  rcases List.eq_nil_or_concat replies with rfl | ⟨front, last, rfl⟩
  · rfl
  · have hid := congrArg List.getLast? h
    rw [List.concat_eq_append, List.length_append, List.length_singleton, List.range'_concat,
      List.map_append, List.map_singleton, List.getLast?_concat, List.getLast?_concat] at hid
    have := Option.some.inj hid
    simp only [nextId, List.concat_eq_append, List.getLast?_concat, Option.elim_some,
      List.length_append, List.length_singleton]
    omega

/-- A listing reads pages of the names. -/
theorem listing_pages {calls : List (Nat × List FsOp)} {s : FsCore Sha} {n : Nat}
    (hl : s.names.Linked) (h : Lasting cfg ts dir calls n s) (startId : Nat) :
    (∀ r ∈ listing cfg ts dir calls startId n s, ∃ replies, r = .ok replies) ∧
      reported (listing cfg ts dir calls startId n s) = pages startId (rounds cfg ts dir calls n s) := by
  induction calls generalizing startId n s with
  | nil => exact ⟨nofun, rfl⟩
  | cons call calls ih =>
    rcases call with ⟨room, ops⟩
    obtain ⟨hdir, hops, hrest⟩ := h
    have hchild : ∀ e ∈ s.store.index.readdir dir, (s.store.index.getInode e.2).isSome = true := by
      intro e he
      exact (FsOp.linkCounts_of_linked hl).child _ ((s.store.index.mem_readdir).mp he)
    obtain ⟨replies, hrun, hpage, hids⟩ := TgfsOperations.readdirFrom_run startId room 0
      fun e he => TgfsOperations.entry_run ts (hchild e he) n
    have hnames : replies.map (·.name) = page startId room (s.store.index.dirNames dir) := by
      have := congrArg (List.map Prod.fst) hpage
      rw [List.map_map, page_map, List.map_map] at this
      exact this
    have hcall : TgfsOperations.readdir dir startId room ts n s = (.ok replies, n, s) := by
      unfold TgfsOperations.readdir
      rw [Run.bind_run_ok (FsCore.readdir_run hdir n)]
      exact hrun
    have hl' : (FsOp.runAll cfg ts ops n s).2.2.names.Linked :=
      FsOp.runAll_keeps (I := fun s' => s'.names.Linked) FsOp.perform_linked hl hops
    have hlen : replies.length = (page startId room (s.store.index.dirNames dir)).length := by
      rw [← List.length_map (·.name), hnames]
    have hnext : nextId startId (.ok replies : Except (PyErr Sha) _) = _ :=
      nextId_eq (by simpa using hids)
    obtain ⟨hret, hrep⟩ := ih hl' hrest (startId + replies.length)
    unfold listing
    simp only [hcall, hnext]
    refine ⟨?_, ?_⟩
    · intro r hr
      rcases List.mem_cons.mp hr with rfl | hr
      · exact ⟨replies, rfl⟩
      · exact hret r hr
    · unfold reported at hrep ⊢
      rw [List.flatMap_cons, hrep, hlen]
      simp only [hnames]
      rfl

theorem rounds_sorted {calls : List (Nat × List FsOp)} {s : FsCore Sha} {n : Nat}
    (hl : s.names.Linked) (h : Lasting cfg ts dir calls n s) :
    ∀ round ∈ rounds cfg ts dir calls n s, round.1.Pairwise (· < ·) := by
  induction calls generalizing n s with
  | nil => exact nofun
  | cons call calls ih =>
    intro round hr
    rcases List.mem_cons.mp hr with rfl | hr
    · exact s.store.index.dirNames_sorted hl dir
    · exact ih (FsOp.runAll_keeps (I := fun s' => s'.names.Linked) FsOp.perform_linked hl h.2.1)
        h.2.2 round hr

/-- A listing that was read to its end is complete, if at each call as many names sort up to the
last one reported as were reported before. -/
theorem listing_complete (cfg : WbConfig) (ts : Nat → Tick) (now : Time) (uid gid : Nat)
    (ops : List FsOp) (n : Nat)
    (hops : FsOp.Each cfg ts FsOp.OnDirs ops n (FsCore.empty now uid gid : FsCore Sha)) (dir : Ino)
    (calls : List (Nat × List FsOp)) {n' : Nat} {s : FsCore Sha}
    (hs : (FsOp.runAll cfg ts ops n (FsCore.empty now uid gid : FsCore Sha)).2 = (n', s))
    (h : Lasting cfg ts dir calls n' s) (hend : Exhausted 0 (rounds cfg ts dir calls n' s))
    (hsteady : Paging.Steady 0 ⊥ (rounds cfg ts dir calls n' s)) :
    Complete (rounds cfg ts dir calls n' s) (listing cfg ts dir calls 0 n' s) := by
  have hl : s.names.Linked := by
    have := FsOp.runAll_keeps (I := fun s' => s'.names.Linked) FsOp.perform_linked
      (FsOp.empty_linked now uid gid) hops
    rwa [hs] at this
  obtain ⟨hret, hrep⟩ := listing_pages hl h 0
  have hsorted := rounds_sorted hl h
  refine ⟨hret, ?_, fun name hname => ?_⟩
  · rw [hrep]
    exact (pages_sorted hsorted hsteady).1.imp fun hlt => hlt.ne
  · rw [hrep]
    exact count_pages hsorted hsteady hend hname

/-- Files `a`, `b` and `c` in the root. -/
def threeFiles : List FsOp :=
  [.createNode rootIno [97] 0o644 0 0, .createNode rootIno [98] 0o644 0 0,
    .createNode rootIno [99] 0o644 0 0]

/-- Two entries a call; between the calls `d` is made. -/
theorem listing_complete_create :
    Complete
      (rounds ⟨⟨2, 1, by decide, by decide⟩, 0⟩ (fun _ => {}) rootIno
        [(2, [.createNode rootIno [100] 0o644 0 0]), (2, []), (2, [])]
        (FsOp.runAll ⟨⟨2, 1, by decide, by decide⟩, 0⟩ (fun _ => {}) threeFiles 0
          (FsCore.empty 0 0 0 : FsCore Bytes)).2.1
        (FsOp.runAll ⟨⟨2, 1, by decide, by decide⟩, 0⟩ (fun _ => {}) threeFiles 0
          (FsCore.empty 0 0 0 : FsCore Bytes)).2.2)
      (listing ⟨⟨2, 1, by decide, by decide⟩, 0⟩ (fun _ => {}) rootIno
        [(2, [.createNode rootIno [100] 0o644 0 0]), (2, []), (2, [])] 0
        (FsOp.runAll ⟨⟨2, 1, by decide, by decide⟩, 0⟩ (fun _ => {}) threeFiles 0
          (FsCore.empty 0 0 0 : FsCore Bytes)).2.1
        (FsOp.runAll ⟨⟨2, 1, by decide, by decide⟩, 0⟩ (fun _ => {}) threeFiles 0
          (FsCore.empty 0 0 0 : FsCore Bytes)).2.2) :=
  listing_complete _ _ 0 0 0 threeFiles 0 (by decide +kernel) rootIno _ rfl (by decide +kernel)
    (by decide +kernel) (by decide +kernel)

/-- Two entries a call. If `a` is removed between the calls, `c` is never reported. If `Z` is
made, which sorts before the others, `b` is reported twice. -/
theorem listing_complete_remove :
    let s := (FsOp.runAll ⟨⟨2, 1, by decide, by decide⟩, 0⟩ (fun _ => {}) threeFiles 0
      (FsCore.empty 0 0 0 : FsCore Bytes)).2.2
    (∀ op, op = .unlink rootIno [97] ∨ op = .createNode rootIno [90] 0o644 0 0 →
      ¬ Complete
        (rounds ⟨⟨2, 1, by decide, by decide⟩, 0⟩ (fun _ => {}) rootIno [(2, [op]), (2, [])] 3 s)
        (listing ⟨⟨2, 1, by decide, by decide⟩, 0⟩ (fun _ => {}) rootIno [(2, [op]), (2, [])] 0 3 s)) ∧
    Lasting ⟨⟨2, 1, by decide, by decide⟩, 0⟩ (fun _ => {}) rootIno
      [(2, [.unlink rootIno [97]]), (2, [])] 3 s ∧
    Exhausted 0 (rounds ⟨⟨2, 1, by decide, by decide⟩, 0⟩ (fun _ => {}) rootIno
      [(2, [.unlink rootIno [97]]), (2, [])] 3 s) := by
  refine ⟨?_, by decide +kernel, by decide +kernel⟩
  rintro op (rfl | rfl) h
  · have := h.once [99] (by decide +kernel)
    revert this
    decide +kernel
  · have := h.nodup
    revert this
    decide +kernel

end Listing

end Tgfs
