import Tgfs.Fuse.Proofs.Runs
import Tgfs.Names.Invariants

/-!
# The names along a run

Exact link counts, the tree and the names of the inodes, in every state that a run of
operations reaches.
-/

namespace Tgfs

namespace FsOp

variable {Sha : Type} [DecidableEq Sha] [Sha256 Sha]

/-- `P` holds of every operation and the state in which it starts. -/
def Each (cfg : WbConfig) (ts : Nat → Tick) (P : FsCore Sha → FsOp → Prop) :
    List FsOp → Nat → FsCore Sha → Prop
  | [], _, _ => True
  | op :: ops, n, s =>
    P s op ∧ Each cfg ts P ops (op.perform cfg ts n s).2.1 (op.perform cfg ts n s).2.2

instance Each.decidable (cfg : WbConfig) (ts : Nat → Tick) (P : FsCore Sha → FsOp → Prop)
    [∀ s op, Decidable (P s op)] :
    ∀ (ops : List FsOp) (n : Nat) (s : FsCore Sha), Decidable (Each cfg ts P ops n s)
  | [], _, _ => .isTrue trivial
  | op :: ops, n, s =>
    have := Each.decidable cfg ts P ops (op.perform cfg ts n s).2.1 (op.perform cfg ts n s).2.2
    inferInstanceAs (Decidable (P s op ∧ _))

variable {cfg : WbConfig} {ts : Nat → Tick} {s : FsCore Sha}

/-- What every operation keeps, a run keeps. -/
theorem runAll_keeps {I : FsCore Sha → Prop} {P : FsCore Sha → FsOp → Prop}
    (hstep : ∀ s op n, I s → P s op → I (op.perform cfg ts n s).2.2) {ops : List FsOp} {n : Nat}
    (h : I s) (hops : Each cfg ts P ops n s) : I (runAll cfg ts ops n s).2.2 := by
  induction ops generalizing n s with
  | nil => exact h
  | cons op ops ih => exact ih (hstep s op n h hops.1) hops.2

omit [DecidableEq Sha] [Sha256 Sha] in
theorem empty_linked (now : Time) (uid gid : Nat) :
    (FsCore.empty now uid gid : FsCore Sha).names.Linked := by
  have hrow : ∀ i, (FsCore.empty now uid gid : FsCore Sha).names.row i =
      if i = rootIno then some (.dir, 2) else none := by
    intro i
    change ((Function.update (fun _ => none) rootIno _ i : Option Inode).map _) = _
    by_cases hi : i = rootIno
    · rw [hi, Function.update_self, if_pos rfl]
      rfl
    · rw [Function.update_of_ne hi, if_neg hi]
      rfl
  have hlinks : ∀ i, (FsCore.empty now uid gid : FsCore Sha).names.links i = 0 := fun _ => rfl
  constructor
  case keys => exact List.Pairwise.nil
  case child => exact nofun
  case parent => exact nofun
  case unborn =>
    intro i hi
    rw [hrow, if_neg]
    rintro rfl
    exact absurd (show 2 ≤ 1 from hi) (by decide)
  case root =>
    unfold Namespace.isDir
    rw [hrow, if_pos rfl]
    rfl
  case file =>
    intro i k n h hk
    rw [hrow] at h
    split at h
    · cases h
      exact absurd rfl hk
    · cases h
  case dir =>
    intro i n h _
    rw [hrow] at h
    split at h
    · cases h
      rfl
    · cases h
  case once =>
    intro i _
    rw [hlinks]
    exact Nat.zero_le _

/-! ## Link counts -/

/-- An operation is called with directories as parents. -/
def OnDirs (s : FsCore Sha) (op : FsOp) : Prop :=
  ∀ p ∈ op.parents, (s.store.index.getInode p).any (·.isDir) = true ∧
    (p = rootIno ∨ ∃ d ∈ s.store.index.dirents, d.child = p)

instance (s : FsCore Sha) (op : FsOp) : Decidable (OnDirs s op) :=
  inferInstanceAs (Decidable (∀ p ∈ op.parents, (s.store.index.getInode p).any (·.isDir) = true ∧
    (p = rootIno ∨ ∃ d ∈ s.store.index.dirents, d.child = p)))

/-- The link counts are exact, and every entry leads somewhere. -/
structure LinkCounts (m : Meta Sha) : Prop where
  child : ∀ d ∈ m.dirents, (m.getInode d.child).isSome = true
  file : ∀ i n, m.getInode i = some n → n.isDir = false →
    n.nlink = (m.dirents.countP fun d => d.child = i) ∧ 1 ≤ m.dirents.countP fun d => d.child = i
  dir : ∀ i n, m.getInode i = some n → n.isDir = true →
    (i = rootIno ∨ ∃ d ∈ m.dirents, d.child = i) →
    n.nlink = 2 + (m.dirents.countP fun d => d.parent = i ∧ (m.getInode d.child).any (·.isDir) : Nat)

omit [DecidableEq Sha] [Sha256 Sha] in
theorem isDir_names (m : Meta Sha) (i : Ino) : m.names.isDir i = (m.getInode i).any (·.isDir) := by
  unfold Namespace.isDir Meta.getInode
  rw [Meta.names_row_eq]
  cases m.inodes i <;> rfl

omit [DecidableEq Sha] [Sha256 Sha] in
theorem linkCounts_of_linked {m : Meta Sha} (h : m.names.Linked) : LinkCounts m where
  child d hd := by
    have hs := h.child d hd
    rw [Meta.names_row_eq, Option.isSome_map] at hs
    unfold Meta.getInode
    rwa [Option.isSome_map]
  file i n hn hf := by
    obtain ⟨-, row, hrow, rfl⟩ := Meta.getInode_eq_some hn
    exact h.file i row.kind row.nlink (Meta.names_row hrow) (of_decide_eq_false hf)
  dir i n hn hd hlive := by
    obtain ⟨-, row, hrow, rfl⟩ := Meta.getInode_eq_some hn
    have hr := Meta.names_row hrow
    rw [of_decide_eq_true hd] at hr
    have hl : i = rootIno ∨ 1 ≤ m.names.links i := by
      rcases hlive with hi | ⟨d, hmem, rfl⟩
      · exact .inl hi
      · exact .inr (Namespace.links_pos hmem)
    have hcount := h.dir i _ hr hl
    refine hcount.trans ?_
    unfold Namespace.subdirs
    simp only [isDir_names]
    rfl

theorem perform_linked (s : FsCore Sha) (op : FsOp) (n : Nat) (h : s.names.Linked)
    (hop : OnDirs s op) : (op.perform cfg ts n s).2.2.names.Linked := by
  apply (perform_change cfg h op n).linked h
  intro p hp
  exact (isDir_names _ p).trans (hop p hp).1

/-- Whatever the operations are, and whether they succeed: called with directories as parents,
they leave exact link counts. -/
theorem runAll_linkCounts (cfg : WbConfig) (ts : Nat → Tick) (now : Time) (uid gid : Nat)
    (ops : List FsOp) (n : Nat) (hops : Each cfg ts OnDirs ops n (FsCore.empty now uid gid : FsCore Sha)) :
    LinkCounts (runAll cfg ts ops n (FsCore.empty now uid gid : FsCore Sha)).2.2.store.index :=
  linkCounts_of_linked (runAll_keeps (I := fun s => s.names.Linked) perform_linked
    (empty_linked now uid gid) hops)

/-- Two directories, a file with two names, and a move between the directories. -/
theorem runAll_linkCounts_move :
    LinkCounts (runAll ⟨⟨2, 1, by decide, by decide⟩, 0⟩ (fun _ => {})
      [.mkdir rootIno [97] 0o755 0 0, .mkdir rootIno [98] 0o755 0 0, .mkdir 2 [99] 0o755 0 0,
        .createNode 3 [100] 0o644 0 0, .link 5 2 [101], .rename 2 [99] 3 [99], .rename 2 [101] 3 [100]] 0
      (FsCore.empty 0 0 0 : FsCore Bytes)).2.2.store.index := by
  apply runAll_linkCounts
  decide +kernel

/-! ## The tree -/

/-- What the kernel guarantees of the arguments of an operation. -/
structure Vfs (s : FsCore Sha) (op : FsOp) : Prop where
  /-- Every parent is a directory that the root leads to. -/
  dirs : ∀ p ∈ op.parents, s.names.isDir p = true ∧ s.names.Below rootIno p
  spelt : ∀ name ∈ op.spelling, name ≠ [] ∧ Meta.slash ∉ name
  /-- A directory is moved neither into itself nor below itself. -/
  outside : ∀ oldp oldname newp newname, op = .rename oldp oldname newp newname →
    ∀ d ∈ s.names.dirents, d.parent = oldp → d.name = oldname → s.names.isDir d.child = true →
      ¬ s.names.Below d.child newp

/-- The namespace is a tree, in which every entry has a path. -/
structure IsTree (m : Meta Sha) : Prop where
  root : ∀ d ∈ m.dirents, d.child ≠ rootIno
  once : ∀ i n, m.getInode i = some n → n.isDir = true → i ≠ rootIno →
    (∃ d ∈ m.dirents, d.child = i) → (m.dirents.countP fun d => d.child = i) = 1
  up : ∀ d ∈ m.dirents, ∃ k, m.names.climb k d.parent = some rootIno
  path : ∀ d ∈ m.dirents, ∃ path n, m.resolve path = some n ∧ n.id = d.child

theorem perform_tree (s : FsCore Sha) (op : FsOp) (n : Nat)
    (h : s.names.Linked ∧ s.names.Rooted ∧ s.names.Spelt fun name => name ≠ [] ∧ Meta.slash ∉ name)
    (hop : Vfs s op) : (op.perform cfg ts n s).2.2.names.Linked ∧
      (op.perform cfg ts n s).2.2.names.Rooted ∧
      (op.perform cfg ts n s).2.2.names.Spelt fun name => name ≠ [] ∧ Meta.slash ∉ name := by
  have hc : s.names.Change op (op.perform cfg ts n s).2.2.names := perform_change cfg h.1 op n
  refine ⟨hc.linked h.1 fun p hp => (hop.dirs p hp).1, ?_, hc.spelt h.1 h.2.2 hop.spelt⟩
  exact hc.rooted h.1 h.2.1
    ⟨fun p hp => (hop.dirs p hp).1, fun p hp => (hop.dirs p hp).2, hop.outside⟩

omit [DecidableEq Sha] [Sha256 Sha] in
theorem isTree_of_rooted {m : Meta Sha} (h : m.names.Linked) (hr : m.names.Rooted)
    (hs : m.names.Spelt fun name => name ≠ [] ∧ Meta.slash ∉ name) : IsTree m where
  root d hd he := by
    have hone := h.once rootIno h.root
    have hpos := Namespace.links_pos (s := m.names) hd
    rw [he] at hpos
    rw [if_pos rfl] at hone
    omega
  once i n hn hd hi hlive := by
    obtain ⟨d, hmem, rfl⟩ := hlive
    have hdir : m.names.isDir d.child = true := by
      rw [isDir_names, hn]
      exact hd
    have hone := h.once d.child hdir
    rw [if_neg hi] at hone
    exact le_antisymm hone (Namespace.links_pos (s := m.names) hmem)
  up d hd := Namespace.climb_of_below h (hr d hd) (h.parent d hd)
  path d hd := Meta.resolve_of_mem h hr hs hd

/-- Whatever the operations are: with arguments that the kernel lets through, they leave a
tree. -/
theorem runAll_isTree (cfg : WbConfig) (ts : Nat → Tick) (now : Time) (uid gid : Nat)
    (ops : List FsOp) (n : Nat) (hops : Each cfg ts Vfs ops n (FsCore.empty now uid gid : FsCore Sha)) :
    IsTree (runAll cfg ts ops n (FsCore.empty now uid gid : FsCore Sha)).2.2.store.index := by
  have h := runAll_keeps perform_tree
    ⟨empty_linked now uid gid, nofun, nofun⟩ hops
  exact isTree_of_rooted h.1 h.2.1 h.2.2

/-- Two directories, one of which moves into the other. -/
theorem runAll_isTree_move :
    IsTree (runAll ⟨⟨2, 1, by decide, by decide⟩, 0⟩ (fun _ => {})
      [.mkdir rootIno [97] 0o755 0 0, .mkdir rootIno [98] 0o755 0 0, .rename rootIno [97] 3 [99]] 0
      (FsCore.empty 0 0 0 : FsCore Bytes)).2.2.store.index := by
  apply runAll_isTree
  refine ⟨⟨?_, by decide, nofun⟩, ⟨?_, by decide, nofun⟩, ⟨?_, by decide, ?_⟩, trivial⟩
  · intro p hp
    rw [List.mem_singleton.mp hp]
    exact ⟨by decide +kernel, .refl⟩
  · intro p hp
    rw [List.mem_singleton.mp hp]
    exact ⟨by decide +kernel, .refl⟩
  · intro p hp
    rcases List.mem_cons.mp hp with rfl | hp
    · exact ⟨by decide +kernel, .refl⟩
    · rw [List.mem_singleton.mp hp]
      refine ⟨by decide +kernel, .single ⟨⟨rootIno, [98], 3⟩, by decide +kernel, rfl, rfl⟩⟩
  · rintro oldp oldname newp newname ⟨⟩
    apply Namespace.not_below_of_empty
    decide +kernel

/-! ## No garbage -/

/-- Every inode but the root has a name, and one that has none is gone. -/
structure NoGarbage (s : FsCore Sha) : Prop where
  named : ∀ i, (s.store.index.getInode i).isSome = true →
    i = rootIno ∨ ∃ d ∈ s.store.index.dirents, d.child = i
  gone : ∀ i, i ≠ rootIno → (∀ d ∈ s.store.index.dirents, d.child ≠ i) →
    ∀ (ts : Nat → Tick) (n : Nat), (FsCore.getattr i ts n s).1 = .error (.osError .enoent)

/-- The operation removes no directory: it is neither a `rmdir` of an empty directory, nor a
`rename` onto one. -/
def KeepsDirs (s : FsCore Sha) (op : FsOp) : Prop := OnDirs s op ∧ ¬ s.names.RemovesDir op

instance (s : FsCore Sha) (op : FsOp) : Decidable (KeepsDirs s op) :=
  inferInstanceAs (Decidable (OnDirs s op ∧ ¬ s.names.RemovesDir op))

omit [DecidableEq Sha] [Sha256 Sha] in
theorem noGarbage_of_named {s : FsCore Sha} (h : s.names.Named) : NoGarbage s := by
  have hnamed : ∀ i, (s.store.index.getInode i).isSome = true →
      i = rootIno ∨ ∃ d ∈ s.store.index.dirents, d.child = i := by
    intro i hi
    have hrow : (s.names.row i).isSome = true := by
      change (s.store.index.names.row i).isSome = true
      rw [Meta.names_row_eq, Option.isSome_map]
      unfold Meta.getInode at hi
      rwa [Option.isSome_map] at hi
    rcases h i hrow with hr | hl
    · exact .inl hr
    · obtain ⟨d, hd, hc⟩ := List.countP_pos_iff.mp hl
      exact .inr ⟨d, hd, of_decide_eq_true hc⟩
  refine ⟨hnamed, fun i hi hno ts n => ?_⟩
  have hnone : s.store.index.getInode i = none := by
    cases hg : s.store.index.getInode i with
    | none => rfl
    | some node =>
      rcases hnamed i (Option.isSome_of_eq_some hg) with hr | ⟨d, hd, hc⟩
      · exact absurd hr hi
      · exact absurd hc (hno d hd)
  have hw : Run.Wp ts (FsCore.getattr i) (fun r _ => r = .error (.osError .enoent)) s := by
    unfold FsCore.getattr FsCore.live FsCore.getInode
    rw [Run.wp_gets_bind, hnone]
    exact Run.wp_raise.mpr rfl
  exact hw n

theorem perform_named (s : FsCore Sha) (op : FsOp) (n : Nat) (h : s.names.Linked ∧ s.names.Named)
    (hop : KeepsDirs s op) : (op.perform cfg ts n s).2.2.names.Linked ∧
      (op.perform cfg ts n s).2.2.names.Named := by
  have hp : ∀ p ∈ op.parents, s.names.isDir p = true := by
    intro p hp
    exact (isDir_names _ p).trans (hop.1 p hp).1
  have hc : s.names.Change op (op.perform cfg ts n s).2.2.names := perform_change cfg h.1 op n
  exact ⟨hc.linked h.1 hp, hc.named h.1 h.2 hp hop.2⟩

/-- As long as no directory is removed, there is no garbage. -/
theorem runAll_noGarbage (cfg : WbConfig) (ts : Nat → Tick) (now : Time) (uid gid : Nat)
    (ops : List FsOp) (n : Nat)
    (hops : Each cfg ts KeepsDirs ops n (FsCore.empty now uid gid : FsCore Sha)) :
    NoGarbage (runAll cfg ts ops n (FsCore.empty now uid gid : FsCore Sha)).2.2 := by
  have hnamed : (FsCore.empty now uid gid : FsCore Sha).names.Named := by
    intro i hi
    left
    change ((Function.update (fun _ => none) rootIno _ i : Option Inode).map _).isSome = true at hi
    by_contra hne
    rw [Function.update_of_ne hne] at hi
    cases hi
  exact noGarbage_of_named (runAll_keeps perform_named
    ⟨empty_linked now uid gid, hnamed⟩ hops).2

/-- A directory and a file in it, which goes before the directory is renamed. -/
theorem runAll_noGarbage_rename :
    NoGarbage (runAll ⟨⟨2, 1, by decide, by decide⟩, 0⟩ (fun _ => {})
      [.mkdir rootIno [97] 0o755 0 0, .createNode 2 [98] 0o644 0 0, .unlink 2 [98],
        .rename rootIno [97] rootIno [99]] 0 (FsCore.empty 0 0 0 : FsCore Bytes)).2.2 := by
  apply runAll_noGarbage
  decide +kernel

/-- A directory that was removed still has its inode. -/
theorem runAll_noGarbage_rmdir :
    Each ⟨⟨2, 1, by decide, by decide⟩, 0⟩ (fun _ => {}) OnDirs
        [.mkdir rootIno [97] 0o755 0 0, .rmdir rootIno [97]] 0 (FsCore.empty 0 0 0 : FsCore Bytes) ∧
      ¬ NoGarbage (runAll ⟨⟨2, 1, by decide, by decide⟩, 0⟩ (fun _ => {})
        [.mkdir rootIno [97] 0o755 0 0, .rmdir rootIno [97]] 0
        (FsCore.empty 0 0 0 : FsCore Bytes)).2.2 := by
  refine ⟨by decide +kernel, fun h => ?_⟩
  have hnamed := h.named 2 (by decide +kernel)
  revert hnamed
  decide +kernel

end FsOp

end Tgfs
