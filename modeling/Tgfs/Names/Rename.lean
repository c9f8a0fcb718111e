import Tgfs.Names.Runs

/-!
# `rename` and the file it moves

A rename between names of two different inodes loses nothing. Between two names of one inode
it takes a name away, where POSIX asks it to do nothing.
-/

namespace Tgfs

open Run (Wp)

namespace Meta

variable {Sha : Type} {m m' : Meta Sha}

/-- The same entries have this parent and name, so the same inode is found. -/
theorem child_congr (h' : m'.names.Linked) {parent : Ino} {name : Str}
    (hd : ∀ d : Dirent, d.parent = parent → d.name = name → (d ∈ m'.dirents ↔ d ∈ m.dirents)) :
    m'.child parent name = m.child parent name := by
  cases hc : m.child parent name with
  | none =>
    rw [child_eq_none] at hc ⊢
    intro d hmem hkey
    exact hc d ((hd d hkey.1 hkey.2).mp hmem) hkey
  | some c =>
    obtain ⟨d, hmem, rfl, rfl, rfl⟩ := child_eq_some hc
    exact child_of_mem h' ((hd d rfl rfl).mpr hmem)

/-- The entry of the destination stays where another name of its inode keeps the link count up. -/
theorem replaceDst_linked (h : m.names.Linked) {np : Ino} {nname : Str} {c : Ino}
    {m₁ : Meta Sha} (hr : m.replaceDst np nname = (.ok (some c), m₁)) :
    m.child np nname = some c ∧ m.names.links c = 1 := by
  rcases m.replaceDst_cases np nname with ⟨-, h'⟩ | ⟨c', -, -, h'⟩ | ⟨c', row, hc, hrow, h'⟩
  · rw [h'] at hr
    cases hr
  · rw [h'] at hr
    cases hr
  · rw [h'] at hr
    have hleft := Except.ok.inj (congrArg Prod.fst hr)
    split at hleft
    case isTrue => cases hleft
    case isFalse hpos =>
      cases hleft
      refine ⟨hc, ?_⟩
      obtain ⟨d, hd, rfl, rfl, rfl⟩ := child_eq_some hc
      have hrow' := names_row hrow
      have hlink := Namespace.links_pos (s := m.names) hd
      by_cases hk : row.kind = .dir
      · exfalso
        rw [hk] at hrow'
        have hdrop := Namespace.dropped_dir h hd hrow'
        have hn := h.dir d.child _ hrow' (.inr hlink)
        apply hpos
        unfold leftLinks
        by_cases hself : row.kind = .dir ∧ d.child = d.parent
        · rw [if_pos hself]
          have hsub : 1 ≤ m.names.subdirs d.child := by
            refine List.countP_pos_iff.mpr ⟨d, hd, decide_eq_true ⟨hself.2.symm, ?_⟩⟩
            rw [Namespace.isDir_of_row hrow']
            rfl
          omega
        · rw [if_neg hself]
          omega
      · have hn := (h.file d.child _ _ hrow' hk).1
        unfold leftLinks at hpos
        rw [if_neg fun hx => hk hx.1] at hpos
        omega

end Meta

namespace FsCore

variable {Sha : Type} [DecidableEq Sha] [Sha256 Sha] {s s' : FsCore Sha} {ts : Nat → Tick}

omit [Sha256 Sha] in
/-- What a rename that returns has done: the index is the one that `Meta.rename` leaves, up to
the content of an inode that lost its last link and was not open. -/
theorem wp_rename_ok (oldp : Ino) (oldname : Str) (newp : Ino) (newname : Str) :
    Wp ts (rename oldp oldname newp newname) (fun r s' => r = .ok () → ∃ replaced m₁,
      s.store.index.rename oldp oldname newp newname = (.ok replaced, m₁) ∧
      (∀ n, s.store.index.lookup newp newname = some n → n.kind = .dir →
        s.store.index.names.Empty n.id) ∧
      s'.names = m₁.names ∧
      ((∀ c, replaced = some c → s.isOpen c = true) →
        s'.store = { s.store with index := m₁ })) s := by
  unfold rename FsCore.lookup
  rw [Run.wp_gets_bind]
  cases s.store.index.lookup oldp oldname with
  | none => exact Run.wp_raise.mpr (by simp)
  | some n =>
    dsimp only
    rw [Run.wp_gets_bind]
    split
    case isTrue => exact Run.wp_raise.mpr (by simp)
    case isFalse hfull =>
      have hempty : ∀ d, s.store.index.lookup newp newname = some d → d.kind = .dir →
          s.store.index.names.Empty d.id := by
        intro d hd hk
        apply Meta.empty_of_childCount
        rw [hd] at hfull
        simpa [Inode.isDir, hk] using hfull
      apply Wp.bind
      refine Run.wp_attempt.mpr ?_
      rcases hren : s.store.index.rename oldp oldname newp newname with ⟨r, m₁⟩
      cases r with
      | error e => simp
      | ok replaced =>
        cases replaced with
        | none =>
          refine Run.wp_pure.mpr fun _ => ⟨none, m₁, rfl, hempty, rfl, fun _ => rfl⟩
        | some c =>
          dsimp only
          intro k hk
          refine ⟨some c, m₁, rfl, hempty, keeps_dropInode c ts k _, fun hopen => ?_⟩
          unfold dropInode
          rw [Run.bind_run]
          change ((if s.isOpen c = true then _ else _ : FsRun Sha Unit) ts k _).2.2.store = _
          rw [if_pos (hopen c rfl)]
          rfl

/-- What a rename must do: the new name denotes the file, which stays what it was, and
nothing else is lost. -/
structure RenameKeeps (cfg : WbConfig) (oldp : Ino) (oldname : Str) (newp : Ino) (newname : Str)
    (s s' : FsCore Sha) : Prop where
  /-- The new name denotes what the old one did. -/
  moved : ∃ n n', s.store.index.lookup oldp oldname = some n ∧
    s'.store.index.lookup newp newname = some n' ∧ n'.id = n.id
  /-- The content of the file is the same. -/
  content : ∀ src, s.store.index.child oldp oldname = some src → FsOp.Untouched cfg src s s'
  others : ∀ p name, ¬ (p = oldp ∧ name = oldname) → ¬ (p = newp ∧ name = newname) →
    s'.store.index.child p name = s.store.index.child p name
  /-- An inode that was replaced is removed only if it has no other name, and freed only if it
  is not open either. -/
  target : ∀ c, s.store.index.child newp newname = some c → s.store.index.child oldp oldname ≠ some c →
    (1 < s.names.links c → (s'.store.index.getInode c).isSome = true) ∧
    (1 < s.names.links c ∨ s.isOpen c = true →
      s'.store.index.getChunks c = s.store.index.getChunks c ∧
        ∀ row ∈ s.store.index.getChunks c, s'.store.blobData row.sha = s.store.blobData row.sha)
  /-- Between two names of one inode nothing changes. -/
  same : s.store.index.child oldp oldname = s.store.index.child newp newname → s' = s

section Main

variable {oldp newp : Ino} {oldname newname : Str} {d : Dirent}

/-- The entries behind a rename: the moved one and those that were neither at the old nor at the
new place. -/
structure Renamed (s s' : FsCore Sha) (d : Dirent) (newp : Ino) (newname : Str) : Prop where
  linked : s'.names.Linked
  source : d ∈ s.names.dirents
  mem : ∀ e, e ∈ s'.names.dirents ↔ e = ⟨newp, newname, d.child⟩ ∨
    (e ∈ s.names.dirents ∧ ¬ (e.parent = d.parent ∧ e.name = d.name) ∧
      ¬ (e.parent = newp ∧ e.name = newname))

omit [DecidableEq Sha] [Sha256 Sha] in
theorem renamed_of_cleared (hl : s.names.Linked) (hl' : s'.names.Linked) {d : Dirent}
    (hd : d ∈ s.names.dirents) {kind : Kind} {s₁ : Namespace}
    (hc : s.names.Cleared newp newname s₁) (hd₁ : d ∈ s₁.dirents)
    (hs' : s'.names = (s₁.moveEntry d.parent d.name newp newname).moveDir kind d.parent newp) :
    Renamed s s' d newp newname := by
  refine ⟨hl', hd, fun e => ?_⟩
  rw [hs', Namespace.moveDir_dirents,
    (Namespace.perm_moveEntry (hc.linked hl).keys hd₁ newp newname).mem_iff, List.mem_cons]
  apply or_congr Iff.rfl
  constructor
  · intro he
    have hmem := List.mem_of_mem_filter he
    refine ⟨hc.subset e hmem, of_decide_eq_true (List.mem_filter.mp he).2, hc.isFree e hmem⟩
  · rintro ⟨he, hold, hnew⟩
    exact Namespace.mem_others ((hc.mem_or he).resolve_right hnew) hold

omit [DecidableEq Sha] [Sha256 Sha] in
theorem Renamed.child_other (h : Renamed s s' d newp newname) {p : Ino} {name : Str}
    (hold : ¬ (p = d.parent ∧ name = d.name)) (hnew : ¬ (p = newp ∧ name = newname)) :
    s'.store.index.child p name = s.store.index.child p name := by
  refine Meta.child_congr h.linked fun e hp hn => ?_
  subst hp hn
  refine (h.mem e).trans ⟨fun he => ?_, fun he => .inr ⟨he, hold, hnew⟩⟩
  rcases he with rfl | ⟨he, -⟩
  · exact absurd ⟨rfl, rfl⟩ hnew
  · exact he

omit [DecidableEq Sha] [Sha256 Sha] in
/-- The old name is free afterwards, unless it is the new one. -/
theorem Renamed.free (h : Renamed s s' d newp newname) (hne : ¬ (newp = d.parent ∧ newname = d.name)) :
    s'.names.Free d.parent d.name := by
  intro e he hkey
  rcases (h.mem e).mp he with rfl | ⟨-, hold, -⟩
  · exact hne hkey
  · exact hold hkey

omit [DecidableEq Sha] [Sha256 Sha] in
/-- An inode that had another name than the two still has it. -/
theorem Renamed.keeps_row (hl : s.names.Linked) (h : Renamed s s' d newp newname) {c : Ino}
    (hchild : s.store.index.child newp newname = some c) (hne : d.child ≠ c)
    (hlinks : 1 < s.names.links c) : (s'.store.index.getInode c).isSome = true := by
  obtain ⟨e, he, rfl, rfl, rfl⟩ := Meta.child_eq_some hchild
  have hl₁ := Namespace.links_dropEntry hl he e.child
  rw [if_pos rfl] at hl₁
  obtain ⟨e', he', hc⟩ := List.countP_pos_iff.mp
    (show 0 < (s.names.dropEntry e.parent e.name).links e.child by omega)
  have hc := of_decide_eq_true hc
  have hmem := Namespace.mem_dropEntry he'
  have hmem' : e' ∈ s'.names.dirents := by
    refine (h.mem e').mpr (.inr ⟨hmem, fun hkey => ?_, of_decide_eq_true (List.mem_filter.mp he').2⟩)
    rw [Namespace.eq_of_key hl h.source hmem hkey] at hc
    exact hne hc
  have hrow := h.linked.child e' hmem'
  rw [hc, show s'.names.row e.child = _ from Meta.names_row_eq _ _, Option.isSome_map] at hrow
  unfold Meta.getInode
  rwa [Option.isSome_map]

/-- Between two different inodes, a rename that returns keeps what it must; between two names
of one inode it does not. -/
theorem renameKeeps_iff (hinj : Function.Injective (sha256 : Bytes → Sha)) (cfg : WbConfig)
    (hts : ∀ n, (ts n).Quiet True) (hs : s.Sound) (hl : s.names.Linked)
    (hdirs : FsOp.OnDirs s (.rename oldp oldname newp newname)) (n : Nat)
    (hok : (rename oldp oldname newp newname ts n s).1 = .ok ()) :
    RenameKeeps cfg oldp oldname newp newname s (rename oldp oldname newp newname ts n s).2.2 ↔
      s.store.index.child oldp oldname ≠ s.store.index.child newp newname := by
  obtain ⟨replaced, m₁, hren, hempty, hnames, hstore⟩ :=
    wp_rename_ok oldp oldname newp newname n hok
  have hkept := (wp_rename hts hs oldp oldname newp newname n).1
  have hchange : s.names.Change (.rename oldp oldname newp newname)
      (rename oldp oldname newp newname ts n s).2.2.names :=
    wp_rename_names oldp oldname newp newname n
  set s' := (rename oldp oldname newp newname ts n s).2.2 with hs'
  have hl' : s'.names.Linked :=
    hchange.linked hl fun p hp => (FsOp.isDir_names _ p).trans (hdirs p hp).1
  rcases s.store.index.rename_cases oldp oldname newp newname with
    ⟨e, -, h⟩ | ⟨src, row, r, m₂, hchild, hrow, hrep, h⟩
  · rw [hren] at h
    cases h
  rw [hren] at h
  obtain ⟨hr, rfl⟩ := Prod.mk.inj h
  cases hr
  obtain ⟨d, hd, rfl, rfl, rfl⟩ := Meta.child_eq_some hchild
  have hc := Meta.names_replaceDst hempty rfl hrep
  rw [Meta.names_moveDirLink] at hnames
  constructor
  · intro hkeep heq
    have hsame := hkeep.same heq
    have hfree : s'.names.Free d.parent d.name := by
      rcases Namespace.rename_cases hl hd (Meta.names_row hrow) hc with ⟨hmem, -⟩ | ⟨hkey, he⟩
      · have hrd := renamed_of_cleared hl hl' hd hc hmem hnames
        refine hrd.free fun hkey => hc.isFree d hmem ⟨hkey.1.symm, hkey.2.symm⟩
      · rw [hnames, hkey.1, hkey.2]
        have : (m₂.names.moveEntry d.parent d.name newp newname).moveDir row.kind d.parent newp =
            m₂.names := he
        rw [hkey.1, hkey.2] at this
        exact this.symm ▸ hc.isFree
    rw [hsame] at hfree
    exact hfree d hd ⟨rfl, rfl⟩
  · intro hne
    have hmem : d ∈ m₂.names.dirents := by
      rcases Namespace.rename_cases hl hd (Meta.names_row hrow) hc with ⟨hmem, -⟩ | ⟨hkey, -⟩
      · exact hmem
      · rw [hkey.1, hkey.2] at hne
        exact absurd rfl hne
    have hrd := renamed_of_cleared hl hl' hd hc hmem hnames
    have hrep' : ∀ c, replaced = some c →
        s.store.index.child newp newname = some c ∧ s.names.links c = 1 := by
      rintro c rfl
      exact Meta.replaceDst_linked hl hrep
    refine ⟨?_, fun src hsrc => ?_, fun p name hold hnew => ?_, fun c hnew hold => ⟨?_, ?_⟩, fun he => ?_⟩
    · have hnew := (hrd.mem _).mpr (.inl rfl)
      obtain ⟨⟨k, l⟩, hx⟩ := Option.isSome_iff_exists.mp (hl'.child _ hnew)
      obtain ⟨row', hrow', -, -⟩ := Meta.row_of_names hx
      exact ⟨_, _, Meta.lookup_of_mem hl hd hrow, Meta.lookup_of_mem hl' hnew hrow', rfl⟩
    · apply FsOp.Kept.untouched hinj hs hkept
      intro htouch
      exact hne (hsrc.trans htouch.symm)
    · exact hrd.child_other hold hnew
    · apply hrd.keeps_row hl hnew
      rintro rfl
      exact hold hchild
    · intro hlive
      have hst := hstore fun c' hc' => by
        obtain ⟨hx, hone⟩ := hrep' c' hc'
        rw [hnew] at hx
        cases hx
        rcases hlive with hl₂ | ho
        · omega
        · exact ho
      have hsame := Meta.sameContent_rename d.parent d.name newp newname s.store.index
      rw [hren] at hsame
      rw [hst]
      refine ⟨Meta.getChunks_congr hsame.chunks c, fun row _ => ?_⟩
      unfold Store.blobData
      rw [show ({ s.store with index := _ } : Store Sha).index.blobs = _ from hsame.blobs]
    · exact absurd he hne

end Main

/-- In every reachable state, a rename that returns keeps what it must exactly if its two names
do not denote one inode. -/
theorem rename_keeps_iff (hinj : Function.Injective (sha256 : Bytes → Sha)) (cfg : WbConfig)
    (hts : ∀ n, (ts n).Quiet True) (now : Time) (uid gid : Nat) (ops : List FsOp) (n : Nat)
    (hops : FsOp.Each cfg ts FsOp.OnDirs ops n (FsCore.empty now uid gid : FsCore Sha))
    (oldp : Ino) (oldname : Str) (newp : Ino) (newname : Str)
    (hdirs : FsOp.OnDirs (FsOp.runAll cfg ts ops n (FsCore.empty now uid gid : FsCore Sha)).2.2
      (.rename oldp oldname newp newname))
    (hok : (rename oldp oldname newp newname ts
      (FsOp.runAll cfg ts ops n (FsCore.empty now uid gid : FsCore Sha)).2.1
      (FsOp.runAll cfg ts ops n (FsCore.empty now uid gid : FsCore Sha)).2.2).1 = .ok ()) :
    RenameKeeps cfg oldp oldname newp newname
        (FsOp.runAll cfg ts ops n (FsCore.empty now uid gid : FsCore Sha)).2.2
        (rename oldp oldname newp newname ts
          (FsOp.runAll cfg ts ops n (FsCore.empty now uid gid : FsCore Sha)).2.1
          (FsOp.runAll cfg ts ops n (FsCore.empty now uid gid : FsCore Sha)).2.2).2.2 ↔
      (FsOp.runAll cfg ts ops n (FsCore.empty now uid gid : FsCore Sha)).2.2.store.index.child
          oldp oldname ≠
        (FsOp.runAll cfg ts ops n (FsCore.empty now uid gid : FsCore Sha)).2.2.store.index.child
          newp newname := by
  have hempty : (FsCore.empty now uid gid : FsCore Sha).Sound := FsOp.empty_sound now uid gid
  have hl := FsOp.runAll_keeps (I := fun s => s.names.Linked) FsOp.perform_linked
    (FsOp.empty_linked now uid gid) hops
  exact renameKeeps_iff hinj cfg hts (FsOp.runAll_sound cfg hts hempty ops n).1 hl hdirs _ hok

/-- The operations that make a file with content and a second one. -/
def twoFiles : List FsOp :=
  [.create rootIno [97] 0o644 2 0 0, .write 1 0 [5, 6, 7], .release 1,
    .createNode rootIno [98] 0o644 0 0]

/-- One file over another. -/
theorem rename_keeps_iff_replace :
    RenameKeeps ⟨⟨2, 1, by decide, by decide⟩, 0⟩ rootIno [97] rootIno [98]
      (FsOp.runAll ⟨⟨2, 1, by decide, by decide⟩, 0⟩ (fun _ => {}) twoFiles 0
        (FsCore.empty 0 0 0 : FsCore Bytes)).2.2
      (rename rootIno [97] rootIno [98] (fun _ => {})
        (FsOp.runAll ⟨⟨2, 1, by decide, by decide⟩, 0⟩ (fun _ => {}) twoFiles 0
          (FsCore.empty 0 0 0 : FsCore Bytes)).2.1
        (FsOp.runAll ⟨⟨2, 1, by decide, by decide⟩, 0⟩ (fun _ => {}) twoFiles 0
          (FsCore.empty 0 0 0 : FsCore Bytes)).2.2).2.2 := by
  refine (rename_keeps_iff (fun _ _ h => h) _ (fun _ => Tick.quiet_default) 0 0 0 twoFiles 0
    ?_ rootIno [97] rootIno [98] ?_ ?_).mpr ?_
  all_goals decide +kernel

/-- A file renamed to the name it has is gone. -/
theorem rename_keeps_iff_self :
    (rename rootIno [97] rootIno [97] (fun _ => {})
        (FsOp.runAll ⟨⟨2, 1, by decide, by decide⟩, 0⟩ (fun _ => {}) twoFiles 0
          (FsCore.empty 0 0 0 : FsCore Bytes)).2.1
        (FsOp.runAll ⟨⟨2, 1, by decide, by decide⟩, 0⟩ (fun _ => {}) twoFiles 0
          (FsCore.empty 0 0 0 : FsCore Bytes)).2.2).1 = .ok () ∧
      ¬ RenameKeeps ⟨⟨2, 1, by decide, by decide⟩, 0⟩ rootIno [97] rootIno [97]
        (FsOp.runAll ⟨⟨2, 1, by decide, by decide⟩, 0⟩ (fun _ => {}) twoFiles 0
          (FsCore.empty 0 0 0 : FsCore Bytes)).2.2
        (rename rootIno [97] rootIno [97] (fun _ => {})
          (FsOp.runAll ⟨⟨2, 1, by decide, by decide⟩, 0⟩ (fun _ => {}) twoFiles 0
            (FsCore.empty 0 0 0 : FsCore Bytes)).2.1
          (FsOp.runAll ⟨⟨2, 1, by decide, by decide⟩, 0⟩ (fun _ => {}) twoFiles 0
            (FsCore.empty 0 0 0 : FsCore Bytes)).2.2).2.2 := by
  refine ⟨by decide +kernel, fun h => ?_⟩
  obtain ⟨n, n', -, hnew, -⟩ := h.moved
  have hnone : (rename rootIno [97] rootIno [97] (fun _ => {})
      (FsOp.runAll ⟨⟨2, 1, by decide, by decide⟩, 0⟩ (fun _ => {}) twoFiles 0
        (FsCore.empty 0 0 0 : FsCore Bytes)).2.1
      (FsOp.runAll ⟨⟨2, 1, by decide, by decide⟩, 0⟩ (fun _ => {}) twoFiles 0
        (FsCore.empty 0 0 0 : FsCore Bytes)).2.2).2.2.store.index.lookup rootIno [97] = none := by
    decide +kernel
  rw [hnone] at hnew
  cases hnew

end FsCore

end Tgfs
