import Tgfs.Names.Steps

/-!
# What every change of the names keeps

Exact link counts, a tree below the root and, as long as no directory is removed, a name for
every inode: each is kept by every `Change`, given what the kernel guarantees about the
arguments.
-/

namespace Tgfs

namespace Namespace

variable {s s' : Namespace}

/-! ## An entry that is gone -/

theorem dropLink_isDir (d : Dirent) (kind : Kind) (j : Ino) : (s.dropLink d kind).isDir j = s.isDir j := by
  rw [dropLink, adjustDir_isDir, adjust_isDir]
  rfl

theorem dropLink_row {d : Dirent} {kind kind' : Kind} {j : Ino} {m : Int}
    (h : (s.dropLink d kind).row j = some (kind', m)) : ∃ m₀, s.row j = some (kind', m₀) := by
  obtain ⟨m₁, h₁, -⟩ := adjustDir_row h
  obtain ⟨m₀, h₀, -⟩ := adjust_row h₁
  exact ⟨m₀, h₀⟩

theorem dropped_dirents (d : Dirent) (kind : Kind) (n : Int) :
    (s.dropped d kind n).dirents = s.others d.parent d.name := by
  have hdrop : (s.dropLink d kind).dirents = s.others d.parent d.name := adjustDir_dirents _ _ _
  unfold dropped reap
  split <;> exact hdrop

theorem dropped_row {d : Dirent} {kind kind' : Kind} {n m : Int} {j : Ino}
    (h : (s.dropped d kind n).row j = some (kind', m)) : ∃ m₀, s.row j = some (kind', m₀) := by
  unfold dropped reap at h
  split at h
  case isTrue =>
    by_cases hj : j = d.child
    · rw [hj, show ((s.dropLink d kind).removeRow d.child).row d.child = none from
        Function.update_self _ _ _] at h
      cases h
    · rw [show ((s.dropLink d kind).removeRow d.child).row j = (s.dropLink d kind).row j from
        Function.update_of_ne hj _ _] at h
      exact dropLink_row h
  case isFalse => exact dropLink_row h

/-- The row of a directory is never removed. -/
theorem dropped_dir (h : s.Linked) {d : Dirent} (hd : d ∈ s.dirents) {n : Int}
    (hrow : s.row d.child = some (.dir, n)) : s.dropped d .dir n = s.dropLink d .dir := by
  have hn := h.dir d.child n hrow (.inr (links_pos hd))
  have hloop : d.child = d.parent → 1 ≤ s.subdirs d.child := by
    intro he
    refine List.countP_pos_iff.mpr ⟨d, hd, decide_eq_true ⟨he.symm, ?_⟩⟩
    rw [isDir_of_row hrow]
    rfl
  unfold dropped reap leftOver
  rw [if_neg]
  by_cases he : d.child = d.parent
  · have := hloop he
    rw [if_pos ⟨rfl, he⟩]
    omega
  · rw [if_neg fun hx => he hx.2]
    omega

theorem Linked.dropped (h : s.Linked) {d : Dirent} (hd : d ∈ s.dirents) {kind : Kind} {n : Int}
    (hrow : s.row d.child = some (kind, n)) : (s.dropped d kind n).Linked := by
  by_cases hk : kind = .dir
  · subst hk
    rw [dropped_dir h hd hrow]
    apply h.dropDir hd
    rw [isDir_of_row hrow]
    rfl
  · have hleft : leftOver d kind n = n - 1 := by
      rw [leftOver, if_neg fun hx => hk hx.1, Int.add_zero]
    unfold Namespace.dropped
    rw [hleft]
    exact h.dropFile hd hrow hk

theorem dropped_isDir (h : s.Linked) {d : Dirent} (hd : d ∈ s.dirents) {kind : Kind} {n : Int}
    (hrow : s.row d.child = some (kind, n)) (j : Ino) :
    (s.dropped d kind n).isDir j = s.isDir j := by
  by_cases hk : kind = .dir
  · subst hk
    rw [dropped_dir h hd hrow, dropLink_isDir]
  · unfold Namespace.dropped reap
    split
    case isFalse => exact dropLink_isDir d kind j
    case isTrue =>
      by_cases hj : j = d.child
      · rw [hj, isDir_of_row hrow, decide_eq_false hk]
        exact not_isDir_unborn (Function.update_self _ _ _)
      · have : ((s.dropLink d kind).removeRow d.child).row j = (s.dropLink d kind).row j :=
          Function.update_of_ne hj _ _
        rw [isDir, this]
        exact dropLink_isDir d kind j

/-- What is below an entry that may go: nothing. -/
theorem leaf_of_empty (h : s.Linked) {d : Dirent} {kind : Kind} {n : Int}
    (hrow : s.row d.child = some (kind, n)) (hempty : kind = .dir → s.Empty d.child) :
    ∀ e ∈ s.dirents, e.parent ≠ d.child := by
  intro e he
  by_cases hk : kind = .dir
  · exact hempty hk e he
  · exact (ne_of_isDir hrow hk (h.parent e he)).symm

/-! ## A free place -/

theorem Cleared.linked (h : s.Linked) {parent : Ino} {name : Str} (hc : s.Cleared parent name s') :
    s'.Linked := by
  cases hc with
  | free => exact h
  | replaced hd _ hrow _ => exact h.dropped hd hrow

theorem Cleared.isDir (h : s.Linked) {parent : Ino} {name : Str} (hc : s.Cleared parent name s')
    (j : Ino) : s'.isDir j = s.isDir j := by
  cases hc with
  | free => rfl
  | replaced hd _ hrow _ => exact dropped_isDir h hd hrow j

theorem Cleared.isFree {parent : Ino} {name : Str} (hc : s.Cleared parent name s') :
    s'.Free parent name := by
  cases hc with
  | free hfree => exact hfree
  | replaced hd hkey _ _ =>
    intro e he
    rw [dropped_dirents] at he
    rw [← hkey.1, ← hkey.2]
    exact of_decide_eq_true (List.mem_filter.mp he).2

theorem Cleared.subset {parent : Ino} {name : Str} (hc : s.Cleared parent name s') :
    ∀ e ∈ s'.dirents, e ∈ s.dirents := by
  cases hc with
  | free => exact fun _ he => he
  | replaced =>
    intro e he
    rw [dropped_dirents] at he
    exact List.mem_of_mem_filter he

theorem Cleared.row {parent : Ino} {name : Str} (hc : s.Cleared parent name s') {j : Ino}
    {kind : Kind} {m : Int} (h : s'.row j = some (kind, m)) : ∃ m₀, s.row j = some (kind, m₀) := by
  cases hc with
  | free => exact ⟨m, h⟩
  | replaced => exact dropped_row h

/-- An entry stays, unless it is the one whose place is made free. -/
theorem Cleared.mem_or {parent : Ino} {name : Str} (hc : s.Cleared parent name s') {d : Dirent}
    (hd : d ∈ s.dirents) : d ∈ s'.dirents ∨ (d.parent = parent ∧ d.name = name) := by
  cases hc with
  | free => exact .inl hd
  | replaced he hkey _ _ =>
    by_cases hk : d.parent = parent ∧ d.name = name
    · exact .inr hk
    · left
      rw [dropped_dirents]
      apply mem_others hd
      rw [hkey.1, hkey.2]
      exact hk

theorem moveDir_self (kind : Kind) (p : Ino) : s.moveDir kind p p = s := if_neg fun h => h.2 rfl

/-- The two ways a rename can end: the entry moves to the free place, or the place was its own
and the entry is gone. -/
theorem rename_cases (h : s.Linked) {d : Dirent} (hd : d ∈ s.dirents) {np : Ino} {nname : Str}
    {kind : Kind} {n : Int} (hrow : s.row d.child = some (kind, n)) (hc : s.Cleared np nname s') :
    (d ∈ s'.dirents ∧ ∃ m, s'.row d.child = some (kind, m)) ∨
      ((d.parent = np ∧ d.name = nname) ∧
        (s'.moveEntry d.parent d.name np nname).moveDir kind d.parent np = s') := by
  rcases hc.mem_or hd with hmem | hkey
  · left
    refine ⟨hmem, ?_⟩
    have hsome := (hc.linked h).child d hmem
    obtain ⟨⟨kind', m⟩, hrow'⟩ := Option.isSome_iff_exists.mp hsome
    obtain ⟨m₀, hrow₀⟩ := hc.row hrow'
    rw [hrow] at hrow₀
    cases hrow₀
    exact ⟨m, hrow'⟩
  · right
    refine ⟨hkey, ?_⟩
    have hfree := hc.isFree
    rw [← hkey.1, ← hkey.2] at hfree ⊢
    rw [moveEntry_free hfree, moveDir_self]

theorem parent_of_makes {op : FsOp} {parent : Ino} {name : Str} {kind : Kind}
    (h : op.makes = some (parent, name, kind)) : parent ∈ op.parents := by
  cases op <;> cases h <;> exact List.mem_cons_self

/-- Called on directories, an operation keeps the counts exact. -/
theorem Change.linked {op : FsOp} (hc : s.Change op s') (h : s.Linked)
    (hp : ∀ p ∈ op.parents, s.isDir p = true) : s'.Linked := by
  cases hc with
  | same => exact h
  | node hop hfree => exact h.addNode _ hfree (hp _ (parent_of_makes hop))
  | link hfree hrow hk => exact h.addLink hfree (hp _ List.mem_cons_self) hrow hk
  | unlink hd hrow _ => exact h.dropped hd hrow
  | rmdir hd hrow _ => exact h.dropped hd hrow
  | rename hd hrow h₁ =>
    rcases rename_cases h hd hrow h₁ with ⟨hmem, m, hrow'⟩ | ⟨-, he⟩
    · have hnp := hp _ (List.mem_cons_of_mem _ List.mem_cons_self)
      rw [← h₁.isDir h] at hnp
      exact (h₁.linked h).move hmem h₁.isFree hnp hrow'
    · rw [he]
      exact h₁.linked h

/-! ## The tree -/

theorem Below.of_file (h : s.Linked) {c : Ino} {kind : Kind} {n : Int} (hrow : s.row c = some (kind, n))
    (hk : kind ≠ .dir) {x : Ino} (hx : s.Below c x) : x = c := by
  rcases Relation.ReflTransGen.cases_head hx with he | ⟨y, ⟨d, hd, hp, -⟩, -⟩
  · exact he.symm
  · exact absurd hp.symm (ne_of_isDir hrow hk (h.parent d hd))

theorem Cleared.rooted (h : s.Linked) (hr : s.Rooted) {parent : Ino} {name : Str}
    (hc : s.Cleared parent name s') : s'.Rooted := by
  cases hc with
  | free => exact hr
  | replaced hd hkey hrow hempty =>
    exact hr.drop h hd (leaf_of_empty h hrow hempty) (dropped_dirents _ _ _)

/-- The directory whose entry goes is still where it was. -/
theorem Cleared.below (h : s.Linked) {parent : Ino} {name : Str} (hc : s.Cleared parent name s')
    (hp : s.Below rootIno parent) : s'.Below rootIno parent := by
  cases hc with
  | free => exact hp
  | replaced hd hkey hrow hempty =>
    have hleaf := leaf_of_empty h hrow hempty
    refine hp.avoid ?_ hleaf ?_
    · intro e he hne
      rw [dropped_dirents]
      apply mem_others he
      intro hx
      rw [eq_of_key h hd he hx] at hne
      exact hne rfl
    · rw [← hkey.1]
      exact hleaf _ hd

theorem not_below_of_empty {op np : Ino} {oname : Str}
    (h : ∀ d ∈ s.dirents, d.parent = op → d.name = oname → s.Empty d.child ∧ d.child ≠ np) :
    ∀ d ∈ s.dirents, d.parent = op → d.name = oname → s.isDir d.child = true →
      ¬ s.Below d.child np := by
  intro d hd hp hn _ hb
  obtain ⟨hempty, hne⟩ := h d hd hp hn
  rcases Relation.ReflTransGen.cases_head hb with he | ⟨y, ⟨e, he, hpar, -⟩, -⟩
  · exact hne he
  · exact hempty e he hpar

/-- What the kernel guarantees about the arguments of an operation. -/
structure Guarded (s : Namespace) (op : FsOp) : Prop where
  dirs : ∀ p ∈ op.parents, s.isDir p = true
  below : ∀ p ∈ op.parents, s.Below rootIno p
  /-- A directory is not moved below itself. -/
  outside : ∀ oldp oldname newp newname, op = .rename oldp oldname newp newname →
    ∀ d ∈ s.dirents, d.parent = oldp → d.name = oldname → s.isDir d.child = true →
      ¬ s.Below d.child newp

theorem Change.rooted {op : FsOp} (hc : s.Change op s') (h : s.Linked) (hr : s.Rooted)
    (hg : s.Guarded op) : s'.Rooted := by
  cases hc with
  | same => exact hr
  | node hop hfree =>
    exact hr.add (hg.below _ (parent_of_makes hop)) (adjustDir_dirents _ _ _)
  | link hfree hrow hk => exact hr.add (hg.below _ List.mem_cons_self) rfl
  | unlink hd hrow hk =>
    exact hr.drop h hd (leaf_of_empty h hrow fun hx => absurd hx hk) (dropped_dirents _ _ _)
  | rmdir hd hrow hempty =>
    exact hr.drop h hd (leaf_of_empty h hrow fun _ => hempty) (dropped_dirents _ _ _)
  | @rename d np nname kind n s₁ hd hrow h₁ =>
    rcases rename_cases h hd hrow h₁ with ⟨hmem, m, hrow'⟩ | ⟨-, he⟩
    · have hnp := hg.below np (List.mem_cons_of_mem _ List.mem_cons_self)
      have hdir := hg.dirs np (List.mem_cons_of_mem _ List.mem_cons_self)
      have hl₁ := h₁.linked h
      have hout : ¬ s₁.Below d.child np := by
        intro hb
        by_cases hk : kind = .dir
        · apply hg.outside _ _ np nname rfl d hd rfl rfl _ (hb.mono h₁.subset)
          rw [isDir_of_row hrow]
          exact decide_eq_true hk
        · exact ne_of_isDir hrow hk hdir (Below.of_file hl₁ hrow' hk hb).symm
      have hperm := perm_moveEntry hl₁.keys hmem np nname
      rw [← moveDir_dirents kind d.parent np] at hperm
      exact (h₁.rooted h hr).move hl₁ hmem (h₁.below h hnp) hout hperm
    · rw [he]
      exact h₁.rooted h hr

end Namespace

/-- The names that an operation is called with. -/
def FsOp.spelling : FsOp → List Str
  | .mkdir _ name .. | .rmdir _ name | .createNode _ name .. | .symlink _ name ..
  | .link _ _ name | .unlink _ name | .create _ name .. => [name]
  | .rename _ oldname _ newname => [oldname, newname]
  | _ => []

namespace Namespace

variable {s s' : Namespace}

theorem name_of_makes {op : FsOp} {parent : Ino} {name : Str} {kind : Kind}
    (h : op.makes = some (parent, name, kind)) : name ∈ op.spelling := by
  cases op <;> cases h <;> exact List.mem_cons_self

theorem Change.spelt {op : FsOp} (hc : s.Change op s') {ok : Str → Prop} (h : s.Linked)
    (hs : s.Spelt ok) (hok : ∀ name ∈ op.spelling, ok name) : s'.Spelt ok := by
  have hadd : ∀ d : Dirent, ok d.name → ∀ e ∈ s.dirents ++ [d], ok e.name := by
    intro d hd e he
    rcases List.mem_append.mp he with he | he
    · exact hs e he
    · rw [List.mem_singleton.mp he]
      exact hd
  have hdrop : ∀ d kind n, (s.dropped d kind n).Spelt ok := by
    intro d kind n e he
    rw [dropped_dirents] at he
    exact hs e (List.mem_of_mem_filter he)
  cases hc with
  | same => exact hs
  | @node _ parent name kind hop hfree =>
    have hd : (s.addNode kind parent name).dirents = s.dirents ++ [⟨parent, name, s.nextIno⟩] :=
      adjustDir_dirents _ _ _
    intro e he
    rw [hd] at he
    exact hadd _ (hok _ (name_of_makes hop)) e he
  | link hfree hrow hk => exact hadd _ (hok _ List.mem_cons_self)
  | unlink => exact hdrop _ _ _
  | rmdir => exact hdrop _ _ _
  | @rename d np nname kind n s₁ hd hrow h₁ =>
    rcases rename_cases h hd hrow h₁ with ⟨hmem, m, -⟩ | ⟨-, he⟩
    · intro e he
      rw [moveDir_dirents] at he
      rcases List.mem_cons.mp ((perm_moveEntry (h₁.linked h).keys hmem np nname).mem_iff.mp he) with
        rfl | he
      · exact hok nname (List.mem_cons_of_mem _ List.mem_cons_self)
      · exact hs e (h₁.subset e (List.mem_of_mem_filter he))
    · intro e hmem
      rw [he] at hmem
      exact hs e (h₁.subset e hmem)

/-! ## A name for every inode -/

/-- Every inode but the root has a name. -/
def Named (s : Namespace) : Prop := ∀ i, (s.row i).isSome = true → i = rootIno ∨ 1 ≤ s.links i

/-- An operation takes away the entry of a directory. -/
def RemovesDir (s : Namespace) : FsOp → Prop
  | .rmdir parent name => ∃ d ∈ s.dirents, d.parent = parent ∧ d.name = name ∧
    s.isDir d.child = true ∧ s.Empty d.child
  | .rename oldp oldname newp newname =>
    (∃ d ∈ s.dirents, d.parent = oldp ∧ d.name = oldname) ∧
      ∃ d ∈ s.dirents, d.parent = newp ∧ d.name = newname ∧ s.isDir d.child = true ∧ s.Empty d.child
  | _ => False

instance (s : Namespace) : ∀ op, Decidable (s.RemovesDir op)
  | .rmdir parent name => inferInstanceAs (Decidable (∃ d ∈ s.dirents, d.parent = parent ∧
      d.name = name ∧ s.isDir d.child = true ∧ s.Empty d.child))
  | .rename oldp oldname newp newname => inferInstanceAs (Decidable
      ((∃ d ∈ s.dirents, d.parent = oldp ∧ d.name = oldname) ∧ ∃ d ∈ s.dirents, d.parent = newp ∧
        d.name = newname ∧ s.isDir d.child = true ∧ s.Empty d.child))
  | .mkdir .. | .createNode .. | .symlink .. | .link .. | .unlink .. | .setattr .. | .openFh ..
  | .create .. | .read .. | .write .. | .flush .. | .fsync .. | .release .. | .reap =>
    inferInstanceAs (Decidable False)

/-- With exact counts, only directories can be without a name. -/
theorem named_of_dirs (h : s.Linked)
    (hd : ∀ i, s.isDir i = true → i = rootIno ∨ 1 ≤ s.links i) : s.Named := by
  intro i hi
  obtain ⟨⟨kind, n⟩, hrow⟩ := Option.isSome_iff_exists.mp hi
  by_cases hk : kind = .dir
  · apply hd
    rw [isDir_of_row hrow]
    exact decide_eq_true hk
  · exact .inr (h.file i kind n hrow hk).2

theorem Named.dropFile (h : s.Linked) (hn : s.Named) {d : Dirent} (hd : d ∈ s.dirents) {kind : Kind}
    {n : Int} (hrow : s.row d.child = some (kind, n)) (hk : kind ≠ .dir) :
    (s.dropped d kind n).Named := by
  apply named_of_dirs (h.dropped hd hrow)
  intro i hi
  rw [dropped_isDir h hd hrow] at hi
  have hne : d.child ≠ i := by
    rintro rfl
    rw [isDir_of_row hrow] at hi
    exact hk (of_decide_eq_true hi)
  have hl := links_dropEntry h hd i
  rw [if_neg hne] at hl
  have heq : (s.dropped d kind n).links i = (s.dropEntry d.parent d.name).links i :=
    links_congr (List.Perm.of_eq (dropped_dirents d kind n)) i
  rw [heq]
  rcases hn i (isSome_of_isDir hi) with hx | hx
  · exact .inl hx
  · exact .inr (by omega)

theorem Cleared.named (h : s.Linked) (hn : s.Named) {parent : Ino} {name : Str}
    (hc : s.Cleared parent name s')
    (hfile : ∀ d ∈ s.dirents, d.parent = parent → d.name = name → s.isDir d.child = true →
      ¬ s.Empty d.child) : s'.Named := by
  cases hc with
  | free => exact hn
  | @replaced d kind n hd hkey hrow hempty =>
    refine hn.dropFile h hd hrow ?_
    rintro rfl
    refine hfile d hd hkey.1 hkey.2 ?_ (hempty rfl)
    rw [isDir_of_row hrow]
    rfl

theorem Named.mono (hn : s.Named) (hdir : ∀ i, s'.isDir i = s.isDir i)
    (hlinks : ∀ i, s.links i ≤ s'.links i) (h' : s'.Linked) : s'.Named := by
  apply named_of_dirs h'
  intro i hi
  rw [hdir] at hi
  exact (hn i (isSome_of_isDir hi)).imp id fun hx => hx.trans (hlinks i)

/-- As long as no directory is removed, every inode keeps a name. -/
theorem Change.named {op : FsOp} (hc : s.Change op s') (h : s.Linked) (hn : s.Named)
    (hp : ∀ p ∈ op.parents, s.isDir p = true) (hrm : ¬ s.RemovesDir op) : s'.Named := by
  have h' := hc.linked h hp
  cases hc with
  | same => exact hn
  | @node _ parent name kind hop hfree =>
    apply named_of_dirs h'
    intro i hi
    have hd : (s.addNode kind parent name).dirents = s.dirents ++ [⟨parent, name, s.nextIno⟩] :=
      adjustDir_dirents _ _ _
    have hl : (s.addNode kind parent name).links i = s.links i + if s.nextIno = i then 1 else 0 :=
      (links_congr (List.Perm.of_eq hd) i).trans (links_addEntry ⟨parent, name, s.nextIno⟩ i)
    rw [hl]
    by_cases he : s.nextIno = i
    · rw [if_pos he]
      exact .inr (by omega)
    · have hold : s.isDir i = true := by
        rw [addNode, adjustDir_isDir] at hi
        have hadd := addRow_isDir (s := s) kind i
        rw [if_neg (Ne.symm he)] at hadd
        exact hadd.symm.trans hi
      rw [if_neg he]
      exact hn i (isSome_of_isDir hold)
  | @link ino parent name kind n hfree hrow hk =>
    apply hn.mono _ _ h'
    · exact fun i => adjust_isDir ino i 1
    · intro i
      have := links_addEntry (s := s) ⟨parent, name, ino⟩ i
      exact this.symm ▸ Nat.le_add_right _ _
  | unlink hd hrow hk => exact hn.dropFile h hd hrow hk
  | rmdir hd hrow hempty =>
    exfalso
    apply hrm
    refine ⟨_, hd, rfl, rfl, ?_, hempty⟩
    rw [isDir_of_row hrow]
    rfl
  | @rename d np nname kind n s₁ hd hrow h₁ =>
    have hn₁ : s₁.Named := by
      apply h₁.named h hn
      intro e he hpar hname hdir hempty
      exact hrm ⟨⟨d, hd, rfl, rfl⟩, e, he, hpar, hname, hdir, hempty⟩
    rcases rename_cases h hd hrow h₁ with ⟨hmem, m, hrow'⟩ | ⟨-, he⟩
    · apply hn₁.mono _ _ h'
      · exact fun i => moveDir_isDir kind d.parent np i
      · intro i
        have hl := links_dropEntry (h₁.linked h) hmem i
        have hmove := links_congr ((List.Perm.of_eq (moveDir_dirents kind d.parent np)).trans
          (perm_moveEntry_add (h₁.linked h) hmem np nname)) i
        rw [hmove, links_addEntry, hl]
    · rw [he]
      exact hn₁

end Namespace

end Tgfs
