import Tgfs.Names.Namespace

/-!
# Link counts stay exact

Each way of changing names keeps `Linked`: a new inode with its entry, a second entry of a
file, an entry that is taken away, and an entry that moves.
-/

namespace Tgfs

namespace Namespace

variable {s : Namespace}

/-! ## Counting entries -/

theorem links_congr {s' : Namespace} (hd : s'.dirents.Perm s.dirents) (i : Ino) :
    s'.links i = s.links i := hd.countP_eq _

theorem subdirs_congr {s' : Namespace} (hd : s'.dirents.Perm s.dirents)
    (hdir : ∀ d ∈ s.dirents, s'.isDir d.child = s.isDir d.child) (i : Ino) :
    s'.subdirs i = s.subdirs i := by
  refine (hd.countP_eq _).trans (List.countP_congr fun d hmem => ?_)
  rw [hdir d hmem]

theorem links_pos {d : Dirent} (hd : d ∈ s.dirents) : 1 ≤ s.links d.child :=
  List.countP_pos_iff.mpr ⟨d, hd, decide_eq_true rfl⟩

theorem links_addEntry (d : Dirent) (i : Ino) :
    (s.addEntry d).links i = s.links i + if d.child = i then 1 else 0 := by
  unfold links addEntry
  rw [List.countP_append, List.countP_singleton]
  simp

theorem subdirs_addEntry (d : Dirent) (i : Ino) :
    (s.addEntry d).subdirs i = s.subdirs i + if d.parent = i ∧ s.isDir d.child = true then 1 else 0 := by
  have hdir : ∀ j, (s.addEntry d).isDir j = s.isDir j := fun _ => rfl
  unfold subdirs
  simp only [hdir]
  unfold addEntry
  rw [List.countP_append, List.countP_singleton]
  simp

/-- The entries are those that remain with the one that goes. -/
theorem perm_dropEntry (h : s.Linked) {d : Dirent} (hd : d ∈ s.dirents) :
    s.dirents.Perm ((s.dropEntry d.parent d.name).addEntry d).dirents :=
  (perm_others h.keys hd).trans (List.perm_append_singleton d _).symm

theorem links_dropEntry (h : s.Linked) {d : Dirent} (hd : d ∈ s.dirents) (i : Ino) :
    s.links i = (s.dropEntry d.parent d.name).links i + if d.child = i then 1 else 0 := by
  rw [← links_addEntry]
  exact links_congr (perm_dropEntry h hd) i

theorem subdirs_dropEntry (h : s.Linked) {d : Dirent} (hd : d ∈ s.dirents) (i : Ino) :
    s.subdirs i = (s.dropEntry d.parent d.name).subdirs i +
      if d.parent = i ∧ s.isDir d.child = true then 1 else 0 := by
  rw [subdirs_congr (perm_dropEntry h hd) (fun _ _ => rfl), subdirs_addEntry]
  rfl

theorem perm_moveEntry_add (h : s.Linked) {d : Dirent} (hd : d ∈ s.dirents) (np : Ino)
    (nname : Str) : (s.moveEntry d.parent d.name np nname).dirents.Perm
      ((s.dropEntry d.parent d.name).addEntry ⟨np, nname, d.child⟩).dirents :=
  (perm_moveEntry h.keys hd np nname).trans (List.perm_append_singleton _ _).symm

/-! ## New entries -/

theorem keys_addEntry (h : s.Linked) {d : Dirent} (hfree : s.Free d.parent d.name) :
    (s.dirents ++ [d]).Pairwise fun a b => ¬ (a.parent = b.parent ∧ a.name = b.name) := by
  rw [List.pairwise_append]
  refine ⟨h.keys, List.pairwise_singleton _ _, ?_⟩
  intro a ha b hb
  rw [List.mem_singleton.mp hb]
  exact hfree a ha

/-- Nothing names an inode that is not there. -/
theorem links_unborn (h : s.Linked) {i : Ino} (hi : s.row i = none) : s.links i = 0 := by
  unfold links
  rw [List.countP_eq_zero]
  intro d hd hc
  have := h.child d hd
  rw [of_decide_eq_true hc, hi] at this
  cases this

theorem addRow_row (kind : Kind) {j : Ino} {kind' : Kind} {n : Int}
    (h : (s.addRow kind).row j = some (kind', n)) :
    (j = s.nextIno ∧ kind' = kind ∧ n = if kind = .dir then 2 else 1) ∨
      (j ≠ s.nextIno ∧ s.row j = some (kind', n)) := by
  by_cases hj : j = s.nextIno
  · subst hj
    rw [show (s.addRow kind).row s.nextIno = some (kind, if kind = .dir then 2 else 1) from
      Function.update_self _ _ _] at h
    cases h
    exact .inl ⟨rfl, rfl, rfl⟩
  · right
    exact ⟨hj, (Function.update_of_ne hj _ _).symm.trans h⟩

theorem addRow_isDir (kind : Kind) (j : Ino) :
    (s.addRow kind).isDir j = if j = s.nextIno then decide (kind = .dir) else s.isDir j := by
  unfold isDir addRow
  by_cases hj : j = s.nextIno
  · subst hj
    simp
  · simp [hj]

theorem not_isDir_unborn {i : Ino} (hi : s.row i = none) : s.isDir i = false := by
  unfold isDir
  rw [hi]
  rfl

theorem ne_of_isDir {i p : Ino} {k : Kind} {n : Int} (hrow : s.row i = some (k, n)) (hk : k ≠ .dir)
    (hp : s.isDir p = true) : i ≠ p := by
  rintro rfl
  rw [isDir_of_row hrow] at hp
  exact hk (of_decide_eq_true hp)

/-- An inode that is not there has no entries. -/
theorem subdirs_unborn (h : s.Linked) {i : Ino} (hi : s.row i = none) : s.subdirs i = 0 := by
  unfold subdirs
  rw [List.countP_eq_zero]
  intro d hd hc
  have hpar := h.parent d hd
  rw [(of_decide_eq_true hc).1, not_isDir_unborn hi] at hpar
  cases hpar

/-- A new inode and its entry. -/
def addNode (s : Namespace) (kind : Kind) (parent : Ino) (name : Str) : Namespace :=
  ((s.addRow kind).addEntry ⟨parent, name, s.nextIno⟩).adjustDir kind parent 1

theorem Linked.addNode (h : s.Linked) (kind : Kind) {parent : Ino} {name : Str}
    (hfree : s.Free parent name) (hp : s.isDir parent = true) :
    (s.addNode kind parent name).Linked := by
  have hnone : s.row s.nextIno = none := h.unborn _ le_rfl
  have hzero : s.links s.nextIno = 0 := links_unborn h hnone
  have hpn : parent ≠ s.nextIno := by
    rintro rfl
    rw [not_isDir_unborn hnone] at hp
    cases hp
  have hisDir : ∀ j, (s.addNode kind parent name).isDir j =
      if j = s.nextIno then decide (kind = .dir) else s.isDir j := by
    intro j
    unfold Namespace.addNode
    rw [adjustDir_isDir]
    exact addRow_isDir kind j
  have hlinks : ∀ j, (s.addNode kind parent name).links j =
      s.links j + if s.nextIno = j then 1 else 0 := by
    intro j
    have hperm : (s.addNode kind parent name).dirents.Perm
        (s.addEntry ⟨parent, name, s.nextIno⟩).dirents :=
      List.Perm.of_eq (adjustDir_dirents kind parent 1)
    rw [links_congr hperm, links_addEntry]
  have hsub : ∀ j, (s.addNode kind parent name).subdirs j =
      s.subdirs j + if parent = j ∧ kind = .dir then 1 else 0 := by
    intro j
    have hold : (s.dirents.countP fun d =>
        d.parent = j ∧ (s.addNode kind parent name).isDir d.child = true) = s.subdirs j := by
      refine List.countP_congr fun d hd => ?_
      have hne : d.child ≠ s.nextIno := by
        intro he
        have := h.child d hd
        rw [he, hnone] at this
        cases this
      rw [hisDir, if_neg hne]
    have hd : (s.addNode kind parent name).dirents = s.dirents ++ [⟨parent, name, s.nextIno⟩] :=
      adjustDir_dirents kind parent 1
    have hnew : (decide (parent = j ∧ (s.addNode kind parent name).isDir s.nextIno = true) : Bool) =
        decide (parent = j ∧ kind = .dir) := by
      rw [hisDir, if_pos rfl]
      simp only [decide_eq_true_eq]
    rw [subdirs, hd, List.countP_append, hold, List.countP_singleton, hnew]
    simp only [decide_eq_true_eq]
  constructor
  case keys =>
    rw [Namespace.addNode, adjustDir_dirents]
    exact keys_addEntry h hfree
  case child =>
    intro d hd
    rw [Namespace.addNode, adjustDir_isSome]
    rw [Namespace.addNode, adjustDir_dirents] at hd
    change (Function.update s.row s.nextIno _ d.child).isSome = true
    by_cases hc : d.child = s.nextIno
    · rw [hc, Function.update_self]
      rfl
    · rw [Function.update_of_ne hc]
      rcases List.mem_append.mp hd with hd | hd
      · exact h.child d hd
      · exact absurd (congrArg Dirent.child (List.mem_singleton.mp hd)) hc
  case parent =>
    intro d hd
    rw [Namespace.addNode, adjustDir_dirents] at hd
    have hdir : s.isDir d.parent = true := by
      rcases List.mem_append.mp hd with hd | hd
      · exact h.parent d hd
      · rw [List.mem_singleton.mp hd]
        exact hp
    rw [hisDir]
    split
    case isTrue he =>
      rw [he, not_isDir_unborn hnone] at hdir
      cases hdir
    case isFalse => exact hdir
  case unborn =>
    intro i hi
    rw [Namespace.addNode, adjustDir_nextIno] at hi
    have hlt : s.nextIno < i := hi
    rw [← Option.not_isSome_iff_eq_none, Namespace.addNode, adjustDir_isSome,
      Option.not_isSome_iff_eq_none]
    exact (Function.update_of_ne hlt.ne' _ _).trans (h.unborn i hlt.le)
  case root =>
    rw [hisDir]
    split
    case isTrue he =>
      have := h.root
      rw [he, not_isDir_unborn hnone] at this
      cases this
    case isFalse => exact h.root
  case file =>
    intro i k n hrow hk
    obtain ⟨n₀, hold, rfl⟩ := adjustDir_row hrow
    rw [hlinks]
    rcases addRow_row kind hold with ⟨rfl, rfl, rfl⟩ | ⟨hi, hold⟩
    · simp [hk, hzero]
    · have hne := ne_of_isDir hold hk hp
      have := h.file i k n₀ hold hk
      simp [hne, Ne.symm hi, this]
  case dir =>
    intro i n hrow hlive
    obtain ⟨n₀, hold, rfl⟩ := adjustDir_row hrow
    rw [hlinks] at hlive
    rw [hsub]
    rcases addRow_row kind hold with ⟨rfl, rfl, rfl⟩ | ⟨hi, hold⟩
    · have hnosub : s.subdirs s.nextIno = 0 := subdirs_unborn h hnone
      simp [hnosub, hpn, Ne.symm hpn]
    · rw [if_neg (Ne.symm hi), Nat.add_zero] at hlive
      have := h.dir i n₀ hold hlive
      by_cases hc : kind = .dir ∧ i = parent
      · rw [if_pos hc, if_pos ⟨hc.2.symm, hc.1⟩]
        push_cast
        omega
      · rw [if_neg hc, if_neg fun h => hc ⟨h.2, h.1.symm⟩]
        push_cast
        omega
  case once =>
    intro i hd
    rw [hisDir] at hd
    rw [hlinks]
    split at hd
    case isTrue hi =>
      subst hi
      have hroot : s.nextIno ≠ rootIno := by
        intro he
        have := h.root
        rw [← he, not_isDir_unborn hnone] at this
        cases this
      simp [hzero, hroot]
    case isFalse hi =>
      rw [if_neg (Ne.symm hi), Nat.add_zero]
      exact h.once i hd

/-! ## Another entry of a file -/

theorem Linked.addLink (h : s.Linked) {parent : Ino} {name : Str} {c : Ino} {kind : Kind} {n : Int}
    (hfree : s.Free parent name) (hp : s.isDir parent = true) (hrow : s.row c = some (kind, n))
    (hk : kind ≠ .dir) : ((s.addEntry ⟨parent, name, c⟩).adjust c 1).Linked := by
  have hc : s.isDir c = false := by
    rw [isDir_of_row hrow]
    exact decide_eq_false hk
  have hlinks : ∀ j, ((s.addEntry ⟨parent, name, c⟩).adjust c 1).links j =
      s.links j + if c = j then 1 else 0 := links_addEntry _
  have hsub : ∀ j, ((s.addEntry ⟨parent, name, c⟩).adjust c 1).subdirs j = s.subdirs j := by
    intro j
    have hadj : ((s.addEntry ⟨parent, name, c⟩).adjust c 1).subdirs j =
        (s.addEntry ⟨parent, name, c⟩).subdirs j := by
      apply subdirs_congr
      · rfl
      · intro d _
        exact adjust_isDir c d.child 1
    rw [hadj, subdirs_addEntry]
    simp [hc]
  have hdir : ∀ j, ((s.addEntry ⟨parent, name, c⟩).adjust c 1).isDir j = s.isDir j :=
    fun j => adjust_isDir c j 1
  constructor
  case keys => exact keys_addEntry h hfree
  case child =>
    intro d hd
    rw [adjust_isSome]
    rcases List.mem_append.mp hd with hd | hd
    · exact h.child d hd
    · rw [List.mem_singleton.mp hd]
      exact Option.isSome_of_eq_some hrow
  case parent =>
    intro d hd
    rw [hdir]
    rcases List.mem_append.mp hd with hd | hd
    · exact h.parent d hd
    · rw [List.mem_singleton.mp hd]
      exact hp
  case unborn =>
    intro i hi
    rw [← Option.not_isSome_iff_eq_none, adjust_isSome, Option.not_isSome_iff_eq_none]
    exact h.unborn i hi
  case root => exact (hdir _).trans h.root
  case file =>
    intro i k m hrow' hk'
    obtain ⟨m₀, hold, rfl⟩ := adjust_row hrow'
    obtain ⟨rfl, hpos⟩ := h.file i k m₀ hold hk'
    rw [hlinks]
    by_cases hi : i = c
    · simp [hi]
    · simp [hi, Ne.symm hi, hpos]
  case dir =>
    intro i m hrow' hlive
    obtain ⟨m₀, hold, rfl⟩ := adjust_row hrow'
    have hi : i ≠ c := by
      rintro rfl
      rw [show s.row i = some (.dir, m₀) from hold] at hrow
      cases hrow
      exact hk rfl
    rw [hlinks, if_neg (Ne.symm hi)] at hlive
    rw [hsub, if_neg hi, Int.add_zero]
    exact h.dir i m₀ hold hlive
  case once =>
    intro i hd
    rw [hdir] at hd
    have hi : c ≠ i := by
      rintro rfl
      rw [hc] at hd
      cases hd
    rw [hlinks, if_neg hi]
    exact h.once i hd

/-! ## An entry that goes -/

/-- The row of an inode that lost an entry, unless its count tells that it was the last. -/
def reap (s : Namespace) (c : Ino) (left : Int) : Namespace := if left ≤ 0 then s.removeRow c else s

def dropLink (s : Namespace) (d : Dirent) (kind : Kind) : Namespace :=
  ((s.dropEntry d.parent d.name).adjust d.child (-1)).adjustDir kind d.parent (-1)

theorem mem_dropEntry {parent : Ino} {name : Str} {d : Dirent}
    (hd : d ∈ (s.dropEntry parent name).dirents) : d ∈ s.dirents := List.mem_of_mem_filter hd

/-- A directory loses its only entry, and keeps its row. -/
theorem Linked.dropDir (h : s.Linked) {d : Dirent} (hd : d ∈ s.dirents)
    (hdir : s.isDir d.child = true) :
    (s.dropLink d .dir).Linked := by
  have hlinks := links_dropEntry h hd
  have hsub := subdirs_dropEntry h hd
  have hisDir : ∀ j, (s.dropLink d .dir).isDir j = s.isDir j := by
    intro j
    rw [dropLink, adjustDir_isDir, adjust_isDir]
    rfl
  have hlinks' : ∀ j, (s.dropLink d .dir).links j = (s.dropEntry d.parent d.name).links j :=
    links_congr (List.Perm.of_eq (adjustDir_dirents _ _ _))
  have hsub' : ∀ j, (s.dropLink d .dir).subdirs j = (s.dropEntry d.parent d.name).subdirs j :=
    subdirs_congr (List.Perm.of_eq (adjustDir_dirents _ _ _)) fun e _ => hisDir e.child
  have hroot : d.child ≠ rootIno := by
    intro he
    have hone := h.once d.child hdir
    have hpos := links_pos hd
    rw [if_pos he] at hone
    omega
  have hmem : ∀ e ∈ (s.dropLink d .dir).dirents, e ∈ s.dirents := by
    intro e he
    rw [dropLink, adjustDir_dirents] at he
    exact mem_dropEntry he
  constructor
  case keys =>
    rw [dropLink, adjustDir_dirents]
    exact h.keys.filter _
  case child =>
    intro e he
    rw [dropLink, adjustDir_isSome, adjust_isSome]
    exact h.child e (hmem e he)
  case parent =>
    intro e he
    rw [hisDir]
    exact h.parent e (hmem e he)
  case unborn =>
    intro i hi
    rw [dropLink, adjustDir_nextIno] at hi
    rw [← Option.not_isSome_iff_eq_none, dropLink, adjustDir_isSome, adjust_isSome,
      Option.not_isSome_iff_eq_none]
    exact h.unborn i hi
  case root => exact (hisDir _).trans h.root
  case file =>
    intro i k n hrow hk
    obtain ⟨n₁, hrow₁, rfl⟩ := adjustDir_row hrow
    obtain ⟨n₀, hrow₀, rfl⟩ := adjust_row hrow₁
    have hc : i ≠ d.child := ne_of_isDir (s := s) hrow₀ hk hdir
    have hp : i ≠ d.parent := ne_of_isDir (s := s) hrow₀ hk (h.parent d hd)
    have hold := h.file i k n₀ hrow₀ hk
    have hl := hlinks i
    rw [if_neg (Ne.symm hc)] at hl
    rw [hlinks', if_neg hc, if_neg fun hx => hp hx.2, ← Nat.add_zero ((s.dropEntry _ _).links i), ← hl]
    simpa using hold
  case dir =>
    intro i n hrow hlive
    obtain ⟨n₁, hrow₁, rfl⟩ := adjustDir_row hrow
    obtain ⟨n₀, hrow₀, rfl⟩ := adjust_row hrow₁
    have hl := hlinks i
    rw [hlinks'] at hlive
    -- The directory that lost its entry is not spoken of any more.
    have hc : i ≠ d.child := by
      rintro rfl
      have hone := h.once _ hdir
      rw [if_neg hroot] at hone
      rw [if_pos rfl] at hl
      rcases hlive with hi | hi
      · exact hroot hi
      · omega
    have hold := h.dir i n₀ hrow₀ (hlive.imp id fun hi => by omega)
    have hs := hsub i
    rw [hsub', if_neg hc]
    by_cases hp : i = d.parent
    · rw [if_pos ⟨rfl, hp⟩]
      rw [if_pos ⟨hp.symm, hdir⟩] at hs
      omega
    · rw [if_neg fun hx => hp hx.2]
      rw [if_neg fun hx => hp hx.1.symm] at hs
      omega
  case once =>
    intro i hi
    rw [hisDir] at hi
    have hone := h.once i hi
    have hl := hlinks i
    rw [hlinks']
    omega

/-- A file loses an entry, and its row if that was the last. -/
theorem Linked.dropFile (h : s.Linked) {d : Dirent} (hd : d ∈ s.dirents) {kind : Kind} {n : Int}
    (hrow : s.row d.child = some (kind, n)) (hk : kind ≠ .dir) :
    ((s.dropLink d kind).reap d.child (n - 1)).Linked := by
  have hlinks := links_dropEntry h hd
  have hsub := subdirs_dropEntry h hd
  obtain ⟨hn, hpos⟩ := h.file d.child kind n hrow hk
  have hfile : s.isDir d.child = false := by
    rw [isDir_of_row hrow]
    exact decide_eq_false hk
  have hdrop : s.dropLink d kind = (s.dropEntry d.parent d.name).adjust d.child (-1) := if_neg hk
  set s' := (s.dropLink d kind).reap d.child (n - 1) with hs'
  have hdirents : s'.dirents = (s.dropEntry d.parent d.name).dirents := by
    rw [hs', reap, hdrop]
    split <;> rfl
  have hrow' : ∀ j, s'.row j = if j = d.child ∧ s.links d.child = 1 then none
      else (s.row j).map fun r => (r.1, r.2 + if j = d.child then -1 else 0) := by
    intro j
    rw [hs', reap, hdrop]
    by_cases hone : s.links d.child = 1
    · rw [if_pos (by omega)]
      by_cases hj : j = d.child
      · rw [if_pos ⟨hj, hone⟩, hj]
        exact Function.update_self _ _ _
      · rw [if_neg fun hx => hj hx.1]
        exact Function.update_of_ne hj _ _
    · rw [if_neg (by omega), if_neg fun hx => hone hx.2]
      rfl
  have hisDir : ∀ j, s'.isDir j = s.isDir j := by
    intro j
    by_cases hj : j = d.child
    · rw [hj, hfile, isDir, hrow', hrow]
      split
      case isTrue => rfl
      case isFalse => exact decide_eq_false hk
    · rw [isDir, hrow', if_neg fun hx => hj hx.1, isDir, Option.any_map]
  have hrest : ∀ e ∈ s'.dirents, e ∈ s.dirents ∧ ¬ (e.child = d.child ∧ s.links d.child = 1) := by
    intro e he
    rw [hdirents] at he
    refine ⟨mem_dropEntry he, ?_⟩
    rintro ⟨hc, hone⟩
    have hpos' := links_pos he
    have := hlinks d.child
    rw [if_pos rfl] at this
    rw [hc] at hpos'
    omega
  have hlinks' : ∀ j, s'.links j = (s.dropEntry d.parent d.name).links j :=
    links_congr (List.Perm.of_eq hdirents)
  have hsub' : ∀ j, s'.subdirs j = (s.dropEntry d.parent d.name).subdirs j :=
    subdirs_congr (List.Perm.of_eq hdirents) fun e _ => hisDir e.child
  constructor
  case keys =>
    rw [hdirents]
    exact h.keys.filter _
  case child =>
    intro e he
    obtain ⟨hmem, hne⟩ := hrest e he
    rw [hrow', if_neg hne, Option.isSome_map]
    exact h.child e hmem
  case parent =>
    intro e he
    rw [hisDir]
    exact h.parent e (hrest e he).1
  case unborn =>
    intro i hi
    have hnext : s'.nextIno = s.nextIno := by
      rw [hs', reap, hdrop]
      split <;> rfl
    rw [hrow', h.unborn i (hnext ▸ hi)]
    split <;> rfl
  case root => exact (hisDir _).trans h.root
  case file =>
    intro i k m hr hk'
    rw [hrow'] at hr
    split at hr
    case isTrue => cases hr
    case isFalse hi =>
      obtain ⟨⟨k₀, m₀⟩, hr₀, he⟩ := Option.map_eq_some_iff.mp hr
      cases he
      have hold := h.file i k₀ m₀ hr₀ hk'
      have hl := hlinks i
      rw [hlinks']
      by_cases hc : i = d.child
      · subst hc
        have hmany : s.links d.child ≠ 1 := fun hx => hi ⟨rfl, hx⟩
        rw [if_pos rfl] at hl ⊢
        omega
      · rw [if_neg (Ne.symm hc)] at hl
        rw [if_neg hc]
        omega
  case dir =>
    intro i m hr hlive
    rw [hrow'] at hr
    split at hr
    case isTrue => cases hr
    case isFalse =>
      obtain ⟨⟨k₀, m₀⟩, hr₀, he⟩ := Option.map_eq_some_iff.mp hr
      cases he
      have hl := hlinks i
      have hs := hsub i
      rw [hfile, if_neg (by simp)] at hs
      rw [hlinks'] at hlive
      have hold := h.dir i m₀ hr₀ (hlive.imp id fun hx => by omega)
      have hc : i ≠ d.child := by
        rintro rfl
        rw [hrow] at hr₀
        cases hr₀
        exact hk rfl
      rw [hsub', if_neg hc]
      omega
  case once =>
    intro i hi
    rw [hisDir] at hi
    have hone := h.once i hi
    have hl := hlinks i
    rw [hlinks']
    omega

/-! ## An entry that moves -/

/-- The link of a directory that goes from one parent to another. -/
def moveDir (s : Namespace) (kind : Kind) (op np : Ino) : Namespace :=
  if kind = .dir ∧ op ≠ np then (s.adjust op (-1)).adjust np 1 else s

theorem moveDir_dirents (kind : Kind) (op np : Ino) : (s.moveDir kind op np).dirents = s.dirents := by
  unfold moveDir
  split <;> rfl

theorem moveDir_isDir (kind : Kind) (op np j : Ino) : (s.moveDir kind op np).isDir j = s.isDir j := by
  unfold moveDir
  split
  case isTrue => rw [adjust_isDir, adjust_isDir]
  case isFalse => rfl

theorem Linked.move (h : s.Linked) {d : Dirent} (hd : d ∈ s.dirents) {np : Ino} {nname : Str}
    (hfree : s.Free np nname) (hnp : s.isDir np = true) {kind : Kind} {n : Int}
    (hrow : s.row d.child = some (kind, n)) :
    ((s.moveEntry d.parent d.name np nname).moveDir kind d.parent np).Linked := by
  have hperm := perm_moveEntry_add h hd np nname
  have hlinks := links_dropEntry h hd
  have hsub := subdirs_dropEntry h hd
  have hdirents : ((s.moveEntry d.parent d.name np nname).moveDir kind d.parent np).dirents =
      (s.moveEntry d.parent d.name np nname).dirents := moveDir_dirents kind d.parent np
  have hisDir : ∀ j, ((s.moveEntry d.parent d.name np nname).moveDir kind d.parent np).isDir j =
      s.isDir j := fun j => moveDir_isDir kind d.parent np j
  set s' := (s.moveEntry d.parent d.name np nname).moveDir kind d.parent np with hs'
  have hrow' : ∀ j, s'.row j = (s.row j).map fun r => (r.1, r.2 + if kind = .dir ∧ d.parent ≠ np then
      (if j = d.parent then -1 else 0) + if j = np then 1 else 0 else 0) := by
    intro j
    rw [hs', moveDir]
    by_cases hm : kind = .dir ∧ d.parent ≠ np
    · rw [if_pos hm, if_pos hm]
      change Option.map _ (Option.map _ (s.row j)) = _
      rw [Option.map_map]
      congr 1
      funext r
      exact Prod.ext rfl (Int.add_assoc _ _ _)
    · rw [if_neg hm, if_neg hm]
      simp [moveEntry]
  have hlinks' : ∀ j, s'.links j = s.links j := by
    intro j
    have hl := hlinks j
    have hadd : s'.links j = ((s.dropEntry d.parent d.name).addEntry ⟨np, nname, d.child⟩).links j :=
      links_congr ((List.Perm.of_eq hdirents).trans hperm) j
    rw [hadd, links_addEntry]
    exact hl.symm
  have hsub' : ∀ j, s'.subdirs j + (if d.parent = j ∧ s.isDir d.child = true then 1 else 0) =
      s.subdirs j + if np = j ∧ s.isDir d.child = true then 1 else 0 := by
    intro j
    have hs := hsub j
    have hadd : s'.subdirs j =
        ((s.dropEntry d.parent d.name).addEntry ⟨np, nname, d.child⟩).subdirs j :=
      subdirs_congr ((List.Perm.of_eq hdirents).trans hperm) (fun e _ => hisDir e.child) j
    rw [hadd, subdirs_addEntry, hs]
    change _ + (if np = j ∧ s.isDir d.child = true then 1 else 0) + _ = _
    omega
  have hmem : ∀ e ∈ s'.dirents, e ∈ s.dirents ∨ e = ⟨np, nname, d.child⟩ := by
    intro e he
    rw [hdirents] at he
    rcases List.mem_append.mp (hperm.mem_iff.mp he) with hx | hx
    · exact .inl (mem_dropEntry hx)
    · exact .inr (List.mem_singleton.mp hx)
  constructor
  case keys =>
    rw [hdirents]
    refine (List.Perm.pairwise_iff (fun {a b} hab hx => hab ⟨hx.1.symm, hx.2.symm⟩) hperm).mpr ?_
    refine List.pairwise_append.mpr ⟨h.keys.filter _, List.pairwise_singleton _ _, ?_⟩
    intro a ha b hb
    rw [List.mem_singleton.mp hb]
    exact hfree a (mem_dropEntry ha)
  case child =>
    intro e he
    rw [hrow', Option.isSome_map]
    rcases hmem e he with hx | rfl
    · exact h.child e hx
    · exact h.child d hd
  case parent =>
    intro e he
    rw [hisDir]
    rcases hmem e he with hx | rfl
    · exact h.parent e hx
    · exact hnp
  case unborn =>
    intro i hi
    have hnext : s'.nextIno = s.nextIno := by
      rw [hs', moveDir]
      split <;> rfl
    rw [hrow', h.unborn i (hnext ▸ hi)]
    rfl
  case root => exact (hisDir _).trans h.root
  case file =>
    intro i k m hr hk
    rw [hrow'] at hr
    obtain ⟨⟨k₀, m₀⟩, hr₀, he⟩ := Option.map_eq_some_iff.mp hr
    cases he
    have hp : i ≠ d.parent := ne_of_isDir hr₀ hk (h.parent d hd)
    have hn : i ≠ np := ne_of_isDir hr₀ hk hnp
    rw [hlinks', if_neg hp, if_neg hn]
    simpa using h.file i k₀ m₀ hr₀ hk
  case dir =>
    intro i m hr hlive
    rw [hrow'] at hr
    obtain ⟨⟨k₀, m₀⟩, hr₀, he⟩ := Option.map_eq_some_iff.mp hr
    cases he
    rw [hlinks'] at hlive
    have hold := h.dir i m₀ hr₀ hlive
    have hs := hsub' i
    have hcd : s.isDir d.child = true ↔ kind = .dir := by
      rw [isDir_of_row hrow]
      exact decide_eq_true_iff
    simp only [hcd] at hs
    by_cases hkind : kind = .dir
    · by_cases hpp : d.parent = np
      · rw [if_neg fun hx => hx.2 hpp]
        rw [hpp] at hs
        omega
      · rw [if_pos ⟨hkind, hpp⟩]
        simp only [hkind, and_true, eq_comm (b := i)] at hs
        split_ifs at hs ⊢ <;> omega
    · rw [if_neg fun hx => hkind hx.1]
      simp only [hkind, and_false, if_false] at hs
      omega
  case once =>
    intro i hi
    rw [hisDir] at hi
    rw [hlinks']
    exact h.once i hi

end Namespace

end Tgfs
