import Tgfs.Misc.Paths
import Tgfs.Names.Edits

/-!
# Paths

The inodes that paths lead to, and what an operation makes of them: a new path, a path that goes,
or everything at and below a path at another one.
-/

namespace Tgfs

/-- The paths that an operation changes, and how. -/
inductive FsOp.Effect (t : PathMap Ino Str) : FsOp → PathMap Ino Str → Prop
  | made {op : FsOp} {parent : Ino} {name : Str} {kind : Kind} {p : List Str} {i : Ino}
      (hop : op.makes = some (parent, name, kind)) (hp : t p = some parent)
      (hfree : t (p ++ [name]) = none) (hnew : ∀ q, t q ≠ some i) :
      Effect t op (t.graft (p ++ [name]) (.leaf i))
  | linked {ino parent : Ino} {name : Str} {p q : List Str} (hp : t p = some parent)
      (hfree : t (p ++ [name]) = none) (hq : t q = some ino) :
      Effect t (.link ino parent name) (t.graft (p ++ [name]) (.leaf ino))
  | removed {op : FsOp} {parent c : Ino} {name : Str} {p : List Str}
      (hop : op.removes = some (parent, name)) (hp : t p = some parent)
      (hc : t (p ++ [name]) = some c) (hleaf : ∀ q, t (p ++ [name] ++ q) = PathMap.leaf c q) :
      Effect t op (t.cut (p ++ [name]))
  | moved {oldp newp c : Ino} {oldname newname : Str} {p q : List Str} (hp : t p = some oldp)
      (hq : t q = some newp) (hc : t (p ++ [oldname]) = some c)
      (hne : p ++ [oldname] ≠ q ++ [newname])
      (hleaf : ∀ rest, rest ≠ [] → t (q ++ [newname] ++ rest) = none) :
      Effect t (.rename oldp oldname newp newname) (t.move (p ++ [oldname]) (q ++ [newname]))
  /-- A rename to where the entry is takes it away. -/
  | vanished {oldp c : Ino} {oldname : Str} {p : List Str} (hp : t p = some oldp)
      (hc : t (p ++ [oldname]) = some c) (hleaf : ∀ q, t (p ++ [oldname] ++ q) = PathMap.leaf c q) :
      Effect t (.rename oldp oldname oldp oldname) (t.cut (p ++ [oldname]))

namespace Namespace

variable {s s' : Namespace} {a b c : Ino} {name : Str}

def child (s : Namespace) (parent : Ino) (name : Str) : Option Ino :=
  (s.dirents.find? fun d => d.parent = parent ∧ d.name = name).map (·.child)

def paths (s : Namespace) : PathMap Ino Str := walk s.child rootIno

theorem child_eq_none : s.child a name = none ↔ s.Free a name := by
  unfold child Free
  rw [Option.map_eq_none_iff, List.find?_eq_none]
  simp

theorem child_eq_some (h : s.Linked) :
    s.child a name = some c ↔ (⟨a, name, c⟩ : Dirent) ∈ s.dirents := by
  unfold child
  constructor
  · intro hc
    obtain ⟨d, hd, rfl⟩ := Option.map_eq_some_iff.mp hc
    have hkey := List.find?_some hd
    simp only [decide_eq_true_eq] at hkey
    obtain ⟨rfl, rfl⟩ := hkey
    exact List.mem_of_find?_eq_some hd
  · intro hd
    cases hf : s.dirents.find? fun d => d.parent = a ∧ d.name = name with
    | none => simpa using List.find?_eq_none.mp hf _ hd
    | some e =>
      have hkey := List.find?_some hf
      simp only [decide_eq_true_eq] at hkey
      rw [eq_of_key h hd (List.mem_of_find?_eq_some hf) hkey]
      rfl

theorem child_ext (h : s.Linked) {f : Ino → Str → Option Ino}
    (hf : ∀ d : Dirent, d ∈ s.dirents ↔ f d.parent d.name = some d.child) : s.child = f := by
  funext a name
  apply Option.ext
  intro c
  exact (child_eq_some h).trans (hf ⟨a, name, c⟩)

/-! ## Where paths lead -/

theorem child_ne_root (h : s.Linked) {d : Dirent} (hd : d ∈ s.dirents) : d.child ≠ rootIno := by
  intro he
  have hone := h.once rootIno h.root
  have hpos := links_pos hd
  rw [he] at hpos
  rw [if_pos rfl] at hone
  omega

theorem leadsTo_iff_below (h : s.Linked) : LeadsTo s.child a b ↔ s.Below a b := by
  constructor
  · rintro ⟨p, hp⟩
    induction p generalizing a with
    | nil =>
      obtain rfl := Option.some.inj hp
      exact .refl
    | cons x xs ih =>
      rw [walk, Option.bind_eq_some_iff] at hp
      obtain ⟨m, hm, hp⟩ := hp
      exact .head ⟨_, (child_eq_some h).mp hm, rfl, rfl⟩ (ih hp)
  · intro hab
    induction hab with
    | refl => exact .refl
    | tail _ he ih =>
      obtain ⟨d, hd, rfl, rfl⟩ := he
      exact ih.tail ((child_eq_some h).mpr hd)

/-- Whatever a path leads to has a row. -/
theorem row_of_paths (h : s.Linked) {p : List Str} (hp : s.paths p = some a) :
    (s.row a).isSome = true := by
  have hb : s.Below rootIno a := (leadsTo_iff_below h).mp ⟨p, hp⟩
  rcases Relation.ReflTransGen.cases_tail hb with rfl | ⟨b, -, d, hd, rfl, rfl⟩
  · exact isSome_of_isDir h.root
  · exact h.child d hd

/-- No other path leads to a directory. -/
theorem paths_inj (h : s.Linked) {p q : List Str} (hdir : s.isDir a = true)
    (hp : s.paths p = some a) (hq : s.paths q = some a) : q = p := by
  have hroot : ∀ {r : List Str} {x : Str}, s.paths (r ++ [x]) ≠ some rootIno := by
    intro r x hr
    unfold paths at hr
    rw [walk_concat, Option.bind_eq_some_iff] at hr
    obtain ⟨n, -, hn⟩ := hr
    exact child_ne_root h ((child_eq_some h).mp hn) rfl
  induction p using List.reverseRecOn generalizing a q with
  | nil =>
    obtain rfl := Option.some.inj hp
    rcases List.eq_nil_or_concat' q with rfl | ⟨q, y, rfl⟩
    · rfl
    · exact absurd hq hroot
  | append_singleton p x ih =>
    rcases List.eq_nil_or_concat' q with rfl | ⟨q, y, rfl⟩
    · obtain rfl := Option.some.inj hq
      exact absurd hp hroot
    · unfold paths at hp hq
      rw [walk_concat, Option.bind_eq_some_iff] at hp hq
      obtain ⟨n, hn, hx⟩ := hp
      obtain ⟨m, hm, hy⟩ := hq
      have hd := (child_eq_some h).mp hx
      have he := eq_of_child h hd ((child_eq_some h).mp hy) rfl hdir
      obtain ⟨rfl, rfl, -⟩ := Dirent.mk.inj he
      rw [ih (h.parent _ hd) hn hm]

theorem oneWay_of_below (h : s.Linked) (hb : s.Below rootIno a) (hdir : s.isDir a = true) :
    ∃ p, OneWay s.child rootIno p a := by
  obtain ⟨p, hp⟩ := (leadsTo_iff_below h).mpr hb
  exact ⟨p, hp, fun q hq => paths_inj h hdir hp hq⟩

theorem paths_concat {p : List Str} (hp : s.paths p = some a) (name : Str) :
    s.paths (p ++ [name]) = s.child a name := by
  unfold paths at hp ⊢
  rw [walk_concat, hp, Option.bind_some]

/-- Below what has no entries there is nothing. -/
theorem paths_leaf {p : List Str} (hp : s.paths p = some a) (hleaf : ∀ e ∈ s.dirents, e.parent ≠ a)
    (q : List Str) : s.paths (p ++ q) = PathMap.leaf a q := by
  unfold paths at hp ⊢
  have hnone : ∀ x, s.child a x = none := fun x => child_eq_none.mpr fun d hd hk => hleaf d hd hk.1
  rw [walk_append, hp, Option.bind_some, walk_of_leaf hnone]

/-! ## One entry more or less -/

theorem child_addEntry (h : s.Linked) (h' : s'.Linked) {d : Dirent} (hfree : s.Free d.parent d.name)
    (hd : s'.dirents = s.dirents ++ [d]) :
    s'.child = setChild s.child d.parent d.name (some d.child) := by
  apply child_ext h'
  intro e
  rw [hd, List.mem_append, List.mem_singleton]
  by_cases hk : e.parent = d.parent ∧ e.name = d.name
  · rw [hk.1, hk.2, setChild_self]
    constructor
    · rintro (he | rfl)
      · exact absurd hk (hfree e he)
      · rfl
    · intro hc
      right
      cases e
      cases d
      obtain ⟨rfl, rfl⟩ := hk
      exact congrArg _ (Option.some.inj hc).symm
  · rw [setChild_ne hk, child_eq_some h]
    constructor
    · rintro (he | rfl)
      · exact he
      · exact absurd ⟨rfl, rfl⟩ hk
    · exact .inl

theorem child_dropEntry (h : s.Linked) (h' : s'.Linked) {parent : Ino} {name : Str}
    (hd : s'.dirents = s.others parent name) : s'.child = setChild s.child parent name none := by
  apply child_ext h'
  intro e
  rw [hd]
  unfold others
  rw [List.mem_filter, decide_eq_true_eq]
  by_cases hk : e.parent = parent ∧ e.name = name
  · rw [hk.1, hk.2, setChild_self]
    simp
  · rw [setChild_ne hk, child_eq_some h]
    simp [hk]

/-! ## The effect of an operation -/

section Effects

variable (h : s.Linked) (hr : s.Rooted)
include h

theorem effect_node {op : FsOp} {parent : Ino} {kind : Kind}
    (hop : op.makes = some (parent, name, kind)) (hfree : s.Free parent name)
    (hdir : s.isDir parent = true) (hb : s.Below rootIno parent) :
    FsOp.Effect s.paths op (s.addNode kind parent name).paths := by
  obtain ⟨p, hp⟩ := oneWay_of_below h hb hdir
  have hunborn : s.row s.nextIno = none := h.unborn _ le_rfl
  have hne : s.nextIno ≠ parent := by
    rintro rfl
    have hrow := isSome_of_isDir hdir
    rw [hunborn] at hrow
    cases hrow
  have hchild : (s.addNode kind parent name).child =
      setChild s.child parent name (some s.nextIno) :=
    child_addEntry (d := ⟨parent, name, s.nextIno⟩) h (h.addNode kind hfree hdir) hfree
      (adjustDir_dirents _ _ _)
  have hleaf : ∀ y, s.child s.nextIno y = none := by
    intro y
    refine child_eq_none.mpr fun d hd hk => ?_
    have hrow := isSome_of_isDir (h.parent d hd)
    rw [hk.1, hunborn] at hrow
    cases hrow
  have hgraft : (s.addNode kind parent name).paths =
      PathMap.graft s.paths (p ++ [name]) (.leaf s.nextIno) := by
    unfold paths
    rw [hchild, walk_leaf hp hne hleaf]
  rw [hgraft]
  refine .made hop hp.1 ((paths_concat hp.1 name).trans (child_eq_none.mpr hfree)) fun q hq => ?_
  have hrow := row_of_paths h hq
  rw [hunborn] at hrow
  cases hrow

include hr

theorem effect_link {ino parent : Ino} {kind : Kind} {n : Int} (hfree : s.Free parent name)
    (hrow : s.row ino = some (kind, n)) (hk : kind ≠ .dir) (hdir : s.isDir parent = true)
    (hb : s.Below rootIno parent) : FsOp.Effect s.paths (.link ino parent name)
      ((s.addEntry ⟨parent, name, ino⟩).adjust ino 1).paths := by
  obtain ⟨p, hp⟩ := oneWay_of_below h hb hdir
  have hchild : ((s.addEntry ⟨parent, name, ino⟩).adjust ino 1).child =
      setChild s.child parent name (some ino) :=
    child_addEntry (d := ⟨parent, name, ino⟩) h (h.addLink hfree hdir hrow hk) hfree rfl
  have hleaf : ∀ y, s.child ino y = none := by
    intro y
    refine child_eq_none.mpr fun d hd hkey => ?_
    exact ne_of_isDir hrow hk (h.parent d hd) hkey.1.symm
  have hgraft : ((s.addEntry ⟨parent, name, ino⟩).adjust ino 1).paths =
      PathMap.graft s.paths (p ++ [name]) (.leaf ino) := by
    unfold paths
    rw [hchild, walk_leaf hp (ne_of_isDir hrow hk hdir) hleaf]
  rw [hgraft]
  obtain ⟨d, hd, hd'⟩ := List.countP_pos_iff.mp (h.file ino kind n hrow hk).2
  have hq : s.Below rootIno ino := (hr d hd).tail ⟨d, hd, rfl, of_decide_eq_true hd'⟩
  obtain ⟨q, hq⟩ := (leadsTo_iff_below h).mpr hq
  exact .linked hp.1 ((paths_concat hp.1 name).trans (child_eq_none.mpr hfree)) hq

/-- An entry that nothing is below goes. -/
theorem paths_drop {d : Dirent} (hd : d ∈ s.dirents) (hleaf : ∀ e ∈ s.dirents, e.parent ≠ d.child)
    (h' : s'.Linked) (hd' : s'.dirents = s.others d.parent d.name) :
    ∃ p, s.paths p = some d.parent ∧ s.paths (p ++ [d.name]) = some d.child ∧
      (∀ q, s.paths (p ++ [d.name] ++ q) = PathMap.leaf d.child q) ∧
      s'.paths = s.paths.cut (p ++ [d.name]) := by
  obtain ⟨p, hp⟩ := oneWay_of_below h (hr d hd) (h.parent d hd)
  have hc : s.paths (p ++ [d.name]) = some d.child :=
    (paths_concat hp.1 d.name).trans ((child_eq_some h).mpr hd)
  refine ⟨p, hp.1, hc, paths_leaf hc hleaf, ?_⟩
  unfold paths
  rw [child_dropEntry h h' hd', walk_cut hp]

theorem effect_drop {op : FsOp} {d : Dirent} {kind : Kind} {n : Int}
    (hop : op.removes = some (d.parent, d.name)) (hd : d ∈ s.dirents)
    (hrow : s.row d.child = some (kind, n)) (hempty : kind = .dir → s.Empty d.child) :
    FsOp.Effect s.paths op (s.dropped d kind n).paths := by
  obtain ⟨p, hp, hc, hleaf, hcut⟩ := paths_drop h hr hd (leaf_of_empty h hrow hempty)
    (h.dropped hd hrow) (dropped_dirents d kind n)
  rw [hcut]
  exact .removed hop hp hc hleaf

omit hr in
/-- The place that is made free is a leaf or nothing. -/
theorem Cleared.leaf {np : Ino} {nname : Str} (hc : s.Cleared np nname s') {q rest : List Str}
    (hq : s.paths q = some np) (hrest : rest ≠ []) : s.paths (q ++ [nname] ++ rest) = none := by
  cases hc with
  | free hfree =>
    have hnone : s.paths (q ++ [nname]) = none := (paths_concat hq nname).trans (child_eq_none.mpr hfree)
    unfold paths at hnone ⊢
    rw [walk_append, hnone, Option.bind_none]
  | @replaced e kind n he hkey hrow hempty =>
    obtain ⟨rfl, rfl⟩ := hkey
    have hpath : s.paths (q ++ [e.name]) = some e.child :=
      (paths_concat hq e.name).trans ((child_eq_some h).mpr he)
    rw [paths_leaf hpath (leaf_of_empty h hrow hempty)]
    exact if_neg hrest

theorem effect_rename {d : Dirent} {np : Ino} {nname : Str} {kind : Kind} {n : Int} {s₁ : Namespace}
    (hd : d ∈ s.dirents) (hrow : s.row d.child = some (kind, n)) (h₁ : s.Cleared np nname s₁)
    (hdir : s.isDir np = true) (hb : s.Below rootIno np)
    (hout : s.isDir d.child = true → ¬ s.Below d.child np)
    (h' : ((s₁.moveEntry d.parent d.name np nname).moveDir kind d.parent np).Linked) :
    FsOp.Effect s.paths (.rename d.parent d.name np nname)
      ((s₁.moveEntry d.parent d.name np nname).moveDir kind d.parent np).paths := by
  rcases rename_cases h hd hrow h₁ with ⟨hmem, -⟩ | ⟨hkey, he⟩
  · have hne : ¬ (d.parent = np ∧ d.name = nname) := h₁.isFree d hmem
    obtain ⟨p, hp⟩ := oneWay_of_below h (hr d hd) (h.parent d hd)
    obtain ⟨q, hq⟩ := oneWay_of_below h hb hdir
    have hc := (child_eq_some h).mpr hd
    have hnot : ¬ LeadsTo s.child d.child np := by
      rw [leadsTo_iff_below h]
      intro hbelow
      by_cases hk : kind = .dir
      · apply hout _ hbelow
        rw [isDir_of_row hrow]
        exact decide_eq_true hk
      · exact ne_of_isDir hrow hk hdir (Below.of_file h hrow hk hbelow).symm
    have hchild : ((s₁.moveEntry d.parent d.name np nname).moveDir kind d.parent np).child =
        setChild (setChild s.child d.parent d.name none) np nname (some d.child) := by
      apply child_ext h'
      intro e
      rw [moveDir_dirents, (perm_moveEntry (h₁.linked h).keys hmem np nname).mem_iff, List.mem_cons]
      by_cases hnew : e.parent = np ∧ e.name = nname
      · rw [hnew.1, hnew.2, setChild_self]
        constructor
        · rintro (rfl | he)
          · rfl
          · exact absurd hnew (h₁.isFree e (List.mem_of_mem_filter he))
        · intro hc'
          left
          cases e
          obtain ⟨rfl, rfl⟩ := hnew
          exact congrArg _ (Option.some.inj hc').symm
      · rw [setChild_ne hnew]
        have hother : e ≠ ⟨np, nname, d.child⟩ := by
          rintro rfl
          exact hnew ⟨rfl, rfl⟩
        by_cases hold : e.parent = d.parent ∧ e.name = d.name
        · rw [hold.1, hold.2, setChild_self]
          simp [hother, others, hold]
        · rw [setChild_ne hold, child_eq_some h]
          unfold others
          rw [List.mem_filter, decide_eq_true_eq]
          constructor
          · intro he
            exact h₁.subset e (he.resolve_left hother).1
          · intro he
            exact .inr ⟨(h₁.mem_or he).resolve_right hnew, hold⟩
    have hmove : ((s₁.moveEntry d.parent d.name np nname).moveDir kind d.parent np).paths =
        PathMap.move s.paths (p ++ [d.name]) (q ++ [nname]) := by
      unfold paths
      rw [hchild, walk_move hp hc hq hnot]
    rw [hmove]
    refine .moved hp.1 hq.1 ((paths_concat hp.1 d.name).trans hc) ?_ fun rest => h₁.leaf h hq.1
    intro hpq
    obtain ⟨rfl, hx⟩ := List.append_inj' hpq rfl
    exact hne ⟨Option.some.inj (hp.1.symm.trans hq.1), (List.cons.inj hx).1⟩
  · obtain ⟨rfl, rfl⟩ := hkey
    rw [he] at h' ⊢
    cases h₁ with
    | free hfree => exact absurd ⟨rfl, rfl⟩ (hfree d hd)
    | @replaced e kind' n' hmem hkey hrow' hempty =>
      obtain rfl := eq_of_key h hd hmem hkey
      obtain ⟨p, hp, hc, hleaf, hcut⟩ := paths_drop h hr hd (leaf_of_empty h hrow' hempty) h'
        (dropped_dirents _ _ _)
      rw [hcut]
      exact .vanished hp hc hleaf

theorem Edit.effect {op : FsOp} (he : s.Edit op s') (hg : s.Guarded op) (h' : s'.Linked) :
    FsOp.Effect s.paths op s'.paths := by
  cases he with
  | node hop hfree =>
    have hp := parent_of_makes hop
    exact effect_node h hop hfree (hg.dirs _ hp) (hg.below _ hp)
  | link hfree hrow hk =>
    exact effect_link h hr hfree hrow hk (hg.dirs _ List.mem_cons_self) (hg.below _ List.mem_cons_self)
  | drop hop hd hrow hempty => exact effect_drop h hr hop hd hrow hempty
  | @rename d np nname _ _ _ hd hrow h₁ =>
    have hnp : np ∈ (FsOp.rename d.parent d.name np nname).parents :=
      List.mem_cons_of_mem _ List.mem_cons_self
    exact effect_rename h hr hd hrow h₁ (hg.dirs _ hnp) (hg.below _ hnp)
      (hg.outside _ _ _ _ rfl d hd rfl rfl) h'

end Effects

end Namespace

/-! ## `resolve` -/

namespace Meta

variable {Sha : Type} {m : Meta Sha}

theorem resolveFrom_none (m : Meta Sha) (parts : List Str) : m.resolveFrom none parts = none := by
  cases parts <;> rfl

theorem resolveFrom_eq (h : m.names.Linked) (i : Ino) (parts : List Str) :
    m.resolveFrom (m.getInode i) parts = (walk m.names.child i parts).bind m.getInode := by
  induction parts generalizing i with
  | nil => rfl
  | cons part parts ih =>
    have hdir : ∀ c, m.names.child i part = some c → ∃ n, m.getInode i = some n ∧ n.isDir = true := by
      intro c hc
      have hd := h.parent _ ((Namespace.child_eq_some h).mp hc)
      rw [FsOp.isDir_names] at hd
      cases hget : m.getInode i with
      | none =>
        rw [hget] at hd
        cases hd
      | some n =>
        rw [hget] at hd
        exact ⟨n, rfl, hd⟩
    have hlook : m.lookup i part = (m.names.child i part).bind m.getInode := by
      unfold lookup
      change _ = (m.child i part).bind m.getInode
      cases m.child i part <;> rfl
    rw [walk]
    cases hc : m.names.child i part with
    | none =>
      cases hget : m.getInode i with
      | none => rfl
      | some n =>
        obtain ⟨rfl, -⟩ := getInode_eq_some hget
        rw [resolveFrom, hlook, hc, Option.bind_none, resolveFrom_none, ite_self]
        rfl
    | some c =>
      obtain ⟨n, hget, hn⟩ := hdir c hc
      obtain ⟨rfl, -⟩ := getInode_eq_some hget
      rw [hget, resolveFrom, if_pos hn, hlook, hc, Option.bind_some, Option.bind_some]
      exact ih c

/-- `resolve` finds what the path leads to. -/
theorem resolve_id (h : m.names.Linked) (path : Str) :
    (m.resolve path).map (·.id) = m.names.paths (pathParts path) := by
  unfold resolve
  rw [resolveFrom_eq h]
  change ((m.names.paths (pathParts path)).bind m.getInode).map _ = _
  cases hp : m.names.paths (pathParts path) with
  | none => rfl
  | some i =>
    have hrow := Namespace.row_of_paths h hp
    rw [names_row_eq, Option.isSome_map] at hrow
    obtain ⟨row, hrow⟩ := Option.isSome_iff_exists.mp hrow
    rw [Option.bind_some, getInode_of_row hrow]
    rfl

end Meta

/-! ## Runs -/

namespace FsOp

/-- An operation that changes no path, or a `create` of a path that there is. -/
inductive Idle (t : PathMap Ino Str) : FsOp → Prop
  | found {parent : Ino} {name : Str} {mode flags uid gid : Nat} {p : List Str} (hp : t p = some parent)
      (hc : (t (p ++ [name])).isSome = true) : Idle t (.create parent name mode flags uid gid)
  | contents {op : FsOp} (hop : op.spelling = []) : Idle t op

/-- The paths along a run with these outcomes. -/
inductive Follows {ε α : Type} :
    PathMap Ino Str → List FsOp → List (Except ε α) → PathMap Ino Str → Prop
  | nil (t : PathMap Ino Str) : Follows t [] [] t
  | returned {t t' t'' : PathMap Ino Str} {op : FsOp} {ops : List FsOp} {a : α}
      {rs : List (Except ε α)} (h : Effect t op t' ∨ (Idle t op ∧ t' = t))
      (hrest : Follows t' ops rs t'') : Follows t (op :: ops) (.ok a :: rs) t''
  | raised {t t' t'' : PathMap Ino Str} {op : FsOp} {ops : List FsOp} {e : ε}
      {rs : List (Except ε α)} (h : Effect t op t' ∨ t' = t)
      (hrest : Follows t' ops rs t'') : Follows t (op :: ops) (.error e :: rs) t''

variable {Sha : Type} [DecidableEq Sha] [Sha256 Sha] {s : FsCore Sha} {cfg : WbConfig}
  {ts : Nat → Tick}

omit [DecidableEq Sha] [Sha256 Sha] in
theorem idle_of_stays {op : FsOp} (hl : s.names.Linked) (hop : Vfs s op) (h : s.names.Stays op) :
    Idle s.names.paths op := by
  cases op with
  | create parent name mode flags uid gid =>
    obtain ⟨hdir, hb⟩ := hop.dirs parent List.mem_cons_self
    obtain ⟨p, hp⟩ := Namespace.oneWay_of_below hl hb hdir
    refine .found hp.1 ?_
    rw [Namespace.paths_concat hp.1, Option.isSome_iff_ne_none]
    exact fun hnone => h (Namespace.child_eq_none.mp hnone)
  | _ => exact .contents h

/-- What one operation makes of the paths. -/
theorem perform_paths (hl : s.names.Linked) (hr : s.names.Rooted) {op : FsOp} (hop : Vfs s op)
    (n : Nat) :
    (Effect s.names.paths op (op.perform cfg ts n s).2.2.names.paths ∨
      (op.perform cfg ts n s).2.2.names.paths = s.names.paths) ∧
    ∀ a, (op.perform cfg ts n s).1 = .ok a →
      Effect s.names.paths op (op.perform cfg ts n s).2.2.names.paths ∨
        (Idle s.names.paths op ∧ (op.perform cfg ts n s).2.2.names.paths = s.names.paths) := by
  have hc : s.names.Change op (op.perform cfg ts n s).2.2.names := perform_change cfg hl op n
  have hg : s.names.Guarded op :=
    ⟨fun p hp => (hop.dirs p hp).1, fun p hp => (hop.dirs p hp).2, hop.outside⟩
  have hl' := hc.linked hl hg.dirs
  refine ⟨?_, fun a ha => ?_⟩
  · rcases hc.edit with he | he
    · exact .inr (congrArg Namespace.paths he)
    · exact .inl (he.effect hl hr hg hl')
  · rcases perform_did cfg hl op n a ha with he | ⟨hs, he⟩
    · exact .inl (he.effect hl hr hg hl')
    · exact .inr ⟨idle_of_stays hl hop hs, congrArg Namespace.paths he⟩

theorem runAll_follows {ops : List FsOp} {n : Nat}
    (h : s.names.Linked ∧ s.names.Rooted ∧ s.names.Spelt fun name => name ≠ [] ∧ Meta.slash ∉ name)
    (hops : Each cfg ts Vfs ops n s) : Follows s.names.paths ops (runAll cfg ts ops n s).1
      (runAll cfg ts ops n s).2.2.names.paths := by
  induction ops generalizing n s with
  | nil => exact .nil _
  | cons op ops ih =>
    obtain ⟨heffect, hdone⟩ := perform_paths h.1 h.2.1 hops.1 n
    have hrest := ih (perform_tree s op n h hops.1) hops.2
    unfold runAll
    dsimp only
    cases hout : (op.perform cfg ts n s).1 with
    | ok a => exact .returned (hdone a hout) hrest
    | error e => exact .raised heffect hrest

/-- From a new file system on, the paths that `resolve` knows are those that the operations made,
moved and took away. -/
theorem runAll_paths (cfg : WbConfig) (ts : Nat → Tick) (now : Time) (uid gid : Nat)
    (ops : List FsOp) (n : Nat) (hops : Each cfg ts Vfs ops n (FsCore.empty now uid gid : FsCore Sha)) :
    ∃ t : PathMap Ino Str,
      Follows (.leaf rootIno) ops (runAll cfg ts ops n (FsCore.empty now uid gid : FsCore Sha)).1 t ∧
      ∀ path, ((runAll cfg ts ops n (FsCore.empty now uid gid : FsCore Sha)).2.2.store.index.resolve
        path).map (·.id) = t (Meta.pathParts path) := by
  have hstart : (FsCore.empty now uid gid : FsCore Sha).names.paths = PathMap.leaf rootIno :=
    walk_of_leaf fun _ => rfl
  have hstart' : (FsCore.empty now uid gid : FsCore Sha).names.Linked ∧
      (FsCore.empty now uid gid : FsCore Sha).names.Rooted ∧
      (FsCore.empty now uid gid : FsCore Sha).names.Spelt fun name => name ≠ [] ∧ Meta.slash ∉ name := by
    refine ⟨empty_linked now uid gid, ?_, ?_⟩
    · intro d hd
      cases hd
    · intro d hd
      cases hd
  have hinv := runAll_keeps perform_tree hstart' hops
  refine ⟨_, ?_, fun path => Meta.resolve_id hinv.1 path⟩
  rw [← hstart]
  exact runAll_follows hstart' hops

/-- Two directories, and then the one is moved into the other. -/
theorem runAll_paths_move :
    ∃ t : PathMap Ino Str,
      Follows (.leaf rootIno) [.mkdir rootIno [97] 0o755 0 0, .mkdir rootIno [98] 0o755 0 0,
          .rename rootIno [97] 3 [99]]
        (runAll ⟨⟨2, 1, Nat.two_pos, Nat.one_pos⟩, 0⟩ (fun _ => {})
          [.mkdir rootIno [97] 0o755 0 0, .mkdir rootIno [98] 0o755 0 0, .rename rootIno [97] 3 [99]] 0
          (FsCore.empty 0 0 0 : FsCore Bytes)).1 t ∧
      ∀ path, ((runAll ⟨⟨2, 1, Nat.two_pos, Nat.one_pos⟩, 0⟩ (fun _ => {})
        [.mkdir rootIno [97] 0o755 0 0, .mkdir rootIno [98] 0o755 0 0, .rename rootIno [97] 3 [99]] 0
        (FsCore.empty 0 0 0 : FsCore Bytes)).2.2.store.index.resolve path).map (·.id) =
          t (Meta.pathParts path) := by
  apply runAll_paths
  refine ⟨⟨?_, by decide, by simp⟩, ⟨?_, by decide, by simp⟩, ⟨?_, by decide, ?_⟩, trivial⟩
  · intro p hp
    rw [List.mem_singleton.mp hp]
    exact ⟨by decide +kernel, .refl⟩
  · intro p hp
    rw [List.mem_singleton.mp hp]
    exact ⟨by decide +kernel, .refl⟩
  · intro p hp
    rcases List.mem_cons.mp hp with rfl | hp
    · exact ⟨by decide +kernel, .refl⟩
    · rw [List.mem_singleton.mp hp]
      exact ⟨by decide +kernel, .single ⟨⟨rootIno, [98], 3⟩, by decide +kernel, rfl, rfl⟩⟩
  · intro oldp oldname newp newname hop
    cases hop
    apply Namespace.not_below_of_empty
    decide +kernel

end FsOp

end Tgfs
