import Tgfs.MetaSteps

/-!
# What the operations on names leave alone

`create`, `link`, `unlink_dirent`, `rename` and `setattr` change neither chunks nor blobs, and
the size of no inode but the one they make or delete.
-/

namespace Tgfs

namespace Meta

variable {Sha : Type} {A : Ino → Prop} {m m' m'' : Meta Sha}

/-- The contents of the inodes outside `A` are the same. -/
structure SameContent (A : Ino → Prop) (m m' : Meta Sha) : Prop where
  chunks : m'.chunks = m.chunks
  blobs : m'.blobs = m.blobs
  size : ∀ B, ¬ A B → (m'.inodes B).map (·.size) = (m.inodes B).map (·.size)

theorem SameContent.refl (A : Ino → Prop) (m : Meta Sha) : SameContent A m m :=
  ⟨rfl, rfl, fun _ _ => rfl⟩

theorem SameContent.trans (h : SameContent A m m') (h' : SameContent A m' m'') :
    SameContent A m m'' :=
  ⟨h'.chunks.trans h.chunks, h'.blobs.trans h.blobs, fun B hB => (h'.size B hB).trans (h.size B hB)⟩

theorem SameContent.mono {A' : Ino → Prop} (h : SameContent A m m') (hA : ∀ B, A B → A' B) :
    SameContent A' m m' :=
  ⟨h.chunks, h.blobs, fun B hB => h.size B fun ha => hB (hA B ha)⟩

theorem sameContent_updateInode (m : Meta Sha) (ino : Ino) {f : Inode → Inode}
    (hf : ∀ n, (f n).size = n.size) : SameContent A m (m.updateInode ino f) := by
  refine ⟨rfl, rfl, fun B _ => ?_⟩
  by_cases hB : B = ino
  · subst hB
    rw [updateInode_self]
    cases m.inodes B with
    | none => rfl
    | some n => simp [hf]
  · rw [updateInode_ne m hB]

theorem sameContent_deleteInode (m : Meta Sha) (ino : Ino) :
    SameContent (· = ino) m (m.deleteInode ino) :=
  ⟨rfl, rfl, fun _ hB => congrArg _ (deleteInode_ne m hB)⟩

theorem sameContent_deleteDirent (m : Meta Sha) (parent : Ino) (name : Str) :
    SameContent A m (m.deleteDirent parent name) := ⟨rfl, rfl, fun _ _ => rfl⟩

theorem sameContent_insertDirent (m : Meta Sha) (parent : Ino) (name : Str) (c : Ino) :
    SameContent A m (m.insertDirent parent name c) := ⟨rfl, rfl, fun _ _ => rfl⟩

theorem sameContent_moveDirent (m : Meta Sha) (op : Ino) (oname : Str) (np : Ino) (nname : Str) :
    SameContent A m (m.moveDirent op oname np nname) := ⟨rfl, rfl, fun _ _ => rfl⟩

theorem sameContent_addDirLink (m : Meta Sha) (kind : Kind) (parent : Ino) (k : Int) :
    SameContent A m (m.addDirLink kind parent k) := by
  unfold addDirLink
  split
  · exact sameContent_updateInode m parent fun _ => rfl
  · exact .refl A m

theorem sameContent_addRow (m : Meta Sha) (row : Inode) :
    SameContent (· = m.nextIno) m (m.addRow row) :=
  ⟨rfl, rfl, fun _ hB => congrArg _ (Function.update_of_ne hB _ _)⟩

theorem sameContent_create (now : Time) (parent : Ino) (name : Str) (mode : Nat) (kind : Kind)
    (uid gid : Nat) (target : Option Str) (m : Meta Sha) :
    SameContent (· = m.nextIno) m (m.create now parent name mode kind uid gid target).2 := by
  have hrow := sameContent_addRow m (m.newRow now mode kind uid gid target)
  rcases m.create_cases now parent name mode kind uid gid target with ⟨-, h⟩ | ⟨-, n, -, h⟩
  · rw [h]
    exact hrow
  · rw [h]
    exact (hrow.trans (sameContent_insertDirent _ _ _ _)).trans (sameContent_addDirLink _ _ _ _)

theorem sameContent_link (now : Time) (parent : Ino) (name : Str) (ino : Ino) (m : Meta Sha) :
    SameContent A m (m.link now parent name ino).2 := by
  rcases m.link_cases now parent name ino with ⟨-, h⟩ | ⟨-, h⟩
  · rw [h]
    exact .refl A m
  · rw [h]
    exact (sameContent_insertDirent m parent name ino).trans
      (sameContent_updateInode _ ino fun _ => rfl)

/-- Taking an entry away touches the inode it names. -/
theorem sameContent_dropLink (m : Meta Sha) (parent : Ino) (name : Str) (c : Ino) (row : Inode)
    (f : Inode → Inode) (hf : ∀ n, (f n).size = n.size) (left : Int) :
    SameContent (fun B => some c = some B) m ((m.dropLink parent name c row f).reap c left) := by
  have hdrop : SameContent (fun B => some c = some B) m (m.dropLink parent name c row f) :=
    ((sameContent_deleteDirent m parent name).trans (sameContent_updateInode _ c hf)).trans
      (sameContent_addDirLink _ _ _ _)
  unfold reap
  split
  · exact hdrop.trans ((sameContent_deleteInode _ c).mono fun B hB => congrArg some hB.symm)
  · exact hdrop

theorem sameContent_unlinkDirent (now : Time) (parent : Ino) (name : Str) (m : Meta Sha) :
    SameContent (fun B => m.child parent name = some B) m (m.unlinkDirent now parent name).2 := by
  rcases m.unlinkDirent_cases now parent name with ⟨⟨e, -, h⟩, -⟩ | ⟨c, row, hc, -, h⟩
  · rw [h]
    exact .refl _ m
  · rw [h, hc]
    apply sameContent_dropLink
    intro n
    rfl

theorem sameContent_replaceDst (np : Ino) (nname : Str) (m : Meta Sha) :
    SameContent (fun B => m.child np nname = some B) m (m.replaceDst np nname).2 := by
  rcases m.replaceDst_cases np nname with ⟨-, h⟩ | ⟨c, -, -, h⟩ | ⟨c, row, hc, -, h⟩
  · rw [h]
    exact .refl _ m
  · rw [h]
    exact .refl _ m
  · rw [h, hc]
    apply sameContent_dropLink
    intro n
    rfl

theorem sameContent_moveDirLink (m : Meta Sha) (kind : Kind) (op np : Ino) :
    SameContent A m (m.moveDirLink kind op np) := by
  unfold moveDirLink
  split
  · exact (sameContent_updateInode m op (f := addNlink (-1)) fun _ => rfl).trans
      (sameContent_updateInode _ np (f := addNlink 1) fun _ => rfl)
  · exact .refl A m

theorem sameContent_rename (op : Ino) (oname : Str) (np : Ino) (nname : Str) (m : Meta Sha) :
    SameContent (fun B => m.child np nname = some B) m (m.rename op oname np nname).2 := by
  rcases m.rename_cases op oname np nname with ⟨e, -, h⟩ | ⟨src, row, r, m₁, -, -, hrep, h⟩
  · rw [h]
    exact .refl _ m
  · have hdst := sameContent_replaceDst np nname m
    rw [hrep] at hdst
    rw [h]
    exact (hdst.trans (sameContent_moveDirent m₁ op oname np nname)).trans
      (sameContent_moveDirLink _ _ _ _)

theorem sameContent_setattr (now : Time) (ino : Ino) {a : Attrs} (ha : a.size = none)
    (m : Meta Sha) : SameContent A m (m.setattr now ino a) := by
  unfold setattr
  split
  · exact .refl A m
  · exact sameContent_updateInode m ino fun n => by simp [ha]

/-! ## Outcomes -/

theorem create_expected {now : Time} {parent : Ino} {name : Str} {mode : Nat} {kind : Kind}
    {uid gid : Nat} {target : Option Str} {m : Meta Sha} {e : PyErr Sha}
    (he : (m.create now parent name mode kind uid gid target).1 = .error e) : e.Expected := by
  rcases m.create_cases now parent name mode kind uid gid target with ⟨-, h⟩ | ⟨-, n, -, h⟩
  · rw [h] at he
    cases he
    exact ⟨nofun, nofun⟩
  · rw [h] at he
    cases he

/-- `create` returns the row it has made. -/
theorem create_id {now : Time} {parent : Ino} {name : Str} {mode : Nat} {kind : Kind}
    {uid gid : Nat} {target : Option Str} {m : Meta Sha} {n : Inode}
    (he : (m.create now parent name mode kind uid gid target).1 = .ok n) : n.id = m.nextIno := by
  rcases m.create_cases now parent name mode kind uid gid target with ⟨-, h⟩ | ⟨-, n', hid, h⟩
  · rw [h] at he
    cases he
  · rw [h] at he
    cases he
    exact hid

theorem link_expected {now : Time} {parent : Ino} {name : Str} {ino : Ino} {m : Meta Sha}
    {e : PyErr Sha} (he : (m.link now parent name ino).1 = .error e) : e.Expected := by
  rcases m.link_cases now parent name ino with ⟨-, h⟩ | ⟨-, h⟩
  · rw [h] at he
    cases he
    exact ⟨nofun, nofun⟩
  · rw [h] at he
    cases he

theorem unlinkDirent_expected {now : Time} {parent : Ino} {name : Str} {m : Meta Sha}
    {e : PyErr Sha} (he : (m.unlinkDirent now parent name).1 = .error e) : e.Expected := by
  rcases m.unlinkDirent_cases now parent name with ⟨⟨e', hexp, h⟩, -⟩ | ⟨c, row, -, -, h⟩
  · rw [h] at he
    cases he
    exact hexp
  · rw [h] at he
    cases he

theorem rename_expected {op : Ino} {oname : Str} {np : Ino} {nname : Str} {m : Meta Sha}
    {e : PyErr Sha} (he : (m.rename op oname np nname).1 = .error e) : e.Expected := by
  rcases m.rename_cases op oname np nname with ⟨e', hexp, h⟩ | ⟨src, row, r, m₁, -, -, -, h⟩
  · rw [h] at he
    cases he
    exact hexp
  · rw [h] at he
    cases he

/-- `rename` hands out the inode that the destination named. -/
theorem rename_replaced {op : Ino} {oname : Str} {np : Ino} {nname : Str} {m : Meta Sha}
    {ino : Ino} (he : (m.rename op oname np nname).1 = .ok (some ino)) :
    m.child np nname = some ino := by
  rcases m.rename_cases op oname np nname with ⟨e, -, h⟩ | ⟨src, row, r, m₁, -, -, hrep, h⟩
  · rw [h] at he
    cases he
  · rw [h] at he
    cases he
    rcases m.replaceDst_cases np nname with ⟨-, h'⟩ | ⟨c, -, -, h'⟩ | ⟨c, r, hc, -, h'⟩
    · rw [h'] at hrep
      cases hrep
    · rw [h'] at hrep
      cases hrep
    · rw [h'] at hrep
      have := Except.ok.inj (congrArg Prod.fst hrep)
      split at this
      · cases this
      · cases this
        exact hc

end Meta

end Tgfs
