import Tgfs.Store.Proofs.PoolSteps

/-!
# Replacing and freeing the rows of an inode

The owner of an inode swaps its rows for references it holds, and back. `free_file` first
takes over the references of all rows (`startFree`), which from then on do not count as rows,
and clears the rows last (`endFree`).
-/

namespace Tgfs

namespace Store.Inv

open Meta (shas)

variable {Sha : Type} [DecidableEq Sha] [Sha256 Sha] {mayFail : Prop} {canFree : Ino → Prop}
  {s : Store Sha} {g o : Res Sha}

theorem owned_rows (hi : Inv mayFail canFree s (g + o)) {ow : Owned Sha} (hg : g.owns = {ow}) :
    s.index.getChunks ow.ino = ow.rows :=
  (hi.owns.seen ow (by simp [hg])).1

theorem owned_inode (hi : Inv mayFail canFree s (g + o)) {ow : Owned Sha} (hg : g.owns = {ow}) :
    s.index.inodes ow.ino = ow.inode :=
  (hi.owns.seen ow (by simp [hg])).2

theorem freeing_owned (hi : Inv mayFail canFree s (g + o)) {ow : Owned Sha} (hg : g.owns = {ow}) :
    freeing (g + o).owns = (if ow.freeing = true then {ow.ino} else 0) + freeing o.owns ∧
      ow.ino ∉ freeing o.owns := by
  have hown : OwnsOk canFree s.index ({ow} + o.owns) := hg ▸ hi.owns
  refine ⟨?_, hown.not_mem_freeing⟩
  rw [Res.add_owns, hg, freeing_add, freeing_singleton]

/-- `set_chunks` turns references into rows and the old rows into references. -/
theorem setChunks (hi : Inv mayFail canFree s (g + o)) {ow : Owned Sha} (hg : g.owns = {ow})
    (hf : ow.freeing = false) {rows : List (Chunk Sha)} {refs : Multiset Sha}
    (hr : g.refs = shas rows + refs) (hs : IdxSorted rows) :
    Inv mayFail canFree { s with index := s.index.setChunks ow.ino rows }
      ({ g with refs := shas ow.rows + refs, owns := {{ ow with rows := rows }} } + o) where
  counts h := by
    obtain ⟨hfr, hno⟩ := hi.freeing_owned hg
    simp only [hf, Bool.false_eq_true, if_false, zero_add] at hfr
    have hfr' : freeing ({{ ow with rows := rows }} + o.owns) = freeing o.owns := by
      rw [freeing_add, freeing_singleton]
      simp [hf]
    have hc := hi.counts h
    have hl := s.index.liveRows_setChunks (freeing o.owns) ow.ino rows h
    rw [if_neg hno, if_neg hno, hi.owned_rows hg] at hl
    rw [hfr] at hc
    have hrc : (s.index.setChunks ow.ino rows).refcount h = s.index.refcount h := rfl
    simp only [Res.add_refs, Res.add_futs, Res.add_doomed, Res.add_owns, hfr', hr, hrc,
      Multiset.count_add, Multiset.coe_count] at hc ⊢
    omega
  tasks := hi.tasks
  blobs := hi.blobs
  owns := by
    refine (show OwnsOk canFree s.index ({ow} + o.owns) from hg ▸ hi.owns).change rfl
      (hi.owns.canFree ow (by simp [hg])) ?_ ?_
    · exact ⟨Meta.getChunks_setChunks_self hs, hi.owned_inode hg⟩
    · exact fun i hne => ⟨Meta.getChunks_setChunks_ne hne, rfl⟩

theorem setSize (hi : Inv mayFail canFree s (g + o)) {ow : Owned Sha} (hg : g.owns = {ow})
    (now : Time) (size : Nat) :
    Inv mayFail canFree { s with index := s.index.setSize now ow.ino size }
      ({ g with owns := {{ ow with inode := ow.inode.map fun n =>
                           { n with size := size, mtime := now, ctime := now } }} } + o) where
  counts h := by
    have hc := hi.counts h
    have hfr : freeing ({{ ow with inode := ow.inode.map fun n =>
        { n with size := size, mtime := now, ctime := now } }} + o.owns) =
        freeing (g + o).owns := by
      rw [freeing_add, freeing_singleton, (hi.freeing_owned hg).1]
    rw [Res.add_owns, hfr]
    exact hc
  tasks := hi.tasks
  blobs := hi.blobs
  owns := by
    refine (show OwnsOk canFree s.index ({ow} + o.owns) from hg ▸ hi.owns).change rfl
      (hi.owns.canFree ow (by simp [hg])) ?_ ?_
    · refine ⟨(Meta.getChunks_congr (Meta.setSize_chunks _ _ _ _) _).trans (hi.owned_rows hg), ?_⟩
      rw [Meta.setSize_inodes_self, hi.owned_inode hg]
    · exact fun i hne => ⟨Meta.getChunks_congr (Meta.setSize_chunks _ _ _ _) _,
        Meta.setSize_inodes_ne hne⟩

/-- `free_file` takes over the references of the rows. -/
theorem startFree (hi : Inv mayFail canFree s (g + o)) {ow : Owned Sha} (hg : g.owns = {ow})
    (hf : ow.freeing = false) (hcan : canFree ow.ino) :
    Inv mayFail canFree s
      ({ g with refs := shas ow.rows + g.refs, owns := {{ ow with freeing := true }} } + o) where
  counts h := by
    obtain ⟨hfr, hno⟩ := hi.freeing_owned hg
    simp only [hf, Bool.false_eq_true, if_false, zero_add] at hfr
    have hfr' : freeing ({{ ow with freeing := true }} + o.owns) =
        ow.ino ::ₘ freeing o.owns := by
      rw [freeing_add, freeing_singleton]
      simp
    have hc := hi.counts h
    have hl := s.index.liveRows_cons hno h
    rw [hi.owned_rows hg] at hl
    rw [hfr] at hc
    simp only [Res.add_refs, Res.add_futs, Res.add_doomed, Res.add_owns, hfr',
      Multiset.count_add, Multiset.coe_count] at hc ⊢
    omega
  tasks := hi.tasks
  blobs := hi.blobs
  owns := by
    refine (show OwnsOk canFree s.index ({ow} + o.owns) from hg ▸ hi.owns).change rfl
      (fun _ => hcan) ?_ ?_
    · exact ⟨hi.owned_rows hg, hi.owned_inode hg⟩
    · exact fun i _ => ⟨rfl, rfl⟩

/-- Its last step clears rows that nobody counts any more. -/
theorem endFree (hi : Inv mayFail canFree s (g + o)) {ow : Owned Sha} (hg : g.owns = {ow})
    (hf : ow.freeing = true) :
    Inv mayFail canFree { s with index := s.index.setChunks ow.ino [] }
      ({ g with owns := {{ ow with rows := [], freeing := false }} } + o) where
  counts h := by
    obtain ⟨hfr, hno⟩ := hi.freeing_owned hg
    have hfr' : freeing ({{ ow with rows := [], freeing := false }} + o.owns) =
        freeing o.owns := by
      rw [freeing_add, freeing_singleton]
      simp
    have hc := hi.counts h
    have h₁ := s.index.liveRows_setChunks (ow.ino ::ₘ freeing o.owns) ow.ino [] h
    have h₂ := (s.index.setChunks ow.ino []).liveRows_cons hno h
    have hself : (s.index.setChunks ow.ino []).getChunks ow.ino = [] :=
      Meta.getChunks_setChunks_self List.Pairwise.nil
    have hrc : (s.index.setChunks ow.ino []).refcount h = s.index.refcount h := rfl
    simp only [Multiset.mem_cons_self, if_true, Nat.add_zero] at h₁
    rw [hself] at h₂
    simp only [hf, if_true, Multiset.singleton_add] at hfr
    rw [hfr] at hc
    simp only [Res.add_refs, Res.add_futs, Res.add_doomed, Res.add_owns, hfr', hrc,
      Multiset.count_add, Meta.shas, List.map_nil, List.count_nil] at hc h₂ ⊢
    omega
  tasks := hi.tasks
  blobs := hi.blobs
  owns := by
    refine (show OwnsOk canFree s.index ({ow} + o.owns) from hg ▸ hi.owns).change rfl
      (by simp) ?_ ?_
    · exact ⟨Meta.getChunks_setChunks_self List.Pairwise.nil, hi.owned_inode hg⟩
    · exact fun i hne => ⟨Meta.getChunks_setChunks_ne hne, rfl⟩

/-! ## Taking and leaving an inode -/

/-- The inode as it is, with its references in its rows. -/
def own (s : Store Sha) (ino : Ino) : Owned Sha :=
  ⟨ino, s.index.getChunks ino, s.index.inodes ino, false⟩

theorem take (hi : Inv mayFail canFree s g) {ino : Ino} (hno : ino ∉ g.owns.map (·.ino)) :
    Inv mayFail canFree s ({ owns := {own s ino} } + g) where
  counts h := by
    have hc := hi.counts h
    have hfr : freeing ({own s ino} + g.owns) = freeing g.owns := by
      rw [freeing_add, freeing_singleton]
      simp [own]
    rw [Res.add_owns, hfr]
    simpa using hc
  tasks := by simpa using hi.tasks
  blobs := by simpa using hi.blobs
  owns := by
    refine ⟨?_, fun ow ho hf => ?_, fun ow ho => ?_⟩
    · rw [Res.add_owns, Multiset.map_add, Multiset.map_singleton, Multiset.singleton_add,
        Multiset.nodup_cons]
      exact ⟨hno, hi.owns.nodup⟩
    · obtain ho | ho := Multiset.mem_add.mp ho
      · obtain rfl := Multiset.mem_singleton.mp ho
        cases hf
      · exact hi.owns.canFree ow ho hf
    · obtain ho | ho := Multiset.mem_add.mp ho
      · obtain rfl := Multiset.mem_singleton.mp ho
        exact ⟨rfl, rfl⟩
      · exact hi.owns.seen ow ho

/-- A call that holds nothing but inodes can go. -/
theorem leave (hi : Inv mayFail canFree s (g + o)) (hrefs : g.refs = 0) (hfuts : g.futs = 0)
    (hdoomed : g.doomed = 0) (htrash : g.trash = 0) (hfree : ∀ ow ∈ g.owns, ow.freeing = false) :
    Inv mayFail canFree s o where
  counts h := by
    have hc := hi.counts h
    have hfr : freeing (g + o).owns = freeing o.owns := by
      rw [Res.add_owns, freeing_add]
      have : freeing g.owns = 0 := by
        unfold freeing
        rw [Multiset.filter_eq_nil.mpr (fun ow ho => by simp [hfree ow ho]), Multiset.map_zero]
      rw [this, zero_add]
    rw [hfr] at hc
    simpa [hrefs, hfuts, hdoomed] using hc
  tasks := by
    have hok := hi.tasks
    simp only [Res.add_futs, Res.add_doomed, Res.add_dones, hfuts, hdoomed, zero_add] at hok
    exact { hok with finished := fun p hp => hok.finished p (Multiset.mem_add.mpr (.inr hp)) }
  blobs := by
    have hok := hi.blobs
    rwa [Res.add_trash, htrash, zero_add] at hok
  owns := by
    refine ⟨?_, fun ow ho => hi.owns.canFree ow (Multiset.mem_add.mpr (.inr ho)),
      fun ow ho => hi.owns.seen ow (Multiset.mem_add.mpr (.inr ho))⟩
    have := hi.owns.nodup
    rw [Res.add_owns, Multiset.map_add] at this
    exact (Multiset.nodup_add.mp this).2.1

end Store.Inv

end Tgfs
