import Tgfs.Store.Proofs.Roundtrip

/-!
# The incremental `put_file` and the full one

`put_file` with a set of dirty indexes reuses stored rows where they match and reads the source
elsewhere. Where the rows it may reuse hold what the content holds there, it builds the rows
that it would build from the whole content.
-/

namespace Tgfs

namespace Store

variable {Sha : Type} [DecidableEq Sha]

/-! ## What belongs to other inodes -/

/-- The rows and the inode rows of all inodes but `ino`. -/
def others (ino : Ino) (s : Store Sha) : List (Ino × Chunk Sha) × (Ino → Option Inode) :=
  (s.index.chunks.filter fun r => r.1 ≠ ino, Function.update s.index.inodes ino none)

omit [DecidableEq Sha] in
theorem others_congr {s s' : Store Sha} (hc : s'.index.chunks = s.index.chunks)
    (hi : s'.index.inodes = s.index.inodes) (ino : Ino) : others ino s' = others ino s := by
  unfold others
  rw [hc, hi]

theorem plain_others {ino : Ino} {src : Src Sha} {t : Tick} {a : Act Sha} (ha : Plain a)
    (s : Store Sha) : others ino (exec src t a s).2 = others ino s :=
  others_congr (exec_plain ha).1 (exec_plain ha).2 ino

theorem exec_others {ino : Ino} {src : Src Sha} {t : Tick} {a : Act Sha} (ha : Only ino a)
    (s : Store Sha) : others ino (exec src t a s).2 = others ino s := by
  cases a with
  | setChunks j rows =>
    obtain rfl : j = ino := ha
    apply Prod.ext
    · simp [others, exec, Meta.setChunks, List.filter_append, List.filter_filter]
    · rfl
  | setSize j size =>
    obtain rfl : j = ino := ha
    apply Prod.ext
    · rfl
    · simp [others, exec, Meta.setSize, Meta.updateInode, Function.update_idem]
  | _ =>
    apply plain_others
    trivial

/-- A program that writes only the rows of `ino` leaves the others alone. -/
theorem seqRun_others {α : Type} {ino : Ino} {p : StoreProg Sha α} (hp : p.All (Only ino))
    (src : Src Sha) (ts : Nat → Tick) (n : Nat) (s : Store Sha) :
    others ino (machine.seqRun src ts p n s).2.2 = others ino s := by
  have henv : ∀ (e : FutId × PoolTick) (s' : Store Sha) (_ : Nat), True →
      others ino s' = others ino s → others ino (machine.env e s') = others ino s :=
    fun e s' _ _ h => (others_congr (poolStep_plain e s').1 (poolStep_plain e s').2 ino).trans h
  have hsafe : machine.Safe (fun s' (_ : Nat) => others ino s' = others ino s) (fun _ => True) src
      (fun _ g' => g' = 0) p 0 :=
    Machine.Safe.ofAll (fun a ha s' t _ h => (exec_others ha s').trans h) hp
  obtain ⟨_, -, h⟩ := Machine.Safe.seqRun (o := 0) henv hsafe (fun _ => trivial)
    (fun _ _ _ => trivial) (fun _ _ _ _ => trivial) rfl
  exact h

omit [DecidableEq Sha] in
theorem getChunks_of_others {s s' : Store Sha} {ino j : Ino} (h : others ino s' = others ino s)
    (hj : j ≠ ino) : s'.index.getChunks j = s.index.getChunks j := by
  have hfilter : ∀ m : Meta Sha, (m.chunks.filter fun r => r.1 = j) =
      (m.chunks.filter fun r => r.1 ≠ ino).filter fun r => r.1 = j := by
    intro m
    rw [List.filter_filter]
    apply List.filter_congr
    intro r _
    by_cases hr : r.1 = j <;> simp [hr, hj]
  have hc : (s'.index.chunks.filter fun r => r.1 ≠ ino) =
      s.index.chunks.filter fun r => r.1 ≠ ino := congrArg Prod.fst h
  unfold Meta.getChunks
  rw [hfilter, hfilter s.index, hc]

omit [DecidableEq Sha] in
theorem inodes_of_others {s s' : Store Sha} {ino j : Ino} (h : others ino s' = others ino s)
    (hj : j ≠ ino) : s'.index.inodes j = s.index.inodes j := by
  have := congrFun (congrArg Prod.snd h) j
  simpa [others, Function.update_of_ne hj] using this

/-- The count of rows depends on the rows of the inode and on those of the others. -/
theorem rowCount_of_others {s s' : Store Sha} {ino : Ino} (h : others ino s' = others ino s)
    (hrows : s'.index.getChunks ino = s.index.getChunks ino) (x : Sha) :
    s'.index.rowCount x = s.index.rowCount x := by
  have hc : (s'.index.chunks.filter fun r => r.1 ≠ ino) =
      s.index.chunks.filter fun r => r.1 ≠ ino := congrArg Prod.fst h
  rw [← Meta.liveRows_zero, ← Meta.liveRows_zero, Meta.liveRows_split _ _ ino,
    Meta.liveRows_split s.index _ ino, hrows, hc]

/-! ## Two runs from one state -/

variable [Sha256 Sha]

/-- A consistent store that counts exactly the rows it has. -/
structure Exact (s : Store Sha) : Prop extends Consistent s where
  refcount : ∀ h, s.index.refcount h = s.index.rowCount h
  counting : Counting s

/-- The same rows and sizes, the same refcounts and the same stored hashes. -/
structure SameBooks (s s' : Store Sha) : Prop where
  rows : ∀ j, s.index.getChunks j = s'.index.getChunks j
  size : ∀ j, (s.index.inodes j).map (·.size) = (s'.index.inodes j).map (·.size)
  refcount : ∀ h, s.index.refcount h = s'.index.refcount h
  hashes : ∀ h, (s.index.blobs h).isSome = (s'.index.blobs h).isSome

omit [DecidableEq Sha] [Sha256 Sha] in
theorem Counting.isSome_iff {s : Store Sha} (hc : Counting s) (h : Sha) :
    (s.index.blobs h).isSome = true ↔ 0 < s.index.refcount h := by
  cases hb : s.index.blobs h with
  | none => simp [Meta.refcount, hb]
  | some b => simpa [Meta.refcount_of_blob hb] using hc h b hb

/-- From exact books, when nothing fails, `put_file` of a whole content returns, and leaves exact
books and the rows of the grid. -/
structure PutWhole (cfg : StoreConfig) (ino : Ino) (dirty : Option (Finset Nat)) (content : Bytes)
    (s s' : Store Sha) : Prop where
  rows : s'.index.getChunks ino = (List.range (chunkCount cfg.chunkSize content.length)).map
    (gridRow cfg.chunkSize dirty (s.index.getChunks ino) content)
  size : (s'.index.inodes ino).map (·.size) = (s.index.inodes ino).map fun _ => content.length
  others : others ino s' = others ino s
  refcount : ∀ h, s'.index.refcount h = s'.index.rowCount h
  counting : Counting s'

theorem seqRun_putWhole (cfg : StoreConfig) (ino : Ino) (dirty : Option (Finset Nat))
    (content : Bytes) {s : Store Sha} {ts : Nat → Tick} (hs : Exact s)
    (hts : ∀ n, (ts n).Quiet False) (n : Nat) :
    (machine.seqRun (Src.whole content) ts (putFile cfg ino content.length dirty) n s).1 =
        .ok () ∧
      PutWhole cfg ino dirty content s
        (machine.seqRun (Src.whole content) ts (putFile cfg ino content.length dirty) n s).2.2 := by
  obtain ⟨hI, hpost⟩ := hs.seqRun_putFile (Src.whole content) cfg ino content.length dirty hts n
  have hothers := seqRun_others (only_putFile cfg ino content.length dirty) (Src.whole content)
    ts n s
  have hcount := seqRun_counting (Src.whole content) ts (putFile cfg ino content.length dirty) n
    hs.counting
  rcases hout : machine.seqRun (Src.whole content) ts (putFile cfg ino content.length dirty) n s
    with ⟨r, n', s'⟩
  rw [hout] at hI hpost hothers hcount
  cases r with
  | error e =>
    rcases hpost with ⟨⟨-, hf⟩ | ⟨pos, want, hread⟩, -⟩
    · exact hf.elim
    · cases hread
  | ok u =>
    obtain ⟨new, off, now, hscan, hend, how⟩ := hpost
    obtain ⟨rfl, rfl⟩ := scan_rows hscan hend
    refine ⟨rfl, congrArg Owned.rows how, ?_, hothers, fun h => ?_, hcount⟩
    · have hinode := congrArg Owned.inode how
      change s'.index.inodes ino = (s.index.inodes ino).map _ at hinode
      rw [hinode, Option.map_map]
      rfl
    · have hc := hI.counts h
      change s'.index.refcount h = s'.index.liveRows 0 h + hs.surplus.count h +
        futRefs s'.tasks (0 + 0) h at hc
      rw [Meta.liveRows_zero, hs.count_surplus, hs.refcount, Nat.sub_self] at hc
      simpa using hc

omit [DecidableEq Sha] in
/-- Where the reusable rows hold what the content holds there, reuse makes no difference. -/
theorem gridRow_of_clean {cs : Nat} {dirty : Finset Nat} {old : List (Chunk Sha)}
    {content : Bytes} {i : Nat} (hi : i * cs < content.length)
    (hclean : ∀ row, old[i]? = some row → i ∉ dirty → row.off + row.len ≤ content.length →
      row.sha = sha256 (pread content row.off row.len)) :
    gridRow cs (some dirty) old content i = gridRow cs none old content i := by
  have hsha : rowSha cs (some dirty) old content i = sha256 (chunkAt cs content i) := by
    unfold rowSha
    split
    case h_2 => rfl
    case h_1 row hrow =>
      obtain ⟨hget, hoff, hlen, d, hd, hmem⟩ := cleanRow_eq_some hrow
      obtain rfl : dirty = d := Option.some.inj hd
      rw [hclean row hget hmem (by omega), hoff, hlen, pread_chunk]
  rw [gridRow, hsha]
  rfl

/-- The incremental call, from a source that is right where it is read, and the full one. -/
theorem putFile_incremental (cfg : StoreConfig) (ino : Ino) (content : Bytes) (dirty : Finset Nat)
    {src : Src Sha} {ts ts' : Nat → Tick} {s : Store Sha} (hs : Exact s)
    (hts : ∀ n, (ts n).Quiet False) (hts' : ∀ n, (ts' n).Quiet False) (n n' : Nat)
    (hsrc : ∀ pos want, .read pos want ∈ machine.acts src ts
      (putFile cfg ino content.length (some dirty)) n s →
        src pos want = .ok (pread content pos want))
    (hclean : ∀ i row, (s.index.getChunks ino)[i]? = some row → i ∉ dirty →
      row.off + row.len ≤ content.length →
        s.blobData row.sha = some (pread content row.off row.len)) :
    (machine.seqRun src ts (putFile cfg ino content.length (some dirty)) n s).1 = .ok () ∧
    (machine.seqRun (Src.whole content) ts' (putFile cfg ino content.length none) n' s).1 =
      .ok () ∧
    SameBooks (machine.seqRun src ts (putFile cfg ino content.length (some dirty)) n s).2.2
      (machine.seqRun (Src.whole content) ts' (putFile cfg ino content.length none) n' s).2.2 := by
  have hwhole : machine.seqRun src ts (putFile cfg ino content.length (some dirty)) n s =
      machine.seqRun (Src.whole content) ts (putFile cfg ino content.length (some dirty)) n s := by
    apply Machine.seqRun_congr
    intro a ha t s'
    cases a with
    | read pos want => exact congrArg (·, s') (hsrc pos want ha)
    | _ => rfl
  rw [hwhole]
  obtain ⟨hok, h⟩ := seqRun_putWhole cfg ino (some dirty) content hs hts n
  obtain ⟨hok', h'⟩ := seqRun_putWhole cfg ino none content hs hts' n'
  refine ⟨hok, hok', ?_⟩
  have hothers := h.others.trans h'.others.symm
  have hrows := h.rows.trans (Eq.trans (List.map_congr_left fun i hi => ?_) h'.rows.symm)
  · have hcount : ∀ x, _ = _ := rowCount_of_others hothers hrows
    have hrefs : ∀ x, _ = _ := fun x =>
      (h.refcount x).trans ((hcount x).trans (h'.refcount x).symm)
    refine ⟨fun j => ?_, fun j => ?_, hrefs, fun x => ?_⟩
    · by_cases hj : j = ino
      · rw [hj, hrows]
      · exact getChunks_of_others hothers hj
    · by_cases hj : j = ino
      · rw [hj, h.size, h'.size]
      · rw [inodes_of_others hothers hj]
    · rw [Bool.eq_iff_iff, h.counting.isSome_iff, h'.counting.isSome_iff, hrefs]
  · have hlt := (lt_chunkCount cfg.chunkSize_pos).mp (List.mem_range.mp hi)
    apply gridRow_of_clean hlt
    intro row hrow hd hle
    exact (hs.sha_blobData (hclean i row hrow hd hle)).symm

theorem Accounted.exact {s : Store Sha} (hs : Accounted s) : Exact s :=
  ⟨hs.consistent, hs.refcount, hs.counting⟩

/-- Three bytes in two chunks. -/
def twoChunks : Store Bytes :=
  (machine.seqRun (Src.whole [1, 2, 3]) (fun _ => {})
    (putFile ⟨2, 1, Nat.two_pos, Nat.one_pos⟩ 2 3 none) 0 newFile).2.2

theorem twoChunks_accounted : Accounted twoChunks :=
  (seqRun_putFile (Src.whole [1, 2, 3]) _ 2 3 none newFile_accounted
    (fun _ => (Tick.quiet_default : Tick.Quiet False _)) 0).1

/-- Where an action reads the source. -/
def readAt : Act Bytes → Option Nat
  | .read pos _ => some pos
  | _ => none

/-- A new last byte, from a source that has nothing to say about the first chunk. -/
theorem putFile_incremental_tail :
    (machine.seqRun (fun pos want => if pos = 0 then .ok [] else .ok (pread [1, 2, 9] pos want))
      (fun _ => {}) (putFile ⟨2, 1, by decide, by decide⟩ 2 3 (some {1})) 0 twoChunks).1 = .ok () ∧
    (machine.seqRun (Src.whole [1, 2, 9]) (fun _ => {})
      (putFile ⟨2, 1, by decide, by decide⟩ 2 3 none) 0 twoChunks).1 = .ok () ∧
    SameBooks
      (machine.seqRun (fun pos want => if pos = 0 then .ok [] else .ok (pread [1, 2, 9] pos want))
        (fun _ => {}) (putFile ⟨2, 1, by decide, by decide⟩ 2 3 (some {1})) 0 twoChunks).2.2
      (machine.seqRun (Src.whole [1, 2, 9]) (fun _ => {})
        (putFile ⟨2, 1, by decide, by decide⟩ 2 3 none) 0 twoChunks).2.2 := by
  have hquiet : ∀ _ : Nat, ({} : Tick).Quiet False := fun _ => Tick.quiet_default
  have hrows : twoChunks.index.getChunks 2 = [⟨0, 0, 2, [1, 2]⟩, ⟨1, 2, 1, [3]⟩] := by
    decide +kernel
  refine putFile_incremental _ 2 [1, 2, 9] {1} twoChunks_accounted.exact hquiet hquiet 0 0 ?_ ?_
  · intro pos want hmem
    have hreads : ((machine.acts
        (fun pos want => if pos = 0 then .ok [] else .ok (pread [1, 2, 9] pos want)) (fun _ => {})
        (putFile ⟨2, 1, by decide, by decide⟩ 2 3 (some {1})) 0 twoChunks).filterMap readAt) =
          [2] := by
      decide +kernel
    have hpos : pos ∈ [2] := hreads ▸ List.mem_filterMap.mpr ⟨_, hmem, rfl⟩
    rw [List.mem_singleton.mp hpos]
    rfl
  · rw [hrows]
    intro i row hrow hi hle
    rcases i with _ | _ | i
    · cases hrow
      decide +kernel
    · exact absurd (Finset.mem_singleton_self 1) hi
    · cases hrow

end Store

end Tgfs
