import Mathlib.Algebra.BigOperators.Group.Finset.Piecewise
import Mathlib.Data.Set.Finite.Basic
import Tgfs.Store.Proofs.Calm
import Tgfs.Store.Proofs.Sequential

/-!
# What was put is what is read

`put_file` from a store whose books may count too much: a refcount may exceed the rows that
name its hash, and the backend may hold messages nobody knows. Both belong to a frame that the
call never touches. The rows it leaves are read back piece by piece.
-/

namespace Tgfs

namespace Store

variable {Sha : Type} [DecidableEq Sha] [Sha256 Sha]

/-! ## Consistent stores -/

/-- Nothing is running, no blobs row dangles, and every refcount is at least the number of rows
that name the hash. -/
structure Consistent (s : Store Sha) : Prop extends Readable s where
  rowCount_le : ∀ h, s.index.rowCount h ≤ s.index.refcount h
  finite : {h | s.index.blobs h ≠ none}.Finite
  fresh : ∀ hd, s.backend.next ≤ hd → s.backend.blobs hd = none
  data_sha : ∀ t ∈ s.tasks, sha256 t.data = t.sha

theorem Accounted.consistent {s : Store Sha} (hs : Accounted s) : Consistent s where
  toReadable := hs.readable
  rowCount_le h := (hs.refcount h).ge
  finite := by
    apply Set.Finite.subset (s.index.chunks.map fun r => r.2.sha).toFinset.finite_toSet
    intro h hb
    obtain ⟨b, hb⟩ := Option.ne_none_iff_exists'.mp hb
    have hpos : 0 < s.index.rowCount h := by
      rw [← hs.refcount, Meta.refcount_of_blob hb]
      exact hs.counting h b hb
    obtain ⟨r, hr, hsha⟩ := List.countP_pos_iff.mp hpos
    simp only [decide_eq_true_eq] at hsha
    simp only [List.coe_toFinset, List.mem_map, Set.mem_ofPred_eq]
    exact ⟨r, hr, hsha⟩
  fresh := hs.fresh
  data_sha t ht := (hs.tasks t ht).2

namespace Consistent

variable {s : Store Sha}

/-- The references that no row accounts for. -/
noncomputable def surplus (hs : Consistent s) : Multiset Sha :=
  ∑ h ∈ hs.finite.toFinset, Multiset.replicate (s.index.refcount h - s.index.rowCount h) h

open Classical in
/-- The messages that no blobs row names. -/
noncomputable def strays (s : Store Sha) : Multiset Handle :=
  ((Finset.range s.backend.next).filter fun hd => ∀ h b, s.index.blobs h = some b → b.handle ≠ hd).val

theorem count_surplus (hs : Consistent s) (h : Sha) :
    hs.surplus.count h = s.index.refcount h - s.index.rowCount h := by
  unfold surplus
  rw [Multiset.count_sum']
  simp only [Multiset.count_replicate, Finset.sum_ite_eq']
  split
  · rfl
  · rename_i hb
    have : s.index.blobs h = none := by simpa using hb
    rw [Meta.refcount, this]
    exact (Nat.zero_sub _).symm

omit [DecidableEq Sha] [Sha256 Sha] in
theorem mem_strays {hd : Handle} : hd ∈ strays s ↔
    hd < s.backend.next ∧ ∀ h b, s.index.blobs h = some b → b.handle ≠ hd := by
  simp [strays]

/-- What nobody will touch while a call runs. -/
noncomputable def frame (hs : Consistent s) : Res Sha := { refs := hs.surplus, trash := strays s }

theorem inv (hs : Consistent s) {mayFail : Prop} {canFree : Ino → Prop} :
    Inv mayFail canFree s hs.frame where
  counts h := by
    change _ = s.index.liveRows 0 h + hs.surplus.count h + futRefs s.tasks (0 + 0) h
    rw [Meta.liveRows_zero, hs.count_surplus, add_zero, futRefs_zero]
    have := hs.rowCount_le h
    omega
  tasks := by
    refine ⟨fun f t ht => hs.data_sha t (List.mem_of_getElem? ht), by simp [frame], ?_,
      by simp [frame], by simp [frame], by simp [frame], by simp [frame]⟩
    intro f t ht hset
    rw [hs.settled t (List.mem_of_getElem? ht)] at hset
    cases hset
  blobs := by
    have hup : ∀ hd f data, ¬ UploadedBy s.tasks hd f data := by
      rintro hd f data ⟨t, ht, hp, -⟩
      exact (Phase.settled_not (hs.settled t (List.mem_of_getElem? ht)) hd).1 hp
    have hdrop : ∀ hd, ¬ Dropping s.tasks hd := by
      rintro hd ⟨f, t, ht, hp⟩
      exact (Phase.settled_not (hs.settled t (List.mem_of_getElem? ht)) hd).2 hp
    refine ⟨hs.held, fun hd f data hu => absurd hu (hup hd f data), ?_, hs.fresh, ?_⟩
    · intro hd hw
      rcases hw with hw | hw
      · exact ⟨(mem_strays.mp hw).1, (mem_strays.mp hw).2, hup hd⟩
      · exact absurd hw (hdrop hd)
    · intro hd data hdata
      by_cases hb : ∃ h b, s.index.blobs h = some b ∧ b.handle = hd
      · exact .inl hb
      · refine .inr (.inr (.inr (mem_strays.mpr ⟨?_, fun h b hhb he => hb ⟨h, b, hhb, he⟩⟩)))
        by_contra hlt
        rw [hs.fresh hd (Nat.le_of_not_lt hlt)] at hdata
        cases hdata
  owns := ⟨by simp [frame], by simp [frame], by simp [frame]⟩

end Consistent

/-! ## Reading pieces -/

variable {src : Src Sha} {ts : Nat → Tick} {s : Store Sha}

/-- The bytes from `lo` up to `hi`. -/
def slice (content : Bytes) (lo hi : Nat) : Bytes := pread content lo (hi - lo)

theorem slice_nil {content : Bytes} {lo hi : Nat} (h : hi ≤ lo) : slice content lo hi = [] := by
  rw [slice, Nat.sub_eq_zero_of_le h]
  rfl

theorem slice_append {content : Bytes} {lo mid hi : Nat} (h : lo ≤ mid) (h' : mid ≤ hi) :
    slice content lo mid ++ slice content mid hi = slice content lo hi := by
  have hmid : mid = lo + (mid - lo) := by omega
  have hhi : hi - lo = mid - lo + (hi - mid) := by omega
  rw [slice, slice, slice, hhi, ← pread_append, ← hmid]

/-- A range across the border `mid` of two pieces. -/
theorem slice_border {content : Bytes} {a mid e lo hi : Nat} (ha : a ≤ mid) (he : mid ≤ e) :
    slice content (max lo a) (min hi mid) ++ slice content (max lo mid) (min hi e) =
      slice content (max lo a) (min hi e) := by
  rcases Nat.le_total mid lo with hlo | hlo
  · rw [slice_nil (by omega), List.nil_append, Nat.max_eq_left hlo,
      Nat.max_eq_left (Nat.le_trans ha hlo)]
  · rcases Nat.le_total hi mid with hhi | hhi
    · rw [slice_nil (by omega : min hi e ≤ max lo mid), List.append_nil, Nat.min_eq_left hhi,
        Nat.min_eq_left (Nat.le_trans hhi he)]
    · rw [Nat.max_eq_right hlo, Nat.min_eq_right hhi, slice_append (by omega) (by omega)]

/-- A part of a piece is a slice of the content. -/
theorem pread_piece {content : Bytes} {off len lo hi : Nat} (hlo : off ≤ lo) (hhi : hi ≤ off + len) :
    pread (pread content off len) (lo - off) (hi - off - (lo - off)) = slice content lo hi := by
  apply List.ext_getElem?
  intro i
  rw [slice, getElem?_pread, getElem?_pread, getElem?_pread]
  split
  · rw [if_pos (by omega), if_pos (by omega)]
    congr 1
    omega
  · rw [if_neg (by omega)]

/-- A range is cut at the end of the content. -/
theorem slice_clamp (content : Bytes) (off n : Nat) :
    slice content off (min (off + n) content.length) = pread content off n := by
  apply List.ext_getElem?
  intro i
  rw [slice, getElem?_pread, getElem?_pread]
  split
  · rw [if_pos (by omega)]
  · split
    · exact (List.getElem?_eq_none (by omega)).symm
    · rfl

/-- Reading contiguous rows that hold pieces of the content gives the range asked for. -/
theorem seqRun_readParts_slice {content : Bytes} (hs : Readable s)
    (hdown : ∀ n, (ts n).downloadFails = false) {lo hi a : Nat} {rows : List (Chunk Sha)}
    (hc : Contiguous a rows)
    (hdata : ∀ c ∈ rows, s.blobData c.sha = some (pread content c.off c.len)) (n : Nat) :
    ∃ n', machine.seqRun src ts (readParts lo hi (rows.filter fun c =>
      c.off + c.len > lo ∧ c.off < hi)) n s =
        (.ok (slice content (max lo a) (min hi (a + (rows.map (·.len)).sum))), n', s) := by
  induction rows generalizing a n with
  | nil =>
    refine ⟨n, ?_⟩
    rw [slice_nil (by simp only [List.map_nil, List.sum_nil]; omega)]
    rfl
  | cons c rows ih =>
    obtain ⟨rfl, hrest⟩ := hc
    have hih := ih hrest (fun x hx => hdata x (List.mem_cons_of_mem _ hx))
    rw [List.map_cons, List.sum_cons, ← Nat.add_assoc,
      ← slice_border (Nat.le_add_right _ c.len) (Nat.le_add_right (c.off + c.len) _)]
    by_cases hhit : c.off + c.len > lo ∧ c.off < hi
    · rw [List.filter_cons_of_pos (by simpa using hhit)]
      obtain ⟨n', hn'⟩ := hih (n + 2)
      refine ⟨n', ?_⟩
      unfold readParts
      simp only [Prog.bind_eq, Machine.seqRun_bind, seqRun_fetch hs (hdata c List.mem_cons_self),
        hdown, Bool.false_eq_true, if_false, hn']
      rw [pread_piece (by omega) (by omega)]
      rfl
    · rw [List.filter_cons_of_neg (by simpa using hhit), slice_nil (by omega), List.nil_append]
      exact hih n

/-- The same for a range of a file. -/
theorem seqRun_readRange_content {content : Bytes} (hs : Readable s)
    (hdown : ∀ n, (ts n).downloadFails = false) {ino : Ino}
    (hc : Contiguous 0 (s.index.getChunks ino))
    (hsum : ((s.index.getChunks ino).map (·.len)).sum = content.length)
    (hdata : ∀ c ∈ s.index.getChunks ino, s.blobData c.sha = some (pread content c.off c.len))
    (offset length n : Nat) :
    (machine.seqRun src ts (readRange ino offset length) n s).1 =
      .ok (pread content offset length) := by
  by_cases hl : length = 0
  · unfold readRange
    rw [if_pos hl, hl]
    rfl
  · rw [seqRun_readRange_parts hs hl]
    obtain ⟨n', hn'⟩ := seqRun_readParts_slice hs hdown hc hdata (n + 1)
    rw [hn', hsum, Nat.max_zero, Nat.zero_add]
    exact congrArg Except.ok (slice_clamp content offset length)

/-! ## Writing and reading back -/

/-- The file is stored in pieces of at most one chunk and reads as `content`. -/
structure Stores (cfg : StoreConfig) (ino : Ino) (content : Bytes) (s : Store Sha) : Prop where
  idx : (s.index.getChunks ino).map (·.idx) = List.range (s.index.getChunks ino).length
  contiguous : Contiguous 0 (s.index.getChunks ino)
  bounds : ∀ c ∈ s.index.getChunks ino, 0 < c.len ∧ c.len ≤ cfg.chunkSize
  sum : ((s.index.getChunks ino).map (·.len)).sum = content.length
  blob : ∀ c ∈ s.index.getChunks ino, ∃ b, s.index.blobs c.sha = some b ∧ b.len = c.len ∧
    s.backend.blobs b.handle = some (pread content c.off c.len)
  /-- A range past the end reads what there is. -/
  read : ∀ (src : Src Sha) (ts : Nat → Tick), (∀ n, (ts n).downloadFails = false) →
    ∀ offset length n, (machine.seqRun src ts (readRange ino offset length) n s).1 =
      .ok (pread content offset length)

/-- Rows that are pieces of the content store it, if their blobs exist. -/
theorem Readable.stores (hs : Readable s) (hinj : Function.Injective (sha256 : Bytes → Sha))
    {cfg : StoreConfig} {ino : Ino} {content : Bytes}
    (hidx : (s.index.getChunks ino).map (·.idx) = List.range (s.index.getChunks ino).length)
    (hc : Contiguous 0 (s.index.getChunks ino))
    (hsum : ((s.index.getChunks ino).map (·.len)).sum = content.length)
    (hpiece : ∀ c ∈ s.index.getChunks ino, Piece cfg content c)
    (hblob : ∀ c ∈ s.index.getChunks ino, ∃ b, s.index.blobs c.sha = some b) :
    Stores cfg ino content s := by
  have hheld : ∀ c ∈ s.index.getChunks ino, ∃ b, s.index.blobs c.sha = some b ∧ b.len = c.len ∧
      s.backend.blobs b.handle = some (pread content c.off c.len) := by
    intro c hcm
    obtain ⟨b, hb⟩ := hblob c hcm
    obtain ⟨data, hdata, hsha, hlen⟩ := hs.held _ b hb
    obtain rfl := hinj (hsha.trans (hpiece c hcm).sha)
    have hfin := (hpiece c hcm).fin_le
    refine ⟨b, hb, ?_, hdata⟩
    rw [← hlen, length_pread]
    omega
  refine ⟨hidx, hc, fun c hcm => ⟨(hpiece c hcm).len_pos, (hpiece c hcm).len_le⟩, hsum, hheld, ?_⟩
  intro src ts hdown offset length n
  apply seqRun_readRange_content hs hdown hc hsum
  intro c hcm
  obtain ⟨b, hb, -, hdata⟩ := hheld c hcm
  simp [blobData, hb, hdata]

/-- Where nothing in the frame is in flight, the invariant makes the store readable. -/
theorem Inv.readable {mayFail : Prop} {canFree : Ino → Prop} {o : Res Sha}
    (hi : Inv mayFail canFree s o) (hfuts : o.futs = 0) (hdoomed : o.doomed = 0) : Readable s := by
  refine ⟨fun t ht => ?_, hi.blobs.stored⟩
  obtain ⟨f, hf⟩ := List.getElem?_of_mem ht
  by_contra hset
  have := hi.tasks.owned f t hf (by simpa using hset)
  simp [hfuts, hdoomed] at this

/-- `put_file` leaves the frame alone. -/
theorem Consistent.seqRun_putFile {mayFail : Prop} (src : Src Sha) (cfg : StoreConfig) (ino : Ino)
    (size : Nat) (dirty : Option (Finset Nat)) (hs : Consistent s)
    (hts : ∀ n, (ts n).Quiet mayFail) (n : Nat) :
    Inv mayFail (fun _ => True) (machine.seqRun src ts (putFile cfg ino size dirty) n s).2.2
        hs.frame ∧
      PutPost mayFail cfg size dirty src (Inv.own s ino)
        (machine.seqRun src ts (putFile cfg ino size dirty) n s).1
        (Inv.own (machine.seqRun src ts (putFile cfg ino size dirty) n s).2.2 ino) :=
  seqRun_over (safe_putFile (show (Inv.own s ino).freeing = false from rfl))
    (hs.inv.take (by simp [Consistent.frame])) hts n

theorem putFile_stores {mayFail : Prop} (hinj : Function.Injective (sha256 : Bytes → Sha))
    (cfg : StoreConfig) (ino : Ino) {content : Bytes} (hsrc : src.Serves content)
    (hs : Consistent s) (hts : ∀ n, (ts n).Quiet mayFail) (n : Nat)
    (hok : (machine.seqRun src ts (putFile cfg ino content.length none) n s).1 = .ok ()) :
    Stores cfg ino content
      (machine.seqRun src ts (putFile cfg ino content.length none) n s).2.2 ∧
    ((machine.seqRun src ts (putFile cfg ino content.length none) n s).2.2.index.inodes ino).map
      (·.size) = (s.index.inodes ino).map fun _ => content.length := by
  obtain ⟨hI, hpost⟩ := hs.seqRun_putFile src cfg ino content.length none hts n
  rw [hok] at hpost
  generalize (machine.seqRun src ts (putFile cfg ino content.length none) n s).2.2 = s' at hI hpost ⊢
  obtain ⟨new, off, now, hscan, hend, hown⟩ := hpost
  have hrows : s'.index.getChunks ino = new := congrArg Owned.rows hown
  have hinode : s'.index.inodes ino = (s.index.inodes ino).map fun n =>
      { n with size := off, mtime := now, ctime := now } := congrArg Owned.inode hown
  have hoff : off = content.length := hscan.off_eq hsrc hend
  constructor
  · refine (hI.readable rfl rfl).stores hinj ?_ ?_ ?_ ?_ fun c hc => hI.blob_of_row ?_ hc
    · rw [hrows]
      exact hscan.idx
    · rw [hrows]
      exact hscan.contiguous
    · rw [hrows, hscan.sum_len, hoff]
    · rw [hrows]
      exact hscan.piece hsrc
    · exact Multiset.notMem_zero _
  · rw [hinode, Option.map_map, hoff]
    rfl

/-- What `put_file` stores is what `read_range` returns, whatever the source serves with each
read and in whatever order the uploads end. -/
theorem putFile_roundtrip (hinj : Function.Injective (sha256 : Bytes → Sha))
    (cfg : StoreConfig) (ino : Ino) {content : Bytes} (hsrc : src.Serves content)
    (hs : Consistent s) (n : Nat)
    (hok : (machine.seqRun src ts (putFile cfg ino content.length none) n s).1 = .ok ()) :
    Stores cfg ino content
      (machine.seqRun src ts (putFile cfg ino content.length none) n s).2.2 ∧
    ((machine.seqRun src ts (putFile cfg ino content.length none) n s).2.2.index.inodes ino).map
      (·.size) = (s.index.inodes ino).map fun _ => content.length := by
  have hcalm := putFile_calm hs.settled n hok
  rw [← hcalm] at hok ⊢
  exact putFile_stores hinj cfg ino hsrc hs (fun k => (ts k).quiet_calm) n hok

theorem newFile_accounted : Accounted newFile := (empty_accounted 0 0 0).reindex rfl rfl

/-- Three bytes in chunks of two, from a source that serves one byte at a time. -/
theorem putFile_roundtrip_bytewise :
    Stores ⟨2, 1, by decide, by decide⟩ 2 [1, 2, 3]
      (machine.seqRun (fun pos _ => .ok (pread [1, 2, 3] pos 1)) (fun _ => {})
        (putFile ⟨2, 1, by decide, by decide⟩ 2 3 none) 0 (newFile : Store Bytes)).2.2 ∧
    ((machine.seqRun (fun pos _ => .ok (pread [1, 2, 3] pos 1)) (fun _ => {})
      (putFile ⟨2, 1, by decide, by decide⟩ 2 3 none) 0 (newFile : Store Bytes)).2.2.index.inodes
        2).map (·.size) = (newFile.index.inodes 2).map fun _ => 3 := by
  have hserves : Src.Serves (fun pos _ => .ok (pread [1, 2, 3] pos 1) : Src Bytes) [1, 2, 3] := by
    intro pos want data hwant h
    cases h
    refine ⟨List.take_prefix _ _, (List.length_take_le _ _).trans hwant, fun hnil => ?_⟩
    have := congrArg List.length hnil
    rw [length_pread, List.length_nil] at this
    omega
  exact putFile_roundtrip (fun _ _ h => h) _ 2 hserves newFile_accounted.consistent 0 (by decide +kernel)

/-- A file of two rows that share a message which was counted once. -/
def undercounted : Store Bytes where
  index := { newFile.index with
    chunks := [(2, ⟨0, 0, 1, [7]⟩), (2, ⟨1, 1, 1, [7]⟩)]
    blobs := Function.update (fun _ => none) [7] (some ⟨1, 1, 1⟩) }
  backend := ⟨Function.update (fun _ => none) 1 (some [7]), 2⟩
  tasks := []

/-- A message whose blobs row records a wrong length. -/
def mislabelled : Store Bytes where
  index := { newFile.index with
    chunks := [(2, ⟨0, 0, 1, [7]⟩)]
    blobs := Function.update (fun _ => none) [7] (some ⟨1, 5, 1⟩) }
  backend := ⟨Function.update (fun _ => none) 1 (some [7]), 2⟩
  tasks := []

/-- That the messages hash to their rows is not enough: with a refcount too low the release of
the old rows deletes the new content, and with a wrong length recorded the blob of a new row
has not the length of the row. -/
theorem putFile_roundtrip_undercounted :
    (∀ h b, undercounted.index.blobs h = some b → undercounted.backend.blobs b.handle = some h) ∧
    (∀ h b, mislabelled.index.blobs h = some b → mislabelled.backend.blobs b.handle = some h) ∧
    (let s' := machine.seqRun (fun pos want => .ok (pread [7] pos want)) (fun _ => {})
        (putFile ⟨1, 1, by decide, by decide⟩ 2 1 none) 0 undercounted
     s'.1 = .ok () ∧
      (machine.seqRun (fun _ _ => .ok []) (fun _ => {}) (readRange 2 0 1) 0 s'.2.2).1 =
        .error (.blobNotInIndex [7])) ∧
    (let s' := machine.seqRun (fun pos want => .ok (pread [7] pos want)) (fun _ => {})
        (putFile ⟨1, 1, by decide, by decide⟩ 2 1 none) 0 mislabelled
     s'.1 = .ok () ∧ s'.2.2.index.getChunks 2 = [⟨0, 0, 1, [7]⟩] ∧
      (s'.2.2.index.blobs [7]).map (·.len) = some 5) := by
  refine ⟨?_, ?_, by decide +kernel, by decide +kernel⟩
  · intro h b hb
    by_cases hh : h = [7]
    · subst hh
      simp only [undercounted, Function.update_self, Option.some.injEq] at hb ⊢
      rw [← hb]
      rfl
    · simp [undercounted, Function.update_of_ne hh] at hb
  · intro h b hb
    by_cases hh : h = [7]
    · subst hh
      simp only [mislabelled, Function.update_self, Option.some.injEq] at hb ⊢
      rw [← hb]
      rfl
    · simp [mislabelled, Function.update_of_ne hh] at hb

end Store

end Tgfs
