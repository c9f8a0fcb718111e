import Tgfs.Misc.Grid
import Tgfs.Store.Proofs.PutFile

/-!
# The rows that `put_file` builds

A source serves a content when every read returns a piece of it, of any length up to the one
asked for, and nothing only at the end. The rows that the loop of `put_file` builds over such a
source cover the content without gaps.
-/

namespace Tgfs

/-- Every `read` that does not raise returns bytes of `content` from the position on, and `b""`
only at its end. -/
def Src.Serves {Sha : Type} (src : Src Sha) (content : Bytes) : Prop :=
  ∀ pos want data, 0 < want → src pos want = .ok data →
    data <+: content.drop pos ∧ data.length ≤ want ∧ (data = [] → content.length ≤ pos)

/-- A source that returns all that is asked for. -/
theorem serves_pread {Sha : Type} (content : Bytes) :
    Src.Serves (fun pos want => .ok (pread content pos want) : Src Sha) content := by
  intro pos want data hwant h
  cases h
  refine ⟨List.take_prefix _ _, List.length_take_le _ _, fun hnil => ?_⟩
  have := congrArg List.length hnil
  rw [length_pread, List.length_nil] at this
  omega

namespace Store

variable {Sha : Type} [DecidableEq Sha] [Sha256 Sha] {cfg : StoreConfig} {size : Nat}
  {dirty : Option (Finset Nat)} {old new : List (Chunk Sha)} {src : Src Sha} {off : Nat}

omit [DecidableEq Sha] [Sha256 Sha] in
/-- What the loop asks for. -/
theorem want_pos (cfg : StoreConfig) (h : off < size) : 0 < min cfg.chunkSize (size - off) := by
  have := cfg.chunkSize_pos
  omega

omit [DecidableEq Sha] in
/-- The lengths of the rows add up to the offset that the loop has come to. -/
theorem Scanned.sum_len (h : Scanned cfg size dirty old src new off) :
    (new.map (·.len)).sum = off := by
  induction h with
  | nil => rfl
  | clean _ _ _ ih => simp [ih]
  | fresh _ _ _ _ _ ih => simp [ih]

omit [DecidableEq Sha] in
theorem Scanned.off_le {content : Bytes} (hsrc : Src.Serves src content)
    (h : Scanned cfg content.length dirty old src new off) : off ≤ content.length := by
  induction h with
  | nil => exact Nat.zero_le _
  | clean _ hoff _ _ => omega
  | fresh _ hoff _ hread _ _ =>
    obtain ⟨hpre, -, -⟩ := hsrc _ _ _ (want_pos cfg hoff) hread
    have := hpre.length_le
    rw [List.length_drop] at this
    omega

omit [DecidableEq Sha] in
/-- A loop over a source that serves all of the content ends at its end. -/
theorem Scanned.off_eq {content : Bytes} (hsrc : Src.Serves src content)
    (h : Scanned cfg content.length dirty old src new off)
    (hend : ScanEnd cfg content.length src off) : off = content.length := by
  have hle := h.off_le hsrc
  rcases hend with hge | hread
  · omega
  · rcases Nat.lt_or_ge off content.length with hlt | hge
    · have := (hsrc _ _ _ (want_pos cfg hlt) hread).2.2 rfl
      omega
    · omega

/-! ## The layout of the rows -/

/-- The rows follow each other without gaps from `off` on. -/
def Contiguous : Nat → List (Chunk Sha) → Prop
  | _, [] => True
  | off, c :: cs => c.off = off ∧ Contiguous (off + c.len) cs

omit [DecidableEq Sha] [Sha256 Sha] in
theorem Contiguous.concat {a : Nat} {rows : List (Chunk Sha)} {c : Chunk Sha}
    (h : Contiguous a rows) (hc : c.off = a + (rows.map (·.len)).sum) :
    Contiguous a (rows ++ [c]) := by
  induction rows generalizing a with
  | nil => exact ⟨hc, trivial⟩
  | cons r rows ih =>
    refine ⟨h.1, ih h.2 ?_⟩
    rw [hc, List.map_cons, List.sum_cons, Nat.add_assoc]

omit [DecidableEq Sha] in
theorem Scanned.contiguous (h : Scanned cfg size dirty old src new off) : Contiguous 0 new := by
  induction h with
  | nil => trivial
  | clean hs _ _ ih | fresh hs _ _ _ _ ih =>
    apply ih.concat
    rw [hs.sum_len, Nat.zero_add]

omit [DecidableEq Sha] in
theorem Scanned.idx (h : Scanned cfg size dirty old src new off) :
    new.map (·.idx) = List.range new.length := by
  induction h with
  | nil => rfl
  | clean _ _ _ ih | fresh _ _ _ _ _ ih =>
    rw [List.map_append, ih, List.length_append, List.length_singleton, List.range_succ]
    rfl

/-- A row that was read: a piece of the content of at most one chunk, under its hash. -/
structure Piece (cfg : StoreConfig) (content : Bytes) (c : Chunk Sha) : Prop where
  len_pos : 0 < c.len
  len_le : c.len ≤ cfg.chunkSize
  fin_le : c.off + c.len ≤ content.length
  sha : c.sha = sha256 (pread content c.off c.len)

omit [DecidableEq Sha] [Sha256 Sha] in
/-- What a source serves is a piece of its content. -/
theorem piece_of_serves {content data : Bytes} (hsrc : Src.Serves src content)
    (hoff : off < content.length)
    (hread : src off (min cfg.chunkSize (content.length - off)) = .ok data) :
    data = pread content off data.length ∧ data.length ≤ cfg.chunkSize ∧
      off + data.length ≤ content.length := by
  obtain ⟨hpre, hlen, -⟩ := hsrc _ _ _ (want_pos cfg hoff) hread
  exact ⟨List.prefix_iff_eq_take.mp hpre, by omega, by omega⟩

omit [DecidableEq Sha] in
/-- With nothing to reuse, every row is a piece of the content. -/
theorem Scanned.piece {content : Bytes} (hsrc : Src.Serves src content)
    (h : Scanned cfg content.length none old src new off) :
    ∀ c ∈ new, Piece cfg content c := by
  induction h with
  | nil => simp
  | clean _ _ hrow _ => cases hrow
  | @fresh new off data _ hoff _ hread hdata ih =>
    intro c hc
    rcases List.mem_append.mp hc with hc | hc
    · exact ih c hc
    · obtain rfl := List.mem_singleton.mp hc
      obtain ⟨heq, hcs, hfin⟩ := piece_of_serves hsrc hoff hread
      exact ⟨List.length_pos_iff.mpr hdata, hcs, hfin, congrArg sha256 heq⟩

end Store

/-! ## The grid of a scan over a whole file -/

variable {Sha : Type} [DecidableEq Sha] [Sha256 Sha]

/-- A source that returns all that is asked for. -/
def Src.whole (content : Bytes) : Src Sha := fun pos want => .ok (pread content pos want)

/-- The hash `put_file` stores for chunk `i` of the source `temp`. -/
def rowSha (cs : Nat) (dirty : Option (Finset Nat)) (old : List (Chunk Sha)) (temp : Bytes)
    (i : Nat) : Sha :=
  match Store.cleanRow dirty old i (i * cs) (min cs (temp.length - i * cs)) with
  | some row => row.sha
  | none => sha256 (chunkAt cs temp i)

/-- A row of the grid with chunk size `cs`. -/
def gridRow (cs : Nat) (dirty : Option (Finset Nat)) (old : List (Chunk Sha)) (temp : Bytes)
    (i : Nat) : Chunk Sha :=
  ⟨i, i * cs, min cs (temp.length - i * cs), rowSha cs dirty old temp i⟩

omit [DecidableEq Sha] in
theorem pread_chunk {cs : Nat} {temp : Bytes} {i : Nat} :
    pread temp (i * cs) (min cs (temp.length - i * cs)) = chunkAt cs temp i := by
  apply List.ext_getElem?
  intro k
  rw [getElem?_pread, getElem?_chunkAt]
  by_cases hk : k < cs
  · rw [if_pos hk]
    split
    · rfl
    · rw [List.getElem?_eq_none (by omega)]
  · rw [if_neg hk, if_neg (by omega)]

omit [DecidableEq Sha] in
theorem Store.Scanned.grid {cfg : StoreConfig} {dirty : Option (Finset Nat)}
    {old new : List (Chunk Sha)} {temp : Bytes} {off : Nat}
    (h : Scanned cfg temp.length dirty old (Src.whole temp) new off) :
    new = (List.range new.length).map (gridRow cfg.chunkSize dirty old temp) ∧
      off = min temp.length (new.length * cfg.chunkSize) ∧
        ∀ i, i < new.length → i * cfg.chunkSize < temp.length := by
  induction h with
  | nil => simp
  | @clean new off row h hlt hrow ih =>
    obtain ⟨hnew, hoff, hin⟩ := ih
    have hoff' : off = new.length * cfg.chunkSize := by omega
    subst hoff'
    refine ⟨?_, ?_, fun i hi => ?_⟩
    · rw [List.length_append, List.length_singleton, List.range_succ, List.map_append, ← hnew]
      simp only [List.map_singleton, gridRow, rowSha, hrow]
    · rw [List.length_append, List.length_singleton, Nat.succ_mul]
      omega
    · rw [List.length_append, List.length_singleton] at hi
      obtain hi | rfl := Nat.lt_succ_iff_lt_or_eq.mp hi
      · exact hin i hi
      · exact hlt
  | @fresh new off data h hlt hrow hdata hne ih =>
    obtain ⟨hnew, hoff, hin⟩ := ih
    have hoff' : off = new.length * cfg.chunkSize := by omega
    subst hoff'
    have hchunk : chunkAt cfg.chunkSize temp new.length = data :=
      pread_chunk.symm.trans (Except.ok.inj hdata)
    subst hchunk
    refine ⟨?_, ?_, fun i hi => ?_⟩
    · rw [List.length_append, List.length_singleton, List.range_succ, List.map_append, ← hnew]
      simp only [List.map_singleton, gridRow, rowSha, hrow, length_chunkAt]
    · rw [List.length_append, List.length_singleton, Nat.succ_mul, length_chunkAt]
      omega
    · rw [List.length_append, List.length_singleton] at hi
      obtain hi | rfl := Nat.lt_succ_iff_lt_or_eq.mp hi
      · exact hin i hi
      · exact hlt

omit [DecidableEq Sha] in
/-- The rows of a complete scan. -/
theorem scan_rows {cfg : StoreConfig} {dirty : Option (Finset Nat)} {old new : List (Chunk Sha)}
    {temp : Bytes} {off : Nat}
    (h : Store.Scanned cfg temp.length dirty old (Src.whole temp) new off)
    (hend : Store.ScanEnd cfg temp.length (Src.whole temp : Src Sha) off) :
    new = (List.range (chunkCount cfg.chunkSize temp.length)).map
        (gridRow cfg.chunkSize dirty old temp) ∧ off = temp.length := by
  obtain ⟨hnew, hoff, hin⟩ := h.grid
  have hcs := cfg.chunkSize_pos
  have hoff' : off = temp.length := by
    obtain hle | hnil := hend
    · omega
    · have := congrArg List.length (Except.ok.inj hnil)
      rw [length_pread, List.length_nil] at this
      omega
  have hcount : new.length = chunkCount cfg.chunkSize temp.length := by
    refine Nat.le_antisymm (le_of_forall_lt fun i hi => (lt_chunkCount hcs).mpr (hin i hi))
      (le_of_forall_lt fun i hi => ?_)
    have := (lt_chunkCount hcs).mp hi
    by_contra hge
    have : new.length * cfg.chunkSize ≤ i * cfg.chunkSize :=
      Nat.mul_le_mul_right _ (Nat.le_of_not_lt hge)
    omega
  rw [← hcount]
  exact ⟨hnew, hoff'⟩

/-- The pieces in which a scan reads the content: at most one chunk each, and whole chunks where
the source returns all that is asked for. -/
structure Pieces (cfg : StoreConfig) (src : Src Sha) (content : Bytes) (pieces : List Bytes) :
    Prop where
  flatten : pieces.flatten = content
  bounds : ∀ p ∈ pieces, p ≠ [] ∧ p.length ≤ cfg.chunkSize
  whole : src = Src.whole content →
    pieces = (List.range (chunkCount cfg.chunkSize content.length)).map
      (chunkAt cfg.chunkSize content)

omit [DecidableEq Sha] in
/-- The pieces behind the rows of a scan join to what it has passed. -/
theorem Store.Scanned.flatten {cfg : StoreConfig} {src : Src Sha} {content : Bytes}
    {old new : List (Chunk Sha)} {off : Nat} (hsrc : Src.Serves src content)
    (h : Scanned cfg content.length none old src new off) :
    (new.map fun c => pread content c.off c.len).flatten = content.take off := by
  induction h with
  | nil => rfl
  | clean _ _ hrow _ => cases hrow
  | @fresh new off data _ hoff _ hread _ ih =>
    obtain ⟨heq, -, -⟩ := piece_of_serves hsrc hoff hread
    rw [List.map_append, List.flatten_append, ih, List.take_add]
    simp [pread]

omit [DecidableEq Sha] in
/-- The rows of a complete scan are those of its pieces. -/
theorem Store.Scanned.pieces {cfg : StoreConfig} {src : Src Sha} {content : Bytes}
    {old new : List (Chunk Sha)} {off : Nat} (hsrc : Src.Serves src content)
    (h : Scanned cfg content.length none old src new off)
    (hend : ScanEnd cfg content.length src off) :
    ∃ pieces, Pieces cfg src content pieces ∧ new.map (·.sha) = pieces.map sha256 := by
  have hpiece := h.piece hsrc
  refine ⟨new.map fun c => pread content c.off c.len, ⟨?_, ?_, ?_⟩, ?_⟩
  · rw [h.flatten hsrc, h.off_eq hsrc hend, List.take_length]
  · intro p hp
    obtain ⟨c, hc, rfl⟩ := List.mem_map.mp hp
    have hfin := (hpiece c hc).fin_le
    have hlen : (pread content c.off c.len).length = c.len := by
      rw [length_pread]
      omega
    have hpos := (hpiece c hc).len_pos
    rw [← List.length_pos_iff, hlen]
    exact ⟨hpos, (hpiece c hc).len_le⟩
  · intro hwhole
    subst hwhole
    obtain ⟨hrows, -⟩ := scan_rows h hend
    rw [hrows, List.map_map]
    apply List.map_congr_left
    intro i _
    exact pread_chunk
  · rw [List.map_map]
    apply List.map_congr_left
    intro c hc
    exact (hpiece c hc).sha

end Tgfs
