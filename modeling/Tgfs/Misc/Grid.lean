import Tgfs.Misc.PosixBytes

/-!
# A byte file cut into chunks

Chunk `i` of a file holds the positions `p` with `p / cs = i`; the last chunk may be short.
Writing or resizing changes a chunk only if it touches one of its positions.
-/

namespace Tgfs

/-- Chunk `i` of `f`. -/
def chunkAt (cs : Nat) (f : Bytes) (i : Nat) : Bytes := pread f (i * cs) cs

/-- The number of chunks of a file of `n` bytes. -/
def chunkCount (cs n : Nat) : Nat := (n + cs - 1) / cs

variable {cs : Nat} {f g : Bytes} {i p : Nat}

theorem div_eq_iff_chunk (hcs : 0 < cs) : p / cs = i ↔ i * cs ≤ p ∧ p < i * cs + cs := by
  rw [Nat.div_eq_iff hcs]
  constructor <;> intro h <;> omega

theorem lt_chunkCount (hcs : 0 < cs) {n : Nat} : i < chunkCount cs n ↔ i * cs < n := by
  unfold chunkCount
  rw [← Nat.succ_le_iff, Nat.le_div_iff_mul_le hcs, Nat.succ_mul]
  omega

theorem div_lt_chunkCount (hcs : 0 < cs) {n : Nat} (h : p < n) : p / cs < chunkCount cs n :=
  (lt_chunkCount hcs).mpr (Nat.lt_of_le_of_lt (Nat.div_mul_le_self p cs) h)

@[simp] theorem length_chunkAt : (chunkAt cs f i).length = min cs (f.length - i * cs) :=
  length_pread _ _ _

/-- A chunk with another one behind it is whole. -/
theorem length_chunkAt_of_next (hcs : 0 < cs) (h : i + 1 < chunkCount cs f.length) :
    (chunkAt cs f i).length = cs := by
  have hnext := (lt_chunkCount hcs).mp h
  rw [Nat.succ_mul] at hnext
  rw [length_chunkAt]
  omega

theorem getElem?_chunkAt {k : Nat} :
    (chunkAt cs f i)[k]? = if k < cs then f[i * cs + k]? else none :=
  getElem?_pread _ _ _ _

theorem chunkAt_ne_nil (hcs : 0 < cs) (h : i * cs < f.length) : chunkAt cs f i ≠ [] := by
  apply List.ne_nil_of_length_pos
  rw [length_chunkAt]
  omega

theorem chunkAt_congr (h : ∀ p, i * cs ≤ p → p < i * cs + cs → f[p]? = g[p]?) :
    chunkAt cs f i = chunkAt cs g i :=
  pread_congr h

/-- A write inside the file leaves the chunks it does not meet. -/
theorem chunkAt_pwrite {d : Bytes} {off : Nat} (hd : d ≠ []) (hin : off + d.length ≤ f.length)
    (hout : i * cs + cs ≤ off ∨ off + d.length ≤ i * cs) :
    chunkAt cs (pwrite f off d) i = chunkAt cs f i := by
  refine chunkAt_congr fun p hp hp' => ?_
  rw [getElem?_pwrite hd]
  by_cases ho : p < off
  · rw [if_pos ho, List.getElem?_eq_getElem (by omega)]
    rfl
  · rw [if_neg ho, if_neg (by omega)]

/-- Resizing leaves the chunks that lie fully in both files. -/
theorem chunkAt_resize {n : Nat} (hf : i * cs + cs ≤ f.length) (hn : i * cs + cs ≤ n) :
    chunkAt cs (resize f n) i = chunkAt cs f i := by
  refine chunkAt_congr fun p hp hp' => ?_
  rw [getElem?_resize, if_pos (by omega), List.getElem?_eq_getElem (by omega)]
  rfl

/-- A file is its chunks in order. -/
theorem flatten_chunks (hcs : 0 < cs) (f : Bytes) :
    ((List.range (chunkCount cs f.length)).map (chunkAt cs f)).flatten = f := by
  have key : ∀ k, ((List.range k).map (chunkAt cs f)).flatten = pread f 0 (k * cs) := by
    intro k
    induction k with
    | zero => simp [pread]
    | succ k ih =>
      rw [List.range_succ, List.map_append, List.flatten_append, ih, List.map_singleton,
        List.flatten_singleton, chunkAt, Nat.succ_mul, ← pread_append, Nat.zero_add]
  rw [key]
  have hle : f.length ≤ chunkCount cs f.length * cs := by
    by_contra h
    exact absurd ((lt_chunkCount hcs).mpr (Nat.lt_of_not_le h)) (Nat.lt_irrefl _)
  unfold pread
  rw [List.drop_zero, List.take_of_length_le hle]

theorem chunkAt_pwrite_self (hcs : 0 < cs)
    (hlen : f.length = g.length) (hi : i * cs < g.length) :
    chunkAt cs (pwrite f (i * cs) (chunkAt cs g i)) i = chunkAt cs g i := by
  have hne : chunkAt cs g i ≠ [] := chunkAt_ne_nil hcs hi
  apply List.ext_getElem?
  intro q
  rw [getElem?_chunkAt, getElem?_chunkAt]
  by_cases hq : q < cs
  · rw [if_pos hq, if_pos hq, getElem?_pwrite hne, if_neg (by omega), length_chunkAt]
    by_cases hin : q < g.length - i * cs
    · rw [if_pos (by omega), Nat.add_sub_cancel_left, getElem?_chunkAt, if_pos hq]
    · rw [if_neg (by omega), List.getElem?_eq_none (by omega), List.getElem?_eq_none (by omega)]
  · rw [if_neg hq, if_neg hq]

theorem length_pwrite_chunk (hcs : 0 < cs)
    (hlen : f.length = g.length) (hi : i * cs < g.length) :
    (pwrite f (i * cs) (chunkAt cs g i)).length = f.length := by
  rw [length_pwrite (chunkAt_ne_nil hcs hi), length_chunkAt]
  omega

/-- Files of one length with the same chunks are the same. -/
theorem eq_of_chunks (hcs : 0 < cs) (hlen : f.length = g.length)
    (h : ∀ i, i < chunkCount cs g.length → chunkAt cs f i = chunkAt cs g i) : f = g := by
  rw [← flatten_chunks hcs f, ← flatten_chunks hcs g, hlen]
  congr 1
  apply List.map_congr_left
  intro i hi
  exact h i (List.mem_range.mp hi)

/-- A gap before a write can be filled first. -/
theorem pwrite_resize {d : Bytes} (hd : d ≠ []) (f : Bytes) (off : Nat) :
    pwrite (resize f (max f.length (off + d.length))) off d = pwrite f off d := by
  apply List.ext_getElem?
  intro p
  rw [getElem?_pwrite hd, getElem?_pwrite hd, getElem?_resize]
  have hlen := List.length_pos_iff.mpr hd
  by_cases ho : p < off
  · rw [if_pos ho, if_pos ho, if_pos (by omega)]
    rfl
  · rw [if_neg ho, if_neg ho]
    by_cases hin : p < off + d.length
    · rw [if_pos hin, if_pos hin]
    · rw [if_neg hin, if_neg hin]
      by_cases hf : p < f.length
      · rw [if_pos (by omega), List.getElem?_eq_getElem hf]
        rfl
      · rw [if_neg (by omega), List.getElem?_eq_none (by omega)]

end Tgfs
