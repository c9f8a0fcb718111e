import Mathlib.Data.List.Basic

/-!
# Byte files

The content of a regular file as a list of bytes, with the three operations that POSIX gives
on it. Each operation comes with its length and with the byte it leaves at every position;
proofs about files compare positions and never look at the lists.
-/

namespace Tgfs

abbrev Bytes : Type := List UInt8

/-- `pread`: the bytes from `off` on, at most `n` of them, cut at the end of the file. It is
also the slice `f[off : off + n]`. -/
def pread (f : Bytes) (off n : Nat) : Bytes := (f.drop off).take n

/-- `ftruncate`: cut to `n` bytes, or extended with zero bytes to `n`. -/
def resize (f : Bytes) (n : Nat) : Bytes := f.take n ++ List.replicate (n - f.length) 0

/-- `pwrite`: a gap between the end of the file and `off` is filled with zero bytes. Writing
nothing changes nothing. -/
def pwrite (f : Bytes) (off : Nat) (d : Bytes) : Bytes :=
  if d = [] then f else resize f off ++ d ++ f.drop (off + d.length)

@[simp] theorem length_pread (f : Bytes) (off n : Nat) :
    (pread f off n).length = min n (f.length - off) := by
  simp [pread]

theorem getElem?_pread (f : Bytes) (off n i : Nat) :
    (pread f off n)[i]? = if i < n then f[off + i]? else none := by
  simp only [pread, List.getElem?_take, List.getElem?_drop]

@[simp] theorem length_resize (f : Bytes) (n : Nat) : (resize f n).length = n := by
  simp [resize]
  omega

theorem getElem?_resize (f : Bytes) (n i : Nat) :
    (resize f n)[i]? = if i < n then some ((f[i]?).getD 0) else none := by
  unfold resize
  rw [List.getElem?_append, List.length_take]
  by_cases hn : i < n
  · by_cases hf : i < f.length
    · rw [if_pos (by omega), if_pos hn, List.getElem?_take, if_pos hn,
        List.getElem?_eq_getElem hf]
      rfl
    · rw [if_neg (by omega), if_pos hn, List.getElem?_replicate, if_pos (by omega),
        List.getElem?_eq_none (by omega)]
      rfl
  · rw [if_neg (by omega), if_neg hn, List.getElem?_replicate, if_neg (by omega)]

theorem length_pwrite {d : Bytes} (hd : d ≠ []) (f : Bytes) (off : Nat) :
    (pwrite f off d).length = max f.length (off + d.length) := by
  simp only [pwrite, if_neg hd, List.length_append, length_resize, List.length_drop]
  omega

theorem getElem?_pwrite {d : Bytes} (hd : d ≠ []) (f : Bytes) (off i : Nat) :
    (pwrite f off d)[i]? =
      if i < off then some ((f[i]?).getD 0)
      else if i < off + d.length then d[i - off]? else f[i]? := by
  simp only [pwrite, if_neg hd, List.append_assoc]
  rw [List.getElem?_append, length_resize]
  by_cases ho : i < off
  · rw [if_pos ho, if_pos ho, getElem?_resize, if_pos ho]
  · rw [if_neg ho, if_neg ho, List.getElem?_append]
    by_cases hi : i < off + d.length
    · rw [if_pos (by omega), if_pos hi]
    · rw [if_neg (by omega), if_neg hi, List.getElem?_drop]
      congr 1
      omega

/-- Reading twice the parts of a cut range is reading the range. -/
theorem pread_append (f : Bytes) (off m n : Nat) :
    pread f off m ++ pread f (off + m) n = pread f off (m + n) := by
  simp only [pread, List.take_add, List.drop_drop]

theorem pread_congr {f g : Bytes} {off n : Nat}
    (h : ∀ i, off ≤ i → i < off + n → f[i]? = g[i]?) : pread f off n = pread g off n := by
  apply List.ext_getElem?
  intro i
  rw [getElem?_pread, getElem?_pread]
  split
  · exact h _ (by omega) (by omega)
  · rfl

end Tgfs
