import Tgfs.Cache.FileOps
import Tgfs.Misc.Grid
import Tgfs.Store.Proofs.Sequential

/-!
# What the temp file shows

`View` relates a materialized state to the byte array `ref` that its users see. A byte is shown
by the temp file if its chunk was loaded or lies beyond `base`; any other chunk is still the
stored one. `ViewAt` is the same in the middle of an operation: positions in `[a, z)` are about
to be overwritten, and the temp file need not reach beyond `m` yet.
-/

namespace Tgfs

open Run (Wp Keeps)

variable {Sha : Type}

/-! ## Running the pieces -/

namespace Wb

variable {ts : Nat → Tick} {c : FileCtx Sha}

@[simp] theorem wp_getState {Q : Except (PyErr Sha) (FileState Sha) → FileCtx Sha → Prop} :
    Wp ts getState Q c ↔ Q (.ok c.st) c := Run.wp_gets

@[simp] theorem wp_setState {f : FileState Sha → FileState Sha}
    {Q : Except (PyErr Sha) Unit → FileCtx Sha → Prop} :
    Wp ts (setState f) Q c ↔ Q (.ok ()) { c with st := f c.st } := Run.wp_modify

@[simp] theorem wp_getRows {Q : Except (PyErr Sha) (List (Chunk Sha)) → FileCtx Sha → Prop} :
    Wp ts getRows Q c ↔ Q (.ok (c.store.index.getChunks c.st.ino)) c := Run.wp_gets

@[simp] theorem wp_getInode {Q : Except (PyErr Sha) (Option Inode) → FileCtx Sha → Prop} :
    Wp ts getInode Q c ↔ Q (.ok (c.store.index.getInode c.st.ino)) c := Run.wp_gets

/-- A step on the temp file of a state that is open. -/
theorem wp_checkOpen_bind {α : Type} {m : Unit → FileRun Sha α}
    {Q : Except (PyErr Sha) α → FileCtx Sha → Prop} (ho : c.st.closed = false)
    (h : Wp ts (m ()) Q c) : Wp ts (checkOpen >>= m) Q c := by
  unfold checkOpen Run.require
  rw [Run.wp_bind_assoc, getState, Run.wp_gets_bind, ho]
  exact h

theorem wp_tempWrite {off : Nat} {data : Bytes}
    {Q : Except (PyErr Sha) Unit → FileCtx Sha → Prop} (ho : c.st.closed = false)
    (h : Q (.ok ()) { c with temp := pwrite c.temp off data }) :
    Wp ts (tempWrite off data) Q c :=
  wp_checkOpen_bind ho (Run.wp_modify.mpr h)

theorem wp_tempRead {off n : Nat} {Q : Except (PyErr Sha) Bytes → FileCtx Sha → Prop}
    (ho : c.st.closed = false) (h : Q (.ok (pread c.temp off n)) c) :
    Wp ts (tempRead off n) Q c :=
  wp_checkOpen_bind ho (Run.wp_gets.mpr h)

theorem wp_tempTruncate {n : Nat} {Q : Except (PyErr Sha) Unit → FileCtx Sha → Prop}
    (ho : c.st.closed = false) (h : Q (.ok ()) { c with temp := resize c.temp n }) :
    Wp ts (tempTruncate n) Q c :=
  wp_checkOpen_bind ho (Run.wp_modify.mpr h)

/-! What says nothing about the temp file is as it was, also when the state is closed. -/

section Temp

variable {γ : Type} {f : FileCtx Sha → γ}

theorem keeps_checkOpen : Keeps f (checkOpen : FileRun Sha Unit) :=
  (Run.keeps_gets _).bind fun _ => Run.keeps_require _ _

theorem keeps_tempRead (off n : Nat) : Keeps f (tempRead off n : FileRun Sha Bytes) :=
  keeps_checkOpen.bind fun _ => Run.keeps_gets _

variable (hf : ∀ c temp, f { c with temp := temp } = f c)
include hf

theorem keeps_tempWrite (off : Nat) (data : Bytes) :
    Keeps f (tempWrite off data : FileRun Sha Unit) :=
  keeps_checkOpen.bind fun _ => Run.keeps_modify fun _ => hf _ _

theorem keeps_tempTruncate (n : Nat) : Keeps f (tempTruncate n : FileRun Sha Unit) :=
  keeps_checkOpen.bind fun _ => Run.keeps_modify fun _ => hf _ _

end Temp

variable [DecidableEq Sha] [Sha256 Sha]

omit [Sha256 Sha] in
/-- A call of a method of the store changes the store only. -/
theorem wp_call {α : Type} {src : Src Sha} {p : StoreProg Sha (Except (PyErr Sha) α)}
    {Q : Except (PyErr Sha) α → FileCtx Sha → Prop}
    (h : ∀ n, Q (Store.machine.seqRun src ts p n c.store).1
      { c with store := (Store.machine.seqRun src ts p n c.store).2.2 }) :
    Wp ts (call src p) Q c := h

theorem wp_fetch (hts : ∀ n, (ts n).Quiet False) (hs : c.store.Accounted) {sha : Sha} {data : Bytes}
    (hd : c.store.blobData sha = some data) {Q : Except (PyErr Sha) Bytes → FileCtx Sha → Prop}
    (h : Q (.ok data) c) : Wp ts (call noSrc (Store.fetch sha)) Q c := by
  refine wp_call fun n => ?_
  have hno : (ts (n + 1)).downloadFails = false := by
    by_contra hf
    exact (hts (n + 1)).download (by simpa using hf)
  rw [Store.seqRun_fetch hs.readable hd, hno]
  exact h

end Wb

/-! ## The relation -/

/-- Whether the temp file is to show the bytes of chunk `i`. -/
def FileState.Valid (st : FileState Sha) (i : Nat) : Prop := st.base.length ≤ i ∨ i ∈ st.loaded

variable [Sha256 Sha]

/-- The record `b` names chunk `i` of the file. -/
def GoodChunk (cs : Nat) (ref : Bytes) (i : Nat) (b : BaseChunk Sha) : Prop :=
  b.len = (chunkAt cs ref i).length ∧ b.sha = sha256 (chunkAt cs ref i)

theorem GoodChunk.congr {cs : Nat} {ref ref' : Bytes} {i : Nat} {b : BaseChunk Sha}
    (h : GoodChunk cs ref i b) (hc : chunkAt cs ref' i = chunkAt cs ref i) :
    GoodChunk cs ref' i b := by
  unfold GoodChunk
  rw [hc]
  exact h

variable [DecidableEq Sha]

structure ViewAt (cs a z m : Nat) (c : FileCtx Sha) (ref : Bytes) : Prop where
  books : c.store.Accounted
  opened : c.st.closed = false
  size : c.st.size = ref.length
  temp_le : c.temp.length ≤ ref.length
  m_le : m ≤ ref.length
  base_off : ∀ (i : Nat) (b : BaseChunk Sha), c.st.base[i]? = some b → b.off = i * cs ∧ i * cs < ref.length
  base_row : ∀ (i : Nat) (b : BaseChunk Sha), c.st.base[i]? = some b →
    ∃ row, (c.store.index.getChunks c.st.ino)[i]? = some row ∧ BaseChunk.ofRow row = b
  unloaded : ∀ (i : Nat) (b : BaseChunk Sha), c.st.base[i]? = some b → i ∉ c.st.loaded →
    GoodChunk cs ref i b ∧ i ∉ c.st.dirtyIdx
  shown : ∀ p : Nat, p < ref.length → (p < a ∨ z ≤ p) → c.st.Valid (p / cs) →
    (c.temp[p]?).getD 0 = (ref[p]?).getD 0
  long : ∀ p : Nat, p < m → (p < a ∨ z ≤ p) → c.st.Valid (p / cs) → p < c.temp.length

/-- Between operations. -/
def View (cs : Nat) (c : FileCtx Sha) (ref : Bytes) : Prop := ViewAt cs 0 0 ref.length c ref

/-- The stored chunks that are not marked as modified are those of the file. -/
def Clean (cs : Nat) (st : FileState Sha) (ref : Bytes) : Prop :=
  ∀ (i : Nat) (b : BaseChunk Sha), st.base[i]? = some b → i ∉ st.dirtyIdx → GoodChunk cs ref i b

variable {cs a z m : Nat} {c : FileCtx Sha} {ref : Bytes}

/-- What is shown, byte by byte. -/
theorem View.temp_eq (h : View cs c ref) {p : Nat} (hp : p < ref.length)
    (hv : c.st.Valid (p / cs)) : c.temp[p]? = ref[p]? := by
  have hlong := h.long p hp (.inr (Nat.zero_le _)) hv
  have := h.shown p hp (.inr (Nat.zero_le _)) hv
  rw [List.getElem?_eq_getElem hlong, List.getElem?_eq_getElem hp] at this ⊢
  exact congrArg some this

/-! ## Loading -/

/-- The blob of a base chunk is the chunk itself, while that is not loaded. -/
theorem ViewAt.blobData (hinj : Function.Injective (sha256 : Bytes → Sha))
    (h : ViewAt cs a z m c ref) {i : Nat} {b : BaseChunk Sha} (hb : c.st.base[i]? = some b)
    (hi : i ∉ c.st.loaded) : c.store.blobData b.sha = some (chunkAt cs ref i) := by
  obtain ⟨row, hrow, rfl⟩ := h.base_row i b hb
  obtain ⟨data, hdata, hsha⟩ := h.books.blobData_row (List.mem_of_getElem? hrow)
  have hgood := (h.unloaded i _ hb hi).1.2
  rw [show (BaseChunk.ofRow row).sha = row.sha from rfl, ← hsha] at hgood
  rw [show (BaseChunk.ofRow row).sha = row.sha from rfl, hdata, hinj hgood]

/-- Writing one fetched chunk into the temp file. -/
theorem ViewAt.loadOne (hcs : 0 < cs) (h : ViewAt cs a z m c ref) {i : Nat} {b : BaseChunk Sha}
    (hb : c.st.base[i]? = some b) :
    ViewAt cs a z m
      { c with
        temp := pwrite c.temp b.off (chunkAt cs ref i)
        st := { c.st with loaded := insert i c.st.loaded } } ref := by
  obtain ⟨hoff, hlt⟩ := h.base_off i b hb
  have hne := chunkAt_ne_nil hcs hlt
  have hlen : (chunkAt cs ref i).length = min cs (ref.length - i * cs) := length_chunkAt
  have hpos : ∀ p, (pwrite c.temp b.off (chunkAt cs ref i))[p]? =
      if p < i * cs then some ((c.temp[p]?).getD 0)
      else if p < i * cs + (chunkAt cs ref i).length then ref[p]? else c.temp[p]? := by
    intro p
    rw [getElem?_pwrite hne, hoff]
    by_cases h₁ : p < i * cs
    · rw [if_pos h₁, if_pos h₁]
    · rw [if_neg h₁, if_neg h₁]
      by_cases h₂ : p < i * cs + (chunkAt cs ref i).length
      · rw [if_pos h₂, if_pos h₂, getElem?_chunkAt, if_pos (by omega)]
        congr 1
        omega
      · rw [if_neg h₂, if_neg h₂]
  have hlen' : (pwrite c.temp b.off (chunkAt cs ref i)).length =
      max c.temp.length (i * cs + (chunkAt cs ref i).length) := by
    rw [length_pwrite hne, hoff]
  have hvalid : ∀ j, ({ c.st with loaded := insert i c.st.loaded } : FileState Sha).Valid j →
      j = i ∨ c.st.Valid j := by
    rintro j (hj | hj)
    · exact .inr (.inl hj)
    · obtain rfl | hj := Finset.mem_insert.mp hj
      · exact .inl rfl
      · exact .inr (.inr hj)
  refine { h with temp_le := ?_, unloaded := ?_, shown := ?_, long := ?_ }
  · rw [hlen']
    have := h.temp_le
    omega
  · intro j b' hb' hj
    exact h.unloaded j b' hb' fun hm => hj (Finset.mem_insert_of_mem hm)
  · intro p hp hout hv
    simp only [hpos]
    have hchunk := div_eq_iff_chunk (p := p) (i := i) hcs
    by_cases h₁ : p < i * cs
    · rw [if_pos h₁]
      obtain he | hv := hvalid _ hv
      · have := (hchunk.mp he).1
        omega
      · simpa using h.shown p hp hout hv
    · rw [if_neg h₁]
      by_cases h₂ : p < i * cs + (chunkAt cs ref i).length
      · rw [if_pos h₂]
      · rw [if_neg h₂]
        obtain he | hv := hvalid _ hv
        · have := (hchunk.mp he).2
          omega
        · exact h.shown p hp hout hv
  · intro p hp hout hv
    simp only [hlen']
    obtain he | hv := hvalid _ hv
    · have := (div_eq_iff_chunk hcs).mp he
      have := h.m_le
      omega
    · have := h.long p hp hout hv
      omega

/-- The states agree except that `L` is loaded. -/
def SetLoaded (c c' : FileCtx Sha) (L : Finset Nat) : Prop :=
  c'.st = { c.st with loaded := L } ∧ c'.store = c.store

section Load

variable {ts : Nat → Tick} (hcs : 0 < cs) (hinj : Function.Injective (sha256 : Bytes → Sha))
  (hts : ∀ n, (ts n).Quiet False)
include hcs hinj hts

open Wb

theorem ViewAt.loadEach {is : List Nat} (h : ViewAt cs a z m c ref) (hn : is.Nodup)
    (his : ∀ i ∈ is, i < c.st.base.length ∧ i ∉ c.st.loaded) :
    Wp ts (loadEach is) (fun r c' => r = .ok () ∧ ViewAt cs a z m c' ref ∧
      SetLoaded c c' (c.st.loaded ∪ is.toFinset)) c := by
  induction is generalizing c with
  | nil => exact Run.wp_pure.mpr ⟨rfl, h, by simp, rfl⟩
  | cons i is ih =>
    obtain ⟨hlt, hi⟩ := his i List.mem_cons_self
    obtain ⟨hni, hn'⟩ := List.nodup_cons.mp hn
    have hb := List.getElem?_eq_getElem hlt
    unfold Wb.loadEach
    rw [getState, Run.wp_gets_bind]
    simp only [hb]
    refine Wp.bind_ok (wp_fetch hts h.books (h.blobData hinj hb hi) ⟨_, rfl, ?_⟩)
    refine Wp.bind_ok (wp_tempWrite h.opened ⟨_, rfl, ?_⟩)
    rw [setState, Run.wp_modify_bind]
    refine (ih (h.loadOne hcs hb) hn' fun j hj => ?_).mono ?_
    · obtain ⟨hj₁, hj₂⟩ := his j (List.mem_cons_of_mem _ hj)
      refine ⟨hj₁, fun hm => ?_⟩
      obtain rfl | hm := Finset.mem_insert.mp hm
      · exact hni hj
      · exact hj₂ hm
    · rintro r c' ⟨rfl, h', hst, hstore⟩
      refine ⟨rfl, h', ?_, hstore⟩
      rw [hst, List.toFinset_cons, Finset.union_insert, Finset.insert_union]

theorem ViewAt.load (h : ViewAt cs a z m c ref) (lo hi : Nat) (skip : Finset Nat) :
    Wp ts (load lo hi skip) (fun r c' => r = .ok () ∧ ViewAt cs a z m c' ref ∧
      SetLoaded c c' (c.st.loaded ∪ Finset.Ico lo (min hi c.st.base.length) \ skip)) c := by
  unfold Wb.load
  rw [getState, Run.wp_gets_bind]
  refine (h.loadEach hcs hinj hts (List.Nodup.filter _ (List.nodup_range')) ?_).mono ?_
  · intro i hi
    obtain ⟨hi, hp⟩ := List.mem_filter.mp hi
    have hp : i ∉ c.st.loaded ∧ i ∉ skip := by simpa using hp
    rw [List.mem_range'_1] at hi
    exact ⟨by omega, hp.1⟩
  · rintro r c' ⟨rfl, h', hst, hstore⟩
    have hset : c.st.loaded ∪ ((List.range' lo (min hi c.st.base.length - lo)).filter fun i =>
        i ∉ c.st.loaded ∧ i ∉ skip).toFinset =
        c.st.loaded ∪ Finset.Ico lo (min hi c.st.base.length) \ skip := by
      ext i
      simp only [Finset.mem_union, List.mem_toFinset, List.mem_filter, List.mem_range'_1,
        Finset.mem_sdiff, Finset.mem_Ico, decide_eq_true_eq]
      have hrange : (lo ≤ i ∧ i < lo + (min hi c.st.base.length - lo)) ↔
          lo ≤ i ∧ i < min hi c.st.base.length := by omega
      rw [hrange]
      tauto
    exact ⟨rfl, h', hset ▸ hst, hstore⟩

/-- `_prepare` for a read: the range is shown afterwards. -/
theorem ViewAt.prepareRead {cfg : WbConfig} (hcfg : cfg.chunkSize = cs)
    (h : ViewAt cs a z m c ref) (start fin : Nat) :
    Wp ts (prepare cfg start fin false) (fun r c' => r = .ok () ∧ ViewAt cs a z m c' ref ∧
      (∀ p, start ≤ p → p < min fin ref.length → c'.st.Valid (p / cs)) ∧
        ∃ L, SetLoaded c c' L) c := by
  unfold Wb.prepare
  rw [getState, Run.wp_gets_bind]
  dsimp only
  split
  case isTrue hcase =>
    refine Run.wp_pure.mpr ⟨rfl, h, fun p hp hp' => ?_, c.st.loaded, rfl, rfl⟩
    obtain hle | hnil := hcase
    · rw [h.size] at hle
      omega
    · exact .inl (by simp [hnil])
  case isFalse hcase =>
    rw [setState, Run.wp_modify_bind]
    have hsame : ({ c with st := { c.st with loaded := c.st.loaded ∪ ∅ } } : FileCtx Sha) = c := by
      simp
    simp only [Bool.false_eq_true, if_false]
    rw [hsame]
    refine (h.load hcs hinj hts _ _ ∅).mono ?_
    rintro r c' ⟨rfl, h', hst, hstore⟩
    refine ⟨rfl, h', fun p hp hp' => ?_, _, hst, hstore⟩
    by_cases hlt : p / cs < c.st.base.length
    · right
      rw [hst]
      rw [hcfg, h.size]
      refine Finset.mem_union_right _ (Finset.mem_sdiff.mpr ⟨Finset.mem_Ico.mpr ⟨?_, ?_⟩, by simp⟩)
      · exact Nat.div_le_div_right hp
      · have : p / cs ≤ (min fin ref.length - 1) / cs := Nat.div_le_div_right (by omega)
        omega
    · left
      rw [hst]
      exact Nat.le_of_not_lt hlt

/-- A read returns the bytes of the file. -/
theorem View.read {cfg : WbConfig} (hcfg : cfg.chunkSize = cs) (h : View cs c ref)
    (hm : c.st.materialized = true) (size offset : Nat) :
    Wp ts (read cfg size offset) (fun r c' => r = .ok (pread ref offset size) ∧
      View cs c' ref ∧ ∃ L, SetLoaded c c' L) c := by
  unfold Wb.read
  rw [getState, Run.wp_gets_bind]
  simp only [hm, if_true, h.size]
  split
  case isTrue hle =>
    refine Run.wp_pure.mpr ⟨?_, h, c.st.loaded, rfl, rfl⟩
    rw [List.eq_nil_of_length_eq_zero (show (pread ref offset size).length = 0 by
      rw [length_pread]; omega)]
  case isFalse hlt =>
    refine Wp.bind_ok ((ViewAt.prepareRead hcs hinj hts hcfg h _ _).mono ?_)
    rintro r c' ⟨rfl, h', hvalid, hL⟩
    have h' : View cs c' ref := h'
    refine ⟨(), rfl, wp_tempRead h'.opened ⟨?_, h', hL⟩⟩
    congr 1
    apply List.ext_getElem?
    intro k
    rw [getElem?_pread, getElem?_pread]
    by_cases hk : k < min (offset + size) ref.length - offset
    · rw [if_pos hk, if_pos (by omega)]
      exact h'.temp_eq (by omega) (hvalid _ (by omega) (by omega))
    · rw [if_neg hk]
      split
      · rw [List.getElem?_eq_none (by omega)]
      · rfl

/-! ## Preparing a write -/

omit hcs hinj hts in
/-- An empty range is no hole; a larger one only asks for less. -/
theorem View.at (h : View cs c ref) (a z : Nat) : ViewAt cs a z ref.length c ref :=
  { h with
    shown := fun p hp _ hv => h.shown p hp (.inr (Nat.zero_le _)) hv
    long := fun p hp _ hv => h.long p hp (.inr (Nat.zero_le _)) hv }

omit hcs hinj hts [DecidableEq Sha] [Sha256 Sha] in
theorem mem_covered {base : List (BaseChunk Sha)} {lo hi start fin i : Nat}
    (h : i ∈ covered base lo hi start fin) :
    ∃ b, base[i]? = some b ∧ start ≤ b.off ∧ b.off + b.len ≤ fin := by
  have := (Finset.mem_filter.mp h).2
  rw [Option.any_eq_true] at this
  obtain ⟨b, hb, hp⟩ := this
  exact ⟨b, hb, by simpa using hp⟩

/-- `_prepare` for a write of `[start, fin)`: chunks the write covers are taken for loaded. -/
theorem View.prepareWrite {cfg : WbConfig} (hcfg : cfg.chunkSize = cs) (h : View cs c ref)
    (start fin : Nat) :
    Wp ts (prepare cfg start fin true) (fun r c' => r = .ok () ∧
      ViewAt cs start fin ref.length c' ref ∧
        (∀ p, start ≤ p → p < min fin ref.length → c'.st.Valid (p / cs)) ∧
          ∃ L, SetLoaded c c' L) c := by
  unfold Wb.prepare
  rw [getState, Run.wp_gets_bind]
  dsimp only
  split
  case isTrue hcase =>
    refine Run.wp_pure.mpr ⟨rfl, h.at start fin, fun p hp hp' => ?_, c.st.loaded, rfl, rfl⟩
    obtain hle | hnil := hcase
    · rw [h.size] at hle
      omega
    · exact .inl (by simp [hnil])
  case isFalse hcase =>
    rw [setState, Run.wp_modify_bind]
    simp only [if_true]
    generalize hskip : covered c.st.base (start / cfg.chunkSize)
      ((min fin c.st.size - 1) / cfg.chunkSize + 1) start (min fin c.st.size) = skip
    -- a chunk of `skip` that was not loaded lies in the hole
    have hhole : ∀ p, p < ref.length → p / cs ∈ skip → p / cs ∉ c.st.loaded →
        start ≤ p ∧ p < fin := by
      intro p hp hs hl
      obtain ⟨b, hb, h₁, h₂⟩ := mem_covered (hskip ▸ hs)
      obtain ⟨hoff, -⟩ := h.base_off _ b hb
      have hlen := (h.unloaded _ b hb hl).1.1
      rw [length_chunkAt] at hlen
      have := (div_eq_iff_chunk (p := p) hcs).mp rfl
      omega
    have hvalid : ∀ p, p < ref.length → (p < start ∨ fin ≤ p) →
        ({ c.st with loaded := c.st.loaded ∪ skip } : FileState Sha).Valid (p / cs) →
        c.st.Valid (p / cs) := by
      rintro p hp hout (hv | hv)
      · exact .inl hv
      · by_cases hl : p / cs ∈ c.st.loaded
        · exact .inr hl
        · have := hhole p hp ((Finset.mem_union.mp hv).resolve_left hl) hl
          omega
    have h₁ : ViewAt cs start fin ref.length
        { c with st := { c.st with loaded := c.st.loaded ∪ skip } } ref :=
      { h.at start fin with
        unloaded := fun i b hb hi =>
          h.unloaded i b hb fun hm => hi (Finset.mem_union_left _ hm)
        shown := fun p hp hout hv =>
          h.shown p hp (.inr (Nat.zero_le _)) (hvalid p hp hout hv)
        long := fun p hp hout hv =>
          h.long p hp (.inr (Nat.zero_le _)) (hvalid p hp hout hv) }
    refine (h₁.load hcs hinj hts _ _ skip).mono ?_
    rintro r c' ⟨rfl, h', hst, hstore⟩
    refine ⟨rfl, h', fun p hp hp' => ?_, _, hst, hstore⟩
    by_cases hlt : p / cs < c.st.base.length
    · right
      rw [hst]
      by_cases hs : p / cs ∈ skip
      · exact Finset.mem_union_left _ (Finset.mem_union_right _ hs)
      · refine Finset.mem_union_right _ (Finset.mem_sdiff.mpr ⟨Finset.mem_Ico.mpr ⟨?_, ?_⟩, hs⟩)
        · rw [hcfg]
          exact Nat.div_le_div_right hp
        · have : p / cs ≤ (min fin ref.length - 1) / cs := Nat.div_le_div_right (by omega)
          rw [hcfg, h.size]
          change p / cs < min _ c.st.base.length
          omega
    · left
      rw [hst]
      exact Nat.le_of_not_lt hlt

end Load

end Tgfs
