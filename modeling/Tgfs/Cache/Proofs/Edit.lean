import Tgfs.Cache.Proofs.View

/-!
# Writing and truncating keep the view

`write` and `truncate` on a materialized state turn a view of `ref` into a view of `ref` with
the same change applied. `Clean` is carried along: chunks that are not marked as modified stay
those of the file.
-/

namespace Tgfs

open Run (Wp)
open Wb

variable {Sha : Type} [DecidableEq Sha] [Sha256 Sha] {cs a z m : Nat} {c c' : FileCtx Sha}
  {ref : Bytes}

/-- What an edit does not touch. -/
structure SameFile (c c' : FileCtx Sha) : Prop where
  store : c'.store = c.store
  ino : c'.st.ino = c.st.ino
  mat : c'.st.materialized = c.st.materialized

omit [DecidableEq Sha] [Sha256 Sha] in
theorem SetLoaded.same {L : Finset Nat} (h : SetLoaded c c' L) : SameFile c c' :=
  ⟨h.2, by rw [h.1], by rw [h.1]⟩

omit [DecidableEq Sha] [Sha256 Sha] in
theorem SameFile.trans {c₁ c₂ c₃ : FileCtx Sha} (h : SameFile c₁ c₂) (h' : SameFile c₂ c₃) :
    SameFile c₁ c₃ :=
  ⟨h'.store.trans h.store, h'.ino.trans h.ino, h'.mat.trans h.mat⟩

/-- The chunks a nonempty range meets. -/
theorem mem_touched (hcs : 0 < cs) {off fin i : Nat} (h : off < fin) :
    i ∈ Finset.Ico (off / cs) ((fin - 1) / cs + 1) ↔ off < i * cs + cs ∧ i * cs < fin := by
  rw [Finset.mem_Ico, Nat.lt_succ_iff, Nat.le_div_iff_mul_le hcs, ← Nat.lt_succ_iff,
    Nat.succ_eq_add_one, Nat.div_lt_iff_lt_mul hcs, Nat.add_mul, Nat.one_mul]
  omega

section Edit

variable {ts : Nat → Tick} (hcs : 0 < cs) (hinj : Function.Injective (sha256 : Bytes → Sha))
  (hts : ∀ n, (ts n).Quiet False)
include hcs hinj hts

/-- `touch` loads a base chunk before it marks it. -/
theorem ViewAt.touch (h : ViewAt cs a z m c ref) {b : Nat} (hb : b < c.st.base.length) :
    Wp ts (touch b) (fun r c' => r = .ok () ∧ ViewAt cs a z m c' ref ∧
      ∃ L, b ∈ L ∧ c.st.loaded ⊆ L ∧
        c'.st = { c.st with loaded := L, dirtyIdx := insert b c.st.dirtyIdx } ∧
          c'.store = c.store) c := by
  unfold Wb.touch
  refine Wp.bind_ok ((h.load hcs hinj hts b (b + 1) ∅).mono ?_)
  rintro r c₁ ⟨rfl, h₁, hst, hstore⟩
  refine ⟨(), rfl, wp_setState.mpr ⟨rfl, ?_, c₁.st.loaded, ?_, ?_, by rw [hst], hstore⟩⟩
  · have hbL : b ∈ c₁.st.loaded := by
      rw [hst]
      refine Finset.mem_union_right _ (Finset.mem_sdiff.mpr ⟨Finset.mem_Ico.mpr ?_, by simp⟩)
      omega
    refine { h₁ with unloaded := fun i b' hb' hi => ?_ }
    obtain ⟨hgood, hd⟩ := h₁.unloaded i b' hb' hi
    refine ⟨hgood, fun hm => ?_⟩
    obtain rfl | hm := Finset.mem_insert.mp hm
    · exact hi hbL
    · exact hd hm
  · rw [hst]
    refine Finset.mem_union_right _ (Finset.mem_sdiff.mpr ⟨Finset.mem_Ico.mpr ?_, by simp⟩)
    omega
  · rw [hst]
    exact Finset.subset_union_left

omit hts hinj hcs in
/-- Growing the logical size, once a partial last chunk is loaded. -/
theorem ViewAt.setSize (h : ViewAt cs a z m c ref) {n : Nat} (hn : ref.length ≤ n)
    (htail : ∀ i, i < c.st.base.length → i ∉ c.st.loaded → i * cs + cs ≤ ref.length) :
    ViewAt cs a z m { c with st := { c.st with size := n } } (resize ref n) := by
  have hlen : (resize ref n).length = n := length_resize ref n
  refine { h with size := ?_, temp_le := ?_, m_le := ?_, base_off := ?_, unloaded := ?_,
                  shown := ?_ }
  · exact hlen.symm
  · rw [hlen]
    exact h.temp_le.trans hn
  · rw [hlen]
    exact h.m_le.trans hn
  · intro i b hb
    obtain ⟨h₁, h₂⟩ := h.base_off i b hb
    exact ⟨h₁, by rw [hlen]; omega⟩
  · intro i b hb hi
    obtain ⟨hgood, hd⟩ := h.unloaded i b hb hi
    have := htail i (List.getElem?_eq_some_iff.mp hb).1 hi
    exact ⟨hgood.congr (chunkAt_resize this (by omega)), hd⟩
  · intro p hp hout hv
    rw [hlen] at hp
    rw [getElem?_resize, if_pos hp, Option.getD_some]
    by_cases hlt : p < ref.length
    · exact h.shown p hlt hout hv
    · have := h.temp_le
      rw [List.getElem?_eq_none (l := c.temp) (by omega),
        List.getElem?_eq_none (l := ref) (by omega)]

/-- What `_grow` does to the marks. -/
structure Grown (cs : Nat) (ref : Bytes) (n : Nat) (c c' : FileCtx Sha) : Prop where
  same : SameFile c c'
  base : c'.st.base = c.st.base
  loaded : c.st.loaded ⊆ c'.st.loaded
  dirtyIdx : c.st.dirtyIdx ⊆ c'.st.dirtyIdx
  tail : ref.length < n → ∀ i, i < c.st.base.length →
    i ∉ c'.st.loaded ∨ i ∉ c'.st.dirtyIdx → i * cs + cs ≤ ref.length

theorem ViewAt.grow {cfg : WbConfig} (hcfg : cfg.chunkSize = cs) (h : ViewAt cs a z m c ref)
    (n : Nat) :
    Wp ts (grow cfg n) (fun r c' => r = .ok () ∧
      ViewAt cs a z m c' (resize ref (max ref.length n)) ∧ Grown cs ref n c c') c := by
  unfold Wb.grow
  rw [getState, Run.wp_gets_bind]
  simp only [h.size, hcfg]
  split
  case isTrue hle =>
    have hself : resize ref ref.length = ref := by
      unfold resize
      simp
    rw [Nat.max_eq_left hle, hself]
    exact Run.wp_pure.mpr ⟨rfl, h, ⟨rfl, rfl, rfl⟩, rfl, subset_rfl, subset_rfl,
      fun hlt => absurd hle (Nat.not_le_of_lt hlt)⟩
  case isFalse hlt =>
    have hle : ref.length ≤ n := by omega
    rw [Nat.max_eq_right hle]
    -- a base chunk begins inside the file, so only the last one can reach beyond its end
    have hbase : ∀ i, i < c.st.base.length → i * cs < ref.length := fun i hi =>
      (h.base_off i _ (List.getElem?_eq_getElem hi)).2
    have hdiv := Nat.div_add_mod ref.length cs
    have hmod := Nat.mod_lt ref.length hcs
    have hi_le : ∀ i, i < c.st.base.length → i ≤ ref.length / cs := fun i hi =>
      (Nat.le_div_iff_mul_le hcs).mpr (Nat.le_of_lt (hbase i hi))
    have hfull : ∀ i, i < ref.length / cs → i * cs + cs ≤ ref.length := by
      intro i hi
      have : (i + 1) * cs ≤ ref.length := (Nat.le_div_iff_mul_le hcs).mp hi
      rwa [Nat.succ_mul] at this
    split
    case isTrue hcase =>
      obtain ⟨-, -, hlen⟩ := hcase
      have hlast : c.st.base.length - 1 < c.st.base.length := by
        rw [hlen]
        exact Nat.lt_succ_self _
      refine Wp.bind_ok ((ViewAt.touch hcs hinj hts h hlast).mono ?_)
      rintro r c₁ ⟨rfl, h₁, L, hbL, hsub, hst, hstore⟩
      refine ⟨(), rfl, wp_setState.mpr ⟨rfl, ?_, ⟨hstore, by rw [hst], by rw [hst]⟩,
        by rw [hst], ?_, ?_, ?_⟩⟩
      · refine h₁.setSize hle fun i hi hiL => ?_
        rw [hst] at hi hiL
        have hne : i ≠ c.st.base.length - 1 := fun he => hiL (he ▸ hbL)
        have : i < c.st.base.length := hi
        exact hfull i (by omega)
      · rw [hst]
        exact hsub
      · rw [hst]
        exact Finset.subset_insert _ _
      · intro _ i hi hor
        rw [hst] at hor
        have hne : i ≠ c.st.base.length - 1 := by
          rintro rfl
          obtain hor | hor := hor
          · exact hor hbL
          · exact hor (Finset.mem_insert_self _ _)
        exact hfull i (by omega)
    case isFalse hcase =>
      have htail : ∀ i, i < c.st.base.length → i * cs + cs ≤ ref.length := by
        intro i hi
        by_cases hz : ref.length % cs = 0
        · refine hfull i (lt_of_le_of_ne (hi_le i hi) ?_)
          rintro rfl
          have := hbase _ hi
          rw [Nat.mul_comm] at this
          omega
        · have hne : c.st.base ≠ [] := List.ne_nil_of_length_pos (by omega)
          have : c.st.base.length ≠ ref.length / cs + 1 := fun he => hcase ⟨hne, hz, he⟩
          have := hi_le (c.st.base.length - 1) (by omega)
          exact hfull i (by omega)
      rw [wp_setState]
      exact ⟨rfl, h.setSize hle fun i hi _ => htail i hi, ⟨rfl, rfl, rfl⟩, rfl, subset_rfl,
        subset_rfl, fun _ i hi _ => htail i hi⟩

/-! ## Writing -/

omit hts hinj in
/-- The physical write, once the file is long enough and every base chunk that the range meets
is loaded. -/
theorem ViewAt.tempWrite {off : Nat} {data : Bytes} (hd : data ≠ [])
    (h : ViewAt cs off (off + data.length) m c ref)
    (hlen : ref.length = max m (off + data.length))
    (hmeet : ∀ i, i < c.st.base.length → i ∉ c.st.loaded →
      i * cs + cs ≤ off ∨ off + data.length ≤ i * cs) :
    View cs
      { c with
        temp := pwrite c.temp off data
        st := { c.st with
          dirtyIdx := c.st.dirtyIdx ∪
            Finset.Ico (off / cs) ((off + data.length - 1) / cs + 1)
          dirty := true } } (pwrite ref off data) := by
  have hdl := List.length_pos_iff.mpr hd
  have hin : off + data.length ≤ ref.length := by omega
  have hlen' : (pwrite ref off data).length = ref.length := by
    rw [length_pwrite hd]
    omega
  refine { h with size := ?_, temp_le := ?_, m_le := ?_, base_off := ?_, unloaded := ?_,
                  shown := ?_, long := ?_ }
  · rw [hlen']
    exact h.size
  · rw [hlen', length_pwrite hd]
    have := h.temp_le
    omega
  · exact le_rfl
  · rw [hlen']
    exact h.base_off
  · intro i b hb hi
    obtain ⟨hgood, hdirty⟩ := h.unloaded i b hb hi
    have hm := hmeet i (List.getElem?_eq_some_iff.mp hb).1 hi
    refine ⟨hgood.congr (chunkAt_pwrite hd hin hm), fun hmem => ?_⟩
    obtain hmem | hmem := Finset.mem_union.mp hmem
    · exact hdirty hmem
    · rw [mem_touched hcs (by omega)] at hmem
      omega
  · intro p hp _ hv
    rw [hlen'] at hp
    rw [getElem?_pwrite hd, getElem?_pwrite hd]
    by_cases h₁ : p < off
    · rw [if_pos h₁, if_pos h₁]
      simpa using h.shown p hp (.inl h₁) hv
    · rw [if_neg h₁, if_neg h₁]
      by_cases h₂ : p < off + data.length
      · rw [if_pos h₂, if_pos h₂]
      · rw [if_neg h₂, if_neg h₂]
        exact h.shown p hp (.inr (by omega)) hv
  · intro p hp _ hv
    rw [hlen'] at hp
    rw [length_pwrite hd]
    by_cases h₂ : p < off + data.length
    · omega
    · have := h.long p (by omega) (.inr (by omega)) hv
      omega

omit hts hinj [DecidableEq Sha] in
/-- Chunks that a write inside the file does not mark are unchanged. -/
theorem Clean.write {st st' : FileState Sha} {off : Nat} {data : Bytes} (hd : data ≠ [])
    (h : Clean cs st ref) (hbase : st'.base = st.base)
    (hdirty : st'.dirtyIdx = st.dirtyIdx ∪
      Finset.Ico (off / cs) ((off + data.length - 1) / cs + 1))
    (hin : off + data.length ≤ ref.length) : Clean cs st' (pwrite ref off data) := by
  intro i b hb hi
  have hdl := List.length_pos_iff.mpr hd
  rw [hdirty, Finset.mem_union, mem_touched hcs (by omega)] at hi
  push Not at hi
  refine (h i b (hbase ▸ hb) hi.1).congr (chunkAt_pwrite hd hin ?_)
  by_contra hno
  push Not at hno
  have := hi.2 hno.1
  omega

omit hts hinj hcs [DecidableEq Sha] in
theorem Clean.grow {st st' : FileState Sha} {n : Nat} (h : Clean cs st ref)
    (hn : ref.length ≤ n) (hbase : st'.base = st.base) (hsub : st.dirtyIdx ⊆ st'.dirtyIdx)
    (htail : ref.length < n → ∀ i, i < st.base.length → i ∉ st'.dirtyIdx →
      i * cs + cs ≤ ref.length) : Clean cs st' (resize ref n) := by
  intro i b hb hi
  rw [hbase] at hb
  have hgood := h i b hb fun hm => hi (hsub hm)
  obtain he | hlt := Nat.eq_or_lt_of_le hn
  · subst he
    have hself : resize ref ref.length = ref := by
      unfold resize
      simp
    rw [hself]
    exact hgood
  · have := htail hlt i (List.getElem?_eq_some_iff.mp hb).1 hi
    exact hgood.congr (chunkAt_resize this (by omega))

/-- What an edit leaves: the view of the new content, with the state marked as modified. -/
structure Edited (cs : Nat) (c c' : FileCtx Sha) (ref ref' : Bytes) : Prop where
  view : View cs c' ref'
  clean : Clean cs c.st ref → Clean cs c'.st ref'
  dirty : c'.st.dirty = true
  same : SameFile c c'

omit hts hinj hcs in
theorem materialize_noop {cfg : WbConfig} (hm : c.st.materialized = true)
    {Q : Except (PyErr Sha) Unit → FileCtx Sha → Prop} (h : Q (.ok ()) c) :
    Wp ts (materialize cfg) Q c := by
  unfold Wb.materialize
  rw [getState, Run.wp_gets_bind, hm]
  exact Run.wp_pure.mpr h

/-- `write` of nonempty data. -/
theorem View.write {cfg : WbConfig} (hcfg : cfg.chunkSize = cs) (h : View cs c ref)
    (hm : c.st.materialized = true) {data : Bytes} (hd : data ≠ []) (offset : Nat) :
    Wp ts (write cfg data offset) (fun r c' => r = .ok data.length ∧
      Edited cs c c' ref (pwrite ref offset data) ∧ c'.st.base = c.st.base ∧
        c.st.dirtyIdx ⊆ c'.st.dirtyIdx) c := by
  have hdl := List.length_pos_iff.mpr hd
  unfold Wb.write
  refine Wp.bind_ok (materialize_noop hm ⟨(), rfl, ?_⟩)
  refine Wp.bind_ok ((View.prepareWrite hcs hinj hts hcfg h _ _).mono ?_)
  rintro r c₂ ⟨rfl, h₂, hvalid, L, hst₂, hstore₂⟩
  refine ⟨(), rfl, Wp.bind_ok ((ViewAt.grow hcs hinj hts hcfg h₂ _).mono ?_)⟩
  rintro r c₃ ⟨rfl, h₃, hg⟩
  refine ⟨(), rfl, Wp.bind_ok (wp_tempWrite h₃.opened ⟨(), rfl, ?_⟩)⟩
  have hbase₂ : c₂.st.base = c.st.base := by rw [hst₂]
  have hlen₃ : (resize ref (max ref.length (offset + data.length))).length =
      max ref.length (offset + data.length) := length_resize _ _
  have hview := h₃.tempWrite hcs hd hlen₃ fun i hi hiL => by
    by_contra hno
    push Not at hno
    rw [hg.base] at hi
    -- a position of chunk `i` in the range
    obtain ⟨p, hp₁, hp₂, hpi⟩ : ∃ p, offset ≤ p ∧ p < offset + data.length ∧ p / cs = i :=
      ⟨max offset (i * cs), by omega, by omega, (div_eq_iff_chunk hcs).mpr (by omega)⟩
    by_cases hlt : p < ref.length
    · obtain hv | hv := hvalid p hp₁ (by omega)
      · omega
      · exact hiL (hg.loaded (hpi ▸ hv))
    · have := hg.tail (by omega) i hi (.inl hiL)
      have := (div_eq_iff_chunk hcs).mp hpi
      omega
  rw [pwrite_resize hd] at hview
  dsimp only
  rw [setState, Run.wp_modify_bind, Run.wp_pure, hcfg, if_neg hd]
  have hdirty₂ : c.st.dirtyIdx ⊆ c₃.st.dirtyIdx := by
    have := hg.dirtyIdx
    rwa [hst₂] at this
  refine ⟨rfl, ⟨hview, fun hclean => ?_, rfl, ?_⟩, hg.base.trans hbase₂,
    hdirty₂.trans Finset.subset_union_left⟩
  · have hclean₃ : Clean cs c₃.st (resize ref (max ref.length (offset + data.length))) := by
      refine Clean.grow (show Clean cs c.st ref from hclean) (Nat.le_max_left _ _) (hg.base.trans hbase₂) hdirty₂ ?_
      · intro hlt i hi hdi
        exact hg.tail (by omega) i (by rw [hbase₂]; exact hi) (.inr hdi)
    have hclean₄ : Clean cs
        { c₃.st with
          dirtyIdx := c₃.st.dirtyIdx ∪
            Finset.Ico (offset / cs) ((offset + data.length - 1) / cs + 1)
          dirty := true }
        (pwrite (resize ref (max ref.length (offset + data.length))) offset data) :=
      hclean₃.write hcs hd rfl rfl (by rw [hlen₃]; omega)
    rwa [pwrite_resize hd] at hclean₄
  · have h₁ : SameFile c c₂ := SetLoaded.same ⟨hst₂, hstore₂⟩
    have h₃ := h₁.trans hg.same
    exact ⟨h₃.store, h₃.ino, h₃.mat⟩

/-! ## Truncating -/

/-- The state after `shrink`, from one in which a partial last chunk has been touched. -/
def cut (cs length : Nat) (st : FileState Sha) : FileState Sha :=
  { st with
    base := st.base.take (chunkCount cs length)
    loaded := st.loaded.filter (· < chunkCount cs length)
    dirtyIdx := st.dirtyIdx.filter (· < chunkCount cs length)
    size := length }

omit hts hinj [DecidableEq Sha] [Sha256 Sha] in
/-- A chunk that is kept is untouched, or it is the partial last one. -/
theorem kept_chunk {length i : Nat} (hle : length ≤ ref.length) (hi : i < chunkCount cs length)
    (hpart : length % cs ≠ 0 → i ≠ length / cs) :
    chunkAt cs (resize ref length) i = chunkAt cs ref i := by
  have hlt := (lt_chunkCount hcs).mp hi
  have hfull : i * cs + cs ≤ length := by
    by_contra hno
    have hdiv : length / cs = i := (div_eq_iff_chunk hcs).mpr (by omega)
    refine hpart (fun hz => ?_) hdiv.symm
    have := Nat.div_add_mod length cs
    rw [hdiv, hz, Nat.mul_comm] at this
    omega
  exact chunkAt_resize (by omega) hfull

omit hts hinj in
theorem View.cut (h : View cs c ref) {length : Nat} (hlt : length < ref.length)
    (hpart : length % cs ≠ 0 → length / cs < c.st.base.length → length / cs ∈ c.st.loaded) :
    View cs { c with temp := resize c.temp length, st := cut cs length c.st }
      (resize ref length) := by
  have hlen : (resize ref length).length = length := length_resize _ _
  have hbase : ∀ (i : Nat) (b : BaseChunk Sha), (c.st.base.take (chunkCount cs length))[i]? = some b →
      i < chunkCount cs length ∧ c.st.base[i]? = some b := by
    intro i b hb
    rw [List.getElem?_take] at hb
    split at hb
    · exact ⟨by assumption, hb⟩
    · cases hb
  have hvalid : ∀ p, p < length → (Tgfs.cut cs length c.st).Valid (p / cs) → c.st.Valid (p / cs) := by
    rintro p hp (hv | hv)
    · have := div_lt_chunkCount hcs hp
      have hv : (c.st.base.take (chunkCount cs length)).length ≤ p / cs := hv
      rw [List.length_take] at hv
      exact .inl (by omega)
    · exact .inr (Finset.mem_filter.mp hv).1
  refine { h with size := hlen.symm, temp_le := ?_, m_le := le_rfl, base_off := ?_,
                  base_row := ?_, unloaded := ?_, shown := ?_, long := ?_ }
  · rw [hlen, length_resize]
  · intro i b hb
    obtain ⟨hi, hb⟩ := hbase i b hb
    exact ⟨(h.base_off i b hb).1, by rw [hlen]; exact (lt_chunkCount hcs).mp hi⟩
  · exact fun i b hb => h.base_row i b (hbase i b hb).2
  · intro i b hb hi
    obtain ⟨hik, hb⟩ := hbase i b hb
    have hi' : i ∉ c.st.loaded := fun hm => hi (Finset.mem_filter.mpr ⟨hm, hik⟩)
    obtain ⟨hgood, hd⟩ := h.unloaded i b hb hi'
    refine ⟨hgood.congr (kept_chunk hcs (Nat.le_of_lt hlt) hik fun hz he => ?_),
      fun hm => hd (Finset.mem_filter.mp hm).1⟩
    subst he
    exact hi' (hpart hz (List.getElem?_eq_some_iff.mp hb).1)
  · intro p hp _ hv
    rw [hlen] at hp
    rw [getElem?_resize, if_pos hp, getElem?_resize, if_pos hp]
    exact h.shown p (by omega) (.inr (Nat.zero_le _)) (hvalid p hp hv)
  · intro p hp _ _
    rw [hlen] at hp
    simpa using hp

omit hts hinj [DecidableEq Sha] in
theorem Clean.cut {st : FileState Sha} (h : Clean cs st ref) {length : Nat}
    (hlt : length < ref.length)
    (hpart : length % cs ≠ 0 → length / cs < st.base.length → length / cs ∈ st.dirtyIdx) :
    Clean cs (cut cs length st) (resize ref length) := by
  intro i b hb hi
  have hb : (st.base.take (chunkCount cs length))[i]? = some b := hb
  rw [List.getElem?_take] at hb
  split at hb
  case isFalse => cases hb
  case isTrue hik =>
    have hi' : i ∉ st.dirtyIdx := fun hm => hi (Finset.mem_filter.mpr ⟨hm, hik⟩)
    refine (h i b hb hi').congr (kept_chunk hcs (Nat.le_of_lt hlt) hik fun hz he => ?_)
    subst he
    exact hi' (hpart hz (List.getElem?_eq_some_iff.mp hb).1)

theorem View.shrink {cfg : WbConfig} (hcfg : cfg.chunkSize = cs) (h : View cs c ref)
    (length : Nat) :
    Wp ts (shrink cfg length) (fun r c' => r = .ok () ∧ ∃ c₁, View cs c₁ ref ∧
      (Clean cs c.st ref → Clean cs c₁.st ref) ∧ SameFile c c₁ ∧
      (length % cs ≠ 0 → length / cs < c₁.st.base.length →
        length / cs ∈ c₁.st.loaded ∧ length / cs ∈ c₁.st.dirtyIdx) ∧
      c' = { c₁ with st := Tgfs.cut cs length c₁.st }) c := by
  unfold Wb.shrink
  rw [getState, Run.wp_gets_bind]
  dsimp only
  rw [hcfg]
  split
  case isTrue hcase =>
    refine Wp.bind_ok ((ViewAt.touch hcs hinj hts h hcase.2).mono ?_)
    rintro r c₁ ⟨rfl, h₁, L, hbL, hsub, hst, hstore⟩
    refine ⟨(), rfl, wp_setState.mpr ⟨rfl, c₁, h₁, fun hc i b hb hi => ?_,
      ⟨hstore, by rw [hst], by rw [hst]⟩,
      fun _ _ => ?_, rfl⟩⟩
    · rw [hst] at hb hi
      exact hc i b hb fun hm => hi (Finset.mem_insert_of_mem hm)
    · rw [hst]
      exact ⟨hbL, Finset.mem_insert_self _ _⟩
  case isFalse hcase =>
    rw [wp_setState]
    exact ⟨rfl, c, h, fun hc => hc, ⟨rfl, rfl, rfl⟩, fun hz hb => absurd ⟨hz, hb⟩ hcase, rfl⟩

/-- `truncate`. -/
theorem View.truncate {cfg : WbConfig} (hcfg : cfg.chunkSize = cs) (h : View cs c ref)
    (hm : c.st.materialized = true) (length : Nat) :
    Wp ts (truncate cfg length) (fun r c' => r = .ok () ∧
      Edited cs c c' ref (resize ref length)) c := by
  unfold Wb.truncate
  refine Wp.bind_ok (materialize_noop hm ⟨(), rfl, ?_⟩)
  rw [getState, Run.wp_gets_bind, h.size]
  split
  case isTrue hlt =>
    refine Wp.bind_ok ((View.shrink hcs hinj hts hcfg h length).mono ?_)
    rintro r c' ⟨rfl, c₁, h₁, hclean, hsame, hpart, rfl⟩
    refine ⟨(), rfl, Wp.bind_ok (wp_tempTruncate h₁.opened ⟨(), rfl, wp_setState.mpr ⟨rfl, ?_⟩⟩)⟩
    have hview := h₁.cut hcs hlt fun hz hb => (hpart hz hb).1
    exact ⟨{ hview with }, fun hc => (hclean hc).cut hcs hlt fun hz hb => (hpart hz hb).2, rfl,
      hsame.store, hsame.ino, hsame.mat⟩
  case isFalse hge =>
    have hmax : max ref.length length = length := by omega
    refine Wp.bind_ok ((ViewAt.grow hcs hinj hts hcfg h length).mono ?_)
    rintro r c₁ ⟨rfl, h₁, hg⟩
    rw [hmax] at h₁
    refine ⟨(), rfl, Wp.bind_ok (wp_tempTruncate h₁.opened ⟨(), rfl, wp_setState.mpr ⟨rfl, ?_⟩⟩)⟩
    have hlen : (resize ref length).length = length := length_resize _ _
    refine ⟨{ h₁ with temp_le := ?_, m_le := le_rfl, shown := ?_, long := ?_ }, fun hc => ?_, rfl,
      hg.same.store, hg.same.ino, hg.same.mat⟩
    · rw [hlen, length_resize]
    · intro p hp hout hv
      rw [getElem?_resize, if_pos (by omega)]
      exact h₁.shown p hp hout hv
    · intro p hp _ _
      rw [length_resize]
      omega
    · exact Clean.grow hc (by omega) hg.base hg.dirtyIdx fun hlt i hi hd =>
        hg.tail hlt i hi (.inr hd)

end Edit

end Tgfs
