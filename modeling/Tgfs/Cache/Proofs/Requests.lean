import Tgfs.Cache.Proofs.Holes
import Tgfs.Cache.Requests
import Tgfs.Store.Proofs.Dedup

/-!
# What is transferred at most once

A base chunk that is not loaded may still be requested. `_load` marks what it requested, a flush
marks what it stored, and dropping chunks from the end drops marks and chunks alike, so that what
may be requested only gets less along a run.
-/

namespace Tgfs

open Run (Wp Leads quiet note)
open Wb

variable {Sha : Type}

/-- What may be asked for in write mode. -/
def FileState.MayAsk (st : FileState Sha) : Ask Sha → Prop
  | .chunk i b => st.base[i]? = some b ∧ i ∉ st.loaded
  | .range _ _ => False
  | .upload _ => True

/-- What may be asked for. Before the state is in write mode that is any stored chunk. -/
def FileCtx.MayAsk (c : FileCtx Sha) (x : Ask Sha) : Prop :=
  if c.st.materialized then c.st.MayAsk x
  else match x with
    | .chunk i b => ((c.store.index.getChunks c.st.ino).map BaseChunk.ofRow)[i]? = some b
    | _ => True

theorem FileCtx.mayAsk_iff {c : FileCtx Sha} (h : c.st.materialized = true) {x : Ask Sha} :
    c.MayAsk x ↔ c.st.MayAsk x := by
  unfold FileCtx.MayAsk
  rw [if_pos h]

/-- No chunk is requested twice, and what was uploaded is not downloaded afterwards. -/
def Ask.Apart [Sha256 Sha] : Ask Sha → Ask Sha → Prop
  | .chunk i _, .chunk j _ => i ≠ j
  | .upload data, .chunk _ b => b.sha ≠ sha256 data
  | .upload _, .range _ _ => False
  | _, _ => True

namespace Asking

variable [Sha256 Sha]

/-- A step in write mode that uploads nothing. -/
def Went (s s' : FileCtx Sha × List (Ask Sha)) : Prop :=
  s'.1.st.materialized = s.1.st.materialized ∧
    ∃ new, s'.2 = s.2 ++ new ∧ (∀ data, .upload data ∉ new) ∧
      Accrues FileState.MayAsk Ask.Apart s.1.st s'.1.st new

theorem Went.refl (s : FileCtx Sha × List (Ask Sha)) : Went s s :=
  ⟨rfl, [], by simp, by simp, .silent fun _ h => h⟩

theorem Went.trans {s₁ s₂ s₃ : FileCtx Sha × List (Ask Sha)} (h : Went s₁ s₂) (h' : Went s₂ s₃) :
    Went s₁ s₃ := by
  obtain ⟨hm, new, he, hu, ha⟩ := h
  obtain ⟨hm', new', he', hu', ha'⟩ := h'
  refine ⟨hm'.trans hm, new ++ new', by rw [he', he, List.append_assoc], fun data hm => ?_, ha.trans ha'⟩
  rcases List.mem_append.mp hm with hm | hm
  · exact hu data hm
  · exact hu' data hm

theorem went_bind {α β : Type} {m : AskRun Sha α} {g : α → AskRun Sha β} (hm : Leads Went m)
    (hg : ∀ a, Leads Went (g a)) : Leads Went (m >>= g) :=
  Leads.bind (R := Went) Went.trans hm hg

/-- No more may be asked for. -/
def Less (c c' : FileCtx Sha) : Prop :=
  c'.st.materialized = c.st.materialized ∧ ∀ x, c'.st.MayAsk x → c.st.MayAsk x

theorem leads_quiet {α : Type} {m : FileRun Sha α} (h : Leads Less m) : Leads Went (quiet m) := by
  intro ts n s a n' s' hr
  have hm : m ts n s.1 = (.ok a, n', s'.1) := by
    rw [Run.erases_quiet m ts n s, hr]
  have hnotes : s'.2 = s.2 := by
    have : (quiet m ts n s).2.2.2 = s.2 := rfl
    rw [← this, hr]
  obtain ⟨hmat, hless⟩ := h ts n s.1 a n' s'.1 hm
  exact ⟨hmat, [], by simp [hnotes], by simp, .silent hless⟩

omit [Sha256 Sha] in
/-- Code that changes no state. -/
theorem leads_keeps {α : Type} {m : FileRun Sha α} (h : Run.Keeps FileCtx.st m) : Leads Less m := by
  intro ts n c a n' c' hr
  have hst : c'.st = c.st := by
    rw [← h ts n c, hr]
  exact ⟨by rw [hst], fun x hx => hst ▸ hx⟩

omit [Sha256 Sha] in
theorem leads_setState {f : FileState Sha → FileState Sha}
    (hm : ∀ st, (f st).materialized = st.materialized)
    (h : ∀ st x, (f st).MayAsk x → st.MayAsk x) : Leads Less (setState f : FileRun Sha Unit) :=
  Run.leads_modify fun c => ⟨hm c.st, fun x => h c.st x⟩

theorem went_gets {α : Type} (g : FileCtx Sha → α) :
    Leads Went (quiet (Run.gets g) : AskRun Sha α) :=
  leads_quiet (leads_keeps (Run.keeps_gets g))

variable [DecidableEq Sha]

/-! ## The parts of the operations -/

/-- What `_load` needed is marked when it returns. -/
theorem loadEach_marks {ts : Nat → Tick} {c : FileCtx Sha} {is : List Nat}
    (his : ∀ i ∈ is, i < c.st.base.length) :
    Wp ts (loadEach is) (fun r c' => ∀ a, r = .ok a →
      ∃ L, c'.st = { c.st with loaded := L } ∧ c.st.loaded ⊆ L ∧ ∀ i ∈ is, i ∈ L) c := by
  induction is generalizing c with
  | nil => exact Run.wp_pure.mpr fun a _ => ⟨c.st.loaded, rfl, fun _ h => h, by simp⟩
  | cons i is ih =>
    have hb := List.getElem?_eq_getElem (his i List.mem_cons_self)
    unfold Wb.loadEach
    rw [getState, Run.wp_gets_bind]
    simp only [hb]
    refine Wp.bind_partial (wp_call fun n data _ => ?_)
    refine Wp.bind_partial ((keeps_tempWrite (f := FileCtx.st) (fun _ _ => rfl) _ _).wp.mono
      fun r c₁ hst u _ => ?_)
    rw [setState, Run.wp_modify_bind]
    have hbase : c₁.st = c.st := hst
    have his' : ∀ j ∈ is, j < ({ c₁ with st := { c₁.st with loaded := insert i c₁.st.loaded } } :
        FileCtx Sha).st.base.length := by
      intro j hj
      rw [hbase]
      exact his j (List.mem_cons_of_mem _ hj)
    refine (ih his').mono fun r c' h a ha => ?_
    obtain ⟨L, hL, hsub, hmem⟩ := h a ha
    simp only [hbase] at hL hsub
    refine ⟨L, hL, (Finset.subset_insert _ _).trans hsub, fun j hj => ?_⟩
    rcases List.mem_cons.mp hj with rfl | hj
    · exact hsub (Finset.mem_insert_self _ _)
    · exact hmem j hj

omit [Sha256 Sha] [DecidableEq Sha] in
theorem mem_need {st : FileState Sha} {lo hi : Nat} {skip : Finset Nat} {i : Nat}
    (h : i ∈ need st lo hi skip) : i < st.base.length ∧ i ∉ st.loaded ∧ i ∉ skip := by
  obtain ⟨hi, hp⟩ := List.mem_filter.mp h
  rw [List.mem_range'_1] at hi
  have hp : i ∉ st.loaded ∧ i ∉ skip := by simpa using hp
  exact ⟨by omega, hp⟩

omit [Sha256 Sha] [DecidableEq Sha] in
theorem mem_asked {st : FileState Sha} {lo hi : Nat} {skip : Finset Nat} {x : Ask Sha}
    (h : x ∈ asked st lo hi skip) :
    ∃ i b, x = .chunk i b ∧ i ∈ need st lo hi skip ∧ st.base[i]? = some b := by
  obtain ⟨i, hi, hx⟩ := List.mem_filterMap.mp h
  obtain ⟨b, hb, rfl⟩ := Option.map_eq_some_iff.mp hx
  exact ⟨i, b, rfl, hi, hb⟩

theorem went_load (lo hi : Nat) (skip : Finset Nat) :
    Leads Went (load lo hi skip : AskRun Sha Unit) := by
  intro ts n s a n' s' hr
  have hload : Wb.load lo hi skip ts n s.1 = (.ok a, n', s'.1) := by
    rw [erases_load lo hi skip ts n s, hr]
  have hnotes : s'.2 = s.2 ++ asked s.1.st lo hi skip := by
    have : (load lo hi skip ts n s).2.2.2 = s.2 ++ asked s.1.st lo hi skip := rfl
    rw [← this, hr]
  have hmarks : Wp ts (loadEach (need s.1.st lo hi skip)) _ s.1 :=
    loadEach_marks fun i hi => (mem_need hi).1
  replace hmarks := hmarks n a
  change loadEach (need s.1.st lo hi skip) ts n s.1 = _ at hload
  rw [hload] at hmarks
  obtain ⟨L, hst, hsub, hmem⟩ := hmarks rfl
  refine ⟨by rw [hst], _, hnotes, fun data hx => ?_, ⟨fun x hx => ?_, fun x hx => ?_, fun x hx y hy => ?_, ?_⟩⟩
  · obtain ⟨i, b, hx, -⟩ := mem_asked hx
    cases hx
  · obtain ⟨i, b, rfl, hi, hb⟩ := mem_asked hx
    exact ⟨hb, (mem_need hi).2.1⟩
  · rw [hst] at hx
    cases x with
    | chunk i b => exact ⟨hx.1, fun h => hx.2 (hsub h)⟩
    | range _ _ => exact hx
    | upload _ => trivial
  · obtain ⟨i, b, rfl, hi, hb⟩ := mem_asked hx
    rw [hst] at hy
    cases y with
    | chunk j b' =>
      rintro rfl
      exact hy.2 (hmem i hi)
    | range _ _ | upload _ => trivial
  · apply List.pairwise_filterMap.mpr
    apply List.Pairwise.imp _ (List.Nodup.filter _ List.nodup_range')
    intro i j hij x hx y hy
    obtain ⟨b, -, rfl⟩ := Option.map_eq_some_iff.mp hx
    obtain ⟨b', -, rfl⟩ := Option.map_eq_some_iff.mp hy
    exact hij

omit [DecidableEq Sha] in
theorem went_mark (skip : Finset Nat) :
    Leads Went (quiet (setState fun st => { st with loaded := st.loaded ∪ skip }) : AskRun Sha Unit) := by
  refine leads_quiet (leads_setState (fun _ => rfl) fun st x hx => ?_)
  cases x with
  | chunk i b => exact ⟨hx.1, fun h => hx.2 (Finset.mem_union_left _ h)⟩
  | range _ _ => exact hx
  | upload _ => trivial

omit [DecidableEq Sha] in
/-- A change of fields that a request does not depend on. -/
theorem went_aside {f : FileState Sha → FileState Sha} (hbase : ∀ st, (f st).base = st.base)
    (hloaded : ∀ st, (f st).loaded = st.loaded) (hm : ∀ st, (f st).materialized = st.materialized) :
    Leads Went (quiet (setState f) : AskRun Sha Unit) := by
  refine leads_quiet (leads_setState hm fun st x hx => ?_)
  cases x with
  | chunk i b => exact ⟨hbase st ▸ hx.1, hloaded st ▸ hx.2⟩
  | range _ _ => exact hx
  | upload _ => trivial

theorem went_prepare (cfg : WbConfig) (start fin : Nat) (overwrite : Bool) :
    Leads Went (prepare cfg start fin overwrite : AskRun Sha Unit) :=
  went_bind (went_gets _) fun _ => Leads.ite (Run.leads_pure Went.refl ())
    (went_bind (went_mark _) fun _ => went_load _ _ _)

theorem went_touch (b : Nat) : Leads Went (touch b : AskRun Sha Unit) :=
  went_bind (went_load _ _ _) fun _ => went_aside (fun _ => rfl) (fun _ => rfl) fun _ => rfl

theorem went_grow (cfg : WbConfig) (newSize : Nat) :
    Leads Went (grow cfg newSize : AskRun Sha Unit) :=
  went_bind (went_gets _) fun _ => Leads.ite (Run.leads_pure Went.refl ())
    (Leads.ite (went_bind (went_touch _) fun _ => went_aside (fun _ => rfl) (fun _ => rfl) fun _ => rfl)
      (went_aside (fun _ => rfl) (fun _ => rfl) fun _ => rfl))

omit [DecidableEq Sha] in
/-- Dropping what lies past the end. -/
theorem went_drop (keep length : Nat) : Leads Went (quiet (setState fun st => { st with
    base := st.base.take keep
    loaded := st.loaded.filter (· < keep)
    dirtyIdx := st.dirtyIdx.filter (· < keep)
    size := length }) : AskRun Sha Unit) := by
  refine leads_quiet (leads_setState (fun _ => rfl) fun st x hx => ?_)
  cases x with
  | chunk i b =>
    obtain ⟨hb, hl⟩ := hx
    rw [List.getElem?_take] at hb
    split at hb
    case isTrue hi => exact ⟨hb, fun h => hl (Finset.mem_filter.mpr ⟨h, hi⟩)⟩
    case isFalse => cases hb
  | range _ _ => exact hx
  | upload _ => trivial

theorem went_shrink (cfg : WbConfig) (length : Nat) :
    Leads Went (shrink cfg length : AskRun Sha Unit) :=
  went_bind (went_gets _) fun _ =>
    Leads.ite (went_bind (went_touch _) fun _ => went_drop _ _) (went_drop _ _)

/-! ## The operations -/

/-- The bytes `[start, fin)` cover the stored bytes of `b`. -/
def Covers (start fin : Nat) (b : BaseChunk Sha) : Prop := start ≤ b.off ∧ b.off + b.len ≤ fin

/-- A chunk that a sync has to upload, unless its blob is stored already. -/
def Due (cs : Nat) (c : FileCtx Sha) (i : Nat) : Prop :=
  i * cs < c.st.size ∧ (i ∈ c.st.dirtyIdx ∨
    ∀ row ∈ c.store.index.getChunks c.st.ino,
      ¬ (row.idx = i ∧ row.off = i * cs ∧ row.len = min cs (c.st.size - i * cs)))

/-- What an operation in the state `c` asks for. -/
def Modest (cs : Nat) (c : FileCtx Sha) (new : List (Ask Sha)) : FileOp → Prop
  | .write offset data => (∀ d, .upload d ∉ new) ∧
    ∀ i b, .chunk i b ∈ new → ¬ Covers offset (offset + data.length) b
  | .sync => new.Nodup ∧
    ∀ x ∈ new, ∃ i, Due cs c i ∧ x = .upload (chunkAt cs (resize c.temp c.st.size) i)
  | _ => ∀ d, .upload d ∉ new

variable {cs : Nat} {c c' : FileCtx Sha} {ref : Bytes} {ts : Nat → Tick} {cfg : WbConfig}
  {s s' : FileCtx Sha × List (Ask Sha)} {n n' : Nat}

/-- A chunk that may be requested lies on the grid. -/
theorem grid_of_mayAsk (h : View cs c ref) {i : Nat} {b : BaseChunk Sha}
    (hb : c.st.MayAsk (.chunk i b)) :
    b.off = i * cs ∧ b.len = min cs (c.st.size - i * cs) ∧ i * cs < c.st.size := by
  obtain ⟨hoff, hlt⟩ := h.base_off i b hb.1
  exact ⟨hoff, h.holesKept.len i b hb.1 hb.2, h.size ▸ hlt⟩

/-- Behind the marks of a write no chunk that it covers may be requested, and nothing was
requested before them. -/
theorem prepare_covers (hcfg : cfg.chunkSize = cs) (h : View cs s.1 ref) {start fin : Nat} {u : Unit}
    (hr : prepare cfg start fin true ts n s = (.ok u, n', s')) :
    ∃ s₁ : FileCtx Sha × List (Ask Sha), s₁.2 = s.2 ∧ Less s.1 s₁.1 ∧
      (∀ i b, s₁.1.st.MayAsk (.chunk i b) → ¬ Covers start fin b) ∧ Went s₁ s' := by
  have hcs : 0 < cs := hcfg ▸ cfg.chunkSize_pos
  obtain ⟨st, n₁, s₁, hget, hr⟩ := Run.of_bind_ok hr
  cases hget
  dsimp only at hr
  split at hr
  case isTrue hcase =>
    cases hr
    refine ⟨s, rfl, ⟨rfl, fun _ h => h⟩, fun i b hb hcov => ?_, Went.refl s⟩
    obtain ⟨hoff, hlen, hlt⟩ := grid_of_mayAsk h hb
    obtain ⟨hlo, hhi⟩ := hcov
    rcases hcase with hle | hnil
    · omega
    · have := hb.1
      rw [hnil] at this
      cases this
  case isFalse hcase =>
    obtain ⟨u', n₂, s₂, hset, hr⟩ := Run.of_bind_ok hr
    cases hset
    have hwent := went_load _ _ _ ts _ _ _ _ _ hr
    refine ⟨_, ?_, ⟨?_, fun x hx => ?_⟩, fun i b hb hcov => ?_, hwent⟩
    · rfl
    · rfl
    · cases x with
      | chunk i b => exact ⟨hx.1, fun h => hx.2 (Finset.mem_union_left _ h)⟩
      | range _ _ => exact hx
      | upload _ => trivial
    · have hb' : s.1.st.MayAsk (.chunk i b) := ⟨hb.1, fun h => hb.2 (Finset.mem_union_left _ h)⟩
      obtain ⟨hoff, hlen, hlt⟩ := grid_of_mayAsk h hb'
      obtain ⟨hlo, hhi⟩ := hcov
      apply hb.2
      apply Finset.mem_union_right
      rw [if_pos rfl, hcfg]
      refine Finset.mem_filter.mpr ⟨Finset.mem_Ico.mpr ⟨?_, ?_⟩, ?_⟩
      · apply Nat.div_le_of_le_mul
        rw [Nat.mul_comm, ← hoff]
        exact hlo
      · have hi : i ≤ (min fin s.1.st.size - 1) / cs := by
          rw [Nat.le_div_iff_mul_le hcs]
          omega
        have := (List.getElem?_eq_some_iff.mp hb'.1).1
        omega
      · rw [hb'.1]
        have : b.off + b.len ≤ min fin s.1.st.size := by omega
        simp only [Option.any_some, decide_eq_true_eq]
        exact ⟨hlo, this⟩

/-- The rest of a write. -/
theorem went_written (cfg : WbConfig) (data : Bytes) (offset fin : Nat) (touched : Finset Nat) :
    Leads Went (do
      grow cfg fin
      quiet (tempWrite offset data)
      quiet (setState fun st => { st with dirtyIdx := st.dirtyIdx ∪ touched, dirty := true })
      pure data.length : AskRun Sha Nat) :=
  went_bind (went_grow _ _) fun _ =>
    went_bind (leads_quiet (leads_keeps (keeps_tempWrite (fun _ _ => rfl) _ _))) fun _ =>
      went_bind (went_aside (fun _ => rfl) (fun _ => rfl) fun _ => rfl) fun _ =>
        Run.leads_pure Went.refl _

theorem went_truncated (cfg : WbConfig) (length : Nat) :
    Leads Went (do
      let st ← quiet getState
      if length < st.size then shrink cfg length
      else grow cfg length
      quiet (tempTruncate length)
      quiet (setState fun st => { st with dirty := true }) : AskRun Sha Unit) := by
  have hrest : Leads Went (do
      quiet (tempTruncate length)
      quiet (setState fun st => { st with dirty := true }) : AskRun Sha Unit) :=
    went_bind (leads_quiet (leads_keeps (keeps_tempTruncate (fun _ _ => rfl) _))) fun _ =>
      went_aside (fun _ => rfl) (fun _ => rfl) fun _ => rfl
  exact went_bind (went_gets _) fun _ => Leads.ite (went_bind (went_shrink _ _) fun _ => hrest)
    (went_bind (went_grow _ _) fun _ => hrest)

/-- Opening for writing asks for nothing, and no other chunks may be requested afterwards. -/
theorem materialize_asks (ts : Nat → Tick) (hcfg : cfg.chunkSize = cs) (h : Served cs c ref)
    (l : List (Ask Sha)) (n : Nat) :
    ∃ n₁ c₁, materialize cfg ts n (c, l) = (.ok (), n₁, c₁, l) ∧ Written cs c₁ ref ∧
      ∀ x, c₁.MayAsk x → c.MayAsk x := by
  have hcs : 0 < cs := hcfg ▸ cfg.chunkSize_pos
  obtain hu | hw := h
  · obtain ⟨m, hm, hsize⟩ := hu.stored.inode
    have hal : aligned cfg.chunkSize (gridBase cs ref : List (BaseChunk Sha)) = true :=
      hcfg ▸ (aligned_gridBase hcs).mpr (.inl hcfg)
    have hrun : Wp ts (materialize cfg) (fun r s' => r = .ok () ∧ s' = ({ c with st := { c.st with
        size := m.size, base := gridBase cs ref, loaded := ∅, dirtyIdx := ∅,
        materialized := true } }, l)) (c, l) := by
      unfold materialize
      rw [getState, Run.wp_quiet_gets_bind, if_neg (by simp [hu.mat]), getRows,
        Run.wp_quiet_gets_bind, getInode, Run.wp_quiet_gets_bind]
      simp only [Meta.getInode, hm, Option.map_some, hu.stored.base]
      rw [setState, Run.wp_quiet_modify_bind, if_pos hal]
      exact fun _ => ⟨rfl, rfl⟩
    have hwritten : Wp ts (materialize cfg) (fun r s' => r = .ok () ∧ Written cs s'.1 ref) (c, l) :=
      (erases_materialize cfg).wp (hu.materialize hcfg)
    obtain ⟨hr, hs'⟩ := hrun n
    obtain ⟨-, hw⟩ := hwritten n
    rcases hres : materialize cfg ts n (c, l) with ⟨r, n₁, s₁⟩
    rw [hres] at hr hs' hw
    obtain rfl := hr
    subst hs'
    refine ⟨n₁, _, rfl, hw, fun x hx => ?_⟩
    rw [FileCtx.mayAsk_iff rfl] at hx
    unfold FileCtx.MayAsk
    rw [if_neg (by simp [hu.mat])]
    cases x with
    | chunk i b =>
      rw [hu.stored.base]
      exact hx.1
    | range _ _ | upload _ => trivial
  · refine ⟨n, c, ?_, hw, fun _ h => h⟩
    unfold materialize
    simp only [Run.bind_run, quiet, Run.zoom, getState, Run.gets, hw.mat, if_true]
    rfl

omit [DecidableEq Sha] in
/-- What was written down in write mode, from the start of the operation on. -/
theorem accrues_went {c₁ : FileCtx Sha} {new : List (Ask Sha)} (hm : c₁.st.materialized = true)
    (hm' : c'.st.materialized = true) (hless : ∀ x, c₁.MayAsk x → c.MayAsk x)
    (h : Accrues FileState.MayAsk Ask.Apart c₁.st c'.st new) :
    Accrues FileCtx.MayAsk Ask.Apart c c' new := by
  have hmay : ∀ x, c₁.st.MayAsk x → c.MayAsk x := fun x hx =>
    hless x ((FileCtx.mayAsk_iff hm).mpr hx)
  exact ⟨fun x hx => hmay x (h.might x hx),
    fun x hx => hmay x (h.less x ((FileCtx.mayAsk_iff hm').mp hx)),
    fun x hx y hy => h.away x hx y ((FileCtx.mayAsk_iff hm').mp hy), h.pairwise⟩

/-- The operations that change the file, behind `_materialize`. -/
theorem asks_edited (hcfg : cfg.chunkSize = cs) (h : Served cs c ref) {l : List (Ask Sha)}
    {op : FileOp} {a : Bytes} (hop : op ≠ .sync) (hread : op.isRead = false)
    (hr : perform cfg op ts n (c, l) = (.ok a, n', s')) :
    ∃ new, s'.2 = l ++ new ∧ Accrues FileCtx.MayAsk Ask.Apart c s'.1 new ∧ Modest cs c new op := by
  obtain ⟨n₁, c₁, hmat, hw, hless⟩ := materialize_asks ts hcfg h l n
  cases op with
  | write offset data =>
    obtain ⟨len, n₂, s₂, hwrite, hr⟩ := Run.of_bind_ok hr
    cases hr
    obtain ⟨u, n₃, s₃, hm, hwrite⟩ := Run.of_bind_ok hwrite
    rw [hmat] at hm
    cases hm
    obtain ⟨u, n₄, s₄, hprep, hrest⟩ := Run.of_bind_ok hwrite
    obtain ⟨s₁, hs₁, ⟨hm₁, hless₁⟩, hcov, hwent⟩ := prepare_covers hcfg hw.view hprep
    have htail : Went s₄ s' := went_written cfg data offset _ _ ts _ _ _ _ _ hrest
    obtain ⟨hm', new, hnew, hup, hacc⟩ := hwent.trans htail
    rw [hs₁] at hnew
    refine ⟨new, hnew, ?_, hup, fun i b hx => hcov i b (hacc.might _ hx)⟩
    exact accrues_went (hm₁.trans hw.mat) (hm'.trans (hm₁.trans hw.mat))
      (fun x hx => hless x ((FileCtx.mayAsk_iff hw.mat).mpr
        (hless₁ x ((FileCtx.mayAsk_iff (hm₁.trans hw.mat)).mp hx)))) hacc
  | truncate length =>
    obtain ⟨u, n₂, s₂, htrunc, hr⟩ := Run.of_bind_ok hr
    cases hr
    obtain ⟨u, n₃, s₃, hm, hrest⟩ := Run.of_bind_ok htrunc
    rw [hmat] at hm
    cases hm
    obtain ⟨hm', new, hnew, hup, hacc⟩ := went_truncated cfg length ts _ _ _ _ _ hrest
    exact ⟨new, hnew, accrues_went hw.mat (hm'.trans hw.mat) hless hacc, hup⟩
  | read offset size => cases hread
  | sync => exact absurd rfl hop

theorem went_read (cfg : WbConfig) (size offset : Nat) {a : Bytes} (hm : s.1.st.materialized = true)
    (hr : read cfg size offset ts n s = (.ok a, n', s')) : Went s s' := by
  obtain ⟨st, n₁, s₁, hget, hr⟩ := Run.of_bind_ok hr
  cases hget
  dsimp only at hr
  rw [if_pos hm] at hr
  have hleads : Leads Went (if min (offset + size) s.1.st.size ≤ offset then pure []
      else do
        prepare cfg offset (min (offset + size) s.1.st.size) false
        quiet (tempRead offset (min (offset + size) s.1.st.size - offset)) : AskRun Sha Bytes) :=
    Leads.ite (Run.leads_pure Went.refl _) (went_bind (went_prepare _ _ _ _) fun _ =>
      leads_quiet (leads_keeps (keeps_tempRead _ _)))
  exact hleads ts _ _ _ _ _ hr

theorem asks_read (h : Served cs c ref) (hts : ∀ n, (ts n).Quiet False) {l : List (Ask Sha)}
    {offset size : Nat} {a : Bytes}
    (hr : perform cfg (.read offset size) ts n (c, l) = (.ok a, n', s')) :
    ∃ new, s'.2 = l ++ new ∧ Accrues FileCtx.MayAsk Ask.Apart c s'.1 new ∧
      Modest cs c new (.read offset size) := by
  obtain hu | hw := h
  · obtain ⟨st, n₁, s₁, hget, hr⟩ := Run.of_bind_ok hr
    cases hget
    dsimp only at hr
    rw [if_neg (by simp [hu.mat])] at hr
    obtain ⟨u, n₂, s₂, hnote, hr⟩ := Run.of_bind_ok hr
    cases hnote
    have hcall : Wb.call noSrc (Store.readRange c.st.ino offset size) ts n c = (.ok a, n', s'.1) := by
      have := Run.erases_quiet (Wb.call noSrc (Store.readRange c.st.ino offset size)) ts n
        (c, l ++ [.range offset size])
      rw [hr] at this
      exact this
    have hsame := (hu.readRange hts offset size n).2
    rw [hcall] at hsame
    have hnotes : s'.2 = l ++ [.range offset size] := by
      have : (quiet (Wb.call noSrc (Store.readRange c.st.ino offset size)) ts n
        (c, l ++ [.range offset size])).2.2.2 = l ++ [.range offset size] := rfl
      rw [← this, hr]
    have hsame : s'.1 = c := hsame
    rw [hsame]
    refine ⟨[.range offset size], hnotes, ⟨fun x hx => ?_, fun _ hx => hx, fun x hx y _ => ?_, by simp⟩,
      by simp [Modest]⟩
    · obtain rfl := List.mem_singleton.mp hx
      unfold FileCtx.MayAsk
      rw [if_neg (by simp [hu.mat])]
      trivial
    · obtain rfl := List.mem_singleton.mp hx
      cases y <;> trivial
  · obtain ⟨hm', new, hnew, hup, hacc⟩ := went_read cfg size offset hw.mat hr
    exact ⟨new, hnew, accrues_went hw.mat (hm'.trans hw.mat) (fun _ hx => hx) hacc, hup⟩

/-- A modified state after the flush: the store is that of the `put_file`, and the calls of its
backend are written down. -/
theorem flushLocked_notes (ho : c.st.closed = false) (hd : c.st.dirty = true) {l : List (Ask Sha)}
    {u : Unit} (hr : flushLocked cfg ts n (c, l) = (.ok u, n', s')) :
    ∃ put, put = Store.machine.seqRun (tempSrc false (resize c.temp c.st.size)) ts
        (Store.putFile cfg.toStoreConfig c.st.ino c.st.size (some c.st.dirtyIdx)) n c.store ∧
      put.1 = .ok () ∧ s'.1.store = put.2.2 ∧
      s'.1.st.loaded = c.st.loaded ∪
        Finset.Ico c.st.base.length (put.2.2.index.getChunks c.st.ino).length ∧
      s'.2 = l ++ (Store.putCalls (tempSrc false (resize c.temp c.st.size)) ts cfg.toStoreConfig
        c.st.ino c.st.size (some c.st.dirtyIdx) n c.store).filterMap Ask.ofCall := by
  obtain ⟨st, n₁, s₁, hget, hr⟩ := Run.of_bind_ok hr
  cases hget
  dsimp only at hr
  rw [if_pos hd] at hr
  obtain ⟨u₁, n₂, s₂, htrunc, hr⟩ := Run.of_bind_ok hr
  have htemp : tempTruncate c.st.size ts n c = (.ok (), n, { c with temp := resize c.temp c.st.size }) := by
    simp [tempTruncate, checkOpen, getState, Run.bind_run, Run.gets, Run.require, Run.modify, ho]
    rfl
  have hquiet : quiet (tempTruncate c.st.size) ts n (c, l) =
      (.ok (), n, { c with temp := resize c.temp c.st.size }, l) := by
    unfold quiet Run.zoom
    simp only [htemp]
  rw [hquiet] at htrunc
  cases htrunc
  obtain ⟨temp, n₃, s₃, hget, hr⟩ := Run.of_bind_ok hr
  cases hget
  obtain ⟨u₂, n₄, s₄, hcall, hr⟩ := Run.of_bind_ok hr
  obtain ⟨rows, n₅, s₅, hget, hr⟩ := Run.of_bind_ok hr
  cases hget
  cases hr
  rw [ho] at hcall
  have hplain := Store.seqRun_journal (tempSrc false (resize c.temp c.st.size)) ts
    (Store.putFile cfg.toStoreConfig c.st.ino c.st.size (some c.st.dirtyIdx)) n (c.store, [])
  unfold Store.putCalls
  rw [hplain]
  unfold call Run.zoom at hcall
  dsimp only at hcall
  rcases hrun : Store.journal.seqRun (tempSrc false (resize c.temp c.st.size)) ts
    (Store.putFile cfg.toStoreConfig c.st.ino c.st.size (some c.st.dirtyIdx)) n (c.store, [])
    with ⟨r, n₆, s₆⟩
  rw [hrun] at hcall
  cases hcall
  exact ⟨_, rfl, rfl, rfl, rfl, rfl⟩

/-- Among the calls of a `put_file`, each upload is there once. -/
theorem nodup_uploads {calls : List BackendCall}
    (h : ∀ sha : Sha, Store.uploads sha calls ≤ 1) :
    (calls.filterMap Ask.ofCall : List (Ask Sha)).Nodup := by
  apply List.nodup_iff_count_le_one.mpr
  intro x
  rw [List.count_filterMap]
  cases x with
  | upload data =>
    refine le_trans (List.countP_mono_left fun call _ hc => ?_) (h (sha256 data))
    cases call with
    | upload data' =>
      simp only [Ask.ofCall, beq_iff_eq, Option.some.injEq, Ask.upload.injEq] at hc
      simp [hc]
    | delete _ => simp [Ask.ofCall] at hc
  | chunk _ _ | range _ _ =>
    refine le_trans (le_of_eq (List.countP_eq_zero.mpr fun call _ hc => ?_)) (Nat.zero_le 1)
    cases call <;> simp [Ask.ofCall] at hc

/-- An upload is there under a hash that counts. -/
theorem uploads_pos {calls : List BackendCall} {x : Ask Sha}
    (hx : x ∈ calls.filterMap Ask.ofCall) :
    ∃ data, x = .upload data ∧ 0 < Store.uploads (sha256 data : Sha) calls := by
  obtain ⟨call, hmem, hcall⟩ := List.mem_filterMap.mp hx
  cases call with
  | upload data =>
    cases hcall
    exact ⟨data, rfl, List.countP_pos_iff.mpr ⟨_, hmem, by simp⟩⟩
  | delete _ => cases hcall

omit [Sha256 Sha] [DecidableEq Sha] in
/-- A chunk whose row is not reused is due. -/
theorem due_of_cleanRow (hidx : RowsIdx c) {i : Nat} (hi : i * cs < c.st.size)
    (hnone : Store.cleanRow (some c.st.dirtyIdx) (c.store.index.getChunks c.st.ino) i (i * cs)
      (min cs (c.st.size - i * cs)) = none) : Due cs c i := by
  refine ⟨hi, ?_⟩
  by_contra hcon
  push Not at hcon
  obtain ⟨hd, row, hrow, hri, hoff, hlen⟩ := hcon
  obtain ⟨k, hk⟩ := List.getElem?_of_mem hrow
  obtain rfl : k = i := (hidx k row hk).symm.trans hri
  rw [cleanRow_eq hd hk hoff hlen] at hnone
  cases hnone

/-- The hash of a stored row has a blob. -/
theorem blob_row (h : View cs c ref) {row : Chunk Sha}
    (hrow : row ∈ c.store.index.getChunks c.st.ino) : c.store.index.blobs row.sha ≠ none := by
  intro hnone
  obtain ⟨data, hdata, -⟩ := h.books.blobData_row hrow
  simp [Store.blobData, hnone] at hdata

/-- A hash of the new rows that had no blob is that of a chunk that was due. -/
theorem flushRows_due (hcs : 0 < cs) (hinj : Function.Injective (sha256 : Bytes → Sha))
    (hw : Written cs c ref) {data : Bytes}
    (hmem : (sha256 data : Sha) ∈ (flushRows cs c ref).map (·.sha))
    (hnone : c.store.index.blobs (sha256 data : Sha) = none) :
    ∃ i, Due cs c i ∧ data = chunkAt cs (resize c.temp c.st.size) i := by
  have hsize := hw.view.size
  obtain ⟨row, hrow, hsha⟩ := List.mem_map.mp hmem
  obtain ⟨i, hi, rfl⟩ := List.mem_map.mp hrow
  have hlt : i * cs < c.st.size := hsize ▸ (lt_chunkCount hcs).mp (List.mem_range.mp hi)
  rw [gridRow, rowSha, length_resize, ← hsize] at hsha
  cases hclean : Store.cleanRow (some c.st.dirtyIdx) (c.store.index.getChunks c.st.ino) i (i * cs)
    (min cs (c.st.size - i * cs)) with
  | some row =>
    rw [hclean] at hsha
    obtain ⟨hold, -⟩ := Store.cleanRow_eq_some hclean
    have hsha : row.sha = sha256 data := hsha
    exact absurd (hsha ▸ hnone) (blob_row hw.view (List.mem_of_getElem? hold))
  | none =>
    rw [hclean] at hsha
    exact ⟨i, due_of_cleanRow hw.rowsIdx hlt hclean, (hinj hsha).symm⟩

/-- A chunk that may still be requested after a flush was reused by it. -/
theorem mayAsk_of_flushed (h : View cs c ref) (hf : Flushed cs c c' ref)
    (hl : c'.st.loaded = c.st.loaded ∪ Finset.Ico c.st.base.length (flushRows cs c ref).length)
    {x : Ask Sha} (hx : c'.st.MayAsk x) : c.st.MayAsk x := by
  cases x with
  | range _ _ => exact hx
  | upload _ => trivial
  | chunk i b =>
    obtain ⟨hb, hi⟩ := hx
    rw [hl, Finset.mem_union, not_or] at hi
    have hlt := (List.getElem?_eq_some_iff.mp hb).1
    rw [hf.base, List.length_map] at hlt
    have hlen : i < c.st.base.length := by
      by_contra hge
      exact hi.2 (Finset.mem_Ico.mpr ⟨Nat.le_of_not_lt hge, hlt⟩)
    have hb₀ := List.getElem?_eq_getElem hlen
    obtain ⟨⟨hlen₀, hsha₀⟩, -⟩ := h.unloaded i _ hb₀ hi.1
    have hoff₀ := (h.base_off i _ hb₀).1
    have hcount : i < chunkCount cs ref.length := by simpa [flushRows] using hlt
    rw [hf.base, flushRows, List.map_map, List.getElem?_map, List.getElem?_range hcount,
      Option.map_some] at hb
    refine ⟨?_, hi.1⟩
    rw [hb₀, ← hb]
    -- the record in `base` and the one of the new row agree in every field
    simp only [Function.comp_apply, BaseChunk.ofRow, gridRow, h.rowSha_unloaded hb₀ hi.1,
      length_resize, Option.some.injEq]
    rw [length_chunkAt] at hlen₀
    rcases hbi : c.st.base[i] with ⟨off, len, sha⟩
    rw [hbi] at hoff₀ hlen₀ hsha₀
    rw [← hlen₀, ← hsha₀, ← hoff₀]

/-- What a flush of a modified state uploads. -/
theorem asks_flush (hcfg : cfg.chunkSize = cs) (hinj : Function.Injective (sha256 : Bytes → Sha))
    (hts : ∀ n, (ts n).Quiet False) (hw : Written cs c ref) (hd : c.st.dirty = true)
    {l : List (Ask Sha)} {u : Unit} (hr : flushLocked cfg ts n (c, l) = (.ok u, n', s')) :
    ∃ new, s'.2 = l ++ new ∧ Accrues FileCtx.MayAsk Ask.Apart c s'.1 new ∧
      Modest cs c new .sync := by
  have hcs : 0 < cs := hcfg ▸ cfg.chunkSize_pos
  have hview := hw.view
  obtain ⟨-, -, hcase⟩ :=
    (erases_flushLocked cfg).wp (s := (c, l)) (View.flush hcs hts hcfg hview) n
  rw [hr] at hcase
  have hf : Flushed cs c s'.1 ref := by
    obtain ⟨hfalse, -⟩ | ⟨-, hf⟩ := hcase
    · exact absurd (hd.symm.trans hfalse) (by simp)
    · exact hf
  obtain ⟨put, hput, hok, hstore, hloaded, hnotes⟩ := flushLocked_notes hview.opened hd hr
  have hrows : put.2.2.index.getChunks c.st.ino = flushRows cs c ref := by
    rw [← hstore, hf.rows]
  rw [hrows] at hloaded
  generalize hcalls : Store.putCalls (tempSrc false (resize c.temp c.st.size)) ts cfg.toStoreConfig
    c.st.ino c.st.size (some c.st.dirtyIdx) n c.store = calls at hnotes
  have huploads : ∀ sha : Sha, Store.uploads sha calls =
      if sha ∈ (flushRows cs c ref).map (·.sha) ∧ c.store.index.blobs sha = none then 1 else 0 := by
    intro sha
    rw [← hcalls, Store.putFile_uploads hview.books n (hput ▸ hok), ← hput, Meta.getChunkShas, hrows]
  -- an uploaded hash had no blob
  have hnew : ∀ x ∈ (calls.filterMap Ask.ofCall : List (Ask Sha)),
      ∃ data, x = .upload data ∧ (sha256 data : Sha) ∈ (flushRows cs c ref).map (·.sha) ∧
        c.store.index.blobs (sha256 data) = none := by
    intro x hx
    obtain ⟨data, rfl, hpos⟩ := uploads_pos hx
    rw [huploads] at hpos
    split at hpos
    case isTrue h => exact ⟨data, rfl, h⟩
    case isFalse => cases hpos
  have hmat' : s'.1.st.materialized = true := hf.mat.trans hw.mat
  have hless : ∀ x, s'.1.st.MayAsk x → c.st.MayAsk x := fun x hx =>
    mayAsk_of_flushed hview hf hloaded hx
  refine ⟨_, hnotes, accrues_went hw.mat hmat' (fun _ hx => hx) ⟨fun x hx => ?_, hless,
    fun x hx y hy => ?_, ?_⟩, ?_, fun x hx => ?_⟩
  · obtain ⟨data, rfl, -⟩ := hnew x hx
    trivial
  · obtain ⟨data, rfl, -, hnone⟩ := hnew x hx
    cases y with
    | upload _ => trivial
    | range _ _ => exact hy.elim
    | chunk i b =>
      obtain ⟨row, hrow, rfl⟩ := hview.base_row i b (hless _ hy).1
      intro hsha
      have hsha : row.sha = sha256 data := hsha
      exact blob_row hview (List.mem_of_getElem? hrow) (hsha ▸ hnone)
  · apply List.pairwise_of_forall_mem_list
    intro x hx y hy
    obtain ⟨data, rfl, -⟩ := hnew x hx
    obtain ⟨data', rfl, -⟩ := hnew y hy
    trivial
  · apply nodup_uploads
    intro sha
    rw [huploads]
    split <;> simp
  · obtain ⟨data, rfl, hmem, hnone⟩ := hnew x hx
    obtain ⟨i, hdue, rfl⟩ := flushRows_due hcs hinj hw hmem hnone
    exact ⟨i, hdue, rfl⟩

/-! ## Runs -/

section Runs

variable (hcfg : cfg.chunkSize = cs) (hinj : Function.Injective (sha256 : Bytes → Sha))
  (hts : ∀ n, (ts n).Quiet False)
include hcfg hinj hts

/-- One operation. -/
theorem asks_perform (h : Served cs c ref) {op : FileOp} (hop : op.Nonempty) (l : List (Ask Sha))
    (n : Nat) : ∃ a n' c' new, perform cfg op ts n (c, l) = (.ok a, n', c', l ++ new) ∧
      Served cs c' (op.apply ref) ∧ Accrues FileCtx.MayAsk Ask.Apart c c' new ∧
        Modest cs c new op := by
  obtain ⟨⟨a, ha⟩, hserved⟩ :=
    (erases_perform cfg op).wp (s := (c, l)) (h.perform hcfg hinj hts hop) n
  rcases hr : perform cfg op ts n (c, l) with ⟨r, n', c', l'⟩
  rw [hr] at ha hserved
  obtain rfl := ha
  have hnew : ∃ new, l' = l ++ new ∧ Accrues FileCtx.MayAsk Ask.Apart c c' new ∧
      Modest cs c new op := by
    cases op with
    | write offset data => exact asks_edited hcfg h (by simp) rfl hr
    | truncate length => exact asks_edited hcfg h (by simp) rfl hr
    | read offset size => exact asks_read h hts hr
    | sync =>
      obtain ⟨u, n₁, s₁, hflush, hr⟩ := Run.of_bind_ok hr
      cases hr
      cases hd : c.st.dirty with
      | false =>
        obtain ⟨st, n₂, s₂, hget, hflush⟩ := Run.of_bind_ok hflush
        cases hget
        dsimp only at hflush
        rw [if_neg (by simp [hd])] at hflush
        cases hflush
        exact ⟨[], by simp, .silent fun _ hx => hx, by simp [Modest]⟩
      | true =>
        obtain hu | hw := h
        · exact absurd (hd.symm.trans hu.dirty) (by simp)
        · exact asks_flush hcfg hinj hts hw hd hflush
  obtain ⟨new, rfl, hacc, hmod⟩ := hnew
  exact ⟨a, n', c', new, rfl, hserved, hacc, hmod⟩

theorem asks_performAll (h : Served cs c ref) {ops : List FileOp} (hops : ∀ op ∈ ops, op.Nonempty)
    (l : List (Ask Sha)) (n : Nat) :
    ∃ answers n' c' new, performAll cfg ops ts n (c, l) = (.ok answers, n', c', l ++ new) ∧
      Served cs c' (FileOp.applyAll ops ref) ∧ Accrues FileCtx.MayAsk Ask.Apart c c' new := by
  induction ops generalizing c ref l n with
  | nil =>
    refine ⟨[], n, c, [], ?_, h, .silent fun _ hx => hx⟩
    rw [List.append_nil]
    rfl
  | cons op ops ih =>
    obtain ⟨a, n₁, c₁, new, hrun, h₁, hacc, -⟩ :=
      asks_perform hcfg hinj hts h (hops op List.mem_cons_self) l n
    obtain ⟨answers, n', c', new', hrest, h', hacc'⟩ :=
      ih h₁ (fun o ho => hops o (List.mem_cons_of_mem _ ho)) (l ++ new) n₁
    refine ⟨(a, liveSize (some c₁.st)) :: answers, n', c', new ++ new', ?_, h', hacc.trans hacc'⟩
    unfold performAll
    rw [Run.bind_run_ok hrun]
    simp only [Run.bind_run, quiet, Run.zoom, getState, Run.gets, hrest, List.append_assoc]
    rfl

end Runs

/-- The calls of a run on a freshly opened state. A chunk is requested once at most, as the chunk
it was when the file was opened, and nothing is downloaded that a sync stored; a write requests no
chunk that it covers, and a sync uploads each chunk that is due once at most and no other. -/
theorem opened_asks (cfg : WbConfig) (hinj : Function.Injective (sha256 : Bytes → Sha))
    {st : Store Sha} {ino : Ino} (hts : ∀ n, (ts n).Quiet False) (hs : st.Accounted)
    (hst : st.StoredAs cfg.chunkSize ino ref) (gen : Nat) (forWrite : Bool) {ops : List FileOp}
    (hops : ∀ op ∈ ops, op.Nonempty) (n : Nat) :
    ∃ answers n' c log,
      Wb.opened cfg forWrite ops ts n (freshCtx ino gen st) = (.ok answers, n', c) ∧
      opened cfg forWrite ops ts n (freshCtx ino gen st, []) = (.ok answers, n', c, log) ∧
      log.Pairwise Ask.Apart ∧
      (∀ i b, .chunk i b ∈ log →
        ((st.index.getChunks ino).map BaseChunk.ofRow)[i]? = some b) ∧
      ∀ op : FileOp, op.Nonempty → ∀ n₁, ∃ a n₂ c' new,
        perform cfg op ts n₁ (c, log) = (.ok a, n₂, c', log ++ new) ∧
          Modest cfg.chunkSize c new op := by
  have hfresh : Untouched cfg.chunkSize (freshCtx ino gen st) ref :=
    ⟨hs, hst, rfl, rfl, rfl, rfl, rfl⟩
  have hrun : ∃ answers n' c log,
      opened cfg forWrite ops ts n (freshCtx ino gen st, []) = (.ok answers, n', c, log) ∧
      Served cfg.chunkSize c (FileOp.applyAll ops ref) ∧
      Accrues FileCtx.MayAsk Ask.Apart (freshCtx ino gen st) c log := by
    cases forWrite with
    | false => exact asks_performAll rfl hinj hts (.inl hfresh) hops [] n
    | true =>
      obtain ⟨n₁, c₁, hmat, hw, hless⟩ := materialize_asks ts rfl (.inl hfresh) [] n
      obtain ⟨answers, n', c, log, hall, hserved, hacc⟩ :=
        asks_performAll rfl hinj hts (.inr hw) hops [] n₁
      refine ⟨answers, n', c, log, ?_, hserved, (Accrues.silent hless).trans hacc⟩
      unfold opened
      rw [if_pos rfl, Run.bind_run_ok hmat]
      exact hall
  obtain ⟨answers, n', c, log, hopened, hserved, hacc⟩ := hrun
  refine ⟨answers, n', c, log, ?_, hopened, hacc.pairwise, fun i b hx => ?_, fun op hop n₁ => ?_⟩
  · have := erases_opened cfg forWrite ops ts n (freshCtx ino gen st, [])
    rw [hopened] at this
    exact this
  · exact hacc.might _ hx
  · obtain ⟨a, n₂, c', new, hperform, -, -, hmod⟩ := asks_perform rfl hinj hts hserved hop log n₁
    exact ⟨a, n₂, c', new, hperform, hmod⟩

/-- A write into two chunks, of which one is covered, and a sync. -/
theorem opened_asks_edit :
    ∃ answers n' c log,
      Wb.opened ⟨⟨2, 1, by decide, by decide⟩, 0⟩ false [.write 1 [9, 9, 9], .sync, .read 0 5]
        (fun _ => {}) 0 (freshCtx 2 0
          (Store.oneFile ⟨2, 1, by decide, by decide⟩ [1, 2, 3, 4, 5] : Store Bytes)) =
          (.ok answers, n', c) ∧
      opened ⟨⟨2, 1, by decide, by decide⟩, 0⟩ false [.write 1 [9, 9, 9], .sync, .read 0 5]
        (fun _ => {}) 0 (freshCtx 2 0
          (Store.oneFile ⟨2, 1, by decide, by decide⟩ [1, 2, 3, 4, 5] : Store Bytes), []) =
          (.ok answers, n', c, log) ∧
      log.Pairwise Ask.Apart ∧
      (∀ i b, .chunk i b ∈ log →
        (((Store.oneFile ⟨2, 1, by decide, by decide⟩ [1, 2, 3, 4, 5] :
          Store Bytes).index.getChunks 2).map BaseChunk.ofRow)[i]? = some b) ∧
      ∀ op : FileOp, op.Nonempty → ∀ n₁, ∃ a n₂ c' new,
        perform ⟨⟨2, 1, by decide, by decide⟩, 0⟩ op (fun _ => {}) n₁ (c, log) =
          (.ok a, n₂, c', log ++ new) ∧ Modest 2 c new op := by
  have hf := Store.oneFile_stored Bytes ⟨2, 1, by decide, by decide⟩ [1, 2, 3, 4, 5]
  exact opened_asks ⟨⟨2, 1, by decide, by decide⟩, 0⟩ (fun _ _ h => h)
    (fun _ => Tick.quiet_default) hf.1 hf.2 0 false (by simp [FileOp.Nonempty]) 0

end Asking

/-! ## What is noted is what the store does -/

variable [DecidableEq Sha] [Sha256 Sha]

namespace Store

/-- The blob that an action looks up; a fetch begins with it. -/
def looked : Act Sha → Option Sha
  | .blobGet sha => some sha
  | _ => none

theorem all_loadBlob (sha : Sha) (b : Blob) :
    (loadBlob sha b : StoreProg Sha _).All fun a => looked a = none := by
  unfold loadBlob
  have hdownload : (perform (.download b.handle) :
      StoreProg Sha (Except (PyErr Sha) Bytes)).All fun a => looked a = none :=
    ⟨rfl, fun _ => trivial⟩
  apply hdownload.bind
  intro got
  cases got with
  | error e => trivial
  | ok data =>
    dsimp only
    split <;> trivial

/-- A fetch looks one blob up. -/
theorem looked_fetch (src : Src Sha) (ts : Nat → Tick) (sha : Sha) (n : Nat) (s : Store Sha) :
    (machine.acts src ts (fetch sha) n s).filterMap looked = [sha] := by
  change sha :: List.filterMap looked _ = [sha]
  congr 1
  rw [List.filterMap_eq_nil_iff]
  apply Machine.acts_of_all
  cases (machine.exec src (ts n) (.blobGet sha) (machine.turn (ts n) (.blobGet sha) s)).1 with
  | none => trivial
  | some b => exact all_loadBlob sha b

end Store

namespace Acting

variable (ts : Nat → Tick)

/-- `_load` fetches the chunks that it needs, one after the other, up to the first that raises. -/
theorem loadEach_fetches {c : FileCtx Sha} (is : List Nat) (his : ∀ i ∈ is, i < c.st.base.length)
    (log : List (Act Sha)) (n : Nat) :
    ∃ front, (Acting.loadEach is ts n (c, log)).2.2.2.filterMap Store.looked =
        log.filterMap Store.looked ++ front ∧
      front <+: is.filterMap (fun i => c.st.base[i]?.map (·.sha)) ∧
      ((Acting.loadEach is ts n (c, log)).1 = .ok () →
        front = is.filterMap fun i => c.st.base[i]?.map (·.sha)) := by
  induction is generalizing c log n with
  | nil => exact ⟨[], (List.append_nil _).symm, List.nil_prefix, fun _ => rfl⟩
  | cons i is ih =>
    obtain ⟨b, hb⟩ : ∃ b, c.st.base[i]? = some b :=
      ⟨_, List.getElem?_eq_getElem (his i List.mem_cons_self)⟩
    have hneed : (i :: is).filterMap (fun i => c.st.base[i]?.map (·.sha)) =
        b.sha :: is.filterMap fun i => c.st.base[i]?.map (·.sha) := by
      rw [List.filterMap_cons, hb]
      rfl
    have hfetched : (log ++ Store.machine.acts noSrc ts (Store.fetch b.sha) n c.store).filterMap
        Store.looked = log.filterMap Store.looked ++ [b.sha] := by
      rw [List.filterMap_append, Store.looked_fetch]
    have hstep : Acting.loadEach (i :: is) ts n (c, log) =
        (Acting.call noSrc (Store.fetch b.sha) >>= fun data => quiet (tempWrite b.off data) >>=
          fun _ => quiet (setState fun st => { st with loaded := insert i st.loaded }) >>=
            fun _ => Acting.loadEach is) ts n (c, log) := by
      conv_lhs => unfold Acting.loadEach
      rw [getState, Run.quiet_gets_bind_run]
      simp only [hb]
    rw [hstep, hneed, Run.bind_run]
    have hst : (Wb.call noSrc (Store.fetch b.sha) ts n c).2.2.st = c.st := rfl
    unfold Acting.call
    rcases hcall : Wb.call noSrc (Store.fetch b.sha) ts n c with ⟨r, n₁, c₁⟩
    rw [hcall] at hst
    have hone : [b.sha] <+: b.sha :: is.filterMap fun i => c.st.base[i]?.map (·.sha) :=
      (List.prefix_append [b.sha] _)
    cases r with
    | error e => exact ⟨[b.sha], hfetched, hone, by simp⟩
    | ok data =>
      dsimp only
      rw [Run.bind_run]
      have hkept := keeps_tempWrite (f := FileCtx.st) (fun _ _ => rfl) b.off data ts n₁ c₁
      unfold Run.quiet Run.zoom
      rcases hwrite : tempWrite b.off data ts n₁ c₁ with ⟨r₂, n₂, c₂⟩
      rw [hwrite] at hkept
      cases r₂ with
      | error e => exact ⟨[b.sha], hfetched, hone, by simp⟩
      | ok u =>
        have hsame : c₂.st = c.st := hkept.trans hst
        let c₃ : FileCtx Sha := { c₂ with st := { c₂.st with loaded := insert i c₂.st.loaded } }
        have hbase : c₂.st.base = c.st.base := congrArg FileState.base hsame
        have his₃ : ∀ j ∈ is, j < c₃.st.base.length := by
          intro j hj
          change j < c₂.st.base.length
          rw [hbase]
          exact his j (List.mem_cons_of_mem _ hj)
        obtain ⟨front, hlooked, hfront, hall⟩ := ih his₃
          (log ++ Store.machine.acts noSrc ts (Store.fetch b.sha) n c.store) n₂
        change front <+: is.filterMap (fun i => c₂.st.base[i]?.map (·.sha)) at hfront
        change _ → front = is.filterMap (fun i => c₂.st.base[i]?.map (·.sha)) at hall
        rw [hbase] at hfront hall
        refine ⟨b.sha :: front, ?_, List.cons_prefix_cons.mpr ⟨rfl, hfront⟩, fun h => ?_⟩
        · refine hlooked.trans ?_
          rw [hfetched, List.append_assoc]
          rfl
        · rw [hall h]

/-- What `_load` is noted to have asked for is what it fetches, all of it if it returns. -/
theorem load_asked (c : FileCtx Sha) (lo hi : Nat) (skip : Finset Nat) (n : Nat) :
    (Acting.load lo hi skip ts n (c, [])).2.2.2.filterMap Store.looked <+:
        (Asking.load lo hi skip ts n (c, [])).2.2.2.filterMap Ask.sha ∧
      ((Asking.load lo hi skip ts n (c, [])).1 = .ok () →
        (Acting.load lo hi skip ts n (c, [])).2.2.2.filterMap Store.looked =
          (Asking.load lo hi skip ts n (c, [])).2.2.2.filterMap Ask.sha) := by
  have hshas : (Asking.load lo hi skip ts n (c, [])).2.2.2.filterMap Ask.sha =
      (Asking.need c.st lo hi skip).filterMap fun i => c.st.base[i]?.map (·.sha) := by
    have hnotes : (Asking.load lo hi skip ts n (c, [])).2.2.2 = Asking.asked c.st lo hi skip := rfl
    rw [hnotes, Asking.asked, List.filterMap_filterMap]
    congr 1
    funext i
    cases c.st.base[i]? <;> rfl
  have hsame : (Asking.load lo hi skip ts n (c, [])).1 =
      (Acting.load lo hi skip ts n (c, [])).1 := by
    have hasked := congrArg Prod.fst (Asking.erases_load lo hi skip ts n (c, ([] : List (Ask Sha))))
    have hacted := congrArg Prod.fst (erases_load lo hi skip ts n (c, ([] : List (Act Sha))))
    exact hasked.symm.trans hacted
  obtain ⟨front, hlooked, hfront, hall⟩ := loadEach_fetches ts (Asking.need c.st lo hi skip)
    (fun i hi => (Asking.mem_need hi).1) [] n
  have hlog : (Acting.load lo hi skip ts n (c, [])).2.2.2.filterMap Store.looked = front := hlooked
  rw [hlog, hshas, hsame]
  exact ⟨hfront, hall⟩

/-- What a sync of a dirty state does in the store. -/
theorem flushLocked_acts (cfg : WbConfig) {c : FileCtx Sha} (hd : c.st.dirty = true)
    (ho : c.st.closed = false) (n : Nat) :
    (Acting.flushLocked cfg ts n (c, [])).2.2.2 = syncActs cfg c ts n := by
  have htruncate : tempTruncate c.st.size ts n c =
      (.ok (), n, { c with temp := resize c.temp c.st.size }) := by
    unfold tempTruncate checkOpen
    rw [getState, Run.bind_assoc, Run.gets_bind_run]
    simp only [ho]
    rfl
  unfold Acting.flushLocked
  rw [getState, Run.quiet_gets_bind_run, if_pos hd, Run.quiet_bind_run_ok htruncate,
    Run.quiet_gets_bind_run, Run.bind_run]
  unfold Acting.call
  dsimp only
  rcases Wb.call (tempSrc c.st.closed (resize c.temp c.st.size))
      (Store.putFile cfg.toStoreConfig c.st.ino c.st.size (some c.st.dirtyIdx)) ts n
      { c with temp := resize c.temp c.st.size } with ⟨r, n₁, c₁⟩
  cases r <;> rfl

end Acting

end Tgfs
