import Tgfs.Store.Proofs.Safe

/-!
# `put_file` and `free_file` are safe

`PutRes` ties the local variables of `put_file` to the share it owns. The loop keeps it, and
describes the rows it builds by `Scanned`. From it follow the postconditions of the two calls:
they leave nothing behind, and the rows of their inode are the old ones exactly when the call
raised.
-/

namespace Tgfs

namespace Store

open Meta (shas)

variable {Sha : Type}

/-! ## The local variables and the share -/

/-- What `put_file` owns while its local references are `r`: `known` were taken on blobs that
existed, `dones` are the uploads known to have registered. -/
structure PutRes (ow : Owned Sha) (r : Refs Sha) (known : Multiset Sha)
    (dones : Multiset (Sha × FutId)) (g : Res Sha) : Prop where
  owns : g.owns = {ow}
  doomed : g.doomed = 0
  trash : g.trash = 0
  refs : g.refs = known + dones.map Prod.fst
  pending : (r.pending : Multiset (Sha × FutId)) = dones + g.futs
  remembered : ∀ p ∈ dones, p ∈ g.dones
  acquired : (r.acquired : Multiset Sha) = known + (r.pending.map Prod.fst : List Sha)
  keys : (r.pending.map Prod.fst).Nodup
  fresh : ∀ sha ∈ known, sha ∉ r.pending.map Prod.fst
  old : ∀ c ∈ ow.rows, c.sha ∉ r.pending.map Prod.fst
  dups : ∀ sha ∈ r.dups, sha ∈ r.pending.map Prod.fst
  running : ∀ f ∈ r.running, f ∈ r.pending.map Prod.snd

section Lookup

variable [DecidableEq Sha]

theorem fut_eq_some {r : Refs Sha} {sha : Sha} {f : FutId} (h : Refs.fut r sha = some f) :
    (sha, f) ∈ r.pending := by
  obtain ⟨p, hp, rfl⟩ := Option.map_eq_some_iff.mp h
  have hk : p.1 = sha := by simpa using List.find?_some hp
  have := List.mem_of_find?_eq_some hp
  rwa [← hk]

theorem fut_isSome {r : Refs Sha} {sha : Sha} :
    (Refs.fut r sha).isSome = true ↔ sha ∈ r.pending.map Prod.fst := by
  unfold Refs.fut
  rw [Option.isSome_map, List.find?_isSome]
  simp

end Lookup

namespace PutRes

variable {ow : Owned Sha} {r : Refs Sha} {known : Multiset Sha}
  {dones : Multiset (Sha × FutId)} {g : Res Sha}

theorem start (ow : Owned Sha) : PutRes ow {} 0 0 { owns := {ow} } := by
  constructor <;> simp

theorem claim (h : PutRes ow r known dones g) {sha : Sha} (hp : sha ∉ r.pending.map Prod.fst) :
    PutRes ow { r with acquired := r.acquired ++ [sha] } (sha ::ₘ known) dones
      { g with refs := sha ::ₘ g.refs } :=
  { h with
    refs := by rw [h.refs, Multiset.cons_add]
    acquired := by
      rw [← Multiset.coe_add, h.acquired, Multiset.coe_singleton, Multiset.cons_add,
        ← Multiset.singleton_add, add_comm]
    fresh := fun s hs => by
      obtain rfl | hs := Multiset.mem_cons.mp hs
      · exact hp
      · exact h.fresh s hs }

theorem dup (h : PutRes ow r known dones g) {sha : Sha} (hp : sha ∈ r.pending.map Prod.fst) :
    PutRes ow { r with dups := r.dups ++ [sha] } known dones g :=
  { h with
    dups := fun s hs => by
      obtain hs | hs := List.mem_append.mp hs
      · exact h.dups s hs
      · exact List.mem_singleton.mp hs ▸ hp }

theorem setRunning (h : PutRes ow r known dones g) {fs : List FutId}
    (hfs : ∀ f ∈ fs, f ∈ r.running) : PutRes ow { r with running := fs } known dones g :=
  { h with running := fun f hf => h.running f (hfs f hf) }

theorem submit (h : PutRes ow r known dones g) {sha : Sha} (hk : sha ∉ known)
    (hold : ∀ c ∈ ow.rows, c.sha ≠ sha) (hp : sha ∉ r.pending.map Prod.fst) (f : FutId) :
    PutRes ow { acquired := r.acquired ++ [sha], pending := r.pending ++ [(sha, f)]
                dups := r.dups, running := r.running ++ [f] } known dones
      { g with futs := (sha, f) ::ₘ g.futs } where
  owns := h.owns
  doomed := h.doomed
  trash := h.trash
  refs := h.refs
  pending := by
    rw [← Multiset.coe_add, h.pending, Multiset.coe_singleton, Multiset.add_cons,
      ← Multiset.singleton_add, add_comm]
  remembered := h.remembered
  acquired := by
    rw [List.map_append, ← Multiset.coe_add, ← Multiset.coe_add, h.acquired, add_assoc]
    rfl
  keys := by
    rw [List.map_append, List.nodup_append]
    refine ⟨h.keys, by simp, fun a ha b hb => ?_⟩
    obtain rfl : b = sha := by simpa using hb
    rintro rfl
    exact hp ha
  fresh s hs hm := by
    rw [List.map_append, List.mem_append] at hm
    obtain hm | hm := hm
    · exact h.fresh s hs hm
    · obtain rfl : s = sha := by simpa using hm
      exact hk hs
  old c hc hm := by
    rw [List.map_append, List.mem_append] at hm
    obtain hm | hm := hm
    · exact h.old c hc hm
    · exact hold c hc (by simpa using hm)
  dups s hs := by
    rw [List.map_append]
    exact List.mem_append_left _ (h.dups s hs)
  running f' hf := by
    rw [List.map_append]
    obtain hf | hf := List.mem_append.mp hf
    · exact List.mem_append_left _ (h.running f' hf)
    · obtain rfl := List.mem_singleton.mp hf
      simp

/-- Of a future in `pending` one knows that it is done, or it is still in flight. -/
theorem pending_cases (h : PutRes ow r known dones g) {p : Sha × FutId} (hp : p ∈ r.pending) :
    p ∈ dones ∨ ∃ futs, g.futs = p ::ₘ futs := by
  have : p ∈ dones + g.futs := h.pending ▸ Multiset.mem_coe.mpr hp
  obtain hd | hf := Multiset.mem_add.mp this
  · exact .inl hd
  · exact .inr (Multiset.exists_cons_of_mem hf)

theorem finish (h : PutRes ow r known dones g) {p : Sha × FutId}
    {futs : Multiset (Sha × FutId)} (hf : g.futs = p ::ₘ futs) :
    PutRes ow r known (p ::ₘ dones)
      { g with futs := futs, dones := p ::ₘ g.dones, refs := p.1 ::ₘ g.refs } :=
  { h with
    refs := by rw [h.refs, Multiset.map_cons, Multiset.add_cons]
    pending := by rw [h.pending, hf, Multiset.add_cons, Multiset.cons_add]
    remembered := fun q hq => by
      obtain rfl | hq := Multiset.mem_cons.mp hq
      · exact Multiset.mem_cons_self _ _
      · exact Multiset.mem_cons_of_mem (h.remembered q hq) }

/-- When every upload is known to be done, none is in flight. -/
theorem all_done (h : PutRes ow r known dones g) (hall : ∀ p ∈ r.pending, p ∈ dones) :
    g.futs = 0 := by
  rw [Multiset.eq_zero_iff_forall_notMem]
  intro p hp
  have hn : (dones + g.futs).Nodup := by
    rw [← h.pending, Multiset.coe_nodup]
    exact h.keys.of_map _
  have hm : p ∈ r.pending := by
    rw [← Multiset.mem_coe, h.pending]
    exact Multiset.mem_add.mpr (.inr hp)
  exact Multiset.disjoint_left.mp (Multiset.nodup_add.mp hn).2.2 (hall p hm) hp

end PutRes

/-! ## Waiting for uploads -/

variable [DecidableEq Sha] [Sha256 Sha] {mayFail : Prop} {canFree : Ino → Prop} {src : Src Sha}
  {ow : Owned Sha} {r : Refs Sha} {known : Multiset Sha} {dones : Multiset (Sha × FutId)}
  {g : Res Sha}

/-- An exception that an upload raised. -/
def UploadErr (mayFail : Prop) (e : Option (PyErr Sha)) : Prop :=
  ∀ x, e = some x → x = .uploadFailed ∧ mayFail

theorem safe_results (h : PutRes ow r known dones g) {ps : List (Sha × FutId)}
    (hps : ∀ p ∈ ps, p ∈ r.pending) :
    StoreSafe mayFail canFree src (fun e g' => UploadErr mayFail e ∧
      ∃ dones', PutRes ow r known dones' g' ∧ (∀ p ∈ dones, p ∈ dones') ∧
        (e = none → ∀ p ∈ ps, p ∈ dones')) (results (ps.map Prod.snd)) g := by
  induction ps generalizing dones g with
  | nil => exact safe_pure ⟨by simp [UploadErr], dones, h, fun _ hp => hp, by simp⟩
  | cons p ps ih =>
    have hps' : ∀ q ∈ ps, q ∈ r.pending := fun q hq => hps q (List.mem_cons_of_mem _ hq)
    obtain hd | ⟨futs, hf⟩ := h.pending_cases (hps p List.mem_cons_self)
    · refine safe_bind (safe_result_done (h.remembered p hd)) ?_
      rintro e g' ⟨rfl, rfl⟩
      refine (ih h hps').mono ?_
      rintro e g'' ⟨herr, dones', h', hmono, hall⟩
      refine ⟨herr, dones', h', hmono, fun he q hq => ?_⟩
      obtain rfl | hq := List.mem_cons.mp hq
      · exact hmono q hd
      · exact hall he q hq
    · refine safe_bind (safe_result hf) ?_
      rintro e g' (⟨rfl, rfl⟩ | ⟨rfl, hmay, rfl⟩)
      · refine (ih (h.finish hf) hps').mono ?_
        rintro e g'' ⟨herr, dones', h', hmono, hall⟩
        refine ⟨herr, dones', h', fun q hq => hmono q (Multiset.mem_cons_of_mem hq),
          fun he q hq => ?_⟩
        obtain rfl | hq := List.mem_cons.mp hq
        · exact hmono q (Multiset.mem_cons_self _ _)
        · exact hall he q hq
      · refine safe_pure ⟨fun x hx => ?_, dones, h, fun _ hq => hq, by simp⟩
        cases hx
        exact ⟨rfl, hmay⟩

omit [DecidableEq Sha] [Sha256 Sha] in
theorem exists_pending {r : Refs Sha} {fs : List FutId}
    (h : ∀ f ∈ fs, f ∈ r.pending.map Prod.snd) :
    ∃ ps : List (Sha × FutId), (∀ p ∈ ps, p ∈ r.pending) ∧ ps.map Prod.snd = fs := by
  induction fs with
  | nil => exact ⟨[], by simp⟩
  | cons f fs ih =>
    obtain ⟨ps, hps, rfl⟩ := ih fun f' hf => h f' (List.mem_cons_of_mem _ hf)
    obtain ⟨p, hp, rfl⟩ := List.mem_map.mp (h f List.mem_cons_self)
    exact ⟨p :: ps, List.forall_mem_cons.mpr ⟨hp, hps⟩, rfl⟩

theorem safe_waitSlot (workers k : Nat) (h : PutRes ow r known dones g) {fs : List FutId}
    (hfs : ∀ f ∈ fs, f ∈ r.running) :
    StoreSafe mayFail canFree src (fun p g' => UploadErr mayFail p.2 ∧
      (∀ f ∈ p.1, f ∈ r.running) ∧ ∃ dones', PutRes ow r known dones' g')
      (waitSlot workers k fs) g := by
  induction k generalizing dones g fs with
  | zero => exact safe_pure ⟨by simp [UploadErr], hfs, dones, h⟩
  | succ k ih =>
    unfold waitSlot
    split
    case isFalse => exact safe_pure ⟨by simp [UploadErr], hfs, dones, h⟩
    case isTrue =>
      refine safe_bind (safe_waitFirst fs) ?_
      rintro done g' ⟨hdone, rfl⟩
      obtain ⟨ps, hps, rfl⟩ := exists_pending fun f hf => h.running f (hfs f (hdone f hf))
      have hrest : ∀ f ∈ fs.filter (· ∉ ps.map Prod.snd), f ∈ r.running :=
        fun f hf => hfs f (List.mem_filter.mp hf).1
      refine safe_bind (safe_results h hps) ?_
      rintro e g'' ⟨herr, dones', h', -, -⟩
      cases e with
      | some x => exact safe_pure ⟨herr, hrest, dones', h'⟩
      | none => exact ih h' hrest

/-! ## The loop -/

theorem safe_acquire (workers : Nat) {sha : Sha} {data : Bytes} (hsha : sha256 data = sha)
    (hf : ow.freeing = false) (h : PutRes ow r known dones g) :
    StoreSafe mayFail canFree src (fun p g' => UploadErr mayFail p.2 ∧
      (∃ known' dones', PutRes ow p.1 known' dones' g') ∧
        (p.2 = none → (p.1.acquired ++ p.1.dups).Perm (sha :: (r.acquired ++ r.dups))))
      (acquire workers sha data r) g := by
  unfold acquire
  split
  case isTrue hp =>
    refine safe_pure ⟨by simp [UploadErr], ⟨known, dones, h.dup (fut_isSome.mp hp)⟩, fun _ => ?_⟩
    rw [← List.append_assoc]
    exact List.perm_append_singleton _ _
  case isFalse hp =>
    have hp' : sha ∉ r.pending.map Prod.fst := fun hm => hp (fut_isSome.mpr hm)
    refine safe_bind (safe_claimKnown h.owns hf sha) ?_
    rintro known' g' (⟨rfl, rfl⟩ | ⟨rfl, rfl, hno, hold⟩)
    · refine safe_pure ⟨by simp [UploadErr], ⟨_, dones, h.claim hp'⟩, fun _ => ?_⟩
      rw [List.append_assoc]
      exact List.perm_middle
    · have hk : sha ∉ known := fun hm => hno (h.refs ▸ Multiset.mem_add.mpr (.inl hm))
      refine safe_bind (safe_waitSlot workers _ h fun _ hf => hf) ?_
      rintro ⟨fs, e⟩ g'' ⟨herr, hfs, dones', h'⟩
      cases e with
      | some x =>
        exact safe_pure ⟨herr, ⟨known, dones', h'.setRunning hfs⟩, fun he => by cases he⟩
      | none =>
        refine safe_bind (safe_submit hsha) ?_
        rintro f g₃ rfl
        refine safe_pure ⟨by simp [UploadErr],
          ⟨known, dones', (h'.setRunning hfs).submit hk hold hp' f⟩, fun _ => ?_⟩
        rw [List.append_assoc]
        exact List.perm_middle

/-- The rows `put_file` has built when it has come to offset `off`. -/
inductive Scanned (cfg : StoreConfig) (size : Nat) (dirty : Option (Finset Nat))
    (old : List (Chunk Sha)) (src : Src Sha) : List (Chunk Sha) → Nat → Prop where
  | nil : Scanned cfg size dirty old src [] 0
  | clean {new off row} : Scanned cfg size dirty old src new off → off < size →
      cleanRow dirty old new.length off (min cfg.chunkSize (size - off)) = some row →
      Scanned cfg size dirty old src
        (new ++ [⟨new.length, off, min cfg.chunkSize (size - off), row.sha⟩])
        (off + min cfg.chunkSize (size - off))
  | fresh {new off data} : Scanned cfg size dirty old src new off → off < size →
      cleanRow dirty old new.length off (min cfg.chunkSize (size - off)) = none →
      src off (min cfg.chunkSize (size - off)) = .ok data → data ≠ [] →
      Scanned cfg size dirty old src (new ++ [⟨new.length, off, data.length, sha256 data⟩])
        (off + data.length)

/-- The loop is over: the file is complete, or the source ran dry. -/
def ScanEnd (cfg : StoreConfig) (size : Nat) (src : Src Sha) (off : Nat) : Prop :=
  size ≤ off ∨ src off (min cfg.chunkSize (size - off)) = .ok []

omit [DecidableEq Sha] in
theorem Scanned.idxSorted {cfg : StoreConfig} {size : Nat} {dirty : Option (Finset Nat)}
    {old : List (Chunk Sha)} {new : List (Chunk Sha)} {off : Nat}
    (h : Scanned cfg size dirty old src new off) : IdxSorted new := by
  have key : (∀ c ∈ new, c.idx < new.length) ∧ IdxSorted new := by
    induction h with
    | nil => exact ⟨by simp, List.Pairwise.nil⟩
    | clean _ _ _ ih | fresh _ _ _ _ _ ih =>
      obtain ⟨hlt, hs⟩ := ih
      refine ⟨fun c hc => ?_, List.pairwise_append.mpr ⟨hs, by simp, fun a ha b hb => ?_⟩⟩
      · rw [List.length_append, List.length_singleton]
        obtain hc | hc := List.mem_append.mp hc
        · exact Nat.lt_succ_of_lt (hlt c hc)
        · rw [List.mem_singleton.mp hc]
          exact Nat.lt_succ_self _
      · rw [List.mem_singleton.mp hb]
        exact Nat.le_of_lt (hlt a ha)
  exact key.2

/-- How a call of `put_file` may fail: an upload or the source raised. -/
def PutErr (mayFail : Prop) (src : Src Sha) (e : PyErr Sha) : Prop :=
  (e = .uploadFailed ∧ mayFail) ∨ ∃ pos want, src pos want = .error e

omit [DecidableEq Sha] [Sha256 Sha] in
theorem cleanRow_eq_some {dirty : Option (Finset Nat)} {old : List (Chunk Sha)}
    {idx off want : Nat} {row : Chunk Sha} (h : cleanRow dirty old idx off want = some row) :
    old[idx]? = some row ∧ row.off = off ∧ row.len = want ∧ ∃ d, dirty = some d ∧ idx ∉ d := by
  unfold cleanRow at h
  cases dirty with
  | none => cases h
  | some d =>
    simp only at h
    split at h
    · cases h
    · obtain ⟨hrow, hp⟩ := Option.filter_eq_some_iff.mp h
      obtain ⟨h₁, h₂⟩ : row.off = off ∧ row.len = want := by simpa using hp
      exact ⟨hrow, h₁, h₂, d, rfl, by assumption⟩

/-- What the loop of `put_file` keeps. -/
structure LoopInv (cfg : StoreConfig) (size : Nat) (dirty : Option (Finset Nat)) (src : Src Sha)
    (ow : Owned Sha) (st : PutState Sha) : Prop where
  idx : st.idx = st.new.length
  pos : st.pos = st.off
  scanned : Scanned cfg size dirty ow.rows src st.new st.off
  refs : (shas st.new).Perm (st.refs.acquired ++ st.refs.dups)

theorem safe_putLoop {cfg : StoreConfig} {size : Nat} {dirty : Option (Finset Nat)}
    (hf : ow.freeing = false) (st : PutState Sha) (hl : LoopInv cfg size dirty src ow st)
    (h : PutRes ow st.refs known dones g) :
    StoreSafe mayFail canFree src (fun p g' =>
      (∃ known' dones', PutRes ow p.1.refs known' dones' g') ∧
        (p.2 = none → LoopInv cfg size dirty src ow p.1 ∧ ScanEnd cfg size src p.1.off) ∧
          ∀ e, p.2 = some e → PutErr mayFail src e)
      (putLoop cfg ow.ino size dirty ow.rows st) g := by
  -- the loop ends because every round moves `off` towards `size`
  induction hn : size - st.off using Nat.strong_induction_on generalizing st known dones g with
  | _ n ih =>
    rw [putLoop]
    split
    case isFalse hoff =>
      exact safe_pure ⟨⟨known, dones, h⟩, fun _ => ⟨hl, .inl (Nat.le_of_not_lt hoff)⟩, by simp⟩
    case isTrue hoff =>
      have hcs := cfg.chunkSize_pos
      split
      case h_1 row hrow =>
        obtain ⟨hold, -⟩ := cleanRow_eq_some hrow
        have hmem : row ∈ ow.rows := List.mem_of_getElem? hold
        refine Machine.Safe.bind (p := perform (.claimKnown row.sha))
          (safe_claimKnown_own h.owns hf hmem) ?_
        rintro known' g' ⟨rfl, rfl⟩
        refine ih (size - (st.off + min cfg.chunkSize (size - st.off))) (by omega) _
          ⟨?_, rfl, ?_, ?_⟩ (h.claim (h.old row hmem)) rfl
        · simp [hl.idx]
        · rw [hl.idx] at hrow ⊢
          exact hl.scanned.clean hoff hrow
        · have := (hl.refs.cons row.sha).trans List.perm_middle.symm
          simpa [shas, List.append_assoc] using (List.perm_append_singleton _ _).trans this
      case h_2 hrow =>
        refine Machine.Safe.bind (p := perform (.read st.pos _)) (safe_read _ _) ?_
        rintro got g' ⟨rfl, rfl⟩
        rw [hl.pos]
        split
        case h_1 e he =>
          refine safe_pure ⟨⟨known, dones, h⟩, by simp, fun e' he' => ?_⟩
          cases he'
          exact .inr ⟨_, _, he⟩
        case h_2 data hdata =>
          split
          case isTrue hnil =>
            subst hnil
            exact safe_pure ⟨⟨known, dones, h⟩, fun _ => ⟨hl, .inr hdata⟩, by simp⟩
          case isFalse hne =>
            refine safe_bind (safe_acquire _ rfl hf h) ?_
            rintro ⟨refs, e⟩ g'' ⟨herr, ⟨known', dones', h'⟩, hperm⟩
            cases e with
            | some x =>
              refine safe_pure ⟨⟨known', dones', h'⟩, by simp, fun e' he' => ?_⟩
              cases he'
              exact .inl (herr x rfl)
            | none =>
              have hlen := List.length_pos_iff.mpr hne
              refine ih (size - (st.off + data.length)) (by omega) _ ⟨?_, rfl, ?_, ?_⟩ h' rfl
              · simp [hl.idx]
              · rw [hl.idx] at hrow ⊢
                exact hl.scanned.fresh hoff hrow hdata hne
              · have := (hl.refs.cons (sha256 data)).trans (hperm rfl).symm
                simpa [shas] using (List.perm_append_singleton _ _).trans this

/-! ## Rolling back -/

/-- What is left of the share of a call that is over: the inode. -/
structure Idle (ow : Owned Sha) (g : Res Sha) : Prop where
  refs : g.refs = 0
  futs : g.futs = 0
  doomed : g.doomed = 0
  trash : g.trash = 0
  owns : g.owns = {ow}

/-- What `put_file` owns while it releases `rest`, the tail of `acquired`. -/
structure RollRes (ow : Owned Sha) (r : Refs Sha) (rest : List Sha) (known : Multiset Sha)
    (dones : Multiset (Sha × FutId)) (g : Res Sha) : Prop where
  owns : g.owns = {ow}
  futs : g.futs = 0
  trash : g.trash = 0
  refs : g.refs = known + dones.map Prod.fst
  remembered : ∀ p ∈ dones, p ∈ g.dones
  pending : ∀ p ∈ dones + g.doomed, p ∈ r.pending
  rest : (rest : Multiset Sha) = known + (dones + g.doomed).map Prod.fst
  keys : (r.pending.map Prod.fst).Nodup
  fresh : ∀ sha ∈ known, sha ∉ r.pending.map Prod.fst

/-- Every future that is not done yet is asked to cancel. -/
theorem safe_cancelAll (hd : ∀ p ∈ dones, p ∈ g.dones) {ps : List (Sha × FutId)}
    (hn : ps.Nodup) (hfuts : ∀ p ∈ g.futs, p ∈ ps) (hnf : g.futs.Nodup)
    (hcases : ∀ p ∈ ps, p ∈ dones ∨ p ∈ g.futs) :
    StoreSafe mayFail canFree src
      (fun _ g' => g' = { g with futs := 0, doomed := g.futs + g.doomed })
      (cancelAll (ps.map Prod.snd)) g := by
  induction ps generalizing g with
  | nil =>
    have h0 : g.futs = 0 :=
      Multiset.eq_zero_iff_forall_notMem.mpr fun p hp => by simpa using hfuts p hp
    refine safe_pure ?_
    ext1 <;> simp [h0]
  | cons p ps ih =>
    obtain ⟨hp, hn'⟩ := List.nodup_cons.mp hn
    by_cases hpf : p ∈ g.futs
    · obtain ⟨futs, hf⟩ := Multiset.exists_cons_of_mem hpf
      rw [hf] at hnf hfuts hcases
      obtain ⟨hpn, hnf'⟩ := Multiset.nodup_cons.mp hnf
      refine safe_bind (safe_cancel hf) ?_
      rintro _ g' rfl
      refine (ih (g := { g with futs := futs, doomed := p ::ₘ g.doomed }) hd hn'
        (fun q hq => ?_) hnf' (fun q hq => ?_)).mono ?_
      · obtain rfl | hq' := List.mem_cons.mp (hfuts q (Multiset.mem_cons_of_mem hq))
        · exact absurd hq hpn
        · exact hq'
      · obtain h | h := hcases q (List.mem_cons_of_mem _ hq)
        · exact .inl h
        · obtain rfl | h := Multiset.mem_cons.mp h
          · exact absurd hq hp
          · exact .inr h
      · rintro _ g' rfl
        ext1 <;> simp [hf, Multiset.cons_add, Multiset.add_cons]
    · have hpd := (hcases p List.mem_cons_self).resolve_right hpf
      refine safe_bind (safe_cancel_done (hd p hpd)) ?_
      rintro _ g' rfl
      refine ih hd hn' (fun q hq => ?_) hnf fun q hq => hcases q (List.mem_cons_of_mem _ hq)
      obtain rfl | hq' := List.mem_cons.mp (hfuts q hq)
      · exact absurd hq hpf
      · exact hq'

omit [DecidableEq Sha] [Sha256 Sha] in
/-- The pair that `pending` holds for a hash is the only one. -/
theorem RollRes.unique {rest : List Sha} (h : RollRes ow r rest known dones g) {sha : Sha}
    {f f' : FutId} (hp : (sha, f) ∈ r.pending) (hp' : (sha, f') ∈ r.pending) : f = f' := by
  have := List.inj_on_of_nodup_map h.keys hp hp' rfl
  exact (Prod.mk.inj this).2

theorem safe_releaseAcquired {rest : List Sha} (h : RollRes ow r rest known dones g) :
    StoreSafe mayFail canFree src (fun e g' => e = none ∧ Idle ow g')
      (releaseAcquired r rest) g := by
  induction rest generalizing known dones g with
  | nil =>
    have h0 := congrArg Multiset.card h.rest
    simp only [Multiset.coe_card, List.length_nil, Multiset.card_add, Multiset.card_map] at h0
    have hk : known = 0 := Multiset.card_eq_zero.mp (by omega)
    have hd : dones = 0 := Multiset.card_eq_zero.mp (by omega)
    have hdm : g.doomed = 0 := Multiset.card_eq_zero.mp (by omega)
    exact safe_pure ⟨rfl, by simp [h.refs, hk, hd], h.futs, hdm, h.trash, h.owns⟩
  | cons sha rest ih =>
    have hcons : sha ::ₘ (rest : Multiset Sha) = known + (dones + g.doomed).map Prod.fst :=
      h.rest
    have hmem : sha ∈ known + (dones + g.doomed).map Prod.fst :=
      hcons ▸ Multiset.mem_cons_self _ _
    unfold releaseAcquired
    cases hfut : Refs.fut r sha with
    | none =>
      have hno : sha ∉ r.pending.map Prod.fst := fun hm => by
        have := fut_isSome.mpr hm
        rw [hfut] at this
        cases this
      have hk : sha ∈ known := by
        refine (Multiset.mem_add.mp hmem).resolve_right fun hm => hno ?_
        obtain ⟨p, hp, rfl⟩ := Multiset.mem_map.mp hm
        exact List.mem_map_of_mem (h.pending p hp)
      obtain ⟨known, rfl⟩ := Multiset.exists_cons_of_mem hk
      rw [Multiset.cons_add, Multiset.cons_inj_right] at hcons
      refine safe_ret_bind (safe_bind (safe_release
        (h.refs.trans (Multiset.cons_add _ _ _))) ?_)
      rintro e g' ⟨rfl, rfl⟩
      exact ih { h with
        refs := rfl
        rest := hcons
        fresh := fun s hs => h.fresh s (Multiset.mem_cons_of_mem hs) }
    | some f =>
      have hp := fut_eq_some hfut
      have hup : (sha, f) ∈ dones + g.doomed := by
        obtain hk | hm := Multiset.mem_add.mp hmem
        · exact absurd (List.mem_map_of_mem hp) (h.fresh sha hk)
        · obtain ⟨⟨sha', f'⟩, hq, rfl⟩ := Multiset.mem_map.mp hm
          exact h.unique (h.pending _ hq) hp ▸ hq
      obtain hd | hd := Multiset.mem_add.mp hup
      · obtain ⟨dones, rfl⟩ := Multiset.exists_cons_of_mem hd
        refine safe_bind (safe_failed_done (h.remembered _ hd)) ?_
        rintro failed g' ⟨rfl, rfl⟩
        have hrefs : g'.refs = sha ::ₘ (known + dones.map Prod.fst) := by
          rw [h.refs, Multiset.map_cons, Multiset.add_cons]
        rw [Multiset.cons_add, Multiset.map_cons, Multiset.add_cons,
          Multiset.cons_inj_right] at hcons
        refine safe_bind (safe_release hrefs) ?_
        rintro e g'' ⟨rfl, rfl⟩
        exact ih { h with
          refs := rfl
          remembered := fun q hq => h.remembered q (Multiset.mem_cons_of_mem hq)
          pending := fun q hq => h.pending q
            (by rw [Multiset.cons_add]; exact Multiset.mem_cons_of_mem hq)
          rest := hcons }
      · obtain ⟨doomed, hdm⟩ := Multiset.exists_cons_of_mem hd
        rw [hdm, Multiset.add_cons, Multiset.map_cons, Multiset.add_cons,
          Multiset.cons_inj_right] at hcons
        have hpend : ∀ p ∈ dones + doomed, p ∈ r.pending := fun q hq => h.pending q
          (by rw [hdm, Multiset.add_cons]; exact Multiset.mem_cons_of_mem hq)
        refine safe_bind (safe_failed hdm) ?_
        rintro failed g' (⟨rfl, rfl⟩ | ⟨rfl, rfl⟩)
        · exact ih { h with pending := hpend, rest := hcons }
        · refine safe_bind (safe_release rfl) ?_
          rintro e g'' ⟨rfl, rfl⟩
          exact ih { h with pending := hpend, rest := hcons }

/-- The first half of the `except` clause: no future is in flight behind it. -/
def settle (r : Refs Sha) : StoreProg Sha Unit := do
  cancelAll (r.pending.map (·.2))
  perform (.waitAll (r.pending.map (·.2)))

omit [Sha256 Sha] in
theorem rollback_eq (r : Refs Sha) :
    rollback r = (settle r).bind fun _ => releaseAcquired r r.acquired :=
  (Prog.bind_assoc _ _ _).symm

theorem safe_settle (h : PutRes ow r known dones g) :
    StoreSafe mayFail canFree src (fun _ g' => RollRes ow r r.acquired known dones g')
      (settle r) g := by
  have hn : r.pending.Nodup := h.keys.of_map _
  have hnf : g.futs.Nodup := by
    have : (dones + g.futs).Nodup := h.pending ▸ Multiset.coe_nodup.mpr hn
    exact (Multiset.nodup_add.mp this).2.1
  have hmem : ∀ p, p ∈ r.pending ↔ p ∈ dones ∨ p ∈ g.futs := fun p => by
    rw [← Multiset.mem_add, ← h.pending, Multiset.mem_coe]
  refine safe_bind (safe_cancelAll h.remembered hn (fun p hp => (hmem p).mpr (.inr hp)) hnf
    fun p hp => (hmem p).mp hp) ?_
  rintro _ g' rfl
  refine (safe_waitAll _).mono ?_
  rintro _ g' rfl
  refine ⟨h.owns, rfl, h.trash, h.refs, h.remembered, fun p hp => ?_, ?_, h.keys, h.fresh⟩
  · simp only [h.doomed, add_zero, Multiset.mem_add] at hp
    exact (hmem p).mpr hp
  · simp only [h.doomed, add_zero]
    rw [h.acquired, ← h.pending, Multiset.map_coe]

theorem safe_rollback (h : PutRes ow r known dones g) :
    StoreSafe mayFail canFree src (fun e g' => e = none ∧ Idle ow g') (rollback r) g := by
  rw [rollback_eq]
  exact safe_bind (safe_settle h) fun _ _ h' => safe_releaseAcquired h'

/-! ## The calls -/

theorem safe_increfAll {hs : List Sha} (h : ∀ sha ∈ hs, sha ∈ g.refs) :
    StoreSafe mayFail canFree src (fun _ g' => g' = { g with refs := (hs : Multiset Sha) + g.refs })
      (increfAll hs) g := by
  induction hs generalizing g with
  | nil => exact safe_pure (by simp)
  | cons sha hs ih =>
    refine safe_bind (safe_blobIncref (h sha List.mem_cons_self)) ?_
    rintro _ g' rfl
    refine (ih fun x hx => ?_).mono ?_
    · exact Multiset.mem_cons_of_mem (h x (List.mem_cons_of_mem _ hx))
    · rintro _ g' rfl
      rw [← Multiset.cons_coe, Multiset.cons_add, Multiset.add_cons]

theorem safe_releaseAll {hs : List Sha} {refs : Multiset Sha} (h : g.refs = hs + refs) :
    StoreSafe mayFail canFree src (fun e g' => e = none ∧ g' = { g with refs := refs })
      (releaseAll hs) g := by
  induction hs generalizing g with
  | nil =>
    rw [Multiset.coe_nil, zero_add] at h
    exact safe_pure ⟨rfl, by rw [← h]⟩
  | cons sha hs ih =>
    rw [← Multiset.cons_coe, Multiset.cons_add] at h
    refine safe_bind (safe_release h) ?_
    rintro e g' ⟨rfl, rfl⟩
    exact ih (g := { g with refs := (hs : Multiset Sha) + refs }) rfl

theorem safe_putBody {cfg : StoreConfig} {size : Nat} {dirty : Option (Finset Nat)}
    (hf : ow.freeing = false) :
    StoreSafe mayFail canFree src (fun p g' =>
      (p.2 = none → Scanned cfg size dirty ow.rows src p.1.new p.1.off ∧
        ScanEnd cfg size src p.1.off ∧ g'.refs = shas p.1.new ∧ g'.futs = 0 ∧ g'.doomed = 0 ∧
        g'.trash = 0 ∧ g'.owns = {ow}) ∧
      ∀ e, p.2 = some e → PutErr mayFail src e ∧
        ∃ known dones, PutRes ow p.1.refs known dones g')
      (putBody cfg ow.ino size dirty ow.rows) { owns := {ow} } := by
  refine safe_bind (safe_putLoop hf {} ⟨rfl, rfl, .nil, .refl _⟩ (PutRes.start ow)) ?_
  rintro ⟨st, e⟩ g' ⟨⟨known, dones, h⟩, hend, herr⟩
  cases e with
  | some x =>
    refine safe_pure ⟨by simp, fun e he => ?_⟩
    cases he
    exact ⟨herr x rfl, known, dones, h⟩
  | none =>
    obtain ⟨hl, hend⟩ := hend rfl
    refine safe_bind (safe_results h fun _ hp => hp) ?_
    rintro e g'' ⟨herr, dones', h', -, hall⟩
    cases e with
    | some x =>
      refine safe_pure ⟨by simp, fun e he => ?_⟩
      cases he
      exact ⟨.inl (herr x rfl), known, dones', h'⟩
    | none =>
      have hfuts := h'.all_done (hall rfl)
      have hpend := h'.pending
      rw [hfuts, add_zero] at hpend
      have hrefs : g''.refs = st.refs.acquired := by
        rw [h'.refs, h'.acquired, ← hpend, Multiset.map_coe]
      refine safe_bind (safe_increfAll fun sha hs => ?_) ?_
      · rw [hrefs, h'.acquired]
        exact Multiset.mem_add.mpr (.inr (h'.dups sha hs))
      · rintro _ g₃ rfl
        refine safe_pure ⟨fun _ => ⟨hl.scanned, hend, ?_, hfuts, h'.doomed, h'.trash, h'.owns⟩,
          by simp⟩
        rw [hrefs, Multiset.coe_add, Multiset.coe_eq_coe]
        exact (hl.refs.trans List.perm_append_comm).symm

/-- The inode after `put_file`. -/
def written (ow : Owned Sha) (new : List (Chunk Sha)) (off : Nat) (now : Time) : Owned Sha :=
  { ow with
    rows := new
    inode := ow.inode.map fun n => { n with size := off, mtime := now, ctime := now } }

/-- How `put_file` leaves its inode: with the new rows, or as it was if it raised. -/
def PutPost (mayFail : Prop) (cfg : StoreConfig) (size : Nat) (dirty : Option (Finset Nat))
    (src : Src Sha) (ow : Owned Sha) : Except (PyErr Sha) Unit → Owned Sha → Prop
  | .ok _, ow' => ∃ new off now, Scanned cfg size dirty ow.rows src new off ∧
      ScanEnd cfg size src off ∧ ow' = written ow new off now
  | .error e, ow' => PutErr mayFail src e ∧ ow' = ow

/-- How `free_file` leaves its inode. -/
def FreePost (ow : Owned Sha) (r : Except (PyErr Sha) Unit) (ow' : Owned Sha) : Prop :=
  r = .ok () ∧ ow' = { ow with rows := [] }

/-- A call that is over owns its inode only, and is not freeing it. -/
def Over {α : Type} (ino : Ino) (post : α → Owned Sha → Prop) (r : α) (g : Res Sha) : Prop :=
  ∃ ow, post r ow ∧ ow.ino = ino ∧ ow.freeing = false ∧ Idle ow g

theorem safe_putFile {cfg : StoreConfig} {size : Nat} {dirty : Option (Finset Nat)}
    (hf : ow.freeing = false) :
    StoreSafe mayFail canFree src (Over ow.ino (PutPost mayFail cfg size dirty src ow))
      (putFile cfg ow.ino size dirty) { owns := {ow} } := by
  refine safe_bind (safe_getChunks rfl) ?_
  rintro rows g' ⟨rfl, rfl⟩
  refine safe_bind (safe_putBody hf) ?_
  rintro ⟨st, e⟩ g' ⟨hok, herr⟩
  cases e with
  | some x =>
    obtain ⟨hx, known, dones, h⟩ := herr x rfl
    refine safe_bind (safe_rollback h) ?_
    rintro e g'' ⟨rfl, hidle⟩
    exact safe_pure ⟨ow, ⟨hx, rfl⟩, rfl, hf, hidle⟩
  | none =>
    obtain ⟨hscan, hend, hrefs, hfuts, hdoomed, htrash, howns⟩ := hok rfl
    refine safe_bind (safe_setChunks howns hf (hrefs.trans (add_zero _).symm)
      hscan.idxSorted) ?_
    rintro _ g'' rfl
    refine safe_bind (safe_setSize (show _ = {{ ow with rows := st.new }} from rfl) st.off) ?_
    rintro _ g'' ⟨now, rfl⟩
    refine safe_bind (safe_releaseAll rfl) ?_
    rintro e g'' ⟨rfl, rfl⟩
    exact safe_pure ⟨written ow st.new st.off now, ⟨st.new, st.off, now, hscan, hend, rfl⟩, rfl,
      hf, rfl, hfuts, hdoomed, htrash, rfl⟩

theorem safe_freeFile (hf : ow.freeing = false) (hcan : canFree ow.ino) :
    StoreSafe mayFail canFree src (Over ow.ino (FreePost ow)) (freeFile ow.ino)
      { owns := {ow} } := by
  refine safe_bind (safe_getChunkShas rfl hf hcan) ?_
  rintro hs g' ⟨rfl, rfl⟩
  refine safe_bind (safe_releaseAll rfl) ?_
  rintro e g' ⟨rfl, rfl⟩
  refine safe_bind (@safe_endFree _ _ _ _ _ _ _ { ow with freeing := true } rfl rfl) ?_
  rintro _ g' rfl
  refine safe_pure ⟨{ ow with rows := [] }, ⟨rfl, rfl⟩, rfl, hf, rfl, rfl, rfl, rfl, ?_⟩
  simp only [hf]

end Store

end Tgfs
