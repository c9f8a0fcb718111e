import Tgfs.Cache.ReadCache
import Tgfs.Misc.Recency

/-!
# What the read cache keeps

`_total` is the sum of the sizes in `_index`, whatever the threads do, and the index is in the
order of last use. What `_evict` gives up is therefore the least recently used part, and no more
of it than the bound asks for.
-/

namespace Tgfs

namespace ReadCache

variable {Sha : Type} [DecidableEq Sha] {c : ReadCache Sha} {sha : Sha}

/-! ## The accounting -/

/-- The running total is exact, and a hash has one entry. -/
structure Exact (c : ReadCache Sha) : Prop where
  keys : (c.index.map Prod.fst).Nodup
  total : c.total = totalOf c.index

theorem mem_iff : c.mem sha = true ↔ sha ∈ c.index.map Prod.fst := by
  simp [mem]

theorem moveToEnd_perm (sha : Sha) (index : List (Sha × Nat)) :
    (moveToEnd sha index).Perm index := by
  have h := List.filter_append_perm (fun p : Sha × Nat => decide (p.1 ≠ sha)) index
  simpa [moveToEnd] using h

theorem Exact.init (cap : Int) (dir : CacheDir Sha) : (init cap dir).Exact := by
  refine ⟨?_, ?_⟩
  · have hperm := List.perm_insertionSort (fun a b : CacheFile Sha => a.mtime ≤ b.mtime) dir.files
    unfold ReadCache.init
    rw [List.map_map]
    exact (hperm.map fun f => f.name).nodup_iff.mpr dir.nodup
  · simp only [ReadCache.init, totalOf, List.map_map]
    rfl

theorem Exact.moveToEnd (h : c.Exact) : ({ c with index := moveToEnd sha c.index }).Exact := by
  have hperm := moveToEnd_perm sha c.index
  exact ⟨(hperm.map _).nodup_iff.mpr h.keys, h.total.trans (totalOf_perm hperm).symm⟩

theorem Exact.touch (h : c.Exact) (sha : Sha) : (c.touch sha).2.Exact := by
  unfold ReadCache.touch
  split
  · exact h.moveToEnd
  · exact h

theorem Exact.entry (h : c.Exact) {p : Sha × Nat} (hp : p ∈ c.index) :
    c.index.filter (fun q => q.1 = p.1) = [p] := by
  have hkeys := h.keys
  generalize c.index = index at hp hkeys
  induction index with
  | nil => cases hp
  | cons q index ih =>
    rw [List.map_cons, List.nodup_cons] at hkeys
    rcases List.mem_cons.mp hp with rfl | hm
    · have hnil : index.filter (fun q => q.1 = p.1) = [] := by
        rw [List.filter_eq_nil_iff]
        intro q hq heq
        have heq : q.1 = p.1 := by simpa using heq
        exact hkeys.1 (heq ▸ List.mem_map_of_mem hq)
      rw [List.filter_cons_of_pos (by simp), hnil]
    · have hne : q.1 ≠ p.1 := by
        intro heq
        exact hkeys.1 (heq ▸ List.mem_map_of_mem hm)
      rw [List.filter_cons_of_neg (by simpa using hne)]
      exact ih hm hkeys.2

/-- An entry and the others. -/
theorem Exact.split (h : c.Exact) {p : Sha × Nat} (hp : p ∈ c.index) :
    totalOf c.index = p.2 + totalOf (c.index.filter fun q => q.1 ≠ p.1) := by
  have hperm := totalOf_perm (moveToEnd_perm p.1 c.index)
  rw [ReadCache.moveToEnd, h.entry hp, totalOf_append, totalOf_cons, totalOf_nil] at hperm
  omega

theorem Exact.drop (h : c.Exact) (sha : Sha) : (c.drop sha).Exact := by
  unfold ReadCache.drop
  cases hf : c.index.find? fun p => p.1 = sha with
  | none => exact h
  | some p =>
    have hp := List.mem_of_find?_eq_some hf
    have hsha : p.1 = sha := by simpa using List.find?_some hf
    refine ⟨?_, ?_⟩
    · exact h.keys.sublist (List.filter_sublist.map _)
    · have hsplit := h.split hp
      have htotal := h.total
      rw [hsha] at hsplit
      dsimp only
      omega

theorem Exact.put (h : c.Exact) (sha : Sha) (data : Bytes) : (c.put sha data).Exact := by
  unfold ReadCache.put
  split
  · exact h.moveToEnd
  case isFalse hm =>
    rw [mem_iff] at hm
    refine ⟨?_, ?_⟩
    · rw [List.map_append, List.nodup_append]
      refine ⟨h.keys, List.nodup_singleton _, ?_⟩
      intro a ha b hb hab
      have hb : b = sha := List.mem_singleton.mp hb
      exact hm (hb ▸ hab ▸ ha)
    · have htotal := h.total
      rw [totalOf_append, totalOf_cons, totalOf_nil]
      dsimp only
      omega

/-! ## Eviction -/

/-- The loop cuts the index to the bound, and keeps the total. -/
theorem evictLoop_cut (cap : Int) (index : List (Sha × Nat)) (files : Sha → Option Bytes)
    (hne : index ≠ []) : ∃ n, LeastCut cap index n ∧
      (evictLoop cap index (totalOf index) files).1 = index.drop n ∧
        (evictLoop cap index (totalOf index) files).2.1 = totalOf (index.drop n) := by
  induction index generalizing files with
  | nil => exact absurd rfl hne
  | cons p index ih =>
    cases index with
    | nil => exact ⟨0, leastCut_zero (.inr rfl), rfl, rfl⟩
    | cons q index =>
      unfold evictLoop
      split
      case isTrue hover =>
        have htotal : totalOf (p :: q :: index) - p.2 = totalOf (q :: index) := by
          rw [totalOf_cons]
          omega
        obtain ⟨n, hcut, hindex, hsum⟩ := ih (Function.update files p.1 none) (List.cons_ne_nil _ _)
        rw [htotal]
        refine ⟨n + 1, hcut.cons ?_, hindex, hsum⟩
        rintro (hle | hone)
        · omega
        · simp at hone
      case isFalse hle => exact ⟨0, leastCut_zero (.inl (Int.not_lt.mp hle)), rfl, rfl⟩

/-- With one entry for a hash, moving it to the end is taking it out and appending it. -/
theorem Exact.moveToEnd_eq (h : c.Exact) (hm : c.mem sha = true) :
    ∃ size, ReadCache.moveToEnd sha c.index =
      (c.index.filter fun p => p.1 ≠ sha) ++ [(sha, size)] := by
  obtain ⟨⟨_, size⟩, hp, rfl⟩ := List.mem_map.mp (mem_iff.mp hm)
  exact ⟨size, by rw [ReadCache.moveToEnd, h.entry hp]⟩

/-- Where `_store` puts an entry. -/
theorem Exact.put_index (h : c.Exact) (sha : Sha) (data : Bytes) :
    ∃ size, (c.put sha data).index = (c.index.filter fun p => p.1 ≠ sha) ++ [(sha, size)] := by
  unfold ReadCache.put
  split
  case isTrue hm => exact h.moveToEnd_eq hm
  case isFalse hm =>
    refine ⟨data.length, ?_⟩
    have hall : c.index.filter (fun p => p.1 ≠ sha) = c.index := by
      rw [List.filter_eq_self]
      intro p hp
      rw [mem_iff] at hm
      have hne : p.1 ≠ sha := fun heq => hm (heq ▸ List.mem_map_of_mem hp)
      simpa using hne
    rw [hall]

/-- What a `_store` leaves: the index in front of `_evict`, less the shortest front part. -/
structure Stored (c : ReadCache Sha) (sha : Sha) (data : Bytes) (n : Nat) : Prop where
  exact : (c.store sha data).Exact
  index : (c.store sha data).index = (c.put sha data).index.drop n
  cut : LeastCut c.cap (c.put sha data).index n
  stored : sha ∈ (c.store sha data).index.map Prod.fst

theorem put_cap (c : ReadCache Sha) (sha : Sha) (data : Bytes) : (c.put sha data).cap = c.cap := by
  unfold put
  split <;> rfl

theorem Exact.store (h : c.Exact) (sha : Sha) (data : Bytes) : ∃ n, Stored c sha data n := by
  have hput := h.put sha data
  obtain ⟨size, hlast⟩ := h.put_index sha data
  have hne : (c.put sha data).index ≠ [] := by
    rw [hlast]
    simp
  obtain ⟨n, hcut, hindex, htotal⟩ :=
    evictLoop_cut (c.put sha data).cap (c.put sha data).index (c.put sha data).files hne
  rw [← hput.total] at hindex htotal
  have hindex : (c.store sha data).index = (c.put sha data).index.drop n := hindex
  refine ⟨n, ⟨?_, ?_⟩, hindex, put_cap c sha data ▸ hcut, ?_⟩
  · rw [hindex, List.map_drop]
    exact hput.keys.sublist (List.drop_sublist n _)
  · rw [hindex]
    exact htotal
  · rw [hlast] at hcut
    rw [hindex, hlast, List.drop_append_of_le_length (hcut.le_length), List.map_append]
    exact List.mem_append_right _ (List.mem_singleton_self sha)

/-! ## The order -/

/-- The index is in the order of last use. -/
structure Ordered (us : List Sha) (c : ReadCache Sha) : Prop where
  used : ∀ p ∈ c.index, p.1 ∈ us
  order : c.index.Pairwise fun p q => LastBefore us p.1 q.1

variable {us : List Sha}

omit [DecidableEq Sha] in
/-- A part of the index. -/
theorem Ordered.sublist (h : Ordered us c) {c' : ReadCache Sha} (hsub : c'.index.Sublist c.index) :
    Ordered us c' :=
  ⟨fun p hp => h.used p (hsub.subset hp), h.order.sublist hsub⟩

/-- An entry that is used goes to the end. -/
theorem Ordered.atEnd (h : Ordered us c) {c' : ReadCache Sha} {size : Nat}
    (hindex : c'.index = (c.index.filter fun p => p.1 ≠ sha) ++ [(sha, size)]) :
    Ordered (us ++ [sha]) c' := by
  have hne : ∀ p ∈ c.index.filter (fun p => p.1 ≠ sha), p.1 ≠ sha := by
    intro p hp
    simpa using (List.mem_filter.mp hp).2
  have hold := h.order.sublist (List.filter_sublist (p := fun p => decide (p.1 ≠ sha)))
  refine ⟨fun p hp => ?_, ?_⟩
  · rw [hindex] at hp
    rcases List.mem_append.mp hp with hp | hp
    · exact List.mem_append_left _ (h.used p (List.mem_of_mem_filter hp))
    · rw [List.mem_singleton.mp hp]
      exact List.mem_append_right _ (List.mem_singleton_self sha)
  · rw [hindex, List.pairwise_append]
    refine ⟨hold.imp_of_mem ?_, List.pairwise_singleton _ _, ?_⟩
    · intro p q hp _ hpq
      exact hpq.snoc_ne (hne p hp)
    · intro p hp q hq
      rw [List.mem_singleton.mp hq]
      exact lastBefore_snoc_self (h.used p (List.mem_of_mem_filter hp)) (hne p hp)

theorem Ordered.touch (h : Ordered us c) (hx : c.Exact) (hm : c.mem sha = true) :
    Ordered (us ++ [sha]) (c.touch sha).2 := by
  obtain ⟨size, heq⟩ := hx.moveToEnd_eq hm
  rw [ReadCache.touch, if_pos hm]
  exact h.atEnd heq

theorem Ordered.put (h : Ordered us c) (hx : c.Exact) (sha : Sha) (data : Bytes) :
    Ordered (us ++ [sha]) (c.put sha data) := by
  obtain ⟨size, heq⟩ := hx.put_index sha data
  exact h.atEnd heq

theorem Ordered.init (cap : Int) (dir : CacheDir Sha) :
    Ordered ((init cap dir).index.map Prod.fst) (init cap dir) := by
  have h := pairwise_lastBefore (Exact.init cap dir).keys
  rw [List.pairwise_map] at h
  exact ⟨fun p hp => List.mem_map_of_mem hp, h⟩

/-- What every step keeps. -/
structure Kept (cap : Int) (us : List Sha) (c : ReadCache Sha) : Prop where
  cap : c.cap = cap
  exact : c.Exact
  order : Ordered us c

variable {cap : Int} {c' : ReadCache Sha}

theorem Kept.init (cap : Int) (dir : CacheDir Sha) :
    Kept cap ((init cap dir).index.map Prod.fst) (init cap dir) :=
  ⟨rfl, .init cap dir, .init cap dir⟩

omit [DecidableEq Sha] in
/-- Steps that leave the index alone. -/
theorem Kept.same (h : Kept cap us c) (hcap : c'.cap = c.cap) (hindex : c'.index = c.index)
    (htotal : c'.total = c.total) : Kept cap us c' := by
  refine ⟨hcap.trans h.cap, ⟨?_, ?_⟩, ⟨?_, ?_⟩⟩
  · rw [hindex]
    exact h.exact.keys
  · rw [htotal, hindex]
    exact h.exact.total
  · rw [hindex]
    exact h.order.used
  · rw [hindex]
    exact h.order.order

theorem Kept.touch (h : Kept cap us c) (hm : c.mem sha = true) :
    Kept cap (us ++ [sha]) (c.touch sha).2 := by
  refine ⟨?_, h.exact.touch sha, h.order.touch h.exact hm⟩
  rw [ReadCache.touch, if_pos hm]
  exact h.cap

theorem Kept.drop (h : Kept cap us c) (sha : Sha) : Kept cap us (c.drop sha) := by
  refine ⟨?_, h.exact.drop sha, h.order.sublist ?_⟩
  · rw [ReadCache.drop]
    split
    · exact h.cap
    · exact h.cap
  · rw [ReadCache.drop]
    split
    · exact List.filter_sublist
    · exact List.Sublist.refl _

theorem Kept.store (h : Kept cap us c) (sha : Sha) (data : Bytes) :
    Kept cap (us ++ [sha]) (c.store sha data) := by
  obtain ⟨n, hstored⟩ := h.exact.store sha data
  refine ⟨(put_cap c sha data).trans h.cap, hstored.exact, ?_⟩
  refine (h.order.put h.exact sha data).sublist ?_
  rw [hstored.index]
  exact List.drop_sublist n _

end ReadCache

/-- The hash whose blob the next step of a call uses. -/
def Fetch.uses {Sha : Type} [DecidableEq Sha] (c : ReadCache Sha) (f : Fetch Sha) : List Sha :=
  match f.pc with
  | .trying (_ + 1) => if c.mem f.sha then [f.sha] else []
  | .storing _ _ => [f.sha]
  | _ => []

section

open ReadCache

variable {Sha : Type} [DecidableEq Sha] {cap : Int} {us : List Sha} {c : ReadCache Sha}

/-- The step of one call. -/
theorem ReadCache.Kept.advance (h : Kept cap us c) (loader : Sha → Except (PyErr Sha) Bytes)
    (f : Fetch Sha) : Kept cap (us ++ f.uses c) (f.advance loader c).1 := by
  obtain ⟨sha, kind, pc⟩ := f
  have hsame : ∀ c' : ReadCache Sha, c'.cap = c.cap → c'.index = c.index → c'.total = c.total →
      Kept cap (us ++ []) c' := by
    intro c' hcap hindex htotal
    rw [List.append_nil]
    exact h.same hcap hindex htotal
  cases pc with
  | trying left =>
    cases left with
    | zero => exact hsame _ rfl rfl rfl
    | succ left =>
      unfold Fetch.uses Fetch.advance
      dsimp only
      split
      case isTrue hm => exact h.touch hm
      case isFalse hm =>
        rw [ReadCache.touch, if_neg hm]
        exact hsame _ rfl rfl rfl
  | opening left =>
    unfold Fetch.uses Fetch.advance
    dsimp only
    split
    · exact hsame _ rfl rfl rfl
    · exact hsame _ rfl rfl rfl
  | dropping left =>
    have hdrop := h.drop sha
    rw [← List.append_nil us] at hdrop
    exact hdrop
  | joining left =>
    unfold Fetch.uses Fetch.advance ReadCache.register
    dsimp only
    split
    · exact hsame _ rfl rfl rfl
    · exact hsame _ rfl rfl rfl
  | loading ev =>
    unfold Fetch.uses Fetch.advance
    dsimp only
    split
    · exact hsame _ rfl rfl rfl
    · exact hsame _ rfl rfl rfl
  | storing ev data => exact h.store sha data
  | _ => exact hsame _ rfl rfl rfl

end

/-! ## Runs -/

namespace Fetchers

open ReadCache (Kept)

variable {Sha : Type} [DecidableEq Sha] (loader : Nat → Sha → Except (PyErr Sha) Bytes)

/-- The hash whose blob a step uses. -/
def uses (l : Label Sha) (c : Fetchers Sha) : List Sha :=
  match l with
  | .step k _ => (c.calls k).elim [] fun f => f.uses c.cache
  | _ => []

/-- The hashes used along a run. -/
def usesAlong : List (Label Sha) → Fetchers Sha → List Sha
  | [], _ => []
  | l :: ls, c => uses l c ++ usesAlong ls (step loader l c)

variable {loader} {cap : Int} {us : List Sha} {c : Fetchers Sha}

/-- The step lemma. -/
theorem kept_step (h : Kept cap us c.cache) (l : Label Sha) :
    Kept cap (us ++ uses l c) (step loader l c).cache := by
  cases l with
  | call sha kind =>
    rw [show uses (.call sha kind) c = [] from rfl, List.append_nil]
    exact h
  | vanish sha =>
    rw [show uses (.vanish sha) c = [] from rfl, List.append_nil]
    exact h.same rfl rfl rfl
  | step k t =>
    simp only [uses, Fetchers.step]
    cases c.calls k with
    | none =>
      rw [Option.elim_none, List.append_nil]
      exact h
    | some f => exact h.advance (loader t) f

/-- The run lemma. -/
theorem kept_run (h : Kept cap us c.cache) (ls : List (Label Sha)) :
    Kept cap (us ++ usesAlong loader ls c) (run loader ls c).cache := by
  induction ls generalizing us c with
  | nil =>
    rw [usesAlong, List.append_nil]
    exact h
  | cons l ls ih =>
    rw [usesAlong, ← List.append_assoc]
    exact ih (kept_step h l)

variable (loader) in
/-- A bounded LRU: the total is exact, and behind a `_store` of `f.sha` the entries that `_evict`
gave up are the shortest front part of the order of last use. -/
structure BoundedLru (cap : Int) (us : List Sha) (c : Fetchers Sha) : Prop where
  total : c.cache.total = totalOf c.cache.index
  nonneg : 0 ≤ c.cache.total
  store : ∀ k t f ev data, c.calls k = some f → f.pc = .storing ev data →
    let before := c.cache.put f.sha data
    let after := (step loader (.step k t) c).cache
    (after.total ≤ cap ∨ after.index.length = 1) ∧ f.sha ∈ after.index.map Prod.fst ∧
      ∃ n, after.index = before.index.drop n ∧ LeastCut cap before.index n ∧
        ∀ p ∈ before.index.take n, ∀ q ∈ after.index, LastBefore (us ++ [f.sha]) p.1 q.1

theorem boundedLru (h : Kept cap us c.cache) : BoundedLru loader cap us c := by
  refine ⟨h.exact.total, ?_, ?_⟩
  · rw [h.exact.total]
    exact totalOf_nonneg _
  · intro k t f ev data hf hpc
    obtain ⟨n, hstored⟩ := h.exact.store f.sha data
    have hcache : (step loader (.step k t) c).cache = c.cache.store f.sha data := by
      simp only [step, hf, Fetch.advance, hpc]
    have hcut : LeastCut cap (c.cache.put f.sha data).index n := h.cap ▸ hstored.cut
    dsimp only
    rw [hcache]
    refine ⟨?_, hstored.stored, n, hstored.index, hcut, ?_⟩
    · rw [hstored.exact.total, hstored.index]
      exact hcut.1
    · intro p hp q hq
      have horder := (h.order.put h.exact f.sha data).order
      rw [← List.take_append_drop n (c.cache.put f.sha data).index, List.pairwise_append] at horder
      rw [hstored.index] at hq
      exact horder.2.2 p hp q hq

/-- Whatever the threads do, from whatever directory the cache was built over. -/
theorem run_boundedLru (loader : Nat → Sha → Except (PyErr Sha) Bytes) (cap : Int)
    (dir : CacheDir Sha) (ls : List (Label Sha)) :
    BoundedLru loader cap
      ((ReadCache.init cap dir).index.map Prod.fst ++ usesAlong loader ls (start cap dir))
      (run loader ls (start cap dir)) :=
  boundedLru (kept_run (.init cap dir) ls)

end Fetchers

end Tgfs
