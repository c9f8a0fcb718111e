import Tgfs.Cache.CacheLives
import Tgfs.Cache.Proofs.Lru
import Tgfs.Cache.Proofs.Todo

/-!
# No process reads what another one tore

Only `os.replace` puts a file under a hash, and it moves a whole blob. So whatever is left behind
by a process that was killed, the files that are named by hashes are their blobs.
-/

namespace Tgfs

namespace CacheLives

variable {Sha : Type} {blob : Sha → Bytes}

/-- The blobs, and what the `.tmp` files hold. -/
def contents (blob : Sha → Bytes) (torn : Sha → Bytes) : CacheName Sha → Bytes
  | .blob sha => blob sha
  | .tmp sha => torn sha

variable [DecidableEq Sha] {loader : Nat → Sha → Except (PyErr (CacheName Sha)) Bytes}
  {c : Fetchers (CacheName Sha)} {torn : Sha → Bytes}

omit [DecidableEq Sha] in
theorem honest_byName (hload : ∀ t sha data, loader t sha = .ok data → data = blob sha) (t : Nat)
    (name : CacheName Sha) (data : Bytes) (h : byName loader t name = .ok data) :
    data = contents blob torn name := by
  cases name with
  | blob sha => exact hload t sha data h
  | tmp sha => cases h

structure Inv (blob : Sha → Bytes) (c : Fetchers (CacheName Sha)) : Prop where
  flown : ∃ torn, c.Flown (contents blob torn)
  named : ∀ k f, c.calls k = some f → ∃ sha, f.sha = .blob sha
  kept : ∃ cap us, ReadCache.Kept cap us c.cache

omit [DecidableEq Sha] in
theorem Inv.files (h : Inv blob c) {sha : Sha} {data : Bytes}
    (hf : c.cache.files (.blob sha) = some data) : data = blob sha := by
  obtain ⟨torn, hflown⟩ := h.flown
  exact hflown.files (.blob sha) data hf

/-- A step of the calls. -/
theorem Inv.fetch (h : Inv blob c)
    (hload : ∀ t sha data, loader t sha = .ok data → data = blob sha)
    (l : Fetchers.Label (CacheName Sha))
    (hnamed : ∀ name kind, l = .call name kind → ∃ sha, name = .blob sha) :
    Inv blob (Fetchers.step (byName loader) l c) := by
  obtain ⟨torn, hflown⟩ := h.flown
  obtain ⟨cap, us, hkept⟩ := h.kept
  refine ⟨⟨torn, hflown.step (honest_byName hload) l⟩, fun k f hf => ?_,
    ⟨cap, _, Fetchers.kept_step hkept l⟩⟩
  cases l with
  | call name kind =>
    by_cases hk : k = c.nextCall
    · subst hk
      have hnew := hf.symm.trans (Function.update_self _ _ _)
      cases hnew
      exact hnamed name kind rfl
    · exact h.named k f ((Function.update_of_ne hk _ _).symm.trans hf)
  | vanish name => exact h.named k f hf
  | step j t =>
    cases hj : c.calls j with
    | none =>
      rw [Fetchers.step_none hj] at hf
      exact h.named k f hf
    | some g =>
      rw [Fetchers.step_some hj] at hf
      by_cases hk : k = j
      · subst hk
        have hnew := hf.symm.trans (Function.update_self _ _ _)
        cases hnew
        obtain ⟨sha, hsha⟩ := h.named k g hj
        exact ⟨sha, (Fetch.advance_same _ _ _).1.trans hsha⟩
      · exact h.named k f ((Function.update_of_ne hk _ _).symm.trans hf)

theorem Inv.dropTmp (h : Inv blob c) (k : Nat) (c₀ : Fetchers (CacheName Sha)) :
    Inv blob (dropTmp k c₀ c) := by
  obtain ⟨torn, hflown⟩ := h.flown
  obtain ⟨cap, us, hkept⟩ := h.kept
  unfold CacheLives.dropTmp
  split
  · split
    · exact h
    · exact ⟨⟨torn, hflown.flight, hflown.fresh,
        hflown.files.update (r := none) (by simp) rfl, hflown.calls⟩, h.named,
        ⟨cap, us, hkept.same rfl rfl rfl⟩⟩
  · exact h

omit [DecidableEq Sha] in
/-- What a call has in hand does not depend on `.tmp` files. -/
theorem honest_torn {f : Fetch (CacheName Sha)} {torn torn' : Sha → Bytes}
    (h : Fetchers.Honest (contents blob torn) f) (hf : ∃ sha, f.sha = .blob sha) :
    Fetchers.Honest (contents blob torn') f := by
  obtain ⟨sha, hsha⟩ := hf
  unfold Fetchers.Honest at h ⊢
  rw [hsha] at h ⊢
  exact h

theorem Inv.writeFails (h : Inv blob c) (k n : Nat) : Inv blob (writeFails k n c) := by
  obtain ⟨torn, hflown⟩ := h.flown
  obtain ⟨cap, us, hkept⟩ := h.kept
  unfold CacheLives.writeFails
  split
  case h_1 sha kind ev data hk =>
    split
    · exact h
    · have hdata : data = blob sha := hflown.calls k _ hk
      refine ⟨⟨Function.update torn sha (data.take n), ?_, fun j hj => ?_, ?_, fun j f hf => ?_⟩,
        fun j f hf => ?_, ⟨cap, us, hkept.same rfl rfl rfl⟩⟩
      · have hsame : Fetchers.sameFlight c.cache { c.cache with
            files := Function.update c.cache.files (.tmp sha) (some (data.take n)) } :=
          ⟨rfl, rfl, rfl⟩
        exact Eq.mpr (congrArg Flight.Inv (Fetchers.flight_same hk hsame rfl)) hflown.flight
      · have hne : j ≠ k := by
          rintro rfl
          rw [hflown.fresh j hj] at hk
          cases hk
        exact (Function.update_of_ne hne _ _).trans (hflown.fresh j hj)
      · intro name d hd
        change Function.update c.cache.files (.tmp sha) (some (data.take n)) name = some d at hd
        cases name with
        | blob sha' =>
          rw [Function.update_of_ne (by simp)] at hd
          exact hflown.files (.blob sha') d hd
        | tmp sha' =>
          by_cases hs : sha' = sha
          · subst hs
            rw [Function.update_self] at hd
            cases hd
            exact (Function.update_self sha' _ torn).symm
          · rw [Function.update_of_ne (by simpa using hs)] at hd
            exact (hflown.files (.tmp sha') d hd).trans (Function.update_of_ne hs _ torn).symm
      · by_cases hj : j = k
        · subst hj
          have hnew := hf.symm.trans (Function.update_self _ _ _)
          cases hnew
          exact hdata
        · have hf' := (Function.update_of_ne hj _ _).symm.trans hf
          exact honest_torn (hflown.calls j f hf') (h.named j f hf')
      · by_cases hj : j = k
        · subst hj
          have hnew := hf.symm.trans (Function.update_self _ _ _)
          cases hnew
          exact ⟨sha, rfl⟩
        · exact h.named j f ((Function.update_of_ne hj _ _).symm.trans hf)
  case h_2 => exact h

/-! ## Across processes -/

/-- Whatever a process leaves under a hash is the blob. -/
theorem Inv.leaves (h : Inv blob c) {files : CacheName Sha → Option Bytes}
    (hleaves : Leaves c files) {sha : Sha} {data : Bytes} (hf : files (.blob sha) = some data) :
    data = blob sha := by
  obtain ⟨torn, hflown⟩ := h.flown
  cases hleaves with
  | evicting gone =>
    dsimp only at hf
    split at hf
    · cases hf
    · exact h.files hf
  | writing hk n =>
    rw [Function.update_of_ne (by simp)] at hf
    exact h.files hf
  | @replaced k sha' kind ev data' hk gone =>
    dsimp only at hf
    split at hf
    · cases hf
    · rw [Function.update_of_ne (by simp)] at hf
      by_cases hs : sha = sha'
      · subst hs
        rw [Function.update_self] at hf
        cases hf
        exact hflown.calls k _ hk
      · rw [Function.update_of_ne (by simpa using hs)] at hf
        exact h.files hf

theorem found_mem {files : CacheName Sha → Option Bytes} {dir : CacheDir (CacheName Sha)}
    (h : Found files dir) {f : CacheFile (CacheName Sha)} (hf : f ∈ dir.files) :
    files f.name = some f.data := by
  rw [← h f.name]
  obtain ⟨before, behind, hsplit⟩ := List.append_of_mem hf
  have hnodup := dir.nodup
  rw [hsplit, List.map_append, List.map_cons] at hnodup
  have hno : ∀ g ∈ before, ¬ decide (g.name = f.name) = true := by
    intro g hg hname
    have hdisj := (List.nodup_append.mp hnodup).2.2 g.name (List.mem_map_of_mem hg) f.name
      List.mem_cons_self
    exact hdisj (of_decide_eq_true hname)
  rw [hsplit, List.find?_append, List.find?_eq_none.mpr hno]
  simp

theorem Inv.killed (h : Inv blob c) {files : CacheName Sha → Option Bytes}
    {dir : CacheDir (CacheName Sha)} (hleaves : Leaves c files) (hfound : Found files dir)
    (cap : Int) : Inv blob (Fetchers.start cap dir) := by
  refine ⟨⟨fun sha => (files (.tmp sha)).getD [], Fetchers.Flown.start (fun f hf => ?_) cap⟩,
    by simp [Fetchers.start], ⟨cap, _, ReadCache.Kept.init cap dir⟩⟩
  have hfile := found_mem hfound hf
  cases hname : f.name with
  | blob sha =>
    rw [hname] at hfile
    exact h.leaves hleaves hfile
  | tmp sha =>
    rw [hname] at hfile
    simp [contents, hfile]

theorem Inv.first (cap : Int) : Inv blob (Fetchers.start cap ⟨[], List.nodup_nil⟩) :=
  ⟨⟨fun _ => [], Fetchers.Flown.start (by simp) cap⟩, by simp [Fetchers.start],
    ⟨cap, _, ReadCache.Kept.init cap _⟩⟩

/-- The step lemma. -/
theorem Inv.step (h : Inv blob c)
    (hload : ∀ t sha data, loader t sha = .ok data → data = blob sha) (l : Label Sha) :
    Inv blob (step loader l c) := by
  cases l with
  | call sha kind =>
    refine h.fetch hload (.call (.blob sha) kind) fun name kind' hl => ?_
    cases hl
    exact ⟨sha, rfl⟩
  | step k t => exact (h.fetch hload (.step k t) (by simp)).dropTmp k c
  | writeFails k n => exact h.writeFails k n
  | vanish name => exact h.fetch hload (.vanish name) (by simp)

theorem lived_inv (hload : ∀ t sha data, loader t sha = .ok data → data = blob sha)
    (h : Lived loader c) : Inv blob c := by
  induction h with
  | first cap => exact .first cap
  | step _ l ih => exact ih.step hload l
  | killed _ hleaves hfound cap ih => exact ih.killed hleaves hfound cap

/-- What the cache promises in every state of every process. -/
structure Untorn (blob : Sha → Bytes) (c : Fetchers (CacheName Sha)) : Prop where
  /-- A file that is named by a hash is the blob. -/
  files : ∀ sha data, c.cache.files (.blob sha) = some data → data = blob sha
  answers : ∀ k f sha range r, c.calls k = some f → f.sha = .blob sha →
    f.kind = .getRange range → f.pc = .returned (.ok r) → r = some (sliceOf range (blob sha))
  total : c.cache.total = totalOf c.cache.index

/-- However many processes use the directory, and wherever each is killed. -/
theorem lived_untorn (hload : ∀ t sha data, loader t sha = .ok data → data = blob sha)
    (h : Lived loader c) : Untorn blob c := by
  have hinv := lived_inv hload h
  obtain ⟨torn, hflown⟩ := hinv.flown
  obtain ⟨cap, us, hkept⟩ := hinv.kept
  refine ⟨fun sha data hf => hinv.files hf, fun k f sha range r hk hsha hkind hpc => ?_,
    hkept.exact.total⟩
  have hanswer := hflown.singleFlight.answers k f range r hk hkind hpc
  rw [hsha] at hanswer
  exact hanswer

theorem lived_run (h : Lived loader c) (ls : List (Label Sha)) :
    Lived loader (ls.foldl (fun c l => step loader l c) c) := by
  induction ls generalizing c with
  | nil => exact h
  | cons l ls ih => exact ih (h.step l)

/-- A process is killed after the first byte of its write. The next one finds the torn `.tmp` file,
serves the blob all the same, and puts it in the place of that file. -/
theorem lived_untorn_torn :
    let loader : Nat → Bytes → Except (PyErr (CacheName Bytes)) Bytes := fun _ sha => .ok sha
    let ls : List (Label Bytes) :=
      .call [1, 2, 3] (.getRange (some (1, 3))) :: List.replicate 6 (.step 0 0)
    let second := ls.foldl (fun c l => step loader l c)
      (Fetchers.start 10 ⟨[⟨.tmp [1, 2, 3], 0, [1]⟩], List.nodup_singleton _⟩)
    Untorn (fun sha => sha) second ∧
      (second.calls 0).map (·.pc) = some (.returned (.ok (some [2, 3]))) ∧
      second.cache.files (.blob [1, 2, 3]) = some [1, 2, 3] ∧
      second.cache.files (.tmp [1, 2, 3]) = none := by
  intro loader ls second
  let first := (ls.take 4).foldl (fun c l => step loader l c)
    (Fetchers.start 10 ⟨[], List.nodup_nil⟩)
  have hstoring : first.calls 0 =
      some ⟨.blob [1, 2, 3], .getRange (some (1, 3)), .storing 0 [1, 2, 3]⟩ := rfl
  have hsecond : Lived loader second := by
    have hfirst : Lived loader first := lived_run (.first 10) _
    refine lived_run (hfirst.killed (.writing hstoring 1) (fun name => ?_) 10) ls
    by_cases hname : name = .tmp [1, 2, 3]
    · subst hname
      rfl
    · rw [Function.update_of_ne hname, List.find?_singleton, if_neg (by simpa using Ne.symm hname)]
      rfl
  refine ⟨lived_untorn (fun t sha data h => (Except.ok.inj h).symm) hsecond, rfl, ?_, ?_⟩ <;>
    decide +kernel

end CacheLives

end Tgfs
