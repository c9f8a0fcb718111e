import Tgfs.Store.Journal
import Tgfs.Store.Proofs.Undo

/-!
# Each new chunk is uploaded once, each orphan deleted once

While `put_file` gathers its references, the hashes it submits are those of the new content that
have no blobs row yet, each once; the pool uploads each of them once and never finds its hash
registered by somebody else. While it releases the old rows, a message is deleted exactly when
its blobs row goes.
-/

namespace Tgfs

/-- Whether the task has called `upload`. -/
def Phase.begun {Sha : Type} : Phase Sha → Bool
  | .queued | .running | .cancelled => false
  | _ => true

theorem Phase.begun_of_settled {Sha : Type} {p : Phase Sha} (h : p.settled = true)
    (hc : p ≠ .cancelled) : p.begun = true := by
  cases p <;> simp_all [settled, begun]

namespace Store

variable {Sha : Type} [DecidableEq Sha] [Sha256 Sha]

/-- How often a chunk with hash `h` was uploaded. -/
def uploads (h : Sha) (calls : List BackendCall) : Nat :=
  calls.countP fun
    | .upload data => sha256 data = h
    | .delete _ => false

theorem uploads_append (h : Sha) (l l' : List BackendCall) :
    uploads h (l ++ l') = uploads h l + uploads h l' := List.countP_append

/-! ## Gathering references -/

/-- A phase of a task that is the only one to upload its hash. Futures are cancelled only where
the call is `undoing` what it did. -/
structure Solo (undoing : Prop) (p : Phase Sha) : Prop where
  cancelled : p = .cancelled → undoing
  dropCopy : ∀ hd, p ≠ .dropCopy hd
  failed : ∀ e, p = .failed e → e = .uploadFailed

/-- The tasks `new` of this call have distinct hashes, none of which had a blobs row in `s₀`. A
blobs row is one of `s₀`, or one that such a task has registered; no task has a copy to drop.
Until the call is `undoing` what it did, it gives nothing back. -/
structure Gathers (undoing : Prop) (s₀ : Store Sha) (new : List (Task Sha)) (s : Store Sha × List BackendCall) :
    Prop where
  tasks : s.1.tasks = s₀.tasks ++ new
  sha : ∀ t ∈ new, sha256 t.data = t.sha
  nodup : (new.map (·.sha)).Nodup
  fresh : ∀ t ∈ new, s₀.index.blobs t.sha = none
  phase : ∀ t ∈ new, Solo undoing t.phase
  known : ∀ h, s.1.index.blobs h ≠ none → s₀.index.blobs h ≠ none ∨
    ∃ t ∈ new, t.sha = h ∧ t.phase.registered = true
  grown : ¬ undoing → ∀ h, s₀.index.blobs h ≠ none → s.1.index.blobs h ≠ none
  uploads : ∀ h, uploads h s.2 = new.countP fun t => t.sha = h ∧ t.phase.begun = true
  deletes : ¬ undoing → ∀ hd, .delete hd ∉ s.2

/-- The hashes submitted so far are the only resource. -/
def Gathering (undoing : Prop) (s₀ : Store Sha) (s : Store Sha × List BackendCall)
    (g : Multiset (List Sha)) : Prop :=
  ∃ new, Gathers undoing s₀ new s ∧ g = {new.map (·.sha)}

variable {undoing : Prop} {s₀ : Store Sha} {new : List (Task Sha)}
  {s s' : Store Sha × List BackendCall}
  {g : Multiset (List Sha)} {src : Src Sha}

omit [DecidableEq Sha] [Sha256 Sha] in
theorem map_sha_set {j : Nat} {t : Task Sha} (ht : new[j]? = some t) (p : Phase Sha) :
    (new.set j { t with phase := p }).map (·.sha) = new.map (·.sha) := by
  obtain ⟨hj, hget⟩ := List.getElem?_eq_some_iff.mp ht
  apply List.ext_getElem?
  intro i
  by_cases hi : i = j
  · subst hi
    simp [hj, hget]
  · simp [List.getElem?_set_ne (Ne.symm hi)]

/-- A task goes on to another phase. -/
theorem Gathers.setPhase (h : Gathers undoing s₀ new s) {j : Nat} {t : Task Sha} (ht : new[j]? = some t)
    {p : Phase Sha} (hp : Solo undoing p)
    (hreg : t.phase.registered = true → p.registered = true)
    (htasks : s'.1.tasks = s.1.tasks.set (s₀.tasks.length + j) { t with phase := p })
    (hknown : ∀ x, s'.1.index.blobs x ≠ none → s.1.index.blobs x ≠ none ∨
      x = t.sha ∧ p.registered = true)
    (hgrown : ∀ x, s.1.index.blobs x ≠ none → s'.1.index.blobs x ≠ none)
    (hcalls : (s'.2 = s.2 ∧ p.begun = t.phase.begun) ∨
      s'.2 = s.2 ++ [.upload t.data] ∧ t.phase.begun = false ∧ p.begun = true) :
    Gathers undoing s₀ (new.set j { t with phase := p }) s' := by
  obtain ⟨hj, hget⟩ := List.getElem?_eq_some_iff.mp ht
  have hmem : t ∈ new := hget ▸ List.getElem_mem hj
  have hset : ∀ u ∈ new.set j { t with phase := p }, u = { t with phase := p } ∨ u ∈ new := by
    intro u hu
    rcases List.mem_or_eq_of_mem_set hu with hu | hu
    · exact .inr hu
    · exact .inl hu
  refine ⟨?_, ?_, (map_sha_set ht p).symm ▸ h.nodup, ?_, ?_, ?_, fun hn x hx => hgrown x (h.grown hn x hx), ?_, ?_⟩
  · rw [htasks, h.tasks, List.set_append_right _ _ (Nat.le_add_right _ _), Nat.add_sub_cancel_left]
  · intro u hu
    rcases hset u hu with rfl | hu
    · exact h.sha t hmem
    · exact h.sha u hu
  · intro u hu
    rcases hset u hu with rfl | hu
    · exact h.fresh t hmem
    · exact h.fresh u hu
  · intro u hu
    rcases hset u hu with rfl | hu
    · exact hp
    · exact h.phase u hu
  · intro x hx
    have hself : { t with phase := p } ∈ new.set j { t with phase := p } :=
      List.mem_iff_getElem.mpr ⟨j, by simpa using hj, by simp⟩
    rcases hknown x hx with hx | ⟨rfl, hr⟩
    · rcases h.known x hx with h₀ | ⟨u, hu, rfl, hr⟩
      · exact .inl h₀
      · obtain ⟨i, hi⟩ := List.getElem?_of_mem hu
        by_cases hij : i = j
        · subst hij
          obtain rfl : t = u := Option.some.inj (ht.symm.trans hi)
          exact .inr ⟨_, hself, rfl, hreg hr⟩
        · exact .inr ⟨u, List.mem_of_getElem? ((List.getElem?_set_ne (Ne.symm hij)).trans hi), rfl,
            hr⟩
    · exact .inr ⟨_, hself, rfl, hr⟩
  · intro x
    have hle : (if t.sha = x ∧ t.phase.begun = true then 1 else 0) ≤
        new.countP fun u => u.sha = x ∧ u.phase.begun = true := by
      split
      · rename_i hx
        exact List.countP_pos_iff.mpr ⟨t, hmem, by simpa using hx⟩
      · exact Nat.zero_le _
    rw [List.countP_set hj, hget]
    simp only [decide_eq_true_eq]
    rcases hcalls with ⟨hlog, hb⟩ | ⟨hlog, hb, hb'⟩
    · rw [hlog, hb, ← h.uploads]
      have := h.uploads x
      omega
    · rw [hlog, uploads_append, h.uploads, hb, hb']
      simp [Store.uploads, h.sha t hmem]
  · intro hn hd hmem
    rcases hcalls with ⟨hlog, -⟩ | ⟨hlog, -⟩
    · exact h.deletes hn hd (hlog ▸ hmem)
    · rw [hlog] at hmem
      simp [h.deletes hn hd] at hmem

omit [Sha256 Sha] in
/-- The pool does nothing with a task that is settled. -/
theorem env_settled {e : FutId × PoolTick} {s : Store Sha × List BackendCall}
    (hset : ∀ t, s.1.tasks[e.1]? = some t → t.phase.settled = true) : journal.env e s = s := by
  rcases s with ⟨s, calls⟩
  change (poolStep e s, calls ++ poolCalls e s) = (s, calls)
  unfold poolStep poolCalls
  cases ht : s.tasks[e.1]? with
  | none => simp
  | some t =>
    have := hset t ht
    cases hp : t.phase <;> simp_all [Phase.settled]

/-- A step of the pool keeps the hashes that were submitted. -/
theorem Gathers.env (hold : ∀ t ∈ s₀.tasks, t.phase.settled = true) (h : Gathers undoing s₀ new s)
    (e : FutId × PoolTick) :
    ∃ new', Gathers undoing s₀ new' (journal.env e s) ∧ new'.map (·.sha) = new.map (·.sha) := by
  by_cases hset : ∀ t, s.1.tasks[e.1]? = some t → t.phase.settled = true
  · rw [env_settled hset]
    exact ⟨new, h, rfl⟩
  obtain ⟨t, ht, hlive⟩ : ∃ t, s.1.tasks[e.1]? = some t ∧ t.phase.settled ≠ true := by
    simpa using hset
  have hge : s₀.tasks.length ≤ e.1 := by
    by_contra hlt
    rw [h.tasks, List.getElem?_append_left (by omega)] at ht
    exact hlive (hold t (List.mem_of_getElem? ht))
  obtain ⟨j, hj⟩ := Nat.exists_eq_add_of_le hge
  have htj : new[j]? = some t := by
    rwa [h.tasks, List.getElem?_append_right hge, hj, Nat.add_sub_cancel_left] at ht
  have hmem := List.mem_of_getElem? htj
  rcases s with ⟨s, calls⟩
  have henv : journal.env e (s, calls) = (poolStep e s, calls ++ poolCalls e s) := rfl
  have hstep : ∀ p, (∀ s' : Store Sha × List BackendCall, journal.env e (s, calls) = s' →
      Gathers undoing s₀ (new.set j { t with phase := p }) s') →
        ∃ new', Gathers undoing s₀ new' (journal.env e (s, calls)) ∧
          new'.map (·.sha) = new.map (·.sha) :=
    fun p hp => ⟨_, hp _ rfl, map_sha_set htj p⟩
  simp only at ht
  cases hp : t.phase with
  | queued =>
    apply hstep .running
    intro s' hs'
    subst hs'
    rw [henv]
    simp only [poolStep, poolCalls, ht, hp, List.append_nil]
    exact h.setPhase htj (by constructor <;> simp) (by simp [hp, Phase.registered]) (hj ▸ rfl) (fun _ hx => .inl hx)
      (fun _ hx => hx) (.inl ⟨rfl, by rw [hp]; rfl⟩)
  | running =>
    by_cases hf : e.2.uploadFails = true
    · apply hstep (.failed .uploadFailed)
      intro s' hs'
      subst hs'
      rw [henv]
      simp only [poolStep, poolCalls, ht, hp, hf, if_true]
      exact h.setPhase htj (by constructor <;> simp) (by simp [hp, Phase.registered]) (hj ▸ rfl)
        (fun _ hx => .inl hx) (fun _ hx => hx) (.inr ⟨rfl, by rw [hp]; rfl, rfl⟩)
    · apply hstep (.uploaded s.backend.next)
      intro s' hs'
      subst hs'
      rw [henv]
      simp only [poolStep, poolCalls, ht, hp, hf]
      exact h.setPhase htj (by constructor <;> simp) (by simp [hp, Phase.registered]) (hj ▸ rfl)
        (fun _ hx => .inl hx) (fun _ hx => hx) (.inr ⟨rfl, by rw [hp]; rfl, rfl⟩)
  | uploaded hd =>
    -- nobody else can have registered the hash
    have hnone : s.index.blobs t.sha = none := by
      by_contra hsome
      rcases h.known t.sha hsome with h₀ | ⟨u, hu, hsha, hr⟩
      · exact h₀ (h.fresh t hmem)
      · obtain rfl := List.inj_on_of_nodup_map h.nodup hu hmem hsha
        simp [hp, Phase.registered] at hr
    apply hstep .done
    intro s' hs'
    subst hs'
    rw [henv]
    simp only [poolStep, poolCalls, ht, hp, Meta.blobGet, hnone, List.append_nil,
      Option.isNone_none, if_true]
    refine h.setPhase htj (by constructor <;> simp) (by simp [Phase.registered]) (hj ▸ rfl) (fun x hx => ?_)
      (fun x hx => ?_) (.inl ⟨rfl, by rw [hp]; rfl⟩)
    · by_cases hxs : x = t.sha
      · exact .inr ⟨hxs, rfl⟩
      · exact .inl (by simpa [Meta.blobCreate, Meta.putBlob_ne hxs] using hx)
    · by_cases hxs : x = t.sha
      · subst hxs
        simp [Meta.blobCreate, Meta.putBlob_self]
      · simpa [Meta.blobCreate, Meta.putBlob_ne hxs] using hx
  | dropCopy hd => exact absurd hp ((h.phase t hmem).dropCopy hd)
  | done | failed _ | cancelled => simp [hp, Phase.settled] at hlive

/-- The submitted hashes, through the pool's steps. -/
theorem Gathering.env (hold : ∀ t ∈ s₀.tasks, t.phase.settled = true) (h : Gathering undoing s₀ s g)
    (e : FutId × PoolTick) : Gathering undoing s₀ (journal.env e s) g := by
  obtain ⟨new, hnew, rfl⟩ := h
  obtain ⟨new', hnew', hsha⟩ := hnew.env hold e
  exact ⟨new', hnew', by rw [hsha]⟩

/-- The action submits, cancels and drops nothing. -/
def Collects : Act Sha → Prop
  | .submit _ _ | .cancel _ | .blobDecref _ | .delete _ => False
  | _ => True

theorem Gathers.congr (h : Gathers undoing s₀ new s) (htasks : s'.1.tasks = s.1.tasks)
    (hblobs : ∀ x, s'.1.index.blobs x = none ↔ s.1.index.blobs x = none) (hcalls : s'.2 = s.2) :
    Gathers undoing s₀ new s' where
  tasks := htasks.trans h.tasks
  sha := h.sha
  nodup := h.nodup
  fresh := h.fresh
  phase := h.phase
  known x hx := h.known x (mt (hblobs x).mpr hx)
  grown hn x hx := mt (hblobs x).mp (h.grown hn x hx)
  uploads x := by rw [hcalls, h.uploads]
  deletes hn hd := hcalls ▸ h.deletes hn hd

theorem Gathers.exec (h : Gathers undoing s₀ new s) {t : Tick} {a : Act Sha} (ha : Collects a) :
    Gathers undoing s₀ new (journal.exec src t a s).2 := by
  have hincref : ∀ sha x, (s.1.index.blobIncref sha).blobs x = none ↔
      s.1.index.blobs x = none := by
    intro sha x
    by_cases hx : x = sha
    · subst hx
      simp [Meta.blobIncref, Meta.putBlob_self]
    · simp [Meta.blobIncref, Meta.putBlob_ne hx]
  have hsame : ∀ x, s.1.index.blobs x = none ↔ s.1.index.blobs x = none := fun _ => Iff.rfl
  have hexec : (journal.exec src t a s).2.1 = (Store.exec src t a s.1).2 := rfl
  have hcalls : (journal.exec src t a s).2.2 = s.2 ++ actCalls a s.1 := rfl
  cases a with
  | submit | cancel | blobDecref | delete => exact ha.elim
  | blobIncref sha => exact h.congr rfl (hincref sha) (by simp [hcalls, actCalls])
  | claimKnown sha =>
    apply h.congr _ _ (by simp [hcalls, actCalls])
    · rw [hexec]
      simp only [Store.exec]
      split <;> rfl
    · rw [hexec]
      simp only [Store.exec]
      split
      · exact hincref sha
      · exact hsame
  | download hd =>
    apply h.congr _ _ (by simp [hcalls, actCalls])
    · rw [hexec]
      simp only [Store.exec]
      split
      · rfl
      · split <;> rfl
    · rw [hexec]
      simp only [Store.exec]
      split
      · exact hsame
      · split <;> exact hsame
  | result f | failed f =>
    apply h.congr _ _ (by simp [hcalls, actCalls])
    · rw [hexec]
      simp only [Store.exec]
      split <;> rfl
    · rw [hexec]
      simp only [Store.exec]
      split <;> exact hsame
  | _ => exact h.congr rfl hsame (by simp [hcalls, actCalls])

/-- A new hash is submitted. -/
theorem Gathers.submit (h : Gathers undoing s₀ new s) {t : Tick} {data : Bytes} {sha : Sha}
    (hsha : sha256 data = sha) (hnew : sha ∉ new.map (·.sha)) (hfresh : s₀.index.blobs sha = none) :
    Gathers undoing s₀ (new ++ [⟨sha, data, .queued⟩]) (journal.exec src t (.submit sha data) s).2 := by
  have hcalls : (journal.exec src t (.submit sha data) s).2.2 = s.2 := List.append_nil _
  have htasks : (journal.exec src t (.submit sha data) s).2.1.tasks =
      s.1.tasks ++ [⟨sha, data, .queued⟩] := rfl
  refine ⟨by rw [htasks, h.tasks, List.append_assoc], ?_, ?_, ?_, ?_, ?_, h.grown, ?_,
    fun hn hd => hcalls ▸ h.deletes hn hd⟩
  · intro u hu
    rcases List.mem_append.mp hu with hu | hu
    · exact h.sha u hu
    · rw [List.mem_singleton.mp hu]
      exact hsha
  · rw [List.map_append, List.nodup_append]
    refine ⟨h.nodup, by simp, ?_⟩
    intro x hx y hy
    simp only [List.map_cons, List.map_nil, List.mem_singleton] at hy
    rintro rfl
    exact hnew (hy ▸ hx)
  · intro u hu
    rcases List.mem_append.mp hu with hu | hu
    · exact h.fresh u hu
    · rw [List.mem_singleton.mp hu]
      exact hfresh
  · intro u hu
    rcases List.mem_append.mp hu with hu | hu
    · exact h.phase u hu
    · rw [List.mem_singleton.mp hu]
      exact ⟨nofun, nofun, nofun⟩
  · intro x hx
    rcases h.known x hx with h₀ | ⟨u, hu, hr⟩
    · exact .inl h₀
    · exact .inr ⟨u, List.mem_append_left _ hu, hr⟩
  · intro x
    rw [hcalls, h.uploads, List.countP_append]
    simp [Phase.begun]

/-! ## What `put_file` submits -/

theorem Gathering.start (undoing : Prop) (s : Store Sha) :
    Gathering undoing s (s, []) ({[]} + 0) := by
  refine ⟨[], ⟨(List.append_nil _).symm, by simp, by simp, by simp, by simp, fun _ h => .inl h,
    fun _ _ h => h, ?_, by simp⟩, rfl⟩
  simp [Store.uploads]

/-- Every run of a program that is safe for the gathering. -/
theorem Gathering.run {α : Type} {post : α → Multiset (List Sha) → Prop} {p : StoreProg Sha α}
    {o : Multiset (List Sha)} (h : Gathering undoing s₀ s (g + o))
    (hold : ∀ t ∈ s₀.tasks, t.phase.settled = true) (ts : Nat → Tick) (n : Nat)
    (hp : journal.Safe (Gathering undoing s₀) (fun _ => True) src post p g) :
    ∃ g', post (journal.seqRun src ts p n s).1 g' ∧
      Gathering undoing s₀ (journal.seqRun src ts p n s).2.2 (g' + o) := by
  have henv : ∀ (e : FutId × PoolTick) s' g, True → Gathering undoing s₀ s' g →
      Gathering undoing s₀ (journal.env e s') g := fun e _ _ _ h => h.env hold e
  exact Machine.Safe.seqRun henv hp (fun _ => trivial) (fun _ _ _ => trivial)
    (fun _ _ _ _ => trivial) h

abbrev GatherSafe (s₀ : Store Sha) (src : Src Sha) {α : Type}
    (post : α → Multiset (List Sha) → Prop) (p : StoreProg Sha α) (g : Multiset (List Sha)) : Prop :=
  journal.Safe (Gathering False s₀) (fun _ => True) src post p g

theorem gather_collect {α : Type} {p : StoreProg Sha α} (hp : p.All Collects)
    (g : Multiset (List Sha)) : GatherSafe s₀ src (fun _ g' => g' = g) p g := by
  apply Machine.Safe.ofAll _ hp
  intro a ha s t o h
  obtain ⟨new, hnew, hg⟩ := h
  exact ⟨new, hnew.exec ha, hg⟩

theorem Gathering.alone {w : List Sha} {o : Multiset (List Sha)}
    (h : Gathering False s₀ s ({w} + o)) : o = 0 ∧ ∃ new, Gathers False s₀ new s ∧ new.map (·.sha) = w := by
  obtain ⟨new, hnew, hg⟩ := h
  rw [Multiset.singleton_add, ← Multiset.cons_zero, Multiset.cons_eq_cons] at hg
  rcases hg with ⟨rfl, rfl⟩ | ⟨-, cs, -, hcs⟩
  · exact ⟨rfl, new, hnew, rfl⟩
  · simp at hcs

omit [Sha256 Sha] in
theorem claimKnown_reply (t : Tick) (sha : Sha) (s : Store Sha) :
    (Store.exec src t (.claimKnown sha) s).1 = (s.index.blobs sha).isSome := by
  cases hb : s.index.blobs sha with
  | some b =>
    have he : Store.exec src t (.claimKnown sha) s =
        (true, { s with index := s.index.blobIncref sha }) := by
      simp only [Store.exec, Meta.blobGet, hb, Option.isSome_some, if_true]
      rfl
    rw [he]
    rfl
  | none =>
    have he : Store.exec src t (.claimKnown sha) s = (false, s) := by
      simp only [Store.exec, Meta.blobGet, hb, Option.isSome_none, Bool.false_eq_true, if_false]
      rfl
    rw [he]
    rfl

/-- A claim finds a hash that had a blobs row or was submitted, and misses only one that had
none. -/
theorem gather_claim (sha : Sha) (w : List Sha) :
    GatherSafe s₀ src (fun known g' => g' = {w} ∧
      (known = true → s₀.index.blobs sha ≠ none ∨ sha ∈ w) ∧
        (known = false → s₀.index.blobs sha = none)) (perform (.claimKnown sha)) {w} := by
  intro s t o _ _ hI
  have hnext : Gathering False s₀ (journal.exec src t (.claimKnown sha) s).2 ({w} + o) := by
    obtain ⟨new, hnew, hg⟩ := hI
    exact ⟨new, hnew.exec trivial, hg⟩
  obtain ⟨-, new, hnew, rfl⟩ := hI.alone
  have hreply : (journal.exec src t (.claimKnown sha) s).1 = (s.1.index.blobs sha).isSome :=
    claimKnown_reply t sha s.1
  refine ⟨_, hnext, rfl, fun hk => ?_, fun hk => ?_⟩
  · rw [hreply, Option.isSome_iff_ne_none] at hk
    rcases hnew.known sha hk with h₀ | ⟨u, hu, rfl, -⟩
    · exact .inl h₀
    · exact .inr (List.mem_map_of_mem hu)
  · rw [hreply] at hk
    by_contra h₀
    rw [Option.isSome_iff_ne_none.mpr (hnew.grown id sha h₀)] at hk
    cases hk

theorem gather_submit {sha : Sha} {data : Bytes} (hsha : sha256 data = sha) {w : List Sha}
    (hw : sha ∉ w) (hfresh : s₀.index.blobs sha = none) :
    GatherSafe s₀ src (fun _ g' => g' = {w ++ [sha]}) (perform (.submit sha data)) {w} := by
  intro s t o _ _ hI
  obtain ⟨rfl, new, hnew, rfl⟩ := hI.alone
  refine ⟨{new.map (·.sha) ++ [sha]}, ?_, rfl⟩
  exact ⟨_, hnew.submit hsha hw hfresh, by simp⟩

/-- The hashes of the uploads in flight, in the order of their submission. -/
def Refs.keys (r : Refs Sha) : List Sha := r.pending.map (·.1)

/-- A hash is submitted once, when it is met for the first time and had no blobs row. -/
theorem gather_acquire (workers : Nat) {sha : Sha} {data : Bytes} (hsha : sha256 data = sha)
    (r : Refs Sha) : GatherSafe s₀ src (fun p g' => p.2 = none → g' = {Refs.keys p.1} ∧
      ∀ x, x ∈ Refs.keys p.1 ↔ x ∈ Refs.keys r ∨ x = sha ∧ s₀.index.blobs sha = none)
      (acquire workers sha data r) {Refs.keys r} := by
  unfold acquire
  split
  case isTrue hp =>
    intro _
    refine ⟨rfl, fun x => ⟨.inl, ?_⟩⟩
    rintro (hx | ⟨rfl, -⟩)
    · exact hx
    · exact fut_isSome.mp hp
  case isFalse hp =>
    have hnot : sha ∉ Refs.keys r := mt fut_isSome.mpr hp
    apply Machine.Safe.bind (gather_claim sha _)
    intro (known : Bool) g' h
    obtain ⟨rfl, hknown, hfresh⟩ := h
    cases known with
    | true =>
      intro _
      refine ⟨rfl, fun x => ⟨.inl, ?_⟩⟩
      rintro (hx | ⟨rfl, h₀⟩)
      · exact hx
      · exact ((hknown rfl).resolve_left (not_not_intro h₀) : x ∈ Refs.keys r)
    | false =>
      apply Machine.Safe.bind (gather_collect
        (all_waitSlot (fun _ => trivial) (fun _ => trivial) _ _ _) _)
      intro p g' hg'
      obtain ⟨running, e⟩ := p
      subst hg'
      cases e with
      | some e => exact fun h => by cases h
      | none =>
        apply Machine.Safe.bind (gather_submit hsha hnot (hfresh rfl))
        intro (fut : FutId) g' hg' _
        subst hg'
        have hkeys : Refs.keys (⟨r.acquired ++ [sha], r.pending ++ [(sha, fut)], r.dups,
            running ++ [fut]⟩ : Refs Sha) = Refs.keys r ++ [sha] := by
          simp [Refs.keys]
        refine ⟨by rw [hkeys], fun x => ?_⟩
        rw [hkeys]
        simp [hfresh rfl]

section PutBody

variable {cfg : StoreConfig} {ino : Ino} {size : Nat} {dirty : Option (Finset Nat)}

/-- The hashes in flight are those of the new chunks that had no blobs row. -/
def Submits (s₀ : Store Sha) (st : PutState Sha) : Prop :=
  ∀ x, x ∈ Refs.keys st.refs ↔ x ∈ st.new.map (·.sha) ∧ s₀.index.blobs x = none

theorem gather_putLoop {rows : List (Chunk Sha)} (st : PutState Sha) (hst : Submits s₀ st) :
    GatherSafe s₀ src (fun p g' => p.2 = none → g' = {Refs.keys p.1.refs} ∧ Submits s₀ p.1)
      (putLoop cfg ino size dirty rows st) {Refs.keys st.refs} := by
  induction hk : size - st.off using Nat.strong_induction_on generalizing st with
  | _ k ih =>
    subst hk
    unfold putLoop
    split
    case isFalse => exact fun _ => ⟨rfl, hst⟩
    case isTrue hoff =>
      have hcs := cfg.chunkSize_pos
      split
      case h_1 row _ =>
        apply Machine.Safe.bind (p := perform (.claimKnown row.sha)) (gather_claim row.sha _)
        intro (known : Bool) g' h
        obtain ⟨rfl, hknown, -⟩ := h
        cases known with
        | false => exact fun h => by cases h
        | true =>
          apply ih (size - (st.off + min cfg.chunkSize (size - st.off))) (by omega) _ _ rfl
          intro x
          have hx := hst x
          simp only [List.map_append, List.map_cons, List.map_nil, List.mem_append,
            List.mem_singleton]
          refine ⟨fun h => ⟨.inl (hx.mp h).1, (hx.mp h).2⟩, ?_⟩
          rintro ⟨hmem | rfl, h₀⟩
          · exact hx.mpr ⟨hmem, h₀⟩
          · exact (hknown rfl).resolve_left (not_not_intro h₀)
      case h_2 =>
        apply Machine.Safe.bind (p := perform (.read st.pos _)) (gather_collect
          (p := perform (.read st.pos _)) ⟨trivial, fun _ => trivial⟩ _)
        intro (got : Except (PyErr Sha) Bytes) g' hg'
        subst hg'
        cases got with
        | error e => exact fun h => by cases h
        | ok data =>
          simp only
          split
          case isTrue => exact fun _ => ⟨rfl, hst⟩
          case isFalse hdata =>
            have := List.length_pos_iff.mpr hdata
            apply Machine.Safe.bind (gather_acquire _ rfl _)
            intro p g' hg'
            obtain ⟨refs, e⟩ := p
            cases e with
            | some e => exact fun h => by cases h
            | none =>
              obtain ⟨rfl, hkeys⟩ := hg' rfl
              apply ih (size - (st.off + data.length)) (by omega) _ _ rfl
              intro x
              have hx := hst x
              simp only [List.map_append, List.map_cons, List.map_nil, List.mem_append,
                List.mem_singleton]
              rw [hkeys x, hx]
              constructor
              · rintro (⟨hmem, h₀⟩ | ⟨rfl, h₀⟩)
                · exact ⟨.inl hmem, h₀⟩
                · exact ⟨.inr rfl, h₀⟩
              · rintro ⟨hmem | rfl, h₀⟩
                · exact .inl ⟨hmem, h₀⟩
                · exact .inr ⟨rfl, h₀⟩

theorem gather_putBody {rows : List (Chunk Sha)} :
    GatherSafe s₀ src (fun p g' => p.2 = none → g' = {Refs.keys p.1.refs} ∧ Submits s₀ p.1)
      (putBody cfg ino size dirty rows) {[]} := by
  apply Machine.Safe.bind (gather_putLoop {} fun x => by simp [Refs.keys])
  intro p g' hg'
  obtain ⟨st, e⟩ := p
  cases e with
  | some e => exact nofun
  | none =>
    obtain ⟨rfl, hst⟩ := hg' rfl
    apply Machine.Safe.bind (gather_collect (all_results (fun _ => trivial) _) _)
    intro e g' hg'
    subst hg'
    cases e with
    | some e => exact nofun
    | none =>
      apply Machine.Safe.bind (gather_collect (all_increfAll (fun _ => trivial) _) _)
      intro _ g' hg'
      subst hg'
      exact fun _ => ⟨rfl, hst⟩

end PutBody

/-! ## What `put_file` deletes -/

/-- A blobs row names the message. -/
def Named (m : Meta Sha) (hd : Handle) : Prop := ∃ h b, m.blobs h = some b ∧ b.handle = hd

/-- No two blobs rows name the same message. -/
def OneName (m : Meta Sha) : Prop := ∀ h h' b b', m.blobs h = some b → m.blobs h' = some b' →
  b.handle = b'.handle → h = h'

section Named

omit [Sha256 Sha]

variable {m : Meta Sha} {sha : Sha} {b : Blob}

theorem named_putBlob_none (hone : OneName m) (hb : m.blobs sha = some b) (hd : Handle) :
    Named (m.putBlob sha none) hd ↔ Named m hd ∧ hd ≠ b.handle := by
  constructor
  · rintro ⟨h, b', hb', rfl⟩
    have hs : h ≠ sha := by
      rintro rfl
      rw [Meta.putBlob_self] at hb'
      cases hb'
    rw [Meta.putBlob_ne hs] at hb'
    exact ⟨⟨h, b', hb', rfl⟩, fun hh => hs (hone h sha b' b hb' hb hh)⟩
  · rintro ⟨⟨h, b', hb', rfl⟩, hne⟩
    have hs : h ≠ sha := by
      rintro rfl
      obtain rfl : b' = b := Option.some.inj (hb'.symm.trans hb)
      exact hne rfl
    exact ⟨h, b', (Meta.putBlob_ne hs).trans hb', rfl⟩

theorem named_putBlob_some (hb : m.blobs sha = some b) {b' : Blob} (hh : b'.handle = b.handle)
    (hd : Handle) : Named (m.putBlob sha (some b')) hd ↔ Named m hd := by
  constructor
  · rintro ⟨h, b₁, hb₁, rfl⟩
    by_cases hs : h = sha
    · subst hs
      rw [Meta.putBlob_self] at hb₁
      cases hb₁
      exact ⟨h, b, hb, hh.symm⟩
    · exact ⟨h, b₁, (Meta.putBlob_ne hs).symm.trans hb₁, rfl⟩
  · rintro ⟨h, b₁, hb₁, rfl⟩
    by_cases hs : h = sha
    · subst hs
      obtain rfl : b₁ = b := Option.some.inj (hb₁.symm.trans hb)
      exact ⟨h, b', Meta.putBlob_self _ _ _, hh⟩
    · exact ⟨h, b₁, (Meta.putBlob_ne hs).trans hb₁, rfl⟩

/-- A decref keeps every row, up to its refcount, or removes it. -/
theorem blobDecref_row {h : Sha} {b : Blob} (hb : (m.blobDecref sha).2.blobs h = some b) :
    ∃ b₁, m.blobs h = some b₁ ∧ b₁.handle = b.handle := by
  obtain ⟨-, he⟩ | ⟨b₁, hb₁, -, he⟩ | ⟨b₁, hb₁, -, he⟩ := m.blobDecref_cases sha
  · rw [he] at hb
    exact ⟨b, hb, rfl⟩
  · rw [he] at hb
    by_cases hs : h = sha
    · subst hs
      rw [Meta.putBlob_self] at hb
      cases hb
    · exact ⟨b, (Meta.putBlob_ne hs).symm.trans hb, rfl⟩
  · rw [he] at hb
    by_cases hs : h = sha
    · subst hs
      rw [Meta.putBlob_self] at hb
      cases hb
      exact ⟨b₁, hb₁, rfl⟩
    · exact ⟨b, (Meta.putBlob_ne hs).symm.trans hb, rfl⟩

omit [DecidableEq Sha] in
/-- Where no row has changed its message, a message that had a name has it as long as the hash has
a row. -/
theorem named_iff {m' : Meta Sha} (hone : OneName m) (hb : m.blobs sha = some b)
    (hback : ∀ h b', m'.blobs h = some b' → ∃ b₁, m.blobs h = some b₁ ∧ b₁.handle = b'.handle) :
    Named m' b.handle ↔ m'.blobs sha ≠ none := by
  constructor
  · rintro ⟨h, b', hb', hh⟩ hnone
    obtain ⟨b₁, hb₁, hh₁⟩ := hback h b' hb'
    obtain rfl := hone h sha b₁ b hb₁ hb (hh₁.trans hh)
    rw [hb'] at hnone
    cases hnone
  · intro hsome
    obtain ⟨b', hb'⟩ := Option.ne_none_iff_exists'.mp hsome
    obtain ⟨b₁, hb₁, hh₁⟩ := hback sha b' hb'
    obtain rfl : b₁ = b := Option.some.inj (hb₁.symm.trans hb)
    exact ⟨sha, b', hb', hh₁.symm⟩

open Classical in
/-- A decref that removes a row returns the message that is not named any more. -/
theorem named_blobDecref (hone : OneName m) (sha : Sha) (hd : Handle) :
    ((m.blobDecref sha).1.elim 0 ({·}) : Multiset Handle).count hd +
      (if Named (m.blobDecref sha).2 hd then 1 else 0) = if Named m hd then 1 else 0 := by
  obtain ⟨-, he⟩ | ⟨b, hb, -, he⟩ | ⟨b, hb, -, he⟩ := m.blobDecref_cases sha
  · simp [he]
  · have hnamed : Named m b.handle := ⟨sha, b, hb, rfl⟩
    simp only [he, named_putBlob_none hone hb, Option.elim, Multiset.count_singleton]
    by_cases hhd : hd = b.handle
    · simp [hhd, hnamed]
    · simp [hhd]
  · simp [he, named_putBlob_some hb]

end Named

variable {s₁ : Store Sha} {calls : List BackendCall} {trash : Multiset Handle}

open Classical in
/-- Nobody uploads any more. A message that a blobs row of `s₁` names is still named, or was
deleted once, or is the resource of whoever is about to delete it. -/
structure Releasing (s₁ : Store Sha) (calls : List BackendCall)
    (s : Store Sha × List BackendCall) (g : Multiset Handle) : Prop where
  tasks : s.1.tasks = s₁.tasks
  blobs : ∀ h b, s.1.index.blobs h = some b →
    ∃ b₁, s₁.index.blobs h = some b₁ ∧ b₁.handle = b.handle
  uploads : ∀ h : Sha, uploads h s.2 = uploads h calls
  deletes : ∀ hd, s.2.count (.delete hd) + g.count hd + (if Named s.1.index hd then 1 else 0) =
    if Named s₁.index hd then 1 else 0

theorem Releasing.oneName (hone : OneName s₁.index) (h : Releasing s₁ calls s trash) :
    OneName s.1.index := by
  intro x x' b b' hb hb' hh
  obtain ⟨b₁, hb₁, hh₁⟩ := h.blobs x b hb
  obtain ⟨b₁', hb₁', hh₁'⟩ := h.blobs x' b' hb'
  exact hone x x' b₁ b₁' hb₁ hb₁' (hh₁.trans (hh.trans hh₁'.symm))

theorem Releasing.env (hset : ∀ t ∈ s₁.tasks, t.phase.settled = true)
    (h : Releasing s₁ calls s trash) (e : FutId × PoolTick) :
    Releasing s₁ calls (journal.env e s) trash := by
  rw [env_settled fun t ht => hset t (List.mem_of_getElem? (h.tasks ▸ ht))]
  exact h

abbrev ReleaseSafe (s₁ : Store Sha) (calls : List BackendCall) (src : Src Sha) {α : Type}
    (post : α → Multiset Handle → Prop) (p : StoreProg Sha α) (g : Multiset Handle) : Prop :=
  journal.Safe (Releasing s₁ calls) (fun _ => True) src post p g

theorem release_commits {a : Act Sha} (ha : ∀ (t : Tick) (s : Store Sha),
      (exec src t a s).2.tasks = s.tasks ∧ (exec src t a s).2.index.blobs = s.index.blobs)
    (hcalls : ∀ s, actCalls a s = []) (g : Multiset Handle) :
    ReleaseSafe s₁ calls src (fun _ g' => g' = g) (perform a) g := by
  intro s t o _ _ hI
  have hblobs := (ha t s.1).2
  have hlog : (journal.exec src t a s).2.2 = s.2 := by
    change s.2 ++ actCalls a s.1 = s.2
    rw [hcalls, List.append_nil]
  refine ⟨g, ⟨(ha t s.1).1.trans hI.tasks, ?_, ?_, ?_⟩, rfl⟩
  · intro h b hb
    exact hI.blobs h b (hblobs ▸ hb)
  · intro h
    rw [hlog]
    exact hI.uploads h
  · intro hd
    rw [hlog, ← hI.deletes hd]
    have hnamed : Named (journal.exec src t a s).2.1.index hd = Named s.1.index hd := by
      unfold Named
      rw [show (journal.exec src t a s).2.1.index.blobs = s.1.index.blobs from hblobs]
    congr 1
    rw [hnamed]

open Classical in
/-- A row that goes leaves its message behind. -/
theorem release_decref (hone : OneName s₁.index) (sha : Sha) (g : Multiset Handle) :
    ReleaseSafe s₁ calls src (fun (handle : Option Handle) g' => g' = handle.elim 0 ({·}) + g)
      (perform (.blobDecref sha)) g := by
  intro s t o _ _ hI
  have hlog : (journal.exec src t (.blobDecref sha) s).2.2 = s.2 := List.append_nil _
  refine ⟨(s.1.index.blobDecref sha).1.elim 0 ({·}) + g, ⟨hI.tasks, ?_, ?_, ?_⟩, rfl⟩
  · intro h b hb
    obtain ⟨b', hb', hh⟩ := blobDecref_row hb
    obtain ⟨b₁, hb₁, hh₁⟩ := hI.blobs h b' hb'
    exact ⟨b₁, hb₁, hh₁.trans hh⟩
  · intro h
    rw [hlog]
    exact hI.uploads h
  · intro hd
    have hdecref := named_blobDecref (hI.oneName hone) sha hd
    have hdel := hI.deletes hd
    rw [hlog]
    change _ + _ + (if Named (s.1.index.blobDecref sha).2 hd then 1 else 0) = _
    simp only [Multiset.count_add] at hdel ⊢
    omega

open Classical in
theorem release_delete (handle : Handle) (g : Multiset Handle) :
    ReleaseSafe s₁ calls src (fun _ g' => g' = g) (perform (.delete handle)) ({handle} + g) := by
  intro s t o _ _ hI
  have hlog : (journal.exec src t (.delete handle) s).2.2 = s.2 ++ [.delete handle] := rfl
  have hindex : (journal.exec src t (.delete handle) s).2.1.index = s.1.index ∧
      (journal.exec src t (.delete handle) s).2.1.tasks = s.1.tasks := by
    change (exec src t (.delete handle) s.1).2.index = _ ∧
      (exec src t (.delete handle) s.1).2.tasks = _
    simp only [exec]
    split <;> exact ⟨rfl, rfl⟩
  refine ⟨g, ⟨hindex.2.trans hI.tasks, ?_, ?_, ?_⟩, rfl⟩
  · intro h b hb
    exact hI.blobs h b (hindex.1 ▸ hb)
  · intro h
    rw [hlog, uploads_append, hI.uploads]
    rfl
  · intro hd
    have hdel := hI.deletes hd
    rw [hlog, hindex.1, List.count_append]
    simp only [Multiset.count_add, Multiset.count_singleton, List.count_singleton, beq_iff_eq,
      BackendCall.delete.injEq] at hdel ⊢
    by_cases hh : hd = handle
    · simp only [hh, if_true] at hdel ⊢
      omega
    · simp only [if_neg hh, if_neg (Ne.symm hh)] at hdel ⊢
      omega

/-- A release deletes the message of a row that it removes. -/
theorem release_release (hone : OneName s₁.index) (sha : Sha) (g : Multiset Handle) :
    ReleaseSafe s₁ calls src (fun _ g' => g' = g) (release sha) g := by
  apply Machine.Safe.bind (release_decref hone sha g)
  intro (handle : Option Handle) g' hg'
  subst hg'
  cases handle with
  | none => exact zero_add g
  | some handle => exact release_delete handle g

theorem release_releaseAll (hone : OneName s₁.index) (hs : List Sha) (g : Multiset Handle) :
    ReleaseSafe s₁ calls src (fun _ g' => g' = g) (releaseAll hs) g := by
  induction hs with
  | nil => exact rfl
  | cons sha hs ih =>
    apply Machine.Safe.bind (release_release hone sha g)
    intro e g' hg'
    subst hg'
    cases e with
    | some e => exact rfl
    | none => exact ih

theorem release_commit (hone : OneName s₁.index) (ino : Ino) (old : List (Chunk Sha))
    (st : PutState Sha) (g : Multiset Handle) :
    ReleaseSafe s₁ calls src (fun _ g' => g' = g) (commit ino old st) g := by
  apply Machine.Safe.bind (release_commits (a := .setChunks ino st.new)
    (fun _ _ => ⟨rfl, rfl⟩) (fun _ => rfl) g)
  intro _ g' hg'
  subst hg'
  apply Machine.Safe.bind (release_commits (a := .setSize ino st.off)
    (fun _ _ => ⟨rfl, rfl⟩) (fun _ => rfl) g')
  intro _ g' hg'
  subst hg'
  apply Machine.Safe.bind (release_releaseAll hone _ g')
  intro e g' hg'
  subst hg'
  cases e <;> exact rfl

/-! ## The whole call -/

variable {cfg : StoreConfig} {ino : Ino} {size : Nat} {dirty : Option (Finset Nat)}

/-- The calls of the backend that a `put_file` makes. -/
def putCalls (src : Src Sha) (ts : Nat → Tick) (cfg : StoreConfig) (ino : Ino) (size : Nat)
    (dirty : Option (Finset Nat)) (n : Nat) (s : Store Sha) : List BackendCall :=
  (journal.seqRun src ts (putFile cfg ino size dirty) n (s, [])).2.2.2

omit [Sha256 Sha] in
theorem seqRun_journal {α : Type} (src : Src Sha) (ts : Nat → Tick) (p : StoreProg Sha α) (n : Nat)
    (s : Store Sha × List BackendCall) : machine.seqRun src ts p n s.1 =
      ((journal.seqRun src ts p n s).1, (journal.seqRun src ts p n s).2.1,
        (journal.seqRun src ts p n s).2.2.1) := by
  obtain ⟨h₁, h₂, h₃⟩ := machine.seqRun_noting ⟨actCalls, poolCalls⟩ src ts p n s
  exact Prod.ext h₁.symm (Prod.ext h₂.symm h₃.symm)

/-- The uploads of a body that does not raise. -/
theorem seqRun_putBody_calls {ts : Nat → Tick} {s : Store Sha}
    (hold : ∀ t ∈ s.tasks, t.phase.settled = true) {rows : List (Chunk Sha)} {n n' : Nat}
    {st : PutState Sha} {s' : Store Sha × List BackendCall}
    (hrun : journal.seqRun src ts (putBody cfg ino size dirty rows) n (s, []) =
      ((st, none), n', s')) :
    (∀ t ∈ s'.1.tasks, t.phase.settled = true) ∧
      (∀ h, uploads h s'.2 =
        if h ∈ st.new.map (·.sha) ∧ s.index.blobs h = none then 1 else 0) ∧
      ∀ hd, .delete hd ∉ s'.2 := by
  have hplain := seqRun_journal src ts (putBody cfg ino size dirty rows) n (s, [])
  rw [hrun] at hplain
  -- nothing is left to run
  have hsettled : ∀ t ∈ s'.1.tasks, t.phase.settled = true := by
    have hwatch : WatchSafe s.tasks src _ (putBody cfg ino size dirty rows) 0 := watch_putBody hold
    obtain ⟨w, hw, rest, hrest, hsus⟩ := hwatch.run hold ts n
    rw [hplain] at hw hrest
    obtain rfl := hw rfl
    intro t ht
    rw [hrest] at ht
    rcases List.mem_append.mp ht with ht | ht
    · exact hold t ht
    · obtain ⟨i, hi⟩ := List.getElem?_of_mem ht
      by_contra hset
      exact Multiset.notMem_zero _ (hsus i t hi (.inl (by simpa using hset)))
  have hbody : GatherSafe s src _ (putBody cfg ino size dirty rows) {[]} := gather_putBody
  obtain ⟨w, hw, hgather⟩ := (Gathering.start False s).run hold ts n hbody
  rw [hrun] at hw hgather
  obtain ⟨rfl, hsub⟩ := hw rfl
  obtain ⟨-, new, hnew, hkeys⟩ := hgather.alone
  refine ⟨hsettled, fun h => ?_, hnew.deletes id⟩
  have hbegun : ∀ t ∈ new, t.phase.begun = true := by
    intro t ht
    apply Phase.begun_of_settled (hsettled t _) fun hc => (hnew.phase t ht).cancelled hc
    rw [hnew.tasks]
    exact List.mem_append_right _ ht
  have hcount : (new.countP fun t => t.sha = h ∧ t.phase.begun = true) =
      (Refs.keys st.refs).count h := by
    rw [← hkeys, List.count, List.countP_map]
    apply List.countP_congr
    intro t ht
    simp [hbegun t ht]
  rw [hnew.uploads, hcount]
  have hnodup : (Refs.keys st.refs).Nodup := hkeys ▸ hnew.nodup
  by_cases hmem : h ∈ Refs.keys st.refs
  · rw [List.count_eq_one_of_mem hnodup hmem, if_pos ((hsub h).mp hmem)]
  · rw [List.count_eq_zero_of_not_mem hmem, if_neg (mt (hsub h).mpr hmem)]

omit [Sha256 Sha] in
theorem turn_journal {t : Tick} {a : Act Sha} {s : Store Sha × List BackendCall}
    (hset : ∀ t ∈ s.1.tasks, t.phase.settled = true) (hr : ready a s.1 = true) :
    journal.turn t a s = s := by
  have hrun : ∀ es, journal.runEnv es s = s := by
    intro es
    induction es with
    | nil => rfl
    | cons e es ih =>
      rw [Machine.runEnv_cons, env_settled fun t ht => hset t (List.mem_of_getElem? ht), ih]
  unfold Machine.turn
  rw [hrun, if_pos (show journal.ready a s = true from hr)]

omit [Sha256 Sha] in
theorem undo_ends (r : Refs Sha) (e : PyErr Sha) : (undo r e).Ends (· ≠ .ok ()) := by
  apply (Prog.Ends.of_forall (fun _ => trivial) _).bind (Q := fun _ => True)
  intro e' _
  cases e' <;> exact nofun

/-- A `put_file` that returns is its body and the commit. -/
theorem putCalls_parts {ts : Nat → Tick} {s : Store Sha} (hs : Readable s) (n : Nat)
    (hok : (machine.seqRun src ts (putFile cfg ino size dirty) n s).1 = .ok ()) :
    ∃ (st : PutState Sha) (n' : Nat) (s' : Store Sha × List BackendCall),
      journal.seqRun src ts (putBody cfg ino size dirty (s.index.getChunks ino)) (n + 1) (s, []) =
        ((st, none), n', s') ∧
      putCalls src ts cfg ino size dirty n s =
        (journal.seqRun src ts (commit ino (s.index.getChunks ino) st) n' s').2.2.2 ∧
      machine.seqRun src ts (putFile cfg ino size dirty) n s =
        machine.seqRun src ts (commit ino (s.index.getChunks ino) st) n' s'.1 := by
  have hplain := seqRun_journal src ts (putBody cfg ino size dirty (s.index.getChunks ino)) (n + 1)
    (s, [])
  have hfirst : journal.seqRun src ts (putFile cfg ino size dirty) n (s, []) =
      journal.seqRun src ts ((putBody cfg ino size dirty (s.index.getChunks ino)).bind
        (putEnd ino (s.index.getChunks ino))) (n + 1) (s, []) := by
    rw [putFile_eq, Machine.seqRun_act, turn_journal hs.settled rfl]
    rfl
  rw [seqRun_putFile_parts hs] at hok ⊢
  unfold putCalls
  rw [hfirst, Machine.seqRun_bind]
  rcases hrun : journal.seqRun src ts (putBody cfg ino size dirty (s.index.getChunks ino)) (n + 1)
    (s, []) with ⟨⟨st, e⟩, n', s'⟩
  rw [hrun] at hplain
  simp only at hplain
  simp only [hplain] at hok ⊢
  cases e with
  | some e => exact absurd hok (machine.ends_seqRun src ts (undo_ends st.refs e) n' s'.1)
  | none => exact ⟨st, n', s', rfl, rfl, rfl⟩

/-- What a body that does not raise leaves, whether or not a delete was set to fail. -/
structure BodyDone (s s' : Store Sha) (ino : Ino) (st : PutState Sha) (g : Res Sha) : Prop where
  inv : Inv True NoFree s' (g + 0)
  untouched : Untouched s s'
  owns : g.owns = {Inv.own s ino}
  refs : g.refs = Meta.shas st.new
  futs : g.futs = 0
  doomed : g.doomed = 0
  sorted : IdxSorted st.new

theorem putBody_done {ts : Nat → Tick} {s s' : Store Sha} (hs : Accounted s) {n n' : Nat}
    {st : PutState Sha}
    (hrun : machine.seqRun src ts (putBody cfg ino size dirty (s.index.getChunks ino)) n s =
      ((st, none), n', s')) :
    machine.seqRun src (fun k => (ts k).calm)
        (putBody cfg ino size dirty (s.index.getChunks ino)) n s = ((st, none), n', s') ∧
      ∃ g, BodyDone s s' ino st g := by
  have hwatch : WatchSafe s.tasks src _ (putBody cfg ino size dirty (s.index.getChunks ino)) 0 :=
    watch_putBody hs.readable.settled
  obtain ⟨w, hw, hwatched⟩ := hwatch.run hs.readable.settled ts n
  rw [hrun] at hw hwatched
  obtain rfl := hw rfl
  have hheeds : (putBody cfg ino size dirty (s.index.getChunks ino)).Heeds
      DeleteRaised fun _ => False := heeds_putBody
  have hcalm := (@seqRun_calm Sha _ src ts _ _ _ hheeds n s).2
  rw [hrun] at hcalm
  have hsame := hcalm hwatched.spoils_eq id
  refine ⟨hsame, ?_⟩
  have htake : Inv True NoFree s ({ owns := {Inv.own s ino} } + 0) := hs.inv.take (by simp)
  obtain ⟨g, ⟨hok, -⟩, hi, hu⟩ := StoreSafe.untouched hs
    (@safe_putBody Sha _ _ _ _ src _ cfg size dirty
      (show (Inv.own s ino).freeing = false from rfl))
    (plain_putBody _) (fun k => (ts k).quiet_calm) (n := n) htake (.refl s)
  change machine.seqRun src (fun k => (ts k).calm)
    (putBody cfg (Inv.own s ino).ino size dirty (Inv.own s ino).rows) n s = _ at hsame
  rw [hsame] at hok hi hu
  obtain ⟨hscan, -, hrefs, hfuts, hdoomed, -, howns⟩ := hok rfl
  exact ⟨g, hi, hu, howns, hrefs, hfuts, hdoomed, hscan.idxSorted⟩

/-- The calls of a commit: nothing is uploaded, and each message that loses its name is deleted
once. -/
theorem seqRun_commit_calls {ts : Nat → Tick} {s : Store Sha × List BackendCall}
    (hset : ∀ t ∈ s.1.tasks, t.phase.settled = true) (hone : OneName s.1.index)
    (hnone : ∀ hd, .delete hd ∉ s.2) (old : List (Chunk Sha)) (st : PutState Sha) (n : Nat) :
    Releasing s.1 s.2 (journal.seqRun src ts (commit ino old st) n s).2.2 0 := by
  have hstart : Releasing s.1 s.2 s (0 + 0) :=
    ⟨rfl, fun _ b hb => ⟨b, hb, rfl⟩, fun _ => rfl, fun hd => by
      simp [List.count_eq_zero_of_not_mem (hnone hd)]⟩
  have henv : ∀ (e : FutId × PoolTick) s' g, True → Releasing s.1 s.2 s' g →
      Releasing s.1 s.2 (journal.env e s') g := fun e _ _ _ h => h.env hset e
  obtain ⟨g, rfl, h⟩ := Machine.Safe.seqRun henv (@release_commit Sha _ _ src _ _ hone ino old st 0)
    (fun _ => trivial) (fun _ _ _ => trivial) (fun _ _ _ _ => trivial) (n := n) hstart
  exact h

/-- What a commit leaves. -/
structure Committed (s' : Store Sha) (ino : Ino) (st : PutState Sha) : Prop where
  books : Accounted s'
  rows : s'.index.getChunks ino = st.new

theorem putFile_committed {ts : Nat → Tick} {s m : Store Sha} (hs : Accounted s) {n n' : Nat}
    {st : PutState Sha} {g : Res Sha}
    (hok : (machine.seqRun src ts (putFile cfg ino size dirty) n s).1 = .ok ())
    (hrun : machine.seqRun src (fun k => (ts k).calm)
      (putBody cfg ino size dirty (s.index.getChunks ino)) (n + 1) s = ((st, none), n', m))
    (hbd : BodyDone s m ino st g) :
    Committed (machine.seqRun src ts (putFile cfg ino size dirty) n s).2.2 ino st := by
  have hquiet : ∀ k, ((ts k).calm).Quiet True := fun k => (ts k).quiet_calm
  rw [← putFile_calm hs.readable.settled n hok]
  refine ⟨(seqRun_putFile src cfg ino size dirty hs hquiet n).1, ?_⟩
  rw [seqRun_putFile_parts hs.readable]
  simp only [hrun]
  obtain ⟨g', ⟨-, inode, howns⟩, hi⟩ := (@safe_commit Sha _ src _ _ _ _ _
    (show (Inv.own s ino).freeing = false from rfl) _ hbd.owns hbd.refs hbd.sorted).seqRun hquiet
    (n := n') hbd.inv
  exact hi.owned_rows howns

/-- A blobs row that came with this call is named by one of its rows. -/
theorem BodyDone.new_row {s m : Store Sha} {st : PutState Sha} {g : Res Sha}
    (hbd : BodyDone s m ino st g) (hs : Accounted s) (hcount : Counting m) {h : Sha} {b : Blob}
    (hb : m.index.blobs h = some b) (hnew : s.index.blobs h = none) : h ∈ st.new.map (·.sha) := by
  have hpos : 0 < m.index.refcount h := by
    rw [Meta.refcount_of_blob hb]
    exact hcount h b hb
  have hrows : m.index.rowCount h = 0 := by
    rw [rowCount_congr hbd.untouched.chunks, ← hs.refcount]
    simp [Meta.refcount, hnew]
  have hc := hbd.inv.counts h
  have hlive : m.index.liveRows (freeing (g + 0).owns) h = 0 := by
    rw [add_zero, hbd.owns, freeing_singleton]
    exact (Meta.liveRows_zero _ _).trans hrows
  rw [hlive, add_zero, hbd.refs, hbd.futs, hbd.doomed, add_zero, futRefs_zero] at hc
  have : 0 < (Meta.shas st.new).count h := by
    simp only [Multiset.coe_count] at hc
    omega
  exact List.count_pos_iff.mp this

/-- Each hash of the new rows that had no blobs row is uploaded once, and no other. -/
theorem putFile_uploads {ts : Nat → Tick} {s : Store Sha} (hs : Accounted s) (n : Nat)
    (hok : (machine.seqRun src ts (putFile cfg ino size dirty) n s).1 = .ok ()) (h : Sha) :
    uploads h (putCalls src ts cfg ino size dirty n s) =
      if h ∈ (machine.seqRun src ts (putFile cfg ino size dirty) n s).2.2.index.getChunkShas ino ∧
        s.index.blobs h = none then 1 else 0 := by
  obtain ⟨st, n', m, hbody, hcalls, -⟩ := putCalls_parts hs.readable n hok
  have hplain := seqRun_journal src ts (putBody cfg ino size dirty (s.index.getChunks ino)) (n + 1)
    (s, [])
  simp only [hbody] at hplain
  obtain ⟨hcalmBody, g, hbd⟩ := putBody_done hs hplain
  obtain ⟨hset, hup, hdel⟩ := seqRun_putBody_calls hs.readable.settled hbody
  have hone : OneName m.1.index := fun _ _ _ _ hb hb' hh => hbd.inv.blobs.handle_inj hb hb' hh
  have hrel : Releasing m.1 m.2
      (journal.seqRun src ts (commit ino (s.index.getChunks ino) st) n' m).2.2 0 :=
    seqRun_commit_calls hset hone hdel _ st n'
  rw [hcalls, hrel.uploads, hup, Meta.getChunkShas, (putFile_committed hs hok hcalmBody hbd).rows]

/-- Among the calls, each of the hashes `shas` that had no blobs row is uploaded once and nothing
else is; the message of each hash that a row named before and none names after is deleted once
and nothing else is. -/
structure Deduped (s s' : Store Sha) (shas : List Sha) (calls : List BackendCall) : Prop where
  uploads : ∀ h : Sha, uploads h calls = if h ∈ shas ∧ s.index.blobs h = none then 1 else 0
  deletes : ∀ h b, s.index.blobs h = some b → calls.count (.delete b.handle) =
    if 0 < s.index.rowCount h ∧ s'.index.rowCount h = 0 then 1 else 0
  others : ∀ hd, (∀ h b, s.index.blobs h = some b → b.handle ≠ hd) → .delete hd ∉ calls

/-- Whatever a `put_file` reads again and whatever it reuses, it uploads and deletes what the rows
before and after call for. -/
theorem putFile_deduped {ts : Nat → Tick} {s : Store Sha} (hs : Accounted s) (n : Nat)
    (hok : (machine.seqRun src ts (putFile cfg ino size dirty) n s).1 = .ok ()) :
    Deduped s (machine.seqRun src ts (putFile cfg ino size dirty) n s).2.2
      ((machine.seqRun src ts (putFile cfg ino size dirty) n s).2.2.index.getChunkShas ino)
      (putCalls src ts cfg ino size dirty n s) := by
  classical
  let s' := (machine.seqRun src ts (putFile cfg ino size dirty) n s).2.2
  let calls := putCalls src ts cfg ino size dirty n s
  obtain ⟨st, n', m, hbody, hcalls, hend⟩ := putCalls_parts hs.readable n hok
  have hplain := seqRun_journal src ts (putBody cfg ino size dirty (s.index.getChunks ino)) (n + 1)
    (s, [])
  simp only [hbody] at hplain
  obtain ⟨hcalmBody, g, hbd⟩ := putBody_done hs hplain
  obtain ⟨hset, hup, hdel⟩ := seqRun_putBody_calls hs.readable.settled hbody
  have hone : OneName m.1.index := fun _ _ _ _ hb hb' hh => hbd.inv.blobs.handle_inj hb hb' hh
  have hrel : Releasing m.1 m.2
      (journal.seqRun src ts (commit ino (s.index.getChunks ino) st) n' m).2.2 0 :=
    seqRun_commit_calls hset hone hdel _ st n'
  have hdone : Committed s' ino st := putFile_committed hs hok hcalmBody hbd
  have hstate := congrArg (·.2.2) (seqRun_journal src ts (commit ino (s.index.getChunks ino) st) n' m)
  have hs' : s' = (journal.seqRun src ts (commit ino (s.index.getChunks ino) st) n' m).2.2.1 :=
    (congrArg (·.2.2) hend).trans hstate
  have hcalls' : calls = (journal.seqRun src ts (commit ino (s.index.getChunks ino) st) n' m).2.2.2 :=
    hcalls
  have hcount : ∀ hd, calls.count (.delete hd) + (if Named s'.index hd then 1 else 0) =
      if Named m.1.index hd then 1 else 0 := by
    intro hd
    have := hrel.deletes hd
    rw [← hcalls', ← hs', Multiset.count_zero, add_zero] at this
    convert this
  have hback : ∀ h b, s'.index.blobs h = some b →
      ∃ b₁, m.1.index.blobs h = some b₁ ∧ b₁.handle = b.handle := by
    rw [hs']
    exact hrel.blobs
  have hgone : ∀ h, s'.index.blobs h = none ↔ s'.index.rowCount h = 0 := by
    intro h
    rw [← hdone.books.refcount]
    cases hb : s'.index.blobs h with
    | none => simp [Meta.refcount, hb]
    | some b =>
      have := hdone.books.counting h b hb
      simp [Meta.refcount, hb]
      omega
  change Deduped s s' (s'.index.getChunkShas ino) calls
  refine ⟨fun h => ?_, fun h b hb => ?_, fun hd hnot hmem => ?_⟩
  · exact putFile_uploads hs n hok h
  · -- the message of an old row
    obtain ⟨b₁, hb₁, hh₁, -⟩ := (hbd.untouched.blobs h b hb).1
    have hwas : Named m.1.index b.handle := ⟨h, b₁, hb₁, hh₁⟩
    have hstays : Named s'.index b.handle ↔ s'.index.rowCount h ≠ 0 := by
      rw [ne_eq, ← hgone h, ← hh₁]
      exact named_iff hone hb₁ hback
    have := hcount b.handle
    rw [if_pos hwas] at this
    by_cases hzero : s'.index.rowCount h = 0
    · rw [if_neg (not_not_intro hzero ∘ hstays.mp)] at this
      rw [if_pos ⟨hs.rowCount_pos hb, hzero⟩]
      exact this
    · rw [if_pos (hstays.mpr hzero)] at this
      rw [if_neg fun h => hzero h.2]
      omega
  · -- a message that came with the call keeps its name
    have hwas : Named m.1.index hd → Named s'.index hd := by
      rintro ⟨h, b₁, hb₁, rfl⟩
      have hnew : s.index.blobs h = none := by
        by_contra hsome
        obtain ⟨b, hb⟩ := Option.ne_none_iff_exists'.mp hsome
        obtain ⟨b₂, hb₂, hh₂, -⟩ := (hbd.untouched.blobs h b hb).1
        obtain rfl : b₂ = b₁ := Option.some.inj (hb₂.symm.trans hb₁)
        exact hnot h b hb hh₂.symm
      have hcounting : Counting m.1 := by
        have := seqRun_counting src ts (putBody cfg ino size dirty (s.index.getChunks ino)) (n + 1)
          hs.counting
        rwa [hplain] at this
      obtain ⟨c, hc, rfl⟩ := List.mem_map.mp (hbd.new_row hs hcounting hb₁ hnew)
      apply (named_iff hone hb₁ hback).mpr
      rw [ne_eq, hgone]
      have : 0 < s'.index.rowCount c.sha := by
        apply List.countP_pos_iff.mpr
        exact ⟨(ino, c), Meta.mem_getChunks.mp (hdone.rows.symm ▸ hc), by simp⟩
      omega
    have hpos := List.count_pos_iff.mpr hmem
    have := hcount hd
    by_cases hm : Named m.1.index hd
    · rw [if_pos (hwas hm), if_pos hm] at this
      omega
    · rw [if_neg hm] at this
      omega

/-- The rows that a `put_file` leaves are those of its scan. -/
theorem putFile_scanned {ts : Nat → Tick} {s : Store Sha} (hs : Accounted s) (n : Nat)
    (hok : (machine.seqRun src ts (putFile cfg ino size dirty) n s).1 = .ok ()) :
    ∃ off, Scanned cfg size dirty (s.index.getChunks ino) src
        ((machine.seqRun src ts (putFile cfg ino size dirty) n s).2.2.index.getChunks ino) off ∧
      ScanEnd cfg size src off := by
  have hquiet : ∀ k, ((ts k).calm).Quiet True := fun k => (ts k).quiet_calm
  have hcalm := putFile_calm hs.readable.settled n hok
  obtain ⟨-, -, hpost⟩ := seqRun_putFile src cfg ino size dirty hs hquiet n
  rw [hcalm, hok] at hpost
  obtain ⟨new, off, now, hscan, hend, hown⟩ := hpost
  have hrows : (machine.seqRun src ts (putFile cfg ino size dirty) n s).2.2.index.getChunks ino =
      new := congrArg Owned.rows hown
  rw [hrows]
  exact ⟨off, hscan, hend⟩

/-- The content comes in pieces, and the rows of the new content are the hashes of these: each
that had no blobs row is uploaded once, however often it repeats and in whatever order the uploads
end, and the message of an old row is deleted once if no row is left that names it. -/
theorem putFile_dedup (cfg : StoreConfig) (ino : Ino) {content : Bytes}
    (hsrc : src.Serves content) {ts : Nat → Tick} {s : Store Sha} (hs : Accounted s) (n : Nat)
    (hok : (machine.seqRun src ts (putFile cfg ino content.length none) n s).1 = .ok ()) :
    ∃ pieces, Pieces cfg src content pieces ∧
      (machine.seqRun src ts (putFile cfg ino content.length none) n s).2.2.index.getChunkShas ino =
        pieces.map sha256 ∧
      Deduped s (machine.seqRun src ts (putFile cfg ino content.length none) n s).2.2
        (pieces.map sha256) (putCalls src ts cfg ino content.length none n s) := by
  obtain ⟨off, hscan, hend⟩ := putFile_scanned hs n hok
  obtain ⟨pieces, hpieces, hshas⟩ := hscan.pieces hsrc hend
  have hdeduped := putFile_deduped hs n hok
  have hrows : (machine.seqRun src ts (putFile cfg ino content.length none) n
      s).2.2.index.getChunkShas ino = pieces.map sha256 := hshas
  rw [hrows] at hdeduped
  exact ⟨pieces, hpieces, hrows, hdeduped⟩

/-- A file of two chunks, of which one stays and the other is replaced by a new chunk that comes
twice and a last one. -/
theorem putFile_dedup_tail :
    ∃ pieces, Pieces ⟨2, 1, Nat.two_pos, Nat.one_pos⟩
        (Src.whole [1, 2, 9, 8, 9, 8, 5] : Src Bytes) [1, 2, 9, 8, 9, 8, 5] pieces ∧
      (machine.seqRun (Src.whole [1, 2, 9, 8, 9, 8, 5]) (fun _ => {})
        (putFile ⟨2, 1, Nat.two_pos, Nat.one_pos⟩ 2 7 none) 0 twoChunks).2.2.index.getChunkShas 2 =
        pieces.map sha256 ∧
      Deduped twoChunks (machine.seqRun (Src.whole [1, 2, 9, 8, 9, 8, 5]) (fun _ => {})
          (putFile ⟨2, 1, Nat.two_pos, Nat.one_pos⟩ 2 7 none) 0 twoChunks).2.2
        (pieces.map sha256)
        (putCalls (Src.whole [1, 2, 9, 8, 9, 8, 5]) (fun _ => {})
          ⟨2, 1, Nat.two_pos, Nat.one_pos⟩ 2 7 none 0 twoChunks) :=
  putFile_dedup _ 2 (serves_pread _) twoChunks_accounted 0 (by decide +kernel)

end Store

end Tgfs
