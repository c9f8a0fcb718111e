import Tgfs.Store.Proofs.RowSteps

/-!
# Proof rules for the store's actions

`StoreSafe` is the proof rule for programs, at the store's invariant. Each action has one
rule: what it needs from the caller's share, what it replies, and the share it leaves.
-/

namespace Tgfs

/-- Deletes never raise, transfers only if `mayFail`. -/
structure PoolTick.Quiet (mayFail : Prop) (p : PoolTick) : Prop where
  delete : p.deleteFails = false
  upload : p.uploadFails = true → mayFail

/-- The same for what a tick decides about the action itself. -/
structure Tick.QuietAct (mayFail : Prop) (t : Tick) : Prop where
  delete : t.deleteFails = false
  download : t.downloadFails = true → mayFail

structure Tick.Quiet (mayFail : Prop) (t : Tick) : Prop extends t.QuietAct mayFail where
  before : ∀ e ∈ t.before, e.2.Quiet mayFail
  finish : ∀ f, (t.finish f).Quiet mayFail

/-- Nothing fails. -/
theorem Tick.quiet_default {mayFail : Prop} : ({} : Tick).Quiet mayFail :=
  ⟨⟨rfl, nofun⟩, nofun, fun _ => ⟨rfl, nofun⟩⟩

namespace Store

open Meta (shas)

variable {Sha : Type} [DecidableEq Sha] [Sha256 Sha]

abbrev StoreSafe {α : Type} (mayFail : Prop) (canFree : Ino → Prop) (src : Src Sha)
    (post : α → Res Sha → Prop) (p : StoreProg Sha α) (g : Res Sha) : Prop :=
  machine.Safe (Inv mayFail canFree) (Tick.QuietAct mayFail) src post p g

variable {α β : Type} {mayFail : Prop} {canFree : Ino → Prop} {src : Src Sha} {g : Res Sha}

omit [DecidableEq Sha] [Sha256 Sha] in
theorem mem_finishPool {t : Tick} {s : Store Sha} {e : FutId × PoolTick}
    (he : e ∈ finishPool t s) : ∃ f, e = (f, t.finish f) := by
  obtain ⟨f, -, hf⟩ := List.mem_flatMap.mp he
  exact ⟨f, List.eq_of_mem_replicate hf⟩

theorem env_inv (e : FutId × PoolTick) (s : Store Sha) (g : Res Sha) (he : e.2.Quiet mayFail)
    (h : Inv mayFail canFree s g) : Inv mayFail canFree (machine.env e s) g :=
  h.poolStep he.delete he.upload

/-- A safe call run by itself ends in its postcondition and keeps the invariant. -/
theorem StoreSafe.seqRun {post : α → Res Sha → Prop} {p : StoreProg Sha α} {o : Res Sha}
    {ts : Nat → Tick} {n : Nat} {s : Store Sha} (hp : StoreSafe mayFail canFree src post p g)
    (hts : ∀ n, (ts n).Quiet mayFail) (h : Inv mayFail canFree s (g + o)) :
    ∃ g', post (machine.seqRun src ts p n s).1 g' ∧
      Inv mayFail canFree (machine.seqRun src ts p n s).2.2 (g' + o) := by
  refine Machine.Safe.seqRun env_inv hp (fun n => (hts n).toQuietAct) (fun n => (hts n).before)
    (fun n s e he => ?_) h
  obtain ⟨f, rfl⟩ := mem_finishPool he
  exact (hts n).finish f

/-- Sequencing, in the form in which programs are written. -/
theorem safe_bind {mid : α → Res Sha → Prop} {post : β → Res Sha → Prop} {p : StoreProg Sha α}
    {f : α → StoreProg Sha β} (hp : StoreSafe mayFail canFree src mid p g)
    (hf : ∀ a g', mid a g' → StoreSafe mayFail canFree src post (f a) g') :
    StoreSafe mayFail canFree src post (p >>= f) g :=
  Machine.Safe.bind hp hf

theorem safe_pure {post : α → Res Sha → Prop} {a : α} (h : post a g) :
    StoreSafe mayFail canFree src post (pure a) g := h

theorem safe_ret_bind {post : β → Res Sha → Prop} {a : α} {f : α → StoreProg Sha β}
    (h : StoreSafe mayFail canFree src post (f a) g) :
    StoreSafe mayFail canFree src post (pure a >>= f) g := h

/-- An action that replies without changing anything. -/
theorem safe_look {a : Act Sha} {post : a.Reply → Res Sha → Prop}
    (hs : ∀ t s, (exec src t a s).2 = s)
    (h : ∀ t s o, t.QuietAct mayFail → ready a s = true → Inv mayFail canFree s (g + o) →
      post (exec src t a s).1 g) :
    StoreSafe mayFail canFree src post (perform a) g :=
  fun s t o ht hr hI => ⟨g, by change Inv _ _ (exec src t a s).2 _; rw [hs]; exact hI,
    h t s o ht hr hI⟩

variable {ow : Owned Sha}

theorem safe_getChunks (hg : g.owns = {ow}) :
    StoreSafe mayFail canFree src (fun rows g' => rows = ow.rows ∧ g' = g)
      (perform (.getChunks ow.ino)) g :=
  safe_look (fun _ _ => rfl) fun _ _ _ _ _ hI => ⟨hI.owned_rows hg, rfl⟩

/-- The hash list that `free_file` reads is what it will release. -/
theorem safe_getChunkShas (hg : g.owns = {ow}) (hf : ow.freeing = false)
    (hcan : canFree ow.ino) :
    StoreSafe mayFail canFree src (fun hs g' => hs = shas ow.rows ∧
      g' = { g with refs := shas ow.rows + g.refs, owns := {{ ow with freeing := true }} })
      (perform (.getChunkShas ow.ino)) g := by
  intro s t o ht hr hI
  refine ⟨_, hI.startFree hg hf hcan, ?_, rfl⟩
  change (s.index.getChunks ow.ino).map _ = _
  rw [hI.owned_rows hg]
  rfl

/-- Either the reference is taken, or nobody can name the hash yet. -/
theorem safe_claimKnown (hg : g.owns = {ow}) (hf : ow.freeing = false) (sha : Sha) :
    StoreSafe mayFail canFree src (fun known g' =>
      (known = true ∧ g' = { g with refs := sha ::ₘ g.refs }) ∨
        known = false ∧ g' = g ∧ sha ∉ g.refs ∧ ∀ c ∈ ow.rows, c.sha ≠ sha)
      (perform (.claimKnown sha)) g := by
  intro s t o ht hr hI
  change ∃ g', Inv mayFail canFree (exec src t (.claimKnown sha) s).2 (g' + o) ∧ _
  cases hb : s.index.blobs sha with
  | some b =>
    have he : exec src t (.claimKnown sha) s =
        (true, { s with index := s.index.blobIncref sha }) := by
      simp only [exec, Meta.blobGet, hb, Option.isSome_some, if_true]
      rfl
    refine ⟨{ g with refs := sha ::ₘ g.refs }, ?_, .inl ⟨?_, rfl⟩⟩
    · rw [he]
      exact hI.incref hb
    · change (exec src t (.claimKnown sha) s).1 = true
      rw [he]
  | none =>
    have he : exec src t (.claimKnown sha) s = (false, s) := by
      simp only [exec, Meta.blobGet, hb, Option.isSome_none, Bool.false_eq_true, if_false]
      rfl
    refine ⟨g, ?_, .inr ⟨?_, rfl, fun hm => ?_, fun c hc he => ?_⟩⟩
    · rw [he]
      exact hI
    · change (exec src t (.claimKnown sha) s).1 = false
      rw [he]
    · obtain ⟨b, hb'⟩ := hI.blob_of_ref (h := sha) (Multiset.mem_add.mpr (.inl hm))
      rw [hb] at hb'
      cases hb'
    · obtain ⟨b, hb'⟩ := hI.blob_of_owned hg hf hc
      rw [he, hb] at hb'
      cases hb'

/-- The rows an owner sees can be claimed. -/
theorem safe_claimKnown_own (hg : g.owns = {ow}) (hf : ow.freeing = false) {c : Chunk Sha}
    (hc : c ∈ ow.rows) :
    StoreSafe mayFail canFree src
      (fun known g' => known = true ∧ g' = { g with refs := c.sha ::ₘ g.refs })
      (perform (.claimKnown c.sha)) g := by
  refine (safe_claimKnown hg hf c.sha).mono fun known g' h => ?_
  obtain h | ⟨-, -, -, hno⟩ := h
  · exact h
  · exact absurd rfl (hno c hc)

theorem safe_blobIncref {sha : Sha} (hr : sha ∈ g.refs) :
    StoreSafe mayFail canFree src (fun _ g' => g' = { g with refs := sha ::ₘ g.refs })
      (perform (.blobIncref sha)) g := by
  intro s t o ht _ hI
  obtain ⟨b, hb⟩ := hI.blob_of_ref (h := sha) (Multiset.mem_add.mpr (.inl hr))
  exact ⟨_, hI.incref hb, rfl⟩

/-- `_release`: the reference goes, and the message with the last one. -/
theorem safe_release {sha : Sha} {refs : Multiset Sha} (hr : g.refs = sha ::ₘ refs) :
    StoreSafe mayFail canFree src (fun e g' => e = none ∧ g' = { g with refs := refs })
      (release sha) g := by
  have hdecref : StoreSafe mayFail canFree src (fun (handle : Option Handle) g' =>
      g' = { g with refs := refs, trash := handle.elim 0 ({·}) + g.trash })
      (perform (.blobDecref sha)) g :=
    fun s _ _ _ _ hI => ⟨_, hI.decref hr, rfl⟩
  apply Machine.Safe.bind hdecref
  intro (handle : Option Handle) g' hg'
  subst hg'
  cases handle with
  | none => exact ⟨rfl, by simp⟩
  | some hd =>
    intro s' t' o' ht' _ hI'
    refine ⟨{ g with refs := refs }, ?_, ?_⟩
    · have := hI'.delete (show _ = hd ::ₘ g.trash by simp)
      simpa [machine, exec, ht'.delete] using this
    · refine ⟨?_, rfl⟩
      simp [machine, exec, ht'.delete]

theorem safe_setChunks (hg : g.owns = {ow}) (hf : ow.freeing = false) {rows : List (Chunk Sha)}
    {refs : Multiset Sha} (hr : g.refs = shas rows + refs) (hs : IdxSorted rows) :
    StoreSafe mayFail canFree src (fun _ g' =>
      g' = { g with refs := shas ow.rows + refs, owns := {{ ow with rows := rows }} })
      (perform (.setChunks ow.ino rows)) g :=
  fun _ _ _ _ _ hI => ⟨_, hI.setChunks hg hf hr hs, rfl⟩

theorem safe_endFree (hg : g.owns = {ow}) (hf : ow.freeing = true) :
    StoreSafe mayFail canFree src (fun _ g' =>
      g' = { g with owns := {{ ow with rows := [], freeing := false }} })
      (perform (.setChunks ow.ino [])) g :=
  fun _ _ _ _ _ hI => ⟨_, hI.endFree hg hf, rfl⟩

theorem safe_setSize (hg : g.owns = {ow}) (size : Nat) :
    StoreSafe mayFail canFree src (fun _ g' => ∃ now, g' = { g with owns :=
      {{ ow with inode := ow.inode.map fun n =>
           { n with size := size, mtime := now, ctime := now } }} })
      (perform (.setSize ow.ino size)) g :=
  fun _ t _ _ _ hI => ⟨_, hI.setSize hg t.now size, t.now, rfl⟩

theorem safe_read (pos want : Nat) :
    StoreSafe mayFail canFree src (fun got g' => got = src pos want ∧ g' = g)
      (perform (.read pos want)) g :=
  safe_look (fun _ _ => rfl) fun _ _ _ _ _ _ => ⟨rfl, rfl⟩

theorem safe_submit {sha : Sha} {data : Bytes} (hsha : sha256 data = sha) :
    StoreSafe mayFail canFree src
      (fun (f : FutId) g' => g' = { g with futs := (sha, f) ::ₘ g.futs })
      (perform (.submit sha data)) g :=
  fun _ _ _ _ _ hI => ⟨_, hI.submit hsha, rfl⟩

theorem safe_waitFirst (fs : List FutId) :
    StoreSafe mayFail canFree src
      (fun (done : List FutId) g' => (∀ f ∈ done, f ∈ fs) ∧ g' = g) (perform (.waitFirst fs)) g :=
  safe_look (fun _ _ => rfl) fun _ _ _ _ _ _ => ⟨fun _ hf => (List.mem_filter.mp hf).1, rfl⟩

theorem safe_waitAll (fs : List FutId) :
    StoreSafe mayFail canFree src (fun _ g' => g' = g) (perform (.waitAll fs)) g :=
  safe_look (fun _ _ => rfl) fun _ _ _ _ _ _ => rfl

/-- The result of a future in flight: it has registered its blob, or its upload raised. -/
theorem safe_result {p : Sha × FutId} {futs : Multiset (Sha × FutId)} (hf : g.futs = p ::ₘ futs) :
    StoreSafe mayFail canFree src (fun (e : Option (PyErr Sha)) g' =>
      (e = none ∧ g' = { g with futs := futs, dones := p ::ₘ g.dones, refs := p.1 ::ₘ g.refs }) ∨
        e = some .uploadFailed ∧ mayFail ∧ g' = g)
      (perform (.result p.2)) g := by
  intro s t o ht hr hI
  obtain ⟨tk, htk, -⟩ := hI.tasks.sha p (by simp [hf])
  have hset : tk.phase.settled = true := by
    have : s.settled p.2 = true := hr
    simpa [settled, htk] using this
  have hmem : p ∈ (g + o).futs := by simp [hf]
  cases hp : tk.phase with
  | queued | running | uploaded _ | dropCopy _ => simp [hp, Phase.settled] at hset
  | cancelled => exact absurd hp (hI.tasks.alive p hmem tk htk)
  | done =>
    refine ⟨_, ?_, .inl ⟨?_, rfl⟩⟩
    · have := hI.result_ok hf htk hp
      obtain ⟨sha, data, ph⟩ := tk
      obtain rfl : ph = .done := hp
      simpa [machine, exec, htk] using this
    · obtain ⟨sha, data, ph⟩ := tk
      obtain rfl : ph = .done := hp
      simp [machine, exec, htk]
  | failed e =>
    obtain ⟨hmay, rfl⟩ := hI.tasks.failed p hmem tk htk e hp
    obtain ⟨sha, data, ph⟩ := tk
    obtain rfl : ph = .failed .uploadFailed := hp
    refine ⟨g, ?_, .inr ⟨?_, hmay, rfl⟩⟩
    · simpa [machine, exec, htk] using hI
    · simp [machine, exec, htk]

/-- The result of a future that is known to be done. -/
theorem safe_result_done {p : Sha × FutId} (hp : p ∈ g.dones) :
    StoreSafe mayFail canFree src (fun (e : Option (PyErr Sha)) g' => e = none ∧ g' = g)
      (perform (.result p.2)) g := by
  refine safe_look (fun t s => ?_) fun t s o ht hr hI => ⟨?_, rfl⟩
  · simp only [exec]
    split <;> rfl
  · obtain ⟨⟨sha, data, ph⟩, htk, rfl⟩ :=
      hI.tasks.finished p (Multiset.mem_add.mpr (.inl hp))
    simp [exec, htk]

theorem safe_cancel {p : Sha × FutId} {futs : Multiset (Sha × FutId)} (hf : g.futs = p ::ₘ futs) :
    StoreSafe mayFail canFree src
      (fun _ g' => g' = { g with futs := futs, doomed := p ::ₘ g.doomed })
      (perform (.cancel p.2)) g := by
  intro s t o ht hr hI
  obtain ⟨⟨sha, data, ph⟩, htk, -⟩ := hI.tasks.sha p (by simp [hf])
  refine ⟨_, ?_, rfl⟩
  by_cases hq : ph = .queued
  · subst hq
    have := hI.cancel hf htk rfl
    simpa [machine, exec, htk] using this
  · have := hI.doom hf
    simpa [machine, exec, htk, hq] using this

theorem safe_cancel_done {p : Sha × FutId} (hp : p ∈ g.dones) :
    StoreSafe mayFail canFree src (fun _ g' => g' = g) (perform (.cancel p.2)) g := by
  intro s t o ht hr hI
  obtain ⟨⟨sha, data, ph⟩, htk, rfl⟩ := hI.tasks.finished p (Multiset.mem_add.mpr (.inl hp))
  refine ⟨g, ?_, rfl⟩
  simpa [machine, exec, htk] using hI

/-- Whether a future that was asked to cancel holds a reference. -/
theorem safe_failed {p : Sha × FutId} {doomed : Multiset (Sha × FutId)}
    (hd : g.doomed = p ::ₘ doomed) :
    StoreSafe mayFail canFree src (fun (failed : Bool) g' =>
      (failed = true ∧ g' = { g with doomed := doomed }) ∨
        failed = false ∧ g' = { g with doomed := doomed, refs := p.1 ::ₘ g.refs })
      (perform (.failed p.2)) g := by
  intro s t o ht hr hI
  obtain ⟨⟨sha, data, ph⟩, htk, -⟩ := hI.tasks.sha p (by simp [hd])
  have hset : ph.settled = true := by
    have : s.settled p.2 = true := hr
    simpa [settled, htk] using this
  cases ph with
  | queued | running | uploaded _ | dropCopy _ => simp [Phase.settled] at hset
  | done =>
    refine ⟨_, ?_, .inr ⟨?_, rfl⟩⟩
    · have := hI.keep_doomed hd htk rfl
      simpa [machine, exec, htk] using this
    · simp [machine, exec, htk]
  | cancelled | failed e =>
    refine ⟨_, ?_, .inl ⟨?_, rfl⟩⟩
    · have := hI.drop_doomed hd htk rfl rfl
      simpa [machine, exec, htk] using this
    · simp [machine, exec, htk]

theorem safe_failed_done {p : Sha × FutId} (hp : p ∈ g.dones) :
    StoreSafe mayFail canFree src (fun (failed : Bool) g' => failed = false ∧ g' = g)
      (perform (.failed p.2)) g := by
  refine safe_look (fun t s => ?_) fun t s o ht hr hI => ⟨?_, rfl⟩
  · simp only [exec]
    split <;> rfl
  · obtain ⟨⟨sha, data, ph⟩, htk, rfl⟩ :=
      hI.tasks.finished p (Multiset.mem_add.mpr (.inl hp))
    simp [exec, htk]

end Store

end Tgfs
