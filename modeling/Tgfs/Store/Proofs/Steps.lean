import Tgfs.Store.Proofs.Accounting

/-!
# How each step moves the invariant

One lemma for each kind of step. `g` is what the acting call owns and `o` is what all others
own together; a step changes `g` only. The steps of the upload pool change nobody's share.
-/

namespace Tgfs

namespace Store

variable {Sha : Type}

theorem blob_of_refcount {m : Meta Sha} {h : Sha} (hr : 0 < m.refcount h) :
    ∃ b, m.blobs h = some b := by
  cases hb : m.blobs h with
  | none => simp [Meta.refcount, hb] at hr
  | some b => exact ⟨b, rfl⟩

/-! ## Owned inodes -/

theorem freeing_add (a b : Multiset (Owned Sha)) : freeing (a + b) = freeing a + freeing b := by
  simp [freeing]

theorem freeing_singleton (ow : Owned Sha) :
    freeing {ow} = if ow.freeing = true then {ow.ino} else 0 := by
  unfold freeing
  rw [Multiset.filter_singleton]
  split <;> rfl

theorem mem_freeing {owns : Multiset (Owned Sha)} {ino : Ino} (h : ino ∈ freeing owns) :
    ino ∈ owns.map (·.ino) := by
  obtain ⟨ow, ho, rfl⟩ := Multiset.mem_map.mp h
  exact Multiset.mem_map_of_mem _ (Multiset.mem_filter.mp ho).1

/-- The inode of one owner is not among those that others own. -/
theorem OwnsOk.not_mem {canFree : Ino → Prop} {m : Meta Sha} {ow : Owned Sha}
    {rest : Multiset (Owned Sha)} (h : OwnsOk canFree m ({ow} + rest)) : ow.ino ∉ rest.map (·.ino) := by
  have := h.nodup
  rw [Multiset.map_add, Multiset.map_singleton, Multiset.singleton_add,
    Multiset.nodup_cons] at this
  exact this.1

theorem OwnsOk.not_mem_freeing {canFree : Ino → Prop} {m : Meta Sha} {ow : Owned Sha}
    {rest : Multiset (Owned Sha)} (h : OwnsOk canFree m ({ow} + rest)) : ow.ino ∉ freeing rest :=
  fun hm => h.not_mem (mem_freeing hm)

/-- An owner may change what it sees of its inode. -/
theorem OwnsOk.change {canFree : Ino → Prop} {m m' : Meta Sha} {ow ow' : Owned Sha}
    {rest : Multiset (Owned Sha)} (h : OwnsOk canFree m ({ow} + rest)) (hino : ow'.ino = ow.ino)
    (hfree : ow'.freeing = true → canFree ow.ino)
    (hself : m'.getChunks ow.ino = ow'.rows ∧ m'.inodes ow.ino = ow'.inode)
    (hother : ∀ i, i ≠ ow.ino → m'.getChunks i = m.getChunks i ∧ m'.inodes i = m.inodes i) :
    OwnsOk canFree m' ({ow'} + rest) := by
  refine ⟨?_, fun o ho hf => ?_, fun o ho => ?_⟩
  · simpa [hino] using h.nodup
  · obtain ho | ho := Multiset.mem_add.mp ho
    · obtain rfl := Multiset.mem_singleton.mp ho
      exact hino ▸ hfree hf
    · exact h.canFree o (Multiset.mem_add.mpr (.inr ho)) hf
  · obtain ho | ho := Multiset.mem_add.mp ho
    · obtain rfl := Multiset.mem_singleton.mp ho
      rw [hino]
      exact hself
    · have hne : o.ino ≠ ow.ino := fun he => h.not_mem (he ▸ Multiset.mem_map_of_mem _ ho)
      obtain ⟨h₁, h₂⟩ := hother o.ino hne
      rw [h₁, h₂]
      exact h.seen o (Multiset.mem_add.mpr (.inr ho))

theorem OwnsOk.congr {canFree : Ino → Prop} {m m' : Meta Sha} {owns : Multiset (Owned Sha)}
    (h : OwnsOk canFree m owns) (hc : m'.chunks = m.chunks) (hi : m'.inodes = m.inodes) :
    OwnsOk canFree m' owns :=
  ⟨h.nodup, h.canFree, fun o ho => by rw [Meta.getChunks_congr hc, hi]; exact h.seen o ho⟩

variable [Sha256 Sha]

/-! ## Changing the blob table -/

/-- Rows may change their refcount; a row may go if its handle becomes trash. -/
theorem BlobsOk.change {blobs blobs' : Sha → Option Blob} {backend : Backend}
    {tasks : List (Task Sha)} {trash trash' : Multiset Handle}
    (hok : BlobsOk blobs backend tasks trash)
    (hold : ∀ h b, blobs' h = some b →
      ∃ b₀, blobs h = some b₀ ∧ b₀.handle = b.handle ∧ b₀.len = b.len)
    (hlost : ∀ h b, blobs h = some b →
      (∃ b', blobs' h = some b' ∧ b'.handle = b.handle) ∨ b.handle ∈ trash')
    (hnew : ∀ hd ∈ trash', hd ∈ trash ∨ ((∃ h b, blobs h = some b ∧ b.handle = hd) ∧
      ∀ h b, blobs' h = some b → b.handle ≠ hd))
    (hkeep : ∀ hd ∈ trash, hd ∈ trash') : BlobsOk blobs' backend tasks trash' := by
  have hne : ∀ hd, (∀ h b, blobs h = some b → b.handle ≠ hd) →
      ∀ h b, blobs' h = some b → b.handle ≠ hd := by
    intro hd hno h b hb
    obtain ⟨b₀, hb₀, hh, -⟩ := hold h b hb
    exact hh ▸ hno h b₀ hb₀
  refine ⟨?_, ?_, ?_, hok.fresh, ?_⟩
  · intro h b hb
    obtain ⟨b₀, hb₀, hh, hl⟩ := hold h b hb
    obtain ⟨data, hd, hsha, hlen⟩ := hok.stored h b₀ hb₀
    exact ⟨data, hh ▸ hd, hsha, hl ▸ hlen⟩
  · intro hd f data hup
    obtain ⟨hd', hno, huniq⟩ := hok.uploaded hd f data hup
    exact ⟨hd', hne hd hno, huniq⟩
  · intro hd hw
    by_cases hold' : hd ∈ trash ∨ Dropping tasks hd
    · obtain ⟨hlt, hno, hup⟩ := hok.waste hd hold'
      exact ⟨hlt, hne hd hno, hup⟩
    · push Not at hold'
      obtain htr | hdr := hw
      · obtain ht | ⟨⟨h, b, hb, rfl⟩, hno⟩ := hnew hd htr
        · exact absurd ht hold'.1
        · obtain ⟨data, hdata, -⟩ := hok.stored h b hb
          refine ⟨?_, hno, fun f data' hup => (hok.uploaded _ f data' hup).2.1 h b hb rfl⟩
          by_contra hge
          rw [hok.fresh _ (Nat.le_of_not_lt hge)] at hdata
          cases hdata
      · exact absurd hdr hold'.2
  · intro hd data hdata
    obtain ⟨h, b, hb, rfl⟩ | hrest := hok.held hd data hdata
    · obtain ⟨b', hb', hh⟩ | ht := hlost h b hb
      · exact .inl ⟨h, b', hb', hh⟩
      · exact .inr (.inr (.inr ht))
    · obtain hup | hdr | ht := hrest
      · exact .inr (.inl hup)
      · exact .inr (.inr (.inl hdr))
      · exact .inr (.inr (.inr (hkeep hd ht)))

/-- Two blobs never share a message: its content has one hash. -/
theorem BlobsOk.handle_inj {blobs : Sha → Option Blob} {backend : Backend}
    {tasks : List (Task Sha)} {trash : Multiset Handle} (hok : BlobsOk blobs backend tasks trash)
    {h h' : Sha} {b b' : Blob} (hb : blobs h = some b) (hb' : blobs h' = some b')
    (hh : b.handle = b'.handle) : h = h' := by
  obtain ⟨data, hd, rfl, -⟩ := hok.stored h b hb
  obtain ⟨data', hd', rfl, -⟩ := hok.stored h' b' hb'
  rw [hh, hd'] at hd
  cases hd
  rfl

variable [DecidableEq Sha]

theorem BlobsOk.incref {m : Meta Sha} {backend : Backend} {tasks : List (Task Sha)}
    {trash : Multiset Handle} (hok : BlobsOk m.blobs backend tasks trash) (sha : Sha) :
    BlobsOk (m.blobIncref sha).blobs backend tasks trash := by
  refine hok.change ?_ ?_ (fun hd h => .inl h) (fun hd h => h)
  · intro h b hb
    by_cases hh : h = sha
    · subst hh
      rw [Meta.blobIncref, Meta.putBlob_self] at hb
      obtain ⟨b₀, hb₀, rfl⟩ := Option.map_eq_some_iff.mp hb
      exact ⟨b₀, hb₀, rfl, rfl⟩
    · rw [Meta.blobIncref, Meta.putBlob_ne hh] at hb
      exact ⟨b, hb, rfl, rfl⟩
  · intro h b hb
    by_cases hh : h = sha
    · subst hh
      exact .inl ⟨{ b with refcount := b.refcount + 1 },
        by rw [Meta.blobIncref, Meta.putBlob_self, hb]; rfl, rfl⟩
    · exact .inl ⟨b, by rw [Meta.blobIncref, Meta.putBlob_ne hh]; exact hb, rfl⟩

/-- What `blobDecref` does to the handles: the row's handle becomes trash with the row. -/
theorem BlobsOk.decref {m : Meta Sha} {backend : Backend} {tasks : List (Task Sha)}
    {trash : Multiset Handle} (hok : BlobsOk m.blobs backend tasks trash) (sha : Sha) :
    BlobsOk (m.blobDecref sha).2.blobs backend tasks
      ((m.blobDecref sha).1.elim 0 ({·}) + trash) := by
  obtain ⟨-, he⟩ | ⟨b, hb, -, he⟩ | ⟨b, hb, hlt, he⟩ := m.blobDecref_cases sha
  · simpa [he] using hok
  · rw [he]
    have hsub : ∀ h b', (m.putBlob sha none).blobs h = some b' →
        h ≠ sha ∧ m.blobs h = some b' := by
      intro h b' hb'
      by_cases hh : h = sha
      · subst hh
        rw [Meta.putBlob_self] at hb'
        cases hb'
      · exact ⟨hh, by rwa [Meta.putBlob_ne hh] at hb'⟩
    refine hok.change ?_ ?_ ?_ (fun hd h => Multiset.mem_add.mpr (.inr h))
    · intro h b' hb'
      exact ⟨b', (hsub h b' hb').2, rfl, rfl⟩
    · intro h b' hb'
      by_cases hh : h = sha
      · subst hh
        rw [hb] at hb'
        cases hb'
        exact .inr (by simp)
      · exact .inl ⟨b', by rwa [Meta.putBlob_ne hh], rfl⟩
    · intro hd hm
      obtain hm | hm := Multiset.mem_add.mp hm
      · obtain rfl : hd = b.handle := by simpa using hm
        refine .inr ⟨⟨sha, b, hb, rfl⟩, fun h b' hb' hh => ?_⟩
        exact (hsub h b' hb').1 (hok.handle_inj (hsub h b' hb').2 hb hh)
      · exact .inl hm
  · rw [he]
    simp only [Option.elim_none, zero_add]
    refine hok.change ?_ ?_ (fun hd h => .inl h) (fun hd h => h)
    · intro h b' hb'
      by_cases hh : h = sha
      · subst hh
        rw [Meta.putBlob_self] at hb'
        cases hb'
        exact ⟨b, hb, rfl, rfl⟩
      · rw [Meta.putBlob_ne hh] at hb'
        exact ⟨b', hb', rfl, rfl⟩
    · intro h b' hb'
      by_cases hh : h = sha
      · subst hh
        rw [hb] at hb'
        cases hb'
        exact .inl ⟨_, Meta.putBlob_self _ _ _, rfl⟩
      · exact .inl ⟨b', by rwa [Meta.putBlob_ne hh], rfl⟩

omit [DecidableEq Sha] in
/-- Waste can be deleted. -/
theorem BlobsOk.delete {blobs : Sha → Option Blob} {backend : Backend} {tasks : List (Task Sha)}
    {trash trash' : Multiset Handle} (hok : BlobsOk blobs backend tasks trash) {hd : Handle}
    (hw : hd ∈ trash ∨ Dropping tasks hd) (hsub : ∀ h ∈ trash', h ∈ trash)
    (hrest : ∀ h ∈ trash, h ∈ trash' ∨ h = hd) :
    BlobsOk blobs (backend.delete hd) tasks trash' := by
  obtain ⟨hlt, hno, hup⟩ := hok.waste hd hw
  have hne : ∀ h, h ≠ hd → (backend.delete hd).blobs h = backend.blobs h :=
    fun h hh => Function.update_of_ne hh _ _
  refine ⟨?_, ?_, ?_, ?_, ?_⟩
  · intro h b hb
    obtain ⟨data, hdata, hsha, hlen⟩ := hok.stored h b hb
    exact ⟨data, by rw [hne _ (hno h b hb)]; exact hdata, hsha, hlen⟩
  · intro h f data hu
    obtain ⟨h₁, h₂, h₃⟩ := hok.uploaded h f data hu
    have : h ≠ hd := fun he => hup f data (he ▸ hu)
    exact ⟨by rw [hne _ this]; exact h₁, h₂, h₃⟩
  · intro h hm
    exact hok.waste h (hm.imp (hsub h) id)
  · intro h hge
    rw [hne h (Nat.ne_of_gt (Nat.lt_of_lt_of_le hlt hge))]
    exact hok.fresh h hge
  · intro h data hdata
    by_cases hh : h = hd
    · subst hh
      simp [Backend.delete] at hdata
    · rw [hne h hh] at hdata
      obtain h₁ | h₂ | h₃ | h₄ := hok.held h data hdata
      · exact .inl h₁
      · exact .inr (.inl h₂)
      · exact .inr (.inr (.inl h₃))
      · exact .inr (.inr (.inr ((hrest h h₄).resolve_right hh)))

/-! ## Changing who owns a future -/

section Disown

variable {mayFail : Prop} {tasks : List (Task Sha)} {futs futs' dones doomed doomed' :
  Multiset (Sha × FutId)}

omit [DecidableEq Sha] in
/-- A settled future needs no owner. -/
theorem TasksOk.disown (hok : TasksOk mayFail tasks futs dones doomed) {p : Sha × FutId}
    (hsplit : futs + doomed = p ::ₘ (futs' + doomed')) (hle : futs' ≤ futs) {t : Task Sha}
    (ht : tasks[p.2]? = some t) (hs : t.phase.settled = true) :
    TasksOk mayFail tasks futs' dones doomed' := by
  refine ⟨hok.data_sha, ?_, fun f t' ht' hs' => ?_, fun q hq => ?_, hok.finished,
    fun q hq => hok.alive q (Multiset.mem_of_le hle hq),
    fun q hq => hok.failed q (Multiset.mem_of_le hle hq)⟩
  · have := hok.nodup
    rw [hsplit, Multiset.map_cons, Multiset.nodup_cons] at this
    exact this.2
  · have := hok.owned f t' ht' hs'
    rw [hsplit, Multiset.map_cons, Multiset.mem_cons] at this
    refine this.resolve_left ?_
    rintro rfl
    rw [ht] at ht'
    cases ht'
    rw [hs] at hs'
    cases hs'
  · exact hok.sha q (by rw [hsplit]; exact Multiset.mem_cons_of_mem hq)

omit [DecidableEq Sha] in
theorem TasksOk.remember (hok : TasksOk mayFail tasks futs dones doomed) {p : Sha × FutId}
    {t : Task Sha} (ht : tasks[p.2]? = some t) (hp : t.phase = .done) :
    TasksOk mayFail tasks futs (p ::ₘ dones) doomed := by
  refine ⟨hok.data_sha, hok.nodup, hok.owned, hok.sha, fun q hq => ?_, hok.alive, hok.failed⟩
  obtain rfl | hq := Multiset.mem_cons.mp hq
  · exact ⟨t, ht, hp⟩
  · exact hok.finished q hq

/-- The reference of a future that is done. -/
theorem TasksOk.taskRef_done (hok : TasksOk mayFail tasks futs dones doomed) {p : Sha × FutId}
    (hp : p ∈ futs + doomed) {t : Task Sha} (ht : tasks[p.2]? = some t) (hd : t.phase = .done)
    (h : Sha) : taskRef tasks h p.2 = if h = p.1 then 1 else 0 := by
  obtain ⟨t', ht', hsha⟩ := hok.sha p hp
  rw [ht] at ht'
  cases ht'
  simp [taskRef, ht, hd, Phase.registered, hsha, eq_comm]

end Disown

/-! ## What an owner can rely on -/

namespace Inv

variable {mayFail : Prop} {canFree : Ino → Prop} {s : Store Sha} {g o : Res Sha}

theorem blob_of_ref (hi : Inv mayFail canFree s g) {h : Sha} (hm : h ∈ g.refs) :
    ∃ b, s.index.blobs h = some b := by
  apply blob_of_refcount
  have := hi.counts h
  have : 0 < g.refs.count h := Multiset.count_pos.mpr hm
  omega

theorem blob_of_row (hi : Inv mayFail canFree s g) {ino : Ino} (hf : ino ∉ freeing g.owns)
    {c : Chunk Sha} (hc : c ∈ s.index.getChunks ino) : ∃ b, s.index.blobs c.sha = some b := by
  apply blob_of_refcount
  have := hi.counts c.sha
  have : 0 < s.index.liveRows (freeing g.owns) c.sha :=
    Meta.liveRows_pos (Meta.mem_getChunks.mp hc) hf
  omega

/-- The blobs of the rows an owner sees exist, unless it is freeing them. -/
theorem blob_of_owned (hi : Inv mayFail canFree s (g + o)) {ow : Owned Sha} (hg : g.owns = {ow})
    (hf : ow.freeing = false) {c : Chunk Sha} (hc : c ∈ ow.rows) :
    ∃ b, s.index.blobs c.sha = some b := by
  have hown : OwnsOk canFree s.index ({ow} + o.owns) := hg ▸ hi.owns
  have hrow : c ∈ s.index.getChunks ow.ino := by
    rw [(hown.seen ow (by simp)).1]
    exact hc
  refine hi.blob_of_row ?_ hrow
  rw [Res.add_owns, hg, freeing_add, freeing_singleton, hf]
  simpa using hown.not_mem_freeing

/-! ## References -/

theorem incref (hi : Inv mayFail canFree s (g + o)) {sha : Sha} {b : Blob}
    (hb : s.index.blobs sha = some b) :
    Inv mayFail canFree { s with index := s.index.blobIncref sha }
      ({ g with refs := sha ::ₘ g.refs } + o) where
  counts h := by
    have hc := hi.counts h
    simp only [Res.add_refs, Res.add_futs, Res.add_doomed, Res.add_owns,
      Multiset.count_add, Multiset.count_cons] at hc ⊢
    rw [Meta.refcount_blobIncref hb, hc]
    change _ = s.index.liveRows _ h + _ + _
    omega
  tasks := hi.tasks
  blobs := hi.blobs.incref sha
  owns := hi.owns.congr rfl rfl

theorem decref (hi : Inv mayFail canFree s (g + o)) {sha : Sha} {refs : Multiset Sha}
    (hr : g.refs = sha ::ₘ refs) :
    Inv mayFail canFree { s with index := (s.index.blobDecref sha).2 }
      ({ g with refs := refs
                trash := (s.index.blobDecref sha).1.elim 0 ({·}) + g.trash } + o) where
  counts h := by
    obtain ⟨b, hb⟩ := hi.blob_of_ref (h := sha) (by simp [hr])
    have hc := hi.counts h
    have hpos : 0 < b.refcount := by
      have hsha := hi.counts sha
      rw [Meta.refcount_of_blob hb, Res.add_refs, hr, Multiset.count_add,
        Multiset.count_cons_self] at hsha
      omega
    have hd := Meta.refcount_blobDecref hb hpos h
    simp only [Res.add_refs, Res.add_futs, Res.add_doomed, Res.add_owns, hr,
      Multiset.count_add, Multiset.count_cons] at hc ⊢
    rw [Meta.liveRows_congr (Meta.blobDecref_chunks _ _)]
    omega
  tasks := hi.tasks
  blobs := by
    rw [Res.add_trash, add_assoc]
    exact hi.blobs.decref sha
  owns := hi.owns.congr (Meta.blobDecref_chunks _ _) (Meta.blobDecref_inodes _ _)

theorem delete (hi : Inv mayFail canFree s (g + o)) {hd : Handle} {trash : Multiset Handle}
    (ht : g.trash = hd ::ₘ trash) :
    Inv mayFail canFree { s with backend := s.backend.delete hd } ({ g with trash := trash } + o) where
  counts := hi.counts
  tasks := hi.tasks
  blobs := by
    refine hi.blobs.delete (.inl (by simp [ht])) (fun h hm => ?_) (fun h hm => ?_)
    · simp only [Res.add_trash, ht, Multiset.mem_add, Multiset.mem_cons] at hm ⊢
      exact hm.imp .inr id
    · simp only [Res.add_trash, ht, Multiset.mem_add, Multiset.mem_cons] at hm ⊢
      tauto
  owns := hi.owns

/-! ## Futures -/

theorem result_ok (hi : Inv mayFail canFree s (g + o)) {p : Sha × FutId} {futs : Multiset (Sha × FutId)}
    (hf : g.futs = p ::ₘ futs) {t : Task Sha} (ht : s.tasks[p.2]? = some t)
    (hp : t.phase = .done) :
    Inv mayFail canFree s
      ({ g with futs := futs, dones := p ::ₘ g.dones, refs := p.1 ::ₘ g.refs } + o) where
  counts h := by
    have hc := hi.counts h
    have hr := hi.tasks.taskRef_done (p := p) (by simp [hf]) ht hp h
    simp only [Res.add_refs, Res.add_futs, Res.add_doomed, Res.add_owns, hf, futRefs_cons,
      futRefs_add, hr, Multiset.count_add, Multiset.count_cons] at hc ⊢
    omega
  tasks := by
    rw [Res.add_dones, Multiset.cons_add]
    refine (hi.tasks.disown (p := p) ?_ ?_ ht (by simp [hp, Phase.settled])).remember ht hp
    · simp [hf]
    · simp only [Res.add_futs, hf]
      exact add_le_add_left (Multiset.le_cons_self _ _) _
  blobs := hi.blobs
  owns := hi.owns

/-- A future that was asked to cancel and had registered its blob all the same. -/
theorem keep_doomed (hi : Inv mayFail canFree s (g + o)) {p : Sha × FutId}
    {doomed : Multiset (Sha × FutId)} (hd : g.doomed = p ::ₘ doomed) {t : Task Sha}
    (ht : s.tasks[p.2]? = some t) (hp : t.phase = .done) :
    Inv mayFail canFree s ({ g with doomed := doomed, refs := p.1 ::ₘ g.refs } + o) where
  counts h := by
    have hc := hi.counts h
    have hr := hi.tasks.taskRef_done (p := p) (by simp [hd]) ht hp h
    simp only [Res.add_refs, Res.add_futs, Res.add_doomed, Res.add_owns, hd, futRefs_cons,
      futRefs_add, hr, Multiset.count_add, Multiset.count_cons] at hc ⊢
    omega
  tasks := by
    refine hi.tasks.disown (p := p) ?_ le_rfl ht (by simp [hp, Phase.settled])
    simp [hd]
  blobs := hi.blobs
  owns := hi.owns

/-- A future that was asked to cancel and will never register its blob. -/
theorem drop_doomed (hi : Inv mayFail canFree s (g + o)) {p : Sha × FutId}
    {doomed : Multiset (Sha × FutId)} (hd : g.doomed = p ::ₘ doomed) {t : Task Sha}
    (ht : s.tasks[p.2]? = some t) (hs : t.phase.settled = true)
    (hr : t.phase.registered = false) :
    Inv mayFail canFree s ({ g with doomed := doomed } + o) where
  counts h := by
    have hc := hi.counts h
    have hr : taskRef s.tasks h p.2 = 0 := by simp [taskRef, ht, hr]
    simp only [Res.add_refs, Res.add_futs, Res.add_doomed, Res.add_owns, hd, futRefs_cons,
      futRefs_add, hr, Multiset.count_add] at hc ⊢
    omega
  tasks := by
    refine hi.tasks.disown (p := p) ?_ le_rfl ht hs
    simp [hd]
  blobs := hi.blobs
  owns := hi.owns

end Inv

end Store

end Tgfs
