import Tgfs.Store.Proofs.Steps

/-!
# The upload pool keeps the invariant

Submitting a future, asking it to cancel, and every step the pool takes on it. A step that
registers a blob raises the refcount and the future's own reference together, so that nobody's
share has to change.
-/

namespace Tgfs

namespace Store

variable {Sha : Type}

/-! ## Phases -/

theorem uploadedBy_set {tasks : List (Task Sha)} {f : FutId} {t : Task Sha} {hd : Handle}
    {f' : FutId} {data : Bytes} (h : UploadedBy (tasks.set f t) hd f' data) :
    (f' = f ∧ t.phase = .uploaded hd ∧ t.data = data) ∨ (f' ≠ f ∧ UploadedBy tasks hd f' data) := by
  obtain ⟨t', ht', hp, hdata⟩ := h
  by_cases hf : f' = f
  · subst hf
    obtain ⟨-, rfl⟩ : f' < tasks.length ∧ t = t' := by
      rw [List.getElem?_set] at ht'
      by_cases hlt : f' < tasks.length
      · simpa [hlt] using ht'
      · simp [hlt] at ht'
    exact .inl ⟨rfl, hp, hdata⟩
  · rw [List.getElem?_set_ne (Ne.symm hf)] at ht'
    exact .inr ⟨hf, t', ht', hp, hdata⟩

theorem UploadedBy.set_ne {tasks : List (Task Sha)} {f : FutId} {t : Task Sha} {hd : Handle}
    {f' : FutId} {data : Bytes} (h : UploadedBy tasks hd f' data) (hf : f' ≠ f) :
    UploadedBy (tasks.set f t) hd f' data := by
  obtain ⟨t', ht', hp, hdata⟩ := h
  exact ⟨t', by rw [List.getElem?_set_ne (Ne.symm hf)]; exact ht', hp, hdata⟩

theorem dropping_set {tasks : List (Task Sha)} {f : FutId} {t : Task Sha} {hd : Handle}
    (h : Dropping (tasks.set f t) hd) : t.phase = .dropCopy hd ∨ Dropping tasks hd := by
  obtain ⟨f', t', ht', hp⟩ := h
  by_cases hf : f' = f
  · subst hf
    rw [List.getElem?_set] at ht'
    by_cases hlt : f' < tasks.length
    · obtain rfl : t = t' := by simpa [hlt] using ht'
      exact .inl hp
    · simp [hlt] at ht'
  · rw [List.getElem?_set_ne (Ne.symm hf)] at ht'
    exact .inr ⟨f', t', ht', hp⟩

/-- A handle that was being dropped still is, unless its own future moved on. -/
theorem Dropping.set {tasks : List (Task Sha)} {f : FutId} {t t₀ : Task Sha} {hd : Handle}
    (h : Dropping tasks hd) (ht : tasks[f]? = some t₀) :
    t₀.phase = .dropCopy hd ∨ Dropping (tasks.set f t) hd := by
  obtain ⟨f', t', ht', hp⟩ := h
  by_cases hf : f' = f
  · subst hf
    rw [ht] at ht'
    cases ht'
    exact .inl hp
  · exact .inr ⟨f', t', by rw [List.getElem?_set_ne (Ne.symm hf)]; exact ht', hp⟩

variable [Sha256 Sha]

/-- A future that is still in flight may take any next phase that its owner allows. -/
theorem TasksOk.set {mayFail : Prop} {tasks : List (Task Sha)}
    {futs dones doomed : Multiset (Sha × FutId)} (hok : TasksOk mayFail tasks futs dones doomed)
    {f : FutId} {t : Task Sha} (ht : tasks[f]? = some t) (hlive : t.phase.settled = false)
    {p : Phase Sha} (hc : p = .cancelled → f ∉ futs.map Prod.snd)
    (hfail : ∀ e, p = .failed e → mayFail ∧ e = .uploadFailed) :
    TasksOk mayFail (tasks.set f { t with phase := p }) futs dones doomed := by
  have hlt := (List.getElem?_eq_some_iff.mp ht).1
  have hself : (tasks.set f { t with phase := p })[f]? = some { t with phase := p } :=
    List.getElem?_set_self hlt
  have hne : ∀ f', f' ≠ f → (tasks.set f { t with phase := p })[f']? = tasks[f']? :=
    fun f' hf => List.getElem?_set_ne (Ne.symm hf)
  refine ⟨fun f' t' ht' => ?_, hok.nodup, fun f' t' ht' hs => ?_, fun q hq => ?_,
    fun q hq => ?_, fun q hq t' ht' => ?_, fun q hq t' ht' e he => ?_⟩
  · by_cases hf : f' = f
    · subst hf
      rw [hself] at ht'
      cases ht'
      exact hok.data_sha f' t ht
    · exact hok.data_sha f' t' (by rwa [hne f' hf] at ht')
  · by_cases hf : f' = f
    · subst hf
      exact hok.owned f' t ht hlive
    · exact hok.owned f' t' (by rwa [hne f' hf] at ht') hs
  · obtain ⟨t', ht', hsha⟩ := hok.sha q hq
    by_cases hf : q.2 = f
    · rw [hf, ht] at ht'
      cases ht'
      exact ⟨{ t with phase := p }, by rw [hf]; exact hself, hsha⟩
    · exact ⟨t', by rwa [hne _ hf], hsha⟩
  · obtain ⟨t', ht', hd⟩ := hok.finished q hq
    by_cases hf : q.2 = f
    · rw [hf, ht] at ht'
      cases ht'
      simp [hd, Phase.settled] at hlive
    · exact ⟨t', by rwa [hne _ hf], hd⟩
  · by_cases hf : q.2 = f
    · rw [hf, hself] at ht'
      cases ht'
      intro hcan
      exact hc hcan (hf ▸ Multiset.mem_map_of_mem _ hq)
    · exact hok.alive q hq t' (by rwa [hne _ hf] at ht')
  · by_cases hf : q.2 = f
    · rw [hf, hself] at ht'
      cases ht'
      exact hfail e he
    · exact hok.failed q hq t' (by rwa [hne _ hf] at ht') e he

/-- Futures may change as long as no handle is left without an owner. -/
theorem BlobsOk.retask {blobs : Sha → Option Blob} {backend : Backend}
    {tasks tasks' : List (Task Sha)} {trash : Multiset Handle}
    (hok : BlobsOk blobs backend tasks trash)
    (hup : ∀ hd f data, UploadedBy tasks' hd f data → UploadedBy tasks hd f data)
    (hdrop : ∀ hd, Dropping tasks' hd → Dropping tasks hd ∨
      (∃ f data, UploadedBy tasks hd f data) ∧ ∀ f data, ¬ UploadedBy tasks' hd f data)
    (hheld : ∀ hd data, backend.blobs hd = some data →
      (∃ f data', UploadedBy tasks hd f data') ∨ Dropping tasks hd →
      (∃ f data', UploadedBy tasks' hd f data') ∨ Dropping tasks' hd) :
    BlobsOk blobs backend tasks' trash := by
  refine ⟨hok.stored, fun hd f data hu => ?_, fun hd hw => ?_, hok.fresh, fun hd data hdata => ?_⟩
  · obtain ⟨h₁, h₂, h₃⟩ := hok.uploaded hd f data (hup hd f data hu)
    exact ⟨h₁, h₂, fun f' data' hu' => h₃ f' data' (hup hd f' data' hu')⟩
  · have hold : hd ∈ trash ∨ Dropping tasks hd → hd < backend.next ∧
        (∀ h b, blobs h = some b → b.handle ≠ hd) ∧ ∀ f data, ¬ UploadedBy tasks' hd f data := by
      intro hw
      obtain ⟨h₁, h₂, h₃⟩ := hok.waste hd hw
      exact ⟨h₁, h₂, fun f data hu => h₃ f data (hup hd f data hu)⟩
    obtain hw | hw := hw
    · exact hold (.inl hw)
    · obtain hw | ⟨⟨f, data, hu⟩, hno⟩ := hdrop hd hw
      · exact hold (.inr hw)
      · obtain ⟨h₁, h₂, -⟩ := hok.uploaded hd f data hu
        refine ⟨?_, h₂, hno⟩
        by_contra hge
        rw [hok.fresh hd (Nat.le_of_not_lt hge)] at h₁
        cases h₁
  · obtain h₁ | h₂ | h₃ | h₄ := hok.held hd data hdata
    · exact .inl h₁
    · exact .inr ((hheld hd data hdata (.inl h₂)).imp id .inl)
    · exact .inr ((hheld hd data hdata (.inr h₃)).imp id .inl)
    · exact .inr (.inr (.inr h₄))

/-- A phase that names no handle may be replaced by another one. -/
theorem BlobsOk.set {blobs : Sha → Option Blob} {backend : Backend} {tasks : List (Task Sha)}
    {trash : Multiset Handle} (hok : BlobsOk blobs backend tasks trash) {f : FutId}
    {t t' : Task Sha} (ht : tasks[f]? = some t)
    (hold : ∀ hd, t.phase ≠ .uploaded hd ∧
      (t.phase = .dropCopy hd → backend.blobs hd = none))
    (hnew : ∀ hd, t'.phase ≠ .uploaded hd ∧ t'.phase ≠ .dropCopy hd) :
    BlobsOk blobs backend (tasks.set f t') trash := by
  refine hok.retask (fun hd f' data hu => ?_) (fun hd hd' => ?_) (fun hd data hdata hw => ?_)
  · obtain ⟨-, hp, -⟩ | ⟨-, hu⟩ := uploadedBy_set hu
    · exact absurd hp (hnew hd).1
    · exact hu
  · exact .inl ((dropping_set hd').resolve_left (hnew hd).2)
  · obtain ⟨f', data', hu⟩ | hw := hw
    · refine .inl ⟨f', data', hu.set_ne ?_⟩
      rintro rfl
      obtain ⟨t₀, ht₀, hp, -⟩ := hu
      rw [ht] at ht₀
      cases ht₀
      exact (hold hd).1 hp
    · refine .inr ((hw.set ht).resolve_left fun hp => ?_)
      rw [(hold hd).2 hp] at hdata
      cases hdata

/-- The upload itself: a new message, owned by the future. -/
theorem BlobsOk.upload {blobs : Sha → Option Blob} {backend : Backend} {tasks : List (Task Sha)}
    {trash : Multiset Handle} (hok : BlobsOk blobs backend tasks trash) {f : FutId}
    {t : Task Sha} (ht : tasks[f]? = some t) (hp : t.phase = .running) :
    BlobsOk blobs (backend.upload t.data).2
      (tasks.set f { t with phase := .uploaded (backend.upload t.data).1 }) trash := by
  have hnext : ∀ hd, hd < backend.next →
      (backend.upload t.data).2.blobs hd = backend.blobs hd :=
    fun hd hlt => Function.update_of_ne (Nat.ne_of_lt hlt) _ _
  have hself : (backend.upload t.data).2.blobs backend.next = some t.data :=
    Function.update_self _ _ _
  have hlt : ∀ hd data, backend.blobs hd = some data → hd < backend.next := by
    intro hd data hdata
    by_contra hge
    rw [hok.fresh hd (Nat.le_of_not_lt hge)] at hdata
    cases hdata
  have hblob : ∀ h b, blobs h = some b → b.handle < backend.next := by
    intro h b hb
    obtain ⟨data, hdata, -⟩ := hok.stored h b hb
    exact hlt _ _ hdata
  have hup : ∀ hd f' data, UploadedBy tasks hd f' data → hd < backend.next ∧ f' ≠ f := by
    intro hd f' data hu
    refine ⟨hlt _ _ (hok.uploaded hd f' data hu).1, ?_⟩
    rintro rfl
    obtain ⟨t₀, ht₀, hp₀, -⟩ := hu
    rw [ht] at ht₀
    cases ht₀
    rw [hp] at hp₀
    cases hp₀
  have hdrop : ∀ hd, Dropping (tasks.set f
      { t with phase := .uploaded (backend.upload t.data).1 }) hd → Dropping tasks hd :=
    fun hd hw => (dropping_set hw).resolve_left (by simp)
  refine ⟨?_, ?_, ?_, ?_, ?_⟩
  · intro h b hb
    obtain ⟨data, hdata, hrest⟩ := hok.stored h b hb
    exact ⟨data, by rw [hnext _ (hblob h b hb)]; exact hdata, hrest⟩
  · intro hd f' data hu
    obtain ⟨rfl, hph, rfl⟩ | ⟨hne, hu⟩ := uploadedBy_set hu
    · obtain rfl : backend.next = hd := by simpa [Backend.upload] using hph
      refine ⟨hself, fun h b hb => Nat.ne_of_lt (hblob h b hb), fun f'' data' hu' => ?_⟩
      obtain ⟨rfl, -⟩ | ⟨-, hu'⟩ := uploadedBy_set hu'
      · rfl
      · exact absurd (hup _ _ _ hu').1 (Nat.lt_irrefl _)
    · obtain ⟨h₁, h₂, h₃⟩ := hok.uploaded hd f' data hu
      have hold := (hup hd f' data hu).1
      refine ⟨by rw [hnext hd hold]; exact h₁, h₂, fun f'' data' hu' => ?_⟩
      obtain ⟨rfl, hph, -⟩ | ⟨-, hu'⟩ := uploadedBy_set hu'
      · obtain rfl : backend.next = hd := by simpa [Backend.upload] using hph
        exact absurd hold (Nat.lt_irrefl _)
      · exact h₃ f'' data' hu'
  · intro hd hw
    obtain ⟨h₁, h₂, h₃⟩ := hok.waste hd (hw.imp id (hdrop hd))
    refine ⟨Nat.lt_succ_of_lt h₁, h₂, fun f' data hu => ?_⟩
    obtain ⟨-, hph, -⟩ | ⟨-, hu⟩ := uploadedBy_set hu
    · obtain rfl : backend.next = hd := by simpa [Backend.upload] using hph
      exact absurd h₁ (Nat.lt_irrefl _)
    · exact h₃ f' data hu
  · intro hd hge
    have hgt : backend.next < hd := hge
    exact (Function.update_of_ne (Nat.ne_of_gt hgt) _ _).trans (hok.fresh hd (Nat.le_of_lt hgt))
  · intro hd data hdata
    by_cases hh : hd = backend.next
    · subst hh
      exact .inr (.inl ⟨f, t.data, _, List.getElem?_set_self (List.getElem?_eq_some_iff.mp ht).1,
        rfl, rfl⟩)
    · have hdata' : backend.blobs hd = some data := by
        rw [← hdata]
        exact (Function.update_of_ne hh _ _).symm
      obtain h₁ | ⟨f', data', hu⟩ | hw | h₄ := hok.held hd data hdata'
      · exact .inl h₁
      · exact .inr (.inl ⟨f', data', hu.set_ne (hup hd f' data' hu).2⟩)
      · refine .inr (.inr (.inl ((hw.set ht).resolve_left ?_)))
        simp [hp]
      · exact .inr (.inr (.inr h₄))

/-- The copy of a future whose hash is known already is to be deleted. -/
theorem BlobsOk.drop {blobs : Sha → Option Blob} {backend : Backend} {tasks : List (Task Sha)}
    {trash : Multiset Handle} (hok : BlobsOk blobs backend tasks trash) {f : FutId}
    {t : Task Sha} {hd : Handle} (ht : tasks[f]? = some t) (hp : t.phase = .uploaded hd) :
    BlobsOk blobs backend (tasks.set f { t with phase := .dropCopy hd }) trash := by
  have hlt := (List.getElem?_eq_some_iff.mp ht).1
  have hown : UploadedBy tasks hd f t.data := ⟨t, ht, hp, rfl⟩
  have hback : ∀ hd' f' data, UploadedBy (tasks.set f { t with phase := .dropCopy hd }) hd' f' data →
      f' ≠ f ∧ UploadedBy tasks hd' f' data := by
    intro hd' f' data hu
    obtain ⟨-, hph, -⟩ | hu := uploadedBy_set hu
    · cases hph
    · exact hu
  refine hok.retask (fun hd' f' data hu => (hback hd' f' data hu).2) (fun hd' hw => ?_)
    (fun hd' data hdata hw => ?_)
  · obtain hph | hw := dropping_set hw
    · cases hph
      refine .inr ⟨⟨f, t.data, hown⟩, fun f' data hu => ?_⟩
      obtain ⟨hne, hu⟩ := hback _ f' data hu
      exact hne ((hok.uploaded hd f t.data hown).2.2 f' data hu)
    · exact .inl hw
  · obtain ⟨f', data', hu⟩ | hw := hw
    · by_cases hf : f' = f
      · subst hf
        obtain ⟨t₀, ht₀, hp₀, -⟩ := hu
        rw [ht] at ht₀
        cases ht₀
        rw [hp] at hp₀
        cases hp₀
        exact .inr ⟨f', _, List.getElem?_set_self hlt, rfl⟩
      · exact .inl ⟨f', data', hu.set_ne hf⟩
    · exact .inr ((hw.set ht).resolve_left (by simp [hp]))

variable [DecidableEq Sha]

/-- A future registers its message under a hash that has no row. -/
theorem BlobsOk.create {m : Meta Sha} {backend : Backend} {tasks : List (Task Sha)}
    {trash : Multiset Handle} (hok : BlobsOk m.blobs backend tasks trash) {f : FutId}
    {t : Task Sha} {hd : Handle} (ht : tasks[f]? = some t) (hp : t.phase = .uploaded hd)
    (hsha : sha256 t.data = t.sha) (hn : m.blobs t.sha = none) :
    BlobsOk (m.blobCreate t.sha hd t.data.length).blobs backend
      (tasks.set f { t with phase := .done }) trash := by
  obtain ⟨hdata, hno, huniq⟩ := hok.uploaded hd f t.data ⟨t, ht, hp, rfl⟩
  have hself := m.putBlob_self t.sha (some ⟨hd, t.data.length, 1⟩)
  have hcases : ∀ h b, (m.blobCreate t.sha hd t.data.length).blobs h = some b →
      (h = t.sha ∧ b = ⟨hd, t.data.length, 1⟩) ∨ m.blobs h = some b := by
    intro h b hb
    by_cases hh : h = t.sha
    · subst hh
      rw [Meta.blobCreate, hself] at hb
      cases hb
      exact .inl ⟨rfl, rfl⟩
    · rw [Meta.blobCreate, Meta.putBlob_ne hh] at hb
      exact .inr hb
  have hup : ∀ hd' f' data, UploadedBy (tasks.set f { t with phase := .done }) hd' f' data →
      f' ≠ f ∧ UploadedBy tasks hd' f' data := by
    intro hd' f' data hu
    obtain ⟨-, hph, -⟩ | hu := uploadedBy_set hu
    · cases hph
    · exact hu
  have hdrop : ∀ hd', Dropping (tasks.set f { t with phase := .done }) hd' →
      Dropping tasks hd' := fun hd' hw => (dropping_set hw).resolve_left (by simp)
  refine ⟨?_, ?_, ?_, hok.fresh, ?_⟩
  · intro h b hb
    obtain ⟨rfl, rfl⟩ | hb := hcases h b hb
    · exact ⟨t.data, hdata, hsha, rfl⟩
    · exact hok.stored h b hb
  · intro hd' f' data hu
    obtain ⟨hne, hu⟩ := hup hd' f' data hu
    obtain ⟨h₁, h₂, h₃⟩ := hok.uploaded hd' f' data hu
    refine ⟨h₁, fun h b hb hh => ?_, fun f'' data' hu' => h₃ f'' data' (hup _ _ _ hu').2⟩
    obtain ⟨rfl, rfl⟩ | hb := hcases h b hb
    · obtain rfl : hd = hd' := hh
      exact hne (huniq f' data hu)
    · exact h₂ h b hb hh
  · intro hd' hw
    obtain ⟨h₁, h₂, h₃⟩ := hok.waste hd' (hw.imp id (hdrop hd'))
    refine ⟨h₁, fun h b hb hh => ?_, fun f' data hu => h₃ f' data (hup _ _ _ hu).2⟩
    obtain ⟨rfl, rfl⟩ | hb := hcases h b hb
    · obtain rfl : hd = hd' := hh
      exact h₃ f t.data ⟨t, ht, hp, rfl⟩
    · exact h₂ h b hb hh
  · intro hd' data hdata'
    obtain ⟨h, b, hb, rfl⟩ | ⟨f', data', hu⟩ | hw | htr := hok.held hd' data hdata'
    · refine .inl ⟨h, b, ?_, rfl⟩
      rw [Meta.blobCreate, Meta.putBlob_ne (by rintro rfl; rw [hn] at hb; cases hb)]
      exact hb
    · by_cases hf : f' = f
      · subst hf
        obtain ⟨t₀, ht₀, hp₀, -⟩ := hu
        rw [ht] at ht₀
        cases ht₀
        rw [hp] at hp₀
        cases hp₀
        exact .inl ⟨t.sha, _, hself, rfl⟩
      · exact .inr (.inl ⟨f', data', hu.set_ne hf⟩)
    · exact .inr (.inr (.inl ((hw.set ht).resolve_left (by simp [hp]))))
    · exact .inr (.inr (.inr htr))

/-! ## Counting under a step of the pool -/

omit [Sha256 Sha] in
theorem taskRef_set_self {tasks : List (Task Sha)} {f : FutId} {t₀ : Task Sha}
    (ht : tasks[f]? = some t₀) (t : Task Sha) (h : Sha) :
    taskRef (tasks.set f t) h f = if t.phase.registered ∧ t.sha = h then 1 else 0 := by
  simp only [taskRef, List.getElem?_set_self (List.getElem?_eq_some_iff.mp ht).1]

omit [Sha256 Sha] in
/-- A step of an owned future that changes refcounts by what it registers keeps the count. -/
theorem Counts.set {m m' : Meta Sha} {tasks : List (Task Sha)} {fr : Multiset Ino}
    {refs : Multiset Sha} {ups : Multiset (Sha × FutId)} (hc : Counts m tasks fr refs ups)
    (hn : (ups.map Prod.snd).Nodup) {f : FutId} (hf : f ∈ ups.map Prod.snd) {t : Task Sha}
    (ht : tasks[f]? = some t) (p : Phase Sha) (hch : m'.chunks = m.chunks)
    (hr : ∀ h, m'.refcount h + (if t.phase.registered ∧ t.sha = h then 1 else 0) =
      m.refcount h + if p.registered ∧ t.sha = h then 1 else 0) :
    Counts m' (tasks.set f { t with phase := p }) fr refs ups := by
  intro h
  have hold : taskRef tasks h f = if t.phase.registered ∧ t.sha = h then 1 else 0 := by
    simp only [taskRef, ht]
  have hnew : taskRef (tasks.set f { t with phase := p }) h f =
      if p.registered ∧ t.sha = h then 1 else 0 := taskRef_set_self ht _ h
  have h₁ := futRefs_set tasks hn hf { t with phase := p } h
  rw [hold, hnew] at h₁
  have h₂ := hc h
  have h₃ := hr h
  rw [Meta.liveRows_congr hch]
  omega

namespace Inv

variable {mayFail : Prop} {canFree : Ino → Prop} {s : Store Sha} {g o : Res Sha}

/-- A phase change that neither registers a blob nor touches a handle. -/
theorem setPhase (hi : Inv mayFail canFree s g) {f : FutId} {t : Task Sha} (ht : s.tasks[f]? = some t)
    (hlive : t.phase.settled = false) {p : Phase Sha}
    (hr : t.phase.registered = p.registered)
    (hc : p = .cancelled → f ∉ g.futs.map Prod.snd)
    (hfail : ∀ e, p = .failed e → mayFail ∧ e = .uploadFailed)
    (hold : ∀ hd, t.phase ≠ .uploaded hd ∧
      (t.phase = .dropCopy hd → s.backend.blobs hd = none))
    (hnew : ∀ hd, p ≠ .uploaded hd ∧ p ≠ .dropCopy hd) : Inv mayFail canFree (s.setPhase f t p) g where
  counts := hi.counts.set hi.tasks.nodup (hi.tasks.owned f t ht hlive) ht p rfl
    fun h => by rw [hr, setPhase_index]
  tasks := hi.tasks.set ht hlive hc hfail
  blobs := hi.blobs.set ht hold hnew
  owns := hi.owns

/-- Every step of the pool keeps the invariant, with the same owners. -/
theorem poolStep (hi : Inv mayFail canFree s g) {e : FutId × PoolTick} (hdel : e.2.deleteFails = false)
    (hup : e.2.uploadFails = true → mayFail) : Inv mayFail canFree (poolStep e s) g := by
  unfold Store.poolStep
  cases ht : s.tasks[e.1]? with
  | none => exact hi
  | some t =>
    simp only
    cases hp : t.phase with
    | queued =>
      exact hi.setPhase ht (by simp [hp, Phase.settled]) (by simp [hp, Phase.registered])
        (by simp) (by simp) (by simp [hp]) (by simp)
    | running =>
      simp only
      split
      case isTrue hu =>
        exact hi.setPhase ht (by simp [hp, Phase.settled]) (by simp [hp, Phase.registered])
          (by simp) (fun e he => ⟨hup hu, by cases he; rfl⟩) (by simp [hp]) (by simp)
      case isFalse =>
        have hlive : t.phase.settled = false := by simp [hp, Phase.settled]
        exact {
          counts := hi.counts.set hi.tasks.nodup (hi.tasks.owned _ t ht hlive) ht _ rfl
            fun h => by simp [hp, Phase.registered]
          tasks := hi.tasks.set ht hlive (by simp) (by simp)
          blobs := hi.blobs.upload ht hp
          owns := hi.owns }
    | uploaded hd =>
      have hlive : t.phase.settled = false := by simp [hp, Phase.settled]
      simp only
      split
      case isTrue hn =>
        have hnone : s.index.blobs t.sha = none := by simpa [Meta.blobGet] using hn
        exact {
          counts := hi.counts.set hi.tasks.nodup (hi.tasks.owned _ t ht hlive) ht .done rfl
            fun h => by
              rw [setPhase_index, Meta.blobCreate, Meta.refcount_putBlob]
              by_cases hh : h = t.sha
              · subst hh
                simp [hp, Phase.registered, Meta.refcount, hnone]
              · simp [hp, Phase.registered, hh, Ne.symm hh]
          tasks := hi.tasks.set ht hlive (by simp) (by simp)
          blobs := hi.blobs.create ht hp (hi.tasks.data_sha _ t ht) hnone
          owns := hi.owns.congr rfl rfl }
      case isFalse hn =>
        obtain ⟨b, hb⟩ : ∃ b, s.index.blobs t.sha = some b := by
          rw [← Option.isSome_iff_exists]
          simpa [Meta.blobGet, Option.isSome_iff_ne_none] using hn
        exact {
          counts := hi.counts.set hi.tasks.nodup (hi.tasks.owned _ t ht hlive) ht (.dropCopy hd)
            rfl fun h => by
              rw [setPhase_index, Meta.refcount_blobIncref hb]
              simp [hp, Phase.registered, eq_comm]
          tasks := hi.tasks.set ht hlive (by simp) (by simp)
          blobs := (hi.blobs.incref t.sha).drop ht hp
          owns := hi.owns.congr rfl rfl }
    | dropCopy hd =>
      simp only [hdel, Bool.false_eq_true, if_false]
      have hi' : Inv mayFail canFree { s with backend := s.backend.delete hd } g := {
        counts := hi.counts
        tasks := hi.tasks
        blobs := hi.blobs.delete (.inr ⟨e.1, t, ht, hp⟩) (fun _ h => h) (fun _ h => .inl h)
        owns := hi.owns }
      exact hi'.setPhase ht (by simp [hp, Phase.settled]) (by simp [hp, Phase.registered])
        (by simp) (by simp) (by simp [hp, Backend.delete]) (by simp)
    | done | failed _ | cancelled => exact hi

/-! ## Submitting and cancelling -/

theorem submit (hi : Inv mayFail canFree s (g + o)) {sha : Sha} {data : Bytes} (hsha : sha256 data = sha) :
    Inv mayFail canFree { s with tasks := s.tasks ++ [⟨sha, data, .queued⟩] }
      ({ g with futs := (sha, s.tasks.length) ::ₘ g.futs } + o) := by
  have hold : ∀ (f : FutId) (t : Task Sha), s.tasks[f]? = some t →
      (s.tasks ++ [⟨sha, data, .queued⟩])[f]? = some t := fun f t ht => by
    rw [List.getElem?_append_left (List.getElem?_eq_some_iff.mp ht).1]
    exact ht
  have hcases : ∀ (f : FutId) (t : Task Sha), (s.tasks ++ [⟨sha, data, .queued⟩])[f]? = some t →
      s.tasks[f]? = some t ∨ (f = s.tasks.length ∧ t = ⟨sha, data, .queued⟩) := by
    intro f t ht
    by_cases hlt : f < s.tasks.length
    · rw [List.getElem?_append_left hlt] at ht
      exact .inl ht
    · rw [List.getElem?_append_right (Nat.le_of_not_lt hlt)] at ht
      have hlt' : f - s.tasks.length < 1 := (List.getElem?_eq_some_iff.mp ht).1
      obtain rfl : f = s.tasks.length :=
        Nat.le_antisymm (Nat.le_of_sub_eq_zero (Nat.lt_one_iff.mp hlt')) (Nat.le_of_not_lt hlt)
      exact .inr ⟨rfl, by simpa [eq_comm] using ht⟩
  have hnewtask : (s.tasks ++ [⟨sha, data, .queued⟩])[s.tasks.length]? =
      some ⟨sha, data, .queued⟩ := by simp
  have hfresh : s.tasks.length ∉ (g.futs + o.futs + (g.doomed + o.doomed)).map Prod.snd := by
    intro hm
    obtain ⟨p, hp, he⟩ := Multiset.mem_map.mp hm
    obtain ⟨t, ht, -⟩ := hi.tasks.sha p hp
    have := (List.getElem?_eq_some_iff.mp ht).1
    omega
  refine ⟨fun h => ?_, ⟨?_, ?_, ?_, ?_, ?_, ?_, ?_⟩, ?_, hi.owns⟩
  · have hc := hi.counts h
    have hr : ∀ p ∈ g.futs + o.futs + (g.doomed + o.doomed),
        taskRef (s.tasks ++ [⟨sha, data, .queued⟩]) h p.2 = taskRef s.tasks h p.2 := by
      intro p hp
      obtain ⟨t, ht, -⟩ := hi.tasks.sha p hp
      simp only [taskRef, ht, hold p.2 t ht]
    have hnew : taskRef (s.tasks ++ [⟨sha, data, .queued⟩]) h s.tasks.length = 0 := by
      simp [taskRef, Phase.registered]
    rw [Res.add_futs, Res.add_doomed, Multiset.cons_add, Multiset.cons_add, futRefs_cons,
      futRefs_congr hr, hnew, Nat.zero_add]
    exact hc
  · intro f t ht
    obtain ht | ⟨-, rfl⟩ := hcases f t ht
    · exact hi.tasks.data_sha f t ht
    · exact hsha
  · rw [Res.add_futs, Res.add_doomed, Multiset.cons_add, Multiset.cons_add, Multiset.map_cons,
      Multiset.nodup_cons]
    exact ⟨hfresh, hi.tasks.nodup⟩
  · intro f t ht hs
    rw [Res.add_futs, Res.add_doomed, Multiset.cons_add, Multiset.cons_add, Multiset.map_cons,
      Multiset.mem_cons]
    obtain ht | ⟨rfl, -⟩ := hcases f t ht
    · exact .inr (hi.tasks.owned f t ht hs)
    · exact .inl rfl
  · intro p hp
    rw [Res.add_futs, Res.add_doomed, Multiset.cons_add, Multiset.cons_add,
      Multiset.mem_cons] at hp
    obtain rfl | hp := hp
    · exact ⟨_, hnewtask, rfl⟩
    · obtain ⟨t, ht, h⟩ := hi.tasks.sha p hp
      exact ⟨t, hold _ t ht, h⟩
  · intro p hp
    obtain ⟨t, ht, h⟩ := hi.tasks.finished p hp
    exact ⟨t, hold _ t ht, h⟩
  · intro p hp t ht
    rw [Res.add_futs, Multiset.cons_add, Multiset.mem_cons] at hp
    obtain rfl | hp := hp
    · rw [hnewtask] at ht
      cases ht
      simp
    · obtain ⟨t₀, ht₀, -⟩ := hi.tasks.sha p (Multiset.mem_add.mpr (.inl hp))
      rw [hold _ t₀ ht₀] at ht
      cases ht
      exact hi.tasks.alive p hp t ht₀
  · intro p hp t ht e he
    rw [Res.add_futs, Multiset.cons_add, Multiset.mem_cons] at hp
    obtain rfl | hp := hp
    · rw [hnewtask] at ht
      cases ht
      cases he
    · obtain ⟨t₀, ht₀, -⟩ := hi.tasks.sha p (Multiset.mem_add.mpr (.inl hp))
      rw [hold _ t₀ ht₀] at ht
      cases ht
      exact hi.tasks.failed p hp t ht₀ e he
  · refine hi.blobs.retask (fun hd f d hu => ?_) (fun hd hw => .inl ?_) (fun hd d _ hw => ?_)
    · obtain ⟨t, ht, hp, hd'⟩ := hu
      obtain ht | ⟨-, rfl⟩ := hcases f t ht
      · exact ⟨t, ht, hp, hd'⟩
      · cases hp
    · obtain ⟨f, t, ht, hp⟩ := hw
      obtain ht | ⟨-, rfl⟩ := hcases f t ht
      · exact ⟨f, t, ht, hp⟩
      · cases hp
    · refine hw.imp ?_ ?_
      · rintro ⟨f, d', t, ht, hp⟩
        exact ⟨f, d', t, hold f t ht, hp⟩
      · rintro ⟨f, t, ht, hp⟩
        exact ⟨f, t, hold f t ht, hp⟩

/-- A future passes to those that were asked to cancel. -/
theorem doom (hi : Inv mayFail canFree s (g + o)) {p : Sha × FutId} {futs : Multiset (Sha × FutId)}
    (hf : g.futs = p ::ₘ futs) :
    Inv mayFail canFree s ({ g with futs := futs, doomed := p ::ₘ g.doomed } + o) := by
  have hsum : futs + o.futs + (p ::ₘ g.doomed + o.doomed) =
      g.futs + o.futs + (g.doomed + o.doomed) := by
    rw [hf, Multiset.cons_add, Multiset.cons_add, Multiset.cons_add, Multiset.add_cons]
  have hsub : ∀ q ∈ futs + o.futs, q ∈ g.futs + o.futs := by
    intro q hq
    rw [hf, Multiset.cons_add]
    exact Multiset.mem_cons_of_mem hq
  have hc := hi.counts
  have hok := hi.tasks
  refine ⟨?_, ⟨hok.data_sha, ?_, ?_, ?_, hok.finished, fun q hq => hok.alive q (hsub q hq),
    fun q hq => hok.failed q (hsub q hq)⟩, hi.blobs, hi.owns⟩
  · rw [Res.add_futs, Res.add_doomed, hsum]
    exact hc
  · rw [Res.add_futs, Res.add_doomed, hsum]
    exact hok.nodup
  · rw [Res.add_futs, Res.add_doomed, hsum]
    exact hok.owned
  · rw [Res.add_futs, Res.add_doomed, hsum]
    exact hok.sha

/-- `Future.cancel` takes a future that has not started out of the pool. -/
theorem cancel (hi : Inv mayFail canFree s (g + o)) {p : Sha × FutId} {futs : Multiset (Sha × FutId)}
    (hf : g.futs = p ::ₘ futs) {t : Task Sha} (ht : s.tasks[p.2]? = some t)
    (hq : t.phase = .queued) :
    Inv mayFail canFree (s.setPhase p.2 t .cancelled)
      ({ g with futs := futs, doomed := p ::ₘ g.doomed } + o) := by
  refine (hi.doom hf).setPhase ht (by simp [hq, Phase.settled]) (by simp [hq, Phase.registered])
    (fun _ hm => ?_) (by simp) (by simp [hq]) (by simp)
  have := hi.tasks.nodup
  rw [Res.add_futs, Res.add_doomed, hf, Multiset.cons_add, Multiset.cons_add, Multiset.map_cons,
    Multiset.nodup_cons] at this
  rw [Res.add_futs] at hm
  refine this.1 ?_
  rw [Multiset.map_add]
  exact Multiset.mem_add.mpr (.inl hm)

end Inv

end Store

end Tgfs
