import Tgfs.Cache.Proofs.Manager
import Tgfs.Cache.Proofs.Serves
import Tgfs.Cache.Proofs.Shutdown
import Tgfs.Names.Keeps

/-!
# The manager as a table of byte arrays

Every file has its bytes: the state that is registered for it shows them, or the store holds them.
A call of the manager for one file leaves the others alone (`Beside`), so it is enough to follow
the file that it is for.
-/

namespace Tgfs

open Run (Wp)

/-- Where nothing fails, nothing that may fail does. -/
theorem Tick.Quiet.mono {p q : Prop} {t : Tick} (h : t.Quiet p) (hpq : p → q) : t.Quiet q :=
  ⟨⟨h.delete, fun hd => hpq (h.download hd)⟩,
    fun e he => ⟨(h.before e he).delete, fun hu => hpq ((h.before e he).upload hu)⟩,
    fun f => ⟨(h.finish f).delete, fun hu => hpq ((h.finish f).upload hu)⟩⟩

namespace Writeback

variable {Sha : Type} [DecidableEq Sha] [Sha256 Sha] {cs : Nat} {held : StateId → Nat}
  {w w' w'' : Writeback Sha} {A B ino : Ino} {sid : StateId} {ref : Bytes} {ts : Nat → Tick}
  {cfg : WbConfig}

/-- File `ino` has the bytes `ref`. -/
structure Has (cs : Nat) (w : Writeback Sha) (ino : Ino) (ref : Bytes) : Prop where
  state : ∀ sid, (ino, sid) ∈ w.states → Tracks cs (w.view sid) ref
  stored : ∀ n, w.store.index.inodes ino = some n → (∀ sid, (ino, sid) ∉ w.states) →
    w.store.StoredAs cs ino ref

/-! ## The other files -/

/-- What a call for file `A` leaves of the others. -/
structure Beside (A : Ino) (w w' : Writeback Sha) : Prop where
  states : ∀ B sid, B ≠ A → ((B, sid) ∈ w'.states ↔ (B, sid) ∈ w.states)
  kept : ∀ B sid, B ≠ A → (B, sid) ∈ w.states →
    w'.heap sid = w.heap sid ∧ (w'.view sid).temp = (w.view sid).temp
  spared : ∀ B, B ≠ A → w.store.Spared B w'.store

omit [DecidableEq Sha] [Sha256 Sha] in
theorem Beside.trans (h : Beside A w w') (h' : Beside A w' w'') : Beside A w w'' := by
  refine ⟨fun B sid hB => (h'.states B sid hB).trans (h.states B sid hB), fun B sid hB hm => ?_,
    fun B hB => (h.spared B hB).trans (h'.spared B hB)⟩
  obtain ⟨hheap, htemp⟩ := h.kept B sid hB hm
  obtain ⟨hheap', htemp'⟩ := h'.kept B sid hB ((h.states B sid hB).mpr hm)
  exact ⟨hheap'.trans hheap, htemp'.trans htemp⟩

theorem Has.beside (h : w.Has cs B ref) (hs : Sound held w) (hb : Beside A w w') (hB : B ≠ A)
    (hbooks : w'.store.Accounted) : w'.Has cs B ref := by
  refine ⟨fun sid hm => ?_, fun n hn hno => ?_⟩
  · have hm₀ := (hb.states B sid hB).mp hm
    obtain ⟨hheap, htemp⟩ := hb.kept B sid hB hm₀
    have hino : (w.view sid).st.ino = B := (hs.entry B sid hm₀).ino
    exact (h.state sid hm₀).congr (k := (w.heap sid).refcount) (t := (w.heap sid).idleSince)
      hheap htemp hbooks (hino ▸ hb.spared B hB)
  · obtain ⟨n₀, hn₀, -⟩ := (hb.spared B hB).inode n hn
    have hno₀ : ∀ sid, (B, sid) ∉ w.states := fun sid hm => hno sid ((hb.states B sid hB).mpr hm)
    exact (h.stored n₀ hn₀ hno₀).congr (hb.spared B hB) hn

omit [DecidableEq Sha] [Sha256 Sha] in
theorem Beside.modState (hsid : ∀ B, (B, sid) ∈ w.states → B = A)
    (f : FileState Sha → FileState Sha) : Beside A w (w.modState sid f) := by
  refine ⟨fun _ _ _ => Iff.rfl, fun B sid' hB hm => ?_, fun _ _ => .refl _ _⟩
  have hne : sid' ≠ sid := by
    rintro rfl
    exact hB (hsid B hm)
  have hheap := w.heap_modState_ne hne f
  refine ⟨hheap, ?_⟩
  unfold view
  rw [hheap]
  rfl

omit [DecidableEq Sha] [Sha256 Sha] in
theorem Beside.pop (A : Ino) (w : Writeback Sha) : Beside A w (w.pop A) := by
  refine ⟨fun B sid hB => ?_, fun _ _ _ _ => ⟨rfl, rfl⟩, fun _ _ => .refl _ _⟩
  rw [mem_pop]
  exact and_iff_left hB

omit [DecidableEq Sha] [Sha256 Sha] in
theorem Beside.closeState (hsid : ∀ B, (B, sid) ∈ w.states → B = A) :
    Beside A w (w.closeState sid) := by
  have h := Beside.modState hsid fun st => { st with closed := true }
  exact ⟨h.states, h.kept, h.spared⟩

/-! ## Opening -/

theorem Sound.openLocked_beside (hs : Sound held w) (ino : Ino) :
    Beside ino w (w.openLocked ino).2 := by
  cases hget : w.get ino with
  | some sid =>
    have hm := mem_of_get hget
    rw [openLocked_old hget]
    dsimp only
    exact .modState (fun B hB => hs.ino_eq hB hm) _
  | none =>
    obtain ⟨gen, nextGen, he, -⟩ := openLocked_new hget
    rw [he]
    refine ⟨fun B sid hB => ?_, fun B sid hB hm => ?_, fun _ _ => .refl _ _⟩
    · rw [List.mem_append, List.mem_singleton]
      refine or_iff_left fun hp => hB (congrArg Prod.fst hp)
    · have hentry := hs.entry B sid hm
      have hne := Nat.ne_of_lt hentry.lt
      have hheap : Function.update w.heap w.nextState { ino := ino, gen := gen, refcount := 1 } sid =
          w.heap sid := Function.update_of_ne hne _ _
      refine ⟨hheap, ?_⟩
      unfold view
      dsimp only
      rw [hheap]
      refine Function.update_of_ne (fun hp => hB ?_) _ _
      exact hentry.ino.symm.trans (congrArg Prod.fst hp)

omit [DecidableEq Sha] [Sha256 Sha] in
/-- More or fewer handles lay nothing bare. -/
theorem spares_refcount (c : FileCtx Sha) (k : Int) (op : FileOp) (h : c.Spares cs op) :
    FileCtx.Spares cs { c with st := { c.st with refcount := k } } op := h

/-- The state that `open` hands out tracks the file. -/
theorem Has.openLocked (h : w.Has cs ino ref) (hs : Sound held w) :
    Tracks cs ((w.openLocked ino).2.view (w.openLocked ino).1) ref ∧
      ∀ op, (∀ sid, (ino, sid) ∈ w.states → (w.view sid).Spares cs op) →
        ((w.openLocked ino).2.view (w.openLocked ino).1).Spares cs op := by
  cases hget : w.get ino with
  | some sid =>
    have hm := mem_of_get hget
    rw [openLocked_old hget]
    have hview : (w.modState sid fun st => { st with refcount := st.refcount + 1 }).view sid =
        { w.view sid with st := { w.heap sid with refcount := (w.heap sid).refcount + 1 } } := by
      unfold view
      rw [heap_modState]
      rfl
    dsimp only
    rw [hview]
    refine ⟨?_, fun op hop => spares_refcount _ _ op (hop sid hm)⟩
    exact (h.state sid hm).congr (t := (w.heap sid).idleSince) rfl rfl hs.books (.refl _ _)
  | none =>
    have hno := fun sid => not_mem_of_get hget sid
    obtain ⟨gen, nextGen, he, -⟩ := openLocked_new hget
    rw [he]
    have hview : Writeback.view w.nextState { w with
        files := Function.update w.files (ino, gen) []
        linked := Function.update w.linked ino (some gen)
        nextGen := nextGen
        heap := Function.update w.heap w.nextState { ino := ino, gen := gen, refcount := 1 }
        nextState := w.nextState + 1
        states := w.states ++ [(ino, w.nextState)] } =
        ⟨{ ino := ino, gen := gen, refcount := 1 }, [], w.store⟩ := by
      simp [view]
    dsimp only
    rw [hview]
    refine ⟨?_, fun op _ hm => by cases hm⟩
    cases hn : w.store.index.inodes ino with
    | some n => exact .inl (.inl ⟨hs.books, h.stored n hn hno, rfl, rfl, rfl, rfl, rfl⟩)
    | none => exact .inr ⟨hs.books, rfl, hn, (by simp), fun _ => rfl⟩

/-! ## Under a state's lock -/

/-- Code on one state, seen from that state, from the table and from the other files. -/
theorem Sound.wp_onState (hts : ∀ n, (ts n).Quiet True) {α : Type} {m : FileRun Sha α}
    (hm : Robust m) (hs : Sound held w) (hu : Usable w sid)
    {P : Except (PyErr Sha) α → FileCtx Sha → Prop} (hP : Wp ts m P (w.view sid)) :
    Wp ts (Writeback.onState sid m) (fun r w' => P r (w'.view sid) ∧ Sound held w' ∧ Usable w' sid ∧
      Touched sid w w' ∧ Beside (w.heap sid).ino w w') w := by
  have hview : Wp ts (Writeback.onState sid m) (fun r w' => P r (w'.view sid) ∧
      Beside (w.heap sid).ino w w') w := by
    refine Run.wp_zoom.mpr ((hP.and (hm ts hts (w.view sid) ⟨hs.books, hu.backed⟩)).mono ?_)
    rintro r c ⟨hr, -, hsteady, -⟩
    have hino : c.st.ino = (w.heap sid).ino := hsteady.ino
    have hgen : c.st.gen = (w.heap sid).gen :=
      congrArg (fun p : Ino × Nat × Bool × Int × Time => p.2.1) hsteady.frozen
    have hframed : Store.Framed (w.heap sid).ino w.store c.store := hsteady.framed
    have hput : (w.put sid c).view sid = c := by
      unfold put view
      simp only [Function.update_self]
      rw [hino, hgen, Function.update_self]
    refine ⟨hput.symm ▸ hr, fun _ _ _ => Iff.rfl, fun B sid' hB hm' => ?_, fun B hB => ?_⟩
    · have hB' := (hs.entry B sid' hm').ino
      have hne : sid' ≠ sid := by
        rintro rfl
        exact hB hB'.symm
      have hheap : (w.put sid c).heap sid' = w.heap sid' := Function.update_of_ne hne _ _
      refine ⟨hheap, ?_⟩
      unfold view
      rw [hheap]
      exact Function.update_of_ne (fun hp => hB (hB'.symm.trans (congrArg Prod.fst hp))) _ _
    · refine ⟨hframed.rows B hB, fun n hn => ⟨n, ?_, rfl⟩⟩
      rw [← hframed.inodes B hB]
      exact hn
  refine (hview.and (hs.onState hts hm hu)).mono ?_
  rintro r w' ⟨⟨hr, hb⟩, hs', hu', ht, -⟩
  exact ⟨hr, hs', hu', ht, hb⟩

/-- The bytes of a file whose state is registered. -/
theorem Has.ofState (hs : Sound held w) (hm : (ino, sid) ∈ w.states)
    (h : Tracks cs (w.view sid) ref) : w.Has cs ino ref := by
  refine ⟨fun sid' hm' => ?_, fun n _ hno => absurd hm (hno sid)⟩
  rwa [hs.unique hm' hm]

/-- A file whose inode is gone has any bytes. -/
theorem Has.of_gone (h : w.Has cs ino ref) (hs : Sound held w)
    (hgone : w.store.index.inodes ino = none) (ref' : Bytes) : w.Has cs ino ref' := by
  refine ⟨fun sid hm => ?_, fun n hn => by rw [hgone] at hn; cases hn⟩
  rcases h.state sid hm with hserves | hadrift
  · obtain ⟨n, hn⟩ := hserves.inode
    have hino : (w.view sid).st.ino = ino := (hs.entry ino sid hm).ino
    rw [hino] at hn
    exact absurd hn (by simp [view, hgone])
  · exact .inr hadrift

omit [Sha256 Sha] [DecidableEq Sha] in
theorem gone_iff (h : w'.names = w.names) :
    w'.store.index.inodes ino = none ↔ w.store.index.inodes ino = none := by
  rw [← Meta.names_row_none, ← Meta.names_row_none]
  exact Iff.of_eq (congrArg (fun s => Namespace.row s ino = none) h)

/-! ## The methods -/

section Methods

variable (hcfg : cfg.chunkSize = cs) (hinj : Function.Injective (sha256 : Bytes → Sha))
  (hts : ∀ n, (ts n).Quiet False)
include hcfg hts

theorem Has.openFile (h : w.Has cs ino ref) (hs : Sound held w) (forWrite : Bool) :
    Wp ts (openFile cfg ino forWrite) (fun r w' => Beside ino w w' ∧ w'.Has cs ino ref ∧
      (w.store.index.inodes ino ≠ none → r.isOk = true) ∧
      ∀ sid, r = .ok sid → ∀ op, (∀ sid, (ino, sid) ∈ w.states → (w.view sid).Spares cs op) →
        (w'.view sid).Spares cs op) w := by
  have hts' : ∀ n, (ts n).Quiet True := fun n => (hts n).mono False.elim
  unfold Writeback.openFile
  rw [Run.wp_modifyGet_bind]
  obtain ⟨hm, hs', -⟩ := hs.openLocked ino
  have hb := hs.openLocked_beside ino
  obtain ⟨htracks, hspares⟩ := h.openLocked hs
  have hstore : (w.openLocked ino).2.store = w.store := openLocked_store ino w
  generalize Writeback.openLocked ino w = o at hm hs' hb htracks hspares hstore ⊢
  have hino := (hs'.entry ino o.1 hm).ino
  cases forWrite with
  | false =>
    refine Run.wp_pure.mpr ⟨hb, .ofState hs' hm htracks, fun _ => rfl, fun sid he op hop => ?_⟩
    cases he
    exact hspares op hop
  | true =>
    refine Wp.bind ((hs'.wp_onState hts' (robust_materialize cfg) (hs'.usable hm)
      (htracks.materialize hcfg)).mono ?_)
    rintro (e | u) w' ⟨⟨htracks', hok, hspares'⟩, hs₁, -, ht, hb'⟩
    · have hm' : (ino, o.1) ∈ w'.states := ht.states ▸ hm
      refine ⟨hb.trans (hino ▸ hb'), .ofState hs₁ hm' htracks', fun hn => ?_, by simp⟩
      obtain ⟨n, hn⟩ := Option.ne_none_iff_exists'.mp hn
      have hn' : (o.2.view o.1).store.index.inodes (o.2.view o.1).st.ino = some n := by
        unfold view
        dsimp only
        rw [hstore, hino]
        exact hn
      exact absurd (hok (htracks.serves hn')).1 (by simp [Except.isOk, Except.toBool])
    · have hm' : (ino, o.1) ∈ w'.states := ht.states ▸ hm
      refine Run.wp_pure.mpr ⟨hb.trans (hino ▸ hb'), .ofState hs₁ hm' htracks', fun _ => rfl,
        fun sid he op hop => ?_⟩
      cases he
      exact hspares' op (hspares op hop)

omit [DecidableEq Sha] [Sha256 Sha] hcfg hts in
theorem view_modState {f : FileState Sha → FileState Sha} (w : Writeback Sha)
    (hino : (f (w.heap sid)).ino = (w.heap sid).ino) (hgen : (f (w.heap sid)).gen = (w.heap sid).gen) :
    (w.modState sid f).view sid = { w.view sid with st := f (w.heap sid) } := by
  unfold view
  rw [heap_modState, hino, hgen]
  rfl

omit hcfg hts in
variable (cfg) in
/-- The section of `release` under the manager's lock. -/
theorem Has.releaseLocked (h : w.Has cs ino ref) (hs : Sound held w) (hm : (ino, sid) ∈ w.states)
    (now : Time) :
    Beside ino w (w.releaseLocked cfg now sid).2 ∧
      Tracks cs ((w.releaseLocked cfg now sid).2.view sid) ref ∧
      ((w.releaseLocked cfg now sid).1 = false → (ino, sid) ∈ (w.releaseLocked cfg now sid).2.states) ∧
      ((w.releaseLocked cfg now sid).1 = true →
        ∀ sid', (ino, sid') ∉ (w.releaseLocked cfg now sid).2.states) := by
  have hentry := hs.entry ino sid hm
  have hown : ∀ B, (B, sid) ∈ w.states → B = ino := fun B hB => hs.ino_eq hB hm
  have htracks : ∀ k t, Tracks cs { w.view sid with
      st := { w.heap sid with refcount := k, idleSince := t } } ref :=
    fun k t => (h.state sid hm).congr rfl rfl hs.books (.refl _ _)
  set w₁ := w.modState sid fun st => { st with refcount := st.refcount - 1 } with hw₁
  have hb₁ : Beside ino w w₁ := .modState hown _
  have hown₁ : ∀ B, (B, sid) ∈ w₁.states → B = ino := hown
  have hview₁ : w₁.view sid = { w.view sid with
      st := { w.heap sid with refcount := (w.heap sid).refcount - 1 } } := view_modState w rfl rfl
  have hino₁ : (w₁.heap sid).ino = ino := (congrArg (fun c => c.st.ino) hview₁).trans hentry.ino
  have htracks₁ : Tracks cs (w₁.view sid) ref := by
    rw [hview₁]
    exact htracks _ _
  unfold Writeback.releaseLocked
  dsimp only
  split
  · exact ⟨hb₁, htracks₁, fun _ => hm, by simp⟩
  · split
    · dsimp only
      refine ⟨hb₁.trans (.modState hown₁ _), ?_, fun _ => hm, by simp⟩
      have hheap : w₁.heap sid = { w.heap sid with refcount := (w.heap sid).refcount - 1 } :=
        congrArg FileCtx.st hview₁
      rw [view_modState w₁ rfl rfl, hview₁, hheap]
      exact htracks _ _
    · rw [← hw₁, hino₁]
      refine ⟨hb₁.trans (.pop ino w₁), htracks₁, by simp, fun _ sid' hm' => ?_⟩
      exact (mem_pop.mp hm').2 rfl

include hinj

theorem Has.release (h : w.Has cs ino ref) (hs : Sound (bump held sid) w)
    (hm : (ino, sid) ∈ w.states) :
    Wp ts (release cfg sid) (fun r w' => Beside ino w w' ∧ w'.Has cs ino ref ∧ r.isOk = true) w := by
  have hts' : ∀ n, (ts n).Quiet True := fun n => (hts n).mono False.elim
  unfold Writeback.release
  refine Run.Wp.tick_bind fun n => ?_
  rw [Run.wp_modifyGet_bind]
  obtain ⟨hb, htracks, hstays, hgone⟩ := h.releaseLocked cfg hs hm (ts n).now
  obtain ⟨hs', -, hlast, hino⟩ := hs.releaseLocked cfg hm (ts n).now
  generalize Writeback.releaseLocked cfg (ts n).now sid w = o at hb htracks hstays hgone hs' hlast hino ⊢
  split
  case isFalse hl =>
    exact Run.wp_pure.mpr ⟨hb, .ofState hs' (hstays (Bool.not_eq_true _ ▸ hl)) htracks, rfl⟩
  case isTrue hl =>
    refine Wp.bind ((hs'.wp_onState hts' (robust_flushLocked cfg) (hlast hl)
      (htracks.flushLocked hcfg hinj hts)).mono ?_)
    rintro (e | u) w' ⟨⟨-, hok, hstored⟩, hs₁, -, ht, hb'⟩
    · cases hok
    have hno : ∀ sid', (ino, sid') ∉ w'.states := fun sid' hm' => hgone hl sid' (ht.states ▸ hm')
    have hclose : Beside ino w' (w'.closeState sid) := by
      apply Beside.closeState
      intro B hB
      exact (hs₁.entry B sid hB).ino.symm.trans (ht.ino_eq.trans hino)
    refine Run.wp_modify.mpr ⟨(hb.trans (hino ▸ hb')).trans hclose,
      ⟨fun sid' hm' => absurd hm' (hno sid'), fun n hn _ => ?_⟩, rfl⟩
    have hst : (o.2.view sid).st.ino = ino := hino
    rw [hst] at hstored
    exact hstored n hn

theorem Has.truncatePath (h : w.Has cs ino ref) (hs : Sound held w) {length : Nat}
    (hspares : ∀ sid, (ino, sid) ∈ w.states → (w.view sid).Spares cs (.truncate length)) :
    Wp ts (truncatePath cfg ino length) (fun r w' => Beside ino w w' ∧
      w'.Has cs ino (resize ref length) ∧
        (w.store.index.inodes ino ≠ none → r.isOk = true)) w := by
  have hts' : ∀ n, (ts n).Quiet True := fun n => (hts n).mono False.elim
  unfold Writeback.truncatePath
  refine Wp.bind ((((h.openFile hcfg hts hs true).and (hs.openFile hts' ino true)).and
    (keeps_openFile cfg ino true).wp).mono ?_)
  rintro (e | sid) w₁ ⟨⟨⟨hb, hhas, hok, hspares'⟩, hdone, hreg⟩, hnames⟩
  · have hgone : w.store.index.inodes ino = none := by
      by_contra hne
      cases hok hne
    exact ⟨hb, hhas.of_gone hdone.sound ((gone_iff hnames).mpr hgone) _, fun hne => absurd hgone hne⟩
  obtain ⟨hm, hs₁⟩ := hreg sid rfl
  have hino : (w₁.view sid).st.ino = ino := (hs₁.entry ino sid hm).ino
  have htracks := hhas.state sid hm
  have hserves : w.store.index.inodes ino ≠ none → Serves cs (w₁.view sid) ref := by
    intro hne
    obtain ⟨n, hn⟩ := Option.ne_none_iff_exists'.mp ((gone_iff hnames).not.mpr hne)
    exact htracks.serves (n := n) (by rw [hino]; exact hn)
  have hcut := htracks.truncate hcfg hinj hts (hspares' sid rfl (.truncate length) hspares)
  refine Wp.andFinally (Wp.mono (Wp.bind ((hs₁.wp_onState hts' (robust_truncate cfg length)
    (hs₁.usable hm) hcut).mono ?_)) (Q := fun r w' => Beside ino w w' ∧ Sound (bump held sid) w' ∧
      (ino, sid) ∈ w'.states ∧ w'.Has cs ino (resize ref length) ∧
        (w.store.index.inodes ino ≠ none → r.isOk = true)) ?_)
  · rintro (e | u) w₂ ⟨⟨htracks₂, hok₂⟩, hs₂, hu₂, ht₂, hb₂⟩
    · have hm₂ : (ino, sid) ∈ w₂.states := ht₂.states ▸ hm
      refine ⟨hb.trans (hino ▸ hb₂), hs₂, hm₂, .ofState hs₂ hm₂ htracks₂, fun hne => ?_⟩
      cases (hok₂ (hserves hne)).1
    · have hm₂ : (ino, sid) ∈ w₂.states := ht₂.states ▸ hm
      refine (hs₂.wp_onState hts' (robust_flush cfg) hu₂ (htracks₂.flush hcfg hinj hts)).mono ?_
      rintro r w₃ ⟨⟨htracks₃, hok₃⟩, hs₃, -, ht₃, hb₃⟩
      have hm₃ : (ino, sid) ∈ w₃.states := ht₃.states ▸ hm₂
      have hino₂ : (w₂.heap sid).ino = ino := ht₂.ino_eq.trans hino
      exact ⟨(hb.trans (hino ▸ hb₂)).trans (hino₂ ▸ hb₃), hs₃, hm₃, .ofState hs₃ hm₃ htracks₃,
        fun _ => hok₃⟩
  · rintro r w₂ ⟨hb₂, hs₂, hm₂, hhas₂, hok₂⟩
    refine (hhas₂.release hcfg hinj hts hs₂ hm₂).mono ?_
    rintro (e | u) w₃ ⟨hb₃, hhas₃, hok₃⟩
    · cases hok₃
    · exact ⟨hb₂.trans hb₃, hhas₃, hok₂⟩

omit hcfg hinj hts in
/-- `discard`: nothing is registered for the file any more. -/
theorem Sound.discard_beside (hs : Sound held w) (ino : Ino) :
    Wp ts (Writeback.discard ino) (fun _ w' => Beside ino w w') w := by
  unfold Writeback.discard
  rw [Run.wp_modifyGet_bind]
  cases hget : w.get ino with
  | none => exact Run.wp_pure.mpr (.pop ino w)
  | some sid =>
    have hm := mem_of_get hget
    rw [Run.wp_modify_bind, Run.wp_modify]
    have hown : ∀ B, (B, sid) ∈ (w.pop ino).states → B = ino :=
      fun B hB => hs.ino_eq (mem_pop.mp hB).1 hm
    exact ((Beside.pop ino w).trans (.modState hown _)).trans (.closeState hown)

omit hcfg hinj in
theorem Sound.freeFile_beside (hs : Sound held w) (ino : Ino) :
    Wp ts (callStore (Store.freeFile ino)) (fun _ w' => Beside ino w w' ∧ w'.states = w.states) w := by
  intro n
  have hfr := (Store.seqRun_freeFile Wb.noSrc ino hs.books hts n).2.1
  refine ⟨⟨fun _ _ _ => Iff.rfl, fun _ _ _ _ => ⟨rfl, rfl⟩, fun B hB => ⟨hfr.rows B hB, ?_⟩⟩, rfl⟩
  intro n' hn'
  exact ⟨n', (hfr.inodes B hB) ▸ hn', rfl⟩

/-! ## The reaper -/

theorem Has.reapState (h : w.Has cs ino ref) (hs : Sound held w) (hm : (ino, sid) ∈ w.states)
    (force : Bool) :
    Wp ts (reapState cfg force sid) (fun r w' => r = .ok none ∧ Sound held w' ∧ Beside ino w w' ∧
      w'.Has cs ino ref ∧
        ∀ p ∈ w'.states, p ∈ w.states ∧ (p.2 = sid → (w.heap sid).refcount ≠ 0)) w := by
  have hts' : ∀ n, (ts n).Quiet True := fun n => (hts n).mono False.elim
  have hu := hs.usable hm
  have hino : (w.view sid).st.ino = ino := (hs.entry ino sid hm).ino
  have hino' : (w.heap sid).ino = ino := hino
  unfold Writeback.reapState
  refine Wp.bind (Run.Wp.tryCatch (Wp.bind ((hs.wp_onState hts' (robust_flushLocked cfg) hu
    ((h.state sid hm).flushLocked hcfg hinj hts)).mono ?_)))
  rintro (e | u) w₁ ⟨⟨htracks₁, hok, hstored⟩, hs₁, hu₁, ht₁, hb₁⟩
  · cases hok
  have hm₁ : (ino, sid) ∈ w₁.states := ht₁.states ▸ hm
  have hino₁ : (w₁.heap sid).ino = ino := ht₁.ino_eq.trans hino
  have hb : Beside ino w w₁ := hino' ▸ hb₁
  rw [hino] at hstored
  refine Run.wp_pure.mpr ?_
  simp only
  rw [Run.wp_modifyGet_bind]
  unfold reapLocked
  rw [hino₁, ht₁.refcount, get_of_mem hs₁.keys hm₁]
  split
  case isFalse hz =>
    refine Run.wp_pure.mpr ⟨rfl, hs₁, hb, .ofState hs₁ hm₁ htracks₁, fun p hp => ?_⟩
    exact ⟨ht₁.states ▸ hp, fun _ hzero => hz ⟨hzero, rfl⟩⟩
  case isTrue hz =>
    rw [if_pos rfl, Run.wp_modify_bind]
    have hown : ∀ B, (B, sid) ∈ (w₁.pop ino).states → B = ino :=
      fun B hB => hs₁.ino_eq (mem_pop.mp hB).1 hm₁
    have hpop : Sound held (w₁.pop ino) := by
      refine hs₁.pop fun sid' hm' => ?_
      obtain rfl := hs₁.unique hm' hm₁
      have hcount := (hs.entry ino sid' hm).count
      omega
    refine Run.wp_pure.mpr ⟨rfl, hpop.closeState, (hb.trans (.pop ino w₁)).trans (.closeState hown),
      ⟨fun sid' hm' => absurd rfl (mem_pop.mp hm').2, fun n hn _ => hstored n hn⟩, ?_⟩
    rintro ⟨B, sid'⟩ hp
    obtain ⟨hp₁, hB⟩ := mem_pop.mp hp
    refine ⟨ht₁.states ▸ hp₁, fun hsid => ?_⟩
    dsimp only at hsid
    subst hsid
    exact absurd (hs₁.ino_eq hp₁ hm₁) hB

variable {f : Ino → Bytes} {sids : List StateId}

theorem Has.reapEach (h : ∀ ino, w.Has cs ino (f ino)) (hs : Sound held w) (hn : sids.Nodup)
    (hm : ∀ sid ∈ sids, ∃ ino, (ino, sid) ∈ w.states) (force : Bool) :
    Wp ts (reapEach cfg force sids) (fun r w' => r.isOk = true ∧ Sound held w' ∧
      (∀ ino, w'.Has cs ino (f ino)) ∧
        ∀ p ∈ w'.states, p ∈ w.states ∧ (p.2 ∈ sids → (w.heap p.2).refcount ≠ 0)) w := by
  induction sids generalizing w with
  | nil => exact Run.wp_pure.mpr ⟨rfl, hs, h, fun p hp => ⟨hp, by simp⟩⟩
  | cons sid sids ih =>
    obtain ⟨hns, hn'⟩ := List.nodup_cons.mp hn
    obtain ⟨ino, hm₀⟩ := hm sid List.mem_cons_self
    refine Wp.bind_ok (((h ino).reapState hcfg hinj hts hs hm₀ force).mono ?_)
    rintro r w₁ ⟨rfl, hs₁, hb₁, hhas₁, hleft₁⟩
    have hne : ∀ sid' ∈ sids, ∀ ino', (ino', sid') ∈ w.states → ino' ≠ ino := by
      rintro sid' hs' ino' hm' rfl
      exact hns (hs.unique hm' hm₀ ▸ hs')
    have h₁ : ∀ ino, w₁.Has cs ino (f ino) := by
      intro B
      by_cases hB : B = ino
      · subst hB
        exact hhas₁
      · exact (h B).beside hs hb₁ hB hs₁.books
    have hm₁ : ∀ sid' ∈ sids, ∃ ino, (ino, sid') ∈ w₁.states := by
      intro sid' hs'
      obtain ⟨ino', hm'⟩ := hm sid' (List.mem_cons_of_mem _ hs')
      exact ⟨ino', (hb₁.states ino' sid' (hne sid' hs' ino' hm')).mpr hm'⟩
    refine ⟨none, rfl, Wp.bind ((ih h₁ hs₁ hn' hm₁).mono ?_)⟩
    rintro (e | l) w₂ ⟨hok, hs₂, h₂, hleft₂⟩
    · cases hok
    refine Run.wp_pure.mpr ⟨rfl, hs₂, h₂, fun p hp => ?_⟩
    obtain ⟨hp₁, hcount₂⟩ := hleft₂ p hp
    obtain ⟨hp₀, hcount₁⟩ := hleft₁ p hp₁
    refine ⟨hp₀, fun hmem => ?_⟩
    rcases List.mem_cons.mp hmem with hsid | hmem
    · rw [hsid]
      exact hcount₁ hsid
    · have hheap := (hb₁.kept p.1 p.2 (hne p.2 hmem p.1 hp₀) hp₀).1
      rw [← hheap]
      exact hcount₂ hmem

theorem Has.reapOnce (h : ∀ ino, w.Has cs ino (f ino)) (hs : Sound held w) (force : Bool) :
    Wp ts (reapOnce cfg force) (fun r w' => r.isOk = true ∧ Sound held w' ∧
      (∀ ino, w'.Has cs ino (f ino)) ∧ ∀ p ∈ w'.states, p ∈ w.states ∧
        ((force = true → (w.heap p.2).refcount ≠ 0))) w := by
  unfold Writeback.reapOnce
  refine Run.Wp.tick_bind fun n => ?_
  rw [Run.wp_gets_bind]
  obtain ⟨hnodup, hreg⟩ := hs.candidates cfg force (ts n).now
  refine (Has.reapEach hcfg hinj hts h hs hnodup hreg force).mono ?_
  rintro r w' ⟨hok, hs', h', hleft⟩
  refine ⟨hok, hs', h', fun p hp => ?_⟩
  obtain ⟨hp₀, hcount⟩ := hleft p hp
  refine ⟨hp₀, fun hforce hzero => hcount ?_ hzero⟩
  unfold candidates
  rw [List.mem_filter]
  exact ⟨List.mem_map_of_mem hp₀, by simp [hzero, hforce]⟩

omit hcfg hinj hts in
theorem Has.zeroCounts (h : w.Has cs ino ref) (hs : Sound held w) : w.zeroCounts.Has cs ino ref := by
  refine ⟨fun sid hm => ?_, h.stored⟩
  have hheap := heap_zeroCounts w sid
  have htemp : (w.zeroCounts.view sid).temp = (w.view sid).temp := by
    unfold view
    rw [hheap]
    rfl
  exact (h.state sid hm).congr (t := (w.heap sid).idleSince) hheap htemp hs.books (.refl _ _)

omit hcfg hinj hts in
theorem Sound.zeroCounts (hs : Sound held w) : Sound (fun _ => 0) w.zeroCounts where
  books := hs.books
  keys := hs.keys
  entry ino sid hm := by
    have hentry := hs.entry ino sid hm
    have hheap := heap_zeroCounts w sid
    refine ⟨hentry.lt, ?_, ?_, ?_⟩
    · rw [hheap]
      exact hentry.ino
    · rw [hheap]
      exact hentry.backed
    · have hany : w.states.any (fun p => p.2 = sid) = true :=
        List.any_eq_true.mpr ⟨(ino, sid), hm, by simp⟩
      unfold Writeback.zeroCounts
      dsimp only
      rw [if_pos hany]
      rfl
  held sid hp := absurd hp (Nat.lt_irrefl 0)

omit hcfg hinj hts in
variable (cfg) in
theorem keeps_shutdown : Run.Keeps (names : Writeback Sha → Namespace) (shutdown cfg) := by
  refine Run.Keeps.bind (Run.keeps_modify fun _ => ?_) fun _ =>
    (keeps_reapOnce cfg true).bind fun _ => Run.keeps_pure ()
  rfl

/-- `shutdown` empties the table, and the store holds every file. -/
theorem Has.shutdown (h : ∀ ino, w.Has cs ino (f ino)) (hs : Sound held w) :
    Wp ts (shutdown cfg) (fun r w' => r.isOk = true ∧ w'.states = [] ∧ Sound (fun _ => 0) w' ∧
      ∀ ino, w'.Has cs ino (f ino)) w := by
  unfold Writeback.shutdown
  rw [Run.wp_modify_bind]
  refine Wp.bind ((Has.reapOnce hcfg hinj hts (fun ino => (h ino).zeroCounts hs) hs.zeroCounts
    true).mono ?_)
  rintro (e | l) w' ⟨hok, hs', h', hleft⟩
  · cases hok
  refine Run.wp_pure.mpr ⟨rfl, ?_, hs', h'⟩
  rw [List.eq_nil_iff_forall_not_mem]
  intro p hp
  obtain ⟨hp₀, hcount⟩ := hleft p hp
  apply hcount rfl
  have hany : w.states.any (fun q => q.2 = p.2) = true :=
    List.any_eq_true.mpr ⟨p, hp₀, by simp⟩
  unfold Writeback.zeroCounts
  dsimp only
  rw [if_pos hany]

end Methods

end Writeback

end Tgfs
