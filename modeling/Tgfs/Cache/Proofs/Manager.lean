import Tgfs.Cache.Proofs.Robust
import Tgfs.Cache.Writeback

/-!
# What the manager keeps, whatever fails

`Sound held w` says that the books are exact, that every registered state refers to stored
chunks only, and that a state with `held` users is registered with at least as many
references. `Apart` is the frame: what concerns another inode is as it was.
-/

namespace Tgfs

open Run (Wp)

namespace Writeback

variable {Sha : Type}

/-! ## The table of states -/

theorem mem_of_get {w : Writeback Sha} {ino : Ino} {sid : StateId} (h : w.get ino = some sid) :
    (ino, sid) ∈ w.states := by
  unfold get at h
  obtain ⟨p, hp, rfl⟩ := Option.map_eq_some_iff.mp h
  have hino := List.find?_some hp
  simp only [decide_eq_true_eq] at hino
  exact hino ▸ List.mem_of_find?_eq_some hp

theorem not_mem_of_get {w : Writeback Sha} {ino : Ino} (h : w.get ino = none) (sid : StateId) :
    (ino, sid) ∉ w.states := by
  intro hm
  unfold get at h
  have := List.find?_eq_none.mp (Option.map_eq_none_iff.mp h) (ino, sid) hm
  simp at this

/-- An inode with a registered state has that one. -/
theorem get_of_mem {w : Writeback Sha} (hkeys : (w.states.map Prod.fst).Nodup) {ino : Ino}
    {sid : StateId} (hm : (ino, sid) ∈ w.states) : w.get ino = some sid := by
  cases hget : w.get ino with
  | none => exact absurd hm (not_mem_of_get hget sid)
  | some sid' =>
    have hp := List.inj_on_of_nodup_map hkeys (mem_of_get hget) hm rfl
    exact congrArg (some ∘ Prod.snd) hp

theorem mem_pop {w : Writeback Sha} {ino ino' : Ino} {sid : StateId} :
    (ino', sid) ∈ (w.pop ino).states ↔ (ino', sid) ∈ w.states ∧ ino' ≠ ino := by
  simp [pop]

theorem heap_modState (w : Writeback Sha) (sid : StateId) (f : FileState Sha → FileState Sha) :
    (w.modState sid f).heap sid = f (w.heap sid) := Function.update_self _ _ _

theorem heap_modState_ne (w : Writeback Sha) {sid sid' : StateId} (h : sid' ≠ sid)
    (f : FileState Sha → FileState Sha) : (w.modState sid f).heap sid' = w.heap sid' :=
  Function.update_of_ne h _ _

variable [DecidableEq Sha] [Sha256 Sha]

/-- A registered state. -/
structure Entry (held : StateId → Nat) (w : Writeback Sha) (ino : Ino) (sid : StateId) : Prop where
  lt : sid < w.nextState
  ino : (w.heap sid).ino = ino
  backed : Backed w.store.index (w.heap sid)
  count : (held sid : Int) ≤ (w.heap sid).refcount

structure Sound (held : StateId → Nat) (w : Writeback Sha) : Prop where
  books : w.store.Accounted
  keys : (w.states.map Prod.fst).Nodup
  entry : ∀ ino sid, (ino, sid) ∈ w.states → Entry held w ino sid
  held : ∀ sid, 0 < held sid → ∃ ino, (ino, sid) ∈ w.states

/-- One more user. -/
def bump (held : StateId → Nat) (sid : StateId) : StateId → Nat :=
  Function.update held sid (held sid + 1)

variable {held held' : StateId → Nat} {w w' w'' : Writeback Sha} {ino B : Ino} {sid : StateId}

omit [Sha256 Sha] [DecidableEq Sha] in
/-- An entry whose state and rows are as they were. -/
theorem Entry.congr (h : Entry held w ino sid) (hlt : sid < w'.nextState)
    (hheap : w'.heap sid = w.heap sid)
    (hrows : w'.store.index.getChunks ino = w.store.index.getChunks ino) :
    Entry held w' ino sid := by
  refine ⟨hlt, hheap ▸ h.ino, fun b hb => ?_, hheap ▸ h.count⟩
  rw [hheap] at hb ⊢
  rw [h.ino, hrows, ← h.ino]
  exact h.backed b hb

theorem Sound.mono (h : Sound held w) (hle : ∀ sid, held' sid ≤ held sid) : Sound held' w where
  books := h.books
  keys := h.keys
  entry ino sid hm := by
    have he := h.entry ino sid hm
    exact { he with count := (Int.ofNat_le.mpr (hle sid)).trans he.count }
  held sid hp := h.held sid (Nat.lt_of_lt_of_le hp (hle sid))

omit [DecidableEq Sha] [Sha256 Sha] in
theorem le_bump (held : StateId → Nat) (sid sid' : StateId) : held sid' ≤ bump held sid sid' := by
  unfold bump
  rw [Function.update_apply]
  split
  case isTrue h => exact h ▸ Nat.le_succ _
  case isFalse => exact le_rfl

/-- An inode has one registered state at most. -/
theorem Sound.unique (h : Sound held w) {sid' : StateId} (hm : (ino, sid) ∈ w.states)
    (hm' : (ino, sid') ∈ w.states) : sid = sid' := by
  have := List.inj_on_of_nodup_map h.keys hm hm' rfl
  exact congrArg Prod.snd this

/-- A state is registered for one inode at most. -/
theorem Sound.ino_eq (h : Sound held w) {ino' : Ino} (hm : (ino, sid) ∈ w.states)
    (hm' : (ino', sid) ∈ w.states) : ino = ino' :=
  (h.entry _ _ hm).ino.symm.trans (h.entry _ _ hm').ino

/-! ## The frame -/

/-- What concerns inode `B` is as it was: its rows, its size, and the states that are in use. -/
structure Apart (B : Ino) (w w' : Writeback Sha) : Prop where
  rows : w'.store.index.getChunks B = w.store.index.getChunks B
  size : (w'.store.index.inodes B).map (·.size) = (w.store.index.inodes B).map (·.size)
  next : w.nextState ≤ w'.nextState
  states : ∀ sid, sid < w.nextState → (w.heap sid).ino = B → 0 < (w.heap sid).refcount →
    w'.heap sid = w.heap sid ∧ w'.files (B, (w.heap sid).gen) = w.files (B, (w.heap sid).gen)

omit [DecidableEq Sha] [Sha256 Sha] in
theorem Apart.refl (B : Ino) (w : Writeback Sha) : Apart B w w :=
  ⟨rfl, rfl, le_rfl, fun _ _ _ _ => ⟨rfl, rfl⟩⟩

omit [DecidableEq Sha] [Sha256 Sha] in
theorem Apart.trans (h : Apart B w w') (h' : Apart B w' w'') : Apart B w w'' where
  rows := h'.rows.trans h.rows
  size := h'.size.trans h.size
  next := h.next.trans h'.next
  states sid hlt hino hpos := by
    obtain ⟨h₁, h₂⟩ := h.states sid hlt hino hpos
    obtain ⟨h₃, h₄⟩ := h'.states sid (hlt.trans_le h.next) (h₁ ▸ hino) (h₁ ▸ hpos)
    rw [h₁] at h₃ h₄
    exact ⟨h₃, h₄.trans h₂⟩

omit [DecidableEq Sha] [Sha256 Sha] in
/-- Changing a state that is not one of `B` in use. -/
theorem Apart.modState {f : FileState Sha → FileState Sha}
    (h : (w.heap sid).ino = B → (w.heap sid).refcount ≤ 0) : Apart B w (w.modState sid f) := by
  refine ⟨rfl, rfl, le_rfl, fun sid' _ hino hpos => ⟨Function.update_of_ne ?_ _ _, rfl⟩⟩
  rintro rfl
  have := h hino
  omega

omit [DecidableEq Sha] [Sha256 Sha] in
theorem Apart.pop (ino : Ino) : Apart B w (w.pop ino) := ⟨rfl, rfl, le_rfl, fun _ _ _ _ => ⟨rfl, rfl⟩⟩

omit [DecidableEq Sha] [Sha256 Sha] in
theorem Apart.closeState (h : (w.heap sid).ino = B → (w.heap sid).refcount ≤ 0) :
    Apart B w (w.closeState sid) := by
  obtain ⟨h₁, h₂, h₃, h₄⟩ := Apart.modState (f := fun st => { st with closed := true }) h
  exact ⟨h₁, h₂, h₃, h₄⟩

/-! ## Changes of one state -/

/-- A change of a state that keeps its inode and its chunks. -/
theorem Sound.modState (h : Sound held w) {f : FileState Sha → FileState Sha}
    (hino : (f (w.heap sid)).ino = (w.heap sid).ino) (hbase : (f (w.heap sid)).base ⊆ (w.heap sid).base)
    (hcount : (∃ ino, (ino, sid) ∈ w.states) → (held' sid : Int) ≤ (f (w.heap sid)).refcount)
    (hother : ∀ sid', sid' ≠ sid → held' sid' = held sid')
    (hheld : 0 < held' sid → ∃ ino, (ino, sid) ∈ w.states) : Sound held' (w.modState sid f) := by
  refine ⟨h.books, h.keys, fun ino' sid' hm => ?_, fun sid' hp => ?_⟩
  · have he := h.entry ino' sid' hm
    by_cases hs : sid' = sid
    · subst hs
      have hheap := w.heap_modState sid' f
      refine ⟨he.lt, ?_, fun b hb => ?_, ?_⟩
      · rw [hheap, hino, he.ino]
      · rw [hheap] at hb ⊢
        rw [hino]
        exact he.backed b (hbase hb)
      · rw [hheap]
        exact hcount ⟨_, hm⟩
    · have hheap := w.heap_modState_ne hs f
      refine ⟨he.lt, ?_, ?_, ?_⟩
      · rw [hheap, he.ino]
      · rw [hheap]
        exact he.backed
      · rw [hheap, hother sid' hs]
        exact he.count
  · by_cases hs : sid' = sid
    · exact hs ▸ hheld (hs ▸ hp)
    · exact h.held sid' (hother sid' hs ▸ hp)

/-- A change that leaves the reference count as well. -/
theorem Sound.modState_same (h : Sound held w) {f : FileState Sha → FileState Sha}
    (hf : ∀ st, (f st).ino = st.ino ∧ (f st).base = st.base ∧ (f st).refcount = st.refcount) :
    Sound held (w.modState sid f) := by
  refine h.modState (hf _).1 (by rw [(hf _).2.1]; exact List.Subset.refl _) (fun hm => ?_)
    (fun _ _ => rfl) (h.held sid)
  obtain ⟨ino, hm⟩ := hm
  rw [(hf _).2.2]
  exact (h.entry ino sid hm).count

theorem Sound.closeState (h : Sound held w) : Sound held (w.closeState sid) := by
  have : Sound held (w.modState sid fun st => { st with closed := true }) :=
    h.modState_same fun _ => ⟨rfl, rfl, rfl⟩
  exact ⟨this.books, this.keys, fun ino sid hm => { this.entry ino sid hm with }, this.held⟩

/-- Dropping an inode's state, if nobody uses it. -/
theorem Sound.pop (h : Sound held w) (hfree : ∀ sid, (ino, sid) ∈ w.states → held sid = 0) :
    Sound held (w.pop ino) := by
  refine ⟨h.books, ?_, fun ino' sid' hm => { h.entry ino' sid' (mem_pop.mp hm).1 with },
    fun sid' hp => ?_⟩
  · exact List.Nodup.sublist ((List.filter_sublist).map _) h.keys
  · obtain ⟨ino', hm⟩ := h.held sid' hp
    refine ⟨ino', mem_pop.mpr ⟨hm, ?_⟩⟩
    rintro rfl
    have := hfree sid' hm
    omega

/-! ## Opening -/

omit [DecidableEq Sha] [Sha256 Sha] in
theorem newState_eq (ino : Ino) (w : Writeback Sha) : ∃ gen linked nextGen,
    w.newState ino = (w.nextState, { w with
      files := Function.update w.files (ino, gen) []
      linked := linked
      nextGen := nextGen
      heap := Function.update w.heap w.nextState { ino := ino, gen := gen }
      nextState := w.nextState + 1
      states := w.states ++ [(ino, w.nextState)] }) := by
  unfold newState openTemp
  cases w.linked ino with
  | none => exact ⟨_, _, _, rfl⟩
  | some g => exact ⟨_, _, _, rfl⟩

omit [DecidableEq Sha] [Sha256 Sha] in
/-- The locked section of `open` for an inode with a registered state. -/
theorem openLocked_old (hget : w.get ino = some sid) : w.openLocked ino =
    (sid, w.modState sid fun st => { st with refcount := st.refcount + 1 }) := by
  unfold Writeback.openLocked
  rw [hget]

omit [DecidableEq Sha] [Sha256 Sha] in
/-- The locked section of `open` that builds a state: its temp file is the one that is linked, or
a new one. -/
theorem openLocked_new (hget : w.get ino = none) : ∃ gen nextGen,
    w.openLocked ino = (w.nextState, { w with
      files := Function.update w.files (ino, gen) []
      linked := Function.update w.linked ino (some gen)
      nextGen := nextGen
      heap := Function.update w.heap w.nextState { ino := ino, gen := gen, refcount := 1 }
      nextState := w.nextState + 1
      states := w.states ++ [(ino, w.nextState)] }) ∧
    (w.linked ino = some gen ∧ nextGen = w.nextGen ∨ gen = w.nextGen ∧ nextGen = gen + 1) := by
  unfold Writeback.openLocked Writeback.newState openTemp
  rw [hget]
  cases hlinked : w.linked ino with
  | some g =>
    have hsame : Function.update w.linked ino (some g) = w.linked := by
      rw [← hlinked, Function.update_eq_self]
    refine ⟨g, w.nextGen, ?_, Or.inl ⟨rfl, rfl⟩⟩
    simp only [modState, Function.update_self, Function.update_idem, hsame]
    rfl
  | none =>
    refine ⟨w.nextGen, w.nextGen + 1, ?_, Or.inr ⟨rfl, rfl⟩⟩
    simp only [modState, Function.update_self, Function.update_idem]
    rfl

omit [DecidableEq Sha] [Sha256 Sha] in
theorem openLocked_store (ino : Ino) (w : Writeback Sha) :
    (w.openLocked ino).2.store = w.store := by
  cases hget : w.get ino with
  | some sid =>
    rw [openLocked_old hget]
    rfl
  | none =>
    obtain ⟨gen, nextGen, he, -⟩ := openLocked_new hget
    rw [he]

theorem Sound.newState (h : Sound held w) (hno : ∀ sid, (ino, sid) ∉ w.states) :
    (ino, (w.newState ino).1) ∈ (w.newState ino).2.states ∧ Sound held (w.newState ino).2 ∧
      held (w.newState ino).1 = 0 ∧ ((w.newState ino).2.heap (w.newState ino).1).refcount = 0 ∧
        ∀ B, B ≠ ino → Apart B w (w.newState ino).2 := by
  obtain ⟨gen, linked, nextGen, he⟩ := newState_eq ino w
  rw [he]
  have hlt : ∀ ino' sid', (ino', sid') ∈ w.states → sid' ≠ w.nextState :=
    fun ino' sid' hm => Nat.ne_of_lt (h.entry ino' sid' hm).lt
  have hheld : held w.nextState = 0 := by
    by_contra hne
    obtain ⟨ino', hm⟩ := h.held w.nextState (Nat.pos_of_ne_zero hne)
    exact hlt _ _ hm rfl
  refine ⟨by simp, ⟨h.books, ?_, fun ino' sid' hm => ?_, fun sid' hp => ?_⟩, hheld, by simp,
    fun B hB => ⟨rfl, rfl, Nat.le_succ _, fun sid' hs hino hpos => ⟨?_, ?_⟩⟩⟩
  · simp only [List.map_append, List.map_cons, List.map_nil]
    refine List.nodup_append.mpr ⟨h.keys, by simp, fun a ha b hb => ?_⟩
    obtain rfl := List.mem_singleton.mp hb
    obtain ⟨⟨ino', sid'⟩, hm, rfl⟩ := List.mem_map.mp ha
    rintro rfl
    exact hno _ hm
  · obtain hm | hm := List.mem_append.mp hm
    · have he := h.entry ino' sid' hm
      have hheap := Function.update_of_ne (hlt _ _ hm) { ino := ino, gen := gen } w.heap
      exact he.congr (Nat.lt_succ_of_lt he.lt) hheap rfl
    · obtain ⟨rfl, rfl⟩ := Prod.mk.inj (List.mem_singleton.mp hm)
      refine ⟨Nat.lt_succ_self _, ?_, ?_, ?_⟩
      · simp
      · simp [Backed]
      · simp [hheld]
  · obtain ⟨ino', hm⟩ := h.held sid' hp
    exact ⟨ino', List.mem_append_left _ hm⟩
  · exact Function.update_of_ne (Nat.ne_of_lt hs) _ _
  · exact Function.update_of_ne (fun he => hB (Prod.mk.inj he).1) _ _

theorem Sound.openLocked (h : Sound held w) (ino : Ino) :
    (ino, (w.openLocked ino).1) ∈ (w.openLocked ino).2.states ∧
      Sound (bump held (w.openLocked ino).1) (w.openLocked ino).2 ∧
        ∀ B, B ≠ ino → Apart B w (w.openLocked ino).2 := by
  have hadd : ∀ {w : Writeback Sha} {sid}, Sound held w → (ino, sid) ∈ w.states →
      Sound (bump held sid) (w.modState sid fun st => { st with refcount := st.refcount + 1 }) ∧
        ∀ B, B ≠ ino → Apart B w
          (w.modState sid fun st => { st with refcount := st.refcount + 1 }) := by
    intro w sid h hm
    have he := h.entry ino sid hm
    refine ⟨h.modState rfl (List.Subset.refl _) (fun _ => ?_)
      (fun sid' hs => Function.update_of_ne hs _ _) fun _ => ⟨ino, hm⟩,
      fun B hB => Apart.modState fun hino => absurd (hino.symm.trans he.ino) hB⟩
    have := he.count
    simp only [bump, Function.update_self]
    push_cast
    omega
  unfold Writeback.openLocked
  cases hget : w.get ino with
  | some sid =>
    have hm := mem_of_get hget
    exact ⟨hm, hadd h hm⟩
  | none =>
    obtain ⟨hm, hs, -, -, hap⟩ := h.newState fun sid => not_mem_of_get hget sid
    obtain ⟨h₁, h₂⟩ := hadd hs hm
    exact ⟨hm, h₁, fun B hB => (hap B hB).trans (h₂ B hB)⟩

/-! ## Under a state's lock -/

/-- The state may be worked on: it refers to stored chunks, and no other state of its inode is
registered. -/
structure Usable (w : Writeback Sha) (sid : StateId) : Prop where
  lt : sid < w.nextState
  backed : Backed w.store.index (w.heap sid)
  alone : ∀ sid', ((w.heap sid).ino, sid') ∈ w.states → sid' = sid

theorem Sound.usable (h : Sound held w) (hm : (ino, sid) ∈ w.states) : Usable w sid where
  lt := (h.entry ino sid hm).lt
  backed := (h.entry ino sid hm).backed
  alone _ hm' := h.unique ((h.entry ino sid hm).ino ▸ hm') hm

/-- What code on one state leaves: the table, the other states, and of its own state the
reference count. -/
structure Touched (sid : StateId) (w w' : Writeback Sha) : Prop where
  states : w'.states = w.states
  next : w'.nextState = w.nextState
  frozen : (w'.heap sid).frozen = (w.heap sid).frozen
  other : ∀ sid', sid' ≠ sid → w'.heap sid' = w.heap sid'
  apart : ∀ B, B ≠ (w.heap sid).ino → Apart B w w'

omit [DecidableEq Sha] [Sha256 Sha] in
theorem Touched.ino_eq (h : Touched sid w w') : (w'.heap sid).ino = (w.heap sid).ino :=
  congrArg Prod.fst h.frozen

omit [DecidableEq Sha] [Sha256 Sha] in
theorem Touched.refcount (h : Touched sid w w') :
    (w'.heap sid).refcount = (w.heap sid).refcount :=
  congrArg (fun p : Ino × Nat × Bool × Int × Time => p.2.2.2.1) h.frozen

omit [DecidableEq Sha] [Sha256 Sha] in
theorem Touched.trans (h : Touched sid w w') (h' : Touched sid w' w'') : Touched sid w w'' where
  states := h'.states.trans h.states
  next := h'.next.trans h.next
  frozen := h'.frozen.trans h.frozen
  other sid' hs := (h'.other sid' hs).trans (h.other sid' hs)
  apart B hB := (h.apart B hB).trans (h'.apart B (h.ino_eq ▸ hB))

theorem Sound.onState {ts : Nat → Tick} (hts : ∀ n, (ts n).Quiet True) {α : Type}
    {m : FileRun Sha α} (hm : Robust m) (h : Sound held w) (hu : Usable w sid) :
    Wp ts (onState sid m) (fun r w' => Sound held w' ∧ Usable w' sid ∧ Touched sid w w' ∧
      ∀ e, r = .error e → e.Expected) w := by
  refine Run.wp_zoom.mpr ((hm ts hts (w.view sid) ⟨h.books, hu.backed⟩).mono ?_)
  rintro r c ⟨⟨hbooks, hback⟩, hst, herr⟩
  have hself : (w.put sid c).heap sid = c.st := Function.update_self _ _ _
  have hother : ∀ sid', sid' ≠ sid → (w.put sid c).heap sid' = w.heap sid' :=
    fun sid' hs => Function.update_of_ne hs _ _
  have hino : c.st.ino = (w.heap sid).ino := hst.ino
  have hfr : Store.Framed (w.heap sid).ino w.store c.store := hst.framed
  refine ⟨⟨hbooks, h.keys, fun ino' sid' hm' => ?_, h.held⟩, ⟨hu.lt, ?_, ?_⟩,
    ⟨rfl, rfl, by rw [hself]; exact hst.frozen, hother, fun B hB => ?_⟩, herr⟩
  · have he := h.entry ino' sid' hm'
    by_cases hs : sid' = sid
    · subst hs
      refine ⟨he.lt, ?_, ?_, ?_⟩
      · rw [hself, hino, he.ino]
      · rw [hself]
        exact hback
      · rw [hself, show c.st.refcount = (w.heap sid').refcount from
          congrArg (fun p : Ino × Nat × Bool × Int × Time => p.2.2.2.1) hst.frozen]
        exact he.count
    · refine he.congr he.lt (hother sid' hs) (hfr.rows ino' ?_)
      rintro rfl
      exact hs (hu.alone sid' hm')
  · rw [hself]
    exact hback
  · intro sid' hm'
    rw [hself, hino] at hm'
    exact hu.alone sid' hm'
  · refine ⟨hfr.rows B hB, by rw [show (w.put sid c).store = c.store from rfl, hfr.inodes B hB],
      le_rfl, fun sid' _ hB' _ => ?_⟩
    refine ⟨hother sid' ?_, Function.update_of_ne ?_ _ _⟩
    · rintro rfl
      exact hB hB'.symm
    · exact fun he => hB (Prod.mk.inj he).1

/-! ## The methods -/

section Methods

variable {ts : Nat → Tick} (hts : ∀ n, (ts n).Quiet True) {cfg : WbConfig}
include hts

/-- What a method that works on inode `ino` leaves, if the users are `held` in the end. -/
structure Done (held : StateId → Nat) (ino : Ino) {α : Type} (w : Writeback Sha)
    (r : Except (PyErr Sha) α) (w' : Writeback Sha) : Prop where
  sound : Sound held w'
  apart : ∀ B, B ≠ ino → Apart B w w'
  expected : ∀ e, r = .error e → e.Expected

theorem Sound.openFile (h : Sound held w) (ino : Ino) (forWrite : Bool) :
    Wp ts (openFile cfg ino forWrite) (fun r w' => Done held ino w r w' ∧
      ∀ sid, r = .ok sid → (ino, sid) ∈ w'.states ∧ Sound (bump held sid) w') w := by
  unfold Writeback.openFile
  rw [Run.wp_modifyGet_bind]
  obtain ⟨hm, hs, hap⟩ := h.openLocked ino
  generalize Writeback.openLocked ino w = o at hm hs hap ⊢
  have hheld : Sound held o.2 := hs.mono (le_bump held o.1)
  cases forWrite with
  | false =>
    refine Run.wp_pure.mpr ⟨⟨hheld, hap, nofun⟩, fun sid he => ?_⟩
    cases he
    exact ⟨hm, hs⟩
  | true =>
    have hino := (hs.entry ino o.1 hm).ino
    refine Wp.bind ((hs.onState hts (robust_materialize cfg) (hs.usable hm)).mono ?_)
    rintro (e | u) w' ⟨hs', -, ht, he⟩
    · refine ⟨⟨hs'.mono (le_bump held o.1), fun B hB => (hap B hB).trans (ht.apart B ?_), ?_⟩, nofun⟩
      · rwa [hino]
      · exact fun e' h' => he e' (congrArg Except.error (Except.error.inj h'))
    · refine Run.wp_pure.mpr ⟨⟨hs'.mono (le_bump held o.1),
        fun B hB => (hap B hB).trans (ht.apart B ?_), nofun⟩, fun sid he => ?_⟩
      · rwa [hino]
      · cases he
        exact ⟨ht.states ▸ hm, hs'⟩

omit hts in
variable (cfg) in
theorem Sound.releaseLocked (h : Sound (bump held sid) w) (hm : (ino, sid) ∈ w.states) (now : Time) :
    Sound held (w.releaseLocked cfg now sid).2 ∧
      (∀ B, B ≠ ino → Apart B w (w.releaseLocked cfg now sid).2) ∧
      ((w.releaseLocked cfg now sid).1 = true → Usable (w.releaseLocked cfg now sid).2 sid) ∧
        ((w.releaseLocked cfg now sid).2.heap sid).ino = ino := by
  have he := h.entry ino sid hm
  have hcount : ((held sid : Int) + 1) ≤ (w.heap sid).refcount := by
    have := he.count
    simp only [bump, Function.update_self] at this
    push_cast at this
    exact this
  have hapart : ∀ (f : FileState Sha → FileState Sha) (B : Ino) (w' : Writeback Sha),
      (w'.heap sid).ino = ino → B ≠ ino → Apart B w' (w'.modState sid f) :=
    fun f B w' hw hB => Apart.modState fun hino => absurd (hino.symm.trans hw) hB
  have h₁ : Sound held (w.modState sid fun st => { st with refcount := st.refcount - 1 }) := by
    refine h.modState rfl (List.Subset.refl _) (fun _ => ?_) (fun sid' hs => ?_) fun _ => ⟨ino, hm⟩
    · dsimp only
      omega
    · exact (Function.update_of_ne hs _ _).symm
  have hself := w.heap_modState sid
  have hino₁ : ((w.modState sid fun st => { st with refcount := st.refcount - 1 }).heap sid).ino =
      ino := by
    rw [hself]
    exact he.ino
  unfold Writeback.releaseLocked
  simp only
  split
  case isTrue =>
    dsimp only
    exact ⟨h₁, fun B hB => hapart _ B w he.ino hB, nofun, hino₁⟩
  case isFalse hle =>
    rw [hself] at hle
    simp only at hle
    split
    case isTrue =>
      dsimp only
      refine ⟨h₁.modState_same fun _ => ⟨rfl, rfl, rfl⟩, fun B hB =>
        (hapart _ B w he.ino hB).trans (hapart _ B _ hino₁ hB), nofun, ?_⟩
      rw [heap_modState]
      exact hino₁
    case isFalse =>
      rw [hino₁]
      refine ⟨h₁.pop fun sid' hm' => ?_, fun B hB => (hapart _ B w he.ino hB).trans (Apart.pop _),
        fun _ => ⟨he.lt, (h₁.entry ino sid hm).backed, fun sid' hm' => ?_⟩, hino₁⟩
      · obtain rfl := h.unique hm hm'
        omega
      · have hm' := mem_pop.mp hm'
        exact absurd hino₁ hm'.2

theorem Sound.release (h : Sound (bump held sid) w) (hm : (ino, sid) ∈ w.states) :
    Wp ts (release cfg sid) (fun r w' => Done held ino w r w' ∧ (w'.heap sid).ino = ino) w := by
  refine Run.Wp.tick_bind fun n => ?_
  rw [Run.wp_modifyGet_bind]
  obtain ⟨hs, hap, hlast, hino⟩ := h.releaseLocked cfg hm (ts n).now
  generalize Writeback.releaseLocked cfg (ts n).now sid w = o at hs hap hlast hino ⊢
  split
  case isFalse => exact Run.wp_pure.mpr ⟨⟨hs, hap, nofun⟩, hino⟩
  case isTrue hl =>
    refine Wp.bind ((hs.onState hts (robust_flushLocked cfg) (hlast hl)).mono ?_)
    rintro (e | u) w' ⟨hs', -, ht, he⟩
    · refine ⟨⟨hs', fun B hB => (hap B hB).trans (ht.apart B (hino ▸ hB)), fun e' h' => ?_⟩,
        ht.ino_eq.trans hino⟩
      exact he e' (congrArg Except.error (Except.error.inj h'))
    · refine Run.wp_modify.mpr ⟨⟨hs'.closeState, fun B hB => ?_, nofun⟩, ?_⟩
      · refine ((hap B hB).trans (ht.apart B (hino ▸ hB))).trans (Apart.closeState fun hB' => ?_)
        rw [ht.ino_eq, hino] at hB'
        exact absurd hB'.symm hB
      · have hself := w'.heap_modState sid fun st => { st with closed := true }
        exact (congrArg FileState.ino hself).trans (ht.ino_eq.trans hino)

/-- `truncate_path`. -/
theorem Sound.truncatePath (h : Sound held w) (ino : Ino) (length : Nat) :
    Wp ts (truncatePath cfg ino length) (Done held ino w) w := by
  refine Wp.bind ((h.openFile hts ino true).mono ?_)
  rintro (e | sid) w₁ ⟨hd, hok⟩
  · exact ⟨hd.sound, hd.apart, fun e' h' => hd.expected e' (congrArg Except.error (Except.error.inj h'))⟩
  obtain ⟨hm, hs⟩ := hok sid rfl
  have hino := (hs.entry ino sid hm).ino
  refine Wp.andFinally (Wp.mono (Wp.bind ((hs.onState hts (robust_truncate cfg length)
    (hs.usable hm)).mono ?_)) (Q := fun r w' => Sound (bump held sid) w' ∧ (ino, sid) ∈ w'.states ∧
      (∀ B, B ≠ ino → Apart B w w') ∧ ∀ e, r = .error e → e.Expected) ?_)
  · rintro (e | u) w₂ ⟨hs₂, hu₂, ht₂, he₂⟩
    · exact ⟨hs₂, ht₂.states ▸ hm, fun B hB => (hd.apart B hB).trans (ht₂.apart B (hino ▸ hB)), he₂⟩
    · refine (hs₂.onState hts (robust_flush cfg) hu₂).mono ?_
      rintro r w₃ ⟨hs₃, -, ht₃, he₃⟩
      have ht := ht₂.trans ht₃
      exact ⟨hs₃, ht.states ▸ hm, fun B hB => (hd.apart B hB).trans (ht.apart B (hino ▸ hB)), he₃⟩
  · rintro r w₂ ⟨hs₂, hm₂, hap, he⟩
    refine (hs₂.release hts hm₂).mono ?_
    rintro (e' | u) w₃ ⟨hdone, -⟩
    · exact ⟨hdone.sound, fun B hB => (hap B hB).trans (hdone.apart B hB), hdone.expected⟩
    · exact ⟨hdone.sound, fun B hB => (hap B hB).trans (hdone.apart B hB), he⟩

omit hts in
/-- `discard`. -/
theorem Sound.discard (h : Sound held w) (hfree : ∀ sid, (ino, sid) ∈ w.states → held sid = 0) :
    Wp ts (discard ino) (fun r w' => r = .ok () ∧ Done held ino w r w' ∧ w'.store = w.store ∧
      ∀ sid, (ino, sid) ∉ w'.states) w := by
  unfold Writeback.discard
  rw [Run.wp_modifyGet_bind]
  have hpop := h.pop hfree
  have hnone : ∀ sid, (ino, sid) ∉ (w.pop ino).states := fun sid hm => (mem_pop.mp hm).2 rfl
  cases hget : w.get ino with
  | none => exact Run.wp_pure.mpr ⟨rfl, ⟨hpop, fun B _ => Apart.pop ino, nofun⟩, rfl, hnone⟩
  | some sid =>
    have hino := (h.entry ino sid (mem_of_get hget)).ino
    rw [Run.wp_modify_bind, Run.wp_modify]
    have h₁ : Sound held ((w.pop ino).modState sid fun st => { st with dirty := false }) :=
      hpop.modState_same fun _ => ⟨rfl, rfl, rfl⟩
    refine ⟨rfl, ⟨h₁.closeState, fun B hB => ?_, nofun⟩, rfl, hnone⟩
    refine ((Apart.pop ino).trans (Apart.modState fun hB' => ?_)).trans (Apart.closeState fun hB' => ?_)
    · exact absurd (hB'.symm.trans hino) hB
    · rw [heap_modState] at hB'
      exact absurd (hB'.symm.trans hino) hB

/-- `free_file` of an inode without a registered state. -/
theorem Sound.freeFile (h : Sound held w) (hno : ∀ sid, (ino, sid) ∉ w.states) :
    Wp ts (callStore (Store.freeFile ino)) (Done held ino w) w := by
  intro n
  change Done held ino w (Store.machine.seqRun Wb.noSrc ts (Store.freeFile ino) n w.store).1
    { w with store := (Store.machine.seqRun Wb.noSrc ts (Store.freeFile ino) n w.store).2.2 }
  obtain ⟨hs, hfr, hpost⟩ := Store.seqRun_freeFile Wb.noSrc ino h.books hts n
  refine ⟨⟨hs, h.keys, fun ino' sid hm => ?_, h.held⟩, fun B hB => ?_, fun e he => ?_⟩
  · have he := h.entry ino' sid hm
    refine he.congr he.lt rfl (hfr.rows ino' ?_)
    rintro rfl
    exact hno sid hm
  · refine ⟨hfr.rows B hB, ?_, le_rfl, fun _ _ _ _ => ⟨rfl, rfl⟩⟩
    dsimp only
    rw [hfr.inodes B hB]
  · rw [hpost.1] at he
    cases he

/-! ## The reaper -/

omit hts in
/-- A flush of a state without modifications does nothing. -/
theorem wp_flush_clean (hd : (w.heap sid).dirty = false)
    {Q : Except (PyErr Sha) Unit → Writeback Sha → Prop} (h : Q (.ok ()) w) :
    Wp ts (onState sid (Wb.flushLocked cfg)) Q w := by
  refine Run.wp_zoom.mpr ?_
  unfold Wb.flushLocked
  rw [Wb.getState, Run.wp_gets_bind, if_neg (by simp [view, hd])]
  refine Run.wp_pure.mpr ?_
  have hput : w.put sid (w.view sid) = w := by
    simp [put, view]
  rwa [hput]

/-- What the reaper leaves of the others when it works on the states `sids`. -/
structure Reaped (held : StateId → Nat) (sids : List StateId) (w w' : Writeback Sha) : Prop where
  sound : Sound held w'
  apart : ∀ B, (∀ sid ∈ sids, (w.heap sid).ino = B → (w.heap sid).dirty = false) → Apart B w w'
  other : ∀ ino sid, (ino, sid) ∈ w.states → sid ∉ sids →
    (ino, sid) ∈ w'.states ∧ w'.heap sid = w.heap sid

theorem Sound.reapState (h : Sound held w) (hm : (ino, sid) ∈ w.states) :
    Wp ts (reapState cfg false sid) (fun r w' => Reaped held [sid] w w' ∧
      ∃ o : Option (PyErr Sha), r = .ok o ∧ ∀ e ∈ o, e.Expected) w := by
  have hu := h.usable hm
  have hino := (h.entry ino sid hm).ino
  have hflush : Wp ts (Writeback.onState sid (Wb.flushLocked cfg)) (fun r w' => Sound held w' ∧
      Usable w' sid ∧ Touched sid w w' ∧ (∀ e, r = .error e → e.Expected) ∧
        ((w.heap sid).dirty = false → r = .ok () ∧ w' = w)) w := by
    cases hd : (w.heap sid).dirty with
    | false =>
      refine wp_flush_clean hd ⟨h, hu, ⟨rfl, rfl, rfl, fun _ _ => rfl, fun B _ => .refl B w⟩, nofun,
        fun _ => ⟨rfl, rfl⟩⟩
    | true =>
      refine (h.onState hts (robust_flushLocked cfg) hu).mono ?_
      rintro r w' ⟨hs, hu', ht, he⟩
      exact ⟨hs, hu', ht, he, nofun⟩
  have hother : ∀ w', Touched sid w w' → ∀ ino' sid', (ino', sid') ∈ w.states → sid' ∉ [sid] →
      (ino', sid') ∈ w'.states ∧ w'.heap sid' = w.heap sid' := by
    intro w' ht ino' sid' hm' hs
    exact ⟨ht.states ▸ hm', ht.other sid' (by simpa using hs)⟩
  unfold Writeback.reapState
  refine Wp.bind (Run.Wp.tryCatch (Wp.bind (hflush.mono ?_)))
  rintro (e | u) w₁ ⟨hs₁, hu₁, ht₁, he₁, hclean⟩
  · refine Run.Wp.tick_bind fun n => ?_
    rw [Run.wp_modify_bind]
    refine Run.wp_pure.mpr (Run.wp_pure.mpr ⟨⟨hs₁.modState_same fun _ => ⟨rfl, rfl, rfl⟩,
      fun B hB => ?_, fun ino' sid' hm' hs => ?_⟩, some e, rfl, ?_⟩)
    · by_cases hBi : B = ino
      · have := (hclean (hB sid (List.mem_singleton_self _) (hino.trans hBi.symm))).1
        cases this
      · refine (ht₁.apart B (hino ▸ hBi)).trans (Apart.modState fun hB' => ?_)
        rw [ht₁.ino_eq, hino] at hB'
        exact absurd hB'.symm hBi
    · obtain ⟨h₁, h₂⟩ := hother w₁ ht₁ ino' sid' hm' hs
      exact ⟨h₁, (w₁.heap_modState_ne (by simpa using hs) _).trans h₂⟩
    · rintro e' ⟨⟩
      exact he₁ e rfl
  · have hap : ∀ B, ((∀ sid' ∈ [sid], (w.heap sid').ino = B → (w.heap sid').dirty = false)) →
        Apart B w w₁ := by
      intro B hB
      by_cases hBi : B = ino
      · rw [(hclean (hB sid (List.mem_singleton_self _) (hino.trans hBi.symm))).2]
        exact .refl B w
      · exact ht₁.apart B (hino ▸ hBi)
    refine Run.wp_pure.mpr ?_
    simp only
    rw [Run.wp_modifyGet_bind]
    unfold reapLocked
    split
    case isFalse =>
      exact Run.wp_pure.mpr ⟨⟨hs₁, hap, hother w₁ ht₁⟩, none, rfl, by simp⟩
    case isTrue hz =>
      rw [if_pos rfl, Run.wp_modify_bind]
      refine Run.wp_pure.mpr ⟨⟨(hs₁.pop fun sid' hm' => ?_).closeState, fun B hB => ?_,
        fun ino' sid' hm' hs => ?_⟩, none, rfl, by simp⟩
      · obtain rfl := hu₁.alone sid' hm'
        have := (hs₁.entry _ _ hm').count
        omega
      · exact ((hap B hB).trans (Apart.pop _)).trans (Apart.closeState fun _ => le_of_eq hz.1)
      · obtain ⟨h₁, h₂⟩ := hother w₁ ht₁ ino' sid' hm' hs
        have hne : sid' ≠ sid := by simpa using hs
        refine ⟨mem_pop.mpr ⟨h₁, ?_⟩, (Function.update_of_ne hne _ _).trans h₂⟩
        rintro rfl
        exact hne (hu₁.alone sid' h₁)

theorem Sound.reapEach {sids : List StateId} (h : Sound held w) (hn : sids.Nodup)
    (hm : ∀ sid ∈ sids, ∃ ino, (ino, sid) ∈ w.states) :
    Wp ts (reapEach cfg false sids) (fun r w' => Reaped held sids w w' ∧
      ∃ l : List (PyErr Sha), r = .ok l ∧ ∀ e ∈ l, e.Expected) w := by
  induction sids generalizing w with
  | nil =>
    exact Run.wp_pure.mpr ⟨⟨h, fun B _ => .refl B w, fun _ _ hm _ => ⟨hm, rfl⟩⟩, [], rfl, by simp⟩
  | cons sid sids ih =>
    obtain ⟨hns, hn'⟩ := List.nodup_cons.mp hn
    obtain ⟨ino, hm₀⟩ := hm sid List.mem_cons_self
    refine Wp.bind_ok ((h.reapState hts hm₀).mono ?_)
    rintro r w₁ ⟨h₁, o, rfl, ho⟩
    have hkeep : ∀ sid' ∈ sids, ∀ ino', (ino', sid') ∈ w.states →
        (ino', sid') ∈ w₁.states ∧ w₁.heap sid' = w.heap sid' := by
      intro sid' hs' ino' hm'
      refine h₁.other ino' sid' hm' fun hmem => ?_
      rw [List.mem_singleton.mp hmem] at hs'
      exact hns hs'
    refine ⟨o, rfl, Wp.bind_ok ((ih h₁.sound hn' fun sid' hs' => ?_).mono ?_)⟩
    · obtain ⟨ino', hm'⟩ := hm sid' (List.mem_cons_of_mem _ hs')
      exact ⟨ino', (hkeep sid' hs' ino' hm').1⟩
    · rintro r w₂ ⟨h₂, l, rfl, hl⟩
      refine ⟨l, rfl, Run.wp_pure.mpr ⟨⟨h₂.sound, fun B hB => ?_, fun ino' sid' hm' hs => ?_⟩,
        _, rfl, fun e he => ?_⟩⟩
      · refine (h₁.apart B fun sid' hs' => ?_).trans (h₂.apart B fun sid' hs' => ?_)
        · exact hB sid' (List.mem_singleton.mp hs' ▸ List.mem_cons_self)
        · obtain ⟨ino', hm'⟩ := hm sid' (List.mem_cons_of_mem _ hs')
          rw [(hkeep sid' hs' ino' hm').2]
          exact hB sid' (List.mem_cons_of_mem _ hs')
      · rw [List.mem_cons] at hs
        push Not at hs
        obtain ⟨h₃, h₄⟩ := h₁.other ino' sid' hm' (by simpa using hs.1)
        obtain ⟨h₅, h₆⟩ := h₂.other ino' sid' h₃ hs.2
        exact ⟨h₅, h₆.trans h₄⟩
      · obtain he | he := List.mem_append.mp he
        · exact ho e (by simpa using he)
        · exact hl e he

variable (cfg) in
omit hts in
/-- The states that the reaper takes up are registered, and each is taken up once. -/
theorem Sound.candidates (h : Sound held w) (force : Bool) (now : Time) :
    (w.candidates cfg force now).Nodup ∧
      ∀ sid ∈ w.candidates cfg force now, ∃ ino, (ino, sid) ∈ w.states := by
  refine ⟨List.Nodup.filter _ ?_, fun sid hs => ?_⟩
  · refine List.Nodup.map_on ?_ h.keys.of_map
    rintro ⟨ino, sid⟩ hm ⟨ino', sid'⟩ hm' (rfl : sid = sid')
    rw [h.ino_eq hm hm']
  · obtain ⟨⟨ino, sid'⟩, hm, rfl⟩ := List.mem_map.mp (List.mem_filter.mp hs).1
    exact ⟨ino, hm⟩

variable (cfg) in
/-- `_reap_once` of the reaper thread raises nothing and logs nothing unexpected. -/
theorem Sound.reapOnce (h : Sound held w) (n : Nat) :
    Reaped held (w.candidates cfg false (ts n).now) w (reapOnce cfg false ts n w).2.2 ∧
      ∃ l : List (PyErr Sha), (reapOnce cfg false ts n w).1 = .ok l ∧ ∀ e ∈ l, e.Expected :=
  have hc := h.candidates cfg false (ts n).now
  h.reapEach hts hc.1 hc.2 (n + 1)

end Methods

end Writeback

end Tgfs
