import Mathlib.Data.List.Sort
import Mathlib.Order.WithBot

/-!
# Reading a sorted list page by page

A reader asks for a list in pages and resumes after the number of items it has been given so
far. The list may change between two pages. As long as that number is the number of items up
to the last one given, the pages together are strictly sorted, and no item that was there all
the time is missing.
-/

namespace Tgfs

namespace Paging

variable {α : Type}

/-- At most `room` items after the first `start`. -/
def page (start room : Nat) (l : List α) : List α := (l.drop start).take room

theorem page_map {β : Type} (start room : Nat) (f : α → β) (l : List α) :
    (page start room l).map f = page start room (l.map f) := by
  unfold page
  rw [List.map_take, List.map_drop]

/-- The pages read from lists `l` with the given `room`, each after the items counted so far. -/
def pages : Nat → List (List α × Nat) → List α
  | _, [] => []
  | start, (l, room) :: rest =>
    page start room l ++ pages (start + (page start room l).length) rest

/-- The reader was told that there is nothing left. -/
def Exhausted : Nat → List (List α × Nat) → Prop
  | _, [] => False
  | start, (l, room) :: rest =>
    (0 < room ∧ page start room l = []) ∨ Exhausted (start + (page start room l).length) rest

/-- The last item given, after the page `l`. -/
def lastGiven (last : WithBot α) (l : List α) : WithBot α := l.getLast?.elim last fun x => x

variable [LinearOrder α]

/-- The items up to `last` are the first `start` ones. -/
def Aligned (start : Nat) (last : WithBot α) (l : List α) : Prop :=
  l.countP (fun x : α => (x : WithBot α) ≤ last) = start

/-- At every page the reader resumes after the last item it was given. -/
def Steady : Nat → WithBot α → List (List α × Nat) → Prop
  | _, _, [] => True
  | start, last, (l, room) :: rest =>
    Aligned start last l ∧
      Steady (start + (page start room l).length) (lastGiven last (page start room l)) rest

instance Exhausted.decidable :
    ∀ (start : Nat) (rounds : List (List α × Nat)), Decidable (Exhausted start rounds)
  | _, [] => .isFalse id
  | start, (l, room) :: rest =>
    have := Exhausted.decidable (start + (page start room l).length) rest
    inferInstanceAs (Decidable (_ ∨ _))

instance Steady.decidable :
    ∀ (start : Nat) (last : WithBot α) (rounds : List (List α × Nat)),
      Decidable (Steady start last rounds)
  | _, _, [] => .isTrue trivial
  | start, last, (l, room) :: rest =>
    have := Steady.decidable (start + (page start room l).length)
      (lastGiven last (page start room l)) rest
    inferInstanceAs (Decidable (l.countP _ = start ∧ _))

section Page

variable {start room : Nat} {last : WithBot α} {l : List α}

/-- Dropping the items counted drops those up to the last one given. -/
theorem drop_aligned (hl : l.Pairwise (· < ·)) (h : Aligned start last l) :
    l.drop start = l.filter fun x : α => ¬ (x : WithBot α) ≤ last := by
  induction l generalizing start with
  | nil => simp
  | cons x l ih =>
    have hx := (List.pairwise_cons.mp hl).1
    unfold Aligned at h
    by_cases hle : (x : WithBot α) ≤ last
    · rw [List.countP_cons_of_pos (by simpa using hle)] at h
      rw [← h, List.drop_succ_cons, List.filter_cons_of_neg (by simpa using hle)]
      exact ih (List.pairwise_cons.mp hl).2 rfl
    · have hnone : ∀ y ∈ x :: l, ¬ (y : WithBot α) ≤ last := by
        intro y hy hyl
        rcases List.mem_cons.mp hy with rfl | hy
        · exact hle hyl
        · exact hle ((WithBot.coe_le_coe.mpr (hx y hy).le).trans hyl)
      rw [List.countP_eq_zero.mpr (by simpa using hnone)] at h
      rw [← h, List.drop_zero, List.filter_eq_self.mpr (by simpa using hnone)]

theorem mem_drop_iff (hl : l.Pairwise (· < ·)) (h : Aligned start last l) {x : α} :
    x ∈ l.drop start ↔ x ∈ l ∧ last < x := by
  rw [drop_aligned hl h]
  simp

omit [LinearOrder α] in
theorem lastGiven_cases (last : WithBot α) (l : List α) :
    (l = [] ∧ lastGiven last l = last) ∨
      ∃ (front : List α) (y : α), l = front ++ [y] ∧ lastGiven last l = y := by
  rcases List.eq_nil_or_concat l with rfl | ⟨front, y, rfl⟩
  · exact .inl ⟨rfl, rfl⟩
  · exact .inr ⟨front, y, by simp, by simp [lastGiven]⟩

/-- A page ends with its greatest item. -/
theorem le_lastGiven (hl : l.Pairwise (· < ·)) {x : α} (hx : x ∈ l) :
    (x : WithBot α) ≤ lastGiven last l := by
  rcases lastGiven_cases last l with ⟨rfl, -⟩ | ⟨front, y, rfl, h⟩
  · cases hx
  · rw [h, WithBot.coe_le_coe]
    rcases List.mem_append.mp hx with hx | hx
    · exact ((List.pairwise_append.mp hl).2.2 x hx y (by simp)).le
    · exact (List.mem_singleton.mp hx).le

theorem page_sorted (hl : l.Pairwise (· < ·)) : (page start room l).Pairwise (· < ·) :=
  (hl.sublist (List.drop_sublist _ _)).sublist (List.take_sublist _ _)

theorem last_le_lastGiven (hl : l.Pairwise (· < ·)) (h : Aligned start last l) :
    last ≤ lastGiven last (page start room l) := by
  rcases lastGiven_cases last (page start room l) with ⟨-, he⟩ | ⟨front, y, hp, he⟩
  · exact he.ge
  · have hy : y ∈ page start room l := by simp [hp]
    rw [he]
    exact ((mem_drop_iff hl h).mp (List.mem_of_mem_take hy)).2.le

/-- What is left after a page lies behind it. -/
theorem lastGiven_lt (hl : l.Pairwise (· < ·)) (h : Aligned start last l) {x : α} (hx : x ∈ l)
    (hlast : last < x) (hno : x ∉ page start room l) : lastGiven last (page start room l) < x := by
  have hdrop := (mem_drop_iff hl h).mpr ⟨hx, hlast⟩
  rw [← List.take_append_drop room (l.drop start)] at hdrop
  rcases List.mem_append.mp hdrop with hin | hrest
  · exact absurd hin hno
  rcases lastGiven_cases last (page start room l) with ⟨-, he⟩ | ⟨front, y, hp, he⟩
  · rwa [he]
  · have hy : y ∈ page start room l := by simp [hp]
    have hsorted : (l.drop start).Pairwise (· < ·) := hl.sublist (List.drop_sublist _ _)
    rw [← List.take_append_drop room (l.drop start)] at hsorted
    rw [he, WithBot.coe_lt_coe]
    exact (List.pairwise_append.mp hsorted).2.2 y hy x hrest

end Page

section Pages

variable {rounds : List (List α × Nat)} {start : Nat} {last : WithBot α}

/-- Nothing is given twice. -/
theorem pages_sorted (hl : ∀ r ∈ rounds, r.1.Pairwise (· < ·)) (h : Steady start last rounds) :
    (pages start rounds).Pairwise (· < ·) ∧ ∀ x ∈ pages start rounds, last < (x : WithBot α) := by
  induction rounds generalizing start last with
  | nil => simp [pages]
  | cons r rest ih =>
    rcases r with ⟨l, room⟩
    have hsorted := hl _ List.mem_cons_self
    obtain ⟨hal, hrest⟩ := h
    obtain ⟨ihs, ihl⟩ := ih (fun r hr => hl r (List.mem_cons_of_mem _ hr)) hrest
    have hpage : ∀ x ∈ page start room l, last < (x : WithBot α) := by
      intro x hx
      exact ((mem_drop_iff hsorted hal).mp (List.mem_of_mem_take hx)).2
    constructor
    · refine List.pairwise_append.mpr ⟨page_sorted hsorted, ihs, fun x hx y hy => ?_⟩
      exact WithBot.coe_lt_coe.mp ((le_lastGiven (page_sorted hsorted) hx).trans_lt (ihl y hy))
    · intro x hx
      rcases List.mem_append.mp hx with hx | hx
      · exact hpage x hx
      · exact (last_le_lastGiven hsorted hal).trans_lt (ihl x hx)

/-- Nothing is missing that was there all the time. -/
theorem mem_pages (hl : ∀ r ∈ rounds, r.1.Pairwise (· < ·)) (h : Steady start last rounds)
    (hend : Exhausted start rounds) {x : α} (hx : ∀ r ∈ rounds, x ∈ r.1) (hlast : last < x) :
    x ∈ pages start rounds := by
  induction rounds generalizing start last with
  | nil => exact hend.elim
  | cons r rest ih =>
    rcases r with ⟨l, room⟩
    have hsorted := hl _ List.mem_cons_self
    have hxl := hx _ List.mem_cons_self
    obtain ⟨hal, hrest⟩ := h
    by_cases hin : x ∈ page start room l
    · exact List.mem_append_left _ hin
    · apply List.mem_append_right
      rcases hend with ⟨hroom, hnil⟩ | hend
      · have hdrop := (mem_drop_iff hsorted hal).mpr ⟨hxl, hlast⟩
        rcases List.take_eq_nil_iff.mp hnil with h0 | hnone
        · exact absurd h0 hroom.ne'
        · rw [hnone] at hdrop
          cases hdrop
      · exact ih (fun r hr => hl r (List.mem_cons_of_mem _ hr)) hrest hend
          (fun r hr => hx r (List.mem_cons_of_mem _ hr)) (lastGiven_lt hsorted hal hxl hlast hin)

/-- An item that was there all the time is given exactly once. -/
theorem count_pages [BEq α] [LawfulBEq α] (hl : ∀ r ∈ rounds, r.1.Pairwise (· < ·)) (h : Steady 0 ⊥ rounds)
    (hend : Exhausted 0 rounds) {x : α} (hx : ∀ r ∈ rounds, x ∈ r.1) :
    (pages 0 rounds).count x = 1 :=
  List.count_eq_one_of_mem ((pages_sorted hl h).1.imp fun hlt => hlt.ne)
    (mem_pages hl h hend hx (WithBot.bot_lt_coe x))

end Pages

end Paging

end Tgfs
