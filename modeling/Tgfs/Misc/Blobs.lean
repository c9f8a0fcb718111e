import Mathlib.Data.List.Induction
import Mathlib.Data.List.Nodup

/-!
# What a store of blobs promises

A store takes data and gives out a key for it. `BlobEvent` is what can be seen of it at its
interface; a history lists the events in the order in which they happened. In a `Fair` history a
key is given out once, what is loaded under a key is what was stored under it, and a key whose
data is missing was never given out or is to be removed.
-/

namespace Tgfs

/-- A call that returned or raised, or a `removing` that began. -/
inductive BlobEvent (Key Data : Type) where
  | stored (k : Key) (d : Data)
  | loaded (k : Key) (d : Data)
  | missing (k : Key)
  | removing (k : Key)
  deriving DecidableEq, Repr

namespace BlobEvent

variable {Key Data : Type} {l l' : List (BlobEvent Key Data)} {k : Key} {d d' : Data}

inductive Fair : List (BlobEvent Key Data) → Prop
  | nil : Fair []
  | stored {l : List (BlobEvent Key Data)} {k : Key} {d : Data} (h : Fair l)
      (hnew : ∀ d', .stored k d' ∉ l) : Fair (l ++ [.stored k d])
  | loaded {l : List (BlobEvent Key Data)} {k : Key} {d : Data} (h : Fair l)
      (hd : ∀ d', .stored k d' ∈ l → d' = d) : Fair (l ++ [.loaded k d])
  | missing {l : List (BlobEvent Key Data)} {k : Key} (h : Fair l)
      (hgone : ∀ d, .stored k d ∈ l → .removing k ∈ l) : Fair (l ++ [.missing k])
  | removing {l : List (BlobEvent Key Data)} {k : Key} (h : Fair l) : Fair (l ++ [.removing k])

/-- The keys given out. -/
def keys (l : List (BlobEvent Key Data)) : List Key :=
  l.filterMap fun
    | .stored k _ => some k
    | _ => none

theorem mem_keys : k ∈ keys l ↔ ∃ d, .stored k d ∈ l := by
  unfold keys
  rw [List.mem_filterMap]
  constructor
  · rintro ⟨e, he, hk⟩
    cases e with
    | stored k' d =>
      cases hk
      exact ⟨d, he⟩
    | _ => cases hk
  · rintro ⟨d, hd⟩
    exact ⟨_, hd, rfl⟩

namespace Fair

theorem keys_nodup (h : Fair l) : (keys l).Nodup := by
  induction h with
  | nil => exact List.nodup_nil
  | @stored l k d h hnew ih =>
    have hk : k ∉ keys l := by
      rw [mem_keys]
      rintro ⟨d', hd'⟩
      exact hnew d' hd'
    unfold keys at ih hk ⊢
    rw [List.filterMap_append, List.nodup_append]
    refine ⟨ih, List.nodup_singleton k, ?_⟩
    intro a ha b hb
    rw [List.mem_singleton.mp hb]
    rintro rfl
    exact hk ha
  | _ =>
    unfold keys at *
    rw [List.filterMap_append]
    simpa

theorem of_append (h : Fair (l ++ l')) : Fair l := by
  induction l' using List.reverseRecOn with
  | nil => simpa using h
  | append_singleton l' e ih =>
    rw [← List.append_assoc] at h
    generalize hw : l ++ l' ++ [e] = w at h
    have hinit : ∀ v e', v ++ [e'] = w → Fair v → Fair l := by
      intro v e' hv hfair
      rw [← hv] at hw
      obtain ⟨rfl, -⟩ := List.append_inj' hw rfl
      exact ih hfair
    cases h with
    | nil => simp at hw
    | stored h _ => exact hinit _ _ rfl h
    | loaded h _ => exact hinit _ _ rfl h
    | missing h _ => exact hinit _ _ rfl h
    | removing h => exact hinit _ _ rfl h

theorem loaded_eq (h : Fair (l ++ .loaded k d :: l')) (hs : .stored k d' ∈ l) : d' = d := by
  rw [List.append_cons] at h
  have hw := h.of_append
  generalize hv : l ++ [.loaded k d] = w at hw
  cases hw with
  | nil => simp at hv
  | loaded _ hd =>
    obtain ⟨rfl, he⟩ := List.append_inj' hv rfl
    cases List.cons.inj he |>.1
    exact hd d' hs
  | _ =>
    obtain ⟨rfl, he⟩ := List.append_inj' hv rfl
    cases he

theorem missing_removing (h : Fair (l ++ .missing k :: l')) (hs : .stored k d ∈ l) :
    .removing k ∈ l := by
  rw [List.append_cons] at h
  have hw := h.of_append
  generalize hv : l ++ [.missing k] = w at hw
  cases hw with
  | nil => simp at hv
  | missing _ hgone =>
    obtain ⟨rfl, he⟩ := List.append_inj' hv rfl
    cases List.cons.inj he |>.1
    exact hgone d hs
  | _ =>
    obtain ⟨rfl, he⟩ := List.append_inj' hv rfl
    cases he

end Fair

end BlobEvent

end Tgfs
