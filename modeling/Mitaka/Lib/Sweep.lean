/-
  Subject: Going through a list and taking each item whose key is new.

  What was taken before counts. A sweep takes nothing once every key has been seen, so it
  may stop there (`sweep_of_seen`), and a finer key never takes an item twice.
-/
import Mathlib

namespace Mitaka

open List

universe u v

variable {α : Type u} {κ : Type v}

/-- The items taken so far, and those of the list with new keys. -/
def sweep [DecidableEq κ] (key : α → κ) : List α → List α → List α
  | [], taken => taken
  | x :: l, taken => if key x ∈ taken.map key then sweep key l taken else sweep key l (taken ++ [x])

section Sweep

variable {key : α → κ} {l : List α} {taken : List α}

/-- The items behind the first ones are of the list, each with a key that was new. -/
structure Fresh (key : α → κ) (l : List α) (taken added : List α) : Prop where
  mem : ∀ x ∈ added, x ∈ l
  new : ∀ before x after, added = before ++ x :: after → key x ∉ (taken ++ before).map key

theorem Fresh.cons {x : α} {added : List α} (hx : key x ∉ taken.map key) (h : Fresh key l (taken ++ [x]) added) :
    Fresh key (x :: l) taken (x :: added) where
  mem y hy := (mem_cons.mp hy).elim (fun e => e ▸ mem_cons_self) fun hy => mem_cons_of_mem _ (h.mem y hy)
  new before y after heq := by
    cases before with
    | nil =>
      obtain ⟨rfl, -⟩ := List.cons.inj heq
      rwa [append_nil]
    | cons z before =>
      obtain ⟨rfl, hrest⟩ := List.cons.inj heq
      have hnew := h.new before y after hrest
      rwa [append_assoc] at hnew

/-- **Items with new keys are different**, also by a finer key. -/
theorem Fresh.nodup_map {ι : Type*} {id : α → ι} {added : List α}
    (hfine : ∀ x ∈ taken ++ added, ∀ y ∈ taken ++ added, id x = id y → key x = key y)
    (h : Fresh key l taken added) (htaken : (taken.map id).Nodup) : ((taken ++ added).map id).Nodup := by
  induction added using reverseRecOn with
  | nil => rwa [append_nil]
  | append_singleton added x ih =>
    have hbefore : Fresh key l taken added := by
      refine ⟨fun y hy => h.mem y (mem_append_left _ hy), fun before y after heq => ?_⟩
      exact h.new before y (after ++ [x]) (by rw [heq]; simp)
    rw [← append_assoc] at hfine ⊢
    rw [map_append, nodup_append]
    refine ⟨ih (fun y hy z hz => hfine y (mem_append_left _ hy) z (mem_append_left _ hz)) hbefore,
      nodup_singleton _, fun i hi j hj heq => ?_⟩
    obtain rfl := mem_singleton.mp hj
    obtain ⟨y, hy, hid⟩ := List.mem_map.mp hi
    have hkey := hfine y (mem_append_left _ hy) x (mem_append_right _ (mem_singleton_self x))
      (hid.trans heq)
    exact h.new added x [] (by simp) (List.mem_map.mpr ⟨y, hy, hkey⟩)

variable [DecidableEq κ]

theorem sweep_append (key : α → κ) (l l' taken : List α) :
    sweep key (l ++ l') taken = sweep key l' (sweep key l taken) := by
  induction l generalizing taken with
  | nil => rfl
  | cons x l ih =>
    rw [cons_append, sweep, sweep]
    split
    · exact ih _
    · exact ih _

/-- **Nothing new.** -/
theorem sweep_of_seen (h : ∀ x ∈ l, key x ∈ taken.map key) : sweep key l taken = taken := by
  induction l with
  | nil => rfl
  | cons x l ih =>
    rw [sweep, if_pos (h x mem_cons_self)]
    exact ih fun y hy => h y (mem_cons_of_mem _ hy)

/-- **What a sweep does.** -/
theorem sweep_spec (key : α → κ) (l taken : List α) : ∃ added, sweep key l taken = taken ++ added ∧
    Fresh key l taken added ∧ ∀ x ∈ l, key x ∈ (taken ++ added).map key := by
  induction l generalizing taken with
  | nil =>
    exact ⟨[], (append_nil _).symm, ⟨fun _ h => h, fun before x after h => by simp at h⟩,
      fun x h => absurd h not_mem_nil⟩
  | cons x l ih =>
    rw [sweep]
    split
    · next hseen =>
      obtain ⟨added, heq, hfresh, hall⟩ := ih taken
      refine ⟨added, heq, ⟨fun y hy => mem_cons_of_mem _ (hfresh.mem y hy), hfresh.new⟩, fun y hy => ?_⟩
      rcases mem_cons.mp hy with rfl | hy
      · rw [map_append]
        exact mem_append_left _ hseen
      · exact hall y hy
    · next hnew =>
      obtain ⟨added, heq, hfresh, hall⟩ := ih (taken ++ [x])
      refine ⟨x :: added, by rw [heq, append_assoc]; rfl, hfresh.cons hnew, fun y hy => ?_⟩
      rw [append_assoc, singleton_append] at hall
      rcases mem_cons.mp hy with rfl | hy
      · exact List.mem_map_of_mem (mem_append_right _ mem_cons_self)
      · exact hall y hy

theorem mem_of_mem_sweep {x : α} (h : x ∈ sweep key l taken) : x ∈ taken ∨ x ∈ l := by
  obtain ⟨added, heq, hfresh, -⟩ := sweep_spec key l taken
  rw [heq] at h
  exact (mem_append.mp h).imp id (hfresh.mem x)

end Sweep

end Mitaka
