/-
  Subject: The runs of free numbers in an interval.

  `complement lo hi l` are the maximal runs of numbers from `lo` to `hi` that are not in
  `l`, in order. A number lies in a run exactly when it is in the interval and not in the
  list (`mem_complement`); the runs are not empty, and each ends before the next begins.
-/
import Mathlib

namespace Mitaka

open List

/-- The runs between the numbers of an ascending list. -/
def freeRuns : ℕ → ℕ → List ℕ → List (ℕ × ℕ)
  | lo, hi, [] => if lo ≤ hi then [(lo, hi)] else []
  | lo, hi, a :: rest => (if lo < a then [(lo, a - 1)] else []) ++ freeRuns (a + 1) hi rest

/-- The runs of an interval without the numbers of a list. -/
def complement (lo hi : ℕ) (l : List ℕ) : List (ℕ × ℕ) :=
  freeRuns lo hi ((l.filter fun a => lo ≤ a ∧ a ≤ hi).dedup.insertionSort (· ≤ ·))

section FreeRuns

variable {lo hi : ℕ} {l : List ℕ}

theorem freeRuns_bounds (h : ∀ a ∈ l, lo ≤ a ∧ a ≤ hi) {r : ℕ × ℕ} (hr : r ∈ freeRuns lo hi l) (hl : l.Pairwise (· < ·)) :
    lo ≤ r.1 ∧ r.1 ≤ r.2 ∧ r.2 ≤ hi := by
  induction l generalizing lo with
  | nil =>
    rw [freeRuns] at hr
    split at hr
    case isTrue hle =>
      cases mem_singleton.mp hr
      exact ⟨le_rfl, hle, le_rfl⟩
    case isFalse => cases hr
  | cons a rest ih =>
    obtain ⟨hlt, hrest⟩ := pairwise_cons.mp hl
    have ha := h a mem_cons_self
    rw [freeRuns] at hr
    rcases mem_append.mp hr with hr | hr
    · split at hr
      case isTrue hlo =>
        cases mem_singleton.mp hr
        dsimp only
        omega
      case isFalse => cases hr
    · have := ih (fun b hb => ⟨hlt b hb, (h b (mem_cons_of_mem _ hb)).2⟩) hr hrest
      omega

theorem mem_freeRuns (h : ∀ a ∈ l, lo ≤ a ∧ a ≤ hi) (hl : l.Pairwise (· < ·)) {x : ℕ} :
    (∃ r ∈ freeRuns lo hi l, r.1 ≤ x ∧ x ≤ r.2) ↔ (lo ≤ x ∧ x ≤ hi) ∧ x ∉ l := by
  induction l generalizing lo with
  | nil =>
    rw [freeRuns]
    constructor
    · rintro ⟨r, hr, hx⟩
      split at hr
      case isTrue =>
        cases mem_singleton.mp hr
        exact ⟨hx, not_mem_nil⟩
      case isFalse => cases hr
    · rintro ⟨hx, -⟩
      rw [if_pos (hx.1.trans hx.2)]
      exact ⟨_, mem_singleton_self _, hx⟩
  | cons a rest ih =>
    obtain ⟨hlt, hrest⟩ := pairwise_cons.mp hl
    have ha := h a mem_cons_self
    have ih := @ih (a + 1) (fun b hb => ⟨hlt b hb, (h b (mem_cons_of_mem _ hb)).2⟩) hrest
    rw [freeRuns]
    constructor
    · rintro ⟨r, hr, hx⟩
      rcases mem_append.mp hr with hr | hr
      · split at hr
        case isTrue hlo =>
          cases mem_singleton.mp hr
          dsimp only at hx
          refine ⟨by omega, not_mem_cons_of_ne_of_not_mem (by omega) fun hmem => ?_⟩
          have := hlt x hmem
          omega
        case isFalse => cases hr
      · obtain ⟨hbounds, hnot⟩ := ih.mp ⟨r, hr, hx⟩
        exact ⟨by omega, not_mem_cons_of_ne_of_not_mem (by omega) hnot⟩
    · rintro ⟨hbounds, hnot⟩
      obtain ⟨hne, hnot⟩ := ne_and_not_mem_of_not_mem_cons hnot
      rcases Nat.lt_or_gt_of_ne hne with hxa | hxa
      · have hlo : lo < a := by omega
        rw [if_pos hlo]
        exact ⟨_, mem_append_left _ (mem_singleton_self _), by dsimp only; omega⟩
      · obtain ⟨r, hr, hx⟩ := ih.mpr ⟨⟨hxa, hbounds.2⟩, hnot⟩
        exact ⟨r, mem_append_right _ hr, hx⟩

theorem freeRuns_pairwise (h : ∀ a ∈ l, lo ≤ a ∧ a ≤ hi) (hl : l.Pairwise (· < ·)) :
    (freeRuns lo hi l).Pairwise fun r r' => r.2 < r'.1 := by
  induction l generalizing lo with
  | nil =>
    rw [freeRuns]
    split
    · exact pairwise_singleton _ _
    · exact List.Pairwise.nil
  | cons a rest ih =>
    obtain ⟨hlt, hrest⟩ := pairwise_cons.mp hl
    have ha := h a mem_cons_self
    have hin : ∀ b ∈ rest, a + 1 ≤ b ∧ b ≤ hi := fun b hb => ⟨hlt b hb, (h b (mem_cons_of_mem _ hb)).2⟩
    rw [freeRuns]
    refine pairwise_append.mpr ⟨?_, ih hin hrest, fun r hr r' hr' => ?_⟩
    · split
      · exact pairwise_singleton _ _
      · exact List.Pairwise.nil
    · have hr' := freeRuns_bounds hin hr' hrest
      split at hr
      case isTrue =>
        cases mem_singleton.mp hr
        dsimp only
        omega
      case isFalse => cases hr

end FreeRuns

section Complement

variable {lo hi : ℕ} {l : List ℕ}

theorem sorted_filter (lo hi : ℕ) (l : List ℕ) :
    (((l.filter fun a => lo ≤ a ∧ a ≤ hi).dedup.insertionSort (· ≤ ·)).Pairwise (· < ·)) ∧
      ∀ a, a ∈ (l.filter fun a => lo ≤ a ∧ a ≤ hi).dedup.insertionSort (· ≤ ·) ↔ a ∈ l ∧ lo ≤ a ∧ a ≤ hi := by
  constructor
  · have hnodup : ((l.filter fun a => lo ≤ a ∧ a ≤ hi).dedup.insertionSort (· ≤ ·)).Nodup :=
      (perm_insertionSort _ _).nodup_iff.mpr (nodup_dedup _)
    exact ((pairwise_insertionSort (· ≤ ·) _).and hnodup).imp fun h => lt_of_le_of_ne h.1 h.2
  · intro a
    rw [mem_insertionSort, mem_dedup, mem_filter, decide_eq_true_eq]

/-- **What lies in a run is free.** -/
theorem mem_complement {x : ℕ} :
    (∃ r ∈ complement lo hi l, r.1 ≤ x ∧ x ≤ r.2) ↔ (lo ≤ x ∧ x ≤ hi) ∧ x ∉ l := by
  obtain ⟨hsorted, hmem⟩ := sorted_filter lo hi l
  rw [complement, mem_freeRuns (fun a ha => ((hmem a).mp ha).2) hsorted, hmem]
  exact and_congr_right fun h => ⟨fun hnot hx => hnot ⟨hx, h⟩, fun hnot hx => hnot hx.1⟩

theorem complement_bounds {r : ℕ × ℕ} (hr : r ∈ complement lo hi l) : lo ≤ r.1 ∧ r.1 ≤ r.2 ∧ r.2 ≤ hi := by
  obtain ⟨hsorted, hmem⟩ := sorted_filter lo hi l
  exact freeRuns_bounds (fun a ha => ((hmem a).mp ha).2) hr hsorted

theorem complement_pairwise (lo hi : ℕ) (l : List ℕ) : (complement lo hi l).Pairwise fun r r' => r.2 < r'.1 := by
  obtain ⟨hsorted, hmem⟩ := sorted_filter lo hi l
  exact freeRuns_pairwise (fun a ha => ((hmem a).mp ha).2) hsorted

/-- The interval without one of its numbers. -/
theorem complement_singleton {a : ℕ} (hlo : lo ≤ a) (hhi : a ≤ hi) : complement lo hi [a] =
    (if lo < a then [(lo, a - 1)] else []) ++ if a < hi then [(a + 1, hi)] else [] := by
  have hfilter : [a].filter (fun a => decide (lo ≤ a ∧ a ≤ hi)) = [a] := filter_eq_self.mpr fun b hb => by
    rw [mem_singleton.mp hb]
    exact decide_eq_true ⟨hlo, hhi⟩
  have hsort : ([a].dedup.insertionSort (· ≤ ·)) = [a] := by simp
  rw [complement, hfilter, hsort, freeRuns, freeRuns]
  rfl

/-- The interval without a number that is not in it. -/
theorem complement_singleton_of_lt {a : ℕ} (h : ¬ (lo ≤ a ∧ a ≤ hi)) (hle : lo ≤ hi) : complement lo hi [a] = [(lo, hi)] := by
  have hfilter : [a].filter (fun a => decide (lo ≤ a ∧ a ≤ hi)) = [] := filter_eq_nil_iff.mpr fun b hb hin => by
    rw [mem_singleton.mp hb] at hin
    exact h (of_decide_eq_true hin)
  rw [complement, hfilter]
  exact if_pos hle

end Complement

end Mitaka
