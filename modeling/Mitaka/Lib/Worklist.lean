/-
  Subject: A closure by a stack of items to check.

  The top of the stack is checked; its children that have not been checked go onto the
  stack and to the results. An item may be on the stack twice. `worklist_spec`: if the
  children never leave a finite set, the loop ends with what is reached from the start.
-/
import Mathlib

namespace Mitaka

open List

variable {α : Type*} [DecidableEq α]

/-- The loop, for a number of turns; the head of the stack is its top. -/
def worklist (children : α → List α) : ℕ → List α → List α → List α → Option (List α)
  | _, [], _, results => some results
  | 0, _ :: _, _, _ => none
  | n + 1, x :: stack, checked, results =>
    let checked := x :: checked
    let new := (children x).filter (· ∉ checked)
    worklist children n (new.reverse ++ stack) checked (results ++ new)

variable {children : α → List α}

/-- More turns change nothing. -/
theorem worklist_mono {n m : ℕ} {stack checked results l : List α} (h : worklist children n stack checked results = some l)
    (hnm : n ≤ m) : worklist children m stack checked results = some l := by
  induction n generalizing m stack checked results with
  | zero =>
    cases stack with
    | nil =>
      rw [worklist] at h ⊢
      exact h
    | cons x stack =>
      rw [worklist] at h
      cases h
  | succ n ih =>
    cases stack with
    | nil =>
      rw [worklist] at h ⊢
      exact h
    | cons x stack =>
      obtain ⟨m, rfl⟩ := Nat.exists_eq_add_of_le' hnm
      rw [worklist] at h
      rw [show m + (n + 1) = m + n + 1 from rfl, worklist]
      exact ih h (Nat.le_add_left n m)

/-- The results only grow. -/
theorem worklist_prefix {n : ℕ} {stack checked results l : List α} (h : worklist children n stack checked results = some l) :
    results <+: l := by
  induction n generalizing stack checked results with
  | zero =>
    cases stack with
    | nil =>
      rw [worklist] at h
      rw [Option.some.inj h]
    | cons x stack =>
      rw [worklist] at h
      cases h
  | succ n ih =>
    cases stack with
    | nil =>
      rw [worklist] at h
      rw [Option.some.inj h]
    | cons x stack =>
      rw [worklist] at h
      exact (prefix_append _ _).trans (ih h)

/-- The state of the loop. A checked item that is still on the stack has all its children above it or checked. -/
structure WorklistInv (children : α → List α) (start : List α) (stack checked results : List α) : Prop where
  mem : ∀ x ∈ results, x ∈ checked ∨ x ∈ stack
  sub : ∀ x, x ∈ checked ∨ x ∈ stack → x ∈ results
  init : ∀ x ∈ start, x ∈ results
  reached : ∀ x ∈ results, ∃ s ∈ start, Relation.ReflTransGen (fun a b => b ∈ children a) s x
  closed : ∀ x ∈ checked, ∀ y ∈ children x, y ∈ results
  above : ∀ pre x post, stack = pre ++ x :: post → x ∈ checked → ∀ y ∈ children x, y ∈ checked ∨ y ∈ pre

theorem WorklistInv.next {start stack checked results : List α} {x : α}
    (h : WorklistInv children start (x :: stack) checked results) :
    WorklistInv children start (((children x).filter (· ∉ x :: checked)).reverse ++ stack) (x :: checked)
      (results ++ (children x).filter (· ∉ x :: checked)) := by
  have hx : x ∈ results := h.sub x (Or.inr mem_cons_self)
  refine ⟨fun y hy => ?_, fun y hy => ?_, fun y hy => mem_append_left _ (h.init y hy), fun y hy => ?_,
    fun y hy z hz => ?_, fun pre y post heq hy z hz => ?_⟩
  · rcases mem_append.mp hy with hy | hy
    · rcases h.mem y hy with hy | hy
      · exact Or.inl (mem_cons_of_mem _ hy)
      · rcases mem_cons.mp hy with rfl | hy
        · exact Or.inl mem_cons_self
        · exact Or.inr (mem_append_right _ hy)
    · exact Or.inr (mem_append_left _ (mem_reverse.mpr hy))
  · rcases hy with hy | hy
    · rcases mem_cons.mp hy with rfl | hy
      · exact mem_append_left _ hx
      · exact mem_append_left _ (h.sub y (Or.inl hy))
    · rcases mem_append.mp hy with hy | hy
      · exact mem_append_right _ (mem_reverse.mp hy)
      · exact mem_append_left _ (h.sub y (Or.inr (mem_cons_of_mem _ hy)))
  · rcases mem_append.mp hy with hy | hy
    · exact h.reached y hy
    · obtain ⟨s, hs, hsx⟩ := h.reached x hx
      exact ⟨s, hs, hsx.tail (mem_filter.mp hy).1⟩
  · rcases mem_cons.mp hy with rfl | hy
    · by_cases hz' : z ∈ y :: checked
      · refine mem_append_left _ ?_
        rcases mem_cons.mp hz' with rfl | hz'
        · exact hx
        · exact h.sub z (Or.inl hz')
      · exact mem_append_right _ (mem_filter.mpr ⟨hz, decide_eq_true hz'⟩)
    · exact mem_append_left _ (h.closed y hy z hz)
  · by_cases hz' : z ∈ x :: checked
    · exact Or.inl hz'
    · refine Or.inr ?_
      have hnew : ∀ w ∈ ((children x).filter (· ∉ x :: checked)).reverse, w ∉ x :: checked := fun w hw =>
        of_decide_eq_true (mem_filter.mp (mem_reverse.mp hw)).2
      -- a checked item is not new, so it is in the rest of the stack
      rcases append_eq_append_iff.mp heq with ⟨pre', rfl, hstack⟩ | ⟨pre', hpre, hstack⟩
      · rcases mem_cons.mp hy with rfl | hy
        · exact mem_append_left _ (mem_reverse.mpr (mem_filter.mpr ⟨hz, decide_eq_true hz'⟩))
        · rcases h.above (x :: pre') y post (by rw [hstack]; rfl) hy z hz with hz | hz
          · exact absurd (mem_cons_of_mem _ hz) hz'
          · rcases mem_cons.mp hz with rfl | hz
            · exact absurd mem_cons_self hz'
            · exact mem_append_right _ hz
      · cases pre' with
        | nil =>
          rw [nil_append] at hstack
          rw [append_nil] at hpre
          rcases mem_cons.mp hy with rfl | hy
          · rw [← hpre]
            exact mem_reverse.mpr (mem_filter.mpr ⟨hz, decide_eq_true hz'⟩)
          · rcases h.above [x] y post (by rw [← hstack]; rfl) hy z hz with hz | hz
            · exact absurd (mem_cons_of_mem _ hz) hz'
            · exact absurd (mem_cons.mpr (Or.inl (mem_singleton.mp hz))) hz'
        | cons w pre' =>
          obtain ⟨rfl, -⟩ := List.cons.inj hstack
          exact absurd hy (hnew y (by rw [hpre]; exact mem_append_right _ mem_cons_self))

theorem worklist_of_inv {start : List α} {U : Finset α} (hU : ∀ x ∈ U, ∀ y ∈ children x, y ∈ U) (m : ℕ) :
    ∀ stack checked results : List α, WorklistInv children start stack checked results → (∀ x ∈ stack, x ∈ U) →
      (U.filter (· ∉ checked)).card = m →
      ∃ n l, worklist children n stack checked results = some l ∧
        ∃ checked', WorklistInv children start [] checked' l := by
  induction m using Nat.strongRecOn with
  | ind m ihm =>
    intro stack
    induction stack with
    | nil => exact fun checked results h _ _ => ⟨0, results, by rw [worklist], checked, h⟩
    | cons x stack ihs =>
      intro checked results h hstack hm
      have hnext := h.next
      have hx := hstack x mem_cons_self
      by_cases hc : x ∈ checked
      · -- all its children have been checked
        have hnone : (children x).filter (· ∉ x :: checked) = [] := by
          refine filter_eq_nil_iff.mpr fun y hy => ?_
          rcases h.above [] x stack rfl hc y hy with hy | hy
          · simp [hy]
          · cases hy
        rw [hnone, reverse_nil, nil_append, append_nil] at hnext
        have hsame : U.filter (· ∉ x :: checked) = U.filter (· ∉ checked) :=
          Finset.filter_congr fun y _ => by
            rw [mem_cons, not_or, and_iff_right_iff_imp]
            exact fun hy e => hy (e ▸ hc)
        obtain ⟨n, l, hn, hl⟩ := ihs (x :: checked) results hnext (fun y hy => hstack y (mem_cons_of_mem _ hy))
          (by rw [hsame]; exact hm)
        refine ⟨n + 1, l, ?_, hl⟩
        rw [worklist, hnone, reverse_nil, nil_append, append_nil]
        exact hn
      · have hlt : (U.filter (· ∉ x :: checked)).card < m := by
          rw [← hm]
          refine Finset.card_lt_card (Finset.ssubset_iff_subset_ne.mpr ⟨fun y hy => ?_, fun e => ?_⟩)
          · obtain ⟨hyU, hy⟩ := Finset.mem_filter.mp hy
            exact Finset.mem_filter.mpr ⟨hyU, fun hc => hy (mem_cons_of_mem _ hc)⟩
          · have hmem : x ∈ U.filter (· ∉ checked) := Finset.mem_filter.mpr ⟨hx, hc⟩
            rw [← e] at hmem
            exact (Finset.mem_filter.mp hmem).2 mem_cons_self
        obtain ⟨n, l, hn, hl⟩ := ihm _ hlt _ _ _ hnext (fun y hy => by
          rcases mem_append.mp hy with hy | hy
          · exact hU x hx y (mem_filter.mp (mem_reverse.mp hy)).1
          · exact hstack y (mem_cons_of_mem _ hy)) rfl
        exact ⟨n + 1, l, hn, hl⟩

/-- **The loop ends with the closure.** -/
theorem worklist_spec {start : List α} {U : Finset α} (hU : ∀ x ∈ U, ∀ y ∈ children x, y ∈ U)
    (hstart : ∀ x ∈ start, x ∈ U) :
    ∃ n l, worklist children n start.reverse [] start = some l ∧
      ∀ y, y ∈ l ↔ ∃ s ∈ start, Relation.ReflTransGen (fun a b => b ∈ children a) s y := by
  have hinit : WorklistInv children start start.reverse [] start :=
    ⟨fun x hx => Or.inr (mem_reverse.mpr hx), fun x hx => hx.elim (nomatch ·) mem_reverse.mp,
      fun x hx => hx, fun x hx => ⟨x, hx, .refl⟩, nofun, nofun⟩
  obtain ⟨n, l, hn, checked, h⟩ := worklist_of_inv hU _ _ _ _ hinit (fun x hx => hstart x (mem_reverse.mp hx)) rfl
  refine ⟨n, l, hn, fun y => ⟨h.reached y, ?_⟩⟩
  rintro ⟨s, hs, hsy⟩
  induction hsy with
  | refl => exact h.init s hs
  | tail _ hyz ih => exact h.closed _ ((h.mem _ ih).resolve_right not_mem_nil) _ hyz

end Mitaka
