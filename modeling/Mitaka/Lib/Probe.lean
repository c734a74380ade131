/-
  Subject: Linear probing in a circular list, and the first distinct items of a list.

  `probe` goes from an index to the next item that is not skipped, from the last index to
  the first. Seen from the index the list is `l.rotate i`: the search ends at the first
  item of it that is not skipped (`probe_of_rotate`).

  `firstDistinct l n` are the first `n` items of the list without repetitions. They are
  found one by one (`firstDistinct_find`), and there are as many as there are distinct
  items (`length_firstDistinct`).
-/
import Mathlib

namespace Mitaka

open List

variable {α : Type*}

/-! ## 1. Probing -/

/-- The index behind `i`, in a circular list of length `n`. -/
def nextIndex (n i : ℕ) : ℕ := if n ≤ i + 1 then 0 else i + 1

/-- From index `i` to the next item that is not skipped, in a circular list of length `n`. -/
def probe (get : ℕ → Option α) (n : ℕ) (skip : α → Bool) : ℕ → ℕ → Option (ℕ × α)
  | 0, _ => none
  | fuel + 1, i =>
    match get i with
    | none => none
    | some x => if skip x then probe get n skip fuel (nextIndex n i) else some (i, x)

theorem nextIndex_lt {n i : ℕ} (h : i < n) : nextIndex n i < n := by
  unfold nextIndex
  split <;> omega

theorem nextIndex_eq_mod {n i : ℕ} (h : i < n) : nextIndex n i = (i + 1) % n := by
  unfold nextIndex
  split
  · have heq : i + 1 = n := by omega
    rw [heq, Nat.mod_self]
  · exact (Nat.mod_eq_of_lt (by omega)).symm

variable {l : List α}

theorem rotate_nextIndex {i : ℕ} (h : i < l.length) :
    l.rotate (nextIndex l.length i) = (l.rotate i).rotate 1 := by
  rw [nextIndex_eq_mod h, rotate_mod, rotate_rotate]

variable {x : α}

theorem getElem?_of_rotate {i : ℕ} (h : i < l.length) {t : List α} (ht : l.rotate i = x :: t) :
    l[i]? = some x := by
  have hhead : (l.rotate i)[0]? = some x := by rw [ht]; rfl
  rw [getElem?_rotate (Nat.zero_lt_of_lt h), Nat.zero_add, Nat.mod_eq_of_lt h] at hhead
  exact hhead

/-- **The search ends at the first item that is not skipped.** -/
theorem probe_of_rotate {skip : α → Bool} {b : List α} (hx : skip x = false) {a : List α} {i : ℕ}
    (hi : i < l.length) (hl : l.rotate i = a ++ x :: b) (ha : ∀ y ∈ a, skip y = true) {fuel : ℕ}
    (hfuel : a.length < fuel) :
    ∃ j < l.length, probe (fun i => l[i]?) l.length skip fuel i = some (j, x) ∧ l.rotate j = x :: b ++ a := by
  induction a generalizing i fuel b with
  | nil =>
    obtain ⟨fuel, rfl⟩ : ∃ f, fuel = f + 1 := ⟨fuel - 1, by simp only [length_nil] at hfuel; omega⟩
    refine ⟨i, hi, ?_, hl.trans (append_nil _).symm⟩
    rw [probe, getElem?_of_rotate hi hl]
    simp [hx]
  | cons y a ih =>
    obtain ⟨fuel, rfl⟩ : ∃ f, fuel = f + 1 := ⟨fuel - 1, by simp only [length_cons] at hfuel; omega⟩
    have hnext : l.rotate (nextIndex l.length i) = a ++ x :: (b ++ [y]) := by
      rw [rotate_nextIndex hi, hl, cons_append, rotate_cons_succ, rotate_zero]
      simp
    obtain ⟨j, hj, hprobe, hrot⟩ := ih (nextIndex_lt hi) hnext (fun z hz => ha z (mem_cons_of_mem _ hz))
      (by simpa using hfuel)
    refine ⟨j, hj, ?_, by rw [hrot]; simp⟩
    rw [probe, getElem?_of_rotate hi hl]
    simpa [ha y mem_cons_self] using hprobe

/-- The search has come from `start` to `q`: everything on the way is skipped. -/
def Probed (l : List α) (skip : α → Bool) (start q : ℕ) : Prop :=
  q < l.length ∧ ∃ t s, l.rotate start = t ++ s ∧ l.rotate q = s ++ t ∧ ∀ y ∈ t, skip y = true

theorem Probed.refl {start : ℕ} (h : start < l.length) (skip : α → Bool) : Probed l skip start start :=
  ⟨h, [], l.rotate start, rfl, (append_nil _).symm, fun _ hy => nomatch hy⟩

/-- **The next search** finds the first item behind `start` that is not skipped, wherever it begins. -/
theorem Probed.next {skip : α → Bool} {start q : ℕ} (h : Probed l skip start q)
    (hx : (l.rotate start).find? (fun y => !skip y) = some x) {fuel : ℕ} (hfuel : l.length ≤ fuel) :
    ∃ q', probe (fun i => l[i]?) l.length skip fuel q = some (q', x) ∧
      ∀ skip' : α → Bool, (∀ y, skip y = true → skip' y = true) → Probed l skip' start q' := by
  obtain ⟨hq, t, s, hstart, hrot, ht⟩ := h
  have hnone : t.find? (fun y => !skip y) = none := find?_eq_none.mpr fun y hy => by simp [ht y hy]
  rw [hstart, find?_append, hnone, Option.none_or] at hx
  obtain ⟨hnot, a, b, rfl, ha⟩ := find?_eq_some_iff_append.mp hx
  have hskip : skip x = false := by simpa using hnot
  replace ha : ∀ y ∈ a, skip y = true := fun y hy => by simpa using ha y hy
  have hlen : a.length < l.length := by
    have h := congrArg List.length hrot
    simp only [length_rotate, length_append, length_cons] at h
    omega
  rw [append_assoc, cons_append] at hrot
  obtain ⟨q', hq', hprobe, hrot'⟩ := probe_of_rotate hskip hq hrot ha (hlen.trans_le hfuel)
  refine ⟨q', hprobe, fun skip' hmore => ⟨hq', t ++ a, x :: b, ?_, ?_, fun y hy => hmore y ?_⟩⟩
  · rw [hstart, append_assoc]
  · rw [hrot', cons_append, cons_append, append_assoc]
  · exact (mem_append.mp hy).elim (ht y) (ha y)

/-! ## 2. The first distinct items -/

variable [DecidableEq α]

/-- The first `n` items, without repetitions. -/
def firstDistinct (l : List α) : ℕ → List α
  | 0 => []
  | n + 1 => firstDistinct l n ++ (l.find? (· ∉ firstDistinct l n)).toList

/-- The next item, and that there is one. -/
theorem firstDistinct_find {n : ℕ} (h : l.find? (· ∉ firstDistinct l n) = some x) :
    firstDistinct l (n + 1) = firstDistinct l n ++ [x] := by
  rw [firstDistinct, h, Option.toList_some]

theorem mem_of_mem_firstDistinct {n : ℕ} (h : x ∈ firstDistinct l n) : x ∈ l := by
  induction n with
  | zero => exact nomatch h
  | succ n ih =>
    rcases mem_append.mp h with h | h
    · exact ih h
    · exact mem_of_find?_eq_some (Option.mem_toList.mp h)

theorem nodup_firstDistinct (l : List α) (n : ℕ) : (firstDistinct l n).Nodup := by
  induction n with
  | zero => exact nodup_nil
  | succ n ih =>
    rw [firstDistinct]
    cases hf : l.find? (· ∉ firstDistinct l n) with
    | none => simpa using ih
    | some x =>
      have hx : x ∉ firstDistinct l n := by simpa using find?_some hf
      rw [Option.toList_some]
      exact nodup_append.mpr ⟨ih, nodup_singleton x, fun a ha b hb => by
        rintro rfl
        exact hx (mem_singleton.mp hb ▸ ha)⟩

/-- **There are as many as there are distinct items.** -/
theorem length_firstDistinct (l : List α) (n : ℕ) : (firstDistinct l n).length = min n l.toFinset.card := by
  induction n with
  | zero => exact (Nat.zero_min _).symm
  | succ n ih =>
    have hle : (firstDistinct l n).length ≤ l.toFinset.card := ih ▸ Nat.min_le_right _ _
    rw [firstDistinct, length_append]
    cases hf : l.find? (· ∉ firstDistinct l n) with
    | none =>
      -- every item is there already
      have hall : l.toFinset ⊆ (firstDistinct l n).toFinset := fun x hx => by
        have h := find?_eq_none.mp hf x (List.mem_toFinset.mp hx)
        simpa using h
      have hcard := (Finset.card_le_card hall).trans (toFinset_card_le _)
      simp only [Option.toList_none, length_nil]
      omega
    | some x =>
      have hx : x ∉ firstDistinct l n := by simpa using find?_some hf
      have hsub : insert x (firstDistinct l n).toFinset ⊆ l.toFinset := by
        intro y hy
        rcases Finset.mem_insert.mp hy with rfl | hy
        · exact List.mem_toFinset.mpr (mem_of_find?_eq_some hf)
        · exact List.mem_toFinset.mpr (mem_of_mem_firstDistinct (List.mem_toFinset.mp hy))
      have hcard := Finset.card_le_card hsub
      rw [Finset.card_insert_of_notMem (fun h => hx (List.mem_toFinset.mp h)),
        toFinset_card_of_nodup (nodup_firstDistinct l n)] at hcard
      simp only [Option.toList_some, length_singleton]
      omega

theorem firstDistinct_one (l : List α) : firstDistinct l 1 = l.head?.toList := by
  cases l with
  | nil => rfl
  | cons x l => rfl

/-- Some item is missing as long as there are fewer than distinct items. -/
theorem find_firstDistinct {n : ℕ} (h : n < l.toFinset.card) :
    ∃ x, l.find? (· ∉ firstDistinct l n) = some x := by
  have hlen := length_firstDistinct l (n + 1)
  have hlen' := length_firstDistinct l n
  cases hf : l.find? (· ∉ firstDistinct l n) with
  | some x => exact ⟨x, rfl⟩
  | none =>
    rw [firstDistinct, hf, Option.toList_none, append_nil] at hlen
    omega

/-- No more are found than there are distinct items. -/
theorem firstDistinct_min (l : List α) (n : ℕ) : firstDistinct l (min n l.toFinset.card) = firstDistinct l n := by
  induction n with
  | zero => rw [Nat.zero_min]
  | succ n ih =>
    rcases Nat.lt_or_ge n l.toFinset.card with hn | hn
    · rw [Nat.min_eq_left hn]
    · rw [Nat.min_eq_right hn] at ih
      rw [Nat.min_eq_right (hn.trans n.le_succ), ih]
      have hlen := length_firstDistinct l (n + 1)
      have hlen' := length_firstDistinct l n
      rw [firstDistinct] at hlen ⊢
      cases hf : l.find? (· ∉ firstDistinct l n) with
      | none => exact (append_nil _).symm
      | some x =>
        rw [hf, length_append, Option.toList_some, length_singleton] at hlen
        omega

theorem firstDistinct_prefix (l : List α) {m n : ℕ} (h : m ≤ n) : firstDistinct l m <+: firstDistinct l n := by
  induction n, h using Nat.le_induction with
  | base => exact prefix_rfl
  | succ n _ ih => exact ih.trans (prefix_append _ _)

/-- What stays of the first distinct items, when some items go, comes first in what is left. -/
theorem firstDistinct_filter (l : List α) (p : α → Bool) (n : ℕ) :
    ∃ m ≤ n, firstDistinct (l.filter p) m = (firstDistinct l n).filter p := by
  induction n with
  | zero => exact ⟨0, le_rfl, rfl⟩
  | succ n ih =>
    obtain ⟨m, hm, heq⟩ := ih
    rw [firstDistinct, filter_append]
    cases hf : l.find? (· ∉ firstDistinct l n) with
    | none => exact ⟨m, hm.trans n.le_succ, by simp [heq]⟩
    | some x =>
      cases hp : p x with
      | false => exact ⟨m, hm.trans n.le_succ, by simp [heq, hp]⟩
      | true =>
        obtain ⟨hx, a, b, rfl, ha⟩ := find?_eq_some_iff_append.mp hf
        refine ⟨m + 1, Nat.succ_le_succ hm, ?_⟩
        rw [firstDistinct_find (x := x), heq]
        · simp [hp]
        · -- what stands before `x` is found already, or goes
          rw [find?_filter, heq]
          refine find?_eq_some_iff_append.mpr ⟨by simpa [hp] using hx, a, b, rfl, fun y hy => ?_⟩
          have hfound : y ∈ firstDistinct (a ++ x :: b) n := by simpa using ha y hy
          cases hpy : p y <;> simp [hpy, hfound]

end Mitaka
