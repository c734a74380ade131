/-
  Subject: A dict as a list of its entries in insertion order, one entry a key.

  `set` replaces the value of a key in place, or puts a new entry behind the
  others. `KeysNodup` is what every dict built by `set` satisfies; under it an
  entry is in the list exactly when looking up its key finds its value.
-/
import Mathlib

namespace Mitaka

open List

/-- Keys that are texts. -/
instance lawfulBEqText : LawfulBEq (List Char) := inferInstance

/-- The entries of a dict. -/
abbrev Dict (κ ν : Type*) := List (κ × ν)

namespace Dict

variable {κ ν : Type*} [DecidableEq κ]

/-- `d.get(k)`. -/
def get (d : Dict κ ν) (k : κ) : Option ν := d.lookup k

/-- `d[k] = v`. -/
def set : Dict κ ν → κ → ν → Dict κ ν
  | [], k, v => [(k, v)]
  | e :: d, k, v => if e.1 = k then (k, v) :: d else e :: set d k v

omit [DecidableEq κ] in
/-- No key has two entries. -/
def KeysNodup (d : Dict κ ν) : Prop := (d.map Prod.fst).Nodup

@[simp] theorem get_nil (k : κ) : get ([] : Dict κ ν) k = none := rfl

theorem get_cons (e : κ × ν) (d : Dict κ ν) (k : κ) :
    get (e :: d) k = if e.1 = k then some e.2 else get d k := by
  unfold get
  rw [List.lookup_cons]
  by_cases h : e.1 = k
  · have hb : (k == e.1) = true := beq_iff_eq.mpr h.symm
    rw [if_pos h, hb]
  · have hb : (k == e.1) = false := beq_eq_false_iff_ne.mpr (Ne.symm h)
    rw [if_neg h, hb]

/-- **Looking up after a write.** -/
theorem get_set (d : Dict κ ν) (k : κ) (v : ν) (k' : κ) :
    get (set d k v) k' = if k = k' then some v else get d k' := by
  induction d with
  | nil => rw [set, get_cons]
  | cons e d ih =>
    rw [set]
    by_cases h : e.1 = k
    · rw [if_pos h, get_cons, get_cons, h]
      by_cases hk : k = k' <;> simp [hk]
    · rw [if_neg h, get_cons, get_cons, ih]
      by_cases hk : k = k'
      · subst hk
        simp [h]
      · simp [hk]

/-- `del d[k]`. -/
def erase (d : Dict κ ν) (k : κ) : Dict κ ν := d.filter fun e => e.1 ≠ k

/-- **Looking up after a deletion.** -/
theorem get_erase (d : Dict κ ν) (k k' : κ) : get (erase d k) k' = if k = k' then none else get d k' := by
  induction d with
  | nil => simp [erase]
  | cons e d ih =>
    rw [erase, filter_cons]
    by_cases h : e.1 = k
    · rw [if_neg (by simpa using h), ← erase, ih, get_cons, h]
      by_cases hk : k = k' <;> simp [hk]
    · rw [if_pos (by simpa using h), get_cons, ← erase, ih, get_cons]
      by_cases hk : k = k'
      · subst hk
        simp [h]
      · simp [hk]

variable {d : Dict κ ν} {k : κ} {v : ν}

theorem mem_keys_set {k' : κ} :
    k' ∈ (set d k v).map Prod.fst ↔ k' = k ∨ k' ∈ d.map Prod.fst := by
  induction d with
  | nil => simp [set]
  | cons e d ih =>
    rw [set]
    by_cases h : e.1 = k
    · rw [if_pos h]
      simp [h]
    · rw [if_neg h, map_cons, mem_cons, ih, map_cons, mem_cons, or_left_comm]

theorem mem_set {e : κ × ν} (h : e ∈ set d k v) :
    e = (k, v) ∨ e ∈ d := by
  induction d with
  | nil => exact Or.inl (mem_singleton.mp h)
  | cons e' d ih =>
    rw [set] at h
    split at h
    · rcases mem_cons.mp h with h | h
      · exact Or.inl h
      · exact Or.inr (mem_cons_of_mem _ h)
    · rcases mem_cons.mp h with rfl | h
      · exact Or.inr mem_cons_self
      · exact (ih h).imp id (mem_cons_of_mem _)

theorem mem_of_get (h : get d k = some v) : (k, v) ∈ d := by
  obtain ⟨before, after, rfl, -⟩ := lookup_eq_some_iff.mp h
  exact mem_append_right _ mem_cons_self

theorem KeysNodup.set (h : KeysNodup d) (k : κ) (v : ν) : KeysNodup (set d k v) := by
  induction d with
  | nil => exact nodup_singleton _
  | cons e d ih =>
    obtain ⟨he, hd⟩ := nodup_cons.mp h
    rw [Dict.set]
    by_cases hk : e.1 = k
    · rw [if_pos hk]
      exact nodup_cons.mpr ⟨hk ▸ he, hd⟩
    · rw [if_neg hk]
      refine nodup_cons.mpr ⟨fun hm => ?_, ih hd⟩
      rcases mem_keys_set.mp hm with h' | h'
      · exact hk h'
      · exact he h'

/-- **An entry is what its key looks up.** -/
theorem KeysNodup.mem_iff (h : KeysNodup d) :
    (k, v) ∈ d ↔ get d k = some v := by
  induction d with
  | nil => simp
  | cons e d ih =>
    obtain ⟨he, hd⟩ := nodup_cons.mp h
    rw [mem_cons, get_cons, ih hd]
    by_cases hk : e.1 = k
    · rw [if_pos hk]
      refine ⟨fun hm => ?_, fun hv => Or.inl ?_⟩
      · rcases hm with rfl | hm
        · rfl
        · exact absurd (List.mem_map_of_mem ((ih hd).mpr hm)) (hk ▸ he)
      · exact Prod.ext hk.symm (Option.some.inj hv).symm
    · rw [if_neg hk]
      refine ⟨fun hm => hm.resolve_left ?_, Or.inr⟩
      rintro rfl
      exact hk rfl

theorem mem_keys_iff : k ∈ d.map Prod.fst ↔ (get d k).isSome = true := by
  induction d with
  | nil => simp
  | cons e d ih =>
    rw [map_cons, mem_cons, get_cons, ih]
    by_cases hk : e.1 = k
    · simp [hk]
    · simp [hk, Ne.symm hk]

/-- A dict built from pairs: the value of a key is that of one of its pairs. -/
theorem get_foldl_set (l : List (κ × ν)) (d : Dict κ ν) (k : κ) :
    (∀ n, (l.foldl (fun d p => set d p.1 p.2) d).get k = some n → (k, n) ∈ l ∨ d.get k = some n) ∧
      ((∃ n, (k, n) ∈ l) → ((l.foldl (fun d p => set d p.1 p.2) d).get k).isSome = true) ∧
      ((d.get k).isSome = true → ((l.foldl (fun d p => set d p.1 p.2) d).get k).isSome = true) := by
  induction l generalizing d with
  | nil =>
    refine ⟨fun n h => Or.inr h, ?_, id⟩
    rintro ⟨n, hn⟩
    cases hn
  | cons p l ih =>
    obtain ⟨hmem, hsome, hkeep⟩ := ih (d.set p.1 p.2)
    rw [foldl_cons]
    refine ⟨fun n hn => ?_, ?_, fun h => hkeep ?_⟩
    · rcases hmem n hn with h | h
      · exact Or.inl (mem_cons_of_mem _ h)
      · rw [get_set] at h
        split at h
        case isTrue heq =>
          cases h
          rw [← heq]
          exact Or.inl mem_cons_self
        case isFalse => exact Or.inr h
    · rintro ⟨n, hn⟩
      rcases mem_cons.mp hn with rfl | hn
      · exact hkeep (by rw [get_set, if_pos rfl]; rfl)
      · exact hsome ⟨n, hn⟩
    · rw [get_set]
      split
      · rfl
      · exact h

/-- A filter on the keys that keeps the key. -/
theorem get_filter_of_keep (d : Dict κ ν) (p : κ → Prop) [DecidablePred p] (hk : p k) :
    get (d.filter fun e => p e.1) k = d.get k := by
  induction d with
  | nil => rfl
  | cons e d ih =>
    rw [filter_cons]
    split_ifs with he
    · rw [get_cons, get_cons, ih]
    · have hne : e.1 ≠ k := fun h => he (decide_eq_true (h ▸ hk))
      rw [get_cons, if_neg hne, ih]

/-- A key that is not there comes last. -/
theorem set_of_notMem (h : k ∉ d.map Prod.fst) (v : ν) : set d k v = d ++ [(k, v)] := by
  induction d with
  | nil => rfl
  | cons e d ih =>
    rw [map_cons, mem_cons, not_or] at h
    rw [set, if_neg (Ne.symm h.1), ih h.2, cons_append]

/-- The later of two writes. -/
theorem set_set (d : Dict κ ν) (k : κ) (v v' : ν) : set (set d k v) k v' = set d k v' := by
  induction d with
  | nil => simp [set]
  | cons e d ih =>
    rw [set, set]
    by_cases h : e.1 = k
    · rw [if_pos h, if_pos h, set, if_pos rfl]
    · rw [if_neg h, if_neg h, set, if_neg h, ih]

/-- Writing what is there. -/
theorem set_of_get (h : get d k = some v) : set d k v = d := by
  induction d with
  | nil => cases h
  | cons e d ih =>
    rw [get_cons] at h
    rw [set]
    by_cases he : e.1 = k
    · rw [if_pos he] at h ⊢
      rw [← he, ← Option.some.inj h]
    · rw [if_neg he] at h ⊢
      rw [ih h]

/-- **A dict built from pairs of which no two have one key** is the pairs. -/
theorem foldl_set {l d : Dict κ ν} (h : KeysNodup (d ++ l)) : l.foldl (fun d p => set d p.1 p.2) d = d ++ l := by
  induction l generalizing d with
  | nil => rw [foldl_nil, append_nil]
  | cons e l ih =>
    have hnot : e.1 ∉ d.map Prod.fst := by
      intro he
      rw [KeysNodup, map_append, map_cons] at h
      exact (nodup_append.mp h).2.2 _ he _ mem_cons_self rfl
    rw [foldl_cons, set_of_notMem hnot, ih, append_assoc]
    · rfl
    · rw [append_assoc]
      exact h

/-- **An entry and the rest.** -/
theorem perm_cons_erase (h : KeysNodup d) (hk : get d k = some v) :
    d.Perm ((k, v) :: erase d k) := by
  induction d with
  | nil => cases hk
  | cons e d ih =>
    obtain ⟨hnot, hd⟩ := nodup_cons.mp h
    rw [get_cons] at hk
    by_cases he : e.1 = k
    · rw [if_pos he] at hk
      obtain rfl := Option.some.inj hk
      have hkeep : erase d k = d := filter_eq_self.mpr fun x hx => decide_eq_true fun hxk =>
        hnot (List.mem_map.mpr ⟨x, hx, hxk.trans he.symm⟩)
      have herase : erase (e :: d) k = d := by
        rw [erase, filter_cons_of_neg (by simpa using he)]
        exact hkeep
      rw [herase, ← he]
    · rw [if_neg he] at hk
      have herase : erase (e :: d) k = e :: erase d k := filter_cons_of_pos (decide_eq_true he)
      rw [herase]
      exact ((ih hd hk).cons e).trans (Perm.swap _ _ _)

end Dict

end Mitaka
