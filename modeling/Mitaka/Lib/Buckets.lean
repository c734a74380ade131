/-
  Subject: Items put into queues by their key, and taken out by a list of keys.

  Items whose keys come back in their own order come back themselves, however many of
  them share a key (`takeAll_group`).
-/
import Mitaka.Lib.Dict

namespace Mitaka

universe u v

variable {α : Type u} {κ : Type v} [DecidableEq κ]

/-- `d.setdefault(key(x), []).append(x)` for each item. -/
def group (key : α → κ) (xs : List α) : Dict κ (List α) :=
  xs.foldl (fun d x => d.set (key x) ((d.get (key x)).getD [] ++ [x])) []

/-- `d[k].pop(0)` for each key; nothing where there is no item left. -/
def takeAll : Dict κ (List α) → List κ → Option (List α)
  | _, [] => some []
  | d, k :: ks =>
    match d.get k with
    | some (x :: rest) => (takeAll (d.set k rest) ks).map (x :: ·)
    | _ => none

theorem get_foldl_group (key : α → κ) (xs : List α) (d : Dict κ (List α)) (k : κ) :
    ((xs.foldl (fun d x => d.set (key x) ((d.get (key x)).getD [] ++ [x])) d).get k).getD [] =
      (d.get k).getD [] ++ xs.filter (key · = k) := by
  induction xs generalizing d with
  | nil => rw [List.foldl_nil, List.filter_nil, List.append_nil]
  | cons x xs ih =>
    rw [List.foldl_cons, ih, Dict.get_set]
    by_cases h : key x = k
    · rw [if_pos h, List.filter_cons, if_pos (decide_eq_true h), h, Option.getD_some, List.append_assoc,
        List.singleton_append]
    · rw [if_neg h, List.filter_cons, if_neg (by simpa using h)]

/-- **The queue of a key** has its items in order. -/
theorem get_group (key : α → κ) (xs : List α) (k : κ) : ((group key xs).get k).getD [] = xs.filter (key · = k) := by
  rw [group, get_foldl_group]
  rfl

/-- **What comes back** by the keys of the items, taken in their order. -/
theorem takeAll_eq {key : α → κ} {p : κ → Bool} {d : Dict κ (List α)} (xs : List α)
    (h : ∀ k, p k = true → (d.get k).getD [] = xs.filter (key · = k)) :
    takeAll d ((xs.filter fun x => p (key x)).map key) = some (xs.filter fun x => p (key x)) := by
  induction xs generalizing d with
  | nil => rfl
  | cons x xs ih =>
    by_cases hp : p (key x) = true
    · rw [List.filter_cons, if_pos hp, List.map_cons, takeAll]
      have hqueue := h (key x) hp
      rw [List.filter_cons, if_pos (decide_eq_true rfl)] at hqueue
      cases hget : d.get (key x) with
      | none => rw [hget] at hqueue; cases hqueue
      | some queue =>
        rw [hget, Option.getD_some] at hqueue
        subst hqueue
        dsimp only
        rw [ih fun k hk => ?_, Option.map_some]
        rw [Dict.get_set]
        by_cases hk' : key x = k
        · rw [if_pos hk', Option.getD_some, hk']
        · rw [if_neg hk', h k hk, List.filter_cons, if_neg (by simpa using hk')]
    · rw [List.filter_cons, if_neg hp]
      refine ih fun k hk => ?_
      have hne : key x ≠ k := fun heq => hp (heq ▸ hk)
      rw [h k hk, List.filter_cons, if_neg (by simpa using hne)]

theorem takeAll_group (key : α → κ) (p : κ → Bool) (xs : List α) :
    takeAll (group key xs) ((xs.filter fun x => p (key x)).map key) = some (xs.filter fun x => p (key x)) :=
  takeAll_eq xs fun k _ => get_group key xs k

end Mitaka
