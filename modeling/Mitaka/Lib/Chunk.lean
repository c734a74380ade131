/-
  Subject: A list cut into pieces of one length.

  Every piece but the last has the full length, and the last is not empty: `Records`.
  Such a division is determined by the whole (`chunks_flatten`), and offsets that are
  multiples of the length are offsets of pieces (`Records.drop_flatten`,
  `Records.take_flatten`).
-/
import Mathlib

namespace Mitaka

open List

variable {α β : Type*}

/-- Pieces of length `n`, at most `fuel` of them. -/
def chunksAux (n : Nat) : Nat → List α → List (List α)
  | 0, _ => []
  | _ + 1, [] => []
  | fuel + 1, x :: xs => (x :: xs).take n :: chunksAux n fuel ((x :: xs).drop n)

/-- The pieces of length `n`, the last one what is left. -/
def chunks (n : Nat) (l : List α) : List (List α) := chunksAux n l.length l

/-- Pieces of length `n`, of which only the last may be shorter. -/
inductive Records (n : Nat) : List (List α) → Prop
  | nil : Records n []
  | last {l : List α} : l ≠ [] → l.length ≤ n → Records n [l]
  | cons {l : List α} {ls : List (List α)} : l.length = n → Records n ls → Records n (l :: ls)

namespace Records

variable {n : Nat} {ls : List (List α)}

theorem tail {l : List α} (h : Records n (l :: ls)) : Records n ls := by
  cases h with
  | last _ _ => exact nil
  | cons _ h => exact h

theorem ne_nil {l : List α} (hn : 0 < n) (h : Records n ls) (hl : l ∈ ls) : l ≠ [] := by
  induction h with
  | nil => cases hl
  | last hne _ =>
    obtain rfl := mem_singleton.mp hl
    exact hne
  | cons hlen _ ih =>
    rcases mem_cons.mp hl with rfl | hl
    · exact ne_nil_of_length_pos (hlen ▸ hn)
    · exact ih hl

theorem drop (h : Records n ls) (i : Nat) : Records n (ls.drop i) := by
  induction h generalizing i with
  | nil =>
    rw [drop_nil]
    exact nil
  | last hne hle =>
    cases i with
    | zero => exact last hne hle
    | succ i =>
      rw [drop_succ_cons, drop_nil]
      exact nil
  | cons hlen h ih =>
    cases i with
    | zero => exact cons hlen h
    | succ i => exact ih i

/-- **The offset of a piece, from the begin.** -/
theorem drop_flatten (h : Records n ls) (i : Nat) : ls.flatten.drop (i * n) = (ls.drop i).flatten := by
  induction h generalizing i with
  | nil => simp
  | last hne hle =>
    cases i with
    | zero => simp
    | succ i =>
      rw [drop_succ_cons, drop_nil, flatten_singleton, flatten_nil]
      refine drop_eq_nil_of_le (hle.trans ?_)
      rw [Nat.succ_mul]
      exact Nat.le_add_left _ _
  | cons hlen _ ih =>
    cases i with
    | zero => simp
    | succ i =>
      rw [drop_succ_cons, ← ih i, flatten_cons, Nat.succ_mul, Nat.add_comm, ← drop_drop,
        drop_left' hlen]

/-- **The offset of a piece, from the end.** -/
theorem take_flatten (h : Records n ls) (i : Nat) : ls.flatten.take (i * n) = (ls.take i).flatten := by
  induction h generalizing i with
  | nil => simp
  | last hne hle =>
    cases i with
    | zero => simp
    | succ i =>
      rw [take_succ_cons, take_nil, flatten_singleton]
      refine take_of_length_le (hle.trans ?_)
      rw [Nat.succ_mul]
      exact Nat.le_add_left _ _
  | cons hlen _ ih =>
    cases i with
    | zero => simp
    | succ i =>
      rw [take_succ_cons, flatten_cons, flatten_cons, ← ih i, Nat.succ_mul, Nat.add_comm,
        ← hlen, take_length_add_append]

/-- The length of the whole, by the number of pieces. -/
theorem length_flatten_le (h : Records n ls) : ls.flatten.length ≤ ls.length * n := by
  induction h with
  | nil => simp
  | last _ hle => simpa using hle
  | cons hlen _ ih =>
    rw [flatten_cons, length_append, length_cons, Nat.succ_mul]
    omega

theorem lt_length_flatten (hn : 0 < n) (h : Records n ls) (hne : ls ≠ []) :
    ls.length * n < ls.flatten.length + n := by
  induction h with
  | nil => exact absurd rfl hne
  | @last l hl _ =>
    rw [flatten_singleton, length_singleton, Nat.one_mul]
    have hpos := length_pos_iff.mpr hl
    omega
  | @cons _ ls hlen _ ih =>
    rw [flatten_cons, length_append, length_cons, Nat.succ_mul]
    by_cases hls : ls = []
    · subst hls
      simp only [length_nil, flatten_nil, Nat.zero_mul]
      omega
    · have := ih hls
      omega

end Records

variable {n : Nat} {ls : List (List α)}

theorem chunksAux_flatten (hn : 0 < n) (h : Records n ls) {fuel : Nat}
    (hfuel : ls.flatten.length ≤ fuel) : chunksAux n fuel ls.flatten = ls := by
  induction ls generalizing fuel with
  | nil => cases fuel <;> rfl
  | cons l ls ih =>
    have hlpos : 0 < l.length := length_pos_iff.mpr (h.ne_nil hn mem_cons_self)
    rw [flatten_cons, length_append] at hfuel
    obtain ⟨fuel, rfl⟩ : ∃ k, fuel = k + 1 := ⟨fuel - 1, by omega⟩
    have htake : (l ++ ls.flatten).take n = l := by
      have hdef := h.take_flatten 1
      rwa [Nat.one_mul, take_succ_cons, take_zero, flatten_singleton] at hdef
    have hdrop : (l ++ ls.flatten).drop n = ls.flatten := by
      have hdef := h.drop_flatten 1
      rwa [Nat.one_mul] at hdef
    rw [flatten_cons]
    obtain ⟨x, xs, hx⟩ : ∃ x xs, l ++ ls.flatten = x :: xs :=
      exists_cons_of_length_pos (by rw [length_append]; omega)
    rw [hx] at htake hdrop ⊢
    rw [chunksAux, htake, hdrop, ih h.tail (by omega)]

/-- **The pieces of a whole are determined.** -/
theorem chunks_flatten (hn : 0 < n) (h : Records n ls) :
    chunks n ls.flatten = ls := chunksAux_flatten hn h le_rfl

variable {l : List α}

theorem chunksAux_spec (hn : 0 < n) {fuel : Nat} (hfuel : l.length ≤ fuel) :
    Records n (chunksAux n fuel l) ∧ (chunksAux n fuel l).flatten = l := by
  induction fuel generalizing l with
  | zero =>
    obtain rfl := eq_nil_of_length_eq_zero (Nat.le_zero.mp hfuel)
    exact ⟨Records.nil, rfl⟩
  | succ fuel ih =>
    cases l with
    | nil => exact ⟨Records.nil, rfl⟩
    | cons x xs =>
      have hdrop : ((x :: xs).drop n).length ≤ fuel := by
        rw [length_drop]
        omega
      obtain ⟨hrec, hflat⟩ := ih hdrop
      refine ⟨?_, by rw [chunksAux, flatten_cons, hflat, take_append_drop]⟩
      rw [chunksAux]
      by_cases hlen : n ≤ (x :: xs).length
      · exact Records.cons (length_take_of_le hlen) hrec
      · have hle : (x :: xs).length ≤ n := by omega
        rw [drop_eq_nil_of_le hle, take_of_length_le hle]
        cases fuel with
        | zero => exact Records.last (cons_ne_nil _ _) hle
        | succ _ => exact Records.last (cons_ne_nil _ _) hle

theorem records_chunks (hn : 0 < n) (l : List α) : Records n (chunks n l) :=
  (chunksAux_spec hn le_rfl).1

/-- **The pieces make the whole.** -/
theorem flatten_chunks (hn : 0 < n) (l : List α) : (chunks n l).flatten = l :=
  (chunksAux_spec hn le_rfl).2

/-! ## Pieces of lists of one length -/

theorem Records.full (h : Records n ls) (hdvd : n ∣ ls.flatten.length) :
    ∀ l ∈ ls, l.length = n := by
  induction h with
  | nil => exact nofun
  | last hne hle =>
    intro l hl
    obtain rfl := mem_singleton.mp hl
    rw [flatten_singleton] at hdvd
    exact Nat.le_antisymm hle (Nat.le_of_dvd (length_pos_iff.mpr hne) hdvd)
  | cons hlen _ ih =>
    rw [flatten_cons, length_append, hlen] at hdvd
    intro l hl
    rcases mem_cons.mp hl with rfl | hl
    · exact hlen
    · exact ih ((Nat.dvd_add_right (dvd_refl n)).mp hdvd) l hl

theorem Records.append {ls ls' : List (List α)} (hfull : ∀ l ∈ ls, l.length = n) (h : Records n ls') :
    Records n (ls ++ ls') := by
  induction ls with
  | nil => exact h
  | cons l ls ih =>
    exact .cons (hfull l mem_cons_self) (ih fun m hm => hfull m (mem_cons_of_mem _ hm))

/-- **Pieces of an append**, when the first part is cut evenly. -/
theorem chunks_append (hn : 0 < n) {a : List α} (hdvd : n ∣ a.length) (b : List α) :
    chunks n (a ++ b) = chunks n a ++ chunks n b := by
  have hfull := (records_chunks hn a).full (by rw [flatten_chunks hn]; exact hdvd)
  have h := chunks_flatten hn (Records.append hfull (records_chunks hn b))
  rwa [flatten_append, flatten_chunks hn, flatten_chunks hn] at h

/-- A piece there is for every offset inside. -/
theorem lt_length_chunks (hn : 0 < n) {i : Nat} : i < (chunks n l).length ↔ i * n < l.length := by
  have hrec := records_chunks hn l
  have hle := hrec.length_flatten_le
  rw [flatten_chunks hn] at hle
  constructor
  · intro hi
    have hlt := hrec.lt_length_flatten hn (ne_nil_of_length_pos (Nat.lt_of_le_of_lt (Nat.zero_le _) hi))
    rw [flatten_chunks hn] at hlt
    have := Nat.mul_le_mul_right n hi
    rw [Nat.succ_mul] at this
    omega
  · intro hi
    exact Nat.lt_of_mul_lt_mul_right (Nat.lt_of_lt_of_le hi hle)

theorem length_chunks_eq (hn : 0 < n) {m : List β} (h : l.length = m.length) :
    (chunks n l).length = (chunks n m).length := by
  refine Nat.le_antisymm (Nat.le_of_not_lt fun hlt => ?_) (Nat.le_of_not_lt fun hlt => ?_)
  · exact absurd ((lt_length_chunks hn).mpr (h ▸ (lt_length_chunks hn).mp hlt)) (lt_irrefl _)
  · exact absurd ((lt_length_chunks hn).mpr (h.symm ▸ (lt_length_chunks hn).mp hlt)) (lt_irrefl _)

/-- **The piece at an offset.** -/
theorem getElem?_chunks (hn : 0 < n) {i : Nat} (hi : i * n < l.length) :
    (chunks n l)[i]? = some ((l.drop (i * n)).take n) := by
  have hrec := records_chunks hn l
  have hlt := (lt_length_chunks hn).mpr hi
  have hdrop := hrec.drop_flatten i
  have htake := (hrec.drop i).take_flatten 1
  rw [flatten_chunks hn] at hdrop
  rw [← hdrop, Nat.one_mul, drop_eq_getElem_cons hlt, take_succ_cons, take_zero, flatten_singleton] at htake
  rw [getElem?_eq_getElem hlt, htake]

/-- **Equal pieces at an offset are equal elements.** -/
theorem getElem?_eq_of_chunks (hn : 0 < n) {l m : List α} (hlen : l.length = m.length) {j : Nat}
    (hj : j < l.length) (h : (chunks n l)[j / n]? = (chunks n m)[j / n]?) : l[j]? = m[j]? := by
  have hoff : j / n * n ≤ j := Nat.div_mul_le_self j n
  have hmod : j - j / n * n < n := by
    have := Nat.div_add_mod' j n
    have := Nat.mod_lt j hn
    omega
  rw [getElem?_chunks hn (Nat.lt_of_le_of_lt hoff hj), getElem?_chunks hn (Nat.lt_of_le_of_lt hoff (hlen ▸ hj))] at h
  have helem := congrArg (fun x : List α => x[j - j / n * n]?) (Option.some.inj h)
  rw [getElem?_take_of_lt hmod, getElem?_take_of_lt hmod, getElem?_drop, getElem?_drop,
    Nat.add_sub_cancel' hoff] at helem
  exact helem

/-- The pieces of a list that is cut evenly. -/
theorem length_chunks_mul (hn : 0 < n) (hdvd : n ∣ l.length) : (chunks n l).length * n = l.length := by
  obtain ⟨m, hm⟩ := hdvd
  have hcount : (chunks n l).length = m := by
    refine Nat.le_antisymm (Nat.le_of_not_lt fun hlt => ?_) (Nat.le_of_not_lt fun hlt => ?_)
    · have := (lt_length_chunks hn).mp hlt
      rw [hm, Nat.mul_comm] at this
      exact absurd this (lt_irrefl _)
    · refine absurd ((lt_length_chunks hn).mpr ?_) (lt_irrefl (chunks n l).length)
      rw [hm, Nat.mul_comm]
      exact Nat.mul_lt_mul_of_pos_left hlt hn
  rw [hcount, hm, Nat.mul_comm]

end Mitaka
