/-
  Subject: Filling vessels of capacity one in proportion to their weights.

  At level `c` the vessel of weight `w` holds `min 1 (c * w)`. `raise` raises the level so
  that the vessels that are not full would take up what is missing; a vessel that runs over
  on the way leaves something for the next round (`filled_raise`), so that the rounds end
  (`exists_level`). The level depends on the weights only, and not on their order
  (`level_perm`).
-/
import Mathlib

namespace Mitaka

open List

variable {K : Type*} [Field K] [LinearOrder K] [IsStrictOrderedRing K]

/-! ## 1. One round -/

/-- What the vessels hold at level `c`. -/
def filled (ws : List K) (c : K) : K := (ws.map fun w => min 1 (c * w)).sum

/-- The vessels that are not full. -/
def room (ws : List K) (c : K) : List K := ws.filter fun w => c * w < 1

/-- What the vessels that are not full hold. -/
def slack (ws : List K) (c : K) : K := ((room ws c).map (c * ·)).sum

/-- The level at which the vessels that are not full would take up what is missing. -/
def raise (total : K) (ws : List K) (c : K) : K := c * ((total - filled ws c) / slack ws c + 1)

variable {ws : List K} {c total : K}

theorem slack_pos (hc : 0 < c) (hws : ∀ w ∈ ws, 0 < w) (h : filled ws c < ws.length) : 0 < slack ws c := by
  have hne : room ws c ≠ [] := by
    intro hnil
    have hfull : ∀ w ∈ ws, min 1 (c * w) = 1 := fun w hw =>
      min_eq_left (not_lt.mp fun hlt => filter_eq_nil_iff.mp hnil w hw (decide_eq_true hlt))
    have hsum : filled ws c = ws.length := by
      rw [filled, map_congr_left hfull, map_const', sum_replicate, nsmul_one]
    exact h.ne hsum
  refine sum_pos _ (fun x hx => ?_) (fun h => hne (map_eq_nil_iff.mp h))
  obtain ⟨w, hw, rfl⟩ := List.mem_map.mp hx
  exact mul_pos hc (hws w (mem_of_mem_filter hw))

omit [IsStrictOrderedRing K] in
/-- What the vessels would hold if those that are not full did not run over. -/
theorem sum_stretch (ws : List K) (c k : K) :
    (ws.map fun w => if c * w < 1 then c * k * w else 1).sum = filled ws c + (k - 1) * slack ws c := by
  induction ws with
  | nil => simp [filled, slack, room]
  | cons w ws ih =>
    rw [map_cons, sum_cons, ih]
    unfold filled slack room
    rw [map_cons, sum_cons, filter_cons]
    by_cases hw : c * w < 1
    · rw [if_pos hw, if_pos (decide_eq_true hw), min_eq_right hw.le, map_cons, sum_cons]
      ring
    · rw [if_neg hw, if_neg (by simpa using hw), min_eq_left (not_lt.mp hw)]
      ring

omit [IsStrictOrderedRing K] in
theorem sum_stretch_raise (hslack : 0 < slack ws c) :
    (ws.map fun w => if c * w < 1 then raise total ws c * w else 1).sum = total := by
  rw [raise, sum_stretch]
  field_simp
  ring

theorem le_raise (hc : 0 < c) (hslack : 0 < slack ws c) (hle : filled ws c ≤ total) : c ≤ raise total ws c := by
  have h : 0 ≤ (total - filled ws c) / slack ws c := div_nonneg (sub_nonneg.mpr hle) hslack.le
  calc c = c * (0 + 1) := by ring
    _ ≤ raise total ws c := mul_le_mul_of_nonneg_left (by linarith) hc.le

/-- **A round never fills too much.** -/
theorem filled_raise_le (hslack : 0 < slack ws c) : filled ws (raise total ws c) ≤ total := by
  calc filled ws (raise total ws c)
      ≤ (ws.map fun w => if c * w < 1 then raise total ws c * w else 1).sum := by
        refine sum_le_sum fun w _ => ?_
        split_ifs
        · exact min_le_right 1 _
        · exact min_le_left 1 _
    _ = total := sum_stretch_raise hslack

/-- **A round** takes up everything, or a vessel becomes full. -/
theorem filled_raise (hc : 0 < c) (hws : ∀ w ∈ ws, 0 < w) (hslack : 0 < slack ws c) (hle : filled ws c ≤ total) :
    filled ws (raise total ws c) = total ∨ (room ws (raise total ws c)).length < (room ws c).length := by
  have hup : ∀ w ∈ ws, c * w ≤ raise total ws c * w := fun w hw =>
    mul_le_mul_of_nonneg_right (le_raise hc hslack hle) (hws w hw).le
  by_cases h : ∀ w ∈ ws, c * w < 1 → raise total ws c * w < 1
  · left
    refine Eq.trans ?_ (sum_stretch_raise hslack)
    refine congrArg List.sum (map_congr_left fun w hw => ?_)
    split_ifs with hlt
    · exact min_eq_right (h w hw hlt).le
    · exact min_eq_left ((not_lt.mp hlt).trans (hup w hw))
  · right
    push Not at h
    obtain ⟨w, hw, hlt, hge⟩ := h
    have hsub : room ws (raise total ws c) = (room ws c).filter fun w => raise total ws c * w < 1 := by
      rw [room, room, List.filter_filter]
      refine filter_congr fun v hv => ?_
      rw [← Bool.decide_and]
      exact decide_eq_decide.mpr ⟨fun h => ⟨h, (hup v hv).trans_lt h⟩, And.left⟩
    rw [hsub]
    exact length_filter_lt_length_iff_exists.mpr
      ⟨w, mem_filter.mpr ⟨hw, decide_eq_true hlt⟩, by simpa using hge⟩

/-! ## 2. Every round -/

/-- The level when less than `eps` is missing. -/
def level (total eps : K) (ws : List K) : ℕ → K → Option K
  | 0, _ => none
  | fuel + 1, c => if total - filled ws c < eps then some c else level total eps ws fuel (raise total ws c)

variable {eps : K}

/-- **The rounds end**, and the vessels hold the total but for less than `eps`. -/
theorem exists_level (heps : 0 < eps) (hws : ∀ w ∈ ws, 0 < w) (htotal : total ≤ ws.length) {fuel : ℕ} (hc : 0 < c)
    (hle : filled ws c ≤ total) (hfuel : (room ws c).length + 1 < fuel) :
    ∃ d, level total eps ws fuel c = some d ∧ c ≤ d ∧ filled ws d ≤ total ∧ total - filled ws d < eps := by
  induction fuel generalizing c with
  | zero => omega
  | succ fuel ih =>
    by_cases hdone : total - filled ws c < eps
    · exact ⟨c, if_pos hdone, le_rfl, hle, hdone⟩
    · have hmiss : filled ws c < total := by linarith
      have hslack := slack_pos hc hws (hmiss.trans_le htotal)
      have hup := le_raise hc hslack hle
      have hle' : filled ws (raise total ws c) ≤ total := filled_raise_le hslack
      rw [level, if_neg hdone]
      rcases filled_raise hc hws hslack hle with hall | hroom
      · -- nothing is missing after this round
        obtain ⟨fuel, rfl⟩ : ∃ f, fuel = f + 1 := ⟨fuel - 1, by omega⟩
        have hzero : total - filled ws (raise total ws c) < eps := by rw [hall, sub_self]; exact heps
        exact ⟨raise total ws c, if_pos hzero, hup, hle', hzero⟩
      · obtain ⟨d, hd, hcd, h⟩ := ih (hc.trans_le hup) hle' (by omega)
        exact ⟨d, hd, hup.trans hcd, h⟩

omit [IsStrictOrderedRing K] in
theorem level_mono {fuel fuel' : ℕ} {d : K} (h : level total eps ws fuel c = some d) (hle : fuel ≤ fuel') :
    level total eps ws fuel' c = some d := by
  induction fuel generalizing c fuel' with
  | zero => exact nomatch h
  | succ fuel ih =>
    obtain ⟨fuel', rfl⟩ : ∃ f, fuel' = f + 1 := ⟨fuel' - 1, by omega⟩
    rw [level] at h ⊢
    split_ifs at h ⊢
    · exact h
    · exact ih h (by omega)

omit [IsStrictOrderedRing K] in
/-- **The level depends on the weights only.** -/
theorem level_perm {ws' : List K} (h : ws.Perm ws') (fuel : ℕ) (c : K) :
    level total eps ws fuel c = level total eps ws' fuel c := by
  have hfilled (c : K) : filled ws c = filled ws' c := (h.map _).sum_eq
  have hslack (c : K) : slack ws c = slack ws' c := ((h.filter _).map _).sum_eq
  induction fuel generalizing c with
  | zero => rfl
  | succ fuel ih => rw [level, level, raise, raise, hfilled, hslack, ih]

end Mitaka
