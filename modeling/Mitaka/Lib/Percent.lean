/-
  Subject: Percent-encoding of bytes: what is not safe is written `%XX`.

  `unquote` leaves a percent sign alone that no two hexadecimal digits follow, so it is
  total; it undoes `quote` as long as the percent sign itself is not safe.
-/
import Mitaka.Lib.Numeral

namespace Mitaka.Percent

open Numeral List

/-- A hexadecimal digit, in upper case. -/
def hexDigit (n : ℕ) : Char := Char.ofNat (if n < 10 then 48 + n else 55 + n)

/-- `%XX`. -/
def escape (c : Char) : List Char := ['%', hexDigit (c.toNat / 16), hexDigit (c.toNat % 16)]

def quote (safe : Char → Bool) (s : List Char) : List Char := s.flatMap fun c => if safe c then [c] else escape c

def unquote : List Char → List Char
  | [] => []
  | [c] => [c]
  | [c, d] => [c, d]
  | c :: a :: b :: rest =>
    match if c = '%' then (digitVal 16 a).bind fun x => (digitVal 16 b).map fun y => 16 * x + y else none with
    | some n => Char.ofNat n :: unquote rest
    | none => c :: unquote (a :: b :: rest)
termination_by s => s.length

theorem digitVal_hexDigit {n : ℕ} (h : n < 16) : digitVal 16 (hexDigit n) = some n := by
  have key : ∀ m : Fin 16, digitVal 16 (hexDigit m) = some (m : ℕ) := by decide
  exact key ⟨n, h⟩

theorem unquote_cons {c : Char} (hc : c ≠ '%') (s : List Char) : unquote (c :: s) = c :: unquote s := by
  match s with
  | [] => rw [unquote, unquote]
  | [d] => rw [unquote, unquote]
  | a :: b :: rest => rw [unquote, if_neg hc]

theorem unquote_eq_self {s : List Char} (hs : '%' ∉ s) : unquote s = s := by
  induction s with
  | nil => rw [unquote]
  | cons c s ih =>
    obtain ⟨hc, hs⟩ := not_or.mp (mt mem_cons.mpr hs)
    rw [unquote_cons (Ne.symm hc), ih hs]

theorem unquote_escape {c : Char} (hc : c.toNat < 256) (s : List Char) :
    unquote (escape c ++ s) = c :: unquote s := by
  have hhigh := digitVal_hexDigit (show c.toNat / 16 < 16 by omega)
  have hlow := digitVal_hexDigit (show c.toNat % 16 < 16 by omega)
  have hcode : 16 * (c.toNat / 16) + c.toNat % 16 = c.toNat := by omega
  have hsome : (if '%' = '%' then (digitVal 16 (hexDigit (c.toNat / 16))).bind fun x =>
      (digitVal 16 (hexDigit (c.toNat % 16))).map fun y => 16 * x + y else none) = some c.toNat := by
    rw [if_pos rfl, hhigh, hlow, Option.bind_some, Option.map_some, hcode]
  rw [escape, cons_append, cons_append, cons_append, nil_append, unquote, hsome]
  simp only [Char.ofNat_toNat]

/-- **Unquoting undoes quoting**, whatever stands behind. -/
theorem unquote_quote {safe : Char → Bool} (hsafe : safe '%' = false) {s : List Char}
    (hs : ∀ c ∈ s, c.toNat < 256) (rest : List Char) : unquote (quote safe s ++ rest) = s ++ unquote rest := by
  induction s with
  | nil => rfl
  | cons c s ih =>
    have hrest := ih fun d hd => hs d (mem_cons_of_mem _ hd)
    rw [quote, flatMap_cons, append_assoc, ← quote, cons_append]
    by_cases hc : safe c = true
    · have hne : c ≠ '%' := by
        rintro rfl
        rw [hsafe] at hc
        exact absurd hc (by decide)
      rw [if_pos hc, singleton_append, unquote_cons hne, hrest]
    · rw [if_neg hc, unquote_escape (hs c mem_cons_self), hrest]

/-- The characters that are written: the safe ones, the percent sign and the digits. -/
theorem mem_quote {safe : Char → Bool} {s : List Char} {c : Char} (hs : ∀ c ∈ s, c.toNat < 256)
    (h : c ∈ quote safe s) : safe c = true ∨ c = '%' ∨ ∃ n < 16, c = hexDigit n := by
  obtain ⟨d, hd, hc⟩ := mem_flatMap.mp h
  have hlt := hs d hd
  by_cases hsafe : safe d = true
  · rw [if_pos hsafe, mem_singleton] at hc
    exact Or.inl (hc ▸ hsafe)
  · rw [if_neg hsafe, escape] at hc
    simp only [mem_cons, not_mem_nil, or_false] at hc
    rcases hc with hc | hc | hc
    · exact Or.inr (Or.inl hc)
    · exact Or.inr (Or.inr ⟨d.toNat / 16, by omega, hc⟩)
    · exact Or.inr (Or.inr ⟨d.toNat % 16, by omega, hc⟩)

theorem quote_eq_nil {safe : Char → Bool} {s : List Char} : quote safe s = [] ↔ s = [] := by
  refine ⟨fun h => ?_, fun h => by rw [h]; rfl⟩
  cases s with
  | nil => rfl
  | cons c s =>
    rw [quote, flatMap_cons, append_eq_nil_iff] at h
    have hhead := h.1
    by_cases hc : safe c = true
    · rw [if_pos hc] at hhead
      exact absurd hhead (cons_ne_nil _ _)
    · rw [if_neg hc] at hhead
      exact absurd hhead (cons_ne_nil _ _)

end Mitaka.Percent
