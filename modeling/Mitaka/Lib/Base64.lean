/-
  Subject: Base64 with the URL-safe alphabet, three bytes in four characters.

  A byte is a character below 256. Decoding undoes encoding (`decode_encode`).
-/
import Mathlib

namespace Mitaka.Base64

/-- The character of a number below 64. -/
def symbol (n : Nat) : Char :=
  if n < 26 then Char.ofNat (65 + n)
  else if n < 52 then Char.ofNat (71 + n)
  else if n < 62 then Char.ofNat (n - 4)
  else if n = 62 then '-'
  else '_'

def value (c : Char) : Option Nat := (List.range 64).find? fun n => symbol n = c

theorem value_symbol {n : Nat} (h : n < 64) : value (symbol n) = some n := by
  have key : ∀ n : Fin 64, value (symbol n) = some (n : Nat) := by decide +kernel
  exact key ⟨n, h⟩

theorem symbol_ne_pad {n : Nat} (h : n < 64) : symbol n ≠ '=' := by
  have key : ∀ n : Fin 64, symbol n ≠ '=' := by decide
  exact key ⟨n, h⟩

/-- `urlsafe_b64encode`. -/
def encode : List Char → List Char
  | [] => []
  | [a] => [symbol (a.toNat / 4), symbol (a.toNat % 4 * 16), '=', '=']
  | [a, b] => [symbol (a.toNat / 4), symbol (a.toNat % 4 * 16 + b.toNat / 16), symbol (b.toNat % 16 * 4), '=']
  | a :: b :: c :: rest =>
    symbol (a.toNat / 4) :: symbol (a.toNat % 4 * 16 + b.toNat / 16) :: symbol (b.toNat % 16 * 4 + c.toNat / 64) ::
      symbol (c.toNat % 64) :: encode rest

/-- The bytes of four characters. -/
def decodeGroup (w x y z : Char) : Option (List Char) := do
  let w ← value w
  let x ← value x
  if y = '=' then some [Char.ofNat (w * 4 + x / 16)]
  else
    let y ← value y
    if z = '=' then some [Char.ofNat (w * 4 + x / 16), Char.ofNat (x % 16 * 16 + y / 4)]
    else
      let z ← value z
      some [Char.ofNat (w * 4 + x / 16), Char.ofNat (x % 16 * 16 + y / 4), Char.ofNat (y % 4 * 64 + z)]

/-- `urlsafe_b64decode`; `none` for a text that is not in groups of four. -/
def decode : List Char → Option (List Char)
  | [] => some []
  | w :: x :: y :: z :: rest => do
    let group ← decodeGroup w x y z
    let rest ← decode rest
    some (group ++ rest)
  | _ => none

theorem ofNat_eq {c : Char} {n : Nat} (h : n = c.toNat) : Char.ofNat n = c := by
  rw [h, Char.ofNat_toNat]

/-- **Decoding undoes encoding.** -/
theorem decode_encode : ∀ {s : List Char}, (∀ c ∈ s, c.toNat < 256) → decode (encode s) = some s
  | [], _ => rfl
  | [a], h => by
    have ha := h a (by simp)
    rw [encode, decode, decodeGroup, value_symbol (by omega), value_symbol (by omega)]
    simp only [Option.bind_eq_bind, Option.bind_some, if_true, decode, List.append_nil]
    rw [ofNat_eq (c := a) (by omega)]
  | [a, b], h => by
    have ha := h a (by simp)
    have hb := h b (by simp)
    rw [encode, decode, decodeGroup, value_symbol (by omega), value_symbol (by omega), value_symbol (by omega)]
    simp only [Option.bind_eq_bind, Option.bind_some, if_true, decode, List.append_nil]
    rw [if_neg (symbol_ne_pad (by omega)), Option.bind_some, ofNat_eq (c := a) (by omega),
      ofNat_eq (c := b) (by omega)]
  | a :: b :: c :: rest, h => by
    have ha := h a (by simp)
    have hb := h b (by simp)
    have hc := h c (by simp)
    have hrest : ∀ x ∈ rest, x.toNat < 256 := fun x hx =>
      h x (List.mem_cons_of_mem _ (List.mem_cons_of_mem _ (List.mem_cons_of_mem _ hx)))
    have ih := decode_encode hrest
    rw [encode, decode, decodeGroup, value_symbol (by omega), value_symbol (by omega), value_symbol (by omega),
      value_symbol (by omega), ih]
    simp only [Option.bind_eq_bind, Option.bind_some]
    rw [if_neg (symbol_ne_pad (by omega)), if_neg (symbol_ne_pad (by omega)), Option.bind_some,
      ofNat_eq (c := a) (by omega), ofNat_eq (c := b) (by omega), ofNat_eq (c := c) (by omega)]
    rfl

/-- One byte behind groups of three is two characters and the padding. -/
theorem encode_padding : ∀ {s : List Char}, s.length % 3 = 1 → (∀ c ∈ s, c.toNat < 256) →
    ∃ t c, encode s = t ++ [c, '=', '='] ∧ c ≠ '='
  | [a], _, h => ⟨[symbol (a.toNat / 4)], _, rfl, symbol_ne_pad (by omega)⟩
  | a :: b :: c :: rest, hlen, h => by
    have hlen' : rest.length % 3 = 1 := by
      simp only [List.length_cons] at hlen
      omega
    obtain ⟨t, x, ht, hx⟩ := encode_padding hlen' fun x hx =>
      h x (List.mem_cons_of_mem _ (List.mem_cons_of_mem _ (List.mem_cons_of_mem _ hx)))
    refine ⟨symbol (a.toNat / 4) :: symbol (a.toNat % 4 * 16 + b.toNat / 16) ::
      symbol (b.toNat % 16 * 4 + c.toNat / 64) :: symbol (c.toNat % 64) :: t, x, ?_, hx⟩
    rw [encode, ht]
    rfl
  | [], hlen, _ => absurd hlen (by simp)
  | [_, _], hlen, _ => absurd hlen (by simp)

end Mitaka.Base64
