import Mathlib.Data.Nat.Digits.Lemmas

/-!
# Numbers as strings of digits

Horner's rule gives the value of a string of digits, with the highest one first. The digits of a
number are read back by it.
-/

namespace Zapcc.DigitStrings

open List Nat

variable {α : Type*} {digit : α → Nat} {letter : Nat → α} {radix n : Nat}

def value (digit : α → Nat) (radix : Nat) (s : List α) : Nat :=
  s.foldl (fun v c => v * radix + digit c) 0

/-- The string of the digits of a number. -/
def write (letter : Nat → α) (radix n : Nat) : List α := ((Nat.digits radix n).map letter).reverse

theorem foldl_eq (s : List α) (v : Nat) :
    s.foldl (fun v c => v * radix + digit c) v = v * radix ^ s.length + value digit radix s := by
  induction s generalizing v with
  | nil => simp [value]
  | cons c s ih =>
    rw [value, foldl_cons, foldl_cons, ih, ih (0 * radix + digit c), length_cons]
    ring

theorem value_cons (c : α) (s : List α) :
    value digit radix (c :: s) = digit c * radix ^ s.length + value digit radix s := by
  rw [value, foldl_cons, foldl_eq, Nat.zero_mul, Nat.zero_add]

theorem value_lt {s : List α} (h : ∀ c ∈ s, digit c < radix) :
    value digit radix s < radix ^ s.length := by
  induction s with
  | nil => exact Nat.one_pos
  | cons c s ih =>
    have hs := ih fun d hd => h d (mem_cons_of_mem c hd)
    have hc := Nat.mul_le_mul_right (radix ^ s.length)
      (succ_le_of_lt (h c mem_cons_self))
    rw [value_cons, length_cons, Nat.pow_succ']
    rw [succ_mul] at hc
    omega

theorem value_reverse (s : List α) :
    value digit radix s.reverse = Nat.ofDigits radix (s.map digit) := by
  rw [value, foldl_reverse, ofDigits_eq_foldr, foldr_map]
  congr
  funext c v
  rw [Nat.mul_comm, Nat.add_comm, cast_id]

theorem value_write (hletter : ∀ d < radix, digit (letter d) = d) (hradix : 1 < radix) (n : Nat) :
    value digit radix (write letter radix n) = n := by
  have hmap : ((Nat.digits radix n).map letter).map digit = Nat.digits radix n := by
    rw [map_map]
    refine (map_congr_left fun d hd => ?_).trans (map_id _)
    exact hletter d (digits_lt_base hradix hd)
  rw [write, value_reverse, hmap, ofDigits_digits]

theorem exists_of_mem_write (hradix : 1 < radix) {c : α} (h : c ∈ write letter radix n) :
    ∃ d < radix, letter d = c := by
  rw [write, mem_reverse, mem_map] at h
  obtain ⟨d, hd, hc⟩ := h
  exact ⟨d, digits_lt_base hradix hd, hc⟩

theorem write_ne_nil (letter : Nat → α) (hn : n ≠ 0) : write letter radix n ≠ [] := by
  rw [write, ne_eq, reverse_eq_nil_iff, map_eq_nil_iff]
  exact Nat.digits_ne_nil_iff_ne_zero.mpr hn

theorem pow_length_write_le (letter : Nat → α) (hradix : 1 < radix) (hn : n ≠ 0) :
    radix ^ ((write letter radix n).length - 1) ≤ n := by
  have hpos := length_pos_of_ne_nil (@write_ne_nil α radix n letter hn)
  have hlength : (write letter radix n).length = (Nat.digits radix n).length := by
    rw [write, length_reverse, length_map]
  have hle := base_pow_length_digits_le radix n (by omega) hn
  rw [← hlength, ← succ_pred_eq_of_pos hpos, Nat.pow_succ'] at hle
  exact Nat.le_of_mul_le_mul_left hle (by omega)

theorem write_zero : write letter radix 0 = [] := by simp [write]

theorem write_eq_append (letter : Nat → α) (hradix : 1 < radix) (hn : n ≠ 0) :
    write letter radix n = write letter radix (n / radix) ++ [letter (n % radix)] := by
  rw [write, digits_def' hradix (Nat.pos_of_ne_zero hn), map_cons, reverse_cons, write]

/-- All digits but the highest one have their bits below a power of two that is larger. -/
theorem mul_length_write_lt (letter : Nat → α) (hradix : 1 < radix) (hn : n ≠ 0) {k m : Nat}
    (hpow : 2 ^ k ≤ radix) (hlt : n < 2 ^ m) : k * ((write letter radix n).length - 1) < m := by
  refine (Nat.pow_lt_pow_iff_right Nat.one_lt_two).mp ?_
  calc 2 ^ (k * ((write letter radix n).length - 1))
      = (2 ^ k) ^ ((write letter radix n).length - 1) := pow_mul 2 k _
    _ ≤ radix ^ ((write letter radix n).length - 1) := Nat.pow_le_pow_left hpow _
    _ ≤ n := pow_length_write_le letter hradix hn
    _ < 2 ^ m := hlt

theorem length_write_le (letter : Nat → α) (hradix : 1 < radix) {m : Nat} (hlt : n < 2 ^ m) :
    (write letter radix n).length ≤ m := by
  by_cases hn : n = 0
  · rw [hn, write_zero]
    exact Nat.zero_le m
  · have hlength := mul_length_write_lt letter (k := 1) hradix hn hradix hlt
    omega

/-- A count of bits that grows at least as much as the digits in each period is enough. -/
theorem pow_le_of_period (f : Nat → Nat) {low : Nat} (period bits : Nat) (hperiod : 0 < period)
    (hstep : radix ^ period ≤ 2 ^ bits) (hf : ∀ n, f (n + period) = f n + bits)
    (hfirst : ∀ n, low ≤ n → n < low + period → radix ^ n ≤ 2 ^ f n) (hn : low ≤ n) :
    radix ^ n ≤ 2 ^ f n := by
  induction n using Nat.strong_induction_on with
  | _ n ih =>
    by_cases hlt : n < low + period
    · exact hfirst n hn hlt
    · obtain ⟨k, rfl⟩ := Nat.exists_eq_add_of_le' (show period ≤ n by omega)
      rw [hf, pow_add, pow_add]
      exact Nat.mul_le_mul (ih k (by omega) (by omega)) hstep

end Zapcc.DigitStrings
