import Mathlib
import BigintMultiply.Library.Vectors

/-! Coefficient vectors as polynomials: entry `i` of a vector is the coefficient
of `X ^ i`. Splitting, shifting and adding vectors are ring operations here, and
the schoolbook product is multiplication. The second half bounds coefficients. -/

namespace BigintMultiply.Coefficients
open Vectors Polynomial
open Finset.HasAntidiagonal (antidiagonal mem_antidiagonal)

/-- The polynomial with the entries of `v` as coefficients. -/
noncomputable def poly : Vec → ℤ[X]
  | [] => 0
  | a :: v => C a + X * poly v

/-- The coefficients of the product of `x` and `y`: entry `m` is the sum of
`x[i] * y[j]` over `i + j = m`. -/
def convolve (x y : Vec) : Vec :=
  tabulate (x.length + y.length) fun m =>
    ∑ p ∈ antidiagonal m, at0 x p.1 * at0 y p.2

theorem coeff_poly (v : Vec) (i : Nat) : (poly v).coeff i = at0 v i := by
  induction v generalizing i with
  | nil => simp [poly]
  | cons a v ih =>
    cases i with
    | zero => simp [poly, at0]
    | succ i => rw [poly, coeff_add, coeff_C_succ, coeff_X_mul, zero_add, ih]; rfl

/-- Vectors of one length with the same polynomial are equal. -/
theorem eq_of_poly_eq {v w : Vec} (hl : v.length = w.length) (h : poly v = poly w) : v = w :=
  vec_ext hl fun i _ => by rw [← coeff_poly, ← coeff_poly, h]

@[simp] theorem poly_zeros (n : Nat) : poly (zeros n) = 0 := by
  ext i
  simp [coeff_poly]

theorem poly_append (v w : Vec) : poly (v ++ w) = poly v + X ^ v.length * poly w := by
  ext i
  rw [coeff_add, coeff_X_pow_mul', coeff_poly, coeff_poly, coeff_poly, at0_append]
  by_cases h : i < v.length
  · rw [if_pos h, if_neg (by omega), add_zero]
  · rw [if_neg h, if_pos (by omega), at0_eq_zero (v := v) (by omega), zero_add]

/-- Cutting a vector at `k` splits its polynomial at `X ^ k`. -/
theorem poly_split (v : Vec) (k : Nat) (h : k ≤ v.length) :
    poly v = poly (v.take k) + X ^ k * poly (v.drop k) := by
  have := poly_append (v.take k) (v.drop k)
  rwa [List.take_append_drop, List.length_take_of_le h] at this

theorem poly_addAt (v w : Vec) (off : Nat) (h : off + w.length ≤ v.length) :
    poly (addAt v off w) = poly v + X ^ off * poly w := by
  ext i
  rw [coeff_add, coeff_X_pow_mul', coeff_poly, coeff_poly, coeff_poly]
  by_cases hi : i < v.length
  · exact at0_addAt v w off i hi
  · rw [at0_eq_zero (by simpa using hi), at0_eq_zero (by omega : v.length ≤ i), zero_add]
    split
    · rw [at0_eq_zero (by omega)]
    · rfl

theorem poly_resizeTo (v : Vec) (n : Nat) (h : v.length ≤ n) : poly (resizeTo v n) = poly v := by
  ext i
  rw [coeff_poly, coeff_poly, at0_resizeTo v n i h]

/-- A vector whose entries are given by the coefficients of `p`. -/
theorem poly_eq_of_at0 {v : Vec} {p : ℤ[X]} (h : ∀ i < v.length, at0 v i = p.coeff i)
    (hp : ∀ i, v.length ≤ i → p.coeff i = 0) : poly v = p := by
  ext i
  rw [coeff_poly]
  by_cases hi : i < v.length
  · exact h i hi
  · rw [at0_eq_zero (by omega), hp i (by omega)]

/-- One more term of a growing prefix. -/
theorem poly_take_succ (v : Vec) (k : Nat) (h : k < v.length) :
    poly (v.take (k + 1)) = poly (v.take k) + C (at0 v k) * X ^ k := by
  ext i
  rw [coeff_add, coeff_poly, coeff_poly, coeff_C_mul, coeff_X_pow, at0_take, at0_take]
  by_cases h1 : i = k
  · subst h1
    simp
  · by_cases h2 : i < k
    · simp [h1, h2, show i < k + 1 by omega]
    · simp [h1, h2, show ¬ i < k + 1 by omega]

/-! ## The product -/

@[simp] theorem convolve_length (x y : Vec) : (convolve x y).length = x.length + y.length := by
  simp [convolve]

theorem coeff_mul_eq_sum (x y : Vec) (m : Nat) :
    (poly x * poly y).coeff m = ∑ p ∈ antidiagonal m, at0 x p.1 * at0 y p.2 := by
  simp only [coeff_mul, coeff_poly]

/-- No product of entries reaches position `|x| + |y|`. -/
theorem coeff_mul_eq_zero (x y : Vec) (m : Nat) (h : x.length + y.length ≤ m) :
    (poly x * poly y).coeff m = 0 := by
  rw [coeff_mul_eq_sum]
  refine Finset.sum_eq_zero fun p hp => ?_
  have := mem_antidiagonal.mp hp
  by_cases hx : x.length ≤ p.1
  · rw [at0_eq_zero hx, zero_mul]
  · rw [at0_eq_zero (v := y) (by omega), mul_zero]

theorem at0_convolve (x y : Vec) (m : Nat) : at0 (convolve x y) m = (poly x * poly y).coeff m := by
  rw [convolve, at0_tabulate]
  split
  · rw [coeff_mul_eq_sum]
  · rw [coeff_mul_eq_zero x y m (by omega)]

theorem poly_convolve (x y : Vec) : poly (convolve x y) = poly x * poly y := by
  ext m
  rw [coeff_poly, at0_convolve]

/-- The product is the only vector of its length with its polynomial. -/
theorem eq_convolve {x y r : Vec} (hl : r.length = x.length + y.length)
    (h : poly r = poly x * poly y) : r = convolve x y :=
  eq_of_poly_eq (by rw [hl, convolve_length]) (by rw [h, poly_convolve])

/-- `r` is the product of two vectors of length `n`, entry for entry. -/
structure IsProduct (n : Nat) (x y r : Vec) : Prop where
  length : r.length = 2 * n
  entry : ∀ m < 2 * n, at0 r m = ∑ p ∈ antidiagonal m, at0 x p.1 * at0 y p.2

theorem isProduct_convolve {n : Nat} {x y : Vec} (hx : x.length = n) (hy : y.length = n) :
    IsProduct n x y (convolve x y) :=
  ⟨by rw [convolve_length]; omega, fun m _ => by rw [at0_convolve, coeff_mul_eq_sum]⟩

theorem IsProduct.eq_convolve {n : Nat} {x y r : Vec} (hx : x.length = n) (hy : y.length = n)
    (h : IsProduct n x y r) : r = convolve x y := by
  have hc := isProduct_convolve hx hy
  exact vec_ext (h.length.trans hc.length.symm) fun m hm => by
    rw [h.length] at hm
    rw [h.entry m hm, hc.entry m hm]

/-! ## Bounds

`S` is the semiring of admissible values: all integers, or the non-negative
ones, so that one argument bounds magnitudes and keeps signs. -/

/-- Every coefficient lies in `S` and is at most `b` in magnitude. -/
def Bounded (S : Subsemiring ℤ) (b : ℕ) (p : ℤ[X]) : Prop :=
  ∀ m, p.coeff m ∈ S ∧ |p.coeff m| ≤ b

/-- Every entry lies in `S` and is at most `b` in magnitude. -/
def Entries (S : Subsemiring ℤ) (b : ℕ) (v : Vec) : Prop := Bounded S b (poly v)

section Bounds

variable {S : Subsemiring ℤ} {b c : ℕ} {p q : ℤ[X]} {v w : Vec}

theorem entries_iff : Entries S b v ↔ ∀ i, at0 v i ∈ S ∧ |at0 v i| ≤ b := by
  simp only [Entries, Bounded, coeff_poly]

theorem entries_of_forall_mem (h : ∀ a ∈ v, a ∈ S ∧ |a| ≤ b) : Entries S b v := by
  rw [entries_iff]
  intro i
  by_cases hi : i < v.length
  · exact h _ (at0_mem hi)
  · rw [at0_eq_zero (by omega)]
    exact ⟨S.zero_mem, by simp⟩

theorem entries_of_range (h : ∀ a ∈ v, 0 ≤ a ∧ a ≤ b) : Entries (Subsemiring.nonneg ℤ) b v :=
  entries_of_forall_mem fun a ha => ⟨(h a ha).1, by rw [abs_of_nonneg (h a ha).1]; exact (h a ha).2⟩

theorem Bounded.mono (h : Bounded S b p) (hb : b ≤ c) : Bounded S c p :=
  fun m => ⟨(h m).1, (h m).2.trans (by exact_mod_cast hb)⟩

theorem Bounded.zero : Bounded S b 0 := fun m => by simp

theorem Bounded.add (hp : Bounded S b p) (hq : Bounded S c q) : Bounded S (b + c) (p + q) := by
  intro m
  rw [coeff_add]
  refine ⟨S.add_mem (hp m).1 (hq m).1, (abs_add_le _ _).trans ?_⟩
  push_cast
  exact add_le_add (hp m).2 (hq m).2

theorem Bounded.shift (hp : Bounded S b p) (k : ℕ) : Bounded S b (X ^ k * p) := by
  intro m
  rw [coeff_X_pow_mul']
  split
  · exact hp _
  · exact ⟨S.zero_mem, by simp⟩

theorem Bounded.top (hp : Bounded S b p) : Bounded ⊤ b p := fun m => ⟨trivial, (hp m).2⟩

theorem Entries.take (h : Entries S b v) (k : ℕ) : Entries S b (v.take k) := by
  rw [entries_iff] at h ⊢
  intro i
  rw [at0_take]
  split
  · exact h i
  · exact ⟨S.zero_mem, by simp⟩

theorem Entries.drop (h : Entries S b v) (k : ℕ) : Entries S b (v.drop k) := by
  rw [entries_iff] at h ⊢
  intro i
  rw [at0_drop]
  exact h _

/-- A coefficient of a product is a sum of at most `|v|` products of entries. -/
theorem bounded_mul_left (hv : Entries S b v) (hq : Bounded S c q) :
    Bounded S (v.length * (b * c)) (poly v * q) := by
  induction v with
  | nil => intro m; simp [poly]
  | cons a v ih =>
    rw [entries_iff] at hv
    have ha := hv 0
    have hv' : Entries S b v := entries_iff.mpr fun i => hv (i + 1)
    rw [show poly (a :: v) * q = C a * q + X ^ 1 * (poly v * q) by simp only [poly]; ring,
      show (a :: v).length * (b * c) = b * c + v.length * (b * c) by
        rw [List.length_cons]; ring]
    refine Bounded.add (fun m => ?_) ((ih hv').shift 1)
    rw [coeff_C_mul, abs_mul]
    push_cast
    exact ⟨S.mul_mem ha.1 (hq m).1, mul_le_mul ha.2 (hq m).2 (abs_nonneg _) (by positivity)⟩

theorem bounded_mul_right (hp : Bounded S b p) (hw : Entries S c w) :
    Bounded S (w.length * (b * c)) (p * poly w) := by
  have := bounded_mul_left hw hp
  rwa [mul_comm (poly w), mul_comm c] at this

/-- The product is bounded through the shorter operand. -/
theorem bounded_mul (hv : Entries S b v) (hw : Entries S c w) :
    Bounded S (min v.length w.length * (b * c)) (poly v * poly w) := by
  rcases Nat.le_total v.length w.length with h | h
  · rw [Nat.min_eq_left h]
    exact bounded_mul_left hv hw
  · rw [Nat.min_eq_right h]
    exact bounded_mul_right hv hw

theorem Bounded.at0 (h : Bounded S b (poly v)) (i : ℕ) : at0 v i ∈ S ∧ |at0 v i| ≤ b := by
  have := h i
  rwa [coeff_poly] at this

end Bounds

/-- Some bound holds for every vector. -/
theorem exists_entries (v : Vec) : ∃ b : ℕ, Entries ⊤ b v := by
  induction v with
  | nil => exact ⟨0, Bounded.zero⟩
  | cons a v ih =>
    obtain ⟨b, hb⟩ := ih
    refine ⟨a.natAbs + b, entries_iff.mpr fun i => ⟨trivial, ?_⟩⟩
    cases i with
    | zero =>
      change |a| ≤ _
      push_cast
      omega
    | succ i =>
      have h : |at0 v i| ≤ b := (entries_iff.mp hb i).2
      have ha := abs_nonneg a
      change |at0 v i| ≤ _
      push_cast
      omega

theorem exists_common_entries (v w : Vec) : ∃ b : ℕ, Entries ⊤ b v ∧ Entries ⊤ b w := by
  obtain ⟨b, hb⟩ := exists_entries v
  obtain ⟨c, hc⟩ := exists_entries w
  exact ⟨max b c, hb.mono (Nat.le_max_left b c), hc.mono (Nat.le_max_right b c)⟩

end BigintMultiply.Coefficients
