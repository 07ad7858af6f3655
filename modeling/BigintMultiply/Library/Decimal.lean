import Mathlib.Data.Nat.Digits.Defs
import Mathlib.Tactic.Linarith
import BigintMultiply.Library.Coefficients

/-! Decimal strings and their digit vectors (least significant digit first): the
value of a vector of column sums, the carry pass that turns it into digits, the
search for the leading digit, and the canonical decimal of a number. -/

namespace BigintMultiply.Decimal
open Checked Vectors Coefficients Polynomial

abbrev Str := List Char

/-- `c - '0'`. -/
def digit (c : Char) : Int := (c.toNat : Int) - '0'.toNat

/-- The conversion of an `int` to a `char` of eight bits. -/
def toChar (v : Int) : Char := Char.ofNat (v % 256).toNat

def IsDecimal (s : Str) : Prop := ∀ c ∈ s, c.isDigit = true

instance (s : Str) : Decidable (IsDecimal s) :=
  List.decidableBAll (fun c : Char => c.isDigit = true) s

/-- The digits of `s`, least significant first. -/
def digits (s : Str) : Vec := (s.map digit).reverse

/-- The digits of a decimal string as naturals, least significant first. -/
def places (s : Str) : List Nat := (s.map fun c => c.toNat - '0'.toNat).reverse

/-- The number that the decimal string `s` denotes; 0 for the empty string. -/
def decimalValue (s : Str) : Nat := Nat.ofDigits 10 (places s)

/-- `s` is the decimal of `n`: digits only, and no leading zero unless it is the
single character 0. -/
structure Canonical (s : Str) (n : Nat) : Prop where
  decimal : IsDecimal s
  nonempty : s ≠ []
  noLeadingZero : s.head? = some '0' → s = ['0']
  value : decimalValue s = n

/-- The number with the entries of `v` in its decimal places, digits or not. -/
noncomputable def value (v : Vec) : ℤ := (poly v).eval 10

/-! ## Characters -/

theorem isDigit_iff (c : Char) : c.isDigit = true ↔ 48 ≤ c.toNat ∧ c.toNat ≤ 57 := by
  rw [Char.isDigit, Bool.and_eq_true, decide_eq_true_iff, decide_eq_true_iff]
  rfl

theorem digit_range {c : Char} (h : c.isDigit = true) : 0 ≤ digit c ∧ digit c ≤ 9 := by
  have := (isDigit_iff c).mp h
  have h0 : '0'.toNat = 48 := rfl
  unfold digit
  omega

theorem toNat_toChar (d : Int) (h0 : 0 ≤ d) (h9 : d ≤ 9) :
    ((toChar (48 + d)).toNat : Int) = 48 + d := by
  have h : ∀ i : Fin 10, ((toChar (48 + (i : Int))).toNat : Int) = 48 + (i : Int) := by decide
  obtain ⟨n, rfl⟩ := Int.eq_ofNat_of_zero_le h0
  exact h ⟨n, by omega⟩

theorem digit_toChar (d : Int) (h0 : 0 ≤ d) (h9 : d ≤ 9) : digit (toChar (48 + d)) = d := by
  have h48 : '0'.toNat = 48 := rfl
  rw [digit, toNat_toChar d h0 h9, h48]
  push_cast
  ring

theorem isDigit_toChar (d : Int) (h0 : 0 ≤ d) (h9 : d ≤ 9) : (toChar (48 + d)).isDigit = true := by
  have := toNat_toChar d h0 h9
  rw [isDigit_iff]
  omega

/-- The printed character of a non-negative `int` is never worth more than it. -/
theorem digit_toChar_le (d : Int) (h0 : 0 ≤ d) : digit (toChar (48 + d)) ≤ d := by
  have h48 : '0'.toNat = 48 := rfl
  unfold digit toChar
  rw [Char.toNat_ofNat]
  split
  · omega
  · omega

/-! ## Values -/

@[simp] theorem value_nil : value [] = 0 := by simp [value, poly]

theorem value_cons (a : Int) (v : Vec) : value (a :: v) = a + 10 * value v := by
  simp [value, poly]

theorem value_append (v w : Vec) : value (v ++ w) = value v + 10 ^ v.length * value w := by
  simp [value, poly_append]

/-- Writing one place changes the value by that place alone. -/
theorem value_set (v : Vec) (j : Nat) (a : Int) (h : j < v.length) :
    value (v.set j a) = value v + (a - at0 v j) * 10 ^ j := by
  have hp : poly (v.set j a) = poly v + C (a - at0 v j) * X ^ j := by
    ext i
    rw [coeff_add, coeff_C_mul, coeff_X_pow, coeff_poly, coeff_poly, at0_set v j a i h]
    split
    · subst_vars
      ring
    · ring
  simp [value, hp]

theorem value_convolve (x y : Vec) : value (convolve x y) = value x * value y := by
  simp [value, poly_convolve]

theorem value_resizeTo (v : Vec) (n : Nat) (h : v.length ≤ n) : value (resizeTo v n) = value v := by
  rw [value, poly_resizeTo v n h, value]

theorem value_take_succ (v : Vec) (k : Nat) :
    value (v.take (k + 1)) = value (v.take k) + at0 v k * 10 ^ k := by
  by_cases h : k < v.length
  · simp [value, poly_take_succ v k h]
  · rw [List.take_of_length_le (by omega), List.take_of_length_le (by omega),
      at0_eq_zero (by omega), zero_mul, add_zero]

theorem value_eq_sum (v : Vec) {n : Nat} (h : v.length ≤ n) :
    value v = ∑ i ∈ Finset.range n, at0 v i * 10 ^ i := by
  have htake : ∀ k, value (v.take k) = ∑ i ∈ Finset.range k, at0 v i * 10 ^ i := by
    intro k
    induction k with
    | zero => simp
    | succ k ih => rw [value_take_succ, ih, Finset.sum_range_succ]
  rw [← htake n, List.take_of_length_le h]

/-- Place by place at most, and equal in value: equal in every place. -/
theorem places_eq_of_value_eq {a b v w : Vec} (h : ∀ i, at0 a i + at0 b i ≤ at0 v i + at0 w i)
    (hval : value a + value b = value v + value w) (i : Nat) :
    at0 a i + at0 b i = at0 v i + at0 w i := by
  set n := i + 1 + a.length + b.length + v.length + w.length with hn
  rw [value_eq_sum a (n := n) (by omega), value_eq_sum b (n := n) (by omega),
    value_eq_sum v (n := n) (by omega), value_eq_sum w (n := n) (by omega),
    ← Finset.sum_add_distrib, ← Finset.sum_add_distrib] at hval
  have hle : ∀ j ∈ Finset.range n, at0 a j * 10 ^ j + at0 b j * 10 ^ j ≤
      at0 v j * 10 ^ j + at0 w j * 10 ^ j := by
    intro j _
    rw [← add_mul, ← add_mul]
    exact mul_le_mul_of_nonneg_right (h j) (by positivity)
  have hi := (Finset.sum_eq_sum_iff_of_le hle).mp hval i (Finset.mem_range.mpr (by omega))
  rw [← add_mul, ← add_mul] at hi
  exact mul_right_cancel₀ (by positivity) hi

theorem value_nonneg {v : Vec} (h : ∀ i, 0 ≤ at0 v i) : 0 ≤ value v := by
  rw [value_eq_sum v (le_refl _)]
  exact Finset.sum_nonneg fun i _ => mul_nonneg (h i) (by positivity)

/-- Each place of a non-negative vector is at most its value. -/
theorem place_le_value (v : Vec) (h : ∀ i, 0 ≤ at0 v i) (i : Nat) (hi : i < v.length) :
    at0 v i * 10 ^ i ≤ value v := by
  rw [value_eq_sum v (le_refl _)]
  exact Finset.single_le_sum (fun j _ => mul_nonneg (h j) (by positivity))
    (Finset.mem_range.mpr hi)

theorem value_natCast (L : List ℕ) :
    value (L.map fun d : ℕ => (d : ℤ)) = (Nat.ofDigits 10 L : ℕ) := by
  induction L with
  | nil => simp
  | cons d L ih =>
    rw [List.map_cons, value_cons, ih, Nat.ofDigits_cons]
    push_cast
    ring

/-- The value of a string is the value of its digits. -/
theorem value_digits (s : Str) (h : IsDecimal s) : value (digits s) = decimalValue s := by
  rw [decimalValue, ← value_natCast, digits, places, List.map_reverse, List.map_map]
  congr 2
  refine List.map_congr_left fun c hc => ?_
  have := (isDigit_iff c).mp (h c hc)
  have h0 : '0'.toNat = 48 := rfl
  simp only [digit, Function.comp]
  omega

theorem digits_length (s : Str) : (digits s).length = s.length := by simp [digits]

theorem at0_digits (s : Str) (i : Nat) (h : i < s.length) (hr : s.length - 1 - i < s.length) :
    at0 (digits s) i = digit s[s.length - 1 - i] := by
  rw [at0_eq_getElem (by simpa [digits_length] using h)]
  simp [digits]

/-! ## Uniqueness of the canonical decimal -/

theorem place_lt {s : Str} (h : IsDecimal s) : ∀ d ∈ places s, d < 10 := by
  intro d hd
  obtain ⟨c, hc, rfl⟩ := List.mem_map.mp (List.mem_reverse.mp hd)
  have := (isDigit_iff c).mp (h c hc)
  have h0 : '0'.toNat = 48 := rfl
  omega

theorem getLast_places {c : Char} {s : Str} (h : places (c :: s) ≠ []) :
    (places (c :: s)).getLast h = c.toNat - '0'.toNat := by
  simp [places]

/-- A leading digit of place value zero is the character 0. -/
theorem eq_zero_of_place {c : Char} (h : c.isDigit = true) (h0 : c.toNat - '0'.toNat = 0) :
    c = '0' := by
  have := (isDigit_iff c).mp h
  apply Char.toNat_inj.mp
  have h48 : '0'.toNat = 48 := rfl
  omega

theorem Canonical.eq_of_zero {s : Str} (h : Canonical s 0) : s = ['0'] := by
  cases s with
  | nil => exact absurd rfl h.nonempty
  | cons c s =>
    apply h.noLeadingZero
    have hz := Nat.digits_zero_of_eq_zero (by norm_num) h.value (c.toNat - '0'.toNat)
      (by simp [places])
    rw [eq_zero_of_place (h.decimal c (by simp)) hz]
    rfl

theorem Canonical.places_eq {s : Str} {n : Nat} (h : Canonical s n) (hn : n ≠ 0) :
    places s = Nat.digits 10 n := by
  rw [← h.value, decimalValue, Nat.digits_ofDigits 10 (by norm_num) _ (place_lt h.decimal)]
  intro hne hlast
  cases s with
  | nil => exact h.nonempty rfl
  | cons c s =>
    rw [getLast_places] at hlast
    have hs := h.noLeadingZero (by rw [eq_zero_of_place (h.decimal c (by simp)) hlast]; rfl)
    rw [hs] at h
    exact hn (h.value.symm.trans (by decide))

theorem eq_of_places_eq {s t : Str} (hs : IsDecimal s) (ht : IsDecimal t)
    (h : places s = places t) : s = t := by
  have hm := List.reverse_injective h
  induction s generalizing t with
  | nil => cases t with
    | nil => rfl
    | cons d t => simp at hm
  | cons c s ih => cases t with
    | nil => simp at hm
    | cons d t =>
      have hc := (isDigit_iff c).mp (hs c (by simp))
      have hd := (isDigit_iff d).mp (ht d (by simp))
      have h48 : '0'.toNat = 48 := rfl
      obtain ⟨h1, h2⟩ := List.cons.inj hm
      have h1 : c.toNat - '0'.toNat = d.toNat - '0'.toNat := h1
      have hst := ih (fun e he => hs e (by simp [he])) (fun e he => ht e (by simp [he]))
        (congrArg List.reverse h2) h2
      rw [hst, Char.toNat_inj.mp (by omega : c.toNat = d.toNat)]

/-- **The canonical decimal of a number is unique.** -/
theorem Canonical.unique {s t : Str} {n : Nat} (hs : Canonical s n) (ht : Canonical t n) :
    s = t := by
  by_cases hn : n = 0
  · subst hn
    rw [hs.eq_of_zero, ht.eq_of_zero]
  · exact eq_of_places_eq hs.decimal ht.decimal (by rw [hs.places_eq hn, ht.places_eq hn])

/-- A canonical decimal has as many characters as the number has digits; zero has one. -/
theorem Canonical.length_eq {s : Str} {n : Nat} (h : Canonical s n) :
    s.length = max 1 (Nat.digits 10 n).length := by
  by_cases hn : n = 0
  · subst hn
    rw [h.eq_of_zero]
    simp
  · have hl : s.length = (Nat.digits 10 n).length := by
      rw [← h.places_eq hn]
      simp [places]
    have hpos := List.length_pos_iff.mpr h.nonempty
    omega

/-- `s` without its leading zeros; one character is left when there are only zeros. -/
def withoutLeadingZeros (s : Str) : Str :=
  match s.dropWhile (· == '0') with
  | [] => ['0']
  | c :: t => c :: t

theorem decimalValue_zero_cons (s : Str) : decimalValue ('0' :: s) = decimalValue s := by
  simp [decimalValue, places, Nat.ofDigits_append]

theorem withoutLeadingZeros_canonical {s : Str} (h : IsDecimal s) :
    Canonical (withoutLeadingZeros s) (decimalValue s) := by
  induction s with
  | nil => exact ⟨by decide, List.cons_ne_nil _ _, fun _ => rfl, by decide⟩
  | cons c s ih =>
    unfold withoutLeadingZeros
    by_cases hc : c = '0'
    · subst hc
      rw [decimalValue_zero_cons]
      exact ih fun d hd => h d (by simp [hd])
    · rw [List.dropWhile_cons_of_neg (by simpa using hc)]
      exact ⟨h, List.cons_ne_nil _ _, fun hz => absurd (by simpa using hz) hc, rfl⟩

/-! ## The carry pass -/

/-- The tens of place `k` move to place `k + 1`. -/
def carryStep (v : Vec) (k : Nat) : Vec :=
  (v.set (k + 1) (at0 v (k + 1) + (at0 v k).tdiv 10)).set k ((at0 v k).tmod 10)

/-- The carry steps at places `0, …, k - 1` in turn. -/
def carryPass (v : Vec) : Nat → Vec
  | 0 => v
  | k + 1 => carryStep (carryPass v k) k

/-- After the steps below `k`: the low places are digits, place `k` has its
carry, the places above are untouched, and the value is the one of `v`. -/
structure CarryInv (v : Vec) (c k : Nat) (w : Vec) : Prop where
  length : w.length = v.length
  value : value w = value v
  low : ∀ i < k, 0 ≤ at0 w i ∧ at0 w i ≤ 9
  here : 0 ≤ at0 w k ∧ 9 * at0 w k ≤ 10 * c
  above : ∀ i, k < i → at0 w i = at0 v i

/-- The carry out of a place is at most a ninth of the column bound, so a place
with its carry stays within ten ninths of it. -/
theorem carry_bound {c : Nat} {a b : Int} (ha : 0 ≤ a) (hac : a ≤ c) (hb : 0 ≤ b)
    (hbc : 9 * b ≤ 10 * c) : 0 ≤ a + b.tdiv 10 ∧ 9 * (a + b.tdiv 10) ≤ 10 * c := by
  rw [Int.tdiv_eq_ediv_of_nonneg hb]
  omega

theorem at0_carryStep {w : Vec} {k : Nat} (hk : k + 1 < w.length) (i : Nat) :
    at0 (carryStep w k) i = if i = k then (at0 w k).tmod 10
      else if i = k + 1 then at0 w (k + 1) + (at0 w k).tdiv 10 else at0 w i := by
  rw [carryStep, at0_set _ _ _ _ (by rw [List.length_set]; omega), at0_set _ _ _ _ hk]

theorem value_carryStep {w : Vec} {k : Nat} (hk : k + 1 < w.length) :
    value (carryStep w k) = value w := by
  have hdiv := Int.mul_tdiv_add_tmod (at0 w k) 10
  rw [carryStep, value_set _ _ _ (by rw [List.length_set]; omega), value_set _ _ _ hk,
    at0_set _ _ _ _ hk, if_neg (by omega), pow_succ]
  linear_combination (10 : ℤ) ^ k * hdiv

theorem carryStep_length (w : Vec) (k : Nat) : (carryStep w k).length = w.length := by
  rw [carryStep, List.length_set, List.length_set]

theorem carryStep_inv {v w : Vec} {c k : Nat} (hv : ∀ i, 0 ≤ at0 v i ∧ at0 v i ≤ c)
    (hk : k + 1 < v.length) (h : CarryInv v c k w) : CarryInv v c (k + 1) (carryStep w k) := by
  have hk' : k + 1 < w.length := by rw [h.length]; exact hk
  have hmod : 0 ≤ (at0 w k).tmod 10 ∧ (at0 w k).tmod 10 ≤ 9 := by
    rw [Int.tmod_eq_emod_of_nonneg h.here.1]
    omega
  constructor
  · rw [carryStep_length, h.length]
  · rw [value_carryStep hk', h.value]
  · intro i hi
    rw [at0_carryStep hk']
    by_cases hik : i = k
    · rw [if_pos hik]
      exact hmod
    · rw [if_neg hik, if_neg (by omega)]
      exact h.low i (by omega)
  · rw [at0_carryStep hk', if_neg (by omega), if_pos rfl, h.above (k + 1) (by omega)]
    exact carry_bound (hv _).1 (hv _).2 h.here.1 h.here.2
  · intro i hi
    rw [at0_carryStep hk', if_neg (by omega), if_neg (by omega)]
    exact h.above i (by omega)

theorem carryPass_inv {v : Vec} {c : Nat} (hv : ∀ i, 0 ≤ at0 v i ∧ at0 v i ≤ c) (k : Nat)
    (hk : k < v.length) : CarryInv v c k (carryPass v k) := by
  induction k with
  | zero =>
    have := hv 0
    exact ⟨rfl, rfl, by omega, ⟨this.1, by rw [carryPass]; omega⟩, fun _ _ => rfl⟩
  | succ k ih => exact carryStep_inv hv hk (ih (by omega))

/-- Place `k + 1` receives the tens of place `k`. -/
theorem carryPass_succ {v : Vec} {c : Nat} (hv : ∀ i, 0 ≤ at0 v i ∧ at0 v i ≤ c) {k : Nat}
    (hk : k + 1 < v.length) : at0 (carryPass v (k + 1)) (k + 1) =
      at0 v (k + 1) + (at0 (carryPass v k) k).tdiv 10 := by
  have h := carryPass_inv hv k (by omega)
  rw [carryPass, at0_carryStep (by rw [h.length]; exact hk), if_neg (by omega), if_pos rfl,
    h.above _ (by omega)]

/-- A place only grows until the pass reaches it. -/
theorem le_carryPass {v : Vec} {c : Nat} (hv : ∀ i, 0 ≤ at0 v i ∧ at0 v i ≤ c) {k : Nat}
    (hk : k < v.length) : at0 v k ≤ at0 (carryPass v k) k := by
  cases k with
  | zero => exact le_refl _
  | succ k =>
    have h := (carryPass_inv hv k (by omega)).here.1
    rw [carryPass_succ hv hk, Int.tdiv_eq_ediv_of_nonneg h]
    omega

/-- A loop whose iterations are carry steps, as long as the place written is
non-negative and within ten ninths of the column bound. -/
theorem forLoop_carryPass {v : Vec} {c : Nat} (hv : ∀ i, 0 ≤ at0 v i ∧ at0 v i ≤ c)
    (body : Nat → Vec → Run Vec)
    (hbody : ∀ k, ∀ w : Vec, k + 1 < w.length → 0 ≤ at0 w k →
      0 ≤ at0 w (k + 1) + (at0 w k).tdiv 10 →
      9 * (at0 w (k + 1) + (at0 w k).tdiv 10) ≤ 10 * c → body k w = .ok (carryStep w k)) :
    forLoop (v.length - 1) body v = .ok (carryPass v (v.length - 1)) := by
  refine forLoop_trace (v.length - 1) body (carryPass v) fun k hk => ?_
  have h := carryPass_inv hv k (by omega)
  have hb := carry_bound (hv (k + 1)).1 (hv (k + 1)).2 h.here.1 h.here.2
  rw [← h.above (k + 1) (by omega)] at hb
  exact hbody k _ (by rw [h.length]; omega) h.here.1 hb.1 hb.2

/-- **The carry pass yields digits.** When the value has no more places than the
vector, the last place, which is never reduced, is a digit as well. -/
theorem carryPass_digits {v : Vec} {c : Nat} (hv : ∀ i, 0 ≤ at0 v i ∧ at0 v i ≤ c)
    (hne : 0 < v.length) (hlt : value v < 10 ^ v.length) :
    (carryPass v (v.length - 1)).length = v.length ∧
    value (carryPass v (v.length - 1)) = value v ∧
    ∀ i, 0 ≤ at0 (carryPass v (v.length - 1)) i ∧ at0 (carryPass v (v.length - 1)) i ≤ 9 := by
  obtain ⟨n, hn⟩ : ∃ n, v.length = n + 1 := ⟨v.length - 1, by omega⟩
  rw [hn, Nat.add_sub_cancel]
  have h := carryPass_inv hv n (by omega)
  set w := carryPass v n
  have hw : w.length = n + 1 := by rw [h.length, hn]
  have hnn : ∀ i, 0 ≤ at0 w i := by
    intro i
    rcases Nat.lt_trichotomy i n with h' | rfl | h'
    · exact (h.low i h').1
    · exact h.here.1
    · rw [at0_eq_zero (by omega)]
  have htop : at0 w n ≤ 9 := by
    have hp := place_le_value w hnn n (by omega)
    rw [h.value] at hp
    rw [hn] at hlt
    have h10 : (0 : ℤ) < 10 ^ n := by positivity
    by_contra hc
    have : (10 : ℤ) * 10 ^ n ≤ at0 w n * 10 ^ n := mul_le_mul_of_nonneg_right (by omega) h10.le
    rw [pow_succ] at hlt
    linarith
  refine ⟨hw, h.value, fun i => ?_⟩
  rcases Nat.lt_trichotomy i n with h' | rfl | h'
  · exact h.low i h'
  · exact ⟨h.here.1, htop⟩
  · rw [at0_eq_zero (by omega)]
    omega

theorem value_take_digits {w : Vec} {k : Nat} (h : ∀ i < k, 0 ≤ at0 w i ∧ at0 w i ≤ 9) :
    0 ≤ value (w.take k) ∧ value (w.take k) < 10 ^ k := by
  induction k with
  | zero => simp
  | succ k ih =>
    have hk := h k (by omega)
    have hlow := ih fun i hi => h i (by omega)
    have h10 : (0 : ℤ) ≤ 10 ^ k := by positivity
    have h0 := mul_nonneg hk.1 h10
    have h9 := mul_le_mul_of_nonneg_right hk.2 h10
    rw [value_take_succ, pow_succ]
    constructor
    · linarith
    · linarith

/-- What has reached place `k` is the value of the entries up to `k`. -/
theorem carryInv_value_take {v w : Vec} {c k : Nat} (h : CarryInv v c k w) (hk : k < v.length) :
    value (v.take (k + 1)) = value (w.take k) + at0 w k * 10 ^ k := by
  have hdrop : w.drop (k + 1) = v.drop (k + 1) := by
    refine vec_ext (by simp [h.length]) fun i _ => ?_
    rw [at0_drop, at0_drop, h.above _ (by omega)]
  have hlen := h.length
  have hv := value_append (v.take (k + 1)) (v.drop (k + 1))
  have hw := value_append (w.take (k + 1)) (w.drop (k + 1))
  rw [List.take_append_drop, List.length_take_of_le (by omega)] at hv hw
  rw [hdrop, h.value] at hw
  rw [← value_take_succ]
  linarith

/-- Place `k` with its carry is below `b` exactly when the entries up to `k` are
worth less than `b` units of that place. -/
theorem carryPass_lt_iff {v : Vec} {c : Nat} (hv : ∀ i, 0 ≤ at0 v i ∧ at0 v i ≤ c) {k : Nat}
    (hk : k < v.length) (b : ℤ) :
    at0 (carryPass v k) k < b ↔ value (v.take (k + 1)) < b * 10 ^ k := by
  have h := carryPass_inv hv k hk
  have hlow := value_take_digits h.low
  have h10 : (0 : ℤ) ≤ 10 ^ k := by positivity
  rw [carryInv_value_take h hk]
  constructor
  · intro hb
    have := mul_le_mul_of_nonneg_right (Int.add_one_le_iff.mpr hb) h10
    rw [add_mul, one_mul] at this
    linarith
  · intro hb
    by_contra hc
    have := mul_le_mul_of_nonneg_right (not_lt.mp hc) h10
    linarith

/-- A place below ten has no tens to move. -/
theorem carryStep_eq_self {v : Vec} {k : Nat} (hk : k + 1 < v.length) (h0 : 0 ≤ at0 v k)
    (h10 : at0 v k < 10) : carryStep v k = v := by
  refine vec_ext (carryStep_length v k) fun i _ => ?_
  rw [at0_carryStep hk, Int.tmod_eq_of_lt h0 h10, Int.tdiv_eq_zero_of_lt h0 h10, add_zero]
  split
  · subst_vars
    rfl
  · split
    · subst_vars
      rfl
    · rfl

/-! ## Leading zeros and output -/

/-- `while (idx > 1 && v[idx - 1] == 0) --idx`, from a given `idx`. -/
def stripZeros (v : Vec) : Nat → Run Nat
  | 0 => .ok 0
  | idx + 1 =>
    if idx + 1 > 1 then do
      let d ← load v idx
      if d = 0 then stripZeros v idx else .ok (idx + 1)
    else .ok (idx + 1)

/-- `idx` is where the digits of `v` end: only zeros follow, and the last digit is
not zero unless it is the only one. -/
structure Leading (v : Vec) (n idx : Nat) : Prop where
  le : idx ≤ n
  pos : 0 < n → 0 < idx
  nonzero : 1 < idx → at0 v (idx - 1) ≠ 0
  zeros : ∀ i, idx ≤ i → i < n → at0 v i = 0

theorem stripZeros_ok (v : Vec) (n : Nat) (hn : n ≤ v.length) :
    ∃ idx, stripZeros v n = .ok idx ∧ Leading v n idx := by
  induction n with
  | zero => exact ⟨0, rfl, ⟨by omega, by omega, by omega, by omega⟩⟩
  | succ n ih =>
    by_cases h1 : n + 1 > 1
    · rw [stripZeros, if_pos h1, load_ok (by omega), ok_bind]
      by_cases hd : at0 v n = 0
      · obtain ⟨idx, hs, h⟩ := ih (by omega)
        refine ⟨idx, by rw [if_pos hd, hs], ⟨by have := h.le; omega, fun _ => h.pos (by omega),
          h.nonzero, fun i hi hin => ?_⟩⟩
        rcases Nat.lt_succ_iff_lt_or_eq.mp hin with h' | rfl
        · exact h.zeros i hi h'
        · exact hd
      · exact ⟨n + 1, by rw [if_neg hd], ⟨by omega, by omega, fun _ => hd, by omega⟩⟩
    · exact ⟨n + 1, by rw [stripZeros, if_neg h1], ⟨by omega, by omega, by omega, by omega⟩⟩

/-- The first `idx` digits of `w` as characters, most significant first. -/
def render (w : Vec) (idx : Nat) : Str :=
  (List.range idx).map fun i => toChar (48 + at0 w (idx - 1 - i))

theorem render_length (w : Vec) (idx : Nat) : (render w idx).length = idx := by simp [render]

theorem at0_digits_render (w : Vec) (idx i : Nat) :
    at0 (digits (render w idx)) i = if i < idx then digit (toChar (48 + at0 w i)) else 0 := by
  have hl := render_length w idx
  split
  · rw [at0_digits _ _ (by omega) (by omega)]
    simp only [render, List.length_map, List.length_range, List.getElem_map, List.getElem_range]
    rw [show idx - 1 - (idx - 1 - i) = i by omega]
  · exact at0_eq_zero (by rw [digits_length]; omega)

theorem digits_render (w : Vec) (idx : Nat) (hw : ∀ i, 0 ≤ at0 w i ∧ at0 w i ≤ 9)
    (hi : idx ≤ w.length) : digits (render w idx) = w.take idx := by
  refine vec_ext (by rw [digits_length, render_length, List.length_take_of_le hi]) fun i hlt => ?_
  rw [digits_length, render_length] at hlt
  rw [at0_digits_render, if_pos hlt, at0_take, if_pos hlt, digit_toChar _ (hw i).1 (hw i).2]

/-- **Output.** The digits of `w` up to its leading digit are the canonical
decimal of its value. -/
theorem canonical_render {w : Vec} {idx n : Nat} (hw : ∀ i, 0 ≤ at0 w i ∧ at0 w i ≤ 9)
    (hpos : 0 < w.length) (hl : Leading w w.length idx) (hn : value w = n) :
    Canonical (render w idx) n := by
  have hidx := hl.pos hpos
  have hd : IsDecimal (render w idx) := by
    intro c hc
    obtain ⟨i, _, rfl⟩ := List.mem_map.mp hc
    exact isDigit_toChar _ (hw _).1 (hw _).2
  constructor
  · exact hd
  · simp [render]
    omega
  · intro hhead
    obtain ⟨k, rfl⟩ : ∃ k, idx = k + 1 := ⟨idx - 1, by omega⟩
    have hc : toChar (48 + at0 w k) = '0' := by
      simpa [render, List.range_succ_eq_map] using hhead
    have h0 : at0 w k = 0 := by
      rw [← digit_toChar _ (hw k).1 (hw k).2, hc]
      rfl
    cases k with
    | zero => simp [render, hc]
    | succ k => exact absurd h0 (hl.nonzero (by omega))
  · have hp : value (w.take idx) = value w := by
      have happ := value_append (w.take idx) (w.drop idx)
      rw [List.take_append_drop] at happ
      have hz : poly (w.drop idx) = 0 := by
        ext i
        rw [coeff_poly, at0_drop, coeff_zero]
        by_cases hi : idx + i < w.length
        · exact hl.zeros _ (by omega) hi
        · exact at0_eq_zero (by omega)
      rw [happ, value, value, hz]
      simp
    have := value_digits _ hd
    rw [digits_render w idx hw hl.le, hp, hn] at this
    exact_mod_cast this.symm

/-- Carrying, stripping and printing column sums yields the canonical decimal of
their value. -/
theorem carryPass_render {v : Vec} {c n : Nat} (hv : ∀ i, 0 ≤ at0 v i ∧ at0 v i ≤ c)
    (hne : 0 < v.length) (hn : value v = n) (hlt : n < 10 ^ v.length) :
    ∃ idx, stripZeros (carryPass v (v.length - 1)) v.length = .ok idx ∧ 0 < idx ∧ idx ≤ v.length ∧
      Canonical (render (carryPass v (v.length - 1)) idx) n := by
  obtain ⟨hl, hval, hdig⟩ := carryPass_digits hv hne (by rw [hn]; exact_mod_cast hlt)
  obtain ⟨idx, hs, hlead⟩ := stripZeros_ok (carryPass v (v.length - 1)) v.length hl.ge
  exact ⟨idx, hs, hlead.pos hne, hlead.le,
    canonical_render hdig (by omega) (by rwa [hl]) (by rw [hval, hn])⟩

theorem entries_digits {s : Str} (h : IsDecimal s) :
    Entries (Subsemiring.nonneg ℤ) 9 (digits s) := by
  refine entries_of_forall_mem fun a ha => ?_
  obtain ⟨c, hc, rfl⟩ := List.mem_map.mp (List.mem_reverse.mp ha)
  have := digit_range (h c hc)
  exact ⟨this.1, abs_le.mpr ⟨by omega, this.2⟩⟩

theorem decimalValue_lt {s : Str} (h : IsDecimal s) : decimalValue s < 10 ^ s.length := by
  have := Nat.ofDigits_lt_base_pow_length (by norm_num) (place_lt h)
  simpa [decimalValue, places] using this

end BigintMultiply.Decimal
