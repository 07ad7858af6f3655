import BigintMultiply.Utils

/-! Sequential Karatsuba, `seq_karatsuba.cpp`.

* `recurse_karatsuba_ok`: on lengths `m * 2 ^ j` with `m ≤ 64` the run computes
  the product, with every call and every value inside the stated bounds;
* `karatsubaMulVector_domain`: over exact integers those are the lengths on
  which the run stays in bounds;
* `karatsubaMulVector_growth`: on `2 ^ p` digits every value is non-negative and
  at most `81 * 2 ^ (2 * p - 6)`. -/

namespace BigintMultiply.SeqKaratsuba
open Checked Vectors Coefficients Decimal Naive Utils Polynomial

def karatsubaThreshold : Nat := 64

/-- An iteration of the loop that forms the half sums. -/
def halfSumBody (M : Machine) (Xl Xr Yl Yr : Vec) (i : Nat) (s : Vec × Vec) : Run (Vec × Vec) := do
  let Xlr ← store s.1 i (← M.longVal ((← load Xl i) + (← load Xr i)))
  let Ylr ← store s.2 i (← M.longVal ((← load Yl i) + (← load Yr i)))
  .ok (Xlr, Ylr)

/-- An iteration of the loop that takes the outer products from `P3`. -/
def crossBody (M : Machine) (P1 P2 : Vec) (i : Nat) (P3 : Vec) : Run Vec := do
  let s ← M.longVal ((← load P2 i) + (← load P1 i))
  store P3 i (← M.longVal ((← load P3 i) - s))

/-- The body of `karatsuba_mul_vector`, with `rec` for its recursive calls. -/
def karatsubaBody (M : Machine) (rec : Vec → Vec → Run Vec) (x y : Vec) : Run Vec := do
  let len := x.length
  let res := zeros (2 * len)
  if len ≤ karatsubaThreshold then naiveMulVector M x y
  else
    let k := len / 2
    let Xr ← slice x 0 k
    let Xl ← slice x k x.length
    let Yr ← slice y 0 k
    let Yl ← slice y k y.length
    let P1 ← rec Xl Yl
    let P2 ← rec Xr Yr
    let (Xlr, Ylr) ← intLoop M k (halfSumBody M Xl Xr Yl Yr) (zeros k, zeros k)
    let P3 ← rec Xlr Ylr
    let P3 ← intLoop M len (crossBody M P1 P2) P3
    let res ← intLoop M len (fun i res => do store res i (← load P2 i)) res
    let res ← forRange len (2 * len) (fun i res => do store res i (← load P1 (i - len))) res
    forRange k (len + k) (fun i res => do
      store res i (← M.longVal ((← load res i) + (← load P3 (i - k))))) res

/-- `karatsuba_mul_vector`. Each call at least halves lengths above 64, so the
depth of the recursion stays below the fuel. -/
def karatsubaMulVector (M : Machine) (x y : Vec) : Run Vec :=
  recurse anyCall (karatsubaBody M) (x.length + 1) 0 x y

/-- `karatsuba_mul_string`. The source also doubles a `pow2` that it does not use. -/
def karatsubaMulString (M : Machine) : Str → Str → ForkJoin.Prog Var Str :=
  mulString karatsubaThreshold (fun x y => .lift (karatsubaMulVector M x y)) M

/-! ## Lengths -/

/-- The lengths whose halvings above the threshold are all even. -/
def HalvesEvenly (n : Nat) : Prop := ∃ m j, m ≤ karatsubaThreshold ∧ n = m * 2 ^ j

theorem halvesEvenly_two_pow (p : Nat) : HalvesEvenly (2 ^ p) := ⟨1, p, by decide, by simp⟩

theorem halvesEvenly_small {n : Nat} (h : n ≤ 64) : HalvesEvenly n := ⟨n, 0, h, by simp⟩

/-- There are no more halvings than the length has entries. -/
theorem HalvesEvenly.exists_le {n : Nat} (h : HalvesEvenly n) :
    ∃ m j, m ≤ karatsubaThreshold ∧ n = m * 2 ^ j ∧ j ≤ n := by
  obtain ⟨m, j, hm, rfl⟩ := h
  rcases Nat.eq_zero_or_pos m with rfl | hpos
  · exact ⟨0, 0, hm, by simp, Nat.zero_le _⟩
  · have hj : j < 2 ^ j := Nat.lt_two_pow_self
    exact ⟨m, j, hm, rfl, hj.le.trans (Nat.le_mul_of_pos_left _ hpos)⟩

/-- Above the threshold the form passes to the half, which is exact. -/
theorem halvesEvenly_iff {n : Nat} (h : 64 < n) :
    HalvesEvenly n ↔ n % 2 = 0 ∧ HalvesEvenly (n / 2) := by
  constructor
  · rintro ⟨m, j, hm, rfl⟩
    cases j with
    | zero =>
      have : m ≤ 64 := hm
      omega
    | succ j =>
      rw [pow_succ, ← mul_assoc]
      exact ⟨by omega, m, j, hm, by omega⟩
  · rintro ⟨he, m, j, hm, hn⟩
    exact ⟨m, j + 1, hm, by rw [pow_succ, ← mul_assoc, ← hn]; omega⟩

/-! ## The combine step

`x` and `y` have even length `2 * k` and are cut into low halves `Xr`, `Yr` and
high halves `Xl`, `Yl`. -/

theorem half_lengths {v : Vec} {k : Nat} (h : v.length = 2 * k) :
    (v.drop k).length = k ∧ (v.take k).length = k := by
  rw [List.length_drop, List.length_take]
  omega

/-- The half sums. -/
def halfSum (x : Vec) (k : Nat) : Vec :=
  tabulate k fun i => at0 (x.drop k) i + at0 (x.take k) i

@[simp] theorem halfSum_length (x : Vec) (k : Nat) : (halfSum x k).length = k := tabulate_length k _

theorem poly_halfSum {x : Vec} {k : Nat} (hx : x.length = 2 * k) :
    poly (halfSum x k) = poly (x.drop k) + poly (x.take k) := by
  refine poly_eq_of_at0 (fun i hi => ?_) fun i hi => ?_
  · rw [halfSum_length] at hi
    rw [coeff_add, coeff_poly, coeff_poly, halfSum, at0_tabulate, if_pos hi]
  · rw [halfSum_length] at hi
    rw [coeff_add, coeff_poly, coeff_poly, at0_drop, at0_take, at0_eq_zero (by omega),
      if_neg (by omega), add_zero]

/-- The bound of the half sums: one entry of each half. -/
theorem bounded_halves {S : Subsemiring ℤ} {c : ℕ} {x : Vec} (h : Entries S c x) (k : ℕ) :
    Bounded S (c + c) (poly (x.drop k) + poly (x.take k)) :=
  (h.drop k).add (h.take k)

/-- A machine that holds the admissible values up to `B` holds every coefficient of
a polynomial that `B` bounds. -/
theorem long_coeff {M : Machine} {S : Subsemiring ℤ} {b B : ℕ} {p : ℤ[X]}
    (hM : ∀ v ∈ S, |v| ≤ B → M.long v = true) (hp : Bounded S b p) (hb : b ≤ B) (i : Nat) :
    M.long (p.coeff i) = true :=
  hM _ (hp i).1 ((hp i).2.trans (by exact_mod_cast hb))

/-- It holds the half sums, when `B` bounds the values of the call. -/
theorem long_halves {M : Machine} {S : Subsemiring ℤ} {c k : ℕ} {v : Vec}
    (hM : ∀ v ∈ S, |v| ≤ (4 * (k * (c * c)) : ℕ) → M.long v = true) (hk : 0 < k)
    (h : Entries S c v) (i : Nat) : M.long (at0 (v.drop k) i + at0 (v.take k) i) = true := by
  have hcc : c ≤ c * c := Nat.le_mul_self c
  have hkcc : c * c ≤ k * (c * c) := Nat.le_mul_of_pos_left _ hk
  have hsum := long_coeff hM (bounded_halves h k) (by omega) i
  rwa [coeff_add, coeff_poly, coeff_poly] at hsum

theorem entries_halfSum {S : Subsemiring ℤ} {c k : ℕ} {x : Vec} (hx : x.length = 2 * k)
    (h : Entries S c x) : Entries S (2 * c) (halfSum x k) := by
  have hb := bounded_halves h k
  rwa [← poly_halfSum hx, ← two_mul] at hb

/-- `P3` without the outer products. -/
def cross (P1 P2 P3 : Vec) : Vec :=
  tabulate P3.length fun i => at0 P3 i - at0 P1 i - at0 P2 i

theorem cross_length (P1 P2 P3 : Vec) : (cross P1 P2 P3).length = P3.length := tabulate_length _ _

theorem poly_cross {P1 P2 P3 : Vec} (h1 : P1.length ≤ P3.length) (h2 : P2.length ≤ P3.length) :
    poly (cross P1 P2 P3) = poly P3 - poly P1 - poly P2 := by
  refine poly_eq_of_at0 (fun i hi => ?_) fun i hi => ?_
  · rw [cross, at0_tabulate, if_pos (by rwa [cross_length] at hi), coeff_sub, coeff_sub, coeff_poly,
      coeff_poly, coeff_poly]
  · rw [cross_length] at hi
    rw [coeff_sub, coeff_sub, coeff_poly, coeff_poly, coeff_poly, at0_eq_zero hi,
      at0_eq_zero (by omega), at0_eq_zero (by omega), sub_zero, sub_zero]

/-- The products of the two halves and of the half sums, on length `2 * k`. -/
structure HalfProducts (k : Nat) (x y P1 P2 P3 : Vec) : Prop where
  x_length : x.length = 2 * k
  y_length : y.length = 2 * k
  high : P1 = convolve (x.drop k) (y.drop k)
  low : P2 = convolve (x.take k) (y.take k)
  sums : P3 = convolve (halfSum x k) (halfSum y k)

namespace HalfProducts

variable {k : Nat} {x y P1 P2 P3 : Vec} (h : HalfProducts k x y P1 P2 P3)

include h

theorem lengths : P1.length = 2 * k ∧ P2.length = 2 * k ∧ P3.length = 2 * k := by
  have hx := h.x_length
  have hy := h.y_length
  rw [h.high, h.low, h.sums]
  simp only [convolve_length, List.length_drop, List.length_take, halfSum_length]
  omega

theorem cross_eq : poly (cross P1 P2 P3) = poly P3 - poly P1 - poly P2 := by
  obtain ⟨h1, h2, h3⟩ := h.lengths
  exact poly_cross (by omega) (by omega)

/-- The cross term that is left of the product of the half sums. -/
theorem cross_term : poly (cross P1 P2 P3) =
    poly (x.drop k) * poly (y.take k) + poly (x.take k) * poly (y.drop k) := by
  rw [h.cross_eq, h.high, h.low, h.sums, poly_convolve, poly_convolve, poly_convolve,
    poly_halfSum h.x_length, poly_halfSum h.y_length]
  ring

/-- **Karatsuba's identity** at `X ^ k`. -/
theorem identity : poly x * poly y =
    poly P2 + X ^ (2 * k) * poly P1 + X ^ k * poly (cross P1 P2 P3) := by
  have hx := h.x_length
  have hy := h.y_length
  rw [h.cross_term, h.low, h.high, poly_convolve, poly_convolve, poly_split x k (by omega),
    poly_split y k (by omega), two_mul, pow_add]
  ring

/-- The outer products are sums of `k` products of entries, the cross term of twice as many. -/
theorem bounded {S : Subsemiring ℤ} {c : ℕ} (hx : Entries S c x) (hy : Entries S c y) :
    Bounded S (k * (c * c)) (poly P1) ∧ Bounded S (k * (c * c)) (poly P2) ∧
      Bounded S (k * (c * c) + k * (c * c)) (poly (cross P1 P2 P3)) := by
  have hmul : ∀ {a b : Vec}, a.length = k → Entries S c a → Entries S c b →
      Bounded S (k * (c * c)) (poly a * poly b) := fun ha hae hbe => by
    have hb := bounded_mul_left hae hbe
    rwa [ha] at hb
  obtain ⟨hd, ht⟩ := half_lengths h.x_length
  rw [h.cross_term, h.high, h.low, poly_convolve, poly_convolve]
  exact ⟨hmul hd (hx.drop k) (hy.drop k), hmul ht (hx.take k) (hy.take k),
    (hmul hd (hx.drop k) (hy.take k)).add (hmul ht (hx.take k) (hy.drop k))⟩

end HalfProducts

/-! ## The loops of the body -/

section Loops

variable {M : Machine} {k : Nat} (hI : ∀ i ≤ 2 * k, M.int ((i : Nat) : Int) = true)

include hI in
theorem halfSums_ok {Xl Xr Yl Yr : Vec} (hXl : k ≤ Xl.length) (hXr : k ≤ Xr.length)
    (hYl : k ≤ Yl.length) (hYr : k ≤ Yr.length) (hMx : ∀ i, M.long (at0 Xl i + at0 Xr i) = true)
    (hMy : ∀ i, M.long (at0 Yl i + at0 Yr i) = true) :
    intLoop M k (halfSumBody M Xl Xr Yl Yr) (zeros k, zeros k) =
      .ok (tabulate k fun i => at0 Xl i + at0 Xr i, tabulate k fun i => at0 Yl i + at0 Yr i) := by
  let gx := fun i => at0 Xl i + at0 Xr i
  let gy := fun i => at0 Yl i + at0 Yr i
  have ht := intLoop_trace M k (halfSumBody M Xl Xr Yl Yr)
    (fun i => (splice (zeros k) 0 i gx, splice (zeros k) 0 i gy))
    (fun i hi => hI i (by omega)) (fun i hi => by
      have hsx := splice_succ (zeros k) 0 i gx (by simpa using hi)
      have hsy := splice_succ (zeros k) 0 i gy (by simpa using hi)
      rw [Nat.zero_add] at hsx hsy
      rw [halfSumBody, load_ok (by omega), ok_bind, load_ok (by omega), ok_bind,
        longVal_ok (hMx i), ok_bind, store_ok _ (by simpa using hi), ok_bind, load_ok (by omega),
        ok_bind, load_ok (by omega), ok_bind, longVal_ok (hMy i), ok_bind,
        store_ok _ (by simpa using hi), ok_bind, ← hsx, ← hsy])
  have hall : ∀ g : Nat → Int, splice (zeros k) 0 k g = tabulate k g := by
    intro g
    simpa using splice_all (zeros k) g
  simp only [splice_zero, hall] at ht
  exact ht

include hI in
/-- `n` iterations take the outer products from the first `n` entries of `P3`. -/
theorem cross_ok {P1 P2 P3 : Vec} {n : Nat} (hn : n ≤ 2 * k) (h1 : n ≤ P1.length)
    (h2 : n ≤ P2.length) (h3 : n ≤ P3.length) (hs : ∀ i, M.long (at0 P2 i + at0 P1 i) = true)
    (hd : ∀ i, M.long (at0 P3 i - (at0 P2 i + at0 P1 i)) = true) :
    intLoop M n (crossBody M P1 P2) P3 =
      .ok (splice P3 0 n fun i => at0 P3 i - (at0 P2 i + at0 P1 i)) := by
  refine intLoop_splice M P3 0 n _ _ (fun i hi => hI i (by omega)) (by omega)
    fun i hi w hw hwi => ?_
  rw [Nat.zero_add] at hwi
  rw [crossBody, load_ok (by omega), ok_bind, load_ok (by omega), ok_bind, longVal_ok (hs i),
    ok_bind, load_ok (by omega), ok_bind, hwi, longVal_ok (hd i), ok_bind, Nat.zero_add,
    store_ok _ (by omega)]

include hI in
/-- The outer products fill `res` from both ends. -/
theorem outer_ok {P1 P2 : Vec} (h1 : P1.length = 2 * k) (h2 : P2.length = 2 * k) :
    (do
      let res ← intLoop M (2 * k) (fun i res => do store res i (← load P2 i)) (zeros (2 * (2 * k)))
      forRange (2 * k) (2 * (2 * k)) (fun i res => do store res i (← load P1 (i - 2 * k))) res) =
      .ok (P2 ++ P1) := by
  have hlow := intLoop_splice M (zeros (2 * (2 * k))) 0 (2 * k) (at0 P2)
    (fun i res => do store res i (← load P2 i)) hI (by simp; omega) (fun i hi w hw _ => by
      rw [load_ok (by omega), ok_bind, Nat.zero_add, store_ok _ (by rw [hw, zeros_length]; omega)])
  rw [hlow, ok_bind, forRange, show 2 * (2 * k) - 2 * k = 2 * k by omega]
  set low := splice (zeros (2 * (2 * k))) 0 (2 * k) (at0 P2)
  have hl : low.length = 2 * (2 * k) := by simp [low]
  rw [forLoop_splice low (2 * k) (2 * k) (at0 P1) _ (by omega) (fun i hi w hw _ => by
    rw [Nat.add_sub_cancel_left, load_ok (by omega), ok_bind, store_ok _ (by omega)])]
  congr 1
  refine vec_ext (by simp [hl, h1, h2]; omega) fun i hi => ?_
  rw [splice_length, hl] at hi
  rw [at0_splice _ _ _ _ _ (by omega), at0_append]
  by_cases h : i < 2 * k
  · rw [if_neg (by omega), if_pos (by omega), at0_splice _ _ _ _ _ (by simp; omega),
      if_pos (by omega), Nat.sub_zero]
  · rw [if_pos (by omega), if_neg (by omega), h2]

/-- The cross term is added in the middle. -/
theorem middle_ok {res P3 : Vec} (hr : res.length = 2 * (2 * k)) (h3 : P3.length = 2 * k)
    (hM : ∀ j, M.long (at0 res (k + j) + at0 P3 j) = true) :
    forRange k (2 * k + k) (fun i res => do
      store res i (← M.longVal ((← load res i) + (← load P3 (i - k))))) res =
      .ok (addAt res k P3) := by
  rw [forRange, Nat.add_sub_cancel, ← splice_eq_addAt res P3 k (by omega), h3]
  refine forLoop_splice res k (2 * k) _ _ (by omega) fun i hi w hw hwi => ?_
  rw [load_ok (by omega), ok_bind, Nat.add_sub_cancel_left, load_ok (by omega), ok_bind, hwi,
    longVal_ok (hM i), ok_bind, store_ok _ (by omega)]

end Loops

/-- One call on an even length above the threshold, whose recursive calls return
the products, returns the product. -/
theorem karatsubaBody_ok {M : Machine} {S : Subsemiring ℤ} {c k : ℕ}
    {rec : Vec → Vec → Run Vec} {x y : Vec} (hx : x.length = 2 * k) (hy : y.length = 2 * k)
    (hk : karatsubaThreshold < 2 * k) (hxe : Entries S c x) (hye : Entries S c y)
    (hM : ∀ v ∈ S, |v| ≤ (4 * (k * (c * c)) : ℕ) → M.long v = true)
    (hI : ∀ i ≤ 2 * k, M.int ((i : Nat) : Int) = true)
    (h1 : rec (x.drop k) (y.drop k) = .ok (convolve (x.drop k) (y.drop k)))
    (h2 : rec (x.take k) (y.take k) = .ok (convolve (x.take k) (y.take k)))
    (h3 : rec (halfSum x k) (halfSum y k) = .ok (convolve (halfSum x k) (halfSum y k))) :
    karatsubaBody M rec x y = .ok (convolve x y) := by
  have hk0 : 64 < 2 * k := hk
  obtain ⟨hdx, htx⟩ := half_lengths hx
  obtain ⟨hdy, hty⟩ := half_lengths hy
  set P1 := convolve (x.drop k) (y.drop k) with hP1
  set P2 := convolve (x.take k) (y.take k) with hP2
  set P3 := convolve (halfSum x k) (halfSum y k) with hP3
  have hp : HalfProducts k x y P1 P2 P3 := ⟨hx, hy, hP1, hP2, hP3⟩
  obtain ⟨hl1, hl2, hl3⟩ := hp.lengths
  obtain ⟨hb1, hb2, hbc⟩ := hp.bounded hxe hye
  -- every value of this call is a coefficient of a bounded polynomial
  have hhalf : ∀ v : Vec, Entries S c v →
      ∀ i, M.long (at0 (v.drop k) i + at0 (v.take k) i) = true := fun v hv =>
    long_halves hM (by omega) hv
  have hsum : ∀ i, M.long (at0 P2 i + at0 P1 i) = true := by
    intro i
    have := long_coeff hM (hb2.add hb1) (by omega) i
    rwa [coeff_add, coeff_poly, coeff_poly] at this
  have hdiff : ∀ i, M.long (at0 P3 i - (at0 P2 i + at0 P1 i)) = true := by
    intro i
    have := long_coeff hM hbc (by omega) i
    rwa [hp.cross_eq, coeff_sub, coeff_sub, coeff_poly, coeff_poly, coeff_poly, sub_sub,
      add_comm (at0 P1 i)] at this
  -- the vector that the combine loops leave
  have hcl : (cross P1 P2 P3).length = 2 * k := (cross_length _ _ _).trans hl3
  have hcr : splice P3 0 (2 * k) (fun i => at0 P3 i - (at0 P2 i + at0 P1 i)) = cross P1 P2 P3 := by
    rw [← hl3, splice_all, cross]
    simp only [sub_sub, add_comm]
  have hpr : poly (addAt (P2 ++ P1) k (cross P1 P2 P3)) = poly x * poly y := by
    rw [poly_addAt _ _ _ (by rw [List.length_append]; omega), poly_append, hl2, hp.identity]
  have hres : ∀ j, M.long (at0 (P2 ++ P1) (k + j) + at0 (cross P1 P2 P3) j) = true := by
    intro j
    have hbxy := bounded_mul_left hxe hye
    rw [Nat.add_comm k j, at0_add_at0 _ _ _ _ (by rw [List.length_append]; omega), ← coeff_poly,
      hpr]
    exact long_coeff hM hbxy (by rw [hx, mul_assoc]; omega) _
  rw [karatsubaBody, if_neg (by rw [hx]; exact Nat.not_le.mpr hk),
    show x.length / 2 = k by rw [hx]; omega]
  dsimp only
  rw [slice_take x k (by omega), ok_bind, slice_drop x k (by omega), ok_bind,
    slice_take y k (by omega), ok_bind, slice_drop y k (by omega), ok_bind, h1, ok_bind, h2,
    ok_bind, halfSums_ok hI hdx.ge htx.ge hdy.ge hty.ge (hhalf x hxe) (hhalf y hye), ok_bind]
  dsimp only
  rw [← halfSum, ← halfSum, h3, ok_bind, hx,
    cross_ok hI (Nat.le_refl _) hl1.ge hl2.ge hl3.ge hsum hdiff, ok_bind, hcr, ← bind_assoc,
    outer_ok hI hl1 hl2, ok_bind, middle_ok (by rw [List.length_append]; omega) hcl hres,
    eq_convolve (by rw [addAt_length, List.length_append]; omega) hpr]

theorem karatsubaBody_leaf (M : Machine) (rec : Vec → Vec → Run Vec) {x : Vec} (y : Vec)
    (h : x.length ≤ karatsubaThreshold) : karatsubaBody M rec x y = naiveMulVector M x y := by
  rw [karatsubaBody, if_pos h]

/-! ## The recursion -/

/-- The bound `m * 4 ^ (j + 1) * c ^ 2` covers a leaf of length `m * 2 ^ (j + 1)`, the
values of a call on this length and, with entries twice as large, its halves. -/
theorem halving_bound {m j c B : ℕ} (hB : m * 4 ^ (j + 1) * (c * c) ≤ B) :
    m * 2 ^ (j + 1) * (c * c) ≤ B ∧ 4 * (m * 2 ^ j * (c * c)) ≤ B ∧
      ∀ c' ≤ 2 * c, m * 4 ^ j * (c' * c') ≤ B := by
  have h24 : m * 2 ^ j * (c * c) ≤ m * 4 ^ j * (c * c) :=
    Nat.mul_le_mul_right _ (Nat.mul_le_mul_left m (Nat.pow_le_pow_left (by omega) j))
  have hB4 : 4 * (m * 4 ^ j * (c * c)) ≤ B := by
    rw [pow_succ] at hB
    linarith
  refine ⟨?_, by omega, fun c' hc => ?_⟩
  · rw [pow_succ]
    linarith
  · calc m * 4 ^ j * (c' * c') ≤ m * 4 ^ j * (2 * c * (2 * c)) :=
          Nat.mul_le_mul_left _ (Nat.mul_le_mul hc hc)
      _ = 4 * (m * 4 ^ j * (c * c)) := by ring
      _ ≤ B := hB4

/-- **Karatsuba on lengths `m * 2 ^ j`.** If the machine holds all admissible
values up to `m * 4 ^ j * c ^ 2` and the observer accepts vectors of length
`m * 2 ^ (j - e)` with entries up to `2 ^ e * c` at depth `e` of the recursion,
the run returns the product. -/
theorem recurse_karatsuba_ok {M : Machine} {S : Subsemiring ℤ} {m B : ℕ}
    (hm : m ≤ karatsubaThreshold) (hM : ∀ v ∈ S, |v| ≤ B → M.long v = true)
    (ok : Nat → Vec → Vec → Bool) (j c d fuel : ℕ) (hf : j < fuel)
    (hB : m * 4 ^ j * (c * c) ≤ B) (hI : ∀ i ≤ m * 2 ^ j, M.int ((i : Nat) : Int) = true)
    {x y : Vec} (hx : x.length = m * 2 ^ j) (hy : y.length = m * 2 ^ j)
    (hxe : Entries S c x) (hye : Entries S c y)
    (hok : ∀ e ≤ j, ∀ u v : Vec, u.length = m * 2 ^ (j - e) → v.length = m * 2 ^ (j - e) →
      Entries S (2 ^ e * c) u → Entries S (2 ^ e * c) v → ok (d + e) u v = true) :
    recurse ok (karatsubaBody M) fuel d x y = .ok (convolve x y) := by
  induction j generalizing c d fuel x y with
  | zero =>
    cases fuel with
    | zero => omega
    | succ f =>
      have hlen : x.length ≤ karatsubaThreshold := by rw [hx, pow_zero, mul_one]; exact hm
      have hok0 : ok d x y = true :=
        hok 0 (Nat.le_refl 0) x y hx hy (by simpa using hxe) (by simpa using hye)
      rw [recurse_succ _ _ _ _ _ _ hok0, karatsubaBody_leaf M _ y hlen]
      refine naiveMulVector_ok (hy.trans hx.symm) hxe hye fun v hv hvb => hM v hv (hvb.trans ?_)
      rw [hx]
      exact_mod_cast hB
  | succ j ih =>
    cases fuel with
    | zero => omega
    | succ f =>
      have hok0 : ok d x y = true :=
        hok 0 (Nat.zero_le _) x y hx hy (by simpa using hxe) (by simpa using hye)
      rw [recurse_succ _ _ _ _ _ _ hok0]
      obtain ⟨hleaf, hcall, hhalf⟩ := halving_bound hB
      by_cases hlen : x.length ≤ karatsubaThreshold
      · rw [karatsubaBody_leaf M _ y hlen]
        refine naiveMulVector_ok (hy.trans hx.symm) hxe hye fun v hv hvb => hM v hv (hvb.trans ?_)
        rw [hx]
        exact_mod_cast hleaf
      · set k := m * 2 ^ j with hk
        have hpow : m * 2 ^ (j + 1) = 2 * k := by rw [pow_succ, hk]; ring
        have hx2 : x.length = 2 * k := hx.trans hpow
        have hy2 : y.length = 2 * k := hy.trans hpow
        -- the observer's bound of a child at depth e is the one of depth e + 1
        have hchild : ∀ {c' : ℕ} {u v : Vec}, c' ≤ 2 * c → u.length = k → v.length = k →
            Entries S c' u → Entries S c' v →
            recurse ok (karatsubaBody M) f (d + 1) u v = .ok (convolve u v) := by
          intro c' u v hc hu hv hue hve
          refine ih c' (d + 1) f (by omega) (hhalf c' hc) (fun i hi => hI i (by rw [hpow]; omega))
            hu hv hue hve fun e he u v hu hv hue hve => ?_
          rw [Nat.add_assoc, Nat.add_comm 1 e]
          have hce : 2 ^ e * c' ≤ 2 ^ (e + 1) * c := by
            rw [pow_succ, mul_assoc]
            exact Nat.mul_le_mul_left _ hc
          refine hok (e + 1) (by omega) u v ?_ ?_ (hue.mono hce) (hve.mono hce)
          · rw [hu, Nat.add_sub_add_right]
          · rw [hv, Nat.add_sub_add_right]
        obtain ⟨hdx, htx⟩ := half_lengths hx2
        obtain ⟨hdy, hty⟩ := half_lengths hy2
        exact karatsubaBody_ok hx2 hy2 (by rw [← hx2]; omega) hxe hye
          (fun v hv hvb => hM v hv (hvb.trans (by exact_mod_cast hcall)))
          (fun i hi => hI i (by rw [hpow]; omega))
          (hchild (by omega) hdx hdy (hxe.drop k) (hye.drop k))
          (hchild (by omega) htx hty (hxe.take k) (hye.take k))
          (hchild (Nat.le_refl _) (halfSum_length _ _) (halfSum_length _ _)
            (entries_halfSum hx2 hxe) (entries_halfSum hy2 hye))

/-- Over exact integers every length `m * 2 ^ j` is multiplied. -/
theorem recurse_karatsuba_exact {n d fuel : Nat} (hn : HalvesEvenly n) (hf : n < fuel)
    {x y : Vec} (hx : x.length = n) (hy : y.length = n) :
    recurse anyCall (karatsubaBody .exact) fuel d x y = .ok (convolve x y) := by
  obtain ⟨b, hbx, hby⟩ := exists_common_entries x y
  obtain ⟨m, j, hm, rfl, hj⟩ := hn.exists_le
  exact recurse_karatsuba_ok hm (fun _ _ _ => rfl) anyCall j _ d fuel (by omega) (Nat.le_refl _)
    (fun _ _ => rfl) hx hy hbx hby fun _ _ _ _ _ _ _ _ => rfl

/-! ## Lengths outside the domain -/

/-- A fault of the first recursive call is the fault of the call. -/
theorem karatsubaBody_error {M : Machine} {rec : Vec → Vec → Run Vec} {x y : Vec} {k : Nat}
    {e : Fault} (hx : x.length = 2 * k) (hy : y.length = 2 * k) (hk : karatsubaThreshold < 2 * k)
    (h : rec (x.drop k) (y.drop k) = .error e) : karatsubaBody M rec x y = .error e := by
  rw [karatsubaBody, if_neg (by rw [hx]; exact Nat.not_le.mpr hk),
    show x.length / 2 = k by rw [hx]; omega]
  dsimp only
  rw [slice_take x k (by omega), ok_bind, slice_drop x k (by omega), ok_bind,
    slice_take y k (by omega), ok_bind, slice_drop y k (by omega), ok_bind, h, error_bind]

/-- The loop that leaves the cross term reads past the end of a low product that
is one entry short. -/
theorem cross_error {P1 P2 P3 : Vec} {k : Nat} (h1 : 2 * k ≤ P1.length) (h2 : P2.length = 2 * k)
    (h3 : 2 * k ≤ P3.length) :
    intLoop .exact (2 * k + 1) (crossBody .exact P1 P2) P3 = .error .outOfBounds := by
  have hfirst := cross_ok (M := .exact) (k := k) (fun _ _ => rfl) (Nat.le_refl _) h1 h2.ge h3
    (fun _ => rfl) (fun _ => rfl)
  refine forLoop_error _ (2 * k) _ _ _ _ (by omega) hfirst ?_
  rw [crossBody, load_error h2.le, error_bind, error_bind]

/-- On an odd length above the threshold the loop that leaves the cross term
reads one entry past the end of the low product. -/
theorem karatsubaBody_odd {rec : Vec → Vec → Run Vec} {x y : Vec} {k : Nat}
    (hx : x.length = 2 * k + 1) (hy : y.length = 2 * k + 1) (hk : karatsubaThreshold < 2 * k + 1)
    (hrec : ∀ u v : Vec, u.length = v.length → u.length < x.length →
      rec u v = .error .outOfBounds ∨ ∃ r, rec u v = .ok r ∧ r.length = 2 * u.length) :
    karatsubaBody .exact rec x y = .error .outOfBounds := by
  have hk0 : 64 < 2 * k + 1 := hk
  have hdx : (x.drop k).length = k + 1 := by rw [List.length_drop]; omega
  have hdy : (y.drop k).length = k + 1 := by rw [List.length_drop]; omega
  have htx : (x.take k).length = k := by rw [List.length_take]; omega
  have hty : (y.take k).length = k := by rw [List.length_take]; omega
  rw [karatsubaBody, if_neg (by rw [hx]; exact Nat.not_le.mpr hk),
    show x.length / 2 = k by rw [hx]; omega]
  dsimp only
  rw [slice_take x k (by omega), ok_bind, slice_drop x k (by omega), ok_bind,
    slice_take y k (by omega), ok_bind, slice_drop y k (by omega), ok_bind]
  rcases hrec (x.drop k) (y.drop k) (by omega) (by omega) with h1 | ⟨P1, h1, hl1⟩
  · rw [h1, error_bind]
  rcases hrec (x.take k) (y.take k) (by omega) (by omega) with h2 | ⟨P2, h2, hl2⟩
  · rw [h1, ok_bind, h2, error_bind]
  rw [h1, ok_bind, h2, ok_bind, halfSums_ok (fun _ _ => rfl) (by omega) htx.ge (by omega) hty.ge
    (fun _ => rfl) (fun _ => rfl), ok_bind]
  dsimp only
  set hsx := tabulate k fun i => at0 (x.drop k) i + at0 (x.take k) i
  set hsy := tabulate k fun i => at0 (y.drop k) i + at0 (y.take k) i
  have hlx : hsx.length = k := tabulate_length _ _
  have hly : hsy.length = k := tabulate_length _ _
  rcases hrec hsx hsy (by omega) (by omega) with h3 | ⟨P3, h3, hl3⟩
  · rw [h3, error_bind]
  rw [h3, ok_bind, hx, cross_error (by omega) (by omega) (by omega), error_bind]

/-- A fault that the run meets on odd lengths above the threshold, as long as it
meets it on all shorter lengths outside the domain, it meets on every length
outside the domain. -/
theorem recurse_karatsuba_error {ok : Nat → Vec → Vec → Bool} {e : Fault}
    (heven : ∀ d u v, u.length % 2 = 0 → ok d u v = true)
    (hodd : ∀ d f, ∀ x y : Vec, y.length = x.length → 64 < x.length → x.length % 2 = 1 →
      x.length ≤ f → (∀ u v : Vec, u.length = v.length → u.length < x.length →
        ¬ HalvesEvenly u.length →
        recurse ok (karatsubaBody .exact) f (d + 1) u v = .error e) →
      recurse ok (karatsubaBody .exact) (f + 1) d x y = .error e)
    (n d fuel : Nat) (hn : ¬ HalvesEvenly n) (hf : n < fuel) {x y : Vec} (hx : x.length = n)
    (hy : y.length = n) : recurse ok (karatsubaBody .exact) fuel d x y = .error e := by
  induction n using Nat.strong_induction_on generalizing d fuel x y with
  | _ n ih =>
    cases fuel with
    | zero => omega
    | succ f =>
      have hlarge : 64 < n := by
        by_contra h
        exact hn (halvesEvenly_small (by omega))
      have hshort : ∀ u v : Vec, u.length = v.length → u.length < n → ¬ HalvesEvenly u.length →
          recurse ok (karatsubaBody .exact) f (d + 1) u v = .error e := fun u v huv hlt hu =>
        ih u.length hlt (d + 1) f hu (by omega) rfl huv.symm
      rcases Nat.mod_two_eq_zero_or_one n with he | ho
      · have hhalf : ¬ HalvesEvenly (n / 2) := fun h => hn ((halvesEvenly_iff hlarge).mpr ⟨he, h⟩)
        have hx2 : x.length = 2 * (n / 2) := by omega
        have hy2 : y.length = 2 * (n / 2) := by omega
        have hdx := (half_lengths hx2).1
        have hdy := (half_lengths hy2).1
        rw [recurse_succ _ _ _ _ _ _ (heven d x y (by omega))]
        exact karatsubaBody_error hx2 hy2 (by rw [karatsubaThreshold]; omega)
          (hshort _ _ (hdx.trans hdy.symm) (by omega) (by rwa [hdx]))
      · exact hodd d f x y (hy.trans hx.symm) (by omega) (by omega) (by omega) (hx ▸ hshort)

/-- On the other lengths the run leaves the bounds of some vector. -/
theorem recurse_karatsuba_outOfBounds (n d fuel : Nat) (hn : ¬ HalvesEvenly n) (hf : n < fuel)
    {x y : Vec} (hx : x.length = n) (hy : y.length = n) :
    recurse anyCall (karatsubaBody .exact) fuel d x y = .error .outOfBounds := by
  refine recurse_karatsuba_error (fun _ _ _ _ => rfl) (fun d f x y hlen hlarge ho hf hshort => ?_)
    n d fuel hn hf hx hy
  rw [recurse_succ _ _ _ _ _ _ rfl]
  refine karatsubaBody_odd (k := x.length / 2) (by omega) (by omega)
    (by rw [karatsubaThreshold]; omega) fun u v huv hlt => ?_
  -- a call on a shorter length faults, or returns a product
  by_cases hu : HalvesEvenly u.length
  · exact .inr ⟨_, recurse_karatsuba_exact hu (by omega) rfl huv.symm,
      by rw [convolve_length]; omega⟩
  · exact .inl (hshort u v huv hlt hu)

/-- The observer that refuses odd lengths above the threshold. -/
def noOddCall (_ : Nat) (u _ : Vec) : Bool :=
  decide (u.length ≤ karatsubaThreshold ∨ u.length % 2 = 0)

/-- On those lengths some call of the run has an odd length above the threshold. -/
theorem recurse_karatsuba_refused (n d fuel : Nat) (hn : ¬ HalvesEvenly n) (hf : n < fuel)
    {x y : Vec} (hx : x.length = n) (hy : y.length = n) :
    recurse noOddCall (karatsubaBody .exact) fuel d x y = .error .refused := by
  refine recurse_karatsuba_error (fun _ u _ he => ?_) (fun d f x y _ hlarge ho _ _ => ?_)
    n d fuel hn hf hx hy
  · exact decide_eq_true (.inr he)
  · have hrefuse : noOddCall d x y = false := by
      rw [noOddCall, decide_eq_false_iff_not, karatsubaThreshold]
      omega
    rw [recurse, if_neg (by rw [hrefuse]; decide)]

/-- **The domain of sequential Karatsuba.** On two vectors of length `m * 2 ^ j`
with `m ≤ 64` the run stays in bounds and returns the product, which is what
`naive_mul_vector` returns. On any other length the run makes an access out of
bounds, and some call of it has an odd length above 64. -/
theorem karatsubaMulVector_domain (n : Nat) (x y : Vec) (hx : x.length = n) (hy : y.length = n) :
    (HalvesEvenly n → ∃ r, karatsubaMulVector .exact x y = .ok r ∧ IsProduct n x y r ∧
      naiveMulVector .exact x y = .ok r) ∧
    (¬ HalvesEvenly n → karatsubaMulVector .exact x y = .error .outOfBounds ∧
      recurse noOddCall (karatsubaBody .exact) (x.length + 1) 0 x y = .error .refused) := by
  refine ⟨fun hn => ⟨convolve x y, ?_, isProduct_convolve hx hy, ?_⟩, fun hn => ⟨?_, ?_⟩⟩
  · exact recurse_karatsuba_exact hn (by omega) hx hy
  · exact naiveMulVector_exact (hy.trans hx.symm)
  · exact recurse_karatsuba_outOfBounds n 0 _ hn (by omega) hx hy
  · exact recurse_karatsuba_refused n 0 _ hn (by omega) hx hy

/-- The two cases at lengths 128 and 65. -/
theorem karatsubaMulVector_domain_128_65 :
    (∃ r, karatsubaMulVector .exact (List.replicate 128 7) (List.replicate 128 (-5)) = .ok r ∧
      IsProduct 128 (List.replicate 128 7) (List.replicate 128 (-5)) r) ∧
    karatsubaMulVector .exact (List.replicate 65 7) (List.replicate 65 (-5)) =
      .error .outOfBounds := by
  have h65 : ¬ HalvesEvenly 65 := by
    intro h
    have := (halvesEvenly_iff (by decide)).mp h
    omega
  obtain ⟨r, hr, hp, _⟩ := (karatsubaMulVector_domain 128 (List.replicate 128 7)
    (List.replicate 128 (-5)) List.length_replicate List.length_replicate).1
      (halvesEvenly_two_pow 7)
  exact ⟨⟨r, hr, hp⟩, ((karatsubaMulVector_domain 65 (List.replicate 65 7)
    (List.replicate 65 (-5)) List.length_replicate List.length_replicate).2 h65).1⟩

/-! ## Growth of the coefficients -/

/-- 32-bit `int`, and every `long long` value observed to be non-negative and at
most `81 * 2 ^ (2 * p - 6)`. -/
def growthMachine (p : Nat) : Machine :=
  { Machine.lp64 with long := fun v => decide (0 ≤ v ∧ v ≤ 81 * 2 ^ (2 * p - 6)) }

theorem growthMachine_int (p : Nat) : (growthMachine p).int = Machine.lp64.int := rfl

/-- Calls at depth `d` get two vectors of length `2 ^ (p - d)` with entries from
`0` to `9 * 2 ^ d`. -/
def growthCall (p d : Nat) (u v : Vec) : Bool :=
  decide (u.length = 2 ^ (p - d) ∧ v.length = 2 ^ (p - d) ∧
    ∀ a ∈ u ++ v, 0 ≤ a ∧ a ≤ 9 * 2 ^ d)

theorem growthCall_of_entries {p d : Nat} {u v : Vec} (hu : u.length = 2 ^ (p - d))
    (hv : v.length = 2 ^ (p - d)) (hue : Entries (Subsemiring.nonneg ℤ) (2 ^ d * 9) u)
    (hve : Entries (Subsemiring.nonneg ℤ) (2 ^ d * 9) v) : growthCall p d u v = true := by
  have hmem : ∀ w : Vec, Entries (Subsemiring.nonneg ℤ) (2 ^ d * 9) w →
      ∀ a ∈ w, 0 ≤ a ∧ a ≤ 9 * 2 ^ d := by
    intro w hw a ha
    obtain ⟨i, hi, rfl⟩ := List.getElem_of_mem ha
    have h := entries_iff.mp hw i
    rw [at0_eq_getElem hi] at h
    have hle := (abs_le.mp h.2).2
    push_cast at hle
    exact ⟨h.1, by linarith⟩
  refine decide_eq_true ⟨hu, hv, fun a ha => ?_⟩
  rcases List.mem_append.mp ha with ha | ha
  · exact hmem u hue a ha
  · exact hmem v hve a ha

/-- `2 ^ p` with `p ≥ 6` reaches the threshold after `p - 6` halvings. -/
theorem two_pow_eq {p : Nat} (h6 : 6 ≤ p) : 2 ^ p = karatsubaThreshold * 2 ^ (p - 6) := by
  rw [karatsubaThreshold, show 64 = 2 ^ 6 from rfl, ← pow_add]
  congr 1
  omega

/-- The bound of `recurse_karatsuba_ok` for `2 ^ p` digits. -/
theorem digit_bound {p : Nat} (h6 : 6 ≤ p) :
    karatsubaThreshold * 4 ^ (p - 6) * (9 * 9) = 81 * 2 ^ (2 * p - 6) := by
  rw [karatsubaThreshold, show 4 = 2 ^ 2 from rfl, ← pow_mul,
    show 2 * p - 6 = 6 + 2 * (p - 6) by omega, pow_add]
  ring

theorem digit_bound_lt {p : Nat} (h30 : p ≤ 30) : 81 * 2 ^ (2 * p - 6) < 2 ^ 63 := by
  have : 2 ^ (2 * p - 6) ≤ 2 ^ 54 := Nat.pow_le_pow_right (by omega) (by omega)
  omega

theorem digit_counter {p : Nat} (h6 : 6 ≤ p) (h30 : p ≤ 30) (i : Nat)
    (hi : i ≤ karatsubaThreshold * 2 ^ (p - 6)) : Machine.lp64.int ((i : Nat) : Int) = true := by
  rw [← two_pow_eq h6] at hi
  have : 2 ^ p ≤ 2 ^ 30 := Nat.pow_le_pow_right (by omega) h30
  exact lp64_int _ (by rw [abs_of_nonneg (by omega)]; omega)

/-- The machine's own run on `2 ^ p` digits. -/
theorem karatsubaMulVector_digits {p : Nat} (h6 : 6 ≤ p) (h30 : p ≤ 30) {x y : Vec}
    (hx : x.length = 2 ^ p) (hy : y.length = 2 ^ p) (hxe : Entries (Subsemiring.nonneg ℤ) 9 x)
    (hye : Entries (Subsemiring.nonneg ℤ) 9 y) :
    karatsubaMulVector .lp64 x y = .ok (convolve x y) := by
  have hp : p < 2 ^ p := Nat.lt_two_pow_self
  refine recurse_karatsuba_ok (Nat.le_refl _) (fun v _ hvb => lp64_long v (hvb.trans_lt ?_))
    anyCall (p - 6) 9 0 _ (by omega) (digit_bound h6).le (digit_counter h6 h30)
    (hx.trans (two_pow_eq h6)) (hy.trans (two_pow_eq h6)) hxe hye fun _ _ _ _ _ _ _ _ => rfl
  exact_mod_cast digit_bound_lt h30

/-- **Growth of the coefficients in Karatsuba.** On two vectors of `2 ^ p` digits
the observed run refuses no call and no value: calls at depth `d` get vectors of
length `2 ^ (p - d)` with entries from `0` to `9 * 2 ^ d`, every `long long`
value is non-negative and at most `81 * 2 ^ (2 * p - 6)`, and no `int` counter
overflows. That bound is below `2 ^ 63`, so the machine's own run returns the
same product. -/
theorem karatsubaMulVector_growth (p : Nat) (h6 : 6 ≤ p) (h30 : p ≤ 30) (x y : Vec)
    (hx : x.length = 2 ^ p) (hy : y.length = 2 ^ p) (hxd : ∀ a ∈ x, 0 ≤ a ∧ a ≤ 9)
    (hyd : ∀ a ∈ y, 0 ≤ a ∧ a ≤ 9) :
    recurse (growthCall p) (karatsubaBody (growthMachine p)) (x.length + 1) 0 x y =
      .ok (convolve x y) ∧
    81 * 2 ^ (2 * p - 6) < 2 ^ 63 ∧ karatsubaMulVector .lp64 x y = .ok (convolve x y) := by
  have hxe : Entries (Subsemiring.nonneg ℤ) 9 x := entries_of_range hxd
  have hye : Entries (Subsemiring.nonneg ℤ) 9 y := entries_of_range hyd
  have hp : p < 2 ^ p := Nat.lt_two_pow_self
  refine ⟨?_, digit_bound_lt h30, karatsubaMulVector_digits h6 h30 hx hy hxe hye⟩
  refine recurse_karatsuba_ok (M := growthMachine p) (S := Subsemiring.nonneg ℤ)
    (B := 81 * 2 ^ (2 * p - 6)) (Nat.le_refl _) (fun v hv hvb => ?_) (growthCall p) (p - 6) 9 0 _
    (by omega) (digit_bound h6).le (by rw [growthMachine_int]; exact digit_counter h6 h30)
    (hx.trans (two_pow_eq h6)) (hy.trans (two_pow_eq h6)) hxe hye
    fun e he u v hu hv hue hve => ?_
  · have hle := (abs_le.mp hvb).2
    push_cast at hle
    exact decide_eq_true ⟨hv, hle⟩
  · have hdepth : karatsubaThreshold * 2 ^ (p - 6 - e) = 2 ^ (p - e) := by
      rw [two_pow_eq (by omega : 6 ≤ p - e)]
      congr 2
      omega
    rw [Nat.zero_add]
    exact growthCall_of_entries (hu.trans hdepth) (hv.trans hdepth) hue hve

/-- 256 nines by 256 nines, with calls at depths 0 to 2. -/
theorem karatsubaMulVector_growth_nines :
    recurse (growthCall 8) (karatsubaBody (growthMachine 8))
      ((List.replicate 256 (9 : Int)).length + 1) 0 (List.replicate 256 9) (List.replicate 256 9) =
      .ok (convolve (List.replicate 256 9) (List.replicate 256 9)) ∧
    81 * 2 ^ (2 * 8 - 6) < 2 ^ 63 ∧
    karatsubaMulVector .lp64 (List.replicate 256 9) (List.replicate 256 9) =
      .ok (convolve (List.replicate 256 9) (List.replicate 256 9)) := by
  have h9 : ∀ a ∈ List.replicate 256 (9 : Int), 0 ≤ a ∧ a ≤ 9 := by
    intro a ha
    rw [List.eq_of_mem_replicate ha]
    decide
  exact karatsubaMulVector_growth 8 (by decide) (by decide) _ _ List.length_replicate
    List.length_replicate h9 h9

end BigintMultiply.SeqKaratsuba
