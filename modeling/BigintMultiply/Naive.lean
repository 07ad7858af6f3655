import BigintMultiply.Library.Decimal

/-! The schoolbook algorithms of `naive.cpp`.

* `naiveMulVector_ok`: on vectors of one length the run computes the product as
  long as the machine holds the products and partial sums;
* `naiveMulString_canonical`: on decimal strings with `90 * min(|a|, |b|)` below
  `2 ^ 31` the run of `naive_mul_string` on 32-bit `int` returns the canonical
  decimal of the product. -/

namespace BigintMultiply.Naive
open Checked Vectors Coefficients Decimal Polynomial

/-- `s[i]`. -/
def charAt (s : Str) (i : Nat) : Run Char :=
  match s[i]? with
  | some c => .ok c
  | none => .error .outOfBounds

def naiveMulString (M : Machine) (a b : Str) : Run Str := do
  let n := a.length
  let m := b.length
  let prod := zeros (n + m)
  let prod ← forLoop n (fun i prod => do
    let da := digit (← charAt a (n - 1 - i))
    forLoop m (fun j prod => do
      let db := digit (← charAt b (m - 1 - j))
      let p ← M.intVal (da * db)
      let s ← M.intVal ((← load prod (i + j)) + p)
      store prod (i + j) s) prod) prod
  let prod ← forLoop (prod.length - 1) (fun k prod => do
    let s ← M.intVal ((← load prod (k + 1)) + (← load prod k).tdiv 10)
    let prod ← store prod (k + 1) s
    store prod k ((← load prod k).tmod 10)) prod
  let idx ← stripZeros prod prod.length
  forLoop idx (fun i result => do
    let c ← M.intVal (48 + (← load prod (idx - 1 - i)))
    .ok (result ++ [toChar c])) []

def naiveMulVector (M : Machine) (x y : Vec) : Run Vec := do
  let n := x.length
  let res := zeros (2 * n)
  forLoop n (fun i res =>
    forLoop n (fun j res => do
      let p ← M.longVal ((← load x i) * (← load y j))
      let s ← M.longVal ((← load res (i + j)) + p)
      store res (i + j) s) res) res

/-! ## The accumulation loops -/

/-- One row: the entries of `y` times `a` are added from place `i` on. -/
theorem poly_row (w y : Vec) (i : Nat) (a : Int) (h : i + y.length ≤ w.length) :
    poly (splice w i y.length fun j => at0 w (i + j) + a * at0 y j) =
      poly w + C a * X ^ i * poly y := by
  have hrow : splice w i y.length (fun j => at0 w (i + j) + a * at0 y j) =
      addAt w i (tabulate y.length fun j => a * at0 y j) := by
    rw [← splice_eq_addAt w _ i (by simpa using h), tabulate_length]
    refine splice_congr w i _ fun j hj => ?_
    rw [at0_tabulate, if_pos hj]
  have hp : poly (tabulate y.length fun j => a * at0 y j) = C a * poly y := by
    refine poly_eq_of_at0 (fun j hj => ?_) (fun j hj => ?_)
    · rw [coeff_C_mul, coeff_poly, at0_tabulate, if_pos (by simpa using hj)]
    · rw [coeff_C_mul, coeff_poly, at0_eq_zero (by simpa using hj), mul_zero]
  rw [hrow, poly_addAt w _ i (by simpa using h), hp]
  ring

/-- **Schoolbook rows.** Rows of the form "add `x[i]` times `y` from place `i` on"
leave the product of `x` and `y`. Every value on the way is a product of two
entries or a coefficient of the product of a prefix of `x` with `y`. -/
theorem schoolbook {S : Subsemiring ℤ} {c d : ℕ} (x y : Vec) (hx : Entries S c x)
    (hy : Entries S d y) (row : Nat → Vec → Run Vec)
    (hrow : ∀ i < x.length, ∀ w : Vec, w.length = x.length + y.length →
      (∀ j < y.length, ∀ v ∈ [at0 x i * at0 y j, at0 w (i + j) + at0 x i * at0 y j],
        v ∈ S ∧ |v| ≤ (min x.length y.length * (c * d) : ℕ)) →
      row i w = .ok (splice w i y.length fun j => at0 w (i + j) + at0 x i * at0 y j)) :
    forLoop x.length row (zeros (x.length + y.length)) = .ok (convolve x y) := by
  obtain ⟨w, hw, hl, hp⟩ := forLoop_invariant x.length row
    (fun i w => w.length = x.length + y.length ∧ poly w = poly (x.take i) * poly y)
    (zeros (x.length + y.length)) (by simp [poly]) (fun i hi w ⟨hl, hp⟩ => by
      have hin : i + y.length ≤ w.length := by omega
      have hp' : poly (splice w i y.length fun j => at0 w (i + j) + at0 x i * at0 y j) =
          poly (x.take (i + 1)) * poly y := by
        rw [poly_row w y i _ hin, hp, poly_take_succ x i hi]
        ring
      refine ⟨_, hrow i hi w hl (fun j hj => ?_), by simpa using hl, hp'⟩
      have hmin : 1 ≤ min x.length y.length := by omega
      have hprod : at0 x i * at0 y j ∈ S ∧ |at0 x i * at0 y j| ≤ ((c * d : ℕ) : ℤ) := by
        have h1 := hx.at0 i
        have h2 := hy.at0 j
        rw [abs_mul]
        push_cast
        exact ⟨S.mul_mem h1.1 h2.1, mul_le_mul h1.2 h2.2 (abs_nonneg _) (by positivity)⟩
      have hsum := (bounded_mul (hx.take (i + 1)) hy).mono (Nat.mul_le_mul_right (c * d)
        (by rw [List.length_take]; omega : min (x.take (i + 1)).length y.length ≤
          min x.length y.length))
      rw [← hp'] at hsum
      have hsum := hsum.at0 (i + j)
      rw [at0_splice w i _ _ _ hin, if_pos (by omega), Nat.add_sub_cancel_left] at hsum
      intro v hv
      rcases List.mem_cons.mp hv with rfl | hv
      · refine ⟨hprod.1, hprod.2.trans ?_⟩
        exact_mod_cast Nat.le_mul_of_pos_left (c * d) hmin
      · rw [List.mem_singleton.mp hv]
        exact hsum)
  rw [hw, eq_convolve hl (by rw [hp, List.take_length])]

/-- `naive_mul_vector` computes the product when the machine holds every value of
the admissible kind up to `n` times the largest product of entries. -/
theorem naiveMulVector_ok {M : Machine} {S : Subsemiring ℤ} {c d : ℕ} {x y : Vec}
    (hlen : y.length = x.length) (hx : Entries S c x) (hy : Entries S d y)
    (hM : ∀ v ∈ S, |v| ≤ (x.length * (c * d) : ℕ) → M.long v = true) :
    naiveMulVector M x y = .ok (convolve x y) := by
  rw [naiveMulVector, show 2 * x.length = x.length + y.length by omega]
  refine schoolbook x y hx hy _ fun i hi w hl hv => ?_
  rw [← hlen]
  refine forLoop_splice w i y.length _ _ (by omega) fun j hj u hul huj => ?_
  have hv := hv j hj
  rw [hlen, Nat.min_self] at hv
  obtain ⟨hp, hs⟩ := List.forall_mem_cons.mp hv
  have hs := hs _ (List.mem_singleton.mpr rfl)
  rw [load_ok hi, ok_bind, load_ok hj, ok_bind, longVal_ok (hM _ hp.1 hp.2), ok_bind,
    load_ok (by omega), ok_bind, huj, longVal_ok (hM _ hs.1 hs.2), ok_bind, store_ok _ (by omega)]

/-- Over exact integers every value fits. -/
theorem naiveMulVector_exact {x y : Vec} (hlen : y.length = x.length) :
    naiveMulVector .exact x y = .ok (convolve x y) := by
  obtain ⟨c, hc⟩ := exists_entries x
  obtain ⟨d, hd⟩ := exists_entries y
  exact naiveMulVector_ok hlen hc hd fun _ _ _ => rfl

/-! ## Decimal strings -/

theorem charAt_digit (s : Str) (i : Nat) (h : i < s.length) :
    ∃ c, charAt s (s.length - 1 - i) = .ok c ∧ digit c = at0 (digits s) i := by
  refine ⟨s[s.length - 1 - i], ?_, (at0_digits s i h (by omega)).symm⟩
  rw [charAt, List.getElem?_eq_getElem (by omega)]

/-- A column sums at most as many products of digits as the shorter operand has. -/
theorem digit_columns {a b : Str} (ha : IsDecimal a) (hb : IsDecimal b) (i : Nat) :
    0 ≤ at0 (convolve (digits a) (digits b)) i ∧
      at0 (convolve (digits a) (digits b)) i ≤ (81 * min a.length b.length : ℕ) := by
  have h := bounded_mul (entries_digits ha) (entries_digits hb) i
  rw [← at0_convolve, digits_length, digits_length] at h
  have hle := (abs_le.mp h.2).2
  refine ⟨h.1, hle.trans ?_⟩
  push_cast
  omega

/-- The column sums of `naive_mul_string`. -/
theorem columns_ok {M : Machine} {a b : Str} (ha : IsDecimal a) (hb : IsDecimal b)
    (hM : ∀ v : ℤ, 0 ≤ v → v ≤ (90 * min a.length b.length : ℕ) → M.int v = true) :
    forLoop a.length (fun i prod => do
      let da := digit (← charAt a (a.length - 1 - i))
      forLoop b.length (fun j prod => do
        let db := digit (← charAt b (b.length - 1 - j))
        let p ← M.intVal (da * db)
        let s ← M.intVal ((← load prod (i + j)) + p)
        store prod (i + j) s) prod) (zeros (a.length + b.length)) =
      .ok (convolve (digits a) (digits b)) := by
  have hs := schoolbook (digits a) (digits b) (entries_digits ha) (entries_digits hb)
    (fun i prod => do
      let da := digit (← charAt a (a.length - 1 - i))
      forLoop b.length (fun j prod => do
        let db := digit (← charAt b (b.length - 1 - j))
        let p ← M.intVal (da * db)
        let s ← M.intVal ((← load prod (i + j)) + p)
        store prod (i + j) s) prod)
  rw [digits_length, digits_length] at hs
  refine hs fun i hi w hl hv => ?_
  obtain ⟨da, hda, hai⟩ := charAt_digit a i hi
  rw [hda, ok_bind, hai]
  refine forLoop_splice w i b.length _ _ (by omega) fun j hj u hul huj => ?_
  obtain ⟨db, hdb, hbj⟩ := charAt_digit b j hj
  have hM' : ∀ v, v ∈ Subsemiring.nonneg ℤ ∧ |v| ≤ (min a.length b.length * (9 * 9) : ℕ) →
      M.int v = true := fun v h => hM v h.1 (by
    have := (abs_le.mp h.2).2
    push_cast at this ⊢
    omega)
  obtain ⟨hp, hsum⟩ := List.forall_mem_cons.mp (hv j hj)
  have hsum := hsum _ (List.mem_singleton.mpr rfl)
  rw [hdb, ok_bind, hbj]
  dsimp only
  rw [intVal_ok (hM' _ hp), ok_bind, load_ok (by omega), ok_bind, huj, intVal_ok (hM' _ hsum),
    ok_bind, store_ok _ (by omega)]

/-- The carry step of `naive_mul_string`. -/
theorem carry_ok {M : Machine} {w : Vec} {k : Nat} (hk : k + 1 < w.length)
    (hM : M.int (at0 w (k + 1) + (at0 w k).tdiv 10) = true) :
    (do
      let s ← M.intVal ((← load w (k + 1)) + (← load w k).tdiv 10)
      let w ← store w (k + 1) s
      store w k ((← load w k).tmod 10) : Run Vec) = .ok (carryStep w k) := by
  have hset : k < (w.set (k + 1) (at0 w (k + 1) + (at0 w k).tdiv 10)).length := by simp; omega
  rw [load_ok hk, ok_bind, load_ok (by omega), ok_bind, intVal_ok hM, ok_bind, store_ok _ hk,
    ok_bind, load_ok hset, ok_bind, store_ok _ hset, at0_set _ _ _ _ hk, if_neg (by omega),
    carryStep]

/-- The output loop prints the digits from the leading one down. -/
theorem output_ok {M : Machine} {w : Vec} {idx : Nat} (hidx : idx ≤ w.length)
    (hM : ∀ i, M.int (48 + at0 w i) = true) :
    forLoop idx (fun i result => do
      let c ← M.intVal (48 + (← load w (idx - 1 - i)))
      .ok (result ++ [toChar c])) [] = .ok (render w idx) := by
  refine forLoop_append idx _ _ fun i hi l => ?_
  rw [load_ok (by omega), ok_bind, intVal_ok (hM _), ok_bind]

/-- On operands that are not both empty `naive_mul_string` returns the canonical
decimal of the product. -/
theorem naiveMulString_ok (a b : Str) (ha : IsDecimal a) (hb : IsDecimal b)
    (hne : 0 < a.length + b.length) (h : 90 * min a.length b.length ≤ 2 ^ 31 - 1) :
    ∃ s, naiveMulString .lp64 a b = .ok s ∧ Canonical s (decimalValue a * decimalValue b) := by
  have hint : ∀ v : ℤ, 0 ≤ v → v ≤ 2 ^ 31 - 1 → Machine.lp64.int v = true := fun v h0 h1 =>
    lp64_int v (by rw [abs_of_nonneg h0]; omega)
  set v := convolve (digits a) (digits b) with hvdef
  have hvl : v.length = a.length + b.length := by simp [v, digits_length]
  have hcol : ∀ i, 0 ≤ at0 v i ∧ at0 v i ≤ (81 * min a.length b.length : ℕ) := digit_columns ha hb
  have hval : value v = (decimalValue a * decimalValue b : ℕ) := by
    rw [hvdef, value_convolve, value_digits a ha, value_digits b hb, Nat.cast_mul]
  have hlt : decimalValue a * decimalValue b < 10 ^ v.length := by
    rw [hvl, pow_add]
    exact Nat.mul_lt_mul'' (decimalValue_lt ha) (decimalValue_lt hb)
  obtain ⟨idx, hstrip, _, hidx, hcan⟩ := carryPass_render hcol (by omega) hval hlt
  have hdig := carryPass_digits hcol (by omega) (by rw [hval]; exact_mod_cast hlt)
  refine ⟨_, ?_, hcan⟩
  rw [naiveMulString]
  simp only
  rw [columns_ok ha hb fun v h0 h1 => hint v h0 (by omega), ok_bind, ← hvdef,
    forLoop_carryPass hcol _ fun k w hk _ h0 h9 =>
      carry_ok hk (hint _ h0 (by push_cast at h9; omega)),
    ok_bind, hdig.1, hstrip, ok_bind]
  exact output_ok (by rw [hdig.1]; exact hidx) fun i => hint _ (by have := hdig.2.2 i; omega)
    (by have := hdig.2.2 i; omega)

theorem naiveMulString_empty (M : Machine) : naiveMulString M [] [] = .ok [] := rfl

/-- **`naive_mul_string` is correct on 32-bit `int`.** No `int` value overflows
and the result is the canonical decimal of the product. -/
theorem naiveMulString_canonical (a b : Str) (ha : IsDecimal a) (hb : IsDecimal b)
    (hna : a ≠ []) (_hnb : b ≠ []) (h : 90 * min a.length b.length ≤ 2 ^ 31 - 1) :
    ∃ s, naiveMulString .lp64 a b = .ok s ∧ Canonical s (decimalValue a * decimalValue b) :=
  naiveMulString_ok a b ha hb
    (Nat.add_pos_left (List.length_pos_iff.mpr hna) b.length) h

/-- 012 times 34 in the machine's arithmetic. -/
theorem naiveMulString_canonical_012_34 :
    ∃ s, naiveMulString .lp64 ['0', '1', '2'] ['3', '4'] = .ok s ∧
      Canonical s (decimalValue ['0', '1', '2'] * decimalValue ['3', '4']) :=
  naiveMulString_canonical _ _ (by decide) (by decide) (List.cons_ne_nil _ _) (List.cons_ne_nil _ _)
    (by decide)

example : naiveMulString .lp64 ['0', '1', '2'] ['3', '4'] = .ok ['4', '0', '8'] := by decide

end BigintMultiply.Naive
