import BigintMultiply.ParKaratsuba

/-! The lengths on which parallel Karatsuba multiplies.

* `parProduct_bad`: on every length that is not `m * 2 ^ j` with `m ≤ 64`, some
  vector is squared wrongly by both variants;
* `parKaratsuba_correct_iff`: on a length both variants multiply all vectors
  correctly exactly when it is of that form. -/

namespace BigintMultiply.ParKaratsuba
open Checked Vectors Coefficients Naive Utils ForkJoin Prog SeqKaratsuba Polynomial

/-- The vector of length `n` with a one at place `i`. -/
def unit (n i : Nat) : Vec := tabulate n fun j => if j = i then 1 else 0

theorem unit_length (n i : Nat) : (unit n i).length = n := tabulate_length _ _

theorem at0_unit {n i : Nat} (hi : i < n) (j : Nat) :
    at0 (unit n i) j = if j = i then 1 else 0 := by
  rw [unit, at0_tabulate]
  by_cases h : j < n
  · rw [if_pos h]
  · rw [if_neg h, if_neg (by omega)]

theorem poly_unit {n i : Nat} (hi : i < n) : poly (unit n i) = X ^ i :=
  poly_eq_of_at0 (fun j _ => by rw [at0_unit hi, coeff_X_pow]) fun j hj => by
    rw [unit_length] at hj
    rw [coeff_X_pow, if_neg (by omega)]

theorem at0_halfSum (x : Vec) (k i : Nat) :
    at0 (halfSum x k) i = if i < k then at0 (x.drop k) i + at0 (x.take k) i else 0 := by
  rw [halfSum, at0_tabulate]

/-! ## Calls with a zero half -/

/-- When `P3` is the sum of the outer products, the cross term vanishes. -/
theorem assemble_of_sum (plib : Bool) {len k : Nat} {P1 P2 P3 : Vec}
    (h : ∀ i, at0 P3 i = at0 P1 i + at0 P2 i) (i : Nat) (hi : i < 2 * len) :
    at0 (assemble plib len k P1 P2 P3) i = at0 P2 i + if len ≤ i then at0 P1 (i - len) else 0 := by
  have hcross : ∀ j, at0 (cross P1 P2 (padded plib P1 P2 P3)) j = 0 := by
    intro j
    rw [cross, at0_tabulate, at0_padded, h j]
    split
    · ring
    · rfl
  rw [assemble, combined, at0_addAt _ _ _ _ (by simpa using hi),
    at0_addAt _ _ _ _ (by simpa using hi), at0_addAt _ _ _ _ (by simpa using hi), at0_zeros,
    if_pos (Nat.zero_le i), Nat.sub_zero, hcross, ite_self, zero_add, add_zero]

variable {plib : Bool}

theorem assemble_length (plib : Bool) (len k : Nat) (P1 P2 P3 : Vec) :
    (assemble plib len k P1 P2 P3).length = 2 * len := by
  simp only [assemble, combined, addAt_length, zeros_length]

/-- Zeros are squared to zeros. -/
theorem parProduct_zeros {fuel n : Nat} (hf : n < fuel) :
    parProduct plib fuel (zeros n) (zeros n) = zeros (2 * n) := by
  induction fuel generalizing n with
  | zero => omega
  | succ f ih =>
    rw [parProduct, zeros_length]
    split
    · exact (eq_convolve (by simp; omega) (by simp)).symm
    · rename_i hleaf
      have hlarge : 64 < n := Nat.not_le.mp hleaf
      have hd : (zeros n).drop (n / 2) = zeros (n - n / 2) := by simp [zeros]
      have ht : (zeros n).take (n / 2) = zeros (n / 2) := by simp [zeros]; omega
      have hs : halfSum (zeros n) (n / 2) = zeros (n / 2) :=
        vec_ext (by simp) fun i _ => by
          rw [at0_halfSum, hd, ht, at0_zeros, at0_zeros, add_zero, ite_self]
      dsimp only
      rw [hd, ht, hs, ih (by omega), ih (by omega)]
      refine vec_ext (by rw [assemble_length, zeros_length]) fun i hi => ?_
      rw [assemble_length] at hi
      rw [assemble_of_sum plib (fun j => by simp) i hi, at0_zeros, at0_zeros, at0_zeros, ite_self,
        add_zero]

/-- A vector whose high half is zero: the low half is squared. -/
theorem parProduct_low {f n : Nat} {u : Vec} (hn : 64 < n) (hu : u.length = n / 2) (hf : n ≤ f)
    {x : Vec} (hx : x = u ++ zeros (n - n / 2)) (i : Nat) (hi : i < 2 * n) :
    at0 (parProduct plib (f + 1) x x) i = at0 (parProduct plib f u u) i := by
  have hlen : x.length = n := by rw [hx, List.length_append, zeros_length]; omega
  have hd : x.drop (n / 2) = zeros (n - n / 2) := by rw [hx, ← hu, List.drop_left]
  have ht : x.take (n / 2) = u := by rw [hx, ← hu, List.take_left]
  have hs : halfSum x (n / 2) = u := vec_ext (by simp [hu]) fun i hi => by
    rw [at0_halfSum, hd, ht, at0_zeros, zero_add, if_pos (by simpa using hi)]
  rw [parProduct, if_neg (by rw [hlen, karatsubaThreshold]; omega), hlen]
  dsimp only
  rw [hd, ht, hs, parProduct_zeros (by omega), assemble_of_sum plib (fun j => by simp) i hi,
    at0_zeros, ite_self, add_zero]

/-- The unit at place `0` is squared correctly on every length. -/
theorem parProduct_unit {fuel n : Nat} (hn : 0 < n) (hf : n < fuel) :
    parProduct plib fuel (unit n 0) (unit n 0) = unit (2 * n) 0 := by
  induction fuel generalizing n with
  | zero => omega
  | succ f ih =>
    by_cases hleaf : n ≤ karatsubaThreshold
    · rw [parProduct, unit_length, if_pos hleaf]
      refine (eq_convolve (by rw [unit_length, unit_length]; omega) ?_).symm
      rw [poly_unit hn, poly_unit (by omega), pow_zero, mul_one]
    · have hlarge : 64 < n := Nat.not_le.mp hleaf
      have hsplit : unit n 0 = unit (n / 2) 0 ++ zeros (n - n / 2) :=
        vec_ext (by simp only [List.length_append, unit_length, zeros_length]; omega) fun i _ => by
          rw [at0_append, at0_unit hn, at0_unit (by omega), unit_length, at0_zeros]
          by_cases hi : i < n / 2
          · rw [if_pos hi]
          · rw [if_neg hi, if_neg (by omega)]
      refine vec_ext ?_ fun i hi => ?_
      · rw [parProduct_length rfl (by omega), unit_length, unit_length]
      · rw [parProduct_length rfl (by omega), unit_length] at hi
        rw [parProduct_low (by omega) (unit_length _ _) (by omega) hsplit i hi,
          ih (by omega) (by omega), at0_unit (by omega), at0_unit (by omega)]

/-! ## Odd lengths -/

/-- On an odd length the high product is added one place too far up. -/
theorem parProduct_odd (plib : Bool) {f k : Nat} (hk : 64 < 2 * k + 1) (hf : 2 * k + 1 ≤ f) :
    at0 (parProduct plib (f + 1) (unit (2 * k + 1) k) (unit (2 * k + 1) k)) (2 * k) = 0 := by
  have hd : (unit (2 * k + 1) k).drop k = unit (k + 1) 0 :=
    vec_ext (by rw [List.length_drop, unit_length, unit_length]; omega) fun i _ => by
      rw [at0_drop, at0_unit (by omega), at0_unit (by omega)]
      simp
  have ht : (unit (2 * k + 1) k).take k = zeros k :=
    vec_ext (by rw [List.length_take, unit_length, zeros_length]; omega) fun i _ => by
      rw [at0_take, at0_unit (by omega), at0_zeros]
      split
      · rw [if_neg (by omega)]
      · rfl
  have hs : halfSum (unit (2 * k + 1) k) k = unit k 0 :=
    vec_ext (by simp [unit_length]) fun i hi => by
      rw [at0_halfSum, hd, ht, at0_unit (by omega), at0_zeros, add_zero, at0_unit (by omega),
        if_pos (by simpa using hi)]
  rw [parProduct, unit_length, if_neg (by rw [karatsubaThreshold]; omega),
    show (2 * k + 1) / 2 = k by omega]
  dsimp only
  rw [hd, ht, hs, parProduct_unit (by omega) (by omega), parProduct_unit (by omega) (by omega),
    parProduct_zeros (by omega), assemble_of_sum plib (fun j => ?_) _ (by omega), at0_zeros,
    if_neg (by omega), add_zero]
  rw [at0_unit (by omega), at0_unit (by omega), at0_zeros, add_zero]

/-- **The lengths where it fails.** On a length that is not `m * 2 ^ j` with
`m ≤ 64` some vector is squared wrongly. -/
theorem parProduct_bad (plib : Bool) (n : Nat) (hn : ¬ HalvesEvenly n) :
    ∃ u : Vec, u.length = n ∧ ∀ fuel, n < fuel → parProduct plib fuel u u ≠ convolve u u := by
  induction n using Nat.strong_induction_on with
  | _ n ih =>
    have hlarge : 64 < n := by
      by_contra h
      exact hn (halvesEvenly_small (by omega))
    rcases Nat.mod_two_eq_zero_or_one n with he | ho
    · -- the bad vector of the half, with zeros above
      have hhalf : ¬ HalvesEvenly (n / 2) := fun h => hn ((halvesEvenly_iff hlarge).mpr ⟨he, h⟩)
      obtain ⟨u, hu, hbad⟩ := ih (n / 2) (by omega) hhalf
      have hpx : poly (u ++ zeros (n - n / 2)) = poly u := by
        rw [poly_append, poly_zeros, mul_zero, add_zero]
      have hxl : (u ++ zeros (n - n / 2)).length = n := by
        rw [List.length_append, zeros_length]
        omega
      refine ⟨u ++ zeros (n - n / 2), hxl, fun fuel hf heq => ?_⟩
      cases fuel with
      | zero => omega
      | succ f =>
        refine hbad f (by omega) (vec_ext ?_ fun i hi => ?_)
        · rw [parProduct_length rfl (by omega), convolve_length]
          omega
        · rw [parProduct_length rfl (by omega), hu] at hi
          rw [← parProduct_low hlarge hu (by omega) rfl i (by omega), heq, at0_convolve,
            at0_convolve, hpx]
    · -- the unit at the first place of the high half
      obtain ⟨k, rfl⟩ : ∃ k, n = 2 * k + 1 := ⟨n / 2, by omega⟩
      refine ⟨unit (2 * k + 1) k, unit_length _ _, fun fuel hf heq => ?_⟩
      cases fuel with
      | zero => omega
      | succ f =>
        have h0 := parProduct_odd plib hlarge (by omega : 2 * k + 1 ≤ f)
        rw [heq, at0_convolve, poly_unit (by omega), ← pow_add, coeff_X_pow,
          if_pos (by omega)] at h0
        exact one_ne_zero h0

/-! ## The domain -/

/-- A variant multiplies all vectors of length `n` exactly when it is `m * 2 ^ j`. -/
theorem variant_correct_iff {body : (Vec → Vec → Prog Var Vec) → Vec → Vec → Prog Var Vec}
    (hV : Variant .exact plib body) (n : Nat) :
    (∀ x y : Vec, x.length = n → y.length = n →
      ∃ r, (Prog.recurse body (x.length + 1) x y).eval = some r ∧ IsProduct n x y r) ↔
    HalvesEvenly n := by
  constructor
  · intro h
    by_contra hn
    obtain ⟨u, hu, hbad⟩ := parProduct_bad plib n hn
    obtain ⟨r, hr, hp⟩ := h u u hu hu
    rw [recurse_par_exact hV rfl (Nat.lt_succ_self _)] at hr
    exact hbad _ (by omega) ((Option.some.inj hr).trans (hp.eq_convolve hu hu))
  · intro hn x y hx hy
    have hlen : y.length = x.length := hy.trans hx.symm
    exact ⟨convolve x y, by
      rw [recurse_par_exact hV hlen (Nat.lt_succ_self _),
        parProduct_of_halvesEvenly hV (hx ▸ hn) hlen (Nat.lt_succ_self _)],
      isProduct_convolve hx hy⟩

/-- **The lengths on which parallel Karatsuba multiplies.** Over exact integers
and in program order each variant returns the product of any two vectors of
length `n` exactly when `n` is `m * 2 ^ j` with `m ≤ 64`. -/
theorem parKaratsuba_correct_iff (n : Nat) :
    ((∀ x y : Vec, x.length = n → y.length = n →
      ∃ r, (parKaratsubaMulVectorOpen .exact x y).eval = some r ∧ IsProduct n x y r) ↔
      HalvesEvenly n) ∧
    ((∀ x y : Vec, x.length = n → y.length = n →
      ∃ r, (parKaratsubaMulVectorPlib .exact x y).eval = some r ∧ IsProduct n x y r) ↔
      HalvesEvenly n) :=
  ⟨variant_correct_iff (variant_open .exact) n, variant_correct_iff (variant_plib .exact) n⟩

/-- Neither variant squares the unit at place 32 of a vector of length 65. -/
theorem parKaratsuba_not_every_length :
    (¬ ∃ r, (parKaratsubaMulVectorOpen .exact (unit 65 32) (unit 65 32)).eval = some r ∧
      IsProduct 65 (unit 65 32) (unit 65 32) r) ∧
    ¬ ∃ r, (parKaratsubaMulVectorPlib .exact (unit 65 32) (unit 65 32)).eval = some r ∧
      IsProduct 65 (unit 65 32) (unit 65 32) r := by
  have hbad : ∀ {plib : Bool} {body : (Vec → Vec → Prog Var Vec) → Vec → Vec → Prog Var Vec},
      Variant .exact plib body →
      ¬ ∃ r, (Prog.recurse body ((unit 65 32).length + 1) (unit 65 32) (unit 65 32)).eval = some r ∧
        IsProduct 65 (unit 65 32) (unit 65 32) r := by
    rintro plib body hV ⟨r, hr, hp⟩
    rw [recurse_par_exact hV rfl (Nat.lt_succ_self _)] at hr
    have h0 := parProduct_odd plib (f := 65) (k := 32) (by decide) (by decide)
    have h1 := hp.entry 64 (by decide)
    rw [← coeff_mul_eq_sum, poly_unit (by decide), ← pow_add, coeff_X_pow, if_pos rfl,
      ← Option.some.inj hr, unit_length] at h1
    exact one_ne_zero (h1.symm.trans h0)
  exact ⟨hbad (variant_open .exact), hbad (variant_plib .exact)⟩

end BigintMultiply.ParKaratsuba
