import BigintMultiply.ParKaratsuba
import BigintMultiply.ParToomCook

/-! The string functions agree with `naive_mul_string` under the machine's
arithmetic: 32-bit `int`, 64-bit `long long`, truncating division.

* `karatsubaMulString_eq_naive`: both Karatsuba functions;
* `toomCookMulString_eq_naive`: all three Toom-Cook functions. -/

namespace BigintMultiply.Strings
open Checked Vectors Coefficients Decimal Naive Utils ForkJoin Prog
open SeqKaratsuba SeqToomCook ParKaratsuba ParToomCook

/-! ## One theorem for all string functions -/

/-- A vector function that multiplies vectors of `2 ^ p` digits, for `p ≤ P`. -/
def MultipliesDigits (P : Nat) (mulVector : Vec → Vec → Prog Var Vec) : Prop :=
  ∀ p, 6 ≤ p → p ≤ P → ∀ x y : Vec, x.length = 2 ^ p → y.length = 2 ^ p →
    Entries (Subsemiring.nonneg ℤ) 9 x → Entries (Subsemiring.nonneg ℤ) 9 y →
    (mulVector x y).Computes (.ok (convolve x y))

/-- The length of a padded operand. -/
theorem vectorLength_padded {n P : Nat} (h : 64 < n) (hP : n ≤ 2 ^ P) :
    ∃ p, vectorLength n true = 2 ^ p ∧ 6 ≤ p ∧ p ≤ P ∧ n ≤ 2 ^ p := by
  obtain ⟨p, hp, hn, hl⟩ := padded_length n
  refine ⟨p, by rw [vectorLength, if_pos rfl, if_pos (by omega), hp], ?_, ?_, hn⟩
  · by_contra h6
    have : 2 ^ p ≤ 2 ^ 6 := Nat.pow_le_pow_right (by omega) (by omega)
    omega
  · rcases hl with rfl | hl
    · omega
    · have := (Nat.pow_lt_pow_iff_right (by omega : 1 < 2)).mp (hl.trans_le hP)
      omega

theorem entries_resizeTo {S : Subsemiring ℤ} {c n : Nat} {v : Vec} (h : Entries S c v)
    (hn : v.length ≤ n) : Entries S c (resizeTo v n) := by
  rwa [Entries, poly_resizeTo v n hn]

/-- Resizing twice. -/
theorem resizeTo_resizeTo {v : Vec} {m n : Nat} (hv : v.length ≤ m) (hm : m ≤ n) :
    resizeTo (resizeTo v m) n = resizeTo v n :=
  vec_ext (by simp) fun i _ => by
    rw [at0_resizeTo _ _ _ (by simpa using hm), at0_resizeTo _ _ _ hv,
      at0_resizeTo _ _ _ (hv.trans hm)]

/-- The canonical decimal of a product of padded digit vectors. -/
theorem productString_ok {a b : Str} {p : Nat} (ha : IsDecimal a) (hb : IsDecimal b) (hp : p ≤ 30)
    (hmin : 90 * min a.length b.length ≤ 2 ^ 31 - 1) (hla : a.length ≤ 2 ^ p)
    (hlb : b.length ≤ 2 ^ p) :
    ∃ s, vectorToString .lp64
        (convolve (resizeTo (digits a) (2 ^ p)) (resizeTo (digits b) (2 ^ p))) = .ok s ∧
      Canonical s (decimalValue a * decimalValue b) := by
  have hda : (digits a).length ≤ 2 ^ p := by rwa [digits_length]
  have hdb : (digits b).length ≤ 2 ^ p := by rwa [digits_length]
  set v := convolve (resizeTo (digits a) (2 ^ p)) (resizeTo (digits b) (2 ^ p)) with hv
  have hlen : v.length = 2 ^ p + 2 ^ p := by
    rw [hv, convolve_length, resizeTo_length, resizeTo_length]
  have hpow : 0 < 2 ^ p ∧ 2 ^ p ≤ 2 ^ 30 :=
    ⟨Nat.two_pow_pos p, Nat.pow_le_pow_right (by omega) hp⟩
  have hval : value v = (decimalValue a * decimalValue b : ℕ) := by
    rw [hv, value_convolve, value_resizeTo _ _ hda, value_resizeTo _ _ hdb, value_digits a ha,
      value_digits b hb, Nat.cast_mul]
  have hlt : decimalValue a * decimalValue b < 10 ^ v.length := by
    have hA := (decimalValue_lt ha).trans_le (Nat.pow_le_pow_right (by omega : 0 < 10) hla)
    have hB := (decimalValue_lt hb).trans_le (Nat.pow_le_pow_right (by omega : 0 < 10) hlb)
    rw [hlen, pow_add]
    exact Nat.mul_lt_mul'' hA hB
  -- the padding adds no product to any place
  have hcol : ∀ i, 0 ≤ at0 v i ∧ at0 v i ≤ (81 * min a.length b.length : ℕ) := by
    intro i
    have hi := digit_columns ha hb i
    rwa [at0_convolve, ← poly_resizeTo _ _ hda, ← poly_resizeTo _ _ hdb, ← at0_convolve] at hi
  exact vectorToString_ok hcol (by omega) (by omega) (by omega) hval hlt

/-- A string function over a vector function that multiplies digits returns what
`naive_mul_string` returns. -/
theorem mulString_eq_naive {P threshold : Nat} (hP : P ≤ 30) (ht : 64 ≤ threshold)
    {mulVector : Vec → Vec → Prog Var Vec} (hmul : MultipliesDigits P mulVector) (a b : Str)
    (ha : IsDecimal a) (hb : IsDecimal b) (hmin : 90 * min a.length b.length ≤ 2 ^ 31 - 1)
    (hmax : max a.length b.length ≤ 2 ^ P) :
    ∃ s, naiveMulString .lp64 a b = .ok s ∧
      (mulString threshold mulVector .lp64 a b).eval = some s := by
  by_cases hcut : a.length ≤ threshold ∨ b.length ≤ threshold
  · have hnaive : ∃ s, naiveMulString .lp64 a b = .ok s := by
      rcases Nat.eq_zero_or_pos (a.length + b.length) with h0 | hpos
      · obtain rfl : a = [] := List.length_eq_zero_iff.mp (by omega)
        obtain rfl : b = [] := List.length_eq_zero_iff.mp (by omega)
        exact ⟨[], naiveMulString_empty .lp64⟩
      · obtain ⟨s, hs, _⟩ := naiveMulString_ok a b ha hb hpos hmin
        exact ⟨s, hs⟩
    obtain ⟨s, hs⟩ := hnaive
    exact ⟨s, hs, by rw [mulString, if_pos hcut, hs]; rfl⟩
  · obtain ⟨pa, hpa, h6a, hPa, hna⟩ := vectorLength_padded (P := P) (n := a.length) (by omega)
      (by omega)
    obtain ⟨pb, hpb, h6b, hPb, hnb⟩ := vectorLength_padded (P := P) (n := b.length) (by omega)
      (by omega)
    obtain ⟨s, hs, hcs⟩ := naiveMulString_ok a b ha hb (by omega) hmin
    have hla : 2 ^ pa ≤ 2 ^ max pa pb := Nat.pow_le_pow_right (by omega) (Nat.le_max_left _ _)
    have hlb : 2 ^ pb ≤ 2 ^ max pa pb := Nat.pow_le_pow_right (by omega) (Nat.le_max_right _ _)
    have hsize : max (2 ^ pa) (2 ^ pb) = 2 ^ max pa pb := by
      rcases Nat.le_total pa pb with h | h
      · rw [Nat.max_eq_right h, Nat.max_eq_right (Nat.pow_le_pow_right (by omega) h)]
      · rw [Nat.max_eq_left h, Nat.max_eq_left (Nat.pow_le_pow_right (by omega) h)]
    have hdig : ∀ {c : Str}, IsDecimal c → c.length ≤ 2 ^ max pa pb →
        Entries (Subsemiring.nonneg ℤ) 9 (resizeTo (digits c) (2 ^ max pa pb)) := fun hc hl =>
      entries_resizeTo (entries_digits hc) (by rwa [digits_length])
    obtain ⟨t, ht, hct⟩ := productString_ok (p := max pa pb) ha hb (by omega) hmin (by omega)
      (by omega)
    refine ⟨s, hs, ?_⟩
    have hva := computes_invoke (m := .ok (resizeTo (digits a) (2 ^ pa)))
      (by rw [stringToVector_eval a true, hpa]; rfl)
    have hvb := computes_invoke (m := .ok (resizeTo (digits b) (2 ^ pb)))
      (by rw [stringToVector_eval b true, hpb]; rfl)
    have hcomp : (mulString threshold mulVector .lp64 a b).Computes (.ok t) := by
      rw [mulString, if_neg hcut]
      refine computes_bind_ok hva (computes_bind_ok hvb ?_)
      dsimp only
      rw [resizeTo_length, resizeTo_length, hsize,
        resizeTo_resizeTo (by rwa [digits_length]) hla,
        resizeTo_resizeTo (by rwa [digits_length]) hlb]
      refine computes_bind_ok (hmul (max pa pb) (by omega) (by omega) _ _ (resizeTo_length _ _)
        (resizeTo_length _ _) (hdig ha (by omega)) (hdig hb (by omega))) ?_
      rw [ht]
      exact computes_lift _
    rw [hcomp.eval, hcs.unique hct]
    rfl

/-! ## Karatsuba -/

theorem karatsuba_multipliesDigits : MultipliesDigits 30 fun x y =>
    lift (karatsubaMulVector .lp64 x y) := by
  intro p h6 h30 x y hx hy hxe hye
  dsimp only
  rw [karatsubaMulVector_digits h6 h30 hx hy hxe hye]
  exact computes_lift _

theorem parKaratsuba_multipliesDigits : MultipliesDigits 30 fun x y =>
    invoke (parKaratsubaMulVectorOpen .lp64 x y) := by
  intro p h6 h30 x y hx hy hxe hye
  have hp : p < 2 ^ p := Nat.lt_two_pow_self
  have h := recurse_par_ok (variant_open .lp64) (Nat.le_refl _)
    (fun v _ hvb => lp64_long v (hvb.trans_lt (by exact_mod_cast digit_bound_lt h30))) (p - 6) 9
    (x.length + 1) (by omega) (digit_bound h6).le (hx.trans (two_pow_eq h6))
    (hy.trans (two_pow_eq h6)) hxe hye
  exact computes_invoke h

/-- **Karatsuba agrees with the naive algorithm on strings.** On decimal strings
of at most `2 ^ 30` characters, the shorter of at most 23860929, neither function
faults and both return the string of `naive_mul_string`. -/
theorem karatsubaMulString_eq_naive (a b : Str) (ha : IsDecimal a) (hb : IsDecimal b)
    (hmin : min a.length b.length ≤ 23860929) (hmax : max a.length b.length ≤ 2 ^ 30) :
    ∃ s, naiveMulString .lp64 a b = .ok s ∧ (karatsubaMulString .lp64 a b).eval = some s ∧
      (parKaratsubaMulString .lp64 a b).eval = some s := by
  obtain ⟨s, hs, hk⟩ := mulString_eq_naive (by decide) (Nat.le_refl 64) karatsuba_multipliesDigits
    a b ha hb (by omega) hmax
  obtain ⟨t, ht, hp⟩ := mulString_eq_naive (by decide) (Nat.le_refl 64)
    parKaratsuba_multipliesDigits a b ha hb (by omega) hmax
  obtain rfl := Except.ok.inj (hs.symm.trans ht)
  exact ⟨s, hs, hk, hp⟩

/-- Seventy nines by a leading zero and eighty ones. -/
theorem karatsubaMulString_eq_naive_70_81 :
    ∃ s, naiveMulString .lp64 (List.replicate 70 '9') ('0' :: List.replicate 80 '1') = .ok s ∧
      (karatsubaMulString .lp64 (List.replicate 70 '9') ('0' :: List.replicate 80 '1')).eval =
        some s ∧
      (parKaratsubaMulString .lp64 (List.replicate 70 '9') ('0' :: List.replicate 80 '1')).eval =
        some s :=
  karatsubaMulString_eq_naive _ _ (by decide) (by decide) (by decide) (by decide)

/-! ## Toom-Cook -/

theorem toomCook_multipliesDigits : MultipliesDigits 20 fun x y =>
    lift (toomCookMulVector .lp64 x y) := by
  intro p _ h20 x y hx hy hxe hye
  dsimp only
  rw [toomCookMulVector_lp64 h20 hx hy hxe hye]
  exact computes_lift _

theorem parToomCook_multipliesDigits : MultipliesDigits 20 fun x y =>
    invoke (parToomCookMulVector .lp64 x y) := fun p _ h20 x y hx hy hxe hye =>
  computes_invoke (by rw [parToomCookMulVector_eval, toomCookMulVector_lp64 h20 hx hy hxe hye])

theorem parToomCookPlib_multipliesDigits : MultipliesDigits 20 fun x y =>
    invoke (parToomCookMulVectorPlib .lp64 x y) := fun p _ h20 x y hx hy hxe hye =>
  computes_invoke
    (by rw [parToomCookMulVectorPlib_eval, toomCookMulVector_lp64 h20 hx hy hxe hye])

/-- **Toom-Cook agrees with the naive algorithm on strings.** On decimal strings
of at most `2 ^ 20` characters none of the three functions faults and all return
the string of `naive_mul_string`. -/
theorem toomCookMulString_eq_naive (a b : Str) (ha : IsDecimal a) (hb : IsDecimal b)
    (hmax : max a.length b.length ≤ 2 ^ 20) :
    ∃ s, naiveMulString .lp64 a b = .ok s ∧ (toomCookMulString .lp64 a b).eval = some s ∧
      (parToomCookMulString .lp64 a b).eval = some s ∧
      (parToomCookMulStringPlib .lp64 a b).eval = some s := by
  obtain ⟨s, hs, hseq⟩ := mulString_eq_naive (by decide) (Nat.le_refl 64)
    toomCook_multipliesDigits a b ha hb (by omega) hmax
  obtain ⟨t, ht, hpar⟩ := mulString_eq_naive (by decide) (Nat.le_refl 64)
    parToomCook_multipliesDigits a b ha hb (by omega) hmax
  obtain ⟨u, hu, hplib⟩ := mulString_eq_naive (by decide) (Nat.le_refl 64)
    parToomCookPlib_multipliesDigits a b ha hb (by omega) hmax
  obtain rfl := Except.ok.inj (hs.symm.trans ht)
  obtain rfl := Except.ok.inj (hs.symm.trans hu)
  exact ⟨s, hs, hseq, hpar, hplib⟩

/-- Seventy nines by a leading zero and eighty ones. -/
theorem toomCookMulString_eq_naive_70_81 :
    ∃ s, naiveMulString .lp64 (List.replicate 70 '9') ('0' :: List.replicate 80 '1') = .ok s ∧
      (toomCookMulString .lp64 (List.replicate 70 '9') ('0' :: List.replicate 80 '1')).eval =
        some s ∧
      (parToomCookMulString .lp64 (List.replicate 70 '9') ('0' :: List.replicate 80 '1')).eval =
        some s ∧
      (parToomCookMulStringPlib .lp64 (List.replicate 70 '9')
        ('0' :: List.replicate 80 '1')).eval = some s :=
  toomCookMulString_eq_naive _ _ (by decide) (by decide) (by decide)

end BigintMultiply.Strings
