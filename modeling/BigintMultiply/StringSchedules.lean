import BigintMultiply.Strings

/-! The string functions under every schedule.

* `mulString_returns`: a string function over a vector function that multiplies
  digits returns the canonical decimal of the product;
* `parallelStrings_everySchedule`: no order of the tasks and iterations of the
  parallel string functions changes that. -/

namespace BigintMultiply.StringSchedules
open Checked Vectors Coefficients Decimal Naive Utils ForkJoin Prog
open SeqKaratsuba SeqToomCook ParKaratsuba ParToomCook Strings

/-- In program order the call returns the canonical decimal of `n`. -/
def Returns (p : Prog Var Str) (n : Nat) : Prop := ∃ s, Canonical s n ∧ p.eval = some s

theorem mulString_raceFree (threshold : Nat) {mulVector : Vec → Vec → Prog Var Vec}
    (h : ∀ x y, (mulVector x y).RaceFree) (M : Machine) (a b : Str) :
    (mulString threshold mulVector M a b).RaceFree := by
  refine raceFree_ite (raceFree_lift _) ?_
  refine raceFree_bind (raceFree_invoke (stringToVector_raceFree a true)) fun aVec => ?_
  refine raceFree_bind (raceFree_invoke (stringToVector_raceFree b true)) fun bVec => ?_
  exact raceFree_bind (h _ _) fun _ => raceFree_lift _

theorem mulString_returns {P threshold : Nat} (hP : P ≤ 30) (ht : 64 ≤ threshold)
    {mulVector : Vec → Vec → Prog Var Vec} (hmul : MultipliesDigits P mulVector) {a b : Str}
    (ha : IsDecimal a) (hb : IsDecimal b) (hne : 0 < a.length + b.length)
    (hmin : min a.length b.length ≤ 23860929) (hmax : max a.length b.length ≤ 2 ^ P) :
    Returns (mulString threshold mulVector .lp64 a b) (decimalValue a * decimalValue b) := by
  obtain ⟨s, hs, hm⟩ := mulString_eq_naive hP ht hmul a b ha hb (by omega) hmax
  obtain ⟨t, ht, hc⟩ := naiveMulString_ok a b ha hb hne (by omega)
  obtain rfl := Except.ok.inj (hs.symm.trans ht)
  exact ⟨s, hc, hm⟩

/-- A race-free call that returns the decimal returns it under every schedule. -/
theorem Returns.everySchedule {p : Prog Var Str} {n : Nat} {s : Str} (h : Returns p n)
    (hR : p.RaceFree) (hs : Canonical s n) : p.EverySchedule s := by
  obtain ⟨t, ht, hp⟩ := h
  obtain rfl := hs.unique ht
  exact everySchedule_of_eval hR hp

section Members

variable {a b : Str} (ha : IsDecimal a) (hb : IsDecimal b) (hne : 0 < a.length + b.length)

include ha hb hne

theorem karatsuba_returns (hmin : min a.length b.length ≤ 23860929)
    (hmax : max a.length b.length ≤ 2 ^ 30) :
    Returns (karatsubaMulString .lp64 a b) (decimalValue a * decimalValue b) :=
  mulString_returns (by decide) (Nat.le_refl 64) karatsuba_multipliesDigits ha hb hne hmin hmax

theorem parKaratsuba_returns (hmin : min a.length b.length ≤ 23860929)
    (hmax : max a.length b.length ≤ 2 ^ 30) :
    Returns (parKaratsubaMulString .lp64 a b) (decimalValue a * decimalValue b) :=
  mulString_returns (by decide) (Nat.le_refl 64) parKaratsuba_multipliesDigits ha hb hne hmin hmax

theorem toomCook_returns (hmax : max a.length b.length ≤ 2 ^ 20) :
    Returns (toomCookMulString .lp64 a b) (decimalValue a * decimalValue b) :=
  mulString_returns (by decide) (by decide) toomCook_multipliesDigits ha hb hne (by omega) hmax

theorem parToomCook_returns (hmax : max a.length b.length ≤ 2 ^ 20) :
    Returns (parToomCookMulString .lp64 a b) (decimalValue a * decimalValue b) :=
  mulString_returns (by decide) (by decide) parToomCook_multipliesDigits ha hb hne (by omega) hmax

theorem parToomCookPlib_returns (hmax : max a.length b.length ≤ 2 ^ 20) :
    Returns (parToomCookMulStringPlib .lp64 a b) (decimalValue a * decimalValue b) :=
  mulString_returns (by decide) (by decide) parToomCookPlib_multipliesDigits ha hb hne (by omega)
    hmax

end Members

theorem karatsubaMulString_raceFree (M : Machine) (a b : Str) :
    (karatsubaMulString M a b).RaceFree :=
  mulString_raceFree _ (fun _ _ => raceFree_lift _) M a b

theorem parKaratsubaMulString_raceFree (M : Machine) (a b : Str) :
    (parKaratsubaMulString M a b).RaceFree :=
  mulString_raceFree _ (fun x y => raceFree_invoke (parKaratsubaMulVectorOpen_raceFree M x y)) M a b

theorem toomCookMulString_raceFree (M : Machine) (a b : Str) :
    (toomCookMulString M a b).RaceFree :=
  mulString_raceFree _ (fun _ _ => raceFree_lift _) M a b

theorem parToomCookMulString_raceFree (M : Machine) (a b : Str) :
    (parToomCookMulString M a b).RaceFree :=
  mulString_raceFree _ (fun x y => raceFree_invoke (parToomCookMulVector_raceFree M x y)) M a b

theorem parToomCookMulStringPlib_raceFree (M : Machine) (a b : Str) :
    (parToomCookMulStringPlib M a b).RaceFree :=
  mulString_raceFree _ (fun x y => raceFree_invoke (parToomCookMulVectorPlib_raceFree M x y)) M a b

/-- **The parallel string functions do not depend on the schedule.** On decimal
operands that are not both empty, every order of the tasks and iterations inside
a call ends, without a fault, in the canonical decimal of the product. -/
theorem parallelStrings_everySchedule (a b : Str) (ha : IsDecimal a) (hb : IsDecimal b)
    (hne : a ≠ [] ∨ b ≠ []) (hmin : min a.length b.length ≤ 23860929)
    (hmax : max a.length b.length ≤ 2 ^ 30) :
    ∃ s, Canonical s (decimalValue a * decimalValue b) ∧
      (parKaratsubaMulString .lp64 a b).EverySchedule s ∧
      (max a.length b.length ≤ 2 ^ 20 →
        (parToomCookMulString .lp64 a b).EverySchedule s ∧
        (parToomCookMulStringPlib .lp64 a b).EverySchedule s) := by
  have hpos : 0 < a.length + b.length := by
    rcases hne with h | h
    · exact Nat.add_pos_left (List.length_pos_iff.mpr h) _
    · exact Nat.add_pos_right _ (List.length_pos_iff.mpr h)
  obtain ⟨s, hs, hk⟩ := parKaratsuba_returns ha hb hpos hmin hmax
  refine ⟨s, hs, everySchedule_of_eval (parKaratsubaMulString_raceFree .lp64 a b) hk,
    fun hsmall => ⟨?_, ?_⟩⟩
  · exact (parToomCook_returns ha hb hpos hsmall).everySchedule
      (parToomCookMulString_raceFree .lp64 a b) hs
  · exact (parToomCookPlib_returns ha hb hpos hsmall).everySchedule
      (parToomCookMulStringPlib_raceFree .lp64 a b) hs

/-- One hundred and five nines by a zero and one hundred and one sevens. -/
theorem parallelStrings_everySchedule_105_102 :
    ∃ s, Canonical s (decimalValue (List.replicate 105 '9') *
        decimalValue ('0' :: List.replicate 101 '7')) ∧
      (parKaratsubaMulString .lp64 (List.replicate 105 '9')
        ('0' :: List.replicate 101 '7')).EverySchedule s ∧
      (max (List.replicate 105 '9').length ('0' :: List.replicate 101 '7').length ≤ 2 ^ 20 →
        (parToomCookMulString .lp64 (List.replicate 105 '9')
          ('0' :: List.replicate 101 '7')).EverySchedule s ∧
        (parToomCookMulStringPlib .lp64 (List.replicate 105 '9')
          ('0' :: List.replicate 101 '7')).EverySchedule s) :=
  parallelStrings_everySchedule _ _ (by decide) (by decide) (.inl (List.cons_ne_nil _ _))
    (by decide) (by decide)

end BigintMultiply.StringSchedules
