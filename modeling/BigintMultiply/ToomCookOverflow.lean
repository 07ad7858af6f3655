import BigintMultiply.SeqKaratsuba
import BigintMultiply.SeqToomCook

/-! The 64-bit range of Toom-Cook on vectors of `2 ^ p` decimal digits.

* `follows_toomCookMulVector`: a run on observed values is the run on exact
  integers or overflows;
* `toomCookMulVector_overflow`: digits chosen by the signs of their weights after
  `d` evaluations at `-2` make a leaf of the recursion overflow;
* `toomCookMulVector_inRange_iff`: up to `p = 24` all values of all runs are in
  range exactly for `p ≤ 20`. -/

namespace BigintMultiply.ToomCookOverflow
open Checked Vectors Coefficients Naive SeqKaratsuba SeqToomCook Polynomial
open Finset.HasAntidiagonal (antidiagonal mem_antidiagonal)

/-! ## Observed runs follow the exact run -/

section FollowsExact

variable (p : Int → Bool)

theorem follows_fill (n : Nat) {f f' : Nat → Run Int} (h : ∀ i, Follows (f i) (f' i)) :
    Follows (fill n f) (fill n f') :=
  Follows.forLoop n (fun i _ => (h i).bind fun _ => .refl _) _

theorem follows_add (a b : Vec) : Follows (add (.observing p) a b) (add .exact a b) :=
  follows_fill _ fun _ => (Follows.refl _).bind fun _ => (Follows.refl _).bind fun _ =>
    follows_longVal p _

theorem follows_subtract (a b : Vec) :
    Follows (subtract (.observing p) a b) (subtract .exact a b) :=
  follows_fill _ fun _ => (Follows.refl _).bind fun _ => (Follows.refl _).bind fun _ =>
    follows_longVal p _

theorem follows_multiplyScalar (a : Vec) (s : Int) :
    Follows (multiplyScalar (.observing p) a s) (multiplyScalar .exact a s) :=
  follows_fill _ fun _ => (Follows.refl _).bind fun _ => follows_longVal p _

theorem follows_divideScalar (a : Vec) (s : Int) :
    Follows (divideScalar (.observing p) a s) (divideScalar .exact a s) :=
  follows_fill _ fun _ => (Follows.refl _).bind fun _ => follows_longDiv p _ _

theorem follows_naiveMulVector (x y : Vec) :
    Follows (naiveMulVector (.observing p) x y) (naiveMulVector .exact x y) := by
  refine Follows.forLoop _ (fun i res => Follows.forLoop _ (fun j res => ?_) res) _
  refine (Follows.refl _).bind fun _ => (Follows.refl _).bind fun _ => ?_
  refine (follows_longVal p _).bind fun _ => (Follows.refl _).bind fun _ => ?_
  exact (follows_longVal p _).bind fun _ => .refl _

theorem respectsBind_follows : RespectsBind fun α => Follows (α := α) :=
  ⟨fun _ => .refl _, fun hm hf => hm.bind hf⟩

theorem helpers_follow :
    RelatedHelpers (fun _ => Follows) (.observing p) .exact
      (helpers (.observing p)) (helpers .exact) where
  add a b := follows_add p a b
  subtract a b := follows_subtract p a b
  multiplyScalar a c := follows_multiplyScalar p a c
  divideScalar a c := follows_divideScalar p a c
  shift _ _ := .refl _
  naive x y := follows_naiveMulVector p x y
  split _ _ := .refl _
  intVal _ := .refl _
  toInt := rfl

theorem follows_products {rec rec' : Vec → Vec → Run Vec}
    (h : ∀ x y, Follows (rec x y) (rec' x y)) (n : Nat) (P Q : Points) :
    Follows (products rec n P Q) (products rec' n P Q) :=
  (h _ _).bind fun _ => (h _ _).bind fun _ => (h _ _).bind fun _ => (h _ _).bind fun _ =>
    (h _ _).bind fun _ => .refl _

/-- An observed run of Toom-Cook returns the product or overflows. -/
theorem follows_toomCookMulVector {x y : Vec} (hlen : y.length = x.length) :
    Follows (toomCookMulVector (.observing p) x y) (.ok (convolve x y)) := by
  rw [← toomCookMulVector_exact hlen]
  exact Follows.recurse (fun _ _ h => toomCookBody_related respectsBind_follows (helpers_follow p)
    (follows_products h)) _ _ x y

end FollowsExact

/-! ## Down the calls at the point -2 -/

/-- The length of a part. -/
def third (n : Nat) : Nat := (n + 2) / 3

/-- The operand of the call at the point `-2`. -/
def atMinusTwo (x : Vec) : Vec :=
  tabulate (third x.length) fun i =>
    at0 x i - 2 * at0 x (third x.length + i) + 4 * at0 x (2 * third x.length + i)

theorem at0_piece {x : Vec} {k i j : Nat} (hj : j < k) :
    at0 (piece x k i) j = at0 x (i * k + j) := by
  rw [piece, at0_take, if_pos hj, at0_drop]

/-- A run that evaluates the parts of `x` has computed `atMinusTwo x`. -/
theorem evaluate_pm2 {p : Int → Bool} {x : Vec} (h : toomCookThreshold < x.length) {P : Points}
    (hP : evaluate (helpers (.observing p)) (pieces x (third x.length)) = .ok P) :
    P.pm2 = atMinusTwo x := by
  have h64 : 64 < x.length := h
  have hk : third x.length = (x.length + 2) / 3 := rfl
  obtain ⟨c, hc⟩ := exists_entries x
  have hb : ∀ k i j, |at0 (piece x k i) j| ≤ c := fun k i j => ((entries_piece hc k i).at0 j).2
  obtain ⟨l0, l1, l2⟩ := pieces_length (x := x) (k := third x.length) (by omega) (by omega)
  obtain ⟨Q, hQ, hQe⟩ := evaluate_ok (M := .exact) (p := fun _ _ => true)
    (X := pieces x (third x.length)) l0 l1 (l2.trans_le (by omega)) (hb _ 0) (hb _ 1) (hb _ 2)
    fun _ _ => rfl
  have hPQ : P = Q := by
    have he := (evaluate_related respectsBind_follows (helpers_follow p) _).eq_ok hP
    rw [helpers_eq, hQ] at he
    exact (Except.ok.inj he).symm
  rw [hPQ]
  refine vec_ext (by rw [hQe.pm2.1, atMinusTwo, tabulate_length]) fun i hi => ?_
  rw [hQe.pm2.1] at hi
  rw [hQe.pm2.2, atMinusTwo, at0_tabulate, if_pos hi]
  simp only [pieces, at0_piece hi, Nat.zero_mul, Nat.one_mul, Nat.zero_add]

/-- A call above the threshold that returns has made the call at the point `-2`. -/
theorem call_atMinusTwo {p : Int → Bool} {rec : Vec → Vec → Run Vec} {x y r : Vec}
    (hlen : y.length = x.length) (hlarge : toomCookThreshold < x.length)
    (h : toomCookBody (.observing p) (helpers (.observing p)) (products rec) x y = .ok r) :
    ∃ s, rec (atMinusTwo x) (atMinusTwo y) = .ok s := by
  have h64 : 64 < x.length := hlarge
  have hk : third x.length = (x.length + 2) / 3 := rfl
  have hsplit : ∀ z : Vec, z.length = x.length →
      split (.observing p) (third x.length : Nat) z = .ok (pieces z (third x.length)) :=
    fun z hz => split_ok (by omega) (fun _ _ => rfl) rfl
  rw [toomCookBody, if_neg (Nat.not_le.mpr hlarge)] at h
  obtain ⟨X, hX, h⟩ := bind_eq_ok.mp h
  obtain ⟨Y, hY, h⟩ := bind_eq_ok.mp h
  obtain ⟨P, hP, h⟩ := bind_eq_ok.mp h
  obtain ⟨Q, hQ, h⟩ := bind_eq_ok.mp h
  obtain ⟨R, hR, _⟩ := bind_eq_ok.mp h
  obtain rfl : pieces x (third x.length) = X := Except.ok.inj ((hsplit x rfl).symm.trans hX)
  obtain rfl : pieces y (third x.length) = Y := Except.ok.inj ((hsplit y hlen).symm.trans hY)
  obtain ⟨R0, _, hR⟩ := bind_eq_ok.mp hR
  obtain ⟨R1, _, hR⟩ := bind_eq_ok.mp hR
  obtain ⟨Rm1, _, hR⟩ := bind_eq_ok.mp hR
  obtain ⟨Rm2, hRm2, _⟩ := bind_eq_ok.mp hR
  rw [evaluate_pm2 hlarge hP, evaluate_pm2 (x := y) (by omega) (by rw [hlen]; exact hQ)] at hRm2
  exact ⟨Rm2, hRm2⟩

/-- The schoolbook leaf that returns has stored only observed values. -/
theorem naiveMulVector_observed {p : Int → Bool} (h0 : p 0 = true) {x y r : Vec}
    (h : naiveMulVector (.observing p) x y = .ok r) (i : Nat) : p (at0 r i) = true := by
  have hstore : ∀ (v w : Vec) (m : Nat) (s : Int), p s = true → (∀ i, p (at0 v i) = true) →
      store v m s = .ok w → ∀ i, p (at0 w i) = true := by
    intro v w m s hs hv hw i
    unfold store at hw
    split at hw
    · rw [← Except.ok.inj hw, at0_set v m s i (by assumption)]
      split
      · exact hs
      · exact hv i
    · cases hw
  refine forLoop_preserves (fun v => ∀ i, p (at0 v i) = true) (fun i v w hv hw => ?_)
    (fun i => by rw [at0_zeros]; exact h0) h i
  refine forLoop_preserves (fun v => ∀ i, p (at0 v i) = true) (fun j v w hv hw => ?_) hv hw
  obtain ⟨a, _, hw⟩ := bind_eq_ok.mp hw
  obtain ⟨b, _, hw⟩ := bind_eq_ok.mp hw
  obtain ⟨c, _, hw⟩ := bind_eq_ok.mp hw
  obtain ⟨t, _, hw⟩ := bind_eq_ok.mp hw
  obtain ⟨s, hs, hw⟩ := bind_eq_ok.mp hw
  obtain ⟨rfl, hp⟩ := longVal_eq_ok hs
  exact hstore v w _ _ hp hv hw

/-- Coefficient `m` of the square of a vector that starts with `m + 1` equal entries. -/
theorem at0_convolve_self {x : Vec} {a : Int} {m : Nat} (h : ∀ i ≤ m, at0 x i = a) :
    at0 (convolve x x) m = (m + 1) * (a * a) := by
  have hsum : ∀ q ∈ antidiagonal m, at0 x q.1 * at0 x q.2 = a * a := by
    intro q hq
    have hq := mem_antidiagonal.mp hq
    rw [h q.1 (by omega), h q.2 (by omega)]
  rw [at0_convolve, coeff_mul_eq_sum, Finset.sum_congr rfl hsum, Finset.sum_const,
    Finset.Nat.card_antidiagonal, nsmul_eq_mul]
  push_cast
  rfl

/-! ## The worst digits -/

/-- Whether the entry at `i` of a vector of length `n` counts positively after
`d` evaluations at the point `-2`: the second of three parts changes the sign. -/
def positive : Nat → Nat → Nat → Bool
  | 0, _, _ => true
  | d + 1, n, i =>
    if i / third n = 1 then !positive d (third n) (i % third n)
    else positive d (third n) (i % third n)

/-- The digit 9 where it counts positively and 0 elsewhere. -/
def worstDigits (d n : Nat) : Vec := tabulate n fun i => if positive d n i then 9 else 0

/-- The first `g` of the `n` entries of `v` are `a` where they count positively
and `b` elsewhere. -/
structure Patterned (d n g : Nat) (a b : Int) (v : Vec) : Prop where
  length : v.length = n
  le : g ≤ n
  entry : ∀ i < g, at0 v i = if positive d n i then a else b

@[simp] theorem worstDigits_length (d n : Nat) : (worstDigits d n).length = n :=
  tabulate_length n _

theorem worstDigits_digits (d n : Nat) : ∀ a ∈ worstDigits d n, 0 ≤ a ∧ a ≤ 9 := by
  intro a ha
  obtain ⟨i, _, rfl⟩ := List.mem_map.mp ha
  split <;> decide

theorem patterned_worstDigits (d n : Nat) : Patterned d n n 9 0 (worstDigits d n) :=
  ⟨worstDigits_length d n, Nat.le_refl n, fun i hi => by rw [worstDigits, at0_tabulate, if_pos hi]⟩

/-- Where entry `i` of part `q` counts. -/
theorem positive_part (d n q i : Nat) (hi : i < third n) :
    positive (d + 1) n (q * third n + i) =
      if q = 1 then !positive d (third n) i else positive d (third n) i := by
  have hq : (q * third n + i) / third n = q := by
    rw [Nat.mul_comm, Nat.mul_add_div (by omega), Nat.div_eq_of_lt hi, Nat.add_zero]
  have hr : (q * third n + i) % third n = i := by
    rw [Nat.mul_comm, Nat.mul_add_mod, Nat.mod_eq_of_lt hi]
  rw [positive, hq, hr]

/-- One evaluation at `-2` keeps the pattern and multiplies the distance of its
two values by seven. -/
theorem Patterned.atMinusTwo {d n g : Nat} {a b : Int} {v : Vec} (h : Patterned (d + 1) n g a b v) :
    Patterned d (third n) (g - 2 * third n) (5 * a - 2 * b) (5 * b - 2 * a) (atMinusTwo v) := by
  have hk : third n = (n + 2) / 3 := rfl
  have hg := h.le
  refine ⟨by rw [ToomCookOverflow.atMinusTwo, tabulate_length, h.length], by omega, fun i hi => ?_⟩
  have hi' : i < third n := by omega
  have h0 := h.entry (0 * third n + i) (by omega)
  have h1 := h.entry (1 * third n + i) (by omega)
  have h2 := h.entry (2 * third n + i) (by omega)
  rw [positive_part d n _ i hi'] at h0 h1 h2
  simp only [Nat.zero_mul, Nat.zero_add, Nat.one_mul] at h0 h1 h2
  rw [ToomCookOverflow.atMinusTwo, at0_tabulate, h.length, if_pos hi', h0, h1, h2]
  cases positive d (third n) i with
  | true =>
    simp
    ring
  | false =>
    simp
    ring

/-- After `d` evaluations at `-2`, all above the threshold, coefficient `m` of the
square of patterned operands does not fit 64 bits. -/
def leafOverflows (m : Nat) : Nat → Nat → Nat → Int → Int → Bool
  | 0, n, g, a, _ =>
    decide (n ≤ toomCookThreshold) && decide (m < g) && !fits 64 ((m + 1) * (a * a))
  | d + 1, n, g, a, b =>
    decide (toomCookThreshold < n) &&
      leafOverflows m d (third n) (g - 2 * third n) (5 * a - 2 * b) (5 * b - 2 * a)

/-- The run on two patterned operands does not return. -/
theorem recurse_patterned {m d n g fuel e : Nat} {a b : Int} {x r : Vec}
    (hx : Patterned d n g a b x) (h : leafOverflows m d n g a b = true) :
    recurse anyCall (fun rec => toomCookBody (.observing (fits 64)) (helpers (.observing (fits 64)))
      (products rec)) fuel e x x ≠ .ok r := by
  intro hr
  induction d generalizing n g a b x r fuel e with
  | zero =>
    simp only [leafOverflows, Bool.and_eq_true, Bool.not_eq_true', decide_eq_true_eq] at h
    obtain ⟨⟨hn, hm⟩, hover⟩ := h
    cases fuel with
    | zero => cases hr
    | succ fuel =>
      rw [recurse_succ _ _ _ _ _ _ rfl, toomCookBody, if_pos (hx.length.trans_le hn)] at hr
      have hconv := (follows_naiveMulVector _ x x).eq_ok hr
      rw [naiveMulVector_exact rfl] at hconv
      have hfit := naiveMulVector_observed (by decide) hr m
      rw [← Except.ok.inj hconv, at0_convolve_self (a := a) fun i hi => by
        rw [hx.entry i (by omega), positive, if_pos rfl], hover] at hfit
      cases hfit
  | succ d ih =>
    simp only [leafOverflows, Bool.and_eq_true, decide_eq_true_eq] at h
    cases fuel with
    | zero => cases hr
    | succ fuel =>
      rw [recurse_succ _ _ _ _ _ _ rfl] at hr
      obtain ⟨s, hs⟩ := call_atMinusTwo rfl (by rw [hx.length]; exact h.1) hr
      exact ih hx.atMinusTwo h.2 hs

/-- **The worst digits overflow.** -/
theorem toomCookMulVector_overflow {m d n : Nat} (h : leafOverflows m d n n 9 0 = true) :
    toomCookMulVector (.observing (fits 64)) (worstDigits d n) (worstDigits d n) =
      .error .overflow := by
  rcases follows_toomCookMulVector (fits 64) (rfl : (worstDigits d n).length = _) with hr | hr
  · exact hr
  · exact absurd hr (recurse_patterned (patterned_worstDigits d n) h)

/-- **The lengths at which Toom-Cook stays in range.** For `p ≤ 24`, all runs on
two vectors of `2 ^ p` digits compute only values that fit 64 bits exactly when
`p ≤ 20`. -/
theorem toomCookMulVector_inRange_iff (p : Nat) (hp : p ≤ 24) :
    (∀ x y : Vec, x.length = 2 ^ p → y.length = 2 ^ p → (∀ a ∈ x, 0 ≤ a ∧ a ≤ 9) →
      (∀ a ∈ y, 0 ≤ a ∧ a ≤ 9) →
      ∃ r, toomCookMulVector (.observing (fits 64)) x y = .ok r) ↔ p ≤ 20 := by
  constructor
  · intro h
    by_contra h20
    have hover : ∃ d m, leafOverflows m d (2 ^ p) (2 ^ p) 9 0 = true := by
      obtain rfl | rfl | rfl | rfl : p = 21 ∨ p = 22 ∨ p = 23 ∨ p = 24 := by omega
      · exact ⟨10, 5, by decide⟩
      · exact ⟨11, 0, by decide⟩
      · exact ⟨11, 0, by decide⟩
      · exact ⟨12, 0, by decide⟩
    obtain ⟨d, m, hover⟩ := hover
    obtain ⟨r, hr⟩ := h (worstDigits d (2 ^ p)) (worstDigits d (2 ^ p)) (worstDigits_length _ _)
      (worstDigits_length _ _) (worstDigits_digits d _) (worstDigits_digits d _)
    rw [toomCookMulVector_overflow hover] at hr
    cases hr
  · intro h20 x y hx hy hxd hyd
    exact ⟨_, recurse_toomCook_digits (M := .observing (fits 64)) lp64_long (fun _ _ => rfl)
      (fun _ _ => rfl) h20 hx hy (.inr (Nat.lt_succ_self _)) (entries_of_range hxd)
      (entries_of_range hyd)⟩

/-- The longest vectors of nines in range. -/
theorem toomCookMulVector_inRange_iff_nines :
    ∃ r, toomCookMulVector (.observing (fits 64)) (List.replicate (2 ^ 20) 9)
      (List.replicate (2 ^ 20) 9) = .ok r := by
  have h9 : ∀ a ∈ List.replicate (2 ^ 20) (9 : Int), 0 ≤ a ∧ a ≤ 9 := by
    intro a ha
    rw [List.eq_of_mem_replicate ha]
    decide
  exact (toomCookMulVector_inRange_iff 20 (by decide)).mpr (Nat.le_refl 20) _ _
    List.length_replicate List.length_replicate h9 h9

/-- At `2 ^ 21` digits Toom-Cook overflows on operands that Karatsuba multiplies. -/
theorem toomCookMulVector_not_inRange :
    (worstDigits 10 (2 ^ 21)).length = 2 ^ 21 ∧ (∀ a ∈ worstDigits 10 (2 ^ 21), 0 ≤ a ∧ a ≤ 9) ∧
      toomCookMulVector (.observing (fits 64)) (worstDigits 10 (2 ^ 21))
        (worstDigits 10 (2 ^ 21)) = .error .overflow ∧
      karatsubaMulVector .lp64 (worstDigits 10 (2 ^ 21)) (worstDigits 10 (2 ^ 21)) =
        .ok (convolve (worstDigits 10 (2 ^ 21)) (worstDigits 10 (2 ^ 21))) := by
  have hlen : (worstDigits 10 (2 ^ 21)).length = 2 ^ 21 := worstDigits_length _ _
  have hdig := worstDigits_digits 10 (2 ^ 21)
  exact ⟨hlen, hdig, toomCookMulVector_overflow (m := 5) (by decide),
    karatsubaMulVector_digits (by decide) (by decide) hlen hlen (entries_of_range hdig)
      (entries_of_range hdig)⟩

end BigintMultiply.ToomCookOverflow
