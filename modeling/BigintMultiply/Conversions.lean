import BigintMultiply.Utils

/-! The two conversions of `utils.cpp` over the whole range of their inputs.

* `vectorToString_canonical_iff`: `vector_to_string` copies its `long long`
  entries to a `vector<int>`, so it prints the value of the vector exactly when
  an `int` holds every place with its carry and every index of the result;
* `stringToVector_roundTrip`: a string survives the way to a vector and back,
  under every schedule, but for its leading zeros. -/

namespace BigintMultiply.Conversions
open Checked Vectors Coefficients Decimal Naive Utils ForkJoin Prog

/-! ## What a run that returns has done -/

theorem carryIfTen_cases {M : Machine} {w u : Vec} {k : Nat} (h : carryIfTen M k w = .ok u) :
    (at0 w k < 10 ∧ u = w) ∨ (10 ≤ at0 w k ∧ k + 1 < w.length ∧
      M.int (at0 w (k + 1) + (at0 w k).tdiv 10) = true ∧ u = carryStep w k) := by
  have hrun := h
  obtain ⟨a, ha, h⟩ := bind_eq_ok.mp h
  obtain ⟨rfl, _⟩ := load_eq_ok ha
  split at h
  · obtain ⟨b, hb, h⟩ := bind_eq_ok.mp h
    obtain ⟨rfl, hk⟩ := load_eq_ok hb
    obtain ⟨_, hc, h⟩ := bind_eq_ok.mp h
    obtain ⟨rfl, _⟩ := load_eq_ok hc
    obtain ⟨_, hs, _⟩ := bind_eq_ok.mp h
    have hM := (intVal_eq_ok hs).2
    rw [carryIfTen_ok hk (by omega) hM] at hrun
    exact .inr ⟨by assumption, hk, hM, (Except.ok.inj hrun).symm⟩
  · exact .inl ⟨by omega, (Except.ok.inj h).symm⟩

/-- What the carry loop keeps on any entries: it moves only positive tens, so a
place that is negative has only risen. -/
structure Carried (a w : Vec) : Prop where
  length : w.length = a.length
  value : value w = value a
  negative : ∀ i, at0 w i < 0 → at0 a i ≤ at0 w i

theorem carried_step {M : Machine} {a w u : Vec} {k : Nat} (h : Carried a w)
    (hu : carryIfTen M k w = .ok u) : Carried a u := by
  rcases carryIfTen_cases hu with ⟨_, rfl⟩ | ⟨h10, hk, _, rfl⟩
  · exact h
  · have hdiv : 0 ≤ (at0 w k).tdiv 10 := Int.tdiv_nonneg (by omega) (by norm_num)
    have hmod : 0 ≤ (at0 w k).tmod 10 := Int.tmod_nonneg 10 (by omega)
    constructor
    · rw [carryStep_length, h.length]
    · rw [value_carryStep hk, h.value]
    · intro i hi
      rw [at0_carryStep hk] at hi ⊢
      by_cases h1 : i = k
      · rw [if_pos h1] at hi
        omega
      · by_cases h2 : i = k + 1
        · rw [if_neg h1, if_pos h2] at hi ⊢
          subst h2
          have := h.negative (k + 1) (by omega)
          omega
        · rw [if_neg h1, if_neg h2] at hi ⊢
          exact h.negative i hi

theorem carried_run {M : Machine} {a w : Vec} {n : Nat}
    (h : forLoop n (carryIfTen M) a = .ok w) : Carried a w :=
  forLoop_preserves (Carried a) (fun _ _ _ hi hu => carried_step hi hu)
    ⟨rfl, rfl, fun _ _ => le_refl _⟩ h

theorem printDigit_eq_ok {M : Machine} {w : Vec} {last : Int} {t : Nat} {l u : Str}
    (h : printDigit M w last t l = .ok u) :
    u = l ++ [toChar (48 + at0 w (last - t).toNat)] ∧ (last - t).toNat < w.length := by
  obtain ⟨a, ha, h⟩ := bind_eq_ok.mp h
  obtain ⟨rfl, hi⟩ := load_eq_ok ha
  obtain ⟨c, hc, h⟩ := bind_eq_ok.mp h
  obtain ⟨rfl, _⟩ := intVal_eq_ok hc
  obtain ⟨_, _, h⟩ := bind_eq_ok.mp h
  exact ⟨(Except.ok.inj h).symm, hi⟩

theorem output_eq_ok {M : Machine} {w : Vec} {last : Int} {s : Str}
    (h : forLoop (last + 1).toNat (printDigit M w last) [] = .ok s) :
    s = render w (last + 1).toNat ∧ (last + 1).toNat ≤ w.length := by
  set n := (last + 1).toNat with hn
  have hplace : ∀ t < n, (last - t).toNat = n - 1 - t := by
    intro t ht
    omega
  obtain ⟨rfl, hrun⟩ := forLoop_eq_ok_trace
    (fun k => (List.range k).map fun t => toChar (48 + at0 w (n - 1 - t)))
    (fun t ht u hu => by
      rw [(printDigit_eq_ok hu).1, hplace t ht, List.range_succ, List.map_append,
        List.map_singleton]) h
  refine ⟨rfl, ?_⟩
  by_cases h0 : n = 0
  · omega
  · have h := (printDigit_eq_ok (hrun 0 (by omega))).2
    rw [hplace 0 (by omega)] at h
    omega

/-- A run that returns has carried over the narrowed entries and printed at most
`2 ^ 31` places, whatever they hold. -/
theorem vectorToString_eq_ok {v : Vec} {s : Str} (h : vectorToString .lp64 v = .ok s) :
    ∃ w n, forLoop (sizeSub v.length 1) (carryIfTen .lp64) (v.map Machine.lp64.toInt) = .ok w ∧
      s = render w n ∧ n ≤ w.length ∧ n ≤ 2 ^ 31 := by
  rw [vectorToString_eq, copy_ok, ok_bind, List.length_map] at h
  obtain ⟨w, hw, h⟩ := bind_eq_ok.mp h
  obtain ⟨idx, _, h⟩ := bind_eq_ok.mp h
  have hlast := (lp64_toInt_range (sizeSub idx 1)).2
  generalize Machine.lp64.toInt (sizeSub idx 1) = last at h hlast
  obtain ⟨rfl, hn⟩ := output_eq_ok h
  exact ⟨w, (last + 1).toNat, hw, rfl, hn, by omega⟩

/-! ## A canonical result excludes narrowing -/

/-- A printed place `p` gains on its entry after the carries, `b`, no more than the
narrowed entry `a` has lost on the entry `v` of the vector, and less if it has lost. -/
theorem place_gain {p a b v : Int} (hv : 0 ≤ v) (hp : p ≤ 9) (hpb : 0 ≤ b → p ≤ b)
    (hba : b < 0 → a ≤ b) (hrange : -2 ^ 31 ≤ a) (ha : a = v ∨ a + 2 ^ 32 ≤ v) :
    p + a ≤ v + b ∧ (p + a = v + b → a = v) := by
  by_cases hb : 0 ≤ b
  · have := hpb hb
    omega
  · have := hba (by omega)
    omega

theorem place_digit_le {w : Vec} {n : Nat} (i : Nat) (h : 0 ≤ at0 w i) :
    at0 (digits (render w n)) i ≤ at0 w i := by
  rw [at0_digits_render]
  split
  · exact digit_toChar_le _ h
  · exact h

theorem at0_narrowed (v : Vec) (i : Nat) :
    at0 (v.map Machine.lp64.toInt) i = Machine.lp64.toInt (at0 v i) := at0_map rfl v i

/-- When the result is the canonical decimal of the value, no entry was narrowed:
the printed places add up to too little otherwise. -/
theorem narrowed_of_canonical {v w : Vec} {n : Nat} (hv : ∀ i, 0 ≤ at0 v i)
    (hw : Carried (v.map Machine.lp64.toInt) w)
    (hs : Canonical (render w n) (value v).toNat) : v.map Machine.lp64.toInt = v := by
  set a := v.map Machine.lp64.toInt with ha
  have hlen : a.length = v.length := by simp [ha]
  have hgain : ∀ i, at0 (digits (render w n)) i + at0 a i ≤ at0 v i + at0 w i ∧
      (at0 (digits (render w n)) i + at0 a i = at0 v i + at0 w i → at0 a i = at0 v i) := by
    intro i
    have hp := (abs_le.mp ((entries_digits hs.decimal).at0 i).2).2
    have hneg := hw.negative i
    rw [ha, at0_narrowed] at hneg ⊢
    exact place_gain (hv i) hp (place_digit_le i) hneg (lp64_toInt_range _).1
      (lp64_toInt_cases _ (hv i))
  have hval : value (digits (render w n)) + value a = value v + value w := by
    rw [value_digits _ hs.decimal, hs.value, Int.toNat_of_nonneg (value_nonneg hv), hw.value]
  refine vec_ext hlen fun i _ => ?_
  exact (hgain i).2 (places_eq_of_value_eq (fun j => (hgain j).1) hval i)

/-- A carry loop that returns has kept every place with its carry in an `int`. -/
theorem places_of_run {v w : Vec} {c : Nat} (hv : ∀ i, 0 ≤ at0 v i ∧ at0 v i ≤ c)
    (hsmall : ∀ i, at0 v i < 2 ^ 31)
    (h : forLoop (v.length - 1) (carryIfTen .lp64) v = .ok w) (k : Nat) (hk : k < v.length) :
    at0 (carryPass v k) k < 2 ^ 31 := by
  obtain ⟨_, hrun⟩ := forLoop_eq_ok_trace (carryPass v) (fun i hi u hu => by
    have hinv := carryPass_inv hv i (by omega)
    rcases carryIfTen_cases hu with ⟨h10, rfl⟩ | ⟨_, _, _, rfl⟩
    · exact (carryStep_eq_self (by rw [hinv.length]; omega) hinv.here.1 h10).symm
    · rfl) h
  cases k with
  | zero => exact hsmall 0
  | succ k =>
    have hinv := carryPass_inv hv k (by omega)
    have hv1 := hsmall (k + 1)
    rw [carryPass_succ hv hk]
    rcases carryIfTen_cases (hrun k (by omega)) with ⟨h10, _⟩ | ⟨_, _, hM, _⟩
    · rw [Int.tdiv_eq_zero_of_lt hinv.here.1 h10, add_zero]
      exact hv1
    · rw [hinv.above (k + 1) (by omega)] at hM
      exact ((fits_iff 32 _).mp hM).2

/-! ## `vector_to_string` -/

theorem at0_range {v : Vec} {c : Nat} (hv : ∀ a ∈ v, 0 ≤ a ∧ a ≤ c) (i : Nat) :
    0 ≤ at0 v i ∧ at0 v i ≤ c := by
  by_cases hi : i < v.length
  · exact hv _ (at0_mem hi)
  · rw [at0_eq_zero (by omega)]
    omega

/-- **`vector_to_string` narrows to `int`.** On a vector of non-negative entries
whose value has no more places than the vector, the result is the canonical
decimal of the value exactly when it has at most `2 ^ 31` digits and the entries
up to each place are worth less than `2 ^ 31` units of that place. -/
theorem vectorToString_canonical_iff (v : Vec) (hne : v ≠ []) (hsize : v.length < 2 ^ 64)
    (hv : ∀ a ∈ v, 0 ≤ a ∧ a ≤ 2 ^ 62) (hV : value v < 10 ^ v.length) :
    (∃ s, vectorToString .lp64 v = .ok s ∧ Canonical s (value v).toNat) ↔
      (Nat.digits 10 (value v).toNat).length ≤ 2 ^ 31 ∧
        ∀ i < v.length, value (v.take (i + 1)) < 2 ^ 31 * 10 ^ i := by
  have hpos := List.length_pos_iff.mpr hne
  have hbound : ∀ i, 0 ≤ at0 v i ∧ at0 v i ≤ (2 ^ 62 : ℕ) :=
    at0_range fun a ha => by exact_mod_cast hv a ha
  have hnn : ∀ i, 0 ≤ at0 v i := fun i => (hbound i).1
  have hval : value v = ((value v).toNat : ℕ) := (Int.toNat_of_nonneg (value_nonneg hnn)).symm
  constructor
  · rintro ⟨s, hs, hcan⟩
    obtain ⟨w, n, hw, rfl, _, hn⟩ := vectorToString_eq_ok hs
    have hnarrow := narrowed_of_canonical hnn (carried_run hw) hcan
    have hsmall : ∀ i, at0 v i < 2 ^ 31 := by
      intro i
      have h := (lp64_toInt_range (at0 v i)).2
      rwa [← at0_narrowed, hnarrow] at h
    rw [hnarrow, sizeSub_of_le (by omega) hpos] at hw
    constructor
    · have hl := hcan.length_eq
      rw [render_length] at hl
      omega
    · intro i hi
      exact (carryPass_lt_iff hbound hi _).mp (places_of_run hbound hsmall hw i hi)
  · rintro ⟨hdigits, hbelow⟩
    refine vectorToString_of_places hbound hpos hsize.le hval ?_ (fun k hk => ?_) hdigits
    · rw [hval] at hV
      exact_mod_cast hV
    · exact (carryPass_lt_iff hbound hk _).mpr (hbelow k hk)

/-- Two places with carries. -/
theorem vectorToString_canonical_iff_99_99 :
    (∃ s, vectorToString .lp64 [99, 99, 0, 0] = .ok s ∧
        Canonical s (value [99, 99, 0, 0]).toNat) ↔
      (Nat.digits 10 (value [99, 99, 0, 0]).toNat).length ≤ 2 ^ 31 ∧
        ∀ i < [99, 99, 0, 0].length, value ([99, 99, 0, 0].take (i + 1)) < 2 ^ 31 * 10 ^ i :=
  vectorToString_canonical_iff [99, 99, 0, 0] (by decide) (by decide) (by decide)
    (by norm_num [value_cons])

/-- One more than an `int` holds, with room for its ten digits. -/
def wideVector : Vec := 2 ^ 31 :: zeros 9

theorem value_wideVector : value wideVector = 2 ^ 31 := by
  norm_num [wideVector, zeros, List.replicate_succ, value_cons]

/-- `2 ^ 31` is printed as 0. -/
theorem vectorToString_not_canonical :
    wideVector ≠ [] ∧ wideVector.length = 10 ∧ (∀ a ∈ wideVector, 0 ≤ a ∧ a ≤ 2 ^ 62) ∧
      value wideVector < 10 ^ wideVector.length ∧
      vectorToString .lp64 wideVector = .ok ['0'] ∧
      ¬ ∃ s, vectorToString .lp64 wideVector = .ok s ∧
        Canonical s (value wideVector).toNat := by
  have hrun : vectorToString .lp64 wideVector = .ok ['0'] := by decide
  refine ⟨by decide, by decide, by decide, ?_, hrun, ?_⟩
  · rw [value_wideVector, show wideVector.length = 10 by decide]
    norm_num
  · rintro ⟨s, hs, hcan⟩
    obtain rfl := Except.ok.inj (hrun.symm.trans hs)
    have h : decimalValue ['0'] = 2 ^ 31 := by
      rw [hcan.value, value_wideVector]
      rfl
    exact absurd h (by decide)

/-! ## The round trip -/

theorem stringToVector_everySchedule (s : Str) (pad : Bool) :
    (stringToVector s pad).EverySchedule
      (resizeTo (digits s) (vectorLength s.length pad)) :=
  everySchedule_of_eval (stringToVector_raceFree s pad) (stringToVector_eval s pad)

/-- The padded length is the least power of two that reaches `n`. -/
theorem vectorLength_isLeast {n : Nat} (hn : 0 < n) :
    IsLeast {m | (∃ p, m = 2 ^ p) ∧ n ≤ m} (vectorLength n true) := by
  obtain ⟨p, hp, hle, hmin⟩ := padded_length n
  rw [vectorLength, if_pos rfl, if_pos hn, hp]
  constructor
  · exact ⟨⟨p, rfl⟩, hle⟩
  · rintro _ ⟨⟨q, rfl⟩, hq⟩
    apply Nat.pow_le_pow_right (by norm_num)
    rcases hmin with rfl | hmin
    · exact Nat.zero_le q
    · have := (Nat.pow_lt_pow_iff_right (by norm_num : 1 < 2)).mp (hmin.trans_le hq)
      omega

theorem vectorLength_lt {n : Nat} (h : n < 2 ^ 31) (pad : Bool) : vectorLength n pad < 2 ^ 64 := by
  cases pad with
  | false => exact h.trans (by norm_num)
  | true =>
    rcases Nat.eq_zero_or_pos n with rfl | hn
    · decide
    · have hle : vectorLength n true ≤ 2 ^ 31 :=
        (vectorLength_isLeast hn).2 ⟨⟨31, rfl⟩, h.le⟩
      omega

theorem resizeTo_append_zeros {v : Vec} {n : Nat} (hv : v.length ≤ n) (m : Nat) :
    resizeTo v n ++ zeros m = resizeTo v (n + m) := by
  refine vec_ext (by simp) fun i _ => ?_
  rw [at0_resizeTo _ _ _ (by omega), at0_append, resizeTo_length]
  split
  · exact at0_resizeTo _ _ _ hv
  · rw [at0_zeros, at0_eq_zero (by omega)]

/-- The digits of a string with any number of zeros above them print as the
string without its leading zeros. -/
theorem vectorToString_digits {s : Str} {n : Nat} (hs : IsDecimal s) (hne : s ≠ [])
    (hlen : s.length < 2 ^ 31) (hn : s.length ≤ n) (hsize : n < 2 ^ 64) :
    vectorToString .lp64 (resizeTo (digits s) n) = .ok (withoutLeadingZeros s) := by
  have hpos := List.length_pos_iff.mpr hne
  have hd : (digits s).length ≤ n := by rwa [digits_length]
  have hlt := decimalValue_lt hs
  have hentry : ∀ i, 0 ≤ at0 (resizeTo (digits s) n) i ∧
      at0 (resizeTo (digits s) n) i ≤ (9 : ℕ) := by
    intro i
    have h := (entries_digits hs).at0 i
    rw [at0_resizeTo _ _ _ hd]
    exact ⟨h.1, (abs_le.mp h.2).2⟩
  have hval : value (resizeTo (digits s) n) = (decimalValue s : ℕ) := by
    rw [value_resizeTo _ _ hd, value_digits s hs]
  obtain ⟨t, ht, hcan⟩ := vectorToString_of_places hentry (by rw [resizeTo_length]; omega)
    (by rw [resizeTo_length]; exact hsize.le) hval
    (by rw [resizeTo_length]; exact hlt.trans_le (Nat.pow_le_pow_right (by norm_num) hn))
    (fun k hk => by
      have h := (carryPass_inv hentry k hk).here.2
      omega)
    (((Nat.digits_length_le_iff (by norm_num) _).mpr hlt).trans hlen.le)
  rw [ht, hcan.unique (withoutLeadingZeros_canonical hs)]

/-- **Strings and vectors round-trip.** Under every schedule of its loop
`string_to_vector` returns one vector, as long as the string or as the least
power of two that reaches it, and `vector_to_string` returns from it the string
without its leading zeros, however many zeros are appended before. -/
theorem stringToVector_roundTrip (s : Str) (pad : Bool) (hs : IsDecimal s) (hne : s ≠ [])
    (hlen : s.length < 2 ^ 31) :
    ∃ v, (stringToVector s pad).EverySchedule v ∧
      (pad = false → v.length = s.length) ∧
      (pad = true → IsLeast {m | (∃ p, m = 2 ^ p) ∧ s.length ≤ m} v.length) ∧
      vectorToString .lp64 v = .ok (withoutLeadingZeros s) ∧
      ∀ m, v.length + m < 2 ^ 64 →
        vectorToString .lp64 (v ++ zeros m) = .ok (withoutLeadingZeros s) := by
  have hn := le_vectorLength s.length pad
  have hpos := List.length_pos_iff.mpr hne
  refine ⟨_, stringToVector_everySchedule s pad, ?_, ?_, ?_, ?_⟩
  · rintro rfl
    rw [resizeTo_length]
    rfl
  · rintro rfl
    rw [resizeTo_length]
    exact vectorLength_isLeast hpos
  · exact vectorToString_digits hs hne hlen hn (vectorLength_lt hlen pad)
  · intro m hm
    rw [resizeTo_length] at hm
    rw [resizeTo_append_zeros (by rwa [digits_length])]
    exact vectorToString_digits hs hne hlen (by omega) hm

/-- The string 00705, padded. -/
theorem stringToVector_roundTrip_00705 :
    ∃ v, (stringToVector ['0', '0', '7', '0', '5'] true).EverySchedule v ∧
      (true = false → v.length = ['0', '0', '7', '0', '5'].length) ∧
      (true = true → IsLeast {m | (∃ p, m = 2 ^ p) ∧ ['0', '0', '7', '0', '5'].length ≤ m}
        v.length) ∧
      vectorToString .lp64 v = .ok (withoutLeadingZeros ['0', '0', '7', '0', '5']) ∧
      ∀ m, v.length + m < 2 ^ 64 → vectorToString .lp64 (v ++ zeros m) =
        .ok (withoutLeadingZeros ['0', '0', '7', '0', '5']) :=
  stringToVector_roundTrip _ true (by decide) (List.cons_ne_nil _ _) (by decide)

example : withoutLeadingZeros ['0', '0', '7', '0', '5'] = ['7', '0', '5'] := by decide

end BigintMultiply.Conversions
