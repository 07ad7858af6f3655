import BigintMultiply.Library.ForkJoin
import BigintMultiply.Naive

/-! The conversions of `utils.cpp` between decimal strings and coefficient
vectors, least significant coefficient first. -/

namespace BigintMultiply.Utils
open Checked Vectors Coefficients Decimal Naive ForkJoin Prog

/-- The local vectors that parallel tasks share, over all functions of the
program. A vector that no task writes after its construction is a value. -/
inductive Var
  | result
  | P1 | P2 | P3 | Xlr | Ylr | res
  | R0 | R1 | Rm1 | Rm2 | Rinf
  deriving DecidableEq, Repr

/-- `a - b` on `size_t`. -/
def sizeSub (a b : Nat) : Nat := (a + 2 ^ 64 - b) % 2 ^ 64

/-- `while (len < n) len *= 2`, for at most `fuel` rounds. -/
def doubleUntil (n : Nat) : Nat → Nat → Nat
  | 0, len => len
  | fuel + 1, len => if len < n then doubleUntil n fuel (len * 2) else len

/-- Iteration `i` of the loop of `string_to_vector`. -/
def fillBody (s : Str) (len i : Nat) : Prog Var Unit := do
  let resultIdx := s.length - 1 - i
  if resultIdx < len then
    let c ← lift (charAt s i)
    write .result resultIdx (digit c)
  else pure ()

def stringToVector (s : Str) (padToPowerOf2 : Bool) : Prog Var Vec := do
  let originalLen := s.length
  let len :=
    if padToPowerOf2 then
      if originalLen > 0 then doubleUntil originalLen originalLen 1 else 0
    else originalLen
  assign .result (zeros len)
  parFor originalLen (fillBody s len)
  readVec .result

def vectorToString (M : Machine) (v : Vec) : Run Str := do
  let normalized ← forLoop v.length (fun i normalized => do
    store normalized i (M.toInt (← load v i))) (zeros v.length)
  let normalized ← forLoop (sizeSub normalized.length 1) (fun i normalized => do
    if (← load normalized i) ≥ 10 then
      let s ← M.intVal ((← load normalized (i + 1)) + (← load normalized i).tdiv 10)
      let normalized ← store normalized (i + 1) s
      store normalized i ((← load normalized i).tmod 10)
    else .ok normalized) normalized
  let idx ← stripZeros normalized normalized.length
  let last := M.toInt (sizeSub idx 1)
  -- i = last, last - 1, …, 0 with an int counter that ends at -1
  forLoop (last + 1).toNat (fun t result => do
    let i := last - t
    let c ← M.intVal (48 + (← load normalized i.toNat))
    let _ ← M.intVal (i - 1)
    .ok (result ++ [toChar c])) []

/-- The string functions of all algorithms but the naive one. They differ in their
vector function and each has a threshold of its own. -/
def mulString (threshold : Nat) (mulVector : Vec → Vec → Prog Var Vec) (M : Machine) (a b : Str) :
    Prog Var Str := do
  if a.length ≤ threshold ∨ b.length ≤ threshold then
    lift (naiveMulString M a b)
  else
    let aVec ← invoke (stringToVector a true)
    let bVec ← invoke (stringToVector b true)
    let vecSize := max aVec.length bVec.length
    let resultVec ← mulVector (resizeTo aVec vecSize) (resizeTo bVec vecSize)
    lift (vectorToString M resultVec)

theorem sizeSub_of_le {a b : Nat} (h64 : a - b < 2 ^ 64) (hb : b ≤ a) : sizeSub a b = a - b := by
  unfold sizeSub
  omega

/-! ## `string_to_vector` -/

/-- The doubling loop ends at the least power of two that reaches `n`. -/
theorem doubleUntil_spec (n fuel t : Nat) (hf : n ≤ 2 ^ (t + fuel)) (ht : t = 0 ∨ 2 ^ (t - 1) < n) :
    ∃ p, doubleUntil n fuel (2 ^ t) = 2 ^ p ∧ n ≤ 2 ^ p ∧ (p = 0 ∨ 2 ^ (p - 1) < n) := by
  induction fuel generalizing t with
  | zero => exact ⟨t, rfl, hf, ht⟩
  | succ fuel ih =>
    by_cases h : 2 ^ t < n
    · obtain ⟨p, hp, hn, hl⟩ := ih (t + 1) (by rwa [Nat.add_right_comm]) (.inr (by simpa using h))
      exact ⟨p, by rw [doubleUntil, if_pos h, ← pow_succ, hp], hn, hl⟩
    · exact ⟨t, by rw [doubleUntil, if_neg h], by omega, ht⟩

theorem padded_length (n : Nat) :
    ∃ p, doubleUntil n n 1 = 2 ^ p ∧ n ≤ 2 ^ p ∧ (p = 0 ∨ 2 ^ (p - 1) < n) :=
  doubleUntil_spec n n 0 (by rw [Nat.zero_add]; exact Nat.lt_two_pow_self.le) (.inl rfl)

/-- The length of the vector that `string_to_vector` builds. -/
def vectorLength (n : Nat) (padToPowerOf2 : Bool) : Nat :=
  if padToPowerOf2 then if n > 0 then doubleUntil n n 1 else 0 else n

theorem le_vectorLength (n : Nat) (pad : Bool) : n ≤ vectorLength n pad := by
  unfold vectorLength
  split
  · split
    · obtain ⟨p, hp, hn, _⟩ := padded_length n
      rwa [hp]
    · omega
  · exact Nat.le_refl n

/-- The iteration for character `i` writes the cell of its place. -/
theorem fillBody_run (s : Str) (len i : Nat) (hi : i < s.length) (hlen : s.length ≤ len)
    (t : Store Var) (ht : (t .result).length = len) :
    (fillBody s len i).run t = some ((), Function.update t .result
      ((t .result).set (s.length - 1 - i) (at0 (digits s) (s.length - 1 - i)))) := by
  have hc : charAt s i = .ok s[i] := by rw [charAt, List.getElem?_eq_getElem hi]
  have hd : at0 (digits s) (s.length - 1 - i) = digit s[i] := by
    rw [at0_digits s _ (by omega) (by omega)]
    congr 2
    omega
  rw [fillBody, if_pos (by omega), hc, run_bind_of (run_lift_ok t _), run_write t _ (by omega), hd]

/-- The vector with the digits of `s` written from the top place down. -/
def filled (s : Str) (len k : Nat) : Vec :=
  tabulate len fun m => if s.length - k ≤ m then at0 (digits s) m else 0

theorem filled_zero (s : Str) (len : Nat) : filled s len 0 = zeros len := by
  refine vec_ext (by simp [filled]) fun i hi => ?_
  rw [filled, at0_tabulate, at0_zeros]
  split
  · split
    · rw [at0_eq_zero (by rw [digits_length]; omega)]
    · rfl
  · rfl

theorem filled_succ (s : Str) (len k : Nat) (hk : k < s.length) (hlen : s.length ≤ len) :
    (filled s len k).set (s.length - 1 - k) (at0 (digits s) (s.length - 1 - k)) =
      filled s len (k + 1) := by
  refine vec_ext (by simp [filled]) fun i hi => ?_
  have hi' : i < len := by simpa [filled] using hi
  rw [at0_set _ _ _ _ (by simp [filled]; omega), filled, filled, at0_tabulate, at0_tabulate,
    if_pos hi', if_pos hi']
  by_cases h1 : i = s.length - 1 - k
  · rw [if_pos h1, if_pos (by omega), h1]
  · rw [if_neg h1]
    by_cases h2 : s.length - k ≤ i
    · rw [if_pos h2, if_pos (by omega)]
    · rw [if_neg h2, if_neg (by omega)]

theorem filled_all (s : Str) (len : Nat) (hlen : s.length ≤ len) :
    filled s len s.length = resizeTo (digits s) len := by
  refine vec_ext (by simp [filled]) fun i hi => ?_
  rw [filled, at0_tabulate, if_pos (by simpa [filled] using hi), Nat.sub_self,
    if_pos (Nat.zero_le i), at0_resizeTo _ _ _ (by rw [digits_length]; exact hlen)]

/-- In program order `string_to_vector` returns the digits, padded with zeros. -/
theorem stringToVector_eval (s : Str) (pad : Bool) :
    (stringToVector s pad).eval = some (resizeTo (digits s) (vectorLength s.length pad)) := by
  have hlen := le_vectorLength s.length pad
  set len := vectorLength s.length pad with hdef
  have hl : (if pad = true then if s.length > 0 then doubleUntil s.length s.length 1 else 0
      else s.length) = len := hdef.symm
  rw [eval, stringToVector, hl, run_bind_of (run_assign _ _ _)]
  have hloop := run_serialFor_trace s.length (fillBody s len)
    (fun k => Function.update Store.empty Var.result (filled s len k)) (fun k hk => by
      rw [fillBody_run s len k hk hlen _ (by simp [filled]), Function.update_self,
        filled_succ s len k hk hlen, Function.update_idem])
  rw [← run_parFor, filled_zero] at hloop
  rw [run_bind_of hloop, run_readVec, Function.update_self, filled_all s len hlen]
  rfl

/-- The iterations of `string_to_vector` write different cells. -/
theorem stringToVector_raceFree (s : Str) (pad : Bool) : (stringToVector s pad).RaceFree := by
  refine raceFree_bind (raceFree_assign _ _) fun _ => raceFree_bind ?_ fun _ => raceFree_readVec _
  refine raceFree_parFor (fun i x t => x = .result ∧ t = .write (s.length - 1 - i))
    (fun i _ => ?_) (fun i _ => ?_) ?_
  · exact raceFree_ite (raceFree_bind (raceFree_lift _) fun _ => raceFree_write _ _ _)
      (raceFree_pure _)
  · exact within_ite (within_bind (within_lift _) fun _ => within_write ⟨rfl, rfl⟩)
      (within_pure _)
  · rintro i hi j hj hij x t u ⟨-, rfl⟩ ⟨-, rfl⟩
    change s.length - 1 - i ≠ s.length - 1 - j
    omega

/-! ## `vector_to_string` -/

/-- Iteration `i` of the copy to `vector<int>`. -/
def copyEntry (M : Machine) (v : Vec) (i : Nat) (normalized : Vec) : Run Vec := do
  store normalized i (M.toInt (← load v i))

/-- Iteration `i` of the carry loop. -/
def carryIfTen (M : Machine) (i : Nat) (normalized : Vec) : Run Vec := do
  if (← load normalized i) ≥ 10 then
    let s ← M.intVal ((← load normalized (i + 1)) + (← load normalized i).tdiv 10)
    let normalized ← store normalized (i + 1) s
    store normalized i ((← load normalized i).tmod 10)
  else .ok normalized

/-- Iteration `t` of the output loop, which starts at `last`. -/
def printDigit (M : Machine) (normalized : Vec) (last : Int) (t : Nat) (result : Str) :
    Run Str := do
  let i := last - t
  let c ← M.intVal (48 + (← load normalized i.toNat))
  let _ ← M.intVal (i - 1)
  .ok (result ++ [toChar c])

/-- `vector_to_string` is a copy, a carry pass and an output loop. -/
theorem vectorToString_eq (M : Machine) (v : Vec) : vectorToString M v = (do
    let normalized ← forLoop v.length (copyEntry M v) (zeros v.length)
    let normalized ← forLoop (sizeSub normalized.length 1) (carryIfTen M) normalized
    let idx ← stripZeros normalized normalized.length
    let last := M.toInt (sizeSub idx 1)
    forLoop (last + 1).toNat (printDigit M normalized last) []) := rfl

/-- The copy converts every entry. -/
theorem copy_ok (M : Machine) (v : Vec) :
    forLoop v.length (copyEntry M v) (zeros v.length) = .ok (v.map M.toInt) := by
  have h := forLoop_splice (zeros v.length) 0 v.length (fun i => M.toInt (at0 v i))
    (copyEntry M v) (by simp) (fun i hi w hw _ => by
      rw [copyEntry, load_ok hi, ok_bind, Nat.zero_add,
        store_ok _ (by rw [hw, zeros_length]; exact hi)])
  rw [h]
  congr 1
  refine vec_ext (by simp) fun i hi => ?_
  have hi' : i < v.length := by simpa using hi
  rw [at0_splice _ _ _ _ _ (by simp), if_pos (by simpa using hi'), Nat.sub_zero,
    at0_eq_getElem hi', at0_eq_getElem (by simpa using hi'), List.getElem_map]

/-- The copy keeps entries that an `int` holds. -/
theorem narrowed_eq {v : Vec} (hv : ∀ i, |at0 v i| < 2 ^ 31) : v.map Machine.lp64.toInt = v := by
  refine (List.map_congr_left fun a ha => ?_).trans (List.map_id v)
  obtain ⟨i, hi, rfl⟩ := List.getElem_of_mem ha
  rw [← at0_eq_getElem hi]
  exact lp64_toInt _ (hv i)

/-- An iteration of the carry loop of `vector_to_string`. -/
theorem carryIfTen_ok {M : Machine} {w : Vec} {k : Nat} (hk : k + 1 < w.length) (h0 : 0 ≤ at0 w k)
    (hM : M.int (at0 w (k + 1) + (at0 w k).tdiv 10) = true) :
    carryIfTen M k w = .ok (carryStep w k) := by
  rw [carryIfTen, load_ok (by omega), ok_bind]
  by_cases h : at0 w k ≥ 10
  · rw [if_pos h]
    have hc := carry_ok hk hM
    rwa [load_ok (by omega : k < w.length)] at hc
  · rw [if_neg h, carryStep_eq_self hk h0 (by omega)]

/-- `vector_to_string` returns the canonical decimal of the value of `v`, when an
`int` holds every place with its carry and every index of the result. -/
theorem vectorToString_of_places {v : Vec} {c n : Nat} (hv : ∀ i, 0 ≤ at0 v i ∧ at0 v i ≤ c)
    (hne : 0 < v.length) (hsize : v.length ≤ 2 ^ 64) (hval : value v = n)
    (hlt : n < 10 ^ v.length) (hplace : ∀ k < v.length, at0 (carryPass v k) k < 2 ^ 31)
    (hdigits : (Nat.digits 10 n).length ≤ 2 ^ 31) :
    ∃ s, vectorToString .lp64 v = .ok s ∧ Canonical s n := by
  have hint : ∀ a : ℤ, -1 ≤ a → a ≤ 2 ^ 31 - 1 → Machine.lp64.int a = true := fun a h0 h1 =>
    lp64_int a (abs_lt.mpr (by omega))
  obtain ⟨idx, hstrip, hpos, hidx, hcan⟩ := carryPass_render hv hne hval hlt
  have hdig := carryPass_digits hv hne (by rw [hval]; exact_mod_cast hlt)
  have hsmall : ∀ i, |at0 v i| < 2 ^ 31 := by
    intro i
    have h0 := (hv i).1
    by_cases hi : i < v.length
    · have h1 := le_carryPass hv hi
      have h2 := hplace i hi
      exact abs_lt.mpr (by omega)
    · rw [at0_eq_zero (by omega)]
      norm_num
  have hcarry : forLoop (v.length - 1) (carryIfTen .lp64) v =
      .ok (carryPass v (v.length - 1)) := by
    refine forLoop_trace (v.length - 1) (carryIfTen .lp64) (carryPass v) fun k hk => ?_
    have h := carryPass_inv hv k (by omega)
    have hk0 := (carryPass_inv hv (k + 1) (by omega)).here.1
    have hk1 := hplace (k + 1) (by omega)
    rw [carryPass_succ hv (by omega), ← h.above (k + 1) (by omega)] at hk0 hk1
    exact carryIfTen_ok (by rw [h.length]; omega) h.here.1 (hint _ (by omega) (by omega))
  have hlast : idx ≤ 2 ^ 31 := by
    have hl := hcan.length_eq
    rw [render_length] at hl
    omega
  refine ⟨_, ?_, hcan⟩
  rw [vectorToString_eq, copy_ok, ok_bind, narrowed_eq hsmall, sizeSub_of_le (by omega) hne, hcarry,
    ok_bind, hdig.1, hstrip, ok_bind, sizeSub_of_le (by omega) hpos]
  have hconv : Machine.lp64.toInt ((idx - 1 : Nat) : Int) = (idx - 1 : Nat) :=
    lp64_toInt _ (abs_lt.mpr (by omega))
  simp only [hconv]
  rw [show (((idx - 1 : Nat) : Int) + 1).toNat = idx by omega]
  refine forLoop_append idx _ _ fun i hi l => ?_
  have hd := hdig.2.2 (idx - 1 - i)
  rw [printDigit, show (((idx - 1 : Nat) : Int) - i).toNat = idx - 1 - i by omega,
    load_ok (by omega), ok_bind, intVal_ok (hint _ (by omega) (by omega)), ok_bind,
    intVal_ok (hint _ (by omega) (by omega)), ok_bind]

/-- Ten ninths of the largest entry bound every place with its carry. -/
theorem vectorToString_ok {v : Vec} {c n : Nat} (hv : ∀ i, 0 ≤ at0 v i ∧ at0 v i ≤ c)
    (hc : 10 * c ≤ 9 * (2 ^ 31 - 1)) (hne : 0 < v.length) (hlen : v.length ≤ 2 ^ 31)
    (hval : value v = n) (hlt : n < 10 ^ v.length) :
    ∃ s, vectorToString .lp64 v = .ok s ∧ Canonical s n := by
  refine vectorToString_of_places hv hne (by omega) hval hlt (fun k hk => ?_) ?_
  · have h := (carryPass_inv hv k hk).here.2
    omega
  · exact ((Nat.digits_length_le_iff (by norm_num) n).mpr hlt).trans hlen

end BigintMultiply.Utils
