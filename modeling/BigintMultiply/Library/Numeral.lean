import BigintMultiply.Library.Decimal

/-! Conversions between integers and text as the C++ standard library makes them:
`stoi`, `stoll` and `stoul` in base 10, and `to_string`.

A conversion skips white space, takes one sign and then the longest run of digits,
and ignores what follows. Main results: `to_string` writes the canonical decimal
(`canonical_natStr`), and each conversion reads it back up to the limit of its
type (`signed_natStr`, `stoul_natStr`). -/

namespace BigintMultiply.Numeral
open Checked Decimal

/-- What a conversion throws, with the text of its `what()`. -/
inductive Exn
  | invalidArgument (what : Str)
  | outOfRange (what : Str)
  deriving DecidableEq, Repr

def text (s : String) : Str := s.toList

/-- `isspace` in the C locale. -/
def isSpace (c : Char) : Bool := c = ' ' || (9 ≤ c.toNat && c.toNat ≤ 13)

/-- One optional sign, true for minus, and what follows it. -/
def sign : Str → Bool × Str
  | '-' :: s => (true, s)
  | '+' :: s => (false, s)
  | s => (false, s)

/-- The sign and the digits that a conversion reads. -/
def subject (s : Str) : Bool × Str :=
  let (neg, t) := sign (s.dropWhile isSpace)
  (neg, t.takeWhile Char.isDigit)

/-- The conversion called `name` to a signed type of `w` bits. -/
def signed (w : Nat) (name : Str) (s : Str) : Except Exn Int :=
  let (neg, ds) := subject s
  if ds = [] then .error (.invalidArgument name)
  else
    let v : Int := if neg then -decimalValue ds else decimalValue ds
    if fits w v then .ok v else .error (.outOfRange name)

def stoi (s : Str) : Except Exn Int := signed 32 (text "stoi") s
def stoll (s : Str) : Except Exn Int := signed 64 (text "stoll") s

/-- A minus sign negates modulo `2 ^ 64`; only the magnitude must be in range. -/
def stoul (s : Str) : Except Exn Nat :=
  let (neg, ds) := subject s
  if ds = [] then .error (.invalidArgument (text "stoul"))
  else if decimalValue ds < 2 ^ 64 then
    .ok (if neg then (2 ^ 64 - decimalValue ds) % 2 ^ 64 else decimalValue ds)
  else .error (.outOfRange (text "stoul"))

/-- `std::to_string` of an unsigned value, also what a stream prints for it. -/
def natStr (n : Nat) : Str := Nat.toDigits 10 n

/-- `std::to_string` of a signed value. -/
def intStr (v : Int) : Str := if v < 0 then '-' :: natStr v.natAbs else natStr v.natAbs

/-! ## `to_string` -/

theorem decimalValue_append_one (s : Str) (c : Char) :
    decimalValue (s ++ [c]) = 10 * decimalValue s + (c.toNat - '0'.toNat) := by
  simp only [decimalValue, places, List.map_append, List.reverse_append, List.map_cons,
    List.map_nil, List.reverse_cons, List.reverse_nil, List.nil_append, List.cons_append,
    Nat.ofDigits_cons]
  exact Nat.add_comm _ _

theorem natStr_decimal (n : Nat) : IsDecimal (natStr n) := fun _ hc =>
  Nat.isDigit_of_mem_toDigits (by decide) (by decide) hc

theorem natStr_ne_nil (n : Nat) : natStr n ≠ [] := Nat.toDigits_ne_nil

theorem natStr_of_ten_le {n : Nat} (h : 10 ≤ n) :
    natStr n = natStr (n / 10) ++ [Nat.digitChar (n % 10)] :=
  Nat.toDigits_of_base_le (by decide) h

theorem natStr_of_lt_ten {n : Nat} (h : n < 10) : natStr n = [Nat.digitChar n] :=
  Nat.toDigits_of_lt_base h

theorem decimalValue_natStr (n : Nat) : decimalValue (natStr n) = n := by
  induction n using Nat.strong_induction_on with
  | _ n ih =>
    rcases Nat.lt_or_ge n 10 with h | h
    · rw [natStr_of_lt_ten h]
      exact (decimalValue_append_one [] _).trans
        ((Nat.zero_add _).trans (Nat.toNat_digitChar_sub_48_of_lt_ten h))
    · have hd : (Nat.digitChar (n % 10)).toNat - '0'.toNat = n % 10 :=
        Nat.toNat_digitChar_sub_48_of_lt_ten (Nat.mod_lt n (by decide))
      rw [natStr_of_ten_le h, decimalValue_append_one, ih (n / 10) (by omega), hd]
      omega

/-- The leading character is 0 for zero only. -/
theorem natStr_head {n : Nat} (h : (natStr n).head? = some '0') : n = 0 := by
  induction n using Nat.strong_induction_on with
  | _ n ih =>
    rcases Nat.lt_or_ge n 10 with hn | hn
    · rw [natStr_of_lt_ten hn] at h
      have hc := congrArg Char.toNat (Option.some.inj h)
      have hd := Nat.toNat_digitChar_sub_48_of_lt_ten hn
      rw [hc] at hd
      exact hd.symm
    · rw [natStr_of_ten_le hn, List.head?_append_of_ne_nil _ (natStr_ne_nil _)] at h
      have := ih (n / 10) (by omega) h
      omega

/-- **`to_string` writes the canonical decimal.** -/
theorem canonical_natStr (n : Nat) : Canonical (natStr n) n where
  decimal := natStr_decimal n
  nonempty := natStr_ne_nil n
  noLeadingZero h := by
    rw [natStr_head h]
    rfl
  value := decimalValue_natStr n

theorem intStr_natCast (n : Nat) : intStr n = natStr n := by
  rw [intStr, if_neg (by omega), Int.natAbs_natCast]

/-! ## Reading a number -/

theorem not_isSpace_of_isDigit {c : Char} (h : c.isDigit = true) : isSpace c = false := by
  have hd := (isDigit_iff c).mp h
  have hc : c ≠ ' ' := by
    rintro rfl
    exact absurd hd (by decide)
  simp [isSpace, hc]
  omega

/-- A decimal is read whole, without a sign. -/
theorem subject_decimal {s : Str} (h : IsDecimal s) : subject s = (false, s) := by
  have hdrop : s.dropWhile isSpace = s := by
    cases s with
    | nil => rfl
    | cons c s => rw [List.dropWhile_cons_of_neg (by simp [not_isSpace_of_isDigit (h c (by simp))])]
  have hsign : sign s = (false, s) := by
    cases s with
    | nil => rfl
    | cons c s =>
      have hc := h c (by simp)
      unfold sign
      split
      · simp_all
      · simp_all
      · rfl
  rw [subject, hdrop, hsign]
  dsimp only
  rw [List.takeWhile_eq_self_iff.mpr h]

/-- **A signed conversion reads a decimal** whose value its type holds. -/
theorem signed_decimal (w : Nat) (name : Str) {s : Str} (h : IsDecimal s) (hne : s ≠ [])
    (hw : decimalValue s < 2 ^ (w - 1)) : signed w name s = .ok (decimalValue s) := by
  have hfit : fits w (decimalValue s) = true := by
    have h2 : (0 : ℤ) < 2 ^ (w - 1) := by positivity
    rw [fits_iff]
    exact ⟨by omega, by exact_mod_cast hw⟩
  simp [signed, subject_decimal h, hne, hfit]

theorem signed_natStr (w : Nat) (name : Str) {n : Nat} (hw : n < 2 ^ (w - 1)) :
    signed w name (natStr n) = .ok n := by
  have h := canonical_natStr n
  rw [signed_decimal w name h.decimal h.nonempty (by rwa [h.value]), h.value]

theorem subject_digits (s : Str) : IsDecimal (subject s).2 ∧ (subject s).2.length ≤ s.length := by
  have hsign : ∀ t, (sign t).2.length ≤ t.length := by
    intro t
    unfold sign
    split <;> simp
  refine ⟨fun c hc => ?_, ?_⟩
  · exact List.mem_takeWhile_imp hc
  · exact (List.takeWhile_prefix _).length_le.trans
      ((hsign _).trans (List.dropWhile_suffix _).length_le)

/-- A converted value has no more digits than the text has characters. -/
theorem signed_abs_lt {w : Nat} {name s : Str} {v : Int} (h : signed w name s = .ok v) :
    |v| < 10 ^ s.length := by
  obtain ⟨hd, hl⟩ := subject_digits s
  unfold signed at h
  generalize subject s = r at h hd hl
  obtain ⟨neg, ds⟩ := r
  dsimp only at h hd hl
  have hlt : (decimalValue ds : ℤ) < 10 ^ s.length := by
    exact_mod_cast (decimalValue_lt hd).trans_le (Nat.pow_le_pow_right (by decide) hl)
  have habs : |if neg then -(decimalValue ds : ℤ) else decimalValue ds| = decimalValue ds := by
    split
    · rw [abs_neg, abs_of_nonneg (by omega)]
    · rw [abs_of_nonneg (by omega)]
  split at h
  · cases h
  · split_ifs at h habs with hneg hfit hfit
    · rw [← Except.ok.inj h, habs]
      exact hlt
    · rw [← Except.ok.inj h, habs]
      exact hlt

/-- Text that `stoul` rejects, `stoi` rejects: it reads no digits, or a magnitude
of 64 bits or more. -/
theorem stoi_error_of_stoul {s : Str} {e : Exn} (h : stoul s = .error e) :
    ∃ e', stoi s = .error e' := by
  unfold stoul at h
  unfold stoi signed
  generalize subject s = r at h ⊢
  obtain ⟨neg, ds⟩ := r
  dsimp only at h ⊢
  by_cases hds : ds = []
  · exact ⟨_, by rw [if_pos hds]⟩
  · rw [if_neg hds] at h ⊢
    by_cases hv : decimalValue ds < 2 ^ 64
    · rw [if_pos hv] at h
      cases h
    · refine ⟨_, if_neg ?_⟩
      rw [fits_iff]
      split
      · omega
      · omega

theorem stoul_lt {s : Str} {n : Nat} (h : stoul s = .ok n) : n < 2 ^ 64 := by
  unfold stoul at h
  generalize subject s = r at h
  obtain ⟨neg, ds⟩ := r
  dsimp only at h
  split_ifs at h with _ hv hneg
  · rw [← Except.ok.inj h]
    exact Nat.mod_lt _ (by decide)
  · rw [← Except.ok.inj h]
    exact hv

theorem stoul_natStr {n : Nat} (hn : n < 2 ^ 64) : stoul (natStr n) = .ok n := by
  have h := canonical_natStr n
  rw [stoul, subject_decimal h.decimal]
  dsimp only
  rw [if_neg h.nonempty, h.value, if_pos hn, if_neg (by decide)]

end BigintMultiply.Numeral
