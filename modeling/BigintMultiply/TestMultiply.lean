import BigintMultiply.Operands
import BigintMultiply.StringSchedules

/-! The test program, `test_multiply.cpp`: it parses the command line, multiplies
random operands with the chosen algorithms and compares the results. -/

namespace BigintMultiply.TestMultiply
open Checked Vectors Decimal Naive Utils ForkJoin Prog Numeral Operands
open SeqKaratsuba SeqToomCook ParKaratsuba ParToomCook Strings StringSchedules

inductive Algorithm
  | naive
  | karatsubaSeq
  | karatsubaPar
  | toomCookSeq
  | toomCookPar
  deriving DecidableEq, Repr

def algorithmToString : Algorithm → Str
  | .naive => text "Naive"
  | .karatsubaSeq => text "Karatsuba Sequential"
  | .karatsubaPar => text "Karatsuba Parallel"
  | .toomCookSeq => text "Toom Cook Sequential"
  | .toomCookPar => text "Toom Cook Parallel"

/-- `xs[i]`. -/
def element {α : Type} (xs : List α) (i : Nat) : Run α :=
  match xs[i]? with
  | some a => .ok a
  | none => .error .outOfBounds

/-! ## `verify_results` -/

/-- Iteration `i` of the comparison with the first result. The state holds
`all_match` and what was printed to `cerr`. -/
def compareResult (results : List Str) (algorithms : List Algorithm) (first : Str) (i : Nat)
    (st : Bool × Str) : Run (Bool × Str) := do
  if (← element results i) ≠ first then
    let ai ← element algorithms i
    let a0 ← element algorithms 0
    .ok (false, st.2 ++ text "Verification failed: Result for " ++ algorithmToString ai ++
      text " does not match " ++ algorithmToString a0 ++ text ".\n")
  else .ok st

/-- The comparison with the built-in product. Both exceptions of `stoll` are caught
and ignored. -/
def compareBuiltIn (M : Machine) (a b first err : Str) : Run (Bool × Str) :=
  match stoll a, stoll b with
  | .ok x, .ok y => do
    let expected ← M.longVal (x * y)
    let expectedStr := intStr expected
    if first ≠ expectedStr then
      .ok (false, err ++
        text "Verification failed: Results do not match built-in multiplication.\n" ++
        text "  Built-in: " ++ expectedStr ++ text "\n" ++
        text "  Algorithm Result: " ++ first ++ text "\n")
    else .ok (true, err)
  | _, _ => .ok (true, err)

/-- The verdict and what is printed to `cerr`. -/
def verifyResults (M : Machine) (a b : Str) (results : List Str) (algorithms : List Algorithm) :
    Run (Bool × Str) :=
  match results with
  | [] => .ok (true, [])
  | first :: _ => do
    let (allMatch, err) ←
      forRange 1 results.length (compareResult results algorithms first) (true, [])
    if a.length ≤ 9 ∧ b.length ≤ 9 ∧ allMatch then compareBuiltIn M a b first err
    else .ok (allMatch, err)

/-! ## The command line -/

def printUsage (programName : Str) : Str :=
  text "Usage: " ++ programName ++
    text " [num_tests] [digits_length] [algorithm1] [algorithm2] ...\n\n" ++
    text "  num_tests      - Number of test cases (default: 5)\n" ++
    text "  digits_length  - Length of random numbers (default: 1000)\n" ++
    text "  algorithm(s)   - One or more algorithms to compare (at least one required):\n" ++
    text "                   0: naive\n" ++
    text "                   1: karatsuba sequential\n" ++
    text "                   2: karatsuba parallel\n" ++
    text "                   3: toom cook sequential\n" ++
    text "                   4: toom cook parallel\n" ++
    text "                   (e.g., '4 1 2' to compare Toom Cook Parallel, " ++
    text "Karatsuba Seq, Karatsuba Par)\n"

def parseAlgorithm (choice : Int) : Except Exn Algorithm :=
  match choice with
  | 0 => .ok .naive
  | 1 => .ok .karatsubaSeq
  | 2 => .ok .karatsubaPar
  | 3 => .ok .toomCookSeq
  | 4 => .ok .toomCookPar
  | _ => .error (.invalidArgument (text "Invalid algorithm choice: " ++ intStr choice))

/-- `try { x = std::stoul(argv[arg_idx]); arg_idx++; } catch (...) {}` for a variable
with the given default, and the arguments left after it. -/
def numberOr (default : Nat) : List Str → Nat × List Str
  | [] => (default, [])
  | arg :: args =>
    match stoul arg with
    | .ok n => (n, args)
    | .error _ => (default, arg :: args)

/-- `parse_algorithm(std::stoi(arg))`. -/
def algorithmOf (arg : Str) : Except Exn Algorithm := do parseAlgorithm (← stoi arg)

/-- The loop over the remaining arguments: the algorithms, and what is printed to
`cerr` at the argument that stops it. -/
def parseAlgorithms : List Str → List Algorithm × Str
  | [] => ([], [])
  | arg :: args =>
    match algorithmOf arg with
    | .ok alg =>
      let (algorithms, err) := parseAlgorithms args
      (alg :: algorithms, err)
    | .error (.invalidArgument what) =>
      ([], text "Error: " ++ what ++ text ". Stopping argument parsing.\n")
    | .error (.outOfRange _) =>
      ([], text "Error parsing argument " ++ arg ++ text ". Stopping argument parsing.\n")

structure Settings where
  numTests : Nat
  length : Nat
  algorithms : List Algorithm
  deriving DecidableEq, Repr

/-- The settings that the arguments after the program name choose, before the
default for the algorithms, and what parsing prints to `cerr`. -/
def parseArguments (args : List Str) : Settings × Str :=
  let (numTests, args) := numberOr 5 args
  let (length, args) := numberOr 1000 args
  let (algorithms, err) := parseAlgorithms args
  (⟨numTests, length, algorithms⟩, err)

def asksForHelp : List Str → Bool
  | arg :: _ => arg = text "-h" || arg = text "--help"
  | [] => false

/-! ## The tests -/

def runSingleAlgorithm (M : Machine) (A B : Str) : Algorithm → Prog Var Str
  | .naive => lift (naiveMulString M A B)
  | .karatsubaSeq => invoke (karatsubaMulString M A B)
  | .karatsubaPar => invoke (parKaratsubaMulString M A B)
  | .toomCookSeq => invoke (toomCookMulString M A B)
  | .toomCookPar => invoke (parToomCookMulString M A B)

/-- The type `double` with the operations of the test program, and its clock:
`elapsed t i` is the measured time of algorithm `i` in test `t`. -/
structure Timing (Double : Type) where
  zero : Double
  add : Double → Double → Double
  div : Double → Double → Double
  ofSize : Nat → Double
  positive : Double → Bool
  /-- The text of a value in fixed notation with the given precision. -/
  fixed : Nat → Double → Str
  elapsed : Nat → Nat → Double

/-- The variables of `main` that the test loop changes, and the number of digits
drawn so far. -/
structure State (Double : Type) where
  drawn : Nat
  totalTimes : List Double
  allTestsPassed : Bool
  out : Str
  err : Str

/-- The variables that the loop over the algorithms changes. -/
structure Round (Double : Type) where
  results : List Str
  times : List Double
  totalTimes : List Double
  out : Str

/-- What `main` leaves behind: its return value and the two streams. -/
structure Outcome where
  code : Int
  out : Str
  err : Str
  deriving DecidableEq, Repr

def separator (i n : Nat) : Str := if i = n - 1 then [] else text ","

/-- The line about a string called `name`, shown as `display`. -/
def digitsLine (name s display : Str) : Str :=
  text "  " ++ name ++ text " (" ++ natStr s.length ++ text " digits) = " ++ display ++ text "\n"

def verdictLine (passed : Bool) : Str :=
  text "  Verification: " ++ text (if passed then "PASSED" else "FAILED") ++ text "\n"

section Main

variable {Double : Type} (M : Machine) (T : Timing Double) (draws : Draws)

/-- The speedups against the first algorithm, after the given header. -/
def speedups (header : Str) (algorithms : List Algorithm) (times : List Double) : Run Str := do
  let a0 ← element algorithms 0
  let line ← forRange 1 algorithms.length (fun i line => do
    let ai ← element algorithms i
    let t0 ← element times 0
    let ti ← element times i
    .ok (line ++ text " " ++ algorithmToString ai ++ text ": " ++ T.fixed 2 (T.div t0 ti) ++
      text "x" ++ separator i algorithms.length))
    (header ++ text " (vs " ++ algorithmToString a0 ++ text "):")
  .ok (line ++ text "\n")

/-- The speedups, printed when there are several algorithms and the first took time. -/
def speedupsIf (header : Str) (algorithms : List Algorithm) (times : List Double) : Run Str := do
  if algorithms.length > 1 then
    if T.positive (← element times 0) then speedups T header algorithms times else .ok []
  else .ok []

/-- Iteration `i` of the loop over the algorithms in test `t`. -/
def runAlgorithm (algorithms : List Algorithm) (t : Nat) (A B : Str) (i : Nat) (s : Round Double) :
    Prog Var (Round Double) := do
  let alg ← lift (element algorithms i)
  let result ← runSingleAlgorithm M A B alg
  let time := T.elapsed t i
  let total ← lift (element s.totalTimes i)
  let display ← lift (truncateDisplay result 50 50)
  return {
    results := s.results ++ [result]
    times := s.times ++ [time]
    totalTimes := s.totalTimes.set i (T.add total time)
    out := s.out ++ digitsLine (algorithmToString alg ++ text " result") result display ++
      text "  Time: " ++ T.fixed 6 time ++ text " seconds\n" }

/-- Test `t`. -/
def runTest (cfg : Settings) (t : Nat) (s : State Double) : Prog Var (State Double) := do
  let out := s.out ++ text "Test #" ++ natStr t ++ text ":\n"
  let (A, drawn) := randomBigint draws cfg.length s.drawn
  let (B, drawn) := randomBigint draws cfg.length drawn
  let displayA ← lift (truncateDisplay A 50 50)
  let displayB ← lift (truncateDisplay B 50 50)
  let r ← forLoop cfg.algorithms.length (runAlgorithm M T cfg.algorithms t A B)
    ⟨[], [], s.totalTimes,
      out ++ digitsLine (text "A") A displayA ++ digitsLine (text "B") B displayB⟩
  let (passed, err) ← lift (verifyResults M A B r.results cfg.algorithms)
  let line ← lift (speedupsIf T (text "  Speedups") cfg.algorithms r.times)
  return {
    drawn := drawn
    totalTimes := r.totalTimes
    allTestsPassed := s.allTestsPassed && passed
    out := r.out ++ verdictLine passed ++ line ++ text "\n"
    err := s.err ++ err }

/-- `for (size_t t = t₀; t <= num_tests; ++t)`, for at most `fuel` rounds. -/
def testLoop (cfg : Settings) : Nat → Nat → State Double → Prog Var (State Double)
  | 0, _, _ => .fail
  | fuel + 1, t, s =>
    if t ≤ cfg.numTests then do
      let s ← runTest M T draws cfg t s
      testLoop cfg fuel ((t + 1) % 2 ^ 64) s
    else pure s

/-- The summary after the last test. -/
def summary (cfg : Settings) (s : State Double) : Run Str := do
  let out ← forLoop cfg.algorithms.length (fun i out => do
    let alg ← element cfg.algorithms i
    let total ← element s.totalTimes i
    .ok (out ++ text "Average " ++ algorithmToString alg ++ text " Time: " ++
      T.fixed 6 (T.div total (T.ofSize cfg.numTests)) ++ text " seconds\n"))
    (text "=== SUMMARY ===\n")
  let line ← speedupsIf T (text "Overall Average Speedups") cfg.algorithms s.totalTimes
  .ok (out ++ line ++ text "All tests " ++ text (if s.allTestsPassed then "PASSED" else "FAILED") ++
    text "\n")

/-- What is printed before the first test. -/
def banner (cfg : Settings) : Run Str := do
  let names ← forLoop cfg.algorithms.length (fun i names => do
    .ok (names ++ text " " ++ algorithmToString (← element cfg.algorithms i) ++
      separator i cfg.algorithms.length)) []
  .ok (text "Running " ++ natStr cfg.numTests ++ text " tests with " ++ natStr cfg.length ++
    text "-digit operands comparing:" ++ names ++ text ".\n\n")

/-- The algorithms that run when the command line names none. -/
def withDefaults (cfg : Settings) : Settings × Str :=
  if cfg.algorithms = [] then
    ({ cfg with algorithms := [.naive, .karatsubaPar] },
      text "No algorithms specified, defaulting to Naive and Karatsuba Parallel.\n")
  else (cfg, [])

/-- `main`. The test loop stops after `fuel` rounds. -/
def main (fuel : Nat) (programName : Str) (args : List Str) : Prog Var Outcome := do
  if asksForHelp args then return ⟨0, printUsage programName, []⟩
  let (cfg, err) := parseArguments args
  let (cfg, notice) := withDefaults cfg
  let head ← lift (banner cfg)
  let s ← testLoop M T draws cfg fuel 1
    ⟨0, List.replicate cfg.algorithms.length T.zero, true, notice ++ head, err⟩
  let tail ← lift (summary T cfg s)
  return ⟨0, s.out ++ tail, s.err⟩

end Main

/-! ## Verification -/

theorem element_ok {α : Type} {xs : List α} {i : Nat} (h : i < xs.length) :
    element xs i = .ok xs[i] := by
  rw [element, List.getElem?_eq_getElem h]

/-- All results are one string. -/
def Agree (results : List Str) : Prop := ∀ r ∈ results, ∀ q ∈ results, r = q

/-- The results are the built-in product where the operands are short enough for it. -/
def BuiltInAgrees (a b : Str) (results : List Str) : Prop :=
  a.length ≤ 9 → b.length ≤ 9 → ∀ x y, stoll a = .ok x → stoll b = .ok y →
    ∀ r ∈ results, r = intStr (x * y)

/-- The state of the comparison loop before iteration `i`. -/
def Compared (results : List Str) (first : Str) (i : Nat) (st : Bool × Str) : Prop :=
  (st.1 = true ↔ ∀ j (h : j < results.length), j < i → results[j] = first) ∧
    (st.2 = [] ↔ st.1 = true)

theorem compareResult_inv {results : List Str} {algorithms : List Algorithm} {first : Str} {i : Nat}
    {st : Bool × Str} (hi : i < results.length) (hl : results.length ≤ algorithms.length)
    (h : Compared results first i st) :
    ∃ st', compareResult results algorithms first i st = .ok st' ∧
      Compared results first (i + 1) st' := by
  unfold compareResult
  rw [element_ok hi, ok_bind]
  by_cases hr : results[i] ≠ first
  · rw [if_pos hr, element_ok (by omega), ok_bind, element_ok (by omega), ok_bind]
    refine ⟨_, rfl, ?_, ?_⟩
    · exact ⟨fun hf => absurd hf Bool.false_ne_true, fun hall => absurd (hall i hi (by omega)) hr⟩
    · simp [text]
  · have hr : results[i] = first := not_not.mp hr
    rw [if_neg (not_not.mpr hr)]
    refine ⟨_, rfl, ?_, h.2⟩
    rw [h.1]
    constructor
    · intro hall j hj hji
      rcases Nat.lt_succ_iff_lt_or_eq.mp hji with hlt | rfl
      · exact hall j hj hlt
      · exact hr
    · intro hall j hj hji
      exact hall j hj (by omega)

theorem compareLoop_ok {first : Str} {rest : List Str} {algorithms : List Algorithm}
    (hl : (first :: rest).length ≤ algorithms.length) :
    ∃ st, forRange 1 (first :: rest).length (compareResult (first :: rest) algorithms first)
        (true, []) = .ok st ∧
      (st.1 = true ↔ Agree (first :: rest)) ∧ (st.2 = [] ↔ st.1 = true) := by
  obtain ⟨st, hst, hall, herr⟩ := forLoop_invariant ((first :: rest).length - 1)
    (fun i => compareResult (first :: rest) algorithms first (1 + i))
    (fun i => Compared (first :: rest) first (1 + i)) (true, [])
    ⟨⟨fun _ j hj h1 => by obtain rfl : j = 0 := (by omega); rfl, fun _ => rfl⟩, by simp⟩
    (fun i hi st h => compareResult_inv (by omega) hl h)
  refine ⟨st, hst, ?_, herr⟩
  rw [hall]
  constructor
  · intro h r hr q hq
    obtain ⟨i, hi, rfl⟩ := List.getElem_of_mem hr
    obtain ⟨j, hj, rfl⟩ := List.getElem_of_mem hq
    rw [h i hi (by omega), h j hj (by omega)]
  · intro h j hj _
    exact h _ (List.getElem_mem hj) _ List.mem_cons_self

/-- The comparison with the built-in product never overflows: operands of nine
characters have at most nine digits. -/
theorem compareBuiltIn_ok {a b : Str} (ha : a.length ≤ 9) (hb : b.length ≤ 9) (first : Str) :
    ∃ st, compareBuiltIn .lp64 a b first [] = .ok st ∧ (st.2 = [] ↔ st.1 = true) ∧
      (st.1 = true ↔ ∀ x y, stoll a = .ok x → stoll b = .ok y → first = intStr (x * y)) := by
  unfold compareBuiltIn
  split
  · rename_i x y hx hy
    have hlong : Machine.lp64.long (x * y) = true := by
      refine lp64_long _ ?_
      have h9 : ∀ {s : Str} {v : ℤ}, s.length ≤ 9 → stoll s = .ok v → |v| < 10 ^ 9 :=
        fun hs hv => (signed_abs_lt hv).trans_le (pow_le_pow_right₀ (by norm_num) hs)
      calc |x * y| = |x| * |y| := abs_mul x y
        _ ≤ 10 ^ 9 * 10 ^ 9 :=
          mul_le_mul (h9 ha hx).le (h9 hb hy).le (abs_nonneg y) (by norm_num)
        _ < 2 ^ 63 := by norm_num
    rw [longVal_ok hlong, ok_bind]
    dsimp only
    by_cases hf : first ≠ intStr (x * y)
    · rw [if_pos hf]
      refine ⟨_, rfl, by simp [text], ⟨fun h => absurd h Bool.false_ne_true, fun h => ?_⟩⟩
      exact absurd (h x y hx hy) hf
    · rw [if_neg hf]
      refine ⟨_, rfl, by simp, ⟨fun _ x' y' hx' hy' => ?_, fun _ => rfl⟩⟩
      rw [← Except.ok.inj (hx.symm.trans hx'), ← Except.ok.inj (hy.symm.trans hy')]
      exact not_not.mp hf
  · rename_i hno
    exact ⟨_, rfl, by simp, ⟨fun _ x y hx hy => absurd hy (hno x y hx), fun _ => rfl⟩⟩

/-- **What `verify_results` decides.** On all strings and with a name for every
result it returns; it accepts when the results are one string, which is the built-in
product if `stoll` reads both operands and neither has more than nine characters;
it prints to `cerr` when it rejects, and only then. -/
theorem verifyResults_iff (a b : Str) (results : List Str) (algorithms : List Algorithm)
    (hl : results.length ≤ algorithms.length) :
    ∃ passed err, verifyResults .lp64 a b results algorithms = .ok (passed, err) ∧
      (passed = true ↔ Agree results ∧ BuiltInAgrees a b results) ∧
      (err = [] ↔ passed = true) := by
  cases results with
  | nil =>
    exact ⟨true, [], rfl, by simp [Agree, BuiltInAgrees], by simp⟩
  | cons first rest =>
    obtain ⟨⟨allMatch, err⟩, hst, hall, herr⟩ := compareLoop_ok hl
    unfold verifyResults
    dsimp only at hall herr ⊢
    rw [hst, ok_bind]
    dsimp only
    by_cases hc : a.length ≤ 9 ∧ b.length ≤ 9 ∧ allMatch = true
    · obtain ⟨ha, hb, hm⟩ := hc
      rw [if_pos ⟨ha, hb, hm⟩, herr.mpr hm]
      obtain ⟨st, hst, he, hp⟩ := compareBuiltIn_ok ha hb first
      refine ⟨st.1, st.2, hst, ?_, he⟩
      rw [hp]
      constructor
      · intro h
        refine ⟨hall.mp hm, fun _ _ x y hx hy r hr => ?_⟩
        rw [hall.mp hm r hr first List.mem_cons_self]
        exact h x y hx hy
      · intro h x y hx hy
        exact h.2 ha hb x y hx hy first List.mem_cons_self
    · rw [if_neg hc]
      refine ⟨allMatch, err, rfl, ?_, herr⟩
      constructor
      · intro hm
        exact ⟨hall.mp hm, fun ha hb => absurd ⟨ha, hb, hm⟩ hc⟩
      · intro h
        exact hall.mpr h.1

/-- Two results of which one is the product. -/
theorem verifyResults_iff_7_8 :
    ∃ passed err, verifyResults .lp64 ['7'] ['8'] [['5', '6'], ['5', '4']]
        [.naive, .karatsubaSeq] = .ok (passed, err) ∧
      (passed = true ↔ Agree [['5', '6'], ['5', '4']] ∧
        BuiltInAgrees ['7'] ['8'] [['5', '6'], ['5', '4']]) ∧
      (err = [] ↔ passed = true) :=
  verifyResults_iff _ _ _ _ (by decide)

/-! ## One algorithm -/

/-- The operand lengths up to which an algorithm is known to multiply. -/
def digitLimit : Algorithm → Nat
  | .naive => 23860929
  | .karatsubaSeq => 23860929
  | .karatsubaPar => 23860929
  | .toomCookSeq => 2 ^ 20
  | .toomCookPar => 2 ^ 20

theorem digitLimit_le (alg : Algorithm) : digitLimit alg ≤ 23860929 := by
  cases alg <;> decide

/-- The canonical decimal of the product. -/
def productStr (A B : Str) : Str := natStr (decimalValue A * decimalValue B)

theorem runSingleAlgorithm_raceFree (M : Machine) (A B : Str) (alg : Algorithm) :
    (runSingleAlgorithm M A B alg).RaceFree := by
  cases alg with
  | naive => exact raceFree_lift _
  | karatsubaSeq => exact raceFree_invoke (karatsubaMulString_raceFree M A B)
  | karatsubaPar => exact raceFree_invoke (parKaratsubaMulString_raceFree M A B)
  | toomCookSeq => exact raceFree_invoke (toomCookMulString_raceFree M A B)
  | toomCookPar => exact raceFree_invoke (parToomCookMulString_raceFree M A B)

/-- Every algorithm prints the canonical decimal of the product. -/
theorem runSingleAlgorithm_computes {alg : Algorithm} {A B : Str} (hA : IsDecimal A)
    (hB : IsDecimal B) (hne : 0 < A.length + B.length)
    (hmax : max A.length B.length ≤ digitLimit alg) :
    (runSingleAlgorithm .lp64 A B alg).Computes (.ok (productStr A B)) := by
  have hcall : ∀ {p : Prog Var Str}, Returns p (decimalValue A * decimalValue B) →
      (invoke p).Computes (.ok (productStr A B)) := by
    rintro p ⟨s, hs, hp⟩
    obtain rfl := hs.unique (canonical_natStr _)
    exact computes_invoke hp
  cases alg with
  | naive =>
    have hmax : max A.length B.length ≤ 23860929 := hmax
    obtain ⟨s, hs, hc⟩ := naiveMulString_ok A B hA hB hne (by omega)
    obtain rfl := hc.unique (canonical_natStr _)
    rw [runSingleAlgorithm, hs]
    exact computes_lift _
  | karatsubaSeq =>
    have hmax : max A.length B.length ≤ 23860929 := hmax
    exact hcall (karatsuba_returns hA hB hne (by omega) (by omega))
  | karatsubaPar =>
    have hmax : max A.length B.length ≤ 23860929 := hmax
    exact hcall (parKaratsuba_returns hA hB hne (by omega) (by omega))
  | toomCookSeq => exact hcall (toomCook_returns hA hB hne hmax)
  | toomCookPar => exact hcall (parToomCook_returns hA hB hne hmax)

/-- The verdict on results that all are the product. -/
theorem verifyResults_product {A B : Str} (hA : IsDecimal A) (hB : IsDecimal B) (hnA : A ≠ [])
    (hnB : B ≠ []) {n : Nat} {algorithms : List Algorithm} (hn : n ≤ algorithms.length) :
    verifyResults .lp64 A B (List.replicate n (productStr A B)) algorithms = .ok (true, []) := by
  obtain ⟨passed, err, hv, hp, he⟩ := verifyResults_iff A B
    (List.replicate n (productStr A B)) algorithms (by rwa [List.length_replicate])
  have hpassed : passed = true := by
    refine hp.mpr ⟨fun r hr q hq => ?_, fun h9A h9B x y hx hy r hr => ?_⟩
    · rw [List.eq_of_mem_replicate hr, List.eq_of_mem_replicate hq]
    · have hread : ∀ {s : Str} {v : ℤ}, IsDecimal s → s ≠ [] → s.length ≤ 9 → stoll s = .ok v →
          v = decimalValue s := fun hs hne h9 hv => by
        have hlt := (decimalValue_lt hs).trans_le (Nat.pow_le_pow_right (by decide) h9)
        rw [stoll, signed_decimal 64 _ hs hne (by omega)] at hv
        exact (Except.ok.inj hv).symm
      rw [List.eq_of_mem_replicate hr, hread hA hnA h9A hx, hread hB hnB h9B hy, ← Nat.cast_mul,
        intStr_natCast, productStr]
  rw [hv, hpassed, he.mpr hpassed]

end BigintMultiply.TestMultiply
