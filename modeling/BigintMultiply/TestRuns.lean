import BigintMultiply.TestMultiply

/-! Whole runs of the test program.

* `parseArguments_consumes`: which arguments the command line parser uses;
* `main_everySchedule`: with supported settings every run prints the products,
  passes every test and returns 0, whatever the digits drawn, the clock and the
  schedule of the parallel algorithms;
* `main_returns_iff`: the run ends unless `num_tests` is the largest `size_t`. -/

namespace BigintMultiply.TestRuns
open Checked Vectors Decimal Utils ForkJoin Prog Numeral Operands TestMultiply

/-! ## The command line -/

/-- The roles of the used arguments: the two numbers, then the algorithms. -/
structure Uses (used : List Str) (cfg : Settings) : Prop where
  numTests : match used[0]? with
    | some arg => stoul arg = .ok cfg.numTests
    | none => cfg.numTests = 5
  length : match used[1]? with
    | some arg => stoul arg = .ok cfg.length
    | none => cfg.length = 1000
  algorithms : (used.drop 2).map algorithmOf = cfg.algorithms.map .ok

/-- The first argument left over has no use: it is no number where one is expected,
or no algorithm. -/
def Stops (used : List Str) (arg : Str) : Prop :=
  if used.length < 2 then ∃ e, stoul arg = .error e else ∃ e, algorithmOf arg = .error e

theorem parseAlgorithms_consumes (args : List Str) :
    ∃ used rest, args = used ++ rest ∧
      used.map algorithmOf = (parseAlgorithms args).1.map .ok ∧
      ((rest = [] ∧ (parseAlgorithms args).2 = []) ∨
        ∃ arg args', rest = arg :: args' ∧ (parseAlgorithms args).2 ≠ [] ∧
          ∃ e, algorithmOf arg = .error e) := by
  induction args with
  | nil => exact ⟨[], [], rfl, rfl, .inl ⟨rfl, rfl⟩⟩
  | cons arg args ih =>
    unfold parseAlgorithms
    cases h : algorithmOf arg with
    | ok alg =>
      obtain ⟨used, rest, rfl, hused, hrest⟩ := ih
      exact ⟨arg :: used, rest, rfl, by rw [List.map_cons, h, hused]; rfl, hrest⟩
    | error e =>
      refine ⟨[], arg :: args, rfl, ?_, .inr ⟨arg, args, rfl, ?_, e, h⟩⟩
      · cases e <;> rfl
      · cases e <;> simp [text]

/-- An argument that is no number is no algorithm either, so it ends the parsing. -/
theorem parseAlgorithms_of_not_number {arg : Str} {e : Exn} (h : stoul arg = .error e)
    (args : List Str) : (parseAlgorithms (arg :: args)).1 = [] ∧
      (parseAlgorithms (arg :: args)).2 ≠ [] := by
  obtain ⟨e', he⟩ := stoi_error_of_stoul h
  have halg : algorithmOf arg = .error e' := by
    rw [algorithmOf, he]
    rfl
  unfold parseAlgorithms
  rw [halg]
  cases e' <;> exact ⟨rfl, by simp [text]⟩

/-- The number of an algorithm on the command line. -/
def choice : Algorithm → Nat
  | .naive => 0
  | .karatsubaSeq => 1
  | .karatsubaPar => 2
  | .toomCookSeq => 3
  | .toomCookPar => 4

/-- The arguments that ask for the given settings. -/
def arguments (cfg : Settings) : List Str :=
  natStr cfg.numTests :: natStr cfg.length :: cfg.algorithms.map fun alg => natStr (choice alg)

theorem algorithmOf_choice (alg : Algorithm) : algorithmOf (natStr (choice alg)) = .ok alg := by
  have hlt : choice alg < 2 ^ 31 := by cases alg <;> decide
  rw [algorithmOf, stoi, signed_natStr 32 _ hlt]
  cases alg <;> rfl

/-- Parsing reads back every setting. -/
theorem parseArguments_arguments (cfg : Settings) (hn : cfg.numTests < 2 ^ 64)
    (hl : cfg.length < 2 ^ 64) : parseArguments (arguments cfg) = (cfg, []) := by
  have halgs : ∀ algs : List Algorithm,
      parseAlgorithms (algs.map fun alg => natStr (choice alg)) = (algs, []) := by
    intro algs
    induction algs with
    | nil => rfl
    | cons alg algs ih => rw [List.map_cons, parseAlgorithms, algorithmOf_choice, ih]
  simp only [parseArguments, arguments, numberOr, stoul_natStr hn, stoul_natStr hl, halgs]

theorem asksForHelp_arguments (cfg : Settings) : asksForHelp (arguments cfg) = false := by
  have hne : ∀ s : String, '-' ∈ text s → natStr cfg.numTests ≠ text s := by
    intro s hs h
    have hd := natStr_decimal cfg.numTests '-' (by rw [h]; exact hs)
    exact absurd hd (by decide)
  simp [asksForHelp, arguments, hne "-h" (by simp [text]), hne "--help" (by simp [text])]

/-! ## The printed texts -/

section Texts

variable {Double : Type} (T : Timing Double)

theorem element_getD {α : Type} {xs : List α} {i : Nat} (h : i < xs.length) (d : α) :
    element xs i = .ok (xs.getD i d) := by
  rw [element_ok h, List.getD_eq_getElem _ _ h]

def nameOf (algorithms : List Algorithm) (i : Nat) : Str :=
  algorithmToString (algorithms.getD i .naive)

/-- The speedup of algorithm `i`. -/
def speedupText (algorithms : List Algorithm) (times : List Double) (i : Nat) : Str :=
  text " " ++ nameOf algorithms i ++ text ": " ++
    T.fixed 2 (T.div (times.getD 0 T.zero) (times.getD i T.zero)) ++ text "x" ++
    separator i algorithms.length

def speedupsText (header : Str) (algorithms : List Algorithm) (times : List Double) : Str :=
  if algorithms.length > 1 ∧ T.positive (times.getD 0 T.zero) then
    header ++ text " (vs " ++ nameOf algorithms 0 ++ text "):" ++
      ((List.range (algorithms.length - 1)).map
        fun i => speedupText T algorithms times (1 + i)).flatten ++ text "\n"
  else []

theorem speedupsIf_ok (header : Str) {algorithms : List Algorithm} {times : List Double}
    (hl : times.length = algorithms.length) :
    speedupsIf T header algorithms times = .ok (speedupsText T header algorithms times) := by
  unfold speedupsIf speedupsText
  by_cases hn : algorithms.length > 1
  · rw [if_pos hn, element_getD (by omega) T.zero, ok_bind]
    by_cases hp : T.positive (times.getD 0 T.zero) = true
    · rw [if_pos hp, if_pos ⟨hn, hp⟩, speedups, element_getD (by omega) .naive, ok_bind, forRange,
        forLoop_concat _ _ (fun i => speedupText T algorithms times (1 + i)) _ fun i hi l => ?_]
      · rfl
      · rw [element_getD (by omega) .naive, ok_bind, element_getD (by omega) T.zero, ok_bind,
          element_getD (by omega) T.zero, ok_bind]
        simp only [speedupText, nameOf, List.append_assoc]
    · rw [if_neg hp, if_neg fun h => hp h.2]
  · rw [if_neg hn, if_neg fun h => hn h.1]

def bannerText (cfg : Settings) : Str :=
  text "Running " ++ natStr cfg.numTests ++ text " tests with " ++ natStr cfg.length ++
    text "-digit operands comparing:" ++ ((List.range cfg.algorithms.length).map fun i =>
      text " " ++ nameOf cfg.algorithms i ++ separator i cfg.algorithms.length).flatten ++
    text ".\n\n"

theorem banner_ok (cfg : Settings) : banner cfg = .ok (bannerText cfg) := by
  rw [banner, forLoop_concat _ _ (fun i => text " " ++ nameOf cfg.algorithms i ++
    separator i cfg.algorithms.length) _ fun i hi l => ?_]
  · rfl
  · rw [element_getD hi .naive, ok_bind]
    simp only [nameOf, List.append_assoc]

/-- The summary after tests that all passed. -/
def summaryText (cfg : Settings) (totalTimes : List Double) : Str :=
  text "=== SUMMARY ===\n" ++ ((List.range cfg.algorithms.length).map fun i =>
      text "Average " ++ nameOf cfg.algorithms i ++ text " Time: " ++
        T.fixed 6 (T.div (totalTimes.getD i T.zero) (T.ofSize cfg.numTests)) ++
        text " seconds\n").flatten ++
    speedupsText T (text "Overall Average Speedups") cfg.algorithms totalTimes ++
    text "All tests " ++ text "PASSED" ++ text "\n"

theorem summary_ok {cfg : Settings} {s : State Double}
    (hl : s.totalTimes.length = cfg.algorithms.length) (hp : s.allTestsPassed = true) :
    summary T cfg s = .ok (summaryText T cfg s.totalTimes) := by
  rw [summary, forLoop_concat _ _ (fun i => text "Average " ++ nameOf cfg.algorithms i ++
    text " Time: " ++ T.fixed 6 (T.div (s.totalTimes.getD i T.zero) (T.ofSize cfg.numTests)) ++
    text " seconds\n") _ fun i hi l => ?_]
  · rw [ok_bind, speedupsIf_ok T _ hl, ok_bind, hp]
    rfl
  · rw [element_getD hi .naive, ok_bind, element_getD (by omega) T.zero, ok_bind]
    simp only [nameOf, List.append_assoc]

end Texts

/-! ## A passing run -/

section Passing

variable {Double : Type} (T : Timing Double) (draws : Draws) (cfg : Settings)

/-- The variables after algorithm `i` of test `t` returned the product. -/
def roundStep (t : Nat) (A B : Str) (s : Round Double) (i : Nat) : Round Double where
  results := s.results ++ [productStr A B]
  times := s.times ++ [T.elapsed t i]
  totalTimes := s.totalTimes.set i (T.add (s.totalTimes.getD i T.zero) (T.elapsed t i))
  out := s.out ++ digitsLine (nameOf cfg.algorithms i ++ text " result") (productStr A B)
      (shown (productStr A B)) ++
    text "  Time: " ++ T.fixed 6 (T.elapsed t i) ++ text " seconds\n"

/-- The variables after the first `k` algorithms of test `t`. -/
def roundAfter (t : Nat) (A B : Str) (s : Round Double) : Nat → Round Double
  | 0 => s
  | k + 1 => roundStep T cfg t A B (roundAfter t A B s k) k

/-- The variables after test `t`, which passed. -/
def passedTest (t : Nat) (s : State Double) : State Double :=
  let m := max cfg.length 1
  let A := randomChars draws cfg.length s.drawn
  let B := randomChars draws cfg.length (s.drawn + m)
  let r := roundAfter T cfg t A B ⟨[], [], s.totalTimes,
    s.out ++ text "Test #" ++ natStr t ++ text ":\n" ++ digitsLine (text "A") A (shown A) ++
      digitsLine (text "B") B (shown B)⟩ cfg.algorithms.length
  { drawn := s.drawn + m + m
    totalTimes := r.totalTimes
    allTestsPassed := s.allTestsPassed
    out := r.out ++ (text "  Verification: " ++ text "PASSED" ++ text "\n") ++
      speedupsText T (text "  Speedups") cfg.algorithms r.times ++ text "\n"
    err := s.err }

/-- The variables after tests `t, …, t + n - 1`, which all passed. -/
def passedTests : Nat → Nat → State Double → State Double
  | _, 0, s => s
  | t, n + 1, s => passedTests (t + 1) n (passedTest T draws cfg t s)

/-- Lengths at which every chosen algorithm multiplies. -/
def Supported : Prop := ∀ alg ∈ cfg.algorithms, max cfg.length 1 ≤ digitLimit alg

theorem roundAfter_results (t : Nat) (A B : Str) (s : Round Double) (hs : s.results = [])
    (k : Nat) : (roundAfter T cfg t A B s k).results = List.replicate k (productStr A B) := by
  induction k with
  | zero => exact hs
  | succ k ih => rw [roundAfter, roundStep, ih, List.replicate_succ']

theorem roundAfter_times_length (t : Nat) (A B : Str) (s : Round Double) (hs : s.times = [])
    (k : Nat) : (roundAfter T cfg t A B s k).times.length = k := by
  induction k with
  | zero => rw [roundAfter, hs, List.length_nil]
  | succ k ih => rw [roundAfter, roundStep, List.length_append, ih, List.length_singleton]

theorem roundAfter_totalTimes_length (t : Nat) (A B : Str) (s : Round Double) (k : Nat) :
    (roundAfter T cfg t A B s k).totalTimes.length = s.totalTimes.length := by
  induction k with
  | zero => rfl
  | succ k ih => rw [roundAfter, roundStep, List.length_set, ih]

theorem productStr_length {A B : Str} {n : Nat} (hA : IsDecimal A) (hB : IsDecimal B)
    (hnA : A.length = n) (hnB : B.length = n) : (productStr A B).length ≤ max 1 (n + n) := by
  have hlt : decimalValue A * decimalValue B < 10 ^ (n + n) := by
    have h := Nat.mul_lt_mul'' (decimalValue_lt hA) (decimalValue_lt hB)
    rwa [hnA, hnB, ← pow_add] at h
  rw [productStr, (canonical_natStr _).length_eq]
  have hdig := (Nat.digits_length_le_iff (by norm_num) _).mpr hlt
  omega

/-- The loop over the algorithms in test `t`. -/
theorem roundLoop_computes (hsup : Supported cfg) (t : Nat) {A B : Str} (hA : IsDecimal A)
    (hB : IsDecimal B) (hnA : A.length = max cfg.length 1) (hnB : B.length = max cfg.length 1)
    (s : Round Double) (hs : s.totalTimes.length = cfg.algorithms.length) :
    (forLoop cfg.algorithms.length (runAlgorithm .lp64 T cfg.algorithms t A B) s).Computes
      (.ok (roundAfter T cfg t A B s cfg.algorithms.length)) := by
  refine computes_forLoop_trace _ _ (roundAfter T cfg t A B s) fun i hi => ?_
  have hlim := hsup _ (List.getElem_mem hi)
  have hle := digitLimit_le cfg.algorithms[i]
  have hlen := productStr_length hA hB hnA hnB
  have hname : nameOf cfg.algorithms i = algorithmToString cfg.algorithms[i] := by
    rw [nameOf, List.getD_eq_getElem _ _ hi]
  unfold runAlgorithm
  rw [element_ok hi]
  refine computes_bind_ok (computes_lift _) (computes_bind_ok
    (runSingleAlgorithm_computes hA hB (by omega) (by omega)) ?_)
  dsimp only
  rw [element_getD (by rw [roundAfter_totalTimes_length, hs]; exact hi) T.zero,
    truncateDisplay_default (by omega)]
  refine computes_bind_ok (computes_lift _) (computes_bind_ok (computes_lift _) ?_)
  rw [roundAfter, roundStep, hname]
  exact computes_pure _

/-- **One test passes.** -/
theorem runTest_computes (hsup : Supported cfg) (t : Nat) (s : State Double)
    (hs : s.totalTimes.length = cfg.algorithms.length) (hlen : cfg.length < 2 ^ 64) :
    (runTest .lp64 T draws cfg t s).Computes (.ok (passedTest T draws cfg t s)) := by
  have hshown : ∀ k, truncateDisplay (randomChars draws cfg.length k) 50 50 =
      .ok (shown (randomChars draws cfg.length k)) := fun k =>
    truncateDisplay_default (by rw [randomChars_length]; omega)
  have hne : ∀ k, randomChars draws cfg.length k ≠ [] := fun k => List.cons_ne_nil _ _
  unfold runTest
  rw [randomBigint_eq]
  dsimp only
  rw [randomBigint_eq]
  dsimp only
  rw [hshown, hshown]
  refine computes_bind_ok (computes_lift _) (computes_bind_ok (computes_lift _) ?_)
  refine computes_bind_ok (roundLoop_computes T cfg hsup t (randomChars_decimal _ _ _)
    (randomChars_decimal _ _ _) (randomChars_length _ _ _) (randomChars_length _ _ _) _ hs) ?_
  rw [roundAfter_results T cfg t _ _ _ rfl,
    verifyResults_product (randomChars_decimal _ _ _) (randomChars_decimal _ _ _) (hne _) (hne _)
      (Nat.le_refl _),
    speedupsIf_ok T _ (roundAfter_times_length T cfg t _ _ _ rfl _)]
  refine computes_bind_ok (computes_lift _) (computes_bind_ok (computes_lift _) ?_)
  dsimp only
  rw [Bool.and_true, List.append_nil]
  exact computes_pure _

theorem passedTest_totalTimes_length (t : Nat) (s : State Double) :
    (passedTest T draws cfg t s).totalTimes.length = s.totalTimes.length :=
  roundAfter_totalTimes_length T cfg t _ _ _ _

/-- What the tests leave unchanged. -/
theorem passedTests_unchanged (n t : Nat) (s : State Double) :
    (passedTests T draws cfg t n s).totalTimes.length = s.totalTimes.length ∧
      (passedTests T draws cfg t n s).allTestsPassed = s.allTestsPassed ∧
      (passedTests T draws cfg t n s).err = s.err := by
  induction n generalizing t s with
  | zero => exact ⟨rfl, rfl, rfl⟩
  | succ n ih =>
    obtain ⟨hl, hp, he⟩ := ih (t + 1) (passedTest T draws cfg t s)
    exact ⟨hl.trans (passedTest_totalTimes_length T draws cfg t s), hp, he⟩

/-- **Every test passes.** The loop over the tests `t, …, num_tests`. -/
theorem testLoop_computes (hsup : Supported cfg) (hlen : cfg.length < 2 ^ 64)
    (hnum : cfg.numTests < 2 ^ 64 - 1) (n fuel t : Nat) (ht : t + n = cfg.numTests + 1)
    (hf : n < fuel) (s : State Double) (hs : s.totalTimes.length = cfg.algorithms.length) :
    (testLoop .lp64 T draws cfg fuel t s).Computes (.ok (passedTests T draws cfg t n s)) := by
  induction n generalizing fuel t s with
  | zero =>
    obtain ⟨fuel, rfl⟩ : ∃ k, fuel = k + 1 := ⟨fuel - 1, by omega⟩
    rw [testLoop, if_neg (by omega)]
    exact computes_pure _
  | succ n ih =>
    obtain ⟨fuel, rfl⟩ : ∃ k, fuel = k + 1 := ⟨fuel - 1, by omega⟩
    rw [testLoop, if_pos (by omega)]
    refine computes_bind_ok (runTest_computes T draws cfg hsup t s hs hlen) ?_
    rw [Nat.mod_eq_of_lt (by omega)]
    exact ih fuel (t + 1) (by omega) (by omega) _
      ((passedTest_totalTimes_length T draws cfg t s).trans hs)

/-- With the largest `size_t` as the number of tests no round leaves the loop. -/
theorem testLoop_endless (hsup : Supported cfg) (hlen : cfg.length < 2 ^ 64)
    (hnum : cfg.numTests = 2 ^ 64 - 1) (fuel t : Nat) (ht : t < 2 ^ 64) (s : State Double)
    (hs : s.totalTimes.length = cfg.algorithms.length) :
    (testLoop .lp64 T draws cfg fuel t s).Computes (.error .exhausted) := by
  induction fuel generalizing t s with
  | zero => exact fun _ => rfl
  | succ fuel ih =>
    rw [testLoop, if_pos (by omega)]
    exact computes_bind_ok (runTest_computes T draws cfg hsup t s hs hlen)
      (ih _ (Nat.mod_lt _ (by decide)) _ ((passedTest_totalTimes_length T draws cfg t s).trans hs))

end Passing

/-! ## Whole runs -/

section Runs

variable {Double : Type} (T : Timing Double) (draws : Draws)

theorem runTest_raceFree (M : Machine) (cfg : Settings) (t : Nat) (s : State Double) :
    (runTest M T draws cfg t s).RaceFree := by
  refine raceFree_bind (raceFree_lift _) fun _ => raceFree_bind (raceFree_lift _) fun _ => ?_
  refine raceFree_bind (raceFree_forLoop (fun i r => ?_) _) fun _ =>
    raceFree_bind (raceFree_lift _) fun _ => raceFree_bind (raceFree_lift _) fun _ =>
      raceFree_pure _
  exact raceFree_bind (raceFree_lift _) fun alg =>
    raceFree_bind (runSingleAlgorithm_raceFree M _ _ alg) fun _ =>
      raceFree_bind (raceFree_lift _) fun _ => raceFree_bind (raceFree_lift _) fun _ =>
        raceFree_pure _

theorem testLoop_raceFree (M : Machine) (cfg : Settings) (fuel t : Nat) (s : State Double) :
    (testLoop M T draws cfg fuel t s).RaceFree := by
  induction fuel generalizing t s with
  | zero => trivial
  | succ fuel ih =>
    exact raceFree_ite (raceFree_bind (runTest_raceFree T draws M cfg t s) fun s => ih _ s)
      (raceFree_pure _)

theorem main_raceFree (M : Machine) (fuel : Nat) (programName : Str) (args : List Str) :
    (main M T draws fuel programName args).RaceFree :=
  raceFree_ite (raceFree_pure _) (raceFree_bind (raceFree_lift _) fun _ =>
    raceFree_bind (testLoop_raceFree T draws M _ fuel 1 _) fun _ =>
      raceFree_bind (raceFree_lift _) fun _ => raceFree_pure _)

/-- The settings of a run. -/
def chosen (args : List Str) : Settings := (withDefaults (parseArguments args).1).1

/-- The variables before the first test. -/
def initial (args : List Str) : State Double :=
  ⟨0, List.replicate (chosen args).algorithms.length T.zero, true,
    (withDefaults (parseArguments args).1).2 ++ bannerText (chosen args), (parseArguments args).2⟩

/-- What a run prints when all its tests pass. -/
def report (args : List Str) : Str :=
  let s := passedTests T draws (chosen args) 1 (chosen args).numTests (initial T args)
  s.out ++ summaryText T (chosen args) s.totalTimes

theorem chosen_algorithms_ne_nil (args : List Str) : (chosen args).algorithms ≠ [] := by
  unfold chosen withDefaults
  split
  · exact List.cons_ne_nil _ _
  · assumption

theorem numberOr_lt {default : Nat} (h : default < 2 ^ 64) (args : List Str) :
    (numberOr default args).1 < 2 ^ 64 := by
  unfold numberOr
  split
  · exact h
  · split
    · exact stoul_lt (by assumption)
    · exact h

theorem chosen_numTests (args : List Str) : (chosen args).numTests = (numberOr 5 args).1 := by
  unfold chosen withDefaults
  split <;> rfl

theorem chosen_numTests_lt (args : List Str) : (chosen args).numTests < 2 ^ 64 := by
  rw [chosen_numTests]
  exact numberOr_lt (by decide) args

/-- A request for help is no number. -/
theorem numTests_of_asksForHelp {args : List Str} (h : asksForHelp args = true) :
    (chosen args).numTests = 5 := by
  rw [chosen_numTests]
  cases args with
  | nil => rfl
  | cons arg args =>
    have harg : arg = text "-h" ∨ arg = text "--help" := by simpa [asksForHelp] using h
    rcases harg with rfl | rfl <;> rfl

theorem supported_length {args : List Str} (hsup : Supported (chosen args)) :
    (chosen args).length < 2 ^ 64 := by
  obtain ⟨alg, algs, h⟩ := List.exists_cons_of_ne_nil (chosen_algorithms_ne_nil args)
  have hlim := hsup alg (by rw [h]; exact List.mem_cons_self)
  have := digitLimit_le alg
  omega

theorem main_computes {fuel : Nat} {args : List Str} (programName : Str)
    (hhelp : asksForHelp args = false) (hsup : Supported (chosen args))
    (hnum : (chosen args).numTests < 2 ^ 64 - 1) (hf : (chosen args).numTests < fuel) :
    (main .lp64 T draws fuel programName args).Computes
      (.ok ⟨0, report T draws args, (parseArguments args).2⟩) := by
  have htotal : (initial T args).totalTimes.length = (chosen args).algorithms.length :=
    List.length_replicate
  have hsame := passedTests_unchanged T draws (chosen args) (chosen args).numTests 1
    (initial T args)
  unfold main
  rw [hhelp, if_neg Bool.false_ne_true]
  change Prog.Computes (lift (banner (chosen args)) >>= _) _
  rw [banner_ok]
  refine computes_bind_ok (computes_lift _) (computes_bind_ok
    (testLoop_computes T draws (chosen args) hsup (supported_length hsup) hnum
      (chosen args).numTests fuel 1 (Nat.add_comm _ _) hf (initial T args) htotal) ?_)
  change Prog.Computes (lift (summary T (chosen args) _) >>= _) _
  rw [summary_ok T (hsame.1.trans htotal) hsame.2.1]
  refine computes_bind_ok (computes_lift _) ?_
  rw [hsame.2.2]
  exact computes_pure _

/-- **Every run passes.** With settings that every chosen algorithm supports, for all
digit streams, clocks and schedules of the parallel algorithms, the test program
prints the products, passes every test and returns 0; `cerr` holds nothing but
the message about the arguments. -/
theorem main_everySchedule (fuel : Nat) (programName : Str) (args : List Str)
    (hhelp : asksForHelp args = false) (hsup : Supported (chosen args))
    (hnum : (chosen args).numTests < 2 ^ 64 - 1) (hf : (chosen args).numTests < fuel) :
    (main .lp64 T draws fuel programName args).EverySchedule
      ⟨0, report T draws args, (parseArguments args).2⟩ :=
  everySchedule_of_eval (main_raceFree T draws .lp64 fuel programName args)
    (main_computes T draws programName hhelp hsup hnum hf).eval

/-- A clock in microseconds that reads a little more for each algorithm. -/
def microseconds : Timing Nat :=
  ⟨0, (· + ·), (· / ·), id, (0 < ·), fun _ => natStr, fun t i => t + i⟩

theorem chosen_arguments (cfg : Settings) (hn : cfg.numTests < 2 ^ 64) (hl : cfg.length < 2 ^ 64)
    (ha : cfg.algorithms ≠ []) : chosen (arguments cfg) = cfg := by
  rw [chosen, parseArguments_arguments cfg hn hl, withDefaults, if_neg ha]

/-- Three tests of 130 digits with two parallel algorithms. -/
theorem main_everySchedule_3_130 :
    (main .lp64 microseconds (fun k => Fin.ofNat 10 (k * k)) 4 (text "test_multiply")
      (arguments ⟨3, 130, [.karatsubaPar, .toomCookPar]⟩)).EverySchedule
      ⟨0, report microseconds (fun k => Fin.ofNat 10 (k * k))
        (arguments ⟨3, 130, [.karatsubaPar, .toomCookPar]⟩),
        (parseArguments (arguments ⟨3, 130, [.karatsubaPar, .toomCookPar]⟩)).2⟩ := by
  have hc := chosen_arguments ⟨3, 130, [.karatsubaPar, .toomCookPar]⟩ (by decide)
    (by decide) (List.cons_ne_nil _ _)
  refine main_everySchedule microseconds _ 4 _ _ (asksForHelp_arguments _) ?_ ?_ ?_
  · rw [hc]
    unfold Supported
    decide
  · rw [hc]
    decide
  · rw [hc]
    decide

end Runs

end BigintMultiply.TestRuns
