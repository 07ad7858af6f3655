import BigintMultiply.StringSchedules
import BigintMultiply.Library.Nesting

/-! The parallel loops of the vendored library, `parallel.h` and `scheduler.h`.

`parallel_for` first runs a growing number of iterations against the clock and then
splits the rest in two until a piece is small. The clock is a parameter here.

* `covers_parallelFor`: whatever the clock shows, each iteration runs once;
* `parallelFor_always`: so independent iterations do what the serial loop does;
* `nested_parallelFor`: how deep the splitting nests its forks;
* `parfor_endless`: at the first length at which `9 * (n + 1)` wraps, the splitting
  does not end;
* `parlayLoops_everySchedule`: the string function of `par_toom_cook_plib.cpp` on
  these loops. -/

namespace BigintMultiply.ParallelFor
open Checked Vectors Decimal ForkJoin Prog
open Utils (sizeSub sizeSub_of_le)
open ParKaratsuba ParToomCook Strings StringSchedules

/-- A result of type `size_t`. -/
def sizeT (n : Nat) : Nat := n % 2 ^ 64

theorem sizeT_of_lt {n : Nat} (h : n < 2 ^ 64) : sizeT n = n := Nat.mod_eq_of_lt h

section Loops

variable {ν : Type} (f : Nat → Prog ν Unit)

/-- The `do` loop of `get_granularity` from the state `done`, `sz`; round `r` takes
`ticks r` nanoseconds. -/
def granularityLoop (ticks : Nat → Nat) (start stop : Nat) : Nat → Nat → Nat → Nat → Prog ν Nat
  | 0, _, _, _ => .fail
  | fuel + 1, round, done, sz => do
    let sz := min sz (sizeSub stop (sizeT (start + done)))
    serialFor sz fun i => f (sizeT (start + done + i))
    let done := sizeT (done + sz)
    let sz := sizeT (sz * 2)
    if ticks round < 1000 ∧ done < sizeSub stop start then
      granularityLoop ticks start stop fuel (round + 1) done sz
    else return done

/-- Runs the first iterations and returns their number. -/
def getGranularity (ticks : Nat → Nat) (start stop : Nat) : Prog ν Nat :=
  granularityLoop f ticks start stop (stop - start) 0 0 1

/-- Each level of the recursion uses a unit of fuel. -/
def parfor_ (granularity : Nat) : Nat → Nat → Nat → Prog ν Unit
  | 0, _, _ => .fail
  | fuel + 1, start, stop =>
    if sizeSub stop start ≤ granularity then rangeFor start (stop - start) f
    else
      let n := sizeSub stop start
      let mid := sizeT (start + sizeT (9 * sizeT (n + 1)) / 16)
      parDo (parfor_ granularity fuel start mid) (parfor_ granularity fuel mid stop)

def parfor (threads : Nat) (ticks : Nat → Nat) (start stop granularity : Nat) : Prog ν Unit :=
  if stop ≤ start then .ret ()
  else if granularity = 0 then do
    let done ← getGranularity f ticks start stop
    -- the product is an `unsigned int`
    let pieces := 128 * threads % 2 ^ 32
    if pieces = 0 then .fail
    else
      let granularity := max done (sizeSub stop start / pieces)
      parfor_ f granularity (stop - start + 1) (sizeT (start + done)) stop
  else parfor_ f granularity (stop - start + 1) start stop

def parallelFor (threads : Nat) (ticks : Nat → Nat) (start stop : Nat) (granularity : Int) :
    Prog ν Unit :=
  if sizeT (start + 1) = stop then f start
  else if sizeSub stop start ≤ (granularity % 2 ^ 64).toNat then rangeFor start (stop - start) f
  else if stop > start then parfor f threads ticks start stop (granularity % 2 ^ 64).toNat
  else .ret ()

/-! ## Each iteration once -/

theorem serialFor_congr {n : Nat} {body body' : Nat → Prog ν Unit} (h : ∀ i < n, body i = body' i) :
    serialFor n body = serialFor n body' := by
  induction n with
  | zero => rfl
  | succ n ih =>
    change (serialFor n body >>= fun _ => body n) = (serialFor n body' >>= fun _ => body' n)
    rw [ih fun i hi => h i (by omega), h n (by omega)]

variable {f} {start stop : Nat} (hstop : stop < 2 ^ 64)

include hstop

/-- The timed rounds are a first part of the loop. -/
theorem granularityLoop_eq (hsmall : stop - start < 2 ^ 63) (ticks : Nat → Nat)
    (fuel round done sz : Nat) (hd : start + done < stop) (hfuel : stop - start - done ≤ fuel)
    (hsz : 0 < sz) : ∃ m, 0 < m ∧ start + done + m ≤ stop ∧
      granularityLoop f ticks start stop fuel round done sz =
        (do rangeFor (start + done) m f; .ret (done + m)) := by
  induction fuel generalizing round done sz with
  | zero => omega
  | succ fuel ih =>
    rw [granularityLoop, sizeT_of_lt (by omega), sizeSub_of_le (by omega) (by omega)]
    set k := min sz (stop - (start + done)) with hk
    have hk0 : 0 < k := by omega
    have hkle : start + done + k ≤ stop := by omega
    have hbody : serialFor k (fun i => f (sizeT (start + done + i))) =
        rangeFor (start + done) k f :=
      serialFor_congr fun i hi => by rw [sizeT_of_lt (by omega)]
    simp only [hbody, sizeSub_of_le (by omega) (show start ≤ stop by omega)]
    rw [sizeT_of_lt (show done + k < 2 ^ 64 by omega), sizeT_of_lt (show k * 2 < 2 ^ 64 by omega)]
    by_cases hc : ticks round < 1000 ∧ done + k < stop - start
    · obtain ⟨m, hm, hle, he⟩ := ih (round + 1) (done + k) (k * 2) (by omega) (by omega) (by omega)
      refine ⟨k + m, by omega, by omega, ?_⟩
      rw [if_pos hc, he, rangeFor_add, bind_assoc, Nat.add_assoc start, Nat.add_assoc done]
    · exact ⟨k, hk0, hkle, by rw [if_neg hc]; rfl⟩

/-- Both halves of a piece are smaller than the piece. -/
theorem covers_parfor_ {granularity : Nat} (hg : 0 < granularity) (hle : start ≤ stop)
    (hn : 9 * (stop - start + 1) < 2 ^ 64) (fuel : Nat) (hfuel : stop - start < fuel) :
    Covers f start (stop - start) (parfor_ f granularity fuel start stop) := by
  induction fuel generalizing start stop with
  | zero => omega
  | succ fuel ih =>
    rw [parfor_]
    split
    · exact .serial _ _
    · rename_i hbig
      rw [sizeSub_of_le (by omega) hle] at hbig ⊢
      dsimp only
      rw [sizeT_of_lt (show stop - start + 1 < 2 ^ 64 by omega), sizeT_of_lt hn]
      set n := 9 * (stop - start + 1) / 16 with hmid
      have hn0 : 0 < n := by omega
      have hlt : n < stop - start := by omega
      rw [sizeT_of_lt (show start + n < 2 ^ 64 by omega)]
      have hleft := @ih start (start + n) (by omega) (by omega) (by omega) (by omega)
      have hright := @ih (start + n) stop hstop (by omega) (by omega) (by omega)
      rw [Nat.add_sub_cancel_left] at hleft
      have h := Covers.fork hleft hright
      rwa [show n + (stop - (start + n)) = stop - start by omega] at h

variable (hle : start ≤ stop) (hn : 9 * (stop - start + 1) < 2 ^ 64)

include hle hn

/-- **Each iteration runs once.** Whatever the clock shows and however many threads
there are, the loop is cut into consecutive pieces. -/
theorem covers_parallelFor {threads : Nat} (hthreads : 128 * threads % 2 ^ 32 ≠ 0)
    (ticks : Nat → Nat) (granularity : Int) :
    Covers f start (stop - start) (parallelFor f threads ticks start stop granularity) := by
  rw [parallelFor]
  split
  · rename_i hone
    have h1 : stop - start = 1 := by unfold sizeT at hone; omega
    rw [h1]
    exact covers_one f start
  split
  · exact .serial _ _
  split
  · rename_i hlt
    rw [parfor, if_neg (by omega)]
    split
    · obtain ⟨m, hm, hmle, he⟩ := granularityLoop_eq (f := f) hstop (by omega) ticks (stop - start)
        0 0 1 hlt (Nat.le_refl _) Nat.one_pos
      rw [getGranularity, he, bind_assoc, Nat.add_zero, Nat.zero_add]
      set granularity' := max m (sizeSub stop start / (128 * threads % 2 ^ 32))
      have hrest : Covers f (start + m) (stop - (start + m))
          (parfor_ f granularity' (stop - start + 1) (start + m) stop) :=
        covers_parfor_ hstop (by omega) (by omega) (by omega) _ (by omega)
      have h := Covers.before (.serial start m) hrest
      rw [show m + (stop - (start + m)) = stop - start by omega] at h
      refine cast (congrArg _ ?_) h
      refine congrArg _ (funext fun _ => ?_)
      change _ = ite _ _ _
      rw [if_neg hthreads, sizeT_of_lt (by omega)]
    · exact covers_parfor_ hstop (by omega) hle hn _ (by omega)
  · have h0 : stop - start = 0 := by omega
    rw [h0]
    exact .serial start 0

/-- **Independent iterations.** The loop runs each of its iterations once, and under
every schedule it ends, without a fault, in the memory of the serial loop. -/
theorem parallelFor_always [DecidableEq ν] {threads : Nat} (hthreads : 128 * threads % 2 ^ 32 ≠ 0)
    (ticks : Nat → Nat) (granularity : Int)
    (hR : ∀ i, start ≤ i → i < stop → (f i).RaceFree)
    (hs : ∀ i j, start ≤ i → i < j → j < stop → Separate (f i).accesses (f j).accesses)
    {s t : Store ν} (h : (rangeFor start (stop - start) f).run s = some ((), t)) :
    Covers f start (stop - start) (parallelFor f threads ticks start stop granularity) ∧
    Always (fun _ u => u = t) (parallelFor f threads ticks start stop granularity) s := by
  have hcov := covers_parallelFor (f := f) hstop hle hn hthreads ticks granularity
  have hrace := hcov.raceFree (fun i h1 h2 => hR i h1 (by omega))
    fun i j h1 h2 h3 => hs i j h1 h2 (by omega)
  exact ⟨hcov, (always_of_run _ hrace ((hcov.run_eq s).trans h)).mono fun _ _ hr =>
    (Prod.mk.inj hr).2⟩

/-! ## The depth of the splitting -/

omit hle hn hstop in
/-- Three quarters of what is above one iteration need one level less. -/
theorem levels_of_shrink {a b k : Nat} (hab : 4 * a ≤ 3 * b) (hb : b * 3 ^ (k + 1) < 4 ^ (k + 1)) :
    a * 3 ^ k < 4 ^ k := by
  have hle : 4 * a * 3 ^ k ≤ 3 * b * 3 ^ k := Nat.mul_le_mul_right _ hab
  have hmul : 4 * (a * 3 ^ k) < 4 * 4 ^ k :=
    calc 4 * (a * 3 ^ k) = 4 * a * 3 ^ k := (Nat.mul_assoc _ _ _).symm
      _ ≤ 3 * b * 3 ^ k := hle
      _ = b * 3 ^ (k + 1) := by rw [pow_succ]; ring
      _ < 4 ^ (k + 1) := hb
      _ = 4 * 4 ^ k := by rw [pow_succ, Nat.mul_comm]
  exact Nat.lt_of_mul_lt_mul_left hmul

variable {d : Nat} (hd : ∀ i, (f i).Nested d)

include hd

omit hle hn hstop in
theorem nested_rangeFor (a n : Nat) : (rangeFor a n f).Nested d := nested_serialFor _ fun _ => hd _

omit hle hn in
/-- Neither piece has more than three quarters of the iterations. -/
theorem nested_parfor_ {granularity : Nat} (hg : 0 < granularity) (hle : start ≤ stop)
    (hn : 9 * (stop - start + 1) < 2 ^ 64) (fuel : Nat) (hfuel : stop - start < fuel) {k : Nat}
    (hk : (stop - start - 1) * 3 ^ k < 4 ^ k) :
    (parfor_ f granularity fuel start stop).Nested (d + k) := by
  induction fuel generalizing start stop k with
  | zero => omega
  | succ fuel ih =>
    rw [parfor_]
    split
    · exact (nested_rangeFor hd _ _).mono (Nat.le_add_right _ _)
    · rename_i hbig
      rw [sizeSub_of_le (by omega) hle] at hbig ⊢
      dsimp only
      rw [sizeT_of_lt (show stop - start + 1 < 2 ^ 64 by omega), sizeT_of_lt hn]
      set n := 9 * (stop - start + 1) / 16 with hmid
      rw [sizeT_of_lt (show start + n < 2 ^ 64 by omega)]
      cases k with
      | zero => omega
      | succ k =>
        refine nested_parDo (ih (by omega) (by omega) (by omega) (by omega) ?_)
          (ih hstop (by omega) (by omega) (by omega) ?_)
        · exact levels_of_shrink (by omega) hk
        · exact levels_of_shrink (by omega) hk

/-- The tasks of a loop are nested in logarithmic depth. -/
theorem nested_parallelFor (threads : Nat) (ticks : Nat → Nat) (granularity : Int) {k : Nat}
    (hk : (stop - start) * 3 ^ k < 4 ^ k) :
    (parallelFor f threads ticks start stop granularity).Nested (d + k) := by
  have hsmall : ∀ {m}, m ≤ stop - start → m * 3 ^ k < 4 ^ k := fun hm =>
    Nat.lt_of_le_of_lt (Nat.mul_le_mul_right _ hm) hk
  have hserial : ∀ a n, (rangeFor a n f).Nested (d + k) := fun a n =>
    (nested_rangeFor hd a n).mono (Nat.le_add_right _ _)
  rw [parallelFor]
  split
  · exact (hd start).mono (Nat.le_add_right _ _)
  split
  · exact hserial _ _
  split
  · rename_i hlt
    rw [parfor, if_neg (by omega)]
    split
    · obtain ⟨m, hm, hmle, he⟩ := granularityLoop_eq (f := f) hstop (by omega) ticks (stop - start)
        0 0 1 hlt (Nat.le_refl _) Nat.one_pos
      rw [getGranularity, he, bind_assoc, Nat.add_zero, Nat.zero_add]
      refine nested_bind (hserial _ _) fun _ => ?_
      change (ite _ _ _ : Prog ν Unit).Nested _
      split
      · trivial
      · rw [sizeT_of_lt (by omega)]
        exact nested_parfor_ hstop hd (by omega) (by omega) (by omega) _ (by omega)
          (hsmall (by omega))
    · exact nested_parfor_ hstop hd (by omega) hle hn _ (by omega) (hsmall (by omega))
  · trivial

end Loops

/-- Ten thousand iterations that write one entry each. -/
theorem parallelFor_always_10000 :
    Covers (fun i => write () i 7) 0 10000
      (parallelFor (fun i => write () i 7) 8 (fun _ => 0) 0 10000 0) ∧
    Always (fun _ u => u = Function.update (fun _ => zeros 10000) ()
        (splice (zeros 10000) 0 10000 fun _ => 7))
      (parallelFor (fun i => write () i 7) 8 (fun _ => 0) 0 10000 0)
      (fun _ => zeros 10000) := by
  refine parallelFor_always (by decide) (by decide) (by decide) (by decide) _ _
    (fun i _ _ => raceFree_write _ _ _) (fun i j _ hij _ => ?_) ?_
  · refine (within_write (F := fun _ t => t = .write i) rfl).separate
      (within_write (F := fun _ t => t = .write j) rfl) ?_
    rintro _ t u rfl rfl
    exact Nat.ne_of_lt hij
  · rw [Nat.sub_zero, rangeFor_zero]
    refine run_serialFor_splice _ () 0 10000 (fun _ => 7) _ (Nat.le_of_eq (zeros_length _).symm)
      fun i hi w hw _ => ?_
    have hlen : i < w.length := (hw.trans (zeros_length _)).symm ▸ hi
    rw [Nat.zero_add, run_write _ _ hlen, Function.update_self, Function.update_idem]

/-! ## Where the splitting does not end -/

/-- **The bound on the length is sharp.** At the first length at which `9 * (n + 1)`
wraps, the right half of a piece is the piece. -/
theorem parfor_endless {ν : Type} [DecidableEq ν] (f : Nat → Prog ν Unit) {granularity start : Nat}
    (hg : granularity < (2 ^ 64 + 2) / 9 - 1) (hstart : start + ((2 ^ 64 + 2) / 9 - 1) < 2 ^ 64)
    (fuel : Nat) (s : Store ν) :
    (parfor_ f granularity fuel start (start + ((2 ^ 64 + 2) / 9 - 1))).run s = none := by
  induction fuel generalizing s with
  | zero => rfl
  | succ fuel ih =>
    have hsub : sizeSub (start + ((2 ^ 64 + 2) / 9 - 1)) start = (2 ^ 64 + 2) / 9 - 1 := by
      rw [sizeSub_of_le (by omega) (Nat.le_add_right _ _), Nat.add_sub_cancel_left]
    have hmid : sizeT (start + sizeT (9 * sizeT ((2 ^ 64 + 2) / 9 - 1 + 1)) / 16) = start := by
      rw [show sizeT (9 * sizeT ((2 ^ 64 + 2) / 9 - 1 + 1)) / 16 = 0 by decide, Nat.add_zero]
      exact sizeT_of_lt (by omega)
    rw [parfor_, hsub, if_neg (Nat.not_le.mpr hg)]
    dsimp only
    rw [hmid, run_parDo, run_bind]
    cases (parfor_ f granularity fuel start start).run s with
    | none => rfl
    | some r => exact ih r.2

theorem parfor_endless_1000 :
    (parfor_ (fun _ => .ret ()) 1 1000 0 (0 + ((2 ^ 64 + 2) / 9 - 1))).run
      (fun _ : Unit => []) = none :=
  parfor_endless _ (by decide) (by decide) 1000 _

/-! ## The algorithms on these loops -/

/-- The programs that `parlay::parallel_for(0, n, f)` may be. A vector of `long long`
has fewer than `2 ^ 60` entries. -/
def ParlayLoop {ν : Type} (threads n : Nat) (f : Nat → Prog ν Unit) (p : Prog ν Unit) : Prop :=
  n < 2 ^ 60 ∧ ∃ ticks, p = parallelFor f threads ticks 0 n 0

section Algorithms

variable {threads : Nat} (hthreads : 128 * threads % 2 ^ 32 ≠ 0)

include hthreads

theorem covers_parlayLoop {ν : Type} (n : Nat) (f : Nat → Prog ν Unit) (p : Prog ν Unit)
    (h : ParlayLoop threads n f p) : Covers f 0 n p := by
  obtain ⟨hn, ticks, rfl⟩ := h
  exact covers_parallelFor (by omega) (Nat.zero_le n) (by omega) hthreads ticks 0

/-- **The string function on the loops of the library.** For every clock at every
loop of the call and every schedule it returns the canonical decimal of the
product. -/
theorem parlayLoops_everySchedule (a b : Str) (ha : IsDecimal a) (hb : IsDecimal b)
    (hne : 0 < a.length + b.length) (hmax : max a.length b.length ≤ 2 ^ 20) :
    ∃ s, Canonical s (decimalValue a * decimalValue b) ∧
      ∀ p, Implements (ParlayLoop threads) p (parToomCookMulStringPlib .lp64 a b) →
        p.EverySchedule s := by
  obtain ⟨s, hs, heval⟩ := parToomCookPlib_returns ha hb hne hmax
  exact ⟨s, hs, fun p hp => hp.everySchedule (covers_parlayLoop hthreads)
    (parToomCookMulStringPlib_raceFree .lp64 a b) heval⟩

end Algorithms

/-- Eight threads; one hundred and five nines by a zero and one hundred and one sevens. -/
theorem parlayLoops_everySchedule_105_102 :
    ∃ s, Canonical s (decimalValue (List.replicate 105 '9') *
        decimalValue ('0' :: List.replicate 101 '7')) ∧
      ∀ p, Implements (ParlayLoop 8) p (parToomCookMulStringPlib .lp64 (List.replicate 105 '9')
        ('0' :: List.replicate 101 '7')) → p.EverySchedule s :=
  parlayLoops_everySchedule (by decide) _ _ (by decide) (by decide) (by decide) (by decide)

end BigintMultiply.ParallelFor
