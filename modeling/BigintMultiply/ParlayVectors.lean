import BigintMultiply.Library.Choices
import BigintMultiply.ParallelFor
import BigintMultiply.SchedulerDeques

/-! The vector functions of `par_toom_cook_plib.cpp` and `par_karatsuba.cpp` on the
loops, the scheduler and the deques of the library.

Every parallel loop is what `parallel_for` makes of it, with a clock of its own at
each dynamic instance.

* `realizes_toomCook`, `realizes_karatsuba`: these programs implement those with one
  task for each iteration, with at most 465 and 273 nested forks;
* `parlayVectors_end`, `parlayDigits_end`: so every run of the workers ends with the
  product. -/

namespace BigintMultiply.ParlayVectors
open Checked Vectors Coefficients Decimal Naive Utils ForkJoin Prog Transitions
open SeqKaratsuba SeqToomCook ParallelFor Scheduler
open Choices (one loopWhen Realizes realizes_one realizes_ite realizes_pure)
open WorkStealingDeque (qSize)

/-- More levels of recursion than vectors of fewer than `2 ^ 58` entries need. -/
def levels : Nat := 64

/-- The programs that `parlay::parallel_for(0, n, f)` may be. No vector has `2 ^ 60`
entries; there the serial loop stands for it. -/
def AnyLoop {ν : Type} (threads n : Nat) (f : Nat → Prog ν Unit) (p : Prog ν Unit) : Prop :=
  ParlayLoop threads n f p ∨ 2 ^ 60 ≤ n ∧ p = rangeFor 0 n f

section Functions

variable (threads : Nat) (M : Machine)

/-! ## Toom-Cook -/

/-- A vector of `n` entries filled by a loop that is parallel on large vectors. -/
def parFill (n : Nat) (f : Nat → Run Int) : Choices Var Vec := do
  one (assign .res (zeros n))
  loopWhen (AnyLoop threads) (n ≥ ParToomCook.parallelThreshold / 4) n fun i => do
    let a ← lift (f i)
    write .res i a
  one (readVec .res)

def parAddPlib (a b : Vec) : Choices Var Vec :=
  parFill threads (max a.length b.length) (SeqToomCook.addEntry M a b)

def parSubtractPlib (a b : Vec) : Choices Var Vec :=
  parFill threads (max a.length b.length) (subtractEntry M a b)

def parMultiplyScalarPlib (a : Vec) (scalar : Int) : Choices Var Vec :=
  parFill threads a.length (multiplyEntry M a scalar)

def parDivideScalarPlib (a : Vec) (scalar : Int) : Choices Var Vec :=
  parFill threads a.length (divideEntry M a scalar)

def parHelpersPlib : Helpers (Choices Var) where
  add a b := Choices.invoke (parAddPlib threads M a b)
  subtract a b := Choices.invoke (parSubtractPlib threads M a b)
  multiplyScalar a scalar := Choices.invoke (parMultiplyScalarPlib threads M a scalar)
  divideScalar a scalar := Choices.invoke (parDivideScalarPlib threads M a scalar)
  shift a n := one (lift (ParToomCook.parShiftPlib a n))
  lift r := one (lift r)

/-- The result of a recursive call is assigned to `R`. -/
def productTask (rec : Vec → Vec → Choices Var Vec) (R : Var) (P Q : Vec) : Choices Var Unit := do
  let r ← Choices.invoke (rec P Q)
  one (assign R r)

/-- The five recursive calls, in nested `par_do` on large operands. -/
def parProducts (rec : Vec → Vec → Choices Var Vec) (len : Nat) (P Q : Points) :
    Choices Var Points := do
  let tasks := [productTask rec .R0 P.p0 Q.p0, productTask rec .R1 P.p1 Q.p1,
    productTask rec .Rm1 P.pm1 Q.pm1, productTask rec .Rm2 P.pm2 Q.pm2,
    productTask rec .Rinf P.pinf Q.pinf]
  (if len ≥ ParToomCook.parallelThreshold then Choices.parDoNest tasks else Choices.inOrder tasks)
  return ⟨← one (readVec .R0), ← one (readVec .R1), ← one (readVec .Rm1), ← one (readVec .Rm2),
    ← one (readVec .Rinf)⟩

def parToomCookMulVectorPlib (x y : Vec) : Choices Var Vec :=
  Choices.recurse (fun rec => toomCookBody M (parHelpersPlib threads M) (parProducts rec))
    levels x y

/-! ## Karatsuba -/

/-- `P3 = par_karatsuba_mul_vector_plib(Xlr, Ylr)`. -/
def productTask3 (rec : Vec → Vec → Choices Var Vec) : Choices Var Unit := do
  let Xlr ← one (readVec .Xlr)
  let Ylr ← one (readVec .Ylr)
  productTask rec .P3 Xlr Ylr

/-- The loop that forms the half sums. -/
def halfSumsLoop (k : Nat) (Xl Xr Yl Yr : Vec) : Choices Var Unit :=
  loopWhen (AnyLoop threads) (k ≥ ParKaratsuba.parallelThreshold / 4) k fun i => do
    let a ← lift (ParKaratsuba.sumEntry M Xl Xr i)
    write .Xlr i a
    let b ← lift (ParKaratsuba.sumEntry M Yl Yr i)
    write .Ylr i b

/-- The loop that takes the outer products from `P3`. -/
def subtractLoop (len : Nat) : Choices Var Unit := do
  let n ← one (size .P3)
  loopWhen (AnyLoop threads) (len ≥ ParKaratsuba.parallelThreshold / 4) n fun i => do
    ParKaratsuba.subtractFrom M .P1 i
    ParKaratsuba.subtractFrom M .P2 i

/-- The three loops that add the products to `res`. -/
def addLoops (len k : Nat) : Choices Var Unit := do
  let n2 ← one (size .P2)
  loopWhen (AnyLoop threads) (len ≥ ParKaratsuba.parallelThreshold / 4) n2
    (ParKaratsuba.addEntry M .P2 0)
  let n3 ← one (size .P3)
  loopWhen (AnyLoop threads) (len ≥ ParKaratsuba.parallelThreshold / 4) n3
    (ParKaratsuba.guardedAdd M .P3 k)
  let n1 ← one (size .P1)
  loopWhen (AnyLoop threads) (len ≥ ParKaratsuba.parallelThreshold / 4) n1
    (ParKaratsuba.guardedAdd M .P1 len)

/-- The body of `par_karatsuba_mul_vector_plib`. -/
def plibBody (rec : Vec → Vec → Choices Var Vec) (x y : Vec) : Choices Var Vec :=
  let len := x.length
  if len ≤ karatsubaThreshold then one (lift (naiveMulVector M x y))
  else do
    let k := len / 2
    one (assign .res (zeros (2 * len)))
    let Xr ← one (lift (slice x 0 k))
    let Xl ← one (lift (slice x k x.length))
    let Yr ← one (lift (slice y 0 k))
    let Yl ← one (lift (slice y k y.length))
    one (assign .Xlr (zeros k))
    one (assign .Ylr (zeros k))
    halfSumsLoop threads M k Xl Xr Yl Yr
    Choices.parDo (productTask rec .P1 Xl Yl)
      (Choices.parDo (productTask rec .P2 Xr Yr) (productTask3 rec))
    let n1 ← one (size .P1)
    let n2 ← one (size .P2)
    one (ParKaratsuba.growTo .P3 (max n1 n2))
    subtractLoop threads M len
    one (ParKaratsuba.growTo .res (2 * len))
    addLoops threads M len k
    one (readVec .res)

def parKaratsubaMulVectorPlib (x y : Vec) : Choices Var Vec :=
  Choices.recurse (plibBody threads M) levels x y

end Functions

/-! ## What these programs implement -/

section Realize

variable {threads : Nat} {n : Nat}

theorem covers_anyLoop {ν : Type} (hthreads : 128 * threads % 2 ^ 32 ≠ 0) (n : Nat)
    (f : Nat → Prog ν Unit) (p : Prog ν Unit) (h : AnyLoop threads n f p) : Covers f 0 n p := by
  rcases h with h | ⟨-, rfl⟩
  · exact covers_parlayLoop hthreads n f p h
  · exact .serial 0 n

theorem exists_anyLoop {ν : Type} (threads n : Nat) (f : Nat → Prog ν Unit) :
    ∃ p, AnyLoop threads n f p := by
  by_cases hn : n < 2 ^ 60
  · exact ⟨_, .inl ⟨hn, fun _ => 0, rfl⟩⟩
  · exact ⟨_, .inr ⟨Nat.not_lt.mp hn, rfl⟩⟩

/-- One hundred and forty-five levels split any vector. -/
theorem nested_anyLoop {ν : Type} {f : Nat → Prog ν Unit} {p : Prog ν Unit}
    (h : AnyLoop threads n f p) (hf : ∀ i, (f i).Nested 0) : p.Nested 145 := by
  rcases h with ⟨hn, ticks, rfl⟩ | ⟨-, rfl⟩
  · have hk : (n - 0) * 3 ^ 145 < 4 ^ 145 :=
      Nat.lt_of_le_of_lt (Nat.mul_le_mul_right _ (show n - 0 ≤ 2 ^ 60 by omega)) (by norm_num)
    have hnest := nested_parallelFor (by omega) (Nat.zero_le n) (by omega) hf threads ticks 0 hk
    rwa [Nat.zero_add] at hnest
  · exact (nested_rangeFor hf 0 n).mono (Nat.zero_le _)

theorem realizes_loopWhen {m : Nat} (hm : 145 ≤ m) {c : Prop} [Decidable c]
    {body : Nat → Prog Var Unit} (hbody : ∀ i, (body i).Nested 0) :
    Realizes (AnyLoop threads) m (loopWhen (AnyLoop threads) c n body) (forWhen c n body) :=
  (Choices.realizes_loopWhen (exists_anyLoop threads n body) (fun _ hp => nested_anyLoop hp hbody)
    fun i => (hbody i).mono (Nat.zero_le _)).mono hm

/-! The iterations of Karatsuba's loops make no forks. -/

section Iterations

variable (M : Machine) (P : Var) (off i m : Nat)

theorem nested_subtractFrom : (ParKaratsuba.subtractFrom M P i).Nested m := by
  apply nested_bind nested_act
  intro n
  refine nested_ite ?_ (nested_pure _ _)
  apply nested_bind nested_act
  intro a
  apply nested_bind nested_act
  intro b
  exact nested_bind (nested_lift _ _) fun _ => nested_act

theorem nested_addEntry : (ParKaratsuba.addEntry M P off i).Nested m := by
  apply nested_bind nested_act
  intro a
  apply nested_bind nested_act
  intro b
  exact nested_bind (nested_lift _ _) fun _ => nested_act

theorem nested_guardedAdd : (ParKaratsuba.guardedAdd M P off i).Nested m := by
  apply nested_bind nested_act
  intro n
  exact nested_ite (nested_addEntry M P off i m) (nested_pure _ _)

theorem nested_growTo : (ParKaratsuba.growTo P off).Nested m := by
  apply nested_bind nested_act
  intro n
  exact nested_ite nested_act (nested_pure _ _)

end Iterations

section Bodies

variable {m : Nat} (hm : 145 ≤ m) (M : Machine)

include hm

theorem realizes_parFill (n : Nat) (f : Nat → Run Int) :
    Realizes (AnyLoop threads) m (parFill threads n f) (ParToomCook.parFill n f) := by
  apply (realizes_one nested_act).bind
  intro _
  refine (realizes_loopWhen hm ?_).bind ?_
  · intro i
    exact nested_bind (nested_lift _ _) fun _ => nested_act
  · intro _
    exact realizes_one (nested_readVec _ _)

theorem realizes_helpers : RelatedHelpers (fun _ => Realizes (AnyLoop threads) m) M M
    (parHelpersPlib threads M) (ParToomCook.parHelpersPlib M) where
  add _ _ := (realizes_parFill hm _ _).invoke
  subtract _ _ := (realizes_parFill hm _ _).invoke
  multiplyScalar _ _ := (realizes_parFill hm _ _).invoke
  divideScalar _ _ := (realizes_parFill hm _ _).invoke
  shift _ _ := realizes_one (nested_lift _ _)
  naive _ _ := realizes_one (nested_lift _ _)
  split _ _ := realizes_one (nested_lift _ _)
  intVal _ := realizes_one (nested_lift _ _)
  toInt := rfl

omit hm in
theorem respectsBind_realizes : RespectsBind fun α =>
    Realizes (ν := Var) (α := α) (AnyLoop threads) m :=
  ⟨fun a => realizes_pure a, fun hp hf => hp.bind hf⟩

variable {rec' : Vec → Vec → Choices Var Vec} {rec : Vec → Vec → Prog Var Vec}
  (h : ∀ x y, Realizes (AnyLoop threads) m (rec' x y) (rec x y))

include h

omit hm in
theorem realizes_productTask (R : Var) (P Q : Vec) : Realizes (AnyLoop threads) m
    (productTask rec' R P Q) (ParToomCook.productTask rec R P Q) :=
  (h P Q).invoke.bind fun _ => realizes_one nested_act

omit hm in
/-- Five tasks nest at most five forks. -/
theorem realizes_parProducts (len : Nat) (P Q : Points) : Realizes (AnyLoop threads) (m + 5)
    (parProducts rec' len P Q) (ParToomCook.parProducts parDoNest rec len P Q) := by
  have htasks : List.Forall₂ (Realizes (AnyLoop threads) m)
      [productTask rec' .R0 P.p0 Q.p0, productTask rec' .R1 P.p1 Q.p1,
        productTask rec' .Rm1 P.pm1 Q.pm1, productTask rec' .Rm2 P.pm2 Q.pm2,
        productTask rec' .Rinf P.pinf Q.pinf]
      [ParToomCook.productTask rec .R0 P.p0 Q.p0, ParToomCook.productTask rec .R1 P.p1 Q.p1,
        ParToomCook.productTask rec .Rm1 P.pm1 Q.pm1, ParToomCook.productTask rec .Rm2 P.pm2 Q.pm2,
        ParToomCook.productTask rec .Rinf P.pinf Q.pinf] := by
    have htask := realizes_productTask h
    exact .cons (htask _ _ _) (.cons (htask _ _ _) (.cons (htask _ _ _) (.cons (htask _ _ _)
      (.cons (htask _ _ _) .nil))))
  have hread : ∀ x : Var, Realizes (AnyLoop threads) (m + 5) (one (readVec x)) (readVec x) :=
    fun x => realizes_one (nested_readVec x _)
  refine (realizes_ite (Choices.realizes_parDoNest htasks)
    ((Choices.realizes_inOrder htasks).mono (Nat.le_add_right _ _))).bind ?_
  intro _
  apply (hread .R0).bind
  intro r0
  apply (hread .R1).bind
  intro r1
  apply (hread .Rm1).bind
  intro rm1
  apply (hread .Rm2).bind
  intro rm2
  exact (hread .Rinf).bind fun _ => realizes_pure _

omit hm in
theorem realizes_productTask3 : Realizes (AnyLoop threads) m (productTask3 rec')
    (ParKaratsuba.productTask3 rec) := by
  apply (realizes_one (nested_readVec _ _)).bind
  intro Xlr
  apply (realizes_one (nested_readVec _ _)).bind
  intro Ylr
  exact realizes_productTask h .P3 Xlr Ylr

omit h in
theorem realizes_halfSumsLoop (k : Nat) (Xl Xr Yl Yr : Vec) : Realizes (AnyLoop threads) m
    (halfSumsLoop threads M k Xl Xr Yl Yr) (ParKaratsuba.halfSumsLoop M k Xl Xr Yl Yr) := by
  apply realizes_loopWhen hm
  intro i
  apply nested_bind (nested_lift _ _)
  intro a
  apply nested_bind nested_act
  intro _
  exact nested_bind (nested_lift _ _) fun _ => nested_act

omit h in
theorem realizes_subtractLoop (len : Nat) : Realizes (AnyLoop threads) m
    (subtractLoop threads M len) (ParKaratsuba.subtractLoop M len) := by
  apply (realizes_one nested_act).bind
  intro n
  apply realizes_loopWhen hm
  intro i
  exact nested_bind (nested_subtractFrom M .P1 i 0) fun _ => nested_subtractFrom M .P2 i 0

omit h in
theorem realizes_addLoops (len k : Nat) : Realizes (AnyLoop threads) m
    (addLoops threads M len k) (ParKaratsuba.addLoops M len k) := by
  apply (realizes_one nested_act).bind
  intro n2
  apply (realizes_loopWhen hm fun i => nested_addEntry M .P2 0 i 0).bind
  intro _
  apply (realizes_one nested_act).bind
  intro n3
  apply (realizes_loopWhen hm fun i => nested_guardedAdd M .P3 k i 0).bind
  intro _
  apply (realizes_one nested_act).bind
  intro n1
  exact realizes_loopWhen hm fun i => nested_guardedAdd M .P1 len i 0

theorem realizes_plibBody (x y : Vec) : Realizes (AnyLoop threads) (m + 2)
    (plibBody threads M rec' x y) (ParKaratsuba.plibBody M rec x y) := by
  have hm2 : 145 ≤ m + 2 := by omega
  -- the calls for `P2` and `P3` lie in two forks, the one for `P1` in one
  have hcalls := fun Xl Xr Yl Yr => ((realizes_productTask h .P1 Xl Yl).mono
    (Nat.le_add_right _ 1)).parDo ((realizes_productTask h .P2 Xr Yr).parDo
      (realizes_productTask3 h))
  apply realizes_ite (realizes_one (nested_lift _ _))
  apply (realizes_one nested_act).bind
  intro _
  apply (realizes_one (nested_lift _ _)).bind
  intro Xr
  apply (realizes_one (nested_lift _ _)).bind
  intro Xl
  apply (realizes_one (nested_lift _ _)).bind
  intro Yr
  apply (realizes_one (nested_lift _ _)).bind
  intro Yl
  apply (realizes_one nested_act).bind
  intro _
  apply (realizes_one nested_act).bind
  intro _
  apply (realizes_halfSumsLoop hm2 M _ Xl Xr Yl Yr).bind
  intro _
  apply (hcalls Xl Xr Yl Yr).bind
  intro _
  apply (realizes_one nested_act).bind
  intro n1
  apply (realizes_one nested_act).bind
  intro n2
  apply (realizes_one (nested_growTo .P3 (max n1 n2) _)).bind
  intro _
  apply (realizes_subtractLoop hm2 M _).bind
  intro _
  apply (realizes_one (nested_growTo .res _ _)).bind
  intro _
  apply (realizes_addLoops hm2 M _ _).bind
  intro _
  exact realizes_one (nested_readVec _ _)

end Bodies

variable (threads) (M : Machine) (x y : Vec)

theorem realizes_toomCook : Realizes (AnyLoop threads) 465 (parToomCookMulVectorPlib threads M x y)
    (Prog.recurse (fun rec => toomCookBody M (ParToomCook.parHelpersPlib M)
      (ParToomCook.parProducts parDoNest rec)) levels x y) :=
  Choices.realizes_recurse (n := 145) (k := 5) (fun _ hm _ _ h x y =>
    toomCookBody_related respectsBind_realizes (realizes_helpers (Nat.le_add_right_of_le hm) M)
      (realizes_parProducts h) x y) levels x y

theorem realizes_karatsuba : Realizes (AnyLoop threads) 273
    (parKaratsubaMulVectorPlib threads M x y)
    (Prog.recurse (ParKaratsuba.plibBody M) levels x y) :=
  Choices.realizes_recurse (n := 145) (k := 2) (fun _ hm _ _ h x y => realizes_plibBody hm M h x y)
    levels x y

end Realize

/-! ## What the workers deliver -/

/-- A call that may run as any program of `P` returns `r`: every run of the workers ends
with it, and on the arrays of the deques none aborts or returns anything else. -/
structure Delivers {θ α : Type} [DecidableEq θ] (w₀ : θ) (P : Choices Var α) (r : α) : Prop where
  nonempty : ∃ q, q ∈ P
  ends : ∀ q ∈ P, ∃ m, Ends (Finished (r, m)) (Scheduler.initial w₀ q Store.empty)
  arrays : ∀ q ∈ P, ∀ deq ws c,
    Run SchedulerDeques.FreshStep (SchedulerDeques.initial w₀ q Store.empty deq) ws c →
      c.aborted = false ∧ (c.prog.kind = .returned → c.prog = .ret r)

section Deliver

variable {workers : Nat} (hworkers : 128 * workers % 2 ^ 32 ≠ 0) (w₀ : Fin workers)

include hworkers

theorem Realizes.delivers {α : Type} {P : Choices Var α} {p : Prog Var α} {n : Nat} {r : α}
    (h : Realizes (AnyLoop workers) n P p) (hn : n < qSize) (hR : p.RaceFree)
    (hp : p.eval = some r) : Delivers w₀ P r := by
  obtain ⟨⟨a, m⟩, hrun, rfl⟩ := Option.map_eq_some_iff.mp hp
  have hcover := covers_anyLoop (ν := Var) hworkers
  have hq : ∀ q ∈ P, q.RaceFree ∧ q.run Store.empty = some (a, m) := fun q hq =>
    have himp := h.implements q hq
    ⟨himp.raceFree hcover hR, (himp.run_eq hcover _).trans hrun⟩
  refine ⟨h.nonempty, fun q hmem => ⟨m, ?_⟩, fun q hmem deq ws c hc => ⟨?_, fun hk => ?_⟩⟩
  · exact ends_of_nested (hq q hmem).1 (hq q hmem).2 (h.nested q hmem) hn
  · exact SchedulerDeques.no_abort_of_run hc (h.nested q hmem) hn
  · exact (SchedulerDeques.result_of_run hc (hq q hmem).1 (hq q hmem).2 hk).1

variable {x y : Vec}

/-- Sixty-four levels are enough for what the sequential function returns. -/
theorem toomCook_delivers (M : Machine) {r : Vec}
    (h : recurse anyCall (fun rec => toomCookBody M (helpers M) (products rec)) levels 0 x y =
      .ok r) : Delivers w₀ (parToomCookMulVectorPlib workers M x y) r := by
  have hR := ParToomCook.raceFree_recurseToomCook M
    (fun xs _ hx h => (owners_parDoNest xs hx h).1) levels x y
  have heval := (ParToomCook.computes_parToomCook M (ParToomCook.parHelpers_compute M)
    (fun ps s => run_parDoNest s ps) levels 0 x y).eval
  rw [h] at heval
  exact Realizes.delivers hworkers w₀ (realizes_toomCook workers M x y) (by decide) hR heval

theorem karatsuba_delivers (M : Machine) {r : Vec}
    (h : (Prog.recurse (ParKaratsuba.plibBody M) levels x y).eval = some r) :
    Delivers w₀ (parKaratsubaMulVectorPlib workers M x y) r :=
  Realizes.delivers hworkers w₀ (realizes_karatsuba workers M x y) (by decide)
    (raceFree_recurse (fun _ hrec x y => ParKaratsuba.plibBody_raceFree M hrec x y) levels x y) h

end Deliver

end BigintMultiply.ParlayVectors
