import BigintMultiply.SeqToomCook

/-! Parallel Toom-Cook, `par_toom_cook.cpp` and `par_toom_cook_plib.cpp`.

* `computes_parToomCook`: in program order both copies return what the sequential
  code returns, and fault when it faults, on every machine;
* `parToomCookMulVector_everySchedule`: under every schedule both copies return
  the sequential result. -/

namespace BigintMultiply.ParToomCook
open Checked Vectors Coefficients Decimal Naive Utils ForkJoin Prog SeqToomCook

def parallelThreshold : Nat := 10000

/-! ## The helper functions -/

/-- A vector of `n` entries filled by a loop that is parallel on large vectors. -/
def parFill (n : Nat) (f : Nat → Run Int) : Prog Var Vec := do
  assign .res (zeros n)
  forWhen (n ≥ parallelThreshold / 4) n fun i => do
    let a ← lift (f i)
    write .res i a
  readVec .res

def parAdd (M : Machine) (a b : Vec) : Prog Var Vec :=
  parFill (max a.length b.length) (addEntry M a b)

def parSubtract (M : Machine) (a b : Vec) : Prog Var Vec :=
  parFill (max a.length b.length) (subtractEntry M a b)

def parMultiplyScalar (M : Machine) (a : Vec) (scalar : Int) : Prog Var Vec :=
  parFill a.length (multiplyEntry M a scalar)

def parDivideScalar (M : Machine) (a : Vec) (scalar : Int) : Prog Var Vec :=
  parFill a.length (divideEntry M a scalar)

def parShift (a : Vec) (n : Int) : Run Vec := shift a n

def parHelpers (M : Machine) : Helpers (Prog Var) where
  add a b := invoke (parAdd M a b)
  subtract a b := invoke (parSubtract M a b)
  multiplyScalar a scalar := invoke (parMultiplyScalar M a scalar)
  divideScalar a scalar := invoke (parDivideScalar M a scalar)
  shift a n := lift (parShift a n)
  lift := lift

/-! The copies of `par_toom_cook_plib.cpp` differ in the library that runs the
parallel loops. -/

def parAddPlib : Machine → Vec → Vec → Prog Var Vec := parAdd
def parSubtractPlib : Machine → Vec → Vec → Prog Var Vec := parSubtract
def parMultiplyScalarPlib : Machine → Vec → Int → Prog Var Vec := parMultiplyScalar
def parDivideScalarPlib : Machine → Vec → Int → Prog Var Vec := parDivideScalar
def parShiftPlib : Vec → Int → Run Vec := parShift

def parHelpersPlib (M : Machine) : Helpers (Prog Var) where
  add a b := invoke (parAddPlib M a b)
  subtract a b := invoke (parSubtractPlib M a b)
  multiplyScalar a scalar := invoke (parMultiplyScalarPlib M a scalar)
  divideScalar a scalar := invoke (parDivideScalarPlib M a scalar)
  shift a n := lift (parShiftPlib a n)
  lift := lift

/-! ## The algorithm -/

/-- `R = par_toom_cook_mul_vector(P, Q)`. -/
def productTask (rec : Vec → Vec → Prog Var Vec) (R : Var) (P Q : Vec) : Prog Var Unit := do
  let r ← invoke (rec P Q)
  assign R r

/-- The five recursive calls, run by `together` on large operands. -/
def parProducts (together : List (Prog Var Unit) → Prog Var Unit)
    (rec : Vec → Vec → Prog Var Vec) (len : Nat) (P Q : Points) : Prog Var Points := do
  let tasks := [productTask rec .R0 P.p0 Q.p0, productTask rec .R1 P.p1 Q.p1,
    productTask rec .Rm1 P.pm1 Q.pm1, productTask rec .Rm2 P.pm2 Q.pm2,
    productTask rec .Rinf P.pinf Q.pinf]
  (if len ≥ parallelThreshold then together tasks else inOrder tasks)
  return ⟨← readVec .R0, ← readVec .R1, ← readVec .Rm1, ← readVec .Rm2, ← readVec .Rinf⟩

def parToomCookMulVector (M : Machine) (x y : Vec) : Prog Var Vec :=
  Prog.recurse (fun rec => toomCookBody M (parHelpers M) (parProducts sections rec))
    (x.length + 1) x y

def parToomCookMulVectorPlib (M : Machine) (x y : Vec) : Prog Var Vec :=
  Prog.recurse (fun rec => toomCookBody M (parHelpersPlib M) (parProducts parDoNest rec))
    (x.length + 1) x y

def parToomCookMulString (M : Machine) : Str → Str → Prog Var Str :=
  mulString toomCookThreshold (fun x y => invoke (parToomCookMulVector M x y)) M

def parToomCookMulStringPlib (M : Machine) : Str → Str → Prog Var Str :=
  mulString toomCookThreshold (fun x y => invoke (parToomCookMulVectorPlib M x y)) M

/-! ## Program order -/

theorem computes_parFill (n : Nat) (f : Nat → Run Int) : (parFill n f).Computes (fill n f) := by
  intro s
  rw [parFill, run_bind_of (run_assign s _ _), run_bind, run_forWhen, run_serialFor_store,
    Function.update_self, fill]
  cases forLoop n (fun i v => do store v i (← f i)) (zeros n) with
  | error e => rfl
  | ok v =>
    change ((readVec Var.res).run (Function.update _ Var.res v)).map Prod.fst = some v
    rw [run_readVec, Function.update_self]
    rfl

/-- A program and what it computes. -/
theorem respectsBind_computes : RespectsBind fun α => Computes (ν := Var) (α := α) :=
  ⟨fun a => computes_pure a, fun hp hf => computes_bind hp hf⟩

/-- The parallel helpers compute what the sequential ones do. -/
theorem parHelpers_compute (M : Machine) :
    RelatedHelpers (fun _ => Computes) M M (parHelpers M) (helpers M) where
  add _ _ := computes_invoke (computes_parFill _ _).eval
  subtract _ _ := computes_invoke (computes_parFill _ _).eval
  multiplyScalar _ _ := computes_invoke (computes_parFill _ _).eval
  divideScalar _ _ := computes_invoke (computes_parFill _ _).eval
  shift _ _ := computes_lift _
  naive _ _ := computes_lift _
  split _ _ := computes_lift _
  intVal _ := computes_lift _
  toInt := rfl

theorem run_productTask {rec : Vec → Vec → Prog Var Vec} {recS : Vec → Vec → Run Vec}
    (h : ∀ u v, (rec u v).Computes (recS u v)) (R : Var) (P Q : Vec) (s : Store Var) :
    (productTask rec R P Q).run s =
      (recS P Q).toOption.map fun r => ((), Function.update s R r) := by
  rw [productTask, run_bind, run_invoke, (h P Q).eval]
  cases recS P Q with
  | error e => rfl
  | ok r => exact run_assign s R r

/-- The five results are those of the five sequential calls. -/
theorem computes_parProducts {rec : Vec → Vec → Prog Var Vec} {recS : Vec → Vec → Run Vec}
    (h : ∀ u v, (rec u v).Computes (recS u v))
    {together : List (Prog Var Unit) → Prog Var Unit}
    (ht : ∀ ps s, (together ps).run s = (inOrder ps).run s) (len : Nat) (P Q : Points) :
    (parProducts together rec len P Q).Computes (products recS len P Q) := by
  intro s
  have hrun : ∀ ps : List (Prog Var Unit), (if len ≥ parallelThreshold then together ps
      else inOrder ps).run s = (inOrder ps).run s := by
    intro ps
    split
    · exact ht ps s
    · rfl
  rw [parProducts, run_bind, hrun]
  simp only [inOrder, run_bind, run_productTask h, products]
  cases recS P.p0 Q.p0 with
  | error e => rfl
  | ok r0 =>
  cases recS P.p1 Q.p1 with
  | error e => rfl
  | ok r1 =>
  cases recS P.pm1 Q.pm1 with
  | error e => rfl
  | ok rm1 =>
  cases recS P.pm2 Q.pm2 with
  | error e => rfl
  | ok rm2 =>
  cases recS P.pinf Q.pinf with
  | error e => rfl
  | ok rinf =>
    simp [Except.toOption, run_readVec]

/-- **Program order is the sequential run.** -/
theorem computes_parToomCook (M : Machine) {hp : Helpers (Prog Var)}
    (h : RelatedHelpers (fun _ => Computes) M M hp (helpers M))
    {together : List (Prog Var Unit) → Prog Var Unit}
    (ht : ∀ ps s, (together ps).run s = (inOrder ps).run s) (fuel d : Nat) (x y : Vec) :
    (Prog.recurse (fun rec => toomCookBody M hp (parProducts together rec)) fuel x y).Computes
      (Checked.recurse anyCall (fun rec => toomCookBody M (helpers M) (products rec))
        fuel d x y) := by
  induction fuel generalizing d x y with
  | zero => exact fun s => rfl
  | succ fuel ih =>
    rw [recurse_succ _ _ _ _ _ _ rfl]
    exact toomCookBody_related respectsBind_computes h
      (computes_parProducts (fun u v => ih (d + 1) u v) ht) x y

theorem parToomCookMulVector_eval (M : Machine) (x y : Vec) :
    (parToomCookMulVector M x y).eval = (toomCookMulVector M x y).toOption :=
  (computes_parToomCook M (parHelpers_compute M) (fun ps s => run_sections s ps) _ 0 x y).eval

theorem parToomCookMulVectorPlib_eval (M : Machine) (x y : Vec) :
    (parToomCookMulVectorPlib M x y).eval = (toomCookMulVector M x y).toOption :=
  (computes_parToomCook M (parHelpers_compute M) (fun ps s => run_parDoNest s ps) _ 0 x y).eval

/-! ## Schedules -/

/-- The iterations of a helper's loop write different entries. -/
theorem raceFree_parFill (n : Nat) (f : Nat → Run Int) : (parFill n f).RaceFree := by
  refine raceFree_bind (raceFree_assign _ _) fun _ => raceFree_bind ?_ fun _ => raceFree_readVec _
  refine raceFree_forWhen (fun i x t => x = .res ∧ t = .write i)
    (fun i => raceFree_bind (raceFree_lift _) fun _ => raceFree_write _ _ _)
    (fun i _ => within_bind (within_lift _) fun _ => within_write ⟨rfl, rfl⟩) ?_
  rintro i _ j _ hij x t u ⟨-, rfl⟩ ⟨-, rfl⟩
  exact hij

theorem respectsBind_raceFree : RespectsBind fun α (p _ : Prog Var α) => p.RaceFree :=
  ⟨fun a => raceFree_pure a, fun hp hf => raceFree_bind hp hf⟩

theorem parHelpers_raceFree (M : Machine) :
    RelatedHelpers (fun α (p _ : Prog Var α) => p.RaceFree) M M (parHelpers M) (parHelpers M) where
  add _ _ := raceFree_invoke (raceFree_parFill _ _)
  subtract _ _ := raceFree_invoke (raceFree_parFill _ _)
  multiplyScalar _ _ := raceFree_invoke (raceFree_parFill _ _)
  divideScalar _ _ := raceFree_invoke (raceFree_parFill _ _)
  shift _ _ := raceFree_lift _
  naive _ _ := raceFree_lift _
  split _ _ := raceFree_lift _
  intVal _ := raceFree_lift _
  toInt := rfl

/-- The five calls assign different vectors. -/
theorem raceFree_parProducts {rec : Vec → Vec → Prog Var Vec} (h : ∀ u v, (rec u v).RaceFree)
    {together : List (Prog Var Unit) → Prog Var Unit}
    (ht : ∀ (xs : List (List Var)) (ps : List (Prog Var Unit)), xs.flatten.Nodup → Owners xs ps →
      (together ps).RaceFree) (len : Nat) (P Q : Points) :
    (parProducts together rec len P Q).RaceFree := by
  have htask : ∀ R P Q, (productTask rec R P Q).RaceFree ∧
      (productTask rec R P Q).Within (owns [R]) := fun R P Q =>
    ⟨raceFree_bind (raceFree_invoke (h P Q)) fun _ => raceFree_assign _ _,
      within_bind (within_invoke _) fun _ => within_assign (List.mem_singleton.mpr rfl)⟩
  have howners : Owners [[Var.R0], [.R1], [.Rm1], [.Rm2], [.Rinf]] [productTask rec .R0 P.p0 Q.p0,
      productTask rec .R1 P.p1 Q.p1, productTask rec .Rm1 P.pm1 Q.pm1,
      productTask rec .Rm2 P.pm2 Q.pm2, productTask rec .Rinf P.pinf Q.pinf] :=
    .cons (htask _ _ _) (.cons (htask _ _ _) (.cons (htask _ _ _) (.cons (htask _ _ _)
      (.cons (htask _ _ _) .nil))))
  refine raceFree_bind (raceFree_ite (ht _ _ (by decide) howners) (owners_inOrder howners))
    fun _ => ?_
  exact raceFree_bind (raceFree_readVec _) fun _ => raceFree_bind (raceFree_readVec _) fun _ =>
    raceFree_bind (raceFree_readVec _) fun _ => raceFree_bind (raceFree_readVec _) fun _ =>
    raceFree_bind (raceFree_readVec _) fun _ => raceFree_pure _

/-- A copy whose sections are race free is race free. -/
theorem raceFree_recurseToomCook (M : Machine) {together : List (Prog Var Unit) → Prog Var Unit}
    (ht : ∀ (xs : List (List Var)) (ps : List (Prog Var Unit)), xs.flatten.Nodup → Owners xs ps →
      (together ps).RaceFree) (fuel : Nat) (x y : Vec) :
    (Prog.recurse (fun rec => toomCookBody M (parHelpers M) (parProducts together rec))
      fuel x y).RaceFree :=
  raceFree_recurse (fun rec hrec x y => toomCookBody_related respectsBind_raceFree
    (parHelpers_raceFree M) (g := parProducts together rec) (raceFree_parProducts hrec ht) x y)
    fuel x y

theorem parToomCookMulVector_raceFree (M : Machine) (x y : Vec) :
    (parToomCookMulVector M x y).RaceFree :=
  raceFree_recurseToomCook M (fun xs _ hx h => (owners_sections xs hx h).1) _ x y

theorem parToomCookMulVectorPlib_raceFree (M : Machine) (x y : Vec) :
    (parToomCookMulVectorPlib M x y).RaceFree :=
  raceFree_recurseToomCook M (fun xs _ hx h => (owners_parDoNest xs hx h).1) _ x y

/-- **Parallel Toom-Cook does not depend on the schedule.** On every machine, each
schedule of either copy returns what `toom_cook_mul_vector` returns. Over exact
integers and on two vectors of one length it does return. -/
theorem parToomCookMulVector_everySchedule (n : Nat) (x y : Vec) (hx : x.length = n)
    (hy : y.length = n) :
    (∃ r, toomCookMulVector .exact x y = .ok r ∧
      EverySchedule (parToomCookMulVector .exact x y) r ∧
      EverySchedule (parToomCookMulVectorPlib .exact x y) r) ∧
    ∀ M r, toomCookMulVector M x y = .ok r →
      EverySchedule (parToomCookMulVector M x y) r ∧
      EverySchedule (parToomCookMulVectorPlib M x y) r := by
  have hall : ∀ M r, toomCookMulVector M x y = .ok r →
      EverySchedule (parToomCookMulVector M x y) r ∧
      EverySchedule (parToomCookMulVectorPlib M x y) r := fun M r hr =>
    ⟨everySchedule_of_eval (parToomCookMulVector_raceFree M x y)
      (by rw [parToomCookMulVector_eval, hr]; rfl),
    everySchedule_of_eval (parToomCookMulVectorPlib_raceFree M x y)
      (by rw [parToomCookMulVectorPlib_eval, hr]; rfl)⟩
  have h := toomCookMulVector_exact (hy.trans hx.symm)
  exact ⟨⟨convolve x y, h, hall .exact _ h⟩, hall⟩

/-- Vectors large enough for parallel sections. -/
theorem parToomCookMulVector_everySchedule_10000 :
    ∃ r, toomCookMulVector .exact (List.replicate 10000 7) (List.replicate 10000 (-5)) = .ok r ∧
      EverySchedule (parToomCookMulVector .exact (List.replicate 10000 7)
        (List.replicate 10000 (-5))) r ∧
      EverySchedule (parToomCookMulVectorPlib .exact (List.replicate 10000 7)
        (List.replicate 10000 (-5))) r :=
  (parToomCookMulVector_everySchedule 10000 _ _ List.length_replicate List.length_replicate).1

end BigintMultiply.ParToomCook
