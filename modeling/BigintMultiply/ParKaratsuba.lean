import BigintMultiply.SeqKaratsuba

/-! Parallel Karatsuba, `par_karatsuba.cpp`.

* `parProduct`: what a call of either variant returns over exact integers;
* `parKaratsuba_everySchedule`: every schedule of either variant returns what
  program order returns, and on lengths `m * 2 ^ j` with `m ≤ 64` that is the
  sequential result. -/

namespace BigintMultiply.ParKaratsuba
open Checked Vectors Coefficients Decimal Naive Utils ForkJoin Prog SeqKaratsuba Polynomial

def parallelThreshold : Nat := 10000

/-! ## The parts of a call -/

/-- `P = par_karatsuba_mul_vector(X, Y)`. -/
def productTask (rec : Vec → Vec → Prog Var Vec) (P : Var) (X Y : Vec) : Prog Var Unit := do
  let r ← invoke (rec X Y)
  assign P r

/-- `P3 = par_karatsuba_mul_vector(Xlr, Ylr)`. -/
def productTask3 (rec : Vec → Vec → Prog Var Vec) : Prog Var Unit := do
  let Xlr ← readVec .Xlr
  let Ylr ← readVec .Ylr
  productTask rec .P3 Xlr Ylr

/-- The sum of two entries. -/
def sumEntry (M : Machine) (a b : Vec) (i : Nat) : Run Int := do
  M.longVal ((← load a i) + (← load b i))

/-- The loop that forms the half sums. -/
def halfSumsLoop (M : Machine) (k : Nat) (Xl Xr Yl Yr : Vec) : Prog Var Unit :=
  forWhen (k ≥ parallelThreshold / 4) k fun i => do
    let a ← lift (sumEntry M Xl Xr i)
    write .Xlr i a
    let b ← lift (sumEntry M Yl Yr i)
    write .Ylr i b

/-- `if (i < P.size()) P3[i] -= P[i]`. -/
def subtractFrom (M : Machine) (P : Var) (i : Nat) : Prog Var Unit := do
  let n ← size P
  if i < n then
    let a ← read .P3 i
    let b ← read P i
    let d ← lift (M.longVal (a - b))
    write .P3 i d
  else pure ()

/-- `res[i + off] += P[i]`. -/
def addEntry (M : Machine) (P : Var) (off i : Nat) : Prog Var Unit := do
  let a ← read .res (i + off)
  let b ← read P i
  let s ← lift (M.longVal (a + b))
  write .res (i + off) s

/-- `if (i + off < res.size()) res[i + off] += P[i]`. -/
def guardedAdd (M : Machine) (P : Var) (off i : Nat) : Prog Var Unit := do
  let n ← size .res
  if i + off < n then addEntry M P off i else pure ()

/-- The loop that takes the outer products from `P3`. -/
def subtractLoop (M : Machine) (len : Nat) : Prog Var Unit := do
  let n ← size .P3
  forWhen (len ≥ parallelThreshold / 4) n fun i => do
    subtractFrom M .P1 i
    subtractFrom M .P2 i

/-- The three loops that add the products to `res`. -/
def addLoops (M : Machine) (len k : Nat) : Prog Var Unit := do
  let n2 ← size .P2
  forWhen (len ≥ parallelThreshold / 4) n2 (addEntry M .P2 0)
  let n3 ← size .P3
  forWhen (len ≥ parallelThreshold / 4) n3 (guardedAdd M .P3 k)
  let n1 ← size .P1
  forWhen (len ≥ parallelThreshold / 4) n1 (guardedAdd M .P1 len)

/-- `if (v.size() < n) v.resize(n, 0)`. -/
def growTo (v : Var) (n : Nat) : Prog Var Unit := do
  let m ← size v
  if m < n then resize v n else pure ()

/-! ## The two variants -/

/-- The body of `par_karatsuba_mul_vector_open`. The tasks for `P1`, `P2` and the
half sums run beside each other, the task for `P3` after the `taskwait`, and the
rest after the end of the parallel region. -/
def openBody (M : Machine) (rec : Vec → Vec → Prog Var Vec) (x y : Vec) : Prog Var Vec :=
  let len := x.length
  if len ≤ karatsubaThreshold then lift (naiveMulVector M x y)
  else do
    let k := len / 2
    assign .res (zeros (2 * len))
    let Xr ← lift (slice x 0 k)
    let Xl ← lift (slice x k x.length)
    let Yr ← lift (slice y 0 k)
    let Yl ← lift (slice y k y.length)
    assign .Xlr (zeros k)
    assign .Ylr (zeros k)
    sections [productTask rec .P1 Xl Yl, productTask rec .P2 Xr Yr, halfSumsLoop M k Xl Xr Yl Yr]
    sections [productTask3 rec]
    subtractLoop M len
    addLoops M len k
    readVec .res

/-- The body of `par_karatsuba_mul_vector_plib`. -/
def plibBody (M : Machine) (rec : Vec → Vec → Prog Var Vec) (x y : Vec) : Prog Var Vec :=
  let len := x.length
  if len ≤ karatsubaThreshold then lift (naiveMulVector M x y)
  else do
    let k := len / 2
    assign .res (zeros (2 * len))
    let Xr ← lift (slice x 0 k)
    let Xl ← lift (slice x k x.length)
    let Yr ← lift (slice y 0 k)
    let Yl ← lift (slice y k y.length)
    assign .Xlr (zeros k)
    assign .Ylr (zeros k)
    halfSumsLoop M k Xl Xr Yl Yr
    parDo (productTask rec .P1 Xl Yl) (parDo (productTask rec .P2 Xr Yr) (productTask3 rec))
    let n1 ← size .P1
    let n2 ← size .P2
    growTo .P3 (max n1 n2)
    subtractLoop M len
    growTo .res (2 * len)
    addLoops M len k
    readVec .res

def parKaratsubaMulVectorOpen (M : Machine) (x y : Vec) : Prog Var Vec :=
  Prog.recurse (openBody M) (x.length + 1) x y

def parKaratsubaMulVectorPlib (M : Machine) (x y : Vec) : Prog Var Vec :=
  Prog.recurse (plibBody M) (x.length + 1) x y

def parKaratsubaMulString (M : Machine) : Str → Str → Prog Var Str :=
  mulString karatsubaThreshold (fun x y => invoke (parKaratsubaMulVectorOpen M x y)) M

/-! ## Runs of the loops -/

section Loops

variable {M : Machine} {s : Store Var}

theorem set_at0_self (v : Vec) (i : Nat) : v.set i (at0 v i) = v := by
  by_cases h : i < v.length
  · rw [at0_eq_getElem h, List.set_getElem_self]
  · exact List.set_eq_of_length_le (by omega)

theorem run_subtractFrom {P : Var} {i : Nat} (hi : i < (s .P3).length)
    (hM : M.long (at0 (s .P3) i - at0 (s P) i) = true) : (subtractFrom M P i).run s =
      some ((), Function.update s .P3 ((s .P3).set i (at0 (s .P3) i - at0 (s P) i))) := by
  rw [subtractFrom, run_bind_of (run_size s P)]
  by_cases h : i < (s P).length
  · rw [if_pos h, run_bind_of (run_read s hi), run_bind_of (run_read s h), longVal_ok hM,
      run_bind_of (run_lift_ok s _), run_write s _ hi]
  · rw [if_neg h, at0_eq_zero (v := s P) (by omega), sub_zero, set_at0_self,
      Function.update_eq_self, run_pure]

theorem run_subtractLoop (len : Nat) (h1 : ∀ i, M.long (at0 (s .P3) i - at0 (s .P1) i) = true)
    (h2 : ∀ i, M.long (at0 (s .P3) i - at0 (s .P1) i - at0 (s .P2) i) = true) :
    (subtractLoop M len).run s =
      some ((), Function.update s .P3 (cross (s .P1) (s .P2) (s .P3))) := by
  rw [subtractLoop, run_bind_of (run_size s _), run_forWhen,
    run_serialFor_splice s .P3 0 _ (fun i => at0 (s .P3) i - at0 (s .P1) i - at0 (s .P2) i) _
      (by omega) (fun i _ w hw hwi => ?_), splice_all, cross]
  rw [Nat.zero_add] at hwi ⊢
  set t := Function.update s .P3 w with ht
  have htP3 : t .P3 = w := Function.update_self ..
  have htP1 : t .P1 = s .P1 := Function.update_of_ne (by decide) ..
  have htP2 : t .P2 = s .P2 := Function.update_of_ne (by decide) ..
  rw [run_bind_of (run_subtractFrom (by rw [htP3]; omega) (by rw [htP3, htP1, hwi]; exact h1 i)),
    htP3, htP1, hwi]
  set u := Function.update t .P3 (w.set i (at0 (s .P3) i - at0 (s .P1) i)) with hu
  have huP3 : u .P3 = w.set i (at0 (s .P3) i - at0 (s .P1) i) := Function.update_self ..
  have huP2 : u .P2 = s .P2 := (Function.update_of_ne (by decide) ..).trans htP2
  have hui : at0 (u .P3) i = at0 (s .P3) i - at0 (s .P1) i := by
    rw [huP3, at0_set _ _ _ _ (by omega), if_pos rfl]
  rw [run_subtractFrom (by rw [huP3, List.length_set]; omega) (by rw [hui, huP2]; exact h2 i), hui,
    huP3, huP2, List.set_set, hu, ht, Function.update_idem, Function.update_idem]

theorem run_addEntry {P : Var} {off i : Nat} (hr : i + off < (s .res).length)
    (hi : i < (s P).length) (hM : M.long (at0 (s .res) (i + off) + at0 (s P) i) = true) :
    (addEntry M P off i).run s = some ((), Function.update s .res
      ((s .res).set (i + off) (at0 (s .res) (i + off) + at0 (s P) i))) := by
  rw [addEntry, run_bind_of (run_read s hr), run_bind_of (run_read s hi), longVal_ok hM,
    run_bind_of (run_lift_ok s _), run_write s _ hr]

/-- One more entry of `w` is added, unless it falls past the end. -/
theorem addAt_take_succ (v w : Vec) (off i : Nat) :
    addAt v off (w.take (i + 1)) = if i + off < v.length
      then (addAt v off (w.take i)).set (i + off) (at0 v (i + off) + at0 w i)
      else addAt v off (w.take i) := by
  have hentry : ∀ j < v.length, ∀ n, at0 (addAt v off (w.take n)) j =
      at0 v j + if off ≤ j then (if j - off < n then at0 w (j - off) else 0) else 0 :=
    fun j hj n => by rw [at0_addAt _ _ _ _ hj, at0_take]
  have hother : ∀ j < v.length, j ≠ i + off →
      at0 (addAt v off (w.take (i + 1))) j = at0 (addAt v off (w.take i)) j := by
    intro j hj hne
    rw [hentry j hj, hentry j hj]
    by_cases h2 : off ≤ j
    · by_cases h3 : j - off < i
      · rw [if_pos h2, if_pos (by omega), if_pos h2, if_pos h3]
      · rw [if_pos h2, if_neg (by omega), if_pos h2, if_neg h3]
    · rw [if_neg h2, if_neg h2]
  split
  · refine vec_ext (by simp) fun j hj => ?_
    rw [addAt_length] at hj
    rw [at0_set _ _ _ _ (by simpa using ‹i + off < v.length›)]
    by_cases h : j = i + off
    · subst h
      rw [hentry _ hj, if_pos rfl, if_pos (by omega), Nat.add_sub_cancel, if_pos (by omega)]
    · rw [if_neg h]
      exact hother j hj h
  · refine vec_ext (by simp) fun j hj => ?_
    rw [addAt_length] at hj
    exact hother j hj (by omega)

/-- A loop over the entries of `P` that adds each to its place of `res`, if it has
one there, adds `P` to `res`. -/
theorem run_addLoop {P : Var} (hP : P ≠ .res) (off : Nat) (body : Nat → Prog Var Unit)
    (h : ∀ i < (s P).length, ∀ t : Store Var, t P = s P → (t .res).length = (s .res).length →
      at0 (t .res) (i + off) = at0 (s .res) (i + off) →
      (body i).run t = some ((), if i + off < (s .res).length
        then Function.update t .res
          ((t .res).set (i + off) (at0 (s .res) (i + off) + at0 (s P) i)) else t)) :
    (serialFor (s P).length body).run s =
      some ((), Function.update s .res (addAt (s .res) off (s P))) := by
  have ht := run_serialFor_trace (s P).length body
    (fun i => Function.update s .res (addAt (s .res) off ((s P).take i))) (fun i hi => by
      rw [h i hi _ (Function.update_of_ne hP ..) (by simp) ?_, Function.update_self,
        addAt_take_succ]
      · split
        · rw [Function.update_idem]
        · rfl
      · rw [Function.update_self]
        by_cases hin : i + off < (s .res).length
        · rw [at0_addAt _ _ _ _ hin, if_pos (by omega), Nat.add_sub_cancel, at0_take,
            if_neg (by omega), add_zero]
        · rw [at0_eq_zero (by rw [addAt_length]; omega), at0_eq_zero (by omega)])
  have h0 : addAt (s .res) off ((s P).take 0) = s .res := by
    refine vec_ext (by simp) fun i hi => ?_
    rw [addAt_length] at hi
    rw [at0_addAt _ _ _ _ hi, List.take_zero, at0_nil, ite_self, add_zero]
  simp only [h0, Function.update_eq_self, List.take_length] at ht
  exact ht

theorem run_guardedAddLoop {P : Var} (hP : P ≠ .res) (off : Nat)
    (hM : ∀ i, M.long (at0 (s .res) (i + off) + at0 (s P) i) = true) :
    (serialFor (s P).length (guardedAdd M P off)).run s =
      some ((), Function.update s .res (addAt (s .res) off (s P))) := by
  refine run_addLoop hP off _ fun i hi t htP htl hti => ?_
  rw [guardedAdd, run_bind_of (run_size t .res), htl]
  by_cases hin : i + off < (s .res).length
  · rw [if_pos hin, if_pos hin, run_addEntry (by omega) (by rw [htP]; exact hi)
      (by rw [hti, htP]; exact hM i), hti, htP]
  · rw [if_neg hin, if_neg hin, run_pure]

theorem run_plainAddLoop {P : Var} (hP : P ≠ .res) (hl : (s P).length ≤ (s .res).length)
    (hM : ∀ i, M.long (at0 (s .res) i + at0 (s P) i) = true) :
    (serialFor (s P).length (addEntry M P 0)).run s =
      some ((), Function.update s .res (addAt (s .res) 0 (s P))) := by
  refine run_addLoop hP 0 _ fun i hi t htP htl hti => ?_
  rw [if_pos (by omega), run_addEntry (by omega) (by rw [htP]; exact hi)
    (by rw [hti, htP]; exact hM i), hti, htP]

/-- The products are added to `res` at their offsets. -/
def combined (len k : Nat) (P1 P2 P3 : Vec) : Vec :=
  addAt (addAt (addAt (zeros (2 * len)) 0 P2) k P3) len P1

theorem run_addLoops (len k : Nat) (hr : s .res = zeros (2 * len))
    (hl2 : (s .P2).length ≤ 2 * len) (h2 : ∀ i, M.long (at0 (s .P2) i) = true)
    (h3 : ∀ i, M.long (at0 (addAt (zeros (2 * len)) 0 (s .P2)) (i + k) + at0 (s .P3) i) = true)
    (h1 : ∀ i, M.long (at0 (addAt (addAt (zeros (2 * len)) 0 (s .P2)) k (s .P3)) (i + len) +
      at0 (s .P1) i) = true) :
    (addLoops M len k).run s =
      some ((), Function.update s .res (combined len k (s .P1) (s .P2) (s .P3))) := by
  rw [addLoops, run_bind_of (run_size s _)]
  have e1 := run_plainAddLoop (M := M) (s := s) (P := .P2) (by decide)
    (by rw [hr, zeros_length]; exact hl2) (fun i => by rw [hr, at0_zeros, zero_add]; exact h2 i)
  rw [← run_forWhen s (len ≥ parallelThreshold / 4), hr] at e1
  rw [run_bind_of e1]
  set t := Function.update s .res (addAt (zeros (2 * len)) 0 (s .P2)) with ht
  have htr : t .res = addAt (zeros (2 * len)) 0 (s .P2) := Function.update_self ..
  have ht1 : t .P1 = s .P1 := Function.update_of_ne (by decide) ..
  have ht3 : t .P3 = s .P3 := Function.update_of_ne (by decide) ..
  rw [run_bind_of (run_size t _)]
  have e2 := run_guardedAddLoop (M := M) (s := t) (P := .P3) (by decide) k
    (fun i => by rw [htr, ht3]; exact h3 i)
  rw [← run_forWhen t (len ≥ parallelThreshold / 4), htr, ht3] at e2
  rw [ht3, run_bind_of e2]
  set u := Function.update t .res (addAt (addAt (zeros (2 * len)) 0 (s .P2)) k (s .P3)) with hu
  have hur : u .res = addAt (addAt (zeros (2 * len)) 0 (s .P2)) k (s .P3) := Function.update_self ..
  have hu1 : u .P1 = s .P1 := (Function.update_of_ne (by decide) ..).trans ht1
  rw [run_bind_of (run_size u _), run_forWhen, run_guardedAddLoop (by decide) len
    (fun i => by rw [hur, hu1]; exact h1 i), hur, hu1, hu, ht, Function.update_idem,
    Function.update_idem, combined]

theorem run_productTask {rec : Vec → Vec → Prog Var Vec} {X Y r : Vec}
    (h : (rec X Y).eval = some r) (P : Var) :
    (productTask rec P X Y).run s = some ((), Function.update s P r) := by
  have hi : (invoke (rec X Y)).run s = some (r, s) := by rw [run_invoke, h]; rfl
  rw [productTask, run_bind_of hi, run_assign]

theorem run_productTask3 {rec : Vec → Vec → Prog Var Vec} {r : Vec}
    (h : (rec (s .Xlr) (s .Ylr)).eval = some r) :
    (productTask3 rec).run s = some ((), Function.update s .P3 r) := by
  rw [productTask3, run_bind_of (run_readVec s _), run_bind_of (run_readVec s _),
    run_productTask h]

/-- The half sums of two operands cut into `k` low entries and the rest. -/
theorem run_halfSumsLoop {x y : Vec} {k : Nat} (hx : 2 * k ≤ x.length) (hy : 2 * k ≤ y.length)
    (hMx : ∀ i, M.long (at0 (x.drop k) i + at0 (x.take k) i) = true)
    (hMy : ∀ i, M.long (at0 (y.drop k) i + at0 (y.take k) i) = true)
    (hsx : s .Xlr = zeros k) (hsy : s .Ylr = zeros k) :
    (halfSumsLoop M k (x.drop k) (x.take k) (y.drop k) (y.take k)).run s =
      some ((), Function.update (Function.update s .Xlr (halfSum x k)) .Ylr (halfSum y k)) := by
  let gx := fun i => at0 (x.drop k) i + at0 (x.take k) i
  let gy := fun i => at0 (y.drop k) i + at0 (y.take k) i
  have hentry : ∀ v : Vec, 2 * k ≤ v.length →
      (∀ i, M.long (at0 (v.drop k) i + at0 (v.take k) i) = true) → ∀ i < k,
      sumEntry M (v.drop k) (v.take k) i = .ok (at0 (v.drop k) i + at0 (v.take k) i) := by
    intro v hv hM i hi
    rw [sumEntry, load_ok (by rw [List.length_drop]; omega), ok_bind,
      load_ok (by rw [List.length_take]; omega), ok_bind, longVal_ok (hM i)]
  rw [halfSumsLoop, run_forWhen]
  have ht := run_serialFor_trace k (fun i => do
      let a ← lift (sumEntry M (x.drop k) (x.take k) i)
      write Var.Xlr i a
      let b ← lift (sumEntry M (y.drop k) (y.take k) i)
      write Var.Ylr i b)
    (fun i => Function.update (Function.update s .Xlr (splice (zeros k) 0 i gx)) .Ylr
      (splice (zeros k) 0 i gy)) (fun i hi => by
      set t := Function.update (Function.update s .Xlr (splice (zeros k) 0 i gx)) .Ylr
        (splice (zeros k) 0 i gy) with ht
      have htx : t .Xlr = splice (zeros k) 0 i gx := by
        rw [ht, Function.update_of_ne (by decide), Function.update_self]
      have hty : t .Ylr = splice (zeros k) 0 i gy := Function.update_self ..
      have hx1 := splice_succ (zeros k) 0 i gx (by simpa using hi)
      have hy1 := splice_succ (zeros k) 0 i gy (by simpa using hi)
      rw [Nat.zero_add] at hx1 hy1
      rw [hentry x hx hMx i hi, hentry y hy hMy i hi, run_bind_of (run_lift_ok t _),
        run_bind_of (run_write t _ (by rw [htx, splice_length, zeros_length]; exact hi)), htx, hx1,
        run_bind_of (run_lift_ok _ _), run_write _ _ (by
          rw [Function.update_of_ne (by decide), hty, splice_length, zeros_length]; exact hi),
        Function.update_of_ne (by decide), hty, hy1, ht, Function.update_comm (by decide),
        Function.update_idem, Function.update_comm (by decide), Function.update_idem])
  have hall : ∀ v : Vec, splice (zeros k) 0 k (fun i => at0 (v.drop k) i + at0 (v.take k) i) =
      halfSum v k := by
    intro v
    have := splice_all (zeros k) fun i => at0 (v.drop k) i + at0 (v.take k) i
    rwa [zeros_length] at this
  have hz : Function.update (Function.update s .Xlr (zeros k)) .Ylr (zeros k) = s := by
    rw [← hsx, Function.update_eq_self, hsx, ← hsy, Function.update_eq_self]
  simp only [splice_zero, hz] at ht
  rw [ht, hall x, hall y]

theorem run_growTo (v : Var) (n : Nat) : (growTo v n).run s = some ((), Function.update s v
    (if (s v).length < n then resizeTo (s v) n else s v)) := by
  rw [growTo, run_bind_of (run_size s v)]
  split
  · exact run_resize s v n
  · rw [Function.update_eq_self, run_pure]

end Loops

/-! ## One call -/

/-- `P3` as the variants use it: `plib` pads it to the longer outer product. -/
def padded (plib : Bool) (P1 P2 P3 : Vec) : Vec :=
  if plib ∧ P3.length < max P1.length P2.length
    then resizeTo P3 (max P1.length P2.length) else P3

theorem at0_padded (plib : Bool) (P1 P2 P3 : Vec) (i : Nat) :
    at0 (padded plib P1 P2 P3) i = at0 P3 i := by
  unfold padded
  split
  · exact at0_resizeTo _ _ _ (by omega)
  · rfl

/-- What a call returns whose three recursive calls return `P1`, `P2` and `P3`. -/
def assemble (plib : Bool) (len k : Nat) (P1 P2 P3 : Vec) : Vec :=
  combined len k P1 P2 (cross P1 P2 (padded plib P1 P2 P3))

/-- The machine holds every value of a call with these products. -/
structure Accepts (M : Machine) (plib : Bool) (k : Nat) (x y P1 P2 P3 : Vec) : Prop where
  halfX : ∀ i, M.long (at0 (x.drop k) i + at0 (x.take k) i) = true
  halfY : ∀ i, M.long (at0 (y.drop k) i + at0 (y.take k) i) = true
  subtract1 : ∀ i, M.long (at0 P3 i - at0 P1 i) = true
  subtract2 : ∀ i, M.long (at0 P3 i - at0 P1 i - at0 P2 i) = true
  add2 : ∀ i, M.long (at0 P2 i) = true
  add3 : ∀ i, M.long (at0 (addAt (zeros (2 * x.length)) 0 P2) (i + k) +
    at0 (cross P1 P2 (padded plib P1 P2 P3)) i) = true
  add1 : ∀ i, M.long (at0 (addAt (addAt (zeros (2 * x.length)) 0 P2) k
    (cross P1 P2 (padded plib P1 P2 P3))) (i + x.length) + at0 P1 i) = true

theorem accepts_exact (plib : Bool) (k : Nat) (x y P1 P2 P3 : Vec) :
    Accepts .exact plib k x y P1 P2 P3 :=
  ⟨fun _ => rfl, fun _ => rfl, fun _ => rfl, fun _ => rfl, fun _ => rfl, fun _ => rfl,
    fun _ => rfl⟩

/-- The operands are cut and the vectors of the call are set up. -/
theorem run_cut {x y : Vec} {k : Nat} (hx : k ≤ x.length) (hy : k ≤ y.length) :
    ∃ s : Store Var, s .res = zeros (2 * x.length) ∧ s .Xlr = zeros k ∧ s .Ylr = zeros k ∧
      ∀ f : Vec → Vec → Vec → Vec → Prog Var Vec, (do
        assign .res (zeros (2 * x.length))
        let Xr ← lift (slice x 0 k)
        let Xl ← lift (slice x k x.length)
        let Yr ← lift (slice y 0 k)
        let Yl ← lift (slice y k y.length)
        assign .Xlr (zeros k)
        assign .Ylr (zeros k)
        f Xr Xl Yr Yl : Prog Var Vec).run Store.empty =
          (f (x.take k) (x.drop k) (y.take k) (y.drop k)).run s := by
  refine ⟨Function.update (Function.update (Function.update Store.empty .res
    (zeros (2 * x.length))) .Xlr (zeros k)) .Ylr (zeros k), by simp, by simp, by simp, fun f => ?_⟩
  rw [slice_take x k hx, slice_drop x k hx, slice_take y k hy, slice_drop y k hy,
    run_bind_of (run_assign _ _ _), run_bind_of (run_lift_ok _ _), run_bind_of (run_lift_ok _ _),
    run_bind_of (run_lift_ok _ _), run_bind_of (run_lift_ok _ _), run_bind_of (run_assign _ _ _),
    run_bind_of (run_assign _ _ _)]

section OneCall

variable {M : Machine} {rec : Vec → Vec → Prog Var Vec} {x y P1 P2 P3 : Vec} {k : Nat}

/-- The loops that add the products, once `P3` is the cross term. -/
theorem run_finish (plib : Bool) {u : Store Var} (h1 : u .P1 = P1) (h2 : u .P2 = P2)
    (hr : u .res = zeros (2 * x.length)) (hl2 : P2.length ≤ 2 * x.length)
    (hM : Accepts M plib k x y P1 P2 P3) :
    ((do addLoops M x.length k; readVec .res : Prog Var Vec).run
      (Function.update u .P3 (cross P1 P2 (padded plib P1 P2 P3)))).map Prod.fst =
      some (assemble plib x.length k P1 P2 P3) := by
  set t := Function.update u .P3 (cross P1 P2 (padded plib P1 P2 P3)) with ht
  have ht1 : t .P1 = P1 := (Function.update_of_ne (by decide) ..).trans h1
  have ht2 : t .P2 = P2 := (Function.update_of_ne (by decide) ..).trans h2
  have ht3 : t .P3 = cross P1 P2 (padded plib P1 P2 P3) := Function.update_self ..
  have htr : t .res = zeros (2 * x.length) := (Function.update_of_ne (by decide) ..).trans hr
  clear_value t
  rw [run_bind_of (run_addLoops x.length k htr (by rw [ht2]; exact hl2)
    (by rw [ht2]; exact hM.add2) (by rw [ht2, ht3]; exact hM.add3)
    (by rw [ht1, ht2, ht3]; exact hM.add1)), run_readVec, Function.update_self, ht1, ht2, ht3]
  rfl

variable (hk : k = x.length / 2) (hlen : y.length = x.length)
  (hlarge : karatsubaThreshold < x.length)
  (e1 : (rec (x.drop k) (y.drop k)).eval = some P1)
  (e2 : (rec (x.take k) (y.take k)).eval = some P2)
  (e3 : (rec (halfSum x k) (halfSum y k)).eval = some P3) (hl2 : P2.length ≤ 2 * x.length)

include hk hlen hlarge e1 e2 e3 hl2

theorem openBody_eval (hM : Accepts M false k x y P1 P2 P3) :
    (openBody M rec x y).eval = some (assemble false x.length k P1 P2 P3) := by
  rw [openBody]
  dsimp only
  obtain ⟨s, hsr, hsx, hsy, hcut⟩ := run_cut (x := x) (y := y) (k := k) (by omega) (by omega)
  rw [if_neg (Nat.not_le.mpr hlarge), ← hk, Prog.eval, hcut]
  -- the tasks before the `taskwait`
  set t : Store Var := Function.update (Function.update (Function.update (Function.update s .P1 P1)
    .P2 P2) .Xlr (halfSum x k)) .Ylr (halfSum y k) with ht
  have htasks : (sections [productTask rec .P1 (x.drop k) (y.drop k),
      productTask rec .P2 (x.take k) (y.take k),
      halfSumsLoop M k (x.drop k) (x.take k) (y.drop k) (y.take k)]).run s = some ((), t) := by
    rw [run_sections, inOrder, run_bind_of (run_productTask e1 .P1), inOrder,
      run_bind_of (run_productTask e2 .P2), inOrder,
      run_bind_of (run_halfSumsLoop (by omega) (by omega) hM.halfX hM.halfY
        (by simp [hsx]) (by simp [hsy])), inOrder, run_ret]
  have htx : t .Xlr = halfSum x k := by simp [ht]
  have hty : t .Ylr = halfSum y k := by simp [ht]
  have ht1 : t .P1 = P1 := by simp [ht]
  have ht2 : t .P2 = P2 := by simp [ht]
  have htr : t .res = zeros (2 * x.length) := by simp [ht, hsr]
  clear_value t
  -- the task for `P3`
  have hP3 : (sections [productTask3 rec]).run t = some ((), Function.update t .P3 P3) := by
    rw [run_sections, inOrder, run_bind_of (run_productTask3 (by rw [htx, hty]; exact e3)), inOrder,
      run_ret]
  rw [run_bind_of htasks, run_bind_of hP3]
  set u := Function.update t .P3 P3 with hu
  have hu1 : u .P1 = P1 := by simp [hu, ht1]
  have hu2 : u .P2 = P2 := by simp [hu, ht2]
  have hu3 : u .P3 = P3 := by simp [hu]
  have hur : u .res = zeros (2 * x.length) := by simp [hu, htr]
  clear_value u
  rw [run_bind_of (run_subtractLoop x.length (by rw [hu1, hu3]; exact hM.subtract1)
    (by rw [hu1, hu2, hu3]; exact hM.subtract2)), hu1, hu2, hu3]
  exact run_finish false hu1 hu2 hur hl2 hM

theorem plibBody_eval (hM : Accepts M true k x y P1 P2 P3) :
    (plibBody M rec x y).eval = some (assemble true x.length k P1 P2 P3) := by
  rw [plibBody]
  dsimp only
  obtain ⟨s, hsr, hsx, hsy, hcut⟩ := run_cut (x := x) (y := y) (k := k) (by omega) (by omega)
  rw [if_neg (Nat.not_le.mpr hlarge), ← hk, Prog.eval, hcut]
  rw [run_bind_of (run_halfSumsLoop (by omega) (by omega) hM.halfX hM.halfY hsx hsy)]
  set t : Store Var := Function.update (Function.update s .Xlr (halfSum x k)) .Ylr (halfSum y k)
    with ht
  have htx : t .Xlr = halfSum x k := by simp [ht]
  have hty : t .Ylr = halfSum y k := by simp [ht]
  have htr : t .res = zeros (2 * x.length) := by simp [ht, hsr]
  clear_value t
  set u : Store Var :=
    Function.update (Function.update (Function.update t .P1 P1) .P2 P2) .P3 P3 with hu
  have htasks : (parDo (productTask rec .P1 (x.drop k) (y.drop k))
      (parDo (productTask rec .P2 (x.take k) (y.take k)) (productTask3 rec))).run t =
      some ((), u) := by
    rw [run_parDo, run_bind_of (run_productTask e1 .P1), run_parDo,
      run_bind_of (run_productTask e2 .P2), run_productTask3 (by simpa [htx, hty] using e3)]
  have hu1 : u .P1 = P1 := by simp [hu]
  have hu2 : u .P2 = P2 := by simp [hu]
  have hu3 : u .P3 = P3 := by simp [hu]
  have hur : u .res = zeros (2 * x.length) := by simp [hu, htr]
  clear_value u
  rw [run_bind_of htasks, run_bind_of (run_size _ _), run_bind_of (run_size _ _), hu1, hu2,
    run_bind_of (run_growTo _ _), hu3]
  -- `P3` padded to the longer outer product
  set w := Function.update u .P3 (if P3.length < max P1.length P2.length
    then resizeTo P3 (max P1.length P2.length) else P3) with hw
  have hw3 : w .P3 = padded true P1 P2 P3 := by simp [hw, padded]
  have hw1 : w .P1 = P1 := by simp [hw, hu1]
  have hw2 : w .P2 = P2 := by simp [hw, hu2]
  have hwr : w .res = zeros (2 * x.length) := by simp [hw, hur]
  clear_value w
  rw [run_bind_of (run_subtractLoop x.length
    (fun i => by rw [hw1, hw3, at0_padded]; exact hM.subtract1 i)
    (fun i => by rw [hw1, hw2, hw3, at0_padded]; exact hM.subtract2 i)), hw1, hw2, hw3]
  set v := Function.update w .P3 (cross P1 P2 (padded true P1 P2 P3)) with hv
  -- `res` has its full length
  have hvr : v .res = zeros (2 * x.length) := by simp [hv, hwr]
  have hgrow : (growTo .res (2 * x.length)).run v = some ((), v) := by
    rw [run_growTo, if_neg (by rw [hvr, zeros_length]; omega), Function.update_eq_self]
  rw [run_bind_of hgrow]
  exact run_finish true hw1 hw2 hwr hl2 hM

end OneCall

/-! ## Even lengths -/

theorem padded_of_length {plib : Bool} {P1 P2 P3 : Vec} (h : max P1.length P2.length ≤ P3.length) :
    padded plib P1 P2 P3 = P3 := if_neg fun hp => by omega

section EvenLengths

variable {k : Nat} {x y P1 P2 P3 : Vec} (h : HalfProducts k x y P1 P2 P3)

include h

/-- `res` after its first and after its second loop. -/
theorem poly_res : poly (addAt (zeros (2 * x.length)) 0 P2) = poly P2 ∧
    poly (addAt (addAt (zeros (2 * x.length)) 0 P2) k (cross P1 P2 P3)) =
      poly P2 + X ^ k * poly (cross P1 P2 P3) := by
  obtain ⟨h1, h2, h3⟩ := h.lengths
  have hx := h.x_length
  have e : poly (addAt (zeros (2 * x.length)) 0 P2) = poly P2 := by
    rw [poly_addAt _ _ _ (by rw [zeros_length]; omega), poly_zeros, pow_zero, one_mul, zero_add]
  exact ⟨e, by rw [poly_addAt _ _ _ (by rw [addAt_length, zeros_length, cross_length]; omega), e]⟩

/-- The combination is the product. -/
theorem assemble_eq (plib : Bool) : assemble plib x.length k P1 P2 P3 = convolve x y := by
  obtain ⟨h1, h2, h3⟩ := h.lengths
  have hx := h.x_length
  have hy := h.y_length
  rw [assemble, padded_of_length (by omega), combined]
  refine eq_convolve (by simp only [addAt_length, zeros_length]; omega) ?_
  rw [poly_addAt _ _ _ (by simp only [addAt_length, zeros_length]; omega), (poly_res h).2, hx,
    h.identity]
  ring

/-- Every value of the call is a coefficient of a bounded polynomial. -/
theorem accepts_of_bounds {M : Machine} {S : Subsemiring ℤ} {c : ℕ} (plib : Bool)
    (hxe : Entries S c x) (hye : Entries S c y)
    (hM : ∀ v ∈ S, |v| ≤ (4 * (k * (c * c)) : ℕ) → M.long v = true) (hk : 0 < k) :
    Accepts M plib k x y P1 P2 P3 := by
  obtain ⟨h1, h2, h3⟩ := h.lengths
  obtain ⟨hb1, hb2, hbc⟩ := h.bounded hxe hye
  have hx := h.x_length
  refine ⟨long_halves hM hk hxe, long_halves hM hk hye, fun i => ?_, fun i => ?_, fun i => ?_,
    fun i => ?_, fun i => ?_⟩
  · have := long_coeff hM (hbc.add hb2) (by omega) i
    rwa [h.cross_eq, sub_add_cancel, coeff_sub, coeff_poly, coeff_poly] at this
  · have := long_coeff hM hbc (by omega) i
    rwa [h.cross_eq, coeff_sub, coeff_sub, coeff_poly, coeff_poly, coeff_poly] at this
  · have := long_coeff hM hb2 (by omega) i
    rwa [coeff_poly] at this
  · rw [padded_of_length (by omega),
      at0_add_at0 _ _ _ _ (by rw [addAt_length, zeros_length, cross_length]; omega), ← coeff_poly,
      (poly_res h).2]
    exact long_coeff hM (hb2.add (hbc.shift k)) (by omega) _
  · rw [padded_of_length (by omega),
      at0_add_at0 _ _ _ _ (by simp only [addAt_length, zeros_length]; omega), ← coeff_poly,
      poly_addAt _ _ _ (by simp only [addAt_length, zeros_length]; omega), (poly_res h).2]
    exact long_coeff hM ((hb2.add (hbc.shift k)).add (hb1.shift _)) (by omega) _

end EvenLengths

/-! ## The recursion -/

/-- The body of a variant: naive up to the threshold, and above it the
combination of its three recursive calls, whenever the machine holds its values. -/
structure Variant (M : Machine) (plib : Bool)
    (body : (Vec → Vec → Prog Var Vec) → Vec → Vec → Prog Var Vec) : Prop where
  leaf : ∀ rec x y, x.length ≤ karatsubaThreshold → body rec x y = lift (naiveMulVector M x y)
  step : ∀ rec x y P1 P2 P3, y.length = x.length → karatsubaThreshold < x.length →
    (rec (x.drop (x.length / 2)) (y.drop (x.length / 2))).eval = some P1 →
    (rec (x.take (x.length / 2)) (y.take (x.length / 2))).eval = some P2 →
    (rec (halfSum x (x.length / 2)) (halfSum y (x.length / 2))).eval = some P3 →
    P2.length ≤ 2 * x.length → Accepts M plib (x.length / 2) x y P1 P2 P3 →
    (body rec x y).eval = some (assemble plib x.length (x.length / 2) P1 P2 P3)

theorem variant_open (M : Machine) : Variant M false (openBody M) where
  leaf _ _ _ h := if_pos h
  step _ _ _ _ _ _ hlen hlarge e1 e2 e3 hl2 := openBody_eval rfl hlen hlarge e1 e2 e3 hl2

theorem variant_plib (M : Machine) : Variant M true (plibBody M) where
  leaf _ _ _ h := if_pos h
  step _ _ _ _ _ _ hlen hlarge e1 e2 e3 hl2 := plibBody_eval rfl hlen hlarge e1 e2 e3 hl2

theorem eval_lift_ok (v : Vec) : (lift (.ok v) : Prog Var Vec).eval = some v := rfl

section Recursion

variable {M : Machine} {plib : Bool}
  {body : (Vec → Vec → Prog Var Vec) → Vec → Vec → Prog Var Vec}

/-- **Parallel Karatsuba on lengths `m * 2 ^ j`.** A machine that holds all
admissible values up to `m * 4 ^ j * c ^ 2` computes the product. -/
theorem recurse_par_ok (hV : Variant M plib body) {S : Subsemiring ℤ} {m B : ℕ}
    (hm : m ≤ karatsubaThreshold) (hM : ∀ v ∈ S, |v| ≤ B → M.long v = true) (j c fuel : ℕ)
    (hf : j < fuel) (hB : m * 4 ^ j * (c * c) ≤ B) {x y : Vec} (hx : x.length = m * 2 ^ j)
    (hy : y.length = m * 2 ^ j) (hxe : Entries S c x) (hye : Entries S c y) :
    (Prog.recurse body fuel x y).eval = some (convolve x y) := by
  induction j generalizing c fuel x y with
  | zero =>
    cases fuel with
    | zero => omega
    | succ f =>
      rw [Prog.recurse, hV.leaf _ _ _ (by rw [hx, pow_zero, mul_one]; exact hm),
        naiveMulVector_ok (hy.trans hx.symm) hxe hye fun v hv hvb => hM v hv (hvb.trans (by
          rw [hx]
          exact_mod_cast hB)), eval_lift_ok]
  | succ j ih =>
    cases fuel with
    | zero => omega
    | succ f =>
      obtain ⟨hleaf, hcall, hhalf⟩ := halving_bound hB
      rw [Prog.recurse]
      by_cases hlen : x.length ≤ karatsubaThreshold
      · rw [hV.leaf _ _ _ hlen, naiveMulVector_ok (hy.trans hx.symm) hxe hye fun v hv hvb =>
          hM v hv (hvb.trans (by
            rw [hx]
            exact_mod_cast hleaf)), eval_lift_ok]
      · set k := m * 2 ^ j with hk
        have hpow : m * 2 ^ (j + 1) = 2 * k := by rw [pow_succ, hk]; ring
        have hx2 : x.length = 2 * k := hx.trans hpow
        have hy2 : y.length = 2 * k := hy.trans hpow
        obtain ⟨hdx, htx⟩ := half_lengths hx2
        obtain ⟨hdy, hty⟩ := half_lengths hy2
        have hdiv : x.length / 2 = k := by omega
        have hlarge : 64 < x.length := Nat.not_le.mp hlen
        have hchild : ∀ {c' : ℕ} {u v : Vec}, c' ≤ 2 * c → u.length = k → v.length = k →
            Entries S c' u → Entries S c' v →
            (Prog.recurse body f u v).eval = some (convolve u v) := fun hc hu hv hue hve =>
          ih _ f (by omega) (hhalf _ hc) hu hv hue hve
        have hp : HalfProducts k x y _ _ _ := ⟨hx2, hy2, rfl, rfl, rfl⟩
        have hacc := accepts_of_bounds hp plib hxe hye (fun v hv hvb => hM v hv (hvb.trans (by
          exact_mod_cast hcall))) (by omega)
        have hstep := hV.step (Prog.recurse body f) x y (convolve (x.drop k) (y.drop k))
          (convolve (x.take k) (y.take k)) (convolve (halfSum x k) (halfSum y k)) (by omega) hlarge
        rw [hdiv] at hstep
        rw [hstep
          (hchild (by omega) hdx hdy (hxe.drop k) (hye.drop k))
          (hchild (by omega) htx hty (hxe.take k) (hye.take k))
          (hchild (Nat.le_refl _) (halfSum_length _ _) (halfSum_length _ _)
            (entries_halfSum hx2 hxe) (entries_halfSum hy2 hye))
          (by have := hp.lengths; omega) hacc, assemble_eq hp]

/-- What a run with exact integers returns on two vectors of one length. -/
def parProduct (plib : Bool) : Nat → Vec → Vec → Vec
  | 0, _, _ => []
  | fuel + 1, x, y =>
    if x.length ≤ karatsubaThreshold then convolve x y
    else
      let k := x.length / 2
      assemble plib x.length k (parProduct plib fuel (x.drop k) (y.drop k))
        (parProduct plib fuel (x.take k) (y.take k))
        (parProduct plib fuel (halfSum x k) (halfSum y k))

theorem parProduct_length {fuel : Nat} {x y : Vec} (hlen : y.length = x.length) (hf : 0 < fuel) :
    (parProduct plib fuel x y).length = 2 * x.length := by
  cases fuel with
  | zero => omega
  | succ f =>
    rw [parProduct]
    split
    · rw [convolve_length]
      omega
    · simp only [assemble, combined, addAt_length, zeros_length]

/-- Enough levels for the halves of a vector. -/
theorem half_levels {f n : Nat} (hn : n ≤ 32 * 2 ^ (f + 1)) (hlarge : 64 < n) :
    0 < f ∧ n / 2 ≤ 32 * 2 ^ f ∧ n - n / 2 ≤ 32 * 2 ^ f := by
  rw [pow_succ] at hn
  refine ⟨Nat.pos_of_ne_zero fun h0 => ?_, by omega, by omega⟩
  subst h0
  omega

/-- Over exact integers a run on two vectors of any one length returns. -/
theorem recurse_par_levels (hV : Variant .exact plib body) {fuel : Nat} {x y : Vec}
    (hlen : y.length = x.length) (hf : 0 < fuel) (hn : x.length ≤ 32 * 2 ^ fuel) :
    (Prog.recurse body fuel x y).eval = some (parProduct plib fuel x y) := by
  induction fuel generalizing x y with
  | zero => omega
  | succ f ih =>
    rw [Prog.recurse, parProduct]
    split
    · rename_i hleaf
      rw [hV.leaf _ _ _ hleaf, naiveMulVector_exact hlen, eval_lift_ok]
    · rename_i hleaf
      have hlarge : 64 < x.length := Nat.not_le.mp hleaf
      obtain ⟨hf0, htake, hdrop⟩ := half_levels hn hlarge
      have ihd := @ih (x.drop (x.length / 2)) (y.drop (x.length / 2))
        (by rw [List.length_drop, List.length_drop, hlen]) hf0 (by rw [List.length_drop]; omega)
      have iht := @ih (x.take (x.length / 2)) (y.take (x.length / 2))
        (by rw [List.length_take, List.length_take, hlen]) hf0 (by rw [List.length_take]; omega)
      have ihs := @ih (halfSum x (x.length / 2)) (halfSum y (x.length / 2))
        (by simp) hf0 (by simp; omega)
      refine hV.step _ x y _ _ _ hlen hlarge ihd iht ihs ?_ (accepts_exact _ _ _ _ _ _ _)
      rw [parProduct_length (by rw [List.length_take, List.length_take, hlen]) hf0,
        List.length_take]
      omega

/-- More levels than there are entries. -/
theorem length_le_halves {n fuel : Nat} (hf : n < fuel) : n ≤ 32 * 2 ^ fuel := by
  have h2 : fuel < 2 ^ fuel := Nat.lt_two_pow_self
  omega

theorem recurse_par_exact (hV : Variant .exact plib body) {fuel : Nat} {x y : Vec}
    (hlen : y.length = x.length) (hf : x.length < fuel) :
    (Prog.recurse body fuel x y).eval = some (parProduct plib fuel x y) :=
  recurse_par_levels hV hlen (by omega) (length_le_halves hf)

/-- The result does not depend on the number of levels. -/
theorem parProduct_congr {fuel fuel' : Nat} {x y : Vec} (hf : 0 < fuel)
    (hn : x.length ≤ 32 * 2 ^ fuel) (hf' : 0 < fuel') (hn' : x.length ≤ 32 * 2 ^ fuel') :
    parProduct plib fuel x y = parProduct plib fuel' x y := by
  induction fuel generalizing fuel' x y with
  | zero => omega
  | succ f ih =>
    cases fuel' with
    | zero => omega
    | succ f' =>
      rw [parProduct, parProduct]
      split
      · rfl
      · rename_i hleaf
        have hlarge : 64 < x.length := Nat.not_le.mp hleaf
        obtain ⟨hf0, htake, hdrop⟩ := half_levels hn hlarge
        obtain ⟨hf0', htake', hdrop'⟩ := half_levels hn' hlarge
        have ihd := @ih f' (x.drop (x.length / 2)) (y.drop (x.length / 2)) hf0
          (by rw [List.length_drop]; omega) hf0' (by rw [List.length_drop]; omega)
        have iht := @ih f' (x.take (x.length / 2)) (y.take (x.length / 2)) hf0
          (by rw [List.length_take]; omega) hf0' (by rw [List.length_take]; omega)
        have ihs := @ih f' (halfSum x (x.length / 2)) (halfSum y (x.length / 2)) hf0
          (by simp; omega) hf0' (by simp; omega)
        dsimp only
        rw [ihd, iht, ihs]

/-- On lengths `m * 2 ^ j` that is the product. -/
theorem parProduct_of_halvesEvenly (hV : Variant .exact plib body) {fuel : Nat} {x y : Vec}
    (hn : HalvesEvenly x.length) (hlen : y.length = x.length) (hf : x.length < fuel) :
    parProduct plib fuel x y = convolve x y := by
  obtain ⟨b, hbx, hby⟩ := exists_common_entries x y
  obtain ⟨m, j, hm, hx, hj⟩ := hn.exists_le
  have hrun := recurse_par_exact hV hlen hf
  have h := recurse_par_ok hV hm (fun _ _ _ => rfl) j _ fuel (by omega) (Nat.le_refl _) hx
    (hlen.trans hx) hbx hby
  exact Option.some.inj (hrun.symm.trans h)

end Recursion

/-! ## Schedules -/

theorem productTask_owns {rec : Vec → Vec → Prog Var Vec} (h : ∀ u v, (rec u v).RaceFree) (P : Var)
    (X Y : Vec) : (productTask rec P X Y).RaceFree ∧ (productTask rec P X Y).Within (owns [P]) :=
  ⟨raceFree_bind (raceFree_invoke (h X Y)) fun _ => raceFree_assign _ _,
    within_bind (within_invoke _) fun _ => within_assign (List.mem_singleton.mpr rfl)⟩

theorem productTask3_owns {rec : Vec → Vec → Prog Var Vec} (h : ∀ u v, (rec u v).RaceFree) :
    (productTask3 rec).RaceFree ∧ (productTask3 rec).Within (owns [.P3, .Xlr, .Ylr]) := by
  refine ⟨raceFree_bind (raceFree_readVec _) fun _ => raceFree_bind (raceFree_readVec _) fun _ =>
    (productTask_owns h _ _ _).1, ?_⟩
  refine within_bind (within_readVec (by simp [owns]) fun _ => by simp [owns]) fun X => ?_
  refine within_bind (within_readVec (by simp [owns]) fun _ => by simp [owns]) fun Y => ?_
  exact (productTask_owns h .P3 X Y).2.mono fun x _ hx => by simp_all [owns]

/-- Iteration `i` writes the entries `i` of the half sums. -/
theorem halfSumsLoop_owns (M : Machine) (k : Nat) (Xl Xr Yl Yr : Vec) :
    (halfSumsLoop M k Xl Xr Yl Yr).RaceFree ∧
      (halfSumsLoop M k Xl Xr Yl Yr).Within (owns [.Xlr, .Ylr]) := by
  constructor
  · refine raceFree_forWhen (fun i _ t => t = .write i) (fun i => ?_) (fun i _ => ?_) ?_
    · exact raceFree_bind (raceFree_lift _) fun _ => raceFree_bind (raceFree_write _ _ _) fun _ =>
        raceFree_bind (raceFree_lift _) fun _ => raceFree_write _ _ _
    · exact within_bind (within_lift _) fun _ => within_bind (within_write rfl) fun _ =>
        within_bind (within_lift _) fun _ => within_write rfl
    · rintro i _ j _ hij x t u rfl rfl
      exact hij
  · exact within_forWhen fun i _ => within_bind (within_lift _) fun _ =>
      within_bind (within_write (by simp [owns])) fun _ => within_bind (within_lift _) fun _ =>
      within_write (by simp [owns])

/-- Iteration `i` changes entry `i` of `P3`, and reads the outer products. -/
theorem subtractLoop_raceFree (M : Machine) (len : Nat) : (subtractLoop M len).RaceFree := by
  have hbody : ∀ P i, (subtractFrom M P i).RaceFree := fun P i =>
    raceFree_bind (raceFree_size _) fun _ => raceFree_ite
      (raceFree_bind (raceFree_read _ _) fun _ => raceFree_bind (raceFree_read _ _) fun _ =>
        raceFree_bind (raceFree_lift _) fun _ => raceFree_write _ _ _) (raceFree_pure _)
  have hfoot : ∀ P i, P ≠ .P3 → (subtractFrom M P i).Within fun x t =>
      (x = .P3 ∧ (t = .read i ∨ t = .write i)) ∨ (x ≠ .P3 ∧ (t = .read i ∨ t = .size)) :=
    fun P i hP => within_bind (within_size (.inr ⟨hP, .inr rfl⟩)) fun _ => within_ite
      (within_bind (within_read (.inl ⟨rfl, .inl rfl⟩)) fun _ =>
        within_bind (within_read (.inr ⟨hP, .inl rfl⟩)) fun _ =>
        within_bind (within_lift _) fun _ => within_write (.inl ⟨rfl, .inr rfl⟩)) (within_pure _)
  refine raceFree_bind (raceFree_size _) fun _ => raceFree_forWhen _
    (fun i => raceFree_bind (hbody .P1 i) fun _ => hbody .P2 i)
    (fun i _ => within_bind (hfoot .P1 i (by decide)) fun _ => hfoot .P2 i (by decide)) ?_
  rintro i _ j _ hij x t u (⟨hx, rfl | rfl⟩ | ⟨hx, rfl | rfl⟩)
    (⟨hx', rfl | rfl⟩ | ⟨hx', rfl | rfl⟩) <;> simp_all [Touch.Indep]

/-- Iteration `i` of a loop that adds `P` changes the entry of `res` at its place. -/
theorem addLoop_raceFree {P : Var} (hP : P ≠ .res) (c : Prop) [Decidable c] (n off : Nat)
    (body : Nat → Prog Var Unit) (hR : ∀ i, (body i).RaceFree)
    (hW : ∀ i, (body i).Within fun x t =>
      (x = .res ∧ (t = .size ∨ t = .read (i + off) ∨ t = .write (i + off))) ∨
      (x = P ∧ t = .read i)) : (forWhen c n body).RaceFree := by
  refine raceFree_forWhen _ hR (fun i _ => hW i) ?_
  rintro i _ j _ hij x t u (⟨hx, rfl | rfl | rfl⟩ | ⟨hx, rfl⟩)
    (⟨hx', rfl | rfl | rfl⟩ | ⟨hx', rfl⟩) <;> simp_all [Touch.Indep]

theorem addLoops_raceFree (M : Machine) (len k : Nat) : (addLoops M len k).RaceFree := by
  have hR : ∀ P off i, (addEntry M P off i).RaceFree := fun P off i =>
    raceFree_bind (raceFree_read _ _) fun _ => raceFree_bind (raceFree_read _ _) fun _ =>
    raceFree_bind (raceFree_lift _) fun _ => raceFree_write _ _ _
  have hW : ∀ P off i, (addEntry M P off i).Within fun x t =>
      (x = .res ∧ (t = .size ∨ t = .read (i + off) ∨ t = .write (i + off))) ∨
      (x = P ∧ t = .read i) := fun P off i =>
    within_bind (within_read (.inl ⟨rfl, .inr (.inl rfl)⟩)) fun _ =>
    within_bind (within_read (.inr ⟨rfl, rfl⟩)) fun _ => within_bind (within_lift _) fun _ =>
    within_write (.inl ⟨rfl, .inr (.inr rfl)⟩)
  have hguard : ∀ P off n, P ≠ .res →
      (forWhen (len ≥ parallelThreshold / 4) n (guardedAdd M P off)).RaceFree := fun P off n hP =>
    addLoop_raceFree hP _ n off _
      (fun i => raceFree_bind (raceFree_size _) fun _ =>
        raceFree_ite (hR P off i) (raceFree_pure _))
      (fun i => within_bind (within_size (.inl ⟨rfl, .inl rfl⟩)) fun _ =>
        within_ite (hW P off i) (within_pure _))
  exact raceFree_bind (raceFree_size _) fun _ =>
    raceFree_bind (addLoop_raceFree (P := .P2) (by decide) _ _ 0 _ (hR .P2 0) (hW .P2 0)) fun _ =>
    raceFree_bind (raceFree_size _) fun _ => raceFree_bind (hguard .P3 k _ (by decide)) fun _ =>
    raceFree_bind (raceFree_size _) fun _ => hguard .P1 len _ (by decide)

theorem growTo_raceFree (v : Var) (n : Nat) : (growTo v n).RaceFree :=
  raceFree_bind (raceFree_size _) fun _ => raceFree_ite (raceFree_resize _ _) (raceFree_pure _)

/-- Cutting the operands and setting up the vectors of the call. -/
theorem cut_raceFree {x y : Vec} {k : Nat} {f : Vec → Vec → Vec → Vec → Prog Var Vec}
    (h : ∀ Xr Xl Yr Yl, (f Xr Xl Yr Yl).RaceFree) : (do
      assign .res (zeros (2 * x.length))
      let Xr ← lift (slice x 0 k)
      let Xl ← lift (slice x k x.length)
      let Yr ← lift (slice y 0 k)
      let Yl ← lift (slice y k y.length)
      assign .Xlr (zeros k)
      assign .Ylr (zeros k)
      f Xr Xl Yr Yl : Prog Var Vec).RaceFree := by
  refine raceFree_bind (raceFree_assign _ _) fun _ => raceFree_bind (raceFree_lift _) fun Xr => ?_
  refine raceFree_bind (raceFree_lift _) fun Xl => raceFree_bind (raceFree_lift _) fun Yr => ?_
  refine raceFree_bind (raceFree_lift _) fun Yl => raceFree_bind (raceFree_assign _ _) fun _ => ?_
  exact raceFree_bind (raceFree_assign _ _) fun _ => h Xr Xl Yr Yl

theorem openBody_raceFree (M : Machine) {rec : Vec → Vec → Prog Var Vec}
    (h : ∀ u v, (rec u v).RaceFree) (x y : Vec) : (openBody M rec x y).RaceFree := by
  refine raceFree_ite (raceFree_lift _) (cut_raceFree fun Xr Xl Yr Yl => ?_)
  refine raceFree_bind ?_ fun _ => raceFree_bind ?_ fun _ =>
    raceFree_bind (subtractLoop_raceFree _ _) fun _ =>
    raceFree_bind (addLoops_raceFree _ _ _) fun _ => raceFree_readVec _
  · exact (owners_sections [[Var.P1], [.P2], [.Xlr, .Ylr]] (by decide)
      (.cons (productTask_owns h _ _ _) (.cons (productTask_owns h _ _ _)
        (.cons (halfSumsLoop_owns _ _ _ _ _ _) .nil)))).1
  · exact (owners_sections [[Var.P3, .Xlr, .Ylr]] (by decide)
      (.cons (productTask3_owns h) .nil)).1

theorem plibBody_raceFree (M : Machine) {rec : Vec → Vec → Prog Var Vec}
    (h : ∀ u v, (rec u v).RaceFree) (x y : Vec) : (plibBody M rec x y).RaceFree := by
  refine raceFree_ite (raceFree_lift _) (cut_raceFree fun Xr Xl Yr Yl => ?_)
  refine raceFree_bind (halfSumsLoop_owns _ _ _ _ _ _).1 fun _ => raceFree_bind ?_ fun _ =>
    raceFree_bind (raceFree_size _) fun _ => raceFree_bind (raceFree_size _) fun _ =>
    raceFree_bind (growTo_raceFree _ _) fun _ => raceFree_bind (subtractLoop_raceFree _ _) fun _ =>
    raceFree_bind (growTo_raceFree _ _) fun _ => raceFree_bind (addLoops_raceFree _ _ _) fun _ =>
    raceFree_readVec _
  exact (owners_parDoNest [[Var.P1], [.P2], [.P3, .Xlr, .Ylr]] (by decide)
    (.cons (productTask_owns h _ _ _) (.cons (productTask_owns h _ _ _)
      (.cons (productTask3_owns h) .nil)))).1

theorem parKaratsubaMulVectorOpen_raceFree (M : Machine) (x y : Vec) :
    (parKaratsubaMulVectorOpen M x y).RaceFree :=
  raceFree_recurse (fun _ h x y => openBody_raceFree M h x y) _ x y

theorem parKaratsubaMulVectorPlib_raceFree (M : Machine) (x y : Vec) :
    (parKaratsubaMulVectorPlib M x y).RaceFree :=
  raceFree_recurse (fun _ h x y => plibBody_raceFree M h x y) _ x y

/-- **Parallel Karatsuba does not depend on the schedule.** On every machine each
schedule of either variant returns what program order returns. Over exact
integers and on two vectors of one length program order does return, and on
lengths `m * 2 ^ j` with `m ≤ 64` it returns what `karatsuba_mul_vector` does. -/
theorem parKaratsuba_everySchedule (n : Nat) (x y : Vec) (hx : x.length = n) (hy : y.length = n) :
    (∃ r, (parKaratsubaMulVectorOpen .exact x y).eval = some r ∧
      EverySchedule (parKaratsubaMulVectorOpen .exact x y) r ∧
      (HalvesEvenly n → karatsubaMulVector .exact x y = .ok r)) ∧
    (∃ r, (parKaratsubaMulVectorPlib .exact x y).eval = some r ∧
      EverySchedule (parKaratsubaMulVectorPlib .exact x y) r ∧
      (HalvesEvenly n → karatsubaMulVector .exact x y = .ok r)) ∧
    ∀ M r, ((parKaratsubaMulVectorOpen M x y).eval = some r →
        EverySchedule (parKaratsubaMulVectorOpen M x y) r) ∧
      ((parKaratsubaMulVectorPlib M x y).eval = some r →
        EverySchedule (parKaratsubaMulVectorPlib M x y) r) := by
  have hlen : y.length = x.length := hy.trans hx.symm
  have hseq : HalvesEvenly n → karatsubaMulVector .exact x y = .ok (convolve x y) := fun hn =>
    recurse_karatsuba_exact hn (by omega) hx hy
  have hopen := recurse_par_exact (variant_open .exact) hlen (Nat.lt_succ_self _)
  have hplib := recurse_par_exact (variant_plib .exact) hlen (Nat.lt_succ_self _)
  have hall : ∀ M r, ((parKaratsubaMulVectorOpen M x y).eval = some r →
        EverySchedule (parKaratsubaMulVectorOpen M x y) r) ∧
      ((parKaratsubaMulVectorPlib M x y).eval = some r →
        EverySchedule (parKaratsubaMulVectorPlib M x y) r) := fun M _ =>
    ⟨everySchedule_of_eval (parKaratsubaMulVectorOpen_raceFree M x y),
      everySchedule_of_eval (parKaratsubaMulVectorPlib_raceFree M x y)⟩
  refine ⟨⟨_, hopen, (hall .exact _).1 hopen, fun hn => ?_⟩,
    ⟨_, hplib, (hall .exact _).2 hplib, fun hn => ?_⟩, hall⟩
  · rw [hseq hn, parProduct_of_halvesEvenly (variant_open .exact) (hx ▸ hn) hlen (by omega)]
  · rw [hseq hn, parProduct_of_halvesEvenly (variant_plib .exact) (hx ▸ hn) hlen (by omega)]

/-- A length at which loops and halves are parallel. -/
theorem parKaratsuba_everySchedule_8192 :
    ∃ r, EverySchedule (parKaratsubaMulVectorOpen .exact (List.replicate 8192 7)
        (List.replicate 8192 (-5))) r ∧
      karatsubaMulVector .exact (List.replicate 8192 7) (List.replicate 8192 (-5)) = .ok r := by
  obtain ⟨⟨r, _, hr, hs⟩, _⟩ := parKaratsuba_everySchedule 8192 (List.replicate 8192 7)
    (List.replicate 8192 (-5)) List.length_replicate List.length_replicate
  exact ⟨r, hr, hs ⟨64, 7, by decide, by decide⟩⟩

end BigintMultiply.ParKaratsuba
