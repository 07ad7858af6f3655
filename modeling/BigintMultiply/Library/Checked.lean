import Mathlib.Data.Int.Basic
import Mathlib.Tactic.Ring

/-! Checked runs: C-like computations that either return a value or stop at the
first fault. A machine says which values its integer types hold; the unbounded
machine accepts every value, and running a program under a narrower machine
tells whether each value it computes is one of the accepted ones. -/

namespace BigintMultiply.Checked

/-- Why a run stops: a signed result its type cannot hold, a division by zero,
an index or iterator outside its vector, a recursive call that the observer of
the run refuses, or a call nested deeper than the given fuel. -/
inductive Fault
  | overflow
  | divideByZero
  | outOfBounds
  | refused
  | exhausted
  deriving DecidableEq, Repr

abbrev Run := Except Fault

/-- The signed arithmetic of a machine: the values of a `long long`, the values
of an `int`, and the conversion of a wider value to `int`. -/
structure Machine where
  long : Int → Bool
  int : Int → Bool
  toInt : Int → Int

/-- Exact integers. -/
def Machine.exact : Machine := ⟨fun _ => true, fun _ => true, id⟩

/-- `v` is a two's complement value of `w` bits. -/
def fits (w : Nat) (v : Int) : Bool := decide (-2 ^ (w - 1) ≤ v ∧ v < 2 ^ (w - 1))

/-- 32-bit `int`, 64-bit `long long`, conversions to `int` keep the low 32 bits. -/
def Machine.lp64 : Machine := ⟨fits 64, fits 32, fun v => v.bmod (2 ^ 32)⟩

/-- Exact integers, with every `long long` value observed by `p`. -/
def Machine.observing (p : Int → Bool) : Machine := { Machine.exact with long := p }

/-- A `long long` result. -/
def Machine.longVal (M : Machine) (v : Int) : Run Int :=
  if M.long v then .ok v else .error .overflow

/-- An `int` result. -/
def Machine.intVal (M : Machine) (v : Int) : Run Int :=
  if M.int v then .ok v else .error .overflow

/-- `a / b` on `long long`, truncated toward zero. -/
def Machine.longDiv (M : Machine) (a b : Int) : Run Int :=
  if b = 0 then .error .divideByZero else M.longVal (a.tdiv b)

theorem fits_iff (w : Nat) (v : Int) :
    fits w v = true ↔ -2 ^ (w - 1) ≤ v ∧ v < 2 ^ (w - 1) := by simp [fits]

theorem lp64_long (v : Int) (h : |v| < 2 ^ 63) : Machine.lp64.long v = true := by
  have := abs_lt.mp h
  exact (fits_iff 64 v).mpr ⟨by omega, this.2⟩

theorem lp64_int (v : Int) (h : |v| < 2 ^ 31) : Machine.lp64.int v = true := by
  have := abs_lt.mp h
  exact (fits_iff 32 v).mpr ⟨by omega, this.2⟩

/-- A value in the range of `int` survives the conversion. -/
theorem lp64_toInt (v : Int) (h : |v| < 2 ^ 31) : Machine.lp64.toInt v = v := by
  have := abs_lt.mp h
  exact Int.bmod_eq_of_le (by omega) (by omega)

/-- The conversion to `int` keeps a non-negative value or lowers it by a multiple
of `2 ^ 32`. -/
theorem lp64_toInt_cases (v : Int) (h : 0 ≤ v) :
    Machine.lp64.toInt v = v ∨ Machine.lp64.toInt v + 2 ^ 32 ≤ v := by
  change v.bmod (2 ^ 32) = v ∨ v.bmod (2 ^ 32) + 2 ^ 32 ≤ v
  rw [Int.bmod_def]
  split <;> omega

theorem lp64_toInt_range (v : Int) :
    -2 ^ 31 ≤ Machine.lp64.toInt v ∧ Machine.lp64.toInt v < 2 ^ 31 := by
  change -2 ^ 31 ≤ v.bmod (2 ^ 32) ∧ v.bmod (2 ^ 32) < 2 ^ 31
  rw [Int.bmod_def]
  split <;> omega

@[simp] theorem ok_bind {α β : Type} (a : α) (f : α → Run β) :
    ((Except.ok a : Run α) >>= f) = f a := rfl

@[simp] theorem error_bind {α β : Type} (e : Fault) (f : α → Run β) :
    ((Except.error e : Run α) >>= f) = .error e := rfl

@[simp] theorem pure_eq_ok {α : Type} (a : α) : (pure a : Run α) = .ok a := rfl

/-- A run that returns has run its first part. -/
theorem bind_eq_ok {α β : Type} {m : Run α} {f : α → Run β} {b : β} :
    (m >>= f) = .ok b ↔ ∃ a, m = .ok a ∧ f a = .ok b := by
  cases m <;> simp

theorem longVal_ok {M : Machine} {v : Int} (h : M.long v = true) : M.longVal v = .ok v := by
  simp [Machine.longVal, h]

theorem intVal_ok {M : Machine} {v : Int} (h : M.int v = true) : M.intVal v = .ok v := by
  simp [Machine.intVal, h]

theorem longDiv_ok {M : Machine} {a b : Int} (hb : b ≠ 0) (h : M.long (a.tdiv b) = true) :
    M.longDiv a b = .ok (a.tdiv b) := by
  simp [Machine.longDiv, hb, longVal_ok h]

theorem longVal_eq_ok {M : Machine} {v w : Int} (h : M.longVal v = .ok w) :
    w = v ∧ M.long v = true := by
  unfold Machine.longVal at h
  split at h
  · exact ⟨(Except.ok.inj h).symm, by assumption⟩
  · cases h

theorem intVal_eq_ok {M : Machine} {v w : Int} (h : M.intVal v = .ok w) :
    w = v ∧ M.int v = true := by
  unfold Machine.intVal at h
  split at h
  · exact ⟨(Except.ok.inj h).symm, by assumption⟩
  · cases h

/-! ## Counting loops -/

section Loops

variable {m : Type → Type*} [Monad m] {σ : Type}

/-- `for (i = 0; i < n; ++i) body` over a loop state. -/
def forLoop : Nat → (Nat → σ → m σ) → σ → m σ
  | 0, _, s => pure s
  | n + 1, body, s => do
    let s ← forLoop n body s
    body n s

/-- `for (i = lo; i < hi; ++i) body`. -/
def forRange (lo hi : Nat) (body : Nat → σ → m σ) (s : σ) : m σ :=
  forLoop (hi - lo) (fun i => body (lo + i)) s

end Loops

/-- A counting loop whose counter is an `int`: each `++i` must be in range. -/
def intLoop {σ : Type} (M : Machine) (n : Nat) (body : Nat → σ → Run σ) (s : σ) : Run σ :=
  forLoop n (fun i s => do
    let s ← body i s
    let _ ← M.intVal (i + 1)
    .ok s) s

/-- A loop that passes through the states `st 0, st 1, …, st n`. -/
theorem forLoop_trace {σ : Type} (n : Nat) (body : Nat → σ → Run σ) (st : Nat → σ)
    (h : ∀ i < n, body i (st i) = .ok (st (i + 1))) :
    forLoop n body (st 0) = .ok (st n) := by
  induction n with
  | zero => rfl
  | succ n ih =>
    rw [forLoop, ih (fun i hi => h i (by omega)), ok_bind]
    exact h n (by omega)

/-- An invariant indexed by the number of finished iterations. -/
theorem forLoop_invariant {σ : Type} (n : Nat) (body : Nat → σ → Run σ) (I : Nat → σ → Prop)
    (s : σ) (h0 : I 0 s)
    (hs : ∀ i < n, ∀ t, I i t → ∃ u, body i t = .ok u ∧ I (i + 1) u) :
    ∃ t, forLoop n body s = .ok t ∧ I n t := by
  induction n with
  | zero => exact ⟨s, rfl, h0⟩
  | succ n ih =>
    obtain ⟨t, ht, hI⟩ := ih (fun i hi => hs i (by omega))
    obtain ⟨u, hu, hI'⟩ := hs n (by omega) t hI
    exact ⟨u, by rw [forLoop, ht, ok_bind, hu], hI'⟩

/-- A fault of iteration `i` is the fault of the loop. -/
theorem forLoop_error {σ : Type} (n i : Nat) (body : Nat → σ → Run σ) (s t : σ) (e : Fault)
    (hi : i < n) (ht : forLoop i body s = .ok t) (he : body i t = .error e) :
    forLoop n body s = .error e := by
  induction n with
  | zero => omega
  | succ n ih =>
    rcases Nat.lt_succ_iff_lt_or_eq.mp hi with h | rfl
    · rw [forLoop, ih h, error_bind]
    · rw [forLoop, ht, ok_bind, he]

/-- A loop that appends one element in each iteration. -/
theorem forLoop_append {α : Type} (n : Nat) (body : Nat → List α → Run (List α)) (f : Nat → α)
    (h : ∀ i < n, ∀ l, body i l = .ok (l ++ [f i])) :
    forLoop n body [] = .ok ((List.range n).map f) := by
  refine forLoop_trace n body (fun i => (List.range i).map f) fun i hi => ?_
  rw [h i hi, List.range_succ, List.map_append, List.map_singleton]

/-- A loop that appends a piece in each iteration. -/
theorem forLoop_concat {α : Type} (n : Nat) (body : Nat → List α → Run (List α))
    (f : Nat → List α) (l : List α) (h : ∀ i < n, ∀ l, body i l = .ok (l ++ f i)) :
    forLoop n body l = .ok (l ++ ((List.range n).map f).flatten) := by
  induction n with
  | zero => rw [List.range_zero, List.map_nil, List.flatten_nil, List.append_nil]; rfl
  | succ n ih =>
    rw [forLoop, ih fun i hi => h i (by omega), ok_bind, h n (by omega), List.range_succ]
    simp

theorem intLoop_trace {σ : Type} (M : Machine) (n : Nat) (body : Nat → σ → Run σ) (st : Nat → σ)
    (hM : ∀ i ≤ n, M.int (i : Int) = true) (h : ∀ i < n, body i (st i) = .ok (st (i + 1))) :
    intLoop M n body (st 0) = .ok (st n) := by
  apply forLoop_trace
  intro i hi
  have hc : M.int ((i : Int) + 1) = true := by exact_mod_cast hM (i + 1) (by omega)
  rw [h i hi, ok_bind, intVal_ok hc, ok_bind]

/-- An invariant of the iterations that return holds after a loop that returns. -/
theorem forLoop_preserves {σ : Type} {n : Nat} {body : Nat → σ → Run σ} (I : σ → Prop)
    (hs : ∀ i t u, I t → body i t = .ok u → I u) {s t : σ} (h0 : I s)
    (h : forLoop n body s = .ok t) : I t := by
  induction n generalizing t with
  | zero => exact Except.ok.inj h ▸ h0
  | succ n ih =>
    obtain ⟨u, hu, ht⟩ := bind_eq_ok.mp h
    exact hs n u t (ih hu) ht

/-- A loop that returns has passed through `st 0, st 1, …, st n`, if an iteration
that starts in `st i` and returns ends in `st (i + 1)`. -/
theorem forLoop_eq_ok_trace {σ : Type} {n : Nat} {body : Nat → σ → Run σ} (st : Nat → σ) {t : σ}
    (hs : ∀ i < n, ∀ u, body i (st i) = .ok u → u = st (i + 1))
    (h : forLoop n body (st 0) = .ok t) :
    t = st n ∧ ∀ i < n, body i (st i) = .ok (st (i + 1)) := by
  induction n generalizing t with
  | zero => exact ⟨(Except.ok.inj h).symm, by intro i hi; omega⟩
  | succ n ih =>
    obtain ⟨u, hu, ht⟩ := bind_eq_ok.mp h
    obtain ⟨rfl, hb⟩ := ih (fun i hi => hs i (by omega)) hu
    obtain rfl := hs n (by omega) t ht
    refine ⟨rfl, fun i hi => ?_⟩
    rcases Nat.lt_succ_iff_lt_or_eq.mp hi with h' | rfl
    · exact hb i h'
    · exact ht

/-! ## Recursion with observed calls -/

/-- Unfolds a function body that calls itself through its first argument. `ok`
observes each call with its depth, and the run stops at a call it refuses. -/
def recurse {α β : Type} (ok : Nat → α → α → Bool) (body : (α → α → Run β) → α → α → Run β) :
    Nat → Nat → α → α → Run β
  | 0, _, _, _ => .error .exhausted
  | fuel + 1, d, x, y =>
    if ok d x y then body (recurse ok body fuel (d + 1)) x y else .error .refused

/-- The observer that refuses nothing. -/
def anyCall {α : Type} : Nat → α → α → Bool := fun _ _ _ => true

@[simp] theorem recurse_succ {α β : Type} (body : (α → α → Run β) → α → α → Run β)
    (ok : Nat → α → α → Bool) (fuel d : Nat) (x y : α) (h : ok d x y = true) :
    recurse ok body (fuel + 1) d x y = body (recurse ok body fuel (d + 1)) x y := by
  simp [recurse, h]

/-! ## Runs that may overflow -/

/-- The run `m` returns what `m'` returns, unless it overflows. -/
def Follows {α : Type} (m m' : Run α) : Prop := m = .error .overflow ∨ m = m'

section Follows

variable {α β : Type} {m m' : Run α}

theorem Follows.refl (m : Run α) : Follows m m := .inr rfl

theorem Follows.eq_ok (h : Follows m m') {a : α} (hm : m = .ok a) : m' = .ok a := by
  rcases h with h | h
  · rw [hm] at h
    cases h
  · rw [← h, hm]

theorem Follows.bind {f f' : α → Run β} (h : Follows m m') (hf : ∀ a, Follows (f a) (f' a)) :
    Follows (m >>= f) (m' >>= f') := by
  rcases h with rfl | rfl
  · exact .inl rfl
  · cases m with
    | error e => exact .refl _
    | ok a => exact hf a

theorem Follows.forLoop {σ : Type} (n : Nat) {body body' : Nat → σ → Run σ}
    (h : ∀ i s, Follows (body i s) (body' i s)) (s : σ) :
    Follows (Checked.forLoop n body s) (Checked.forLoop n body' s) := by
  induction n with
  | zero => exact .refl _
  | succ n ih => exact ih.bind (h n)

theorem Follows.recurse {ok : Nat → α → α → Bool}
    {body body' : (α → α → Run β) → α → α → Run β}
    (h : ∀ rec rec', (∀ x y, Follows (rec x y) (rec' x y)) →
      ∀ x y, Follows (body rec x y) (body' rec' x y)) (fuel d : Nat) (x y : α) :
    Follows (Checked.recurse ok body fuel d x y) (Checked.recurse ok body' fuel d x y) := by
  induction fuel generalizing d x y with
  | zero => exact .refl _
  | succ fuel ih =>
    unfold Checked.recurse
    split
    · exact h _ _ (ih (d + 1)) x y
    · exact .refl _

theorem follows_longVal (p : Int → Bool) (v : Int) :
    Follows ((Machine.observing p).longVal v) (Machine.exact.longVal v) := by
  unfold Machine.longVal
  split
  · exact .refl _
  · exact .inl rfl

theorem follows_longDiv (p : Int → Bool) (a b : Int) :
    Follows ((Machine.observing p).longDiv a b) (Machine.exact.longDiv a b) := by
  unfold Machine.longDiv
  split
  · exact .refl _
  · exact follows_longVal p _

end Follows

end BigintMultiply.Checked
