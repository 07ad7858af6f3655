import BigintMultiply.Utils

/-! Sequential Toom-Cook, `seq_toom_cook.cpp`.

The body of the algorithm is written once, over the helper functions that the
sequential and the two parallel copies each have of their own.

* `recurse_toomCook_ok`: a machine that holds all values up to `toomBound e n c`
  computes the product of vectors of length at most `n ≤ 64 * 3 ^ e`;
* `toomCookMulVector_convolve`: over exact integers this is every length. -/

namespace BigintMultiply.SeqToomCook
open Checked Vectors Coefficients Decimal Naive Utils Polynomial

universe u v

def toomCookThreshold : Nat := 64

/-! ## The helper functions -/

/-- `i < v.size() ? v[i] : 0`. -/
def loadOrZero (v : Vec) (i : Nat) : Run Int := if i < v.length then load v i else .ok 0

def addEntry (M : Machine) (a b : Vec) (i : Nat) : Run Int := do
  M.longVal ((← loadOrZero a i) + (← loadOrZero b i))

def subtractEntry (M : Machine) (a b : Vec) (i : Nat) : Run Int := do
  M.longVal ((← loadOrZero a i) - (← loadOrZero b i))

def multiplyEntry (M : Machine) (a : Vec) (scalar : Int) (i : Nat) : Run Int := do
  M.longVal ((← load a i) * scalar)

def divideEntry (M : Machine) (a : Vec) (scalar : Int) (i : Nat) : Run Int := do
  M.longDiv (← load a i) scalar

/-- A vector of `n` entries filled by a loop. -/
def fill (n : Nat) (f : Nat → Run Int) : Run Vec :=
  forLoop n (fun i res => do store res i (← f i)) (zeros n)

def add (M : Machine) (a b : Vec) : Run Vec := fill (max a.length b.length) (addEntry M a b)

def subtract (M : Machine) (a b : Vec) : Run Vec :=
  fill (max a.length b.length) (subtractEntry M a b)

def multiplyScalar (M : Machine) (a : Vec) (scalar : Int) : Run Vec :=
  fill a.length (multiplyEntry M a scalar)

def divideScalar (M : Machine) (a : Vec) (scalar : Int) : Run Vec :=
  fill a.length (divideEntry M a scalar)

/-- `BigInt res(n, 0)` throws on a negative `n`. -/
def shift (a : Vec) (n : Int) : Run Vec :=
  if 0 ≤ n then .ok (zeros n.toNat ++ a) else .error .outOfBounds

/-- The helper functions that a copy of the algorithm calls, and how it makes a
computation on values. -/
structure Helpers (m : Type → Type u) where
  add : Vec → Vec → m Vec
  subtract : Vec → Vec → m Vec
  multiplyScalar : Vec → Int → m Vec
  divideScalar : Vec → Int → m Vec
  shift : Vec → Int → m Vec
  lift {α : Type} : Run α → m α

def helpers (M : Machine) : Helpers Run :=
  ⟨add M, subtract M, multiplyScalar M, divideScalar M, shift, id⟩

/-- The same functions, with the operands of every division observed by `p`. -/
def observedHelpers (M : Machine) (p : Vec → Int → Bool) : Helpers Run :=
  { helpers M with
    divideScalar := fun a scalar =>
      if p a scalar then divideScalar M a scalar else .error .refused }

theorem helpers_eq (M : Machine) : helpers M = observedHelpers M fun _ _ => true := rfl

/-! ## The algorithm -/

/-- The three parts of an operand. -/
structure Parts where
  x0 : Vec
  x1 : Vec
  x2 : Vec

/-- What belongs to the points `0`, `1`, `-1`, `-2` and infinity. -/
structure Points where
  p0 : Vec
  p1 : Vec
  pm1 : Vec
  pm2 : Vec
  pinf : Vec

/-- Part `i` of `num`, an iteration of `split`. -/
def part (M : Machine) (num : Vec) (k i : Int) : Run Vec := do
  let start ← M.intVal (i * k)
  let stop ← M.intVal ((i + 1) * k)
  slice num start (min stop (M.toInt num.length))

def split (M : Machine) (k : Int) (num : Vec) : Run Parts := do
  let x0 ← part M num k 0
  let x1 ← part M num k 1
  let x2 ← part M num k 2
  .ok ⟨x0, x1, x2⟩

section Algorithm

variable {m : Type → Type u} [Monad m] (M : Machine) (h : Helpers m)

def evaluate (X : Parts) : m Points := do
  let P1 ← h.add (← h.add X.x2 X.x1) X.x0
  let Pm1 ← h.add (← h.subtract X.x2 X.x1) X.x0
  let Pm2 ← h.add (← h.subtract X.x0 (← h.multiplyScalar X.x1 2)) (← h.multiplyScalar X.x2 4)
  return ⟨X.x0, P1, Pm1, Pm2, X.x2⟩

def interpolate (R : Points) : m (Vec × Vec × Vec) := do
  let r3 ← h.divideScalar (← h.subtract R.pm2 R.p1) 3
  let r1 ← h.divideScalar (← h.subtract R.p1 R.pm1) 2
  let r2 ← h.subtract R.pm1 R.p0
  let r3 ← h.add (← h.divideScalar (← h.subtract r2 r3) 2) (← h.multiplyScalar R.pinf 2)
  let r2 ← h.subtract (← h.add r2 r1) R.pinf
  let r1 ← h.subtract r1 r3
  return (r1, r2, r3)

def combine (k : Int) (r0 r1 r2 r3 r4 : Vec) : m Vec := do
  let result ← h.add r0 (← h.shift r1 k)
  let result ← h.add result (← h.shift r2 (← h.lift (M.intVal (2 * k))))
  let result ← h.add result (← h.shift r3 (← h.lift (M.intVal (3 * k))))
  h.add result (← h.shift r4 (← h.lift (M.intVal (4 * k))))

/-- The body of `toom_cook_mul_vector`; `products` multiplies point by point, on
operands of length `x.length`. -/
def toomCookBody (products : Nat → Points → Points → m Points) (x y : Vec) : m Vec :=
  if x.length ≤ toomCookThreshold then h.lift (naiveMulVector M x y)
  else do
    let k := M.toInt ((x.length + 2) / 3 : Nat)
    let X ← h.lift (split M k x)
    let Y ← h.lift (split M k y)
    let P ← evaluate h X
    let Q ← evaluate h Y
    let R ← products x.length P Q
    let (r1, r2, r3) ← interpolate h R
    combine M h k R.p0 r1 r2 r3 R.pinf

end Algorithm

/-- The five recursive calls, one after the other. -/
def products (rec : Vec → Vec → Run Vec) (_ : Nat) (P Q : Points) : Run Points := do
  let R0 ← rec P.p0 Q.p0
  let R1 ← rec P.p1 Q.p1
  let Rm1 ← rec P.pm1 Q.pm1
  let Rm2 ← rec P.pm2 Q.pm2
  let Rinf ← rec P.pinf Q.pinf
  .ok ⟨R0, R1, Rm1, Rm2, Rinf⟩

/-- `toom_cook_mul_vector`. Each call shortens lengths above 64, so the depth of
the recursion stays below the fuel. -/
def toomCookMulVector (M : Machine) (x y : Vec) : Run Vec :=
  recurse anyCall (fun rec => toomCookBody M (helpers M) (products rec)) (x.length + 1) 0 x y

def toomCookMulString (M : Machine) : Str → Str → ForkJoin.Prog Var Str :=
  mulString toomCookThreshold (fun x y => .lift (toomCookMulVector M x y)) M

/-! ## Two copies of the algorithm -/

section Related

variable {m : Type → Type u} {m' : Type → Type v} [Monad m] [Monad m']

/-- A relation between computations that sequencing respects. -/
structure RespectsBind (R : ∀ α : Type, m α → m' α → Prop) : Prop where
  pure : ∀ {α : Type} (a : α), R α (pure a) (pure a)
  bind : ∀ {α β : Type} {p : m α} {q : m' α} {f : α → m β} {g : α → m' β}, R α p q →
    (∀ a, R β (f a) (g a)) → R β (p >>= f) (q >>= g)

/-- The helper functions of two copies are related. -/
structure RelatedHelpers (R : ∀ α : Type, m α → m' α → Prop) (M M' : Machine) (h : Helpers m)
    (h' : Helpers m') : Prop where
  add : ∀ a b, R Vec (h.add a b) (h'.add a b)
  subtract : ∀ a b, R Vec (h.subtract a b) (h'.subtract a b)
  multiplyScalar : ∀ a c, R Vec (h.multiplyScalar a c) (h'.multiplyScalar a c)
  divideScalar : ∀ a c, R Vec (h.divideScalar a c) (h'.divideScalar a c)
  shift : ∀ a n, R Vec (h.shift a n) (h'.shift a n)
  naive : ∀ x y, R Vec (h.lift (naiveMulVector M x y)) (h'.lift (naiveMulVector M' x y))
  split : ∀ k x, R Parts (h.lift (split M k x)) (h'.lift (split M' k x))
  intVal : ∀ v, R Int (h.lift (M.intVal v)) (h'.lift (M'.intVal v))
  toInt : M.toInt = M'.toInt

variable {R : ∀ α : Type, m α → m' α → Prop} (hR : RespectsBind R) {M M' : Machine} {h : Helpers m}
  {h' : Helpers m'} (hh : RelatedHelpers R M M' h h')

include hR hh

theorem evaluate_related (X : Parts) : R Points (evaluate h X) (evaluate h' X) := by
  refine hR.bind (hh.add _ _) fun _ => hR.bind (hh.add _ _) fun _ => ?_
  refine hR.bind (hh.subtract _ _) fun _ => hR.bind (hh.add _ _) fun _ => ?_
  refine hR.bind (hh.multiplyScalar _ _) fun _ => hR.bind (hh.subtract _ _) fun _ => ?_
  exact hR.bind (hh.multiplyScalar _ _) fun _ => hR.bind (hh.add _ _) fun _ => hR.pure _

theorem interpolate_related (P : Points) :
    R (Vec × Vec × Vec) (interpolate h P) (interpolate h' P) := by
  refine hR.bind (hh.subtract _ _) fun _ => hR.bind (hh.divideScalar _ _) fun _ => ?_
  refine hR.bind (hh.subtract _ _) fun _ => hR.bind (hh.divideScalar _ _) fun _ => ?_
  refine hR.bind (hh.subtract _ _) fun _ => hR.bind (hh.subtract _ _) fun _ => ?_
  refine hR.bind (hh.divideScalar _ _) fun _ => hR.bind (hh.multiplyScalar _ _) fun _ => ?_
  refine hR.bind (hh.add _ _) fun _ => hR.bind (hh.add _ _) fun _ => ?_
  exact hR.bind (hh.subtract _ _) fun _ => hR.bind (hh.subtract _ _) fun _ => hR.pure _

theorem combine_related (k : Int) (r0 r1 r2 r3 r4 : Vec) :
    R Vec (combine M h k r0 r1 r2 r3 r4) (combine M' h' k r0 r1 r2 r3 r4) := by
  refine hR.bind (hh.shift _ _) fun _ => hR.bind (hh.add _ _) fun _ => ?_
  refine hR.bind (hh.intVal _) fun _ => hR.bind (hh.shift _ _) fun _ => ?_
  refine hR.bind (hh.add _ _) fun _ => hR.bind (hh.intVal _) fun _ => ?_
  refine hR.bind (hh.shift _ _) fun _ => hR.bind (hh.add _ _) fun _ => ?_
  exact hR.bind (hh.intVal _) fun _ => hR.bind (hh.shift _ _) fun _ => hh.add _ _

/-- Copies with related helpers and related products are related. -/
theorem toomCookBody_related {f : Nat → Points → Points → m Points}
    {g : Nat → Points → Points → m' Points} (hp : ∀ n P Q, R Points (f n P Q) (g n P Q))
    (x y : Vec) : R Vec (toomCookBody M h f x y) (toomCookBody M' h' g x y) := by
  unfold toomCookBody
  split
  · exact hh.naive x y
  · rw [hh.toInt]
    refine hR.bind (hh.split _ _) fun _ => hR.bind (hh.split _ _) fun _ => ?_
    refine hR.bind (evaluate_related hR hh _) fun _ => ?_
    refine hR.bind (evaluate_related hR hh _) fun _ => hR.bind (hp _ _ _) fun _ => ?_
    exact hR.bind (interpolate_related hR hh _) fun _ => combine_related hR hh _ _ _ _ _ _

end Related

/-! ## Runs of the helper functions -/

theorem loadOrZero_eq (v : Vec) (i : Nat) : loadOrZero v i = .ok (at0 v i) := by
  rw [loadOrZero]
  split
  · exact load_ok (by assumption)
  · rw [at0_eq_zero (by omega)]

theorem fill_ok {n : Nat} {f : Nat → Run Int} (g : Nat → Int) (h : ∀ i < n, f i = .ok (g i))
    (h0 : ∀ i, n ≤ i → g i = 0) :
    ∃ r, fill n f = .ok r ∧ r.length = n ∧ ∀ i, at0 r i = g i := by
  refine ⟨tabulate n g, ?_, tabulate_length n g, fun i => ?_⟩
  · have hs := forLoop_splice (zeros n) 0 n g (fun i res => do store res i (← f i)) (by simp)
      (fun i hi w hw _ => by
        rw [h i hi, ok_bind, Nat.zero_add, store_ok _ (by rw [hw, zeros_length]; exact hi)])
    have ha := splice_all (zeros n) g
    rw [zeros_length] at ha
    rw [fill, hs, ha]
  · rw [at0_tabulate]
    split
    · rfl
    · rw [h0 i (by omega)]

section HelperRuns

variable {M : Machine} {a b : Vec}

theorem add_ok (h : ∀ i, M.long (at0 a i + at0 b i) = true) :
    ∃ r, add M a b = .ok r ∧ r.length = max a.length b.length ∧
      ∀ i, at0 r i = at0 a i + at0 b i := by
  refine fill_ok _ (fun i _ => ?_) fun i hi => ?_
  · rw [addEntry, loadOrZero_eq, ok_bind, loadOrZero_eq, ok_bind, longVal_ok (h i)]
  · rw [at0_eq_zero (by omega), at0_eq_zero (by omega), add_zero]

theorem subtract_ok (h : ∀ i, M.long (at0 a i - at0 b i) = true) :
    ∃ r, subtract M a b = .ok r ∧ r.length = max a.length b.length ∧
      ∀ i, at0 r i = at0 a i - at0 b i := by
  refine fill_ok _ (fun i _ => ?_) fun i hi => ?_
  · rw [subtractEntry, loadOrZero_eq, ok_bind, loadOrZero_eq, ok_bind, longVal_ok (h i)]
  · rw [at0_eq_zero (by omega), at0_eq_zero (by omega), sub_zero]

theorem multiplyScalar_ok {s : Int} (h : ∀ i, M.long (at0 a i * s) = true) :
    ∃ r, multiplyScalar M a s = .ok r ∧ r.length = a.length ∧ ∀ i, at0 r i = at0 a i * s := by
  refine fill_ok _ (fun i hi => ?_) fun i hi => ?_
  · rw [multiplyEntry, load_ok hi, ok_bind, longVal_ok (h i)]
  · rw [at0_eq_zero hi, zero_mul]

/-- A division that leaves no remainder is not refused and returns the quotients `q`. -/
theorem divideScalar_ok {p : Vec → Int → Bool} (hp : ∀ a s, (∀ i, s ∣ at0 a i) → p a s = true)
    {s : Int} {q : Nat → Int} (hs : s ≠ 0) (hq : ∀ i, at0 a i = s * q i)
    (h : ∀ i, M.long (q i) = true) :
    ∃ r, (if p a s = true then divideScalar M a s else .error .refused) = .ok r ∧
      r.length = a.length ∧ ∀ i, at0 r i = q i := by
  have hdiv : ∀ i, (at0 a i).tdiv s = q i := fun i => by rw [hq i, Int.mul_tdiv_cancel_left _ hs]
  rw [if_pos (hp a s fun i => ⟨q i, hq i⟩)]
  refine fill_ok _ (fun i hi => ?_) fun i hi => ?_
  · rw [divideEntry, load_ok hi, ok_bind, longDiv_ok hs (by rw [hdiv]; exact h i), hdiv]
  · have h0 := hq i
    rw [at0_eq_zero hi] at h0
    exact (mul_eq_zero.mp h0.symm).resolve_left hs

theorem shift_ok (a : Vec) (n : Nat) : shift a n = .ok (zeros n ++ a) := by
  rw [shift, if_pos (by omega), Int.toNat_natCast]

end HelperRuns

/-! ## Splitting and evaluation -/

/-- Part `i` of a vector cut into pieces of length `k`. -/
def piece (x : Vec) (k i : Nat) : Vec := (x.drop (i * k)).take k

/-- The three parts as values. -/
def pieces (x : Vec) (k : Nat) : Parts := ⟨piece x k 0, piece x k 1, piece x k 2⟩

theorem piece_length (x : Vec) (k i : Nat) : (piece x k i).length = min k (x.length - i * k) := by
  rw [piece, List.length_take, List.length_drop]

theorem entries_piece {S : Subsemiring ℤ} {c : ℕ} {x : Vec} (h : Entries S c x) (k i : Nat) :
    Entries S c (piece x k i) := (h.drop _).take _

theorem part_ok {M : Machine} {x : Vec} {k i : Nat} (hi : i * k ≤ x.length)
    (h1 : M.int ((i : Int) * k) = true) (h2 : M.int (((i : Int) + 1) * k) = true)
    (hT : M.toInt x.length = x.length) : part M x k i = .ok (piece x k i) := by
  have hmin : min (((i : Int) + 1) * k) (x.length : Int) = (min ((i + 1) * k) x.length : Nat) := by
    push_cast
    rfl
  have hs : (i + 1) * k = i * k + k := by ring
  rw [part, intVal_ok h1, ok_bind, intVal_ok h2, ok_bind, hT, hmin, ← Nat.cast_mul,
    slice_ok x (i * k) _ (by omega) (by omega), piece]
  by_cases h : (i + 1) * k ≤ x.length
  · rw [Nat.min_eq_left h, hs, Nat.add_sub_cancel_left]
  · rw [Nat.min_eq_right (by omega), List.take_of_length_le (by rw [List.length_drop]),
      List.take_of_length_le (by rw [List.length_drop]; omega)]

theorem split_ok {M : Machine} {x : Vec} {k : Nat} (hk : 2 * k ≤ x.length)
    (hI : ∀ i ≤ 4 * k, M.int ((i : Nat) : Int) = true) (hT : M.toInt x.length = x.length) :
    split M k x = .ok (pieces x k) := by
  have hi : ∀ i ≤ 4, M.int ((i : Nat) * (k : Int)) = true := by
    intro i hi
    exact_mod_cast hI (i * k) (Nat.mul_le_mul_right k hi)
  have h0 : part M x k 0 = .ok (piece x k 0) :=
    part_ok (i := 0) (by omega) (hi 0 (by omega)) (hi 1 (by omega)) hT
  have h1 : part M x k 1 = .ok (piece x k 1) :=
    part_ok (i := 1) (by omega) (hi 1 (by omega)) (hi 2 (by omega)) hT
  have h2 : part M x k 2 = .ok (piece x k 2) :=
    part_ok (i := 2) (by omega) (hi 2 (by omega)) (hi 3 (by omega)) hT
  rw [split, h0, ok_bind, h1, ok_bind, h2, ok_bind, pieces]

/-- Two whole parts and the rest. -/
theorem pieces_length {x : Vec} {k : Nat} (h2 : 2 * k ≤ x.length) (h3 : x.length ≤ 3 * k) :
    (piece x k 0).length = k ∧ (piece x k 1).length = k ∧
      (piece x k 2).length = x.length - 2 * k := by
  simp only [piece_length]
  omega

/-- The operand is the value of its parts at `X ^ k`. -/
theorem poly_pieces {x : Vec} {k : Nat} (h2 : 2 * k ≤ x.length) (h3 : x.length ≤ 3 * k) :
    poly x =
      poly (piece x k 0) + X ^ k * poly (piece x k 1) + X ^ (2 * k) * poly (piece x k 2) := by
  have h0 : piece x k 0 = x.take k := by rw [piece, Nat.zero_mul, List.drop_zero]
  have hd : piece x k 2 = (x.drop k).drop k := by
    rw [piece, List.take_of_length_le (by rw [List.length_drop]; omega), List.drop_drop, two_mul]
  rw [poly_split x k (by omega), poly_split (x.drop k) k (by rw [List.length_drop]; omega), h0, hd,
    piece, Nat.one_mul, two_mul, pow_add]
  ring

/-- The values of the parts at the five points. -/
structure Evaluated (k : Nat) (X : Parts) (P : Points) : Prop where
  p0 : P.p0 = X.x0
  pinf : P.pinf = X.x2
  p1 : P.p1.length = k ∧ ∀ i, at0 P.p1 i = at0 X.x0 i + at0 X.x1 i + at0 X.x2 i
  pm1 : P.pm1.length = k ∧ ∀ i, at0 P.pm1 i = at0 X.x0 i - at0 X.x1 i + at0 X.x2 i
  pm2 : P.pm2.length = k ∧ ∀ i, at0 P.pm2 i = at0 X.x0 i - 2 * at0 X.x1 i + 4 * at0 X.x2 i

theorem Evaluated.lengths {x : Vec} {k : Nat} {P : Points} (h : Evaluated k (pieces x k) P)
    (h2 : 2 * k ≤ x.length) (h3 : x.length ≤ 3 * k) : P.p0.length = k ∧ P.p1.length = k ∧
      P.pm1.length = k ∧ P.pm2.length = k ∧ P.pinf.length = x.length - 2 * k := by
  obtain ⟨l0, _, l2⟩ := pieces_length h2 h3
  exact ⟨h.p0 ▸ l0, h.p1.1, h.pm1.1, h.pm2.1, h.pinf ▸ l2⟩

/-- Evaluation stays below seven times the largest entry. -/
theorem evaluate_ok {M : Machine} {p : Vec → Int → Bool} {c k : ℕ} {X : Parts}
    (hl0 : X.x0.length = k) (hl1 : X.x1.length = k) (hl2 : X.x2.length ≤ k)
    (h0 : ∀ i, |at0 X.x0 i| ≤ c) (h1 : ∀ i, |at0 X.x1 i| ≤ c) (h2 : ∀ i, |at0 X.x2 i| ≤ c)
    (hM : ∀ v : ℤ, |v| ≤ 7 * c → M.long v = true) :
    ∃ P, evaluate (observedHelpers M p) X = .ok P ∧ Evaluated k X P := by
  have hb : ∀ i, (-c ≤ at0 X.x0 i ∧ at0 X.x0 i ≤ c) ∧ (-c ≤ at0 X.x1 i ∧ at0 X.x1 i ≤ c) ∧
      -c ≤ at0 X.x2 i ∧ at0 X.x2 i ≤ c := fun i =>
    ⟨abs_le.mp (h0 i), abs_le.mp (h1 i), abs_le.mp (h2 i)⟩
  have hM : ∀ v : ℤ, -(7 * c) ≤ v ∧ v ≤ 7 * c → M.long v = true := fun v hv => hM v (abs_le.mpr hv)
  -- the point 1
  obtain ⟨s, hs, hsl, hse⟩ := add_ok (M := M) (a := X.x2) (b := X.x1)
    fun i => hM _ (by have := hb i; omega)
  rw [hl1, Nat.max_eq_right hl2] at hsl
  obtain ⟨p1, hp1, hp1l, hp1e⟩ := add_ok (M := M) (a := s) (b := X.x0)
    fun i => hM _ (by have := hb i; rw [hse]; omega)
  rw [hsl, hl0, Nat.max_self] at hp1l
  -- the point -1
  obtain ⟨d, hd, hdl, hde⟩ := subtract_ok (M := M) (a := X.x2) (b := X.x1)
    fun i => hM _ (by have := hb i; omega)
  rw [hl1, Nat.max_eq_right hl2] at hdl
  obtain ⟨pm1, hpm1, hpm1l, hpm1e⟩ := add_ok (M := M) (a := d) (b := X.x0)
    fun i => hM _ (by have := hb i; rw [hde]; omega)
  rw [hdl, hl0, Nat.max_self] at hpm1l
  -- the point -2
  obtain ⟨t, ht, htl, hte⟩ := multiplyScalar_ok (M := M) (a := X.x1) (s := 2)
    fun i => hM _ (by have := hb i; omega)
  obtain ⟨e, he, hel, hee⟩ := subtract_ok (M := M) (a := X.x0) (b := t)
    fun i => hM _ (by have := hb i; rw [hte]; omega)
  rw [hl0, htl, hl1, Nat.max_self] at hel
  obtain ⟨q, hq, hql, hqe⟩ := multiplyScalar_ok (M := M) (a := X.x2) (s := 4)
    fun i => hM _ (by have := hb i; omega)
  obtain ⟨pm2, hpm2, hpm2l, hpm2e⟩ := add_ok (M := M) (a := e) (b := q)
    fun i => hM _ (by have := hb i; rw [hee, hte, hqe]; omega)
  rw [hel, hql, Nat.max_eq_left hl2] at hpm2l
  refine ⟨⟨X.x0, p1, pm1, pm2, X.x2⟩, ?_, rfl, rfl, ⟨hp1l, fun i => ?_⟩, ⟨hpm1l, fun i => ?_⟩,
    ⟨hpm2l, fun i => ?_⟩⟩
  · simp only [evaluate, observedHelpers, helpers, hs, ok_bind, hp1, hd, hpm1, ht, he, hq, hpm2,
      pure_eq_ok]
  · rw [hp1e, hse]
    ring
  · rw [hpm1e, hde]
    ring
  · rw [hpm2e, hee, hte, hqe]
    ring

/-! ## Interpolation -/

/-- From the values of `a0 + a1 X + a2 X ^ 2 + a3 X ^ 3 + a4 X ^ 4` at the five
points the interpolation finds `a1`, `a2` and `a3`. Each value on the way is a
linear combination of the `a`s, and each dividend is a multiple of its divisor. -/
theorem interpolate_ok {M : Machine} {p : Vec → Int → Bool}
    (hp : ∀ a s, (∀ i, s ∣ at0 a i) → p a s = true) {K n : ℕ} {R : Points}
    (a0 a1 a2 a3 a4 : Nat → ℤ)
    (hl0 : R.p0.length = n) (hl1 : R.p1.length = n) (hlm1 : R.pm1.length = n)
    (hlm2 : R.pm2.length = n) (hlinf : R.pinf.length ≤ n)
    (h0 : ∀ i, at0 R.p0 i = a0 i) (h1 : ∀ i, at0 R.p1 i = a0 i + a1 i + a2 i + a3 i + a4 i)
    (hm1 : ∀ i, at0 R.pm1 i = a0 i - a1 i + a2 i - a3 i + a4 i)
    (hm2 : ∀ i, at0 R.pm2 i = a0 i - 2 * a1 i + 4 * a2 i - 8 * a3 i + 16 * a4 i)
    (hinf : ∀ i, at0 R.pinf i = a4 i)
    (hb : ∀ i, |a0 i| ≤ K ∧ |a1 i| ≤ 2 * K ∧ |a2 i| ≤ 3 * K ∧ |a3 i| ≤ 2 * K ∧ |a4 i| ≤ K)
    (hM : ∀ v : ℤ, |v| ≤ 48 * K → M.long v = true) :
    ∃ r1 r2 r3, interpolate (observedHelpers M p) R = .ok (r1, r2, r3) ∧
      (r1.length = n ∧ ∀ i, at0 r1 i = a1 i) ∧ (r2.length = n ∧ ∀ i, at0 r2 i = a2 i) ∧
      r3.length = n ∧ ∀ i, at0 r3 i = a3 i := by
  have hb : ∀ i, (-K ≤ a0 i ∧ a0 i ≤ K) ∧ (-(2 * K) ≤ a1 i ∧ a1 i ≤ 2 * K) ∧
      (-(3 * K) ≤ a2 i ∧ a2 i ≤ 3 * K) ∧ (-(2 * K) ≤ a3 i ∧ a3 i ≤ 2 * K) ∧ -K ≤ a4 i ∧ a4 i ≤ K :=
    fun i => ⟨abs_le.mp (hb i).1, abs_le.mp (hb i).2.1, abs_le.mp (hb i).2.2.1,
      abs_le.mp (hb i).2.2.2.1, abs_le.mp (hb i).2.2.2.2⟩
  have hM : ∀ v : ℤ, -(48 * K) ≤ v ∧ v ≤ 48 * K → M.long v = true :=
    fun v hv => hM v (abs_le.mpr hv)
  -- `r3` before its correction
  obtain ⟨d3, hd3, hd3l, hd3e⟩ := subtract_ok (M := M) (a := R.pm2) (b := R.p1)
    fun i => hM _ (by have := hb i; rw [hm2, h1]; omega)
  rw [hlm2, hl1, Nat.max_self] at hd3l
  obtain ⟨q3, hq3, hq3l, hq3e⟩ := divideScalar_ok (M := M) hp (a := d3) (s := 3)
    (q := fun i => -a1 i + a2 i - 3 * a3 i + 5 * a4 i) (by decide)
    (fun i => by rw [hd3e, hm2, h1]; ring) fun i => hM _ (by have := hb i; omega)
  -- the sum of the odd coefficients
  obtain ⟨d1, hd1, hd1l, hd1e⟩ := subtract_ok (M := M) (a := R.p1) (b := R.pm1)
    fun i => hM _ (by have := hb i; rw [h1, hm1]; omega)
  rw [hl1, hlm1, Nat.max_self] at hd1l
  obtain ⟨q1, hq1, hq1l, hq1e⟩ := divideScalar_ok (M := M) hp (a := d1) (s := 2)
    (q := fun i => a1 i + a3 i) (by decide) (fun i => by rw [hd1e, h1, hm1]; ring)
    fun i => hM _ (by have := hb i; omega)
  obtain ⟨d2, hd2, hd2l, hd2e⟩ := subtract_ok (M := M) (a := R.pm1) (b := R.p0)
    fun i => hM _ (by have := hb i; rw [hm1, h0]; omega)
  rw [hlm1, hl0, Nat.max_self] at hd2l
  -- `r3`
  obtain ⟨d, hd, hdl, hde⟩ := subtract_ok (M := M) (a := d2) (b := q3)
    fun i => hM _ (by have := hb i; rw [hd2e, hq3e, hm1, h0]; omega)
  rw [hd2l, hq3l, hd3l, Nat.max_self] at hdl
  obtain ⟨q, hq, hql, hqe⟩ := divideScalar_ok (M := M) hp (a := d) (s := 2)
    (q := fun i => a3 i - 2 * a4 i) (by decide)
    (fun i => by rw [hde, hd2e, hq3e, hm1, h0]; ring) fun i => hM _ (by have := hb i; omega)
  obtain ⟨t, ht, htl, hte⟩ := multiplyScalar_ok (M := M) (a := R.pinf) (s := 2)
    fun i => hM _ (by have := hb i; rw [hinf]; omega)
  obtain ⟨r3, hr3, hr3l, hr3e⟩ := add_ok (M := M) (a := q) (b := t)
    fun i => hM _ (by have := hb i; rw [hqe, hte, hinf]; omega)
  rw [hql, hdl, htl, Nat.max_eq_left hlinf] at hr3l
  -- `r2` and `r1`
  obtain ⟨s, hs, hsl, hse⟩ := add_ok (M := M) (a := d2) (b := q1)
    fun i => hM _ (by have := hb i; rw [hd2e, hq1e, hm1, h0]; omega)
  rw [hd2l, hq1l, hd1l, Nat.max_self] at hsl
  obtain ⟨r2, hr2, hr2l, hr2e⟩ := subtract_ok (M := M) (a := s) (b := R.pinf)
    fun i => hM _ (by have := hb i; rw [hse, hd2e, hq1e, hm1, h0, hinf]; omega)
  rw [hsl, Nat.max_eq_left hlinf] at hr2l
  obtain ⟨r1, hr1, hr1l, hr1e⟩ := subtract_ok (M := M) (a := q1) (b := r3)
    fun i => hM _ (by have := hb i; rw [hq1e, hr3e, hqe, hte, hinf]; omega)
  rw [hq1l, hd1l, hr3l, Nat.max_self] at hr1l
  refine ⟨r1, r2, r3, ?_, ⟨hr1l, fun i => ?_⟩, ⟨hr2l, fun i => ?_⟩, hr3l, fun i => ?_⟩
  · simp only [interpolate, observedHelpers, helpers, hd3, ok_bind, hq3, hd1, hq1, hd2, hd, hq,
      ht, hr3, hs, hr2, hr1, pure_eq_ok]
  · rw [hr1e, hq1e, hr3e, hqe, hte, hinf]
    ring
  · rw [hr2e, hse, hd2e, hq1e, hm1, h0, hinf]
    ring
  · rw [hr3e, hqe, hte, hinf]
    ring

/-! ## Recombination -/

/-- Adding a shifted vector. -/
theorem addShift_ok {M : Machine} {a r : Vec} {n b c B : ℕ} (ha : Bounded ⊤ b (poly a))
    (hr : Bounded ⊤ c (poly r)) (hB : b + c ≤ B) (hM : ∀ v : ℤ, |v| ≤ B → M.long v = true) :
    ∃ s, add M a (zeros n ++ r) = .ok s ∧ s.length = max a.length (n + r.length) ∧
      poly s = poly a + X ^ n * poly r ∧ Bounded ⊤ (b + c) (poly s) := by
  have hshift : poly (zeros n ++ r) = X ^ n * poly r := by
    rw [poly_append, poly_zeros, zeros_length, zero_add]
  have hsum : Bounded ⊤ (b + c) (poly a + X ^ n * poly r) := ha.add (hr.shift n)
  have hcoeff : ∀ i, at0 a i + at0 (zeros n ++ r) i = (poly a + X ^ n * poly r).coeff i := by
    intro i
    rw [← hshift, coeff_add, coeff_poly, coeff_poly]
  obtain ⟨s, hs, hsl, hse⟩ := add_ok (M := M) (a := a) (b := zeros n ++ r) fun i => hM _ (by
    rw [hcoeff]
    exact ((hsum i).2).trans (by exact_mod_cast hB))
  have hp : poly s = poly a + X ^ n * poly r := by
    ext i
    rw [coeff_poly, hse, hcoeff]
  exact ⟨s, hs, by rw [hsl, List.length_append, zeros_length], hp, hp ▸ hsum⟩

theorem combine_ok {M : Machine} {p : Vec → Int → Bool} {K k : ℕ} (r0 r1 r2 r3 r4 : Vec)
    (hl0 : r0.length = 2 * k)
    (hl1 : r1.length = 2 * k) (hl2 : r2.length = 2 * k) (hl3 : r3.length = 2 * k)
    (hl4 : k ≤ r4.length) (h0 : Bounded ⊤ K (poly r0)) (h1 : Bounded ⊤ (2 * K) (poly r1))
    (h2 : Bounded ⊤ (3 * K) (poly r2)) (h3 : Bounded ⊤ (2 * K) (poly r3))
    (h4 : Bounded ⊤ K (poly r4)) (hM : ∀ v : ℤ, |v| ≤ (9 * K : ℕ) → M.long v = true)
    (hI : ∀ i ≤ 4 * k, M.int ((i : Nat) : Int) = true) :
    ∃ r, combine M (observedHelpers M p) k r0 r1 r2 r3 r4 = .ok r ∧ r.length = 4 * k + r4.length ∧
      poly r = poly r0 + X ^ k * poly r1 + X ^ (2 * k) * poly r2 + X ^ (3 * k) * poly r3 +
        X ^ (4 * k) * poly r4 := by
  have hi : ∀ i ≤ 4, M.intVal ((i : Nat) * (k : Int)) = .ok ((i * k : Nat) : Int) := by
    intro i hi
    rw [← Nat.cast_mul]
    exact intVal_ok (hI _ (Nat.mul_le_mul_right k hi))
  have hi2 := hi 2 (by omega)
  have hi3 := hi 3 (by omega)
  have hi4 := hi 4 (by omega)
  push_cast only [Nat.cast_ofNat] at hi2 hi3 hi4
  obtain ⟨s1, e1, l1, p1, b1⟩ := addShift_ok (n := k) h0 h1 (by omega) hM
  obtain ⟨s2, e2, l2, p2, b2⟩ := addShift_ok (n := 2 * k) b1 h2 (by omega) hM
  obtain ⟨s3, e3, l3, p3, b3⟩ := addShift_ok (n := 3 * k) b2 h3 (by omega) hM
  obtain ⟨s4, e4, l4, p4, _⟩ := addShift_ok (n := 4 * k) b3 h4 (by omega) hM
  refine ⟨s4, ?_, by omega, by rw [p4, p3, p2, p1]⟩
  rw [combine]
  simp only [observedHelpers, helpers, id, shift_ok, ok_bind, hi2, hi3, hi4, e1, e2, e3, e4]

/-! ## One call -/

/-- The coefficients of the product as a polynomial in `X ^ k`. -/
noncomputable def crossTerm (X Y : Parts) : Nat → ℤ[X]
  | 0 => poly X.x0 * poly Y.x0
  | 1 => poly X.x0 * poly Y.x1 + poly X.x1 * poly Y.x0
  | 2 => poly X.x0 * poly Y.x2 + poly X.x1 * poly Y.x1 + poly X.x2 * poly Y.x0
  | 3 => poly X.x1 * poly Y.x2 + poly X.x2 * poly Y.x1
  | _ => poly X.x2 * poly Y.x2

/-- **Toom-Cook's identity** at `X ^ k`. -/
theorem toomCook_identity {x y : Vec} {k : Nat} (hlen : y.length = x.length)
    (h2 : 2 * k ≤ x.length) (h3 : x.length ≤ 3 * k) :
    poly x * poly y = crossTerm (pieces x k) (pieces y k) 0 +
      X ^ k * crossTerm (pieces x k) (pieces y k) 1 +
      X ^ (2 * k) * crossTerm (pieces x k) (pieces y k) 2 +
      X ^ (3 * k) * crossTerm (pieces x k) (pieces y k) 3 +
      X ^ (4 * k) * crossTerm (pieces x k) (pieces y k) 4 := by
  rw [poly_pieces h2 h3, poly_pieces (x := y) (k := k) (by omega) (by omega)]
  simp only [crossTerm, pieces]
  ring

/-- No part has more than `k` entries, so each term has at most three sums of `k`
products. -/
theorem bounded_crossTerm {c k : ℕ} {x y : Vec} (hx : Entries ⊤ c x) (hy : Entries ⊤ c y) :
    Bounded ⊤ (k * (c * c)) (crossTerm (pieces x k) (pieces y k) 0) ∧
    Bounded ⊤ (2 * (k * (c * c))) (crossTerm (pieces x k) (pieces y k) 1) ∧
    Bounded ⊤ (3 * (k * (c * c))) (crossTerm (pieces x k) (pieces y k) 2) ∧
    Bounded ⊤ (2 * (k * (c * c))) (crossTerm (pieces x k) (pieces y k) 3) ∧
    Bounded ⊤ (k * (c * c)) (crossTerm (pieces x k) (pieces y k) 4) := by
  have hmul : ∀ i j, Bounded ⊤ (k * (c * c)) (poly (piece x k i) * poly (piece y k j)) :=
    fun i j => (bounded_mul_left (entries_piece hx k i) (entries_piece hy k j)).mono
      (Nat.mul_le_mul_right _ (by rw [piece_length]; omega))
  exact ⟨hmul 0 0, ((hmul 0 1).add (hmul 1 0)).mono (by omega),
    (((hmul 0 2).add (hmul 1 1)).add (hmul 2 0)).mono (by omega),
    ((hmul 1 2).add (hmul 2 1)).mono (by omega), hmul 2 2⟩

/-- A vector given entry by entry. -/
theorem poly_eq_of_forall {v : Vec} {p : ℤ[X]} (h : ∀ i, at0 v i = p.coeff i) : poly v = p := by
  ext i
  rw [coeff_poly, h]

theorem Evaluated.poly_p1 {k : Nat} {X : Parts} {P : Points} (h : Evaluated k X P) :
    poly P.p1 = poly X.x0 + poly X.x1 + poly X.x2 :=
  poly_eq_of_forall fun i => by simp only [h.p1.2, coeff_add, coeff_poly]

theorem Evaluated.poly_pm1 {k : Nat} {X : Parts} {P : Points} (h : Evaluated k X P) :
    poly P.pm1 = poly X.x0 - poly X.x1 + poly X.x2 :=
  poly_eq_of_forall fun i => by simp only [h.pm1.2, coeff_add, coeff_sub, coeff_poly]

theorem Evaluated.poly_pm2 {k : Nat} {X : Parts} {P : Points} (h : Evaluated k X P) :
    poly P.pm2 = poly X.x0 - 2 * poly X.x1 + 4 * poly X.x2 :=
  poly_eq_of_forall fun i => by
    simp only [h.pm2.2, coeff_add, coeff_sub, coeff_ofNat_mul, coeff_poly]

/-- The operands of the recursive calls are at most seven times larger. -/
theorem Evaluated.entries {k c : ℕ} {X : Parts} {P : Points} (h : Evaluated k X P)
    (h0 : Entries ⊤ c X.x0) (h1 : Entries ⊤ c X.x1) (h2 : Entries ⊤ c X.x2) :
    ∀ v ∈ [P.p0, P.p1, P.pm1, P.pm2, P.pinf], Entries ⊤ (7 * c) v := by
  have hb : ∀ i, (-c ≤ at0 X.x0 i ∧ at0 X.x0 i ≤ c) ∧ (-c ≤ at0 X.x1 i ∧ at0 X.x1 i ≤ c) ∧
      -c ≤ at0 X.x2 i ∧ at0 X.x2 i ≤ c := fun i =>
    ⟨abs_le.mp (h0.at0 i).2, abs_le.mp (h1.at0 i).2, abs_le.mp (h2.at0 i).2⟩
  have he : ∀ v : Vec, (∀ i, -(7 * c) ≤ at0 v i ∧ at0 v i ≤ 7 * c) → Entries ⊤ (7 * c) v :=
    fun v hv => entries_iff.mpr fun i => ⟨trivial, abs_le.mpr (by have := hv i; push_cast; omega)⟩
  simp only [List.forall_mem_cons, List.not_mem_nil, false_implies, implies_true, and_true]
  refine ⟨he _ fun i => ?_, he _ fun i => ?_, he _ fun i => ?_, he _ fun i => ?_, he _ fun i => ?_⟩
  · have := hb i
    rw [h.p0]
    omega
  · have := hb i
    rw [h.p1.2]
    omega
  · have := hb i
    rw [h.pm1.2]
    omega
  · have := hb i
    rw [h.pm2.2]
    omega
  · have := hb i
    rw [h.pinf]
    omega

/-- The products at the five points. -/
def convolvePoints (P Q : Points) : Points :=
  ⟨convolve P.p0 Q.p0, convolve P.p1 Q.p1, convolve P.pm1 Q.pm1, convolve P.pm2 Q.pm2,
    convolve P.pinf Q.pinf⟩

/-- The products of two whole parts, and those of the two rests. -/
theorem Evaluated.product_lengths {x y : Vec} {k : Nat} {P Q : Points}
    (hP : Evaluated k (pieces x k) P) (hQ : Evaluated k (pieces y k) Q)
    (hlen : y.length = x.length) (h2 : 2 * k ≤ x.length) (h3 : x.length ≤ 3 * k) :
    (convolvePoints P Q).p0.length = 2 * k ∧ (convolvePoints P Q).p1.length = 2 * k ∧
      (convolvePoints P Q).pm1.length = 2 * k ∧ (convolvePoints P Q).pm2.length = 2 * k ∧
      (convolvePoints P Q).pinf.length = 2 * (x.length - 2 * k) := by
  obtain ⟨p0, p1, pm1, pm2, pinf⟩ := hP.lengths h2 h3
  obtain ⟨q0, q1, qm1, qm2, qinf⟩ := hQ.lengths (hlen ▸ h2) (hlen ▸ h3)
  simp only [convolvePoints, convolve_length, p0, p1, pm1, pm2, pinf, q0, q1, qm1, qm2, qinf, hlen,
    two_mul, and_self]

/-- The products at the five points are the values of the terms. -/
theorem Evaluated.products {k : Nat} {X Y : Parts} {P Q : Points} (hP : Evaluated k X P)
    (hQ : Evaluated k Y Q) (i : Nat) :
    at0 (convolvePoints P Q).p0 i = (crossTerm X Y 0).coeff i ∧
    at0 (convolvePoints P Q).p1 i = (crossTerm X Y 0).coeff i + (crossTerm X Y 1).coeff i +
      (crossTerm X Y 2).coeff i + (crossTerm X Y 3).coeff i + (crossTerm X Y 4).coeff i ∧
    at0 (convolvePoints P Q).pm1 i = (crossTerm X Y 0).coeff i - (crossTerm X Y 1).coeff i +
      (crossTerm X Y 2).coeff i - (crossTerm X Y 3).coeff i + (crossTerm X Y 4).coeff i ∧
    at0 (convolvePoints P Q).pm2 i = (crossTerm X Y 0).coeff i - 2 * (crossTerm X Y 1).coeff i +
      4 * (crossTerm X Y 2).coeff i - 8 * (crossTerm X Y 3).coeff i +
      16 * (crossTerm X Y 4).coeff i ∧
    at0 (convolvePoints P Q).pinf i = (crossTerm X Y 4).coeff i := by
  have h1 : poly P.p1 * poly Q.p1 = crossTerm X Y 0 + crossTerm X Y 1 + crossTerm X Y 2 +
      crossTerm X Y 3 + crossTerm X Y 4 := by
    rw [hP.poly_p1, hQ.poly_p1]
    simp only [crossTerm]
    ring
  have hm1 : poly P.pm1 * poly Q.pm1 = crossTerm X Y 0 - crossTerm X Y 1 + crossTerm X Y 2 -
      crossTerm X Y 3 + crossTerm X Y 4 := by
    rw [hP.poly_pm1, hQ.poly_pm1]
    simp only [crossTerm]
    ring
  have hm2 : poly P.pm2 * poly Q.pm2 = crossTerm X Y 0 - 2 * crossTerm X Y 1 +
      4 * crossTerm X Y 2 - 8 * crossTerm X Y 3 + 16 * crossTerm X Y 4 := by
    rw [hP.poly_pm2, hQ.poly_pm2]
    simp only [crossTerm]
    ring
  simp only [convolvePoints]
  refine ⟨?_, ?_, ?_, ?_, ?_⟩
  · rw [at0_convolve, hP.p0, hQ.p0, crossTerm]
  · rw [at0_convolve, h1]
    simp only [coeff_add]
  · rw [at0_convolve, hm1]
    simp only [coeff_add, coeff_sub]
  · rw [at0_convolve, hm2]
    simp only [coeff_add, coeff_sub, coeff_ofNat_mul]
  · rw [at0_convolve, hP.pinf, hQ.pinf]
    rfl

/-- The five calls return the products, on operands of one length at most `k`. -/
theorem products_ok {rec : Vec → Vec → Run Vec} {x y : Vec} {c k : ℕ} {P Q : Points}
    (hlen : y.length = x.length) (h2 : 2 * k ≤ x.length) (h3 : x.length ≤ 3 * k)
    (hP : Evaluated k (pieces x k) P) (hQ : Evaluated k (pieces y k) Q) (hx : Entries ⊤ c x)
    (hy : Entries ⊤ c y)
    (hrec : ∀ u v : Vec, u.length = v.length → u.length ≤ k → Entries ⊤ (7 * c) u →
      Entries ⊤ (7 * c) v → rec u v = .ok (convolve u v)) :
    products rec x.length P Q = .ok (convolvePoints P Q) := by
  have hrest : x.length - 2 * k ≤ k := by omega
  obtain ⟨p0, p1, pm1, pm2, pinf⟩ := hP.lengths h2 h3
  obtain ⟨q0, q1, qm1, qm2, qinf⟩ := hQ.lengths (hlen ▸ h2) (hlen ▸ h3)
  rw [hlen] at qinf
  have hPb := hP.entries (entries_piece hx k 0) (entries_piece hx k 1) (entries_piece hx k 2)
  have hQb := hQ.entries (entries_piece hy k 0) (entries_piece hy k 1) (entries_piece hy k 2)
  rw [products,
    hrec P.p0 Q.p0 (p0.trans q0.symm) p0.le (hPb _ (by simp)) (hQb _ (by simp)), ok_bind,
    hrec P.p1 Q.p1 (p1.trans q1.symm) p1.le (hPb _ (by simp)) (hQb _ (by simp)), ok_bind,
    hrec P.pm1 Q.pm1 (pm1.trans qm1.symm) pm1.le (hPb _ (by simp)) (hQb _ (by simp)), ok_bind,
    hrec P.pm2 Q.pm2 (pm2.trans qm2.symm) pm2.le (hPb _ (by simp)) (hQb _ (by simp)), ok_bind,
    hrec P.pinf Q.pinf (pinf.trans qinf.symm) (pinf.trans_le hrest) (hPb _ (by simp))
      (hQb _ (by simp)), ok_bind, convolvePoints]

/-- Interpolation of the products finds the terms. -/
theorem interpolate_products {M : Machine} {p : Vec → Int → Bool}
    (hp : ∀ a s, (∀ i, s ∣ at0 a i) → p a s = true) {x y : Vec} {c k : ℕ} {P Q : Points}
    (hlen : y.length = x.length) (h2 : 2 * k ≤ x.length) (h3 : x.length ≤ 3 * k)
    (hP : Evaluated k (pieces x k) P) (hQ : Evaluated k (pieces y k) Q) (hx : Entries ⊤ c x)
    (hy : Entries ⊤ c y) (hM : ∀ v : ℤ, |v| ≤ (48 * (k * (c * c)) : ℕ) → M.long v = true) :
    ∃ r1 r2 r3, interpolate (observedHelpers M p) (convolvePoints P Q) = .ok (r1, r2, r3) ∧
      (r1.length = 2 * k ∧ poly r1 = crossTerm (pieces x k) (pieces y k) 1) ∧
      (r2.length = 2 * k ∧ poly r2 = crossTerm (pieces x k) (pieces y k) 2) ∧
      r3.length = 2 * k ∧ poly r3 = crossTerm (pieces x k) (pieces y k) 3 := by
  have hrest : 2 * (x.length - 2 * k) ≤ 2 * k := by omega
  obtain ⟨l0, l1, lm1, lm2, linf⟩ := hP.product_lengths hQ hlen h2 h3
  have hval := hP.products hQ
  obtain ⟨b0, b1, b2, b3, b4⟩ := bounded_crossTerm (k := k) hx hy
  set term := crossTerm (pieces x k) (pieces y k)
  obtain ⟨r1, r2, r3, hr, ⟨hl1, hc1⟩, ⟨hl2, hc2⟩, hl3, hc3⟩ := interpolate_ok (M := M) hp
    (K := k * (c * c)) (n := 2 * k) (R := convolvePoints P Q) (term 0).coeff (term 1).coeff
    (term 2).coeff (term 3).coeff (term 4).coeff l0 l1 lm1 lm2 (linf.trans_le hrest)
    (fun i => (hval i).1) (fun i => (hval i).2.1) (fun i => (hval i).2.2.1)
    (fun i => (hval i).2.2.2.1) (fun i => (hval i).2.2.2.2)
    (fun i => ⟨(b0 i).2, (b1 i).2, (b2 i).2, (b3 i).2, (b4 i).2⟩) hM
  exact ⟨r1, r2, r3, hr, ⟨hl1, poly_eq_of_forall hc1⟩, ⟨hl2, poly_eq_of_forall hc2⟩, hl3,
    poly_eq_of_forall hc3⟩

/-- One call above the threshold, whose recursive calls return the products,
returns the product. -/
theorem toomCookBody_ok {M : Machine} {p : Vec → Int → Bool}
    (hp : ∀ a s, (∀ i, s ∣ at0 a i) → p a s = true) {c k : ℕ} {rec : Vec → Vec → Run Vec}
    {x y : Vec} (hlen : y.length = x.length) (hk : k = (x.length + 2) / 3)
    (hlarge : toomCookThreshold < x.length) (hx : Entries ⊤ c x) (hy : Entries ⊤ c y)
    (hM : ∀ v : ℤ, |v| ≤ (48 * (k * (c * c)) : ℕ) → M.long v = true)
    (hI : ∀ i ≤ 4 * k, M.int ((i : Nat) : Int) = true)
    (hT : ∀ i ≤ 4 * k, M.toInt ((i : Nat) : Int) = i)
    (hrec : ∀ u v : Vec, u.length = v.length → u.length ≤ k → Entries ⊤ (7 * c) u →
      Entries ⊤ (7 * c) v → rec u v = .ok (convolve u v)) :
    toomCookBody M (observedHelpers M p) (products rec) x y = .ok (convolve x y) := by
  have h64 : 64 < x.length := hlarge
  have h2 : 2 * k ≤ x.length := by omega
  have h3 : x.length ≤ 3 * k := by omega
  have hrest : k ≤ 2 * (x.length - 2 * k) ∧ 4 * k + 2 * (x.length - 2 * k) = 2 * x.length := by
    omega
  have hcc : c ≤ c * c := Nat.le_mul_self c
  have hkcc : c * c ≤ k * (c * c) := Nat.le_mul_of_pos_left _ (by omega)
  have hM' : ∀ b : ℕ, b ≤ 48 * (k * (c * c)) → ∀ v : ℤ, |v| ≤ b → M.long v = true :=
    fun b hb v hv => hM v (hv.trans (by exact_mod_cast hb))
  -- the operands at the five points
  have heval : ∀ z : Vec, z.length = x.length → Entries ⊤ c z →
      ∃ P, evaluate (observedHelpers M p) (pieces z k) = .ok P ∧ Evaluated k (pieces z k) P := by
    intro z hz hze
    obtain ⟨l0, l1, l2⟩ := pieces_length (x := z) (k := k) (by omega) (by omega)
    exact evaluate_ok l0 l1 (l2.trans_le (by omega)) (fun i => ((entries_piece hze k 0).at0 i).2)
      (fun i => ((entries_piece hze k 1).at0 i).2) (fun i => ((entries_piece hze k 2).at0 i).2)
      (hM' (7 * c) (by omega))
  obtain ⟨P, hP, hPe⟩ := heval x rfl hx
  obtain ⟨Q, hQ, hQe⟩ := heval y hlen hy
  -- their products, interpolated
  have hR := products_ok hlen h2 h3 hPe hQe hx hy hrec
  obtain ⟨r1, r2, r3, hr, ⟨hl1, hp1⟩, ⟨hl2, hp2⟩, hl3, hp3⟩ :=
    interpolate_products hp hlen h2 h3 hPe hQe hx hy hM
  have hp0 := poly_eq_of_forall fun i => (hPe.products hQe i).1
  have hp4 := poly_eq_of_forall fun i => (hPe.products hQe i).2.2.2.2
  -- the sum of the shifted terms
  obtain ⟨l0, _, _, _, linf⟩ := hPe.product_lengths hQe hlen h2 h3
  obtain ⟨b0, b1, b2, b3, b4⟩ := bounded_crossTerm (k := k) hx hy
  obtain ⟨r, hcomb, hrl, hrp⟩ := combine_ok (M := M) (p := p) (K := k * (c * c)) (k := k)
    (convolvePoints P Q).p0 r1 r2 r3 (convolvePoints P Q).pinf l0 hl1 hl2 hl3
    (hrest.1.trans_eq linf.symm) (hp0 ▸ b0) (hp1 ▸ b1) (hp2 ▸ b2) (hp3 ▸ b3) (hp4 ▸ b4)
    (hM' _ (Nat.mul_le_mul_right _ (by norm_num))) hI
  rw [hp0, hp1, hp2, hp3, hp4, ← toomCook_identity hlen h2 h3] at hrp
  have hrl' : r.length = x.length + y.length := by
    rw [hrl, linf, hrest.2, hlen, two_mul]
  have hsplit : ∀ z : Vec, z.length = x.length → split M k z = .ok (pieces z k) := fun z hz =>
    split_ok (by omega) hI (hT _ (by omega))
  rw [toomCookBody, if_neg (Nat.not_le.mpr hlarge), ← hk, hT k (by omega)]
  simp only [observedHelpers, helpers, id] at hP hQ hr hcomb ⊢
  simp only [hsplit x rfl, hsplit y hlen, hP, hQ, hR, hr, ok_bind]
  rw [hcomb, eq_convolve hrl' hrp]

/-! ## The recursion -/

/-- A bound on the values of a run on vectors of length at most `n`, with entries
up to `c`, that recurses at most `e` levels deep. -/
def toomBound : Nat → Nat → Nat → Nat
  | 0, n, c => n * (c * c)
  | e + 1, n, c =>
    max (n * (c * c)) (max (48 * ((n + 2) / 3 * (c * c))) (toomBound e ((n + 2) / 3) (7 * c)))

/-- Leaves of the recursion stay below the bound. -/
theorem leaf_le_toomBound (e n c : Nat) : n * (c * c) ≤ toomBound e n c := by
  cases e with
  | zero => exact Nat.le_refl _
  | succ e => exact Nat.le_max_left _ _

/-- **Toom-Cook on lengths up to `64 * 3 ^ e`.** A machine that holds all values
up to `toomBound e n c` computes the product, whatever observer accepts calls on
two vectors of one length and divisions without remainder. The recursion is at most
`e` levels deep. -/
theorem recurse_toomCook_ok {M : Machine} {B : ℕ} (hM : ∀ v : ℤ, |v| ≤ B → M.long v = true)
    {p : Vec → Int → Bool} (hp : ∀ a s, (∀ i, s ∣ at0 a i) → p a s = true)
    {ok : Nat → Vec → Vec → Bool} (hok : ∀ d u v, u.length = v.length → ok d u v = true)
    (e n c d fuel : ℕ) (hn : n ≤ 64 * 3 ^ e) (hB : toomBound e n c ≤ B)
    (hI : ∀ i ≤ 4 * n, M.int ((i : Nat) : Int) = true)
    (hT : ∀ i ≤ 4 * n, M.toInt ((i : Nat) : Int) = i) {x y : Vec} (hx : x.length ≤ n)
    (hlen : y.length = x.length) (hf : e < fuel ∨ x.length < fuel)
    (hxe : Entries ⊤ c x) (hye : Entries ⊤ c y) :
    recurse ok (fun rec => toomCookBody M (observedHelpers M p) (products rec)) fuel d x y =
      .ok (convolve x y) := by
  induction e generalizing n c d fuel x y with
  | zero =>
    cases fuel with
    | zero => omega
    | succ f =>
      rw [recurse_succ _ _ _ _ _ _ (hok d x y hlen.symm), toomCookBody,
        if_pos (by rw [toomCookThreshold]; omega)]
      refine naiveMulVector_ok hlen hxe hye fun v _ hv => hM v (hv.trans ?_)
      exact_mod_cast (Nat.mul_le_mul_right _ hx).trans hB
  | succ e ih =>
    cases fuel with
    | zero => omega
    | succ f =>
      rw [recurse_succ _ _ _ _ _ _ (hok d x y hlen.symm)]
      by_cases hlarge : x.length ≤ toomCookThreshold
      · rw [toomCookBody, if_pos hlarge]
        refine naiveMulVector_ok hlen hxe hye fun v _ hv => hM v (hv.trans ?_)
        exact_mod_cast (Nat.mul_le_mul_right _ hx).trans ((leaf_le_toomBound (e + 1) n c).trans hB)
      · have h64 : 64 < x.length := Nat.not_le.mp hlarge
        have hkn : (x.length + 2) / 3 ≤ (n + 2) / 3 := Nat.div_le_div_right (by omega)
        rw [toomBound] at hB
        refine toomCookBody_ok hp hlen rfl h64 hxe hye (fun v hv => hM v (hv.trans ?_))
          (fun i hi => hI i (by omega)) (fun i hi => hT i (by omega)) fun u v huv hu hue hve => ?_
        · have hk : 48 * ((x.length + 2) / 3 * (c * c)) ≤ 48 * ((n + 2) / 3 * (c * c)) :=
            Nat.mul_le_mul_left 48 (Nat.mul_le_mul_right (c * c) hkn)
          exact_mod_cast hk.trans (by omega)
        · exact ih ((n + 2) / 3) (7 * c) (d + 1) f (by rw [pow_succ] at hn; omega) (by omega)
            (fun i hi => hI i (by omega)) (fun i hi => hT i (by omega)) (by omega) huv.symm
            (by omega) hue hve

/-! ## Decimal digits -/

/-- The bound for `2 ^ 20` digits stays below `2 ^ 63`. -/
theorem toomBound_digits : toomBound 9 (2 ^ 20) 9 < 2 ^ 63 := by decide

/-- On `2 ^ p` digits, `p ≤ 20`, no value leaves the 64-bit range, and nine levels of
recursion are enough. -/
theorem recurse_toomCook_digits {M : Machine} (hM : ∀ v : ℤ, |v| < 2 ^ 63 → M.long v = true)
    (hI : ∀ i ≤ 2 ^ 22, M.int ((i : Nat) : Int) = true)
    (hT : ∀ i ≤ 2 ^ 22, M.toInt ((i : Nat) : Int) = i) {S : Subsemiring ℤ} {p fuel : Nat}
    (h20 : p ≤ 20) {x y : Vec} (hx : x.length = 2 ^ p) (hy : y.length = 2 ^ p)
    (hf : 9 < fuel ∨ x.length < fuel) (hxe : Entries S 9 x) (hye : Entries S 9 y) :
    recurse anyCall (fun rec => toomCookBody M (helpers M) (products rec)) fuel 0 x y =
      .ok (convolve x y) := by
  have hpow : 2 ^ p ≤ 2 ^ 20 := Nat.pow_le_pow_right (by omega) h20
  exact recurse_toomCook_ok (fun v hv => hM v (hv.trans_lt (by exact_mod_cast toomBound_digits)))
    (fun _ _ _ => rfl) (fun _ _ _ _ => rfl) 9 (2 ^ 20) 9 0 _ (by decide) (Nat.le_refl _)
    (fun i hi => hI i (by omega)) (fun i hi => hT i (by omega)) (hx.trans_le hpow)
    (hy.trans hx.symm) hf (Bounded.top hxe) (Bounded.top hye)

theorem recurse_toomCook_lp64 {S : Subsemiring ℤ} {p fuel : Nat} (h20 : p ≤ 20) {x y : Vec}
    (hx : x.length = 2 ^ p) (hy : y.length = 2 ^ p) (hf : 9 < fuel ∨ x.length < fuel)
    (hxe : Entries S 9 x) (hye : Entries S 9 y) :
    recurse anyCall (fun rec => toomCookBody .lp64 (helpers .lp64) (products rec)) fuel 0 x y =
      .ok (convolve x y) :=
  recurse_toomCook_digits lp64_long
    (fun i hi => lp64_int _ (by rw [abs_of_nonneg (by omega)]; omega))
    (fun i hi => lp64_toInt _ (by rw [abs_of_nonneg (by omega)]; omega)) h20 hx hy hf hxe hye

theorem toomCookMulVector_lp64 {S : Subsemiring ℤ} {p : Nat} (h20 : p ≤ 20) {x y : Vec}
    (hx : x.length = 2 ^ p) (hy : y.length = 2 ^ p) (hxe : Entries S 9 x) (hye : Entries S 9 y) :
    toomCookMulVector .lp64 x y = .ok (convolve x y) :=
  recurse_toomCook_lp64 h20 hx hy (.inr (Nat.lt_succ_self _)) hxe hye

/-! ## Exact integers -/

/-- The observer of calls on two vectors of one length. -/
def sameLength (_ : Nat) (u v : Vec) : Bool := decide (u.length = v.length)

/-- The observer of divisions without remainder. -/
def dividesAll (a : Vec) (scalar : Int) : Bool := a.all fun v => decide (scalar ∣ v)

theorem dividesAll_of_forall (a : Vec) (s : Int) (h : ∀ i, s ∣ at0 a i) :
    dividesAll a s = true := by
  refine List.all_eq_true.mpr fun v hv => decide_eq_true ?_
  obtain ⟨i, hi, rfl⟩ := List.getElem_of_mem hv
  rw [← at0_eq_getElem hi]
  exact h i

/-- The run on exact integers, whatever its observers. -/
theorem recurse_toomCook_exact {p : Vec → Int → Bool}
    (hp : ∀ a s, (∀ i, s ∣ at0 a i) → p a s = true) {ok : Nat → Vec → Vec → Bool}
    (hok : ∀ d u v, u.length = v.length → ok d u v = true) {x y : Vec}
    (hlen : y.length = x.length) {e fuel : Nat} (hn : x.length ≤ 64 * 3 ^ e)
    (hf : e < fuel ∨ x.length < fuel) :
    recurse ok (fun rec => toomCookBody .exact (observedHelpers .exact p) (products rec))
      fuel 0 x y = .ok (convolve x y) := by
  obtain ⟨b, hbx, hby⟩ := exists_common_entries x y
  exact recurse_toomCook_ok (fun _ _ => rfl) hp hok e x.length _ 0 _ hn (Nat.le_refl _)
    (fun _ _ => rfl) (fun _ _ => rfl) (Nat.le_refl _) hlen hf hbx hby

/-- No length needs more levels than it has entries. -/
theorem length_le_levels (n : Nat) : n ≤ 64 * 3 ^ n := by
  have h3 : n < 3 ^ n := Nat.lt_pow_self (by decide)
  omega

theorem toomCookMulVector_exact {x y : Vec} (hlen : y.length = x.length) :
    toomCookMulVector .exact x y = .ok (convolve x y) :=
  recurse_toomCook_exact (fun _ _ _ => rfl) (fun _ _ _ _ => rfl) hlen (length_le_levels _)
    (.inr (Nat.lt_succ_self _))

/-- **Toom-Cook multiplies vectors of every length.** Over exact integers the run
ends in bounds, each call of it gets two vectors of one length, each division of
it leaves no remainder in any entry, and it returns the product, which is what
`naive_mul_vector` returns. -/
theorem toomCookMulVector_convolve (n : Nat) (x y : Vec) (hx : x.length = n) (hy : y.length = n) :
    ∃ r, toomCookMulVector .exact x y = .ok r ∧
      recurse sameLength (fun rec => toomCookBody .exact (observedHelpers .exact dividesAll)
        (products rec)) (x.length + 1) 0 x y = .ok r ∧
      IsProduct n x y r ∧ naiveMulVector .exact x y = .ok r := by
  have hlen : y.length = x.length := hy.trans hx.symm
  exact ⟨convolve x y, toomCookMulVector_exact hlen,
    recurse_toomCook_exact dividesAll_of_forall (fun _ _ _ h => decide_eq_true h) hlen
      (length_le_levels _) (.inr (Nat.lt_succ_self _)),
    isProduct_convolve hx hy, naiveMulVector_exact hlen⟩

/-- A length that three does not divide. -/
theorem toomCookMulVector_convolve_100 :
    ∃ r, toomCookMulVector .exact (List.replicate 100 (-7)) (List.replicate 100 5) = .ok r ∧
      IsProduct 100 (List.replicate 100 (-7)) (List.replicate 100 5) r := by
  obtain ⟨r, hr, _, hp, _⟩ := toomCookMulVector_convolve 100 (List.replicate 100 (-7))
    (List.replicate 100 5) List.length_replicate List.length_replicate
  exact ⟨r, hr, hp⟩

end BigintMultiply.SeqToomCook
