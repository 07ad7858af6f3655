import Mathlib.Data.List.GetD
import BigintMultiply.Library.Checked

/-! Vectors of integers with checked indexing, and what a loop that writes one
cell in each iteration leaves behind. -/

namespace BigintMultiply.Vectors
open Checked

abbrev Vec := List Int

/-- The entry at `i`, zero past the end. -/
def at0 (v : Vec) (i : Nat) : Int := v.getD i 0

/-- `v[i]` as an rvalue. -/
def load (v : Vec) (i : Nat) : Run Int :=
  if i < v.length then .ok (at0 v i) else .error .outOfBounds

/-- `v[i] = a`. -/
def store (v : Vec) (i : Nat) (a : Int) : Run Vec :=
  if i < v.length then .ok (v.set i a) else .error .outOfBounds

/-- The vector built from the iterators `v.begin() + lo` and `v.begin() + hi`. -/
def slice (v : Vec) (lo hi : Int) : Run Vec :=
  if 0 ≤ lo ∧ lo ≤ hi ∧ hi ≤ v.length then .ok ((v.drop lo.toNat).take (hi - lo).toNat)
  else .error .outOfBounds

/-- `v` of `n` zeros. -/
def zeros (n : Nat) : Vec := List.replicate n 0

/-- `v.resize(n, 0)`. -/
def resizeTo (v : Vec) (n : Nat) : Vec := v.take n ++ zeros (n - v.length)

/-- The vector `f 0, …, f (n - 1)`. -/
def tabulate (n : Nat) (f : Nat → Int) : Vec := (List.range n).map f

/-- `v` with the `n` cells from `off` on replaced by `g 0, …, g (n - 1)`. -/
def splice (v : Vec) (off n : Nat) (g : Nat → Int) : Vec :=
  v.mapIdx fun m a => if off ≤ m ∧ m < off + n then g (m - off) else a

/-- `v` with `w` added from offset `off` on; what falls past the end is dropped. -/
def addAt (v : Vec) (off : Nat) (w : Vec) : Vec :=
  v.mapIdx fun m a => if off ≤ m then a + at0 w (m - off) else a

theorem load_ok {v : Vec} {i : Nat} (h : i < v.length) : load v i = .ok (at0 v i) := by
  simp [load, h]

theorem load_error {v : Vec} {i : Nat} (h : v.length ≤ i) : load v i = .error .outOfBounds := by
  simp [load, Nat.not_lt.mpr h]

theorem store_ok {v : Vec} {i : Nat} (a : Int) (h : i < v.length) :
    store v i a = .ok (v.set i a) := by
  simp [store, h]

theorem load_eq_ok {v : Vec} {i : Nat} {a : Int} (h : load v i = .ok a) :
    a = at0 v i ∧ i < v.length := by
  unfold load at h
  split at h
  · exact ⟨(Except.ok.inj h).symm, by assumption⟩
  · cases h

theorem slice_ok (v : Vec) (lo hi : Nat) (h : lo ≤ hi) (hv : hi ≤ v.length) :
    slice v lo hi = .ok ((v.drop lo).take (hi - lo)) := by
  unfold slice
  rw [if_pos ⟨by omega, by omega, by omega⟩]
  congr 2
  omega

theorem slice_take (v : Vec) (k : Nat) (h : k ≤ v.length) :
    slice v 0 k = .ok (v.take k) := by
  simpa using slice_ok v 0 k (by omega) h

theorem slice_drop (v : Vec) (k : Nat) (h : k ≤ v.length) :
    slice v k v.length = .ok (v.drop k) := by
  rw [slice_ok v k v.length h (Nat.le_refl _), List.take_of_length_le (by simp)]

@[simp] theorem zeros_length (n : Nat) : (zeros n).length = n := by simp [zeros]
@[simp] theorem tabulate_length (n : Nat) (f : Nat → Int) : (tabulate n f).length = n := by
  simp [tabulate]
@[simp] theorem splice_length (v : Vec) (off n : Nat) (g : Nat → Int) :
    (splice v off n g).length = v.length := by simp [splice]
@[simp] theorem addAt_length (v w : Vec) (off : Nat) : (addAt v off w).length = v.length := by
  simp [addAt]
@[simp] theorem resizeTo_length (v : Vec) (n : Nat) : (resizeTo v n).length = n := by
  simp [resizeTo]; omega

theorem at0_eq_zero {v : Vec} {i : Nat} (h : v.length ≤ i) : at0 v i = 0 :=
  List.getD_eq_default v 0 h

theorem at0_eq_getElem {v : Vec} {i : Nat} (h : i < v.length) : at0 v i = v[i] :=
  List.getD_eq_getElem v 0 h

theorem at0_mem {v : Vec} {i : Nat} (h : i < v.length) : at0 v i ∈ v := by
  rw [at0_eq_getElem h]
  exact List.getElem_mem h

/-- Vectors of one length with the same entries are equal. -/
theorem vec_ext {v w : Vec} (hl : v.length = w.length)
    (h : ∀ i < v.length, at0 v i = at0 w i) : v = w := by
  apply List.ext_getElem hl
  intro i hv hw
  have := h i hv
  rwa [at0_eq_getElem hv, at0_eq_getElem hw] at this

@[simp] theorem at0_nil (i : Nat) : at0 [] i = 0 := rfl

@[simp] theorem at0_zeros (n i : Nat) : at0 (zeros n) i = 0 := by
  by_cases h : i < n
  · rw [at0_eq_getElem (by simpa using h)]
    simp [zeros]
  · exact at0_eq_zero (by simpa using h)

theorem at0_tabulate (n : Nat) (f : Nat → Int) (i : Nat) :
    at0 (tabulate n f) i = if i < n then f i else 0 := by
  by_cases h : i < n
  · rw [at0_eq_getElem (by simpa using h), if_pos h]
    simp [tabulate]
  · rw [at0_eq_zero (by simpa using h), if_neg h]

theorem at0_set (v : Vec) (j : Nat) (a : Int) (i : Nat) (hj : j < v.length) :
    at0 (v.set j a) i = if i = j then a else at0 v i := by
  by_cases hi : i < v.length
  · rw [at0_eq_getElem (by simpa using hi), at0_eq_getElem hi, List.getElem_set]
    grind
  · rw [at0_eq_zero (by simpa using hi), at0_eq_zero (by omega), if_neg (by omega)]

theorem at0_splice (v : Vec) (off n : Nat) (g : Nat → Int) (i : Nat) (h : off + n ≤ v.length) :
    at0 (splice v off n g) i = if off ≤ i ∧ i < off + n then g (i - off) else at0 v i := by
  by_cases hi : i < v.length
  · rw [at0_eq_getElem (by simpa using hi), at0_eq_getElem hi]
    simp [splice]
  · rw [at0_eq_zero (by simpa using hi), at0_eq_zero (by omega), if_neg (by omega)]

theorem at0_addAt (v w : Vec) (off i : Nat) (h : i < v.length) :
    at0 (addAt v off w) i = at0 v i + if off ≤ i then at0 w (i - off) else 0 := by
  rw [at0_eq_getElem (by simpa using h), at0_eq_getElem h]
  simp only [addAt, List.getElem_mapIdx]
  split <;> simp

theorem at0_append (v w : Vec) (i : Nat) :
    at0 (v ++ w) i = if i < v.length then at0 v i else at0 w (i - v.length) := by
  split
  · exact List.getD_append v w 0 i (by assumption)
  · exact List.getD_append_right v w 0 i (by omega)

theorem at0_map {f : Int → Int} (h0 : f 0 = 0) (v : Vec) (i : Nat) :
    at0 (v.map f) i = f (at0 v i) := by
  have h := List.getD_map (l := v) (d := 0) (n := i) f
  rwa [h0] at h

theorem at0_take (v : Vec) (k i : Nat) : at0 (v.take k) i = if i < k then at0 v i else 0 := by
  simp only [at0, List.getD_eq_getElem?_getD, List.getElem?_take]
  split <;> rfl

theorem at0_drop (v : Vec) (k i : Nat) : at0 (v.drop k) i = at0 v (k + i) := by
  simp [at0, List.getD_eq_getElem?_getD]

/-- Padding with zeros changes no entry. -/
theorem at0_resizeTo (v : Vec) (n i : Nat) (h : v.length ≤ n) : at0 (resizeTo v n) i = at0 v i := by
  rw [resizeTo, List.take_of_length_le h, at0_append]
  split
  · rfl
  · rw [at0_zeros, at0_eq_zero (by omega)]

theorem splice_zero (v : Vec) (off : Nat) (g : Nat → Int) : splice v off 0 g = v := by
  refine vec_ext (by simp) fun i hi => ?_
  by_cases h : off ≤ v.length
  · rw [at0_splice v off 0 g i (by omega), if_neg (by omega)]
  · rw [at0_eq_getElem hi, at0_eq_getElem (by simpa using hi)]
    simp only [splice, List.getElem_mapIdx]
    rw [if_neg (by omega)]

theorem splice_succ (v : Vec) (off n : Nat) (g : Nat → Int) (h : off + n < v.length) :
    (splice v off n g).set (off + n) (g n) = splice v off (n + 1) g := by
  refine vec_ext (by simp) fun i hi => ?_
  rw [at0_set _ _ _ _ (by simpa using h), at0_splice v off n g i (by omega),
    at0_splice v off (n + 1) g i (by omega)]
  by_cases h1 : i = off + n
  · subst h1
    rw [if_pos rfl, if_pos (by omega), Nat.add_sub_cancel_left]
  · rw [if_neg h1]
    by_cases h2 : off ≤ i ∧ i < off + n
    · rw [if_pos h2, if_pos (by omega)]
    · rw [if_neg h2, if_neg (by omega)]

/-- Replacing every cell is building the vector from its entries. -/
theorem splice_all (v : Vec) (g : Nat → Int) :
    splice v 0 v.length g = tabulate v.length g := by
  refine vec_ext (by simp) fun i hi => ?_
  have hi' : i < v.length := by simpa using hi
  rw [at0_splice v 0 v.length g i (by omega), at0_tabulate, if_pos (by omega), if_pos hi',
    Nat.sub_zero]

theorem splice_congr (v : Vec) (off n : Nat) {f g : Nat → Int} (h : ∀ i < n, f i = g i) :
    splice v off n f = splice v off n g := by
  apply List.ext_getElem (by simp)
  intro i hi _
  simp only [splice, List.getElem_mapIdx]
  split
  · rw [h _ (by omega)]
  · rfl

/-- Adding cell by cell to the part of `v` from `off` on. -/
theorem splice_eq_addAt (v w : Vec) (off : Nat) (h : off + w.length ≤ v.length) :
    splice v off w.length (fun j => at0 v (off + j) + at0 w j) = addAt v off w := by
  refine vec_ext (by simp) fun i hi => ?_
  rw [at0_splice v off _ _ i h, at0_addAt v w off i (by simpa using hi)]
  by_cases h1 : off ≤ i
  · rw [if_pos h1]
    by_cases h2 : i < off + w.length
    · rw [if_pos ⟨h1, h2⟩, show off + (i - off) = i by omega]
    · rw [if_neg (by omega), at0_eq_zero (v := w) (by omega), add_zero]
  · rw [if_neg (by omega), if_neg h1, add_zero]

/-- A sum of entries is an entry of the sum, also past the end of both. -/
theorem at0_add_at0 (v w : Vec) (off i : Nat) (h : v.length ≤ i + off → w.length ≤ i) :
    at0 v (i + off) + at0 w i = at0 (addAt v off w) (i + off) := by
  by_cases hi : i + off < v.length
  · rw [at0_addAt _ _ _ _ hi, if_pos (by omega), Nat.add_sub_cancel]
  · rw [at0_eq_zero (by omega), at0_eq_zero (h (by omega)),
      at0_eq_zero (by rw [addAt_length]; omega), add_zero]

/-! ## Loops that write one cell in each iteration -/

/-- The cells `off, …, off + n - 1` are written in turn. Iteration `i` may read
its own cell, which still has the value it had before the loop. -/
theorem forLoop_splice (v : Vec) (off n : Nat) (g : Nat → Int) (body : Nat → Vec → Run Vec)
    (hv : off + n ≤ v.length)
    (h : ∀ i < n, ∀ w : Vec, w.length = v.length → at0 w (off + i) = at0 v (off + i) →
      body i w = .ok (w.set (off + i) (g i))) :
    forLoop n body v = .ok (splice v off n g) := by
  have ht := forLoop_trace n body (fun i => splice v off i g) (fun i hi => by
    rw [h i hi _ (by simp) (by rw [at0_splice v off i g _ (by omega), if_neg (by omega)]),
      splice_succ v off i g (by omega)])
  simpa only [splice_zero] using ht

/-- The same for a loop whose counter is an `int`. -/
theorem intLoop_splice (M : Machine) (v : Vec) (off n : Nat) (g : Nat → Int)
    (body : Nat → Vec → Run Vec) (hM : ∀ i ≤ n, M.int (i : Int) = true) (hv : off + n ≤ v.length)
    (h : ∀ i < n, ∀ w : Vec, w.length = v.length → at0 w (off + i) = at0 v (off + i) →
      body i w = .ok (w.set (off + i) (g i))) :
    intLoop M n body v = .ok (splice v off n g) := by
  have ht := intLoop_trace M n body (fun i => splice v off i g) hM (fun i hi => by
    rw [h i hi _ (by simp) (by rw [at0_splice v off i g _ (by omega), if_neg (by omega)]),
      splice_succ v off i g (by omega)])
  simpa only [splice_zero] using ht

end BigintMultiply.Vectors
