import BigintMultiply.Utils
import BigintMultiply.Library.Numeral

/-! The operands of the test program: `random_bigint` and `truncate_display` of
`utils.cpp`.

* `randomBigint_range`: over all digit streams `random_bigint` yields exactly the
  decimals of its length without a leading zero;
* `truncateDisplay_eq_ok`: when `truncate_display` returns and what it returns. -/

namespace BigintMultiply.Operands
open Checked Decimal Utils Numeral

/-- The digits that the calls of `digit_dist(rng)` yield, in turn. -/
abbrev Draws := Nat → Fin 10

/-- `digit_dist(rng)` after `k` calls: the digit and the number of calls then. -/
def digitDist (draws : Draws) (k : Nat) : Int × Nat := ((draws k).val, k + 1)

/-- Iteration `i` of the loop of `random_bigint`. -/
def pushDigit (draws : Draws) (_i : Nat) (st : Str × Nat) : Id (Str × Nat) :=
  let (d, k) := digitDist draws st.2
  pure (st.1 ++ [toChar (48 + d)], k)

/-- `random_bigint` after `k` draws: the string and the number of draws then. -/
def randomBigint (draws : Draws) (len k : Nat) : Str × Nat :=
  let (d, k) := digitDist draws k
  let s := [toChar (49 + d.tmod 9)]
  Id.run (forRange 1 len (pushDigit draws) (s, k))

/-- `s.substr(pos, n)`. -/
def substr (s : Str) (pos n : Nat) : Run Str :=
  if pos ≤ s.length then .ok ((s.drop pos).take n) else .error .outOfBounds

def truncateThreshold : Nat := 100

def truncateDisplay (s : Str) (head tail : Nat) : Run Str := do
  if s.length ≤ truncateThreshold then .ok s
  else
    let front ← substr s 0 head
    let back ← substr s (sizeSub s.length tail) s.length
    .ok (front ++ text "..." ++ back)

/-! ## `random_bigint` -/

/-- The characters of `random_bigint` when its first digit is draw `k`. -/
def randomChars (draws : Draws) (len k : Nat) : Str :=
  toChar (49 + ((draws k).val : Int).tmod 9) ::
    (List.range (len - 1)).map fun i => toChar (48 + ((draws (k + 1 + i)).val : Int))

theorem forLoop_pushDigit (draws : Draws) (n : Nat) (s : Str) (k : Nat) :
    Id.run (forLoop n (fun i => pushDigit draws (1 + i)) (s, k)) =
      (s ++ (List.range n).map fun i => toChar (48 + ((draws (k + i)).val : Int)), k + n) := by
  induction n with
  | zero => simp [forLoop]
  | succ n ih =>
    change Id.run (pushDigit draws (1 + n)
      (Id.run (forLoop n (fun i => pushDigit draws (1 + i)) (s, k)))) = _
    rw [ih, List.range_succ, List.map_append, ← List.append_assoc]
    rfl

/-- A call draws one digit for each character. -/
theorem randomBigint_eq (draws : Draws) (len k : Nat) :
    randomBigint draws len k = (randomChars draws len k, k + max len 1) := by
  refine (forLoop_pushDigit draws (len - 1) _ (k + 1)).trans (Prod.ext rfl ?_)
  change k + 1 + (len - 1) = k + max len 1
  omega

theorem randomChars_length (draws : Draws) (len k : Nat) :
    (randomChars draws len k).length = max len 1 := by
  simp [randomChars]
  omega

theorem draw_digit (d : Fin 10) : (toChar (48 + (d.val : Int))).isDigit = true :=
  isDigit_toChar _ (by omega) (by omega)

theorem toChar_first (d : Fin 10) : toChar (49 + (d.val : Int).tmod 9) =
    toChar (48 + (1 + (d.val : Int).tmod 9)) := by
  congr 1
  omega

theorem first_range (d : Fin 10) : 1 ≤ 1 + (d.val : Int).tmod 9 ∧ 1 + (d.val : Int).tmod 9 ≤ 9 := by
  rw [Int.tmod_eq_emod_of_nonneg (by omega)]
  omega

theorem randomChars_decimal (draws : Draws) (len k : Nat) :
    IsDecimal (randomChars draws len k) := by
  intro c hc
  rcases List.mem_cons.mp hc with rfl | hc
  · have h := first_range (draws k)
    rw [toChar_first]
    exact isDigit_toChar _ (by omega) h.2
  · obtain ⟨i, _, rfl⟩ := List.mem_map.mp hc
    exact draw_digit _

theorem randomChars_head (draws : Draws) (len k : Nat) :
    (randomChars draws len k).head? ≠ some '0' := by
  intro h
  have h0 := first_range (draws k)
  have hd := digit_toChar (1 + ((draws k).val : Int).tmod 9) (by omega) h0.2
  rw [← toChar_first, Option.some.inj h] at hd
  have hz : digit '0' = 0 := rfl
  omega

/-- The draw that yields the character `c`, at the first place when `first`. -/
def drawOf (first : Bool) (c : Char) : Fin 10 :=
  if first then ⟨(c.toNat - 49) % 10, Nat.mod_lt _ (by decide)⟩
  else ⟨(c.toNat - 48) % 10, Nat.mod_lt _ (by decide)⟩

theorem toChar_digit {c : Char} (h : c.isDigit = true) :
    toChar (48 + ((c.toNat - 48 : Nat) : Int)) = c := by
  have hc := (isDigit_iff c).mp h
  apply Char.toNat_inj.mp
  have := toNat_toChar ((c.toNat - 48 : Nat) : Int) (by omega) (by omega)
  omega

theorem drawOf_rest {c : Char} (h : c.isDigit = true) :
    toChar (48 + ((drawOf false c).val : Int)) = c := by
  have hc := (isDigit_iff c).mp h
  have hd : (drawOf false c).val = c.toNat - 48 := Nat.mod_eq_of_lt (by omega)
  rw [hd, toChar_digit h]

theorem drawOf_first {c : Char} (h : c.isDigit = true) (h0 : c ≠ '0') :
    toChar (49 + ((drawOf true c).val : Int).tmod 9) = c := by
  have hc := (isDigit_iff c).mp h
  have hne : c.toNat ≠ 48 := fun hc => h0 (Char.toNat_inj.mp hc)
  have hd : (drawOf true c).val = c.toNat - 49 := Nat.mod_eq_of_lt (by omega)
  have hm : ((c.toNat - 49 : Nat) : Int).tmod 9 = (c.toNat - 49 : Nat) :=
    Int.tmod_eq_of_lt (by omega) (by omega)
  rw [hd, hm, show (49 : Int) + (c.toNat - 49 : Nat) = 48 + (c.toNat - 48 : Nat) by omega,
    toChar_digit h]

/-- Draws that make `random_bigint` yield `ss 0, ss 1, …`, each of `m` characters. -/
def drawsOf (m : Nat) (ss : Nat → Str) : Draws := fun j =>
  drawOf (j % m = 0) ((ss (j / m)).getD (j % m) '0')

theorem randomChars_drawsOf {m len t : Nat} (hm : max len 1 = m) {ss : Nat → Str}
    (hd : IsDecimal (ss t)) (hl : (ss t).length = m) (h0 : (ss t).head? ≠ some '0') :
    randomChars (drawsOf m ss) len (t * m) = ss t := by
  have hat : ∀ i < m, drawsOf m ss (t * m + i) = drawOf (i = 0) ((ss t).getD i '0') := by
    intro i hi
    rw [drawsOf, Nat.mul_comm t m, Nat.mul_add_mod, Nat.mod_eq_of_lt hi,
      Nat.mul_add_div (by omega), Nat.div_eq_of_lt hi, Nat.add_zero]
  obtain ⟨c, s, hs⟩ := List.exists_cons_of_length_pos (l := ss t) (by omega)
  rw [hs] at hd hl h0
  have hrest : ∀ i < len - 1, drawsOf m ss (t * m + 1 + i) = drawOf false (s.getD i '0') := by
    intro i hi
    rw [Nat.add_assoc, Nat.add_comm 1 i, hat (i + 1) (by omega), hs, List.getD_cons_succ]
    rfl
  have hfirst := hat 0 (by omega)
  rw [Nat.add_zero, hs] at hfirst
  rw [randomChars, hfirst, hs]
  congr 1
  · exact drawOf_first (hd c (by simp)) fun h => h0 (congrArg some h)
  · rw [List.length_cons] at hl
    refine List.ext_getElem (by simp; omega) fun i hi hi' => ?_
    rw [List.getElem_map, List.getElem_range, hrest i (by simpa using hi),
      List.getD_eq_getElem _ _ hi']
    exact drawOf_rest (hd _ (List.mem_cons_of_mem _ (List.getElem_mem hi')))

/-- **What `random_bigint` can yield.** Over all digit streams, the results of its
calls with one length are the sequences of decimals of that length, at least one
character, none of which starts with a zero. -/
theorem randomBigint_range (len : Nat) (ss : Nat → Str) :
    (∃ draws, ∀ t, (randomBigint draws len (t * max len 1)).1 = ss t) ↔
      ∀ t, IsDecimal (ss t) ∧ (ss t).length = max len 1 ∧ (ss t).head? ≠ some '0' := by
  constructor
  · rintro ⟨draws, h⟩ t
    rw [← h t, randomBigint_eq]
    exact ⟨randomChars_decimal _ _ _, randomChars_length _ _ _, randomChars_head _ _ _⟩
  · intro h
    refine ⟨drawsOf (max len 1) ss, fun t => ?_⟩
    rw [randomBigint_eq]
    exact randomChars_drawsOf rfl (h t).1 (h t).2.1 (h t).2.2

/-! ## `truncate_display` -/

/-- `truncate_display` returns unless it has to cut a tail longer than the string. -/
theorem truncateDisplay_eq_ok {s t : Str} {head tail : Nat} (hs : s.length < 2 ^ 64)
    (htail : tail < 2 ^ 64) : truncateDisplay s head tail = .ok t ↔
      s.length ≤ 100 ∧ t = s ∨ 100 < s.length ∧ tail ≤ s.length ∧
        t = s.take head ++ text "..." ++ s.drop (s.length - tail) := by
  unfold truncateDisplay
  by_cases h : s.length ≤ truncateThreshold
  · have h' : s.length ≤ 100 := h
    rw [if_pos h]
    constructor
    · intro ht
      exact .inl ⟨h', (Except.ok.inj ht).symm⟩
    · rintro (⟨_, rfl⟩ | ⟨h100, _⟩)
      · rfl
      · omega
  · have h' : 100 < s.length := Nat.lt_of_not_le h
    have hfront : substr s 0 head = .ok (s.take head) := by
      rw [substr, if_pos (Nat.zero_le _), List.drop_zero]
    rw [if_neg h, hfront, ok_bind, substr]
    by_cases htl : tail ≤ s.length
    · have hpos : sizeSub s.length tail = s.length - tail := by
        unfold sizeSub
        omega
      rw [hpos, if_pos (by omega), List.take_of_length_le (by rw [List.length_drop]; omega),
        ok_bind]
      constructor
      · intro ht
        exact .inr ⟨h', htl, (Except.ok.inj ht).symm⟩
      · rintro (⟨h100, _⟩ | ⟨_, _, rfl⟩)
        · omega
        · rfl
    · have hpos : ¬ sizeSub s.length tail ≤ s.length := by
        unfold sizeSub
        omega
      rw [if_neg hpos, error_bind]
      constructor
      · intro ht
        cases ht
      · rintro (⟨h100, _⟩ | ⟨_, htl', _⟩)
        · omega
        · exact absurd htl' htl

/-- What the test program shows of a string. -/
def shown (s : Str) : Str :=
  if s.length ≤ 100 then s else s.take 50 ++ text "..." ++ s.drop (s.length - 50)

theorem truncateDisplay_default {s : Str} (hs : s.length < 2 ^ 64) :
    truncateDisplay s 50 50 = .ok (shown s) := by
  rw [truncateDisplay_eq_ok hs (by decide), shown]
  split
  · exact .inl ⟨by assumption, rfl⟩
  · exact .inr ⟨by omega, by omega, rfl⟩

end BigintMultiply.Operands
