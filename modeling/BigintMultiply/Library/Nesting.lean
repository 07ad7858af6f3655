import BigintMultiply.Library.Loops
import BigintMultiply.Library.Positions

/-! How deep the forks of a program are nested.

A scheduler that keeps one entry for each fork that a task lies in needs room for
as many as `Nested` allows.

* `Nested.length_lt`: a fork lies in fewer than `n` others, at every time of a run;
* `nested_bind`, `nested_parDo`, `nested_serialFor`: how programs are put together. -/

namespace BigintMultiply.ForkJoin.Prog
open Checked Vectors

variable {ν α β : Type}

/-- Forks are nested at most `n` deep, in `p`, in what it calls and in what remains of
it after any access. -/
def Nested : {α : Type} → Prog ν α → Nat → Prop
  | _, .ret _, _ => True
  | _, .fail, _ => True
  | _, .act _ _ k, n => ∀ b, (k b).Nested n
  | _, .fork p q k, n => 0 < n ∧ p.Nested (n - 1) ∧ q.Nested (n - 1) ∧ k.Nested n
  | _, .call _ p k, n => p.Nested n ∧ ∀ b, (k b).Nested n

theorem Nested.mono {p : Prog ν α} {n m : Nat} (h : p.Nested n) (hnm : n ≤ m) : p.Nested m := by
  induction p generalizing n m with
  | ret a => trivial
  | fail => trivial
  | act x op k ih => exact fun b => ih b (h b) hnm
  | fork p q k ihp ihq ihk =>
    obtain ⟨hn, hp, hq, hk⟩ := h
    have hsub : n - 1 ≤ m - 1 := Nat.sub_le_sub_right hnm 1
    exact ⟨Nat.lt_of_lt_of_le hn hnm, ihp hp hsub, ihq hq hsub, ihk hk hnm⟩
  | call own p k ihp ihk => exact ⟨ihp h.1 hnm, fun b => ihk b (h.2 b) hnm⟩

/-- A fork of a program lies in fewer than `n` others. -/
theorem Nested.length_lt {p : Prog ν α} {n : Nat} (h : p.Nested n) {π : Pos}
    (hπ : p.kindAt π = some .forked) : π.length < n := by
  induction p generalizing π n with
  | fork p q k ihp ihq _ =>
    obtain ⟨hn, hp, hq, -⟩ := h
    cases π with
    | nil => exact hn
    | cons d π =>
      have hlt : π.length < n - 1 := by
        cases d with
        | left => exact ihp hp hπ
        | right => exact ihq hq hπ
      rw [List.length_cons]
      omega
  | call own p k ihp _ =>
    refine ihp h.1 ?_
    cases π with
    | nil =>
      rw [kindAt_nil, kind_call] at hπ
      rw [kindAt_nil]
      by_cases hp : p.kind = .forked
      · rw [hp]
      · rw [if_neg hp] at hπ
        cases hπ
    | cons d π => exact hπ
  | _ => cases π <;> cases hπ

/-- A step nests no fork deeper. -/
theorem Step.nested [DecidableEq ν] {p p' : Prog ν α} {s s' : Store ν} (hstep : Step p s p' s')
    {n : Nat} (h : p.Nested n) : p'.Nested n := by
  induction hstep generalizing n with
  | act _ => exact h _
  | left _ ih => exact ⟨h.1, ih h.2.1, h.2.2⟩
  | right _ ih => exact ⟨h.1, h.2.1, ih h.2.2.1, h.2.2.2⟩
  | join => exact h.2.2.2
  | inside _ ih => exact ⟨ih h.1, h.2⟩
  | leave => exact h.2 _

/-! ## Building programs -/

theorem nested_bind {p : Prog ν α} {f : α → Prog ν β} {n : Nat} (hp : p.Nested n)
    (hf : ∀ a, (f a).Nested n) : (p >>= f).Nested n := by
  change (p.bind f).Nested n
  induction p with
  | ret a => exact hf a
  | fail => trivial
  | act x op k ih => exact fun b => ih b (hp b) hf
  | fork p q k _ _ ihk => exact ⟨hp.1, hp.2.1, hp.2.2.1, ihk hp.2.2.2 hf⟩
  | call own p k _ ihk => exact ⟨hp.1, fun b => ihk b (hp.2 b) hf⟩

theorem nested_parDo {p q : Prog ν Unit} {n : Nat} (hp : p.Nested n) (hq : q.Nested n) :
    (parDo p q).Nested (n + 1) := ⟨Nat.succ_pos n, hp, hq, trivial⟩

theorem nested_lift (r : Run α) (n : Nat) : (lift r : Prog ν α).Nested n := by
  cases r <;> trivial

theorem nested_invoke {p : Prog ν α} {n : Nat} (h : p.Nested n) : (invoke p).Nested n :=
  ⟨h, fun _ => trivial⟩

theorem nested_ite {c : Prop} [Decidable c] {p q : Prog ν α} {n : Nat} (hp : p.Nested n)
    (hq : q.Nested n) : (if c then p else q).Nested n := by
  split <;> assumption

theorem nested_forLoop {σ : Type} {m n : Nat} {body : Nat → σ → Prog ν σ}
    (h : ∀ i t, (body i t).Nested n) (t : σ) : (forLoop m body t).Nested n := by
  induction m with
  | zero => trivial
  | succ m ih => exact nested_bind ih (h m)

theorem nested_serialFor (m : Nat) {n : Nat} {body : Nat → Prog ν Unit}
    (h : ∀ i, (body i).Nested n) : (serialFor m body).Nested n := nested_forLoop (fun i _ => h i) ()

theorem nested_pure (a : α) (n : Nat) : (pure a : Prog ν α).Nested n := trivial

theorem nested_act {x : ν} {op : VecOp β} {n : Nat} : (act x op .ret : Prog ν β).Nested n :=
  fun _ => trivial

theorem nested_readVec (x : ν) (n : Nat) : (readVec x).Nested n :=
  nested_bind nested_act fun _ =>
    nested_forLoop (fun _ _ => nested_bind nested_act fun _ => nested_pure _ n) _

end BigintMultiply.ForkJoin.Prog
