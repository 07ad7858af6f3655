import Mathlib.Data.Set.Defs
import BigintMultiply.Library.Nesting

/-! Code whose parallel loops are left to a runtime.

The meaning of such code is the set of the programs that it may run as, one for each
way in which the runtime cuts each dynamic instance of a loop.

* `Realizes`: there are such programs, each implements a given program, and their forks
  are nested at most so deep;
* `Realizes.bind`, `realizes_loop`, `realizes_recurse`: the rules for putting code
  together. -/

namespace BigintMultiply.ForkJoin
open Checked Vectors

/-- The programs that code may run as. -/
def Choices (ν α : Type) : Type 1 := Set (Prog ν α)

namespace Choices

variable {ν α β : Type}

instance : Membership (Prog ν α) (Choices ν α) := inferInstanceAs (Membership _ (Set _))

/-- What follows is chosen for each value of the first part. -/
instance : Monad (Choices ν) where
  pure a := {p | p = .ret a}
  bind P f := {r | ∃ p ∈ P, ∃ g, (∀ a, g a ∈ f a) ∧ r = p.bind g}

/-- Code without parallel loops. -/
def one (p : Prog ν α) : Choices ν α := {q | q = p}

/-- A parallel loop; `L n body` are the programs it may run as. -/
def loop (L : Nat → (Nat → Prog ν Unit) → Prog ν Unit → Prop) (n : Nat)
    (body : Nat → Prog ν Unit) : Choices ν Unit := {p | L n body p}

/-- A loop that is parallel when `c` holds. -/
def loopWhen (L : Nat → (Nat → Prog ν Unit) → Prog ν Unit → Prop) (c : Prop) [Decidable c]
    (n : Nat) (body : Nat → Prog ν Unit) : Choices ν Unit :=
  if c then loop L n body else one (Prog.serialFor n body)

def invoke (P : Choices ν α) : Choices ν α := {q | ∃ p ∈ P, q = Prog.invoke p}

def parDo (P Q : Choices ν Unit) : Choices ν Unit := {r | ∃ p ∈ P, ∃ q ∈ Q, r = Prog.parDo p q}

/-- Tasks one after the other. -/
def inOrder : List (Choices ν Unit) → Choices ν Unit
  | [] => pure ()
  | P :: Ps => do P; inOrder Ps

/-- Tasks forked two by two. -/
def parDoNest : List (Choices ν Unit) → Choices ν Unit
  | [] => pure ()
  | [P] => P
  | P :: Q :: Ps => parDo P (parDoNest (Q :: Ps))

/-- Unfolds a function body that calls itself through its first argument. -/
def recurse (body : (β → β → Choices ν α) → β → β → Choices ν α) : Nat → β → β → Choices ν α
  | 0, _, _ => one .fail
  | fuel + 1, x, y => body (recurse body fuel) x y

/-- The programs of `P` are `p` with its parallel loops replaced by programs of `L`, and
their forks are nested at most `n` deep. -/
structure Realizes (L : Nat → (Nat → Prog ν Unit) → Prog ν Unit → Prop) (n : Nat)
    (P : Choices ν α) (p : Prog ν α) : Prop where
  nonempty : ∃ q, q ∈ P
  implements : ∀ q ∈ P, Prog.Implements L q p
  nested : ∀ q ∈ P, q.Nested n

section Rules

variable {L : Nat → (Nat → Prog ν Unit) → Prog ν Unit → Prop} {n m : Nat} {P : Choices ν α}
  {p : Prog ν α}

theorem Realizes.mono (h : Realizes L n P p) (hnm : n ≤ m) : Realizes L m P p :=
  ⟨h.nonempty, h.implements, fun q hq => (h.nested q hq).mono hnm⟩

theorem realizes_one (h : p.Nested n) : Realizes L n (one p) p where
  nonempty := ⟨p, rfl⟩
  implements q hq := by
    cases hq
    exact .refl p
  nested q hq := by
    cases hq
    exact h

theorem realizes_pure (a : α) : Realizes L n (pure a : Choices ν α) (pure a) :=
  realizes_one (p := .ret a) trivial

theorem Realizes.bind {f' : α → Choices ν β} {f : α → Prog ν β} (h : Realizes L n P p)
    (hf : ∀ a, Realizes L n (f' a) (f a)) : Realizes L n (P >>= f') (p >>= f) where
  nonempty := by
    obtain ⟨q, hq⟩ := h.nonempty
    choose g hg using fun a => (hf a).nonempty
    exact ⟨q.bind g, q, hq, g, hg, rfl⟩
  implements r hr := by
    obtain ⟨q, hq, g, hg, rfl⟩ := hr
    exact (h.implements q hq).bind fun a => (hf a).implements _ (hg a)
  nested r hr := by
    obtain ⟨q, hq, g, hg, rfl⟩ := hr
    exact Prog.nested_bind (h.nested q hq) fun a => (hf a).nested _ (hg a)

theorem realizes_ite {c : Prop} [Decidable c] {Q : Choices ν α} {q : Prog ν α}
    (hp : Realizes L n P p) (hq : Realizes L n Q q) :
    Realizes L n (if c then P else Q) (if c then p else q) := by
  split <;> assumption

theorem Realizes.invoke (h : Realizes L n P p) : Realizes L n (invoke P) (Prog.invoke p) where
  nonempty := h.nonempty.imp' _ fun q hq => ⟨q, hq, rfl⟩
  implements r hr := by
    obtain ⟨q, hq, rfl⟩ := hr
    exact .call (h.implements q hq) fun b => .ret b
  nested r hr := by
    obtain ⟨q, hq, rfl⟩ := hr
    exact Prog.nested_invoke (h.nested q hq)

theorem Realizes.parDo {P Q : Choices ν Unit} {p q : Prog ν Unit} (hp : Realizes L n P p)
    (hq : Realizes L n Q q) : Realizes L (n + 1) (parDo P Q) (Prog.parDo p q) where
  nonempty := by
    obtain ⟨p', hp'⟩ := hp.nonempty
    obtain ⟨q', hq'⟩ := hq.nonempty
    exact ⟨_, p', hp', q', hq', rfl⟩
  implements r hr := by
    obtain ⟨p', hp', q', hq', rfl⟩ := hr
    exact .fork (hp.implements p' hp') (hq.implements q' hq') (.ret ())
  nested r hr := by
    obtain ⟨p', hp', q', hq', rfl⟩ := hr
    exact Prog.nested_parDo (hp.nested p' hp') (hq.nested q' hq')

theorem realizes_loop {k : Nat} {body : Nat → Prog ν Unit} (hL : ∃ p, L k body p)
    (hn : ∀ p, L k body p → p.Nested n) : Realizes L n (loop L k body) (Prog.parFor k body) where
  nonempty := hL
  implements _ hq := .parFor (fun _ _ => .refl _) hq
  nested := hn

theorem realizes_loopWhen {c : Prop} [Decidable c] {k : Nat} {body : Nat → Prog ν Unit}
    (hL : ∃ p, L k body p) (hn : ∀ p, L k body p → p.Nested n) (hbody : ∀ i, (body i).Nested n) :
    Realizes L n (loopWhen L c k body) (Prog.forWhen c k body) :=
  realizes_ite (realizes_loop hL hn) (realizes_one (Prog.nested_serialFor k hbody))

theorem realizes_inOrder {Ps : List (Choices ν Unit)} {ps : List (Prog ν Unit)}
    (h : List.Forall₂ (Realizes L n) Ps ps) : Realizes L n (inOrder Ps) (Prog.inOrder ps) := by
  induction h with
  | nil => exact realizes_pure ()
  | cons hp _ ih => exact hp.bind fun _ => ih

theorem realizes_parDoNest {Ps : List (Choices ν Unit)} {ps : List (Prog ν Unit)}
    (h : List.Forall₂ (Realizes L n) Ps ps) :
    Realizes L (n + ps.length) (parDoNest Ps) (Prog.parDoNest ps) := by
  induction h with
  | nil => exact realizes_pure ()
  | cons hp hps ih =>
    cases hps with
    | nil => exact hp.mono (Nat.le_add_right _ _)
    | cons _ _ => exact (hp.mono (Nat.le_add_right _ _)).parDo ih

/-- Each level of the recursion adds `k` forks around those of the next. -/
theorem realizes_recurse {body' : (β → β → Choices ν α) → β → β → Choices ν α}
    {body : (β → β → Prog ν α) → β → β → Prog ν α} {k : Nat}
    (h : ∀ m, n ≤ m → ∀ rec' rec, (∀ x y, Realizes L m (rec' x y) (rec x y)) →
      ∀ x y, Realizes L (m + k) (body' rec' x y) (body rec x y)) (fuel : Nat) (x y : β) :
    Realizes L (n + k * fuel) (recurse body' fuel x y) (Prog.recurse body fuel x y) := by
  induction fuel generalizing x y with
  | zero => exact realizes_one trivial
  | succ fuel ih =>
    rw [Nat.mul_succ, ← Nat.add_assoc]
    exact h _ (Nat.le_add_right _ _) _ _ ih x y

end Rules

end Choices

end BigintMultiply.ForkJoin
