import Mathlib.Logic.Function.Basic
import BigintMultiply.Library.Vectors

/-! Fork-join programs over shared vectors.

A program reads and writes the vectors of its activation one access at a time,
forks two tasks and waits for both, and calls functions whose own vectors no
other activation sees. `Step` interleaves the accesses of all live tasks of all
live activations; `run` executes the parts in program order.

Main result (`always_of_run`): if the two tasks of every fork only make accesses
that are independent of each other, every schedule terminates, no schedule
faults, and all of them end with the value and the memory of program order. -/

namespace BigintMultiply.ForkJoin
open Checked Vectors

/-! ## Accesses -/

/-- One access to a vector, with the type of what it returns. -/
inductive VecOp : Type → Type
  | read (i : Nat) : VecOp Int
  | write (i : Nat) (a : Int) : VecOp Unit
  | size : VecOp Nat
  | assign (v : Vec) : VecOp Unit
  | resize (n : Nat) : VecOp Unit

/-- The effect of an access; `none` is an index out of bounds. -/
def VecOp.exec {β : Type} : VecOp β → Vec → Option (β × Vec)
  | .read i, v => if i < v.length then some (at0 v i, v) else none
  | .write i a, v => if i < v.length then some ((), v.set i a) else none
  | .size, v => some (v.length, v)
  | .assign w, _ => some ((), w)
  | .resize n, v => some ((), resizeTo v n)

/-- The part of a vector that an access touches. -/
inductive Touch
  | read (i : Nat)
  | write (i : Nat)
  | size
  | whole
  deriving DecidableEq

def VecOp.touch {β : Type} : VecOp β → Touch
  | .read i => .read i
  | .write i _ => .write i
  | .size => .size
  | .assign _ => .whole
  | .resize _ => .whole

/-- Accesses to one vector that may be exchanged. -/
def Touch.Indep : Touch → Touch → Prop
  | .read _, .read _ => True
  | .read i, .write j => i ≠ j
  | .write i, .read j => i ≠ j
  | .write i, .write j => i ≠ j
  | .size, .whole => False
  | .size, _ => True
  | .whole, _ => False
  | .read _, .whole => False
  | .write _, .whole => False
  | _, .size => True

theorem Touch.Indep.symm {t u : Touch} (h : t.Indep u) : u.Indep t := by
  cases t <;> cases u <;> simp_all [Touch.Indep, ne_comm]

/-- **Diamond** for two independent accesses to one vector. -/
theorem VecOp.diamond {β γ : Type} (f : VecOp β) (g : VecOp γ) (h : f.touch.Indep g.touch)
    {v v₁ v₂ : Vec} {a : β} {b : γ} (hf : f.exec v = some (a, v₁)) (hg : g.exec v = some (b, v₂)) :
    ∃ v₃, f.exec v₂ = some (a, v₃) ∧ g.exec v₁ = some (b, v₃) := by
  cases f <;> cases g <;> simp only [VecOp.touch, Touch.Indep] at h
  case read.read i j => grind [VecOp.exec]
  case read.write i j c => grind [VecOp.exec, at0_set]
  case read.size i => grind [VecOp.exec]
  case write.read i c j => grind [VecOp.exec, at0_set]
  case write.write i c j d =>
    simp only [VecOp.exec, Option.ite_none_right_eq_some, Option.some.injEq, Prod.mk.injEq] at hf hg
    obtain ⟨hi, -, rfl⟩ := hf
    obtain ⟨hj, -, rfl⟩ := hg
    refine ⟨(v.set i c).set j d, ?_, by simp [VecOp.exec, hj]⟩
    rw [List.set_comm _ _ h]
    simp [VecOp.exec, hi]
  case write.size i c => grind [VecOp.exec]
  case size.read j => grind [VecOp.exec]
  case size.write j d => grind [VecOp.exec]
  case size.size => grind [VecOp.exec]

/-! ## Programs -/

/-- Programs over the vectors named by `ν`, returning a value of a type.
`fork` waits for both tasks; `call` runs a function on its own vectors. -/
inductive Prog (ν : Type) : Type → Type 1
  | ret {α : Type} (a : α) : Prog ν α
  | fail {α : Type} : Prog ν α
  | act {α β : Type} (x : ν) (op : VecOp β) (k : β → Prog ν α) : Prog ν α
  | fork {α : Type} (p q : Prog ν Unit) (k : Prog ν α) : Prog ν α
  | call {α β : Type} (own : ν → Vec) (p : Prog ν β) (k : β → Prog ν α) : Prog ν α

abbrev Store (ν : Type) := ν → Vec

/-- The vectors of a fresh activation. -/
def Store.empty {ν : Type} : Store ν := fun _ => []

namespace Prog

variable {ν α β : Type}

def bind : Prog ν α → (α → Prog ν β) → Prog ν β
  | .ret a, f => f a
  | .fail, _ => .fail
  | .act x op k, f => .act x op fun b => (k b).bind f
  | .fork p q k, f => .fork p q (k.bind f)
  | .call own p k, f => .call own p fun b => (k b).bind f

instance : Monad (Prog ν) where
  pure := .ret
  bind := .bind

def read (x : ν) (i : Nat) : Prog ν Int := .act x (.read i) .ret
def write (x : ν) (i : Nat) (a : Int) : Prog ν Unit := .act x (.write i a) .ret
def size (x : ν) : Prog ν Nat := .act x .size .ret
def assign (x : ν) (v : Vec) : Prog ν Unit := .act x (.assign v) .ret
def resize (x : ν) (n : Nat) : Prog ν Unit := .act x (.resize n) .ret

/-- A computation on values alone. -/
def lift : Run α → Prog ν α
  | .ok a => .ret a
  | .error _ => .fail

/-- A call: the callee starts with empty vectors of its own. -/
def invoke (p : Prog ν α) : Prog ν α := .call Store.empty p .ret

/-- Reading a whole vector, entry by entry. -/
def readVec (x : ν) : Prog ν Vec := do
  let n ← size x
  forLoop n (fun i v => do return v ++ [← read x i]) []

/-- A loop in program order. -/
def serialFor (n : Nat) (body : Nat → Prog ν Unit) : Prog ν Unit :=
  forLoop n (fun i _ => body i) ()

/-- A parallel loop: the iterations are tasks, and the loop waits for all. -/
def parFor : Nat → (Nat → Prog ν Unit) → Prog ν Unit
  | 0, _ => .ret ()
  | n + 1, body => .fork (parFor n body) (body n) (.ret ())

/-- A loop that is parallel when `c` holds. -/
def forWhen (c : Prop) [Decidable c] (n : Nat) (body : Nat → Prog ν Unit) : Prog ν Unit :=
  if c then parFor n body else serialFor n body

/-- Two tasks and the wait for both. -/
def parDo (p q : Prog ν Unit) : Prog ν Unit := .fork p q (.ret ())

/-- Tasks one after the other. -/
def inOrder : List (Prog ν Unit) → Prog ν Unit
  | [] => .ret ()
  | p :: ps => do p; inOrder ps

/-- Any number of tasks and the wait for all. -/
def sections : List (Prog ν Unit) → Prog ν Unit
  | [] => .ret ()
  | p :: ps => .fork p (sections ps) (.ret ())

/-- Tasks forked two by two: each but the last runs beside the rest. -/
def parDoNest : List (Prog ν Unit) → Prog ν Unit
  | [] => .ret ()
  | [p] => p
  | p :: q :: ps => parDo p (parDoNest (q :: ps))

/-- Unfolds a function body that calls itself through its first argument. -/
def recurse {β : Type} (body : (β → β → Prog ν α) → β → β → Prog ν α) : Nat → β → β → Prog ν α
  | 0, _, _ => .fail
  | fuel + 1, x, y => body (recurse body fuel) x y

/-! ## Program order -/

section Semantics

variable [DecidableEq ν]

/-- Execution in program order; `none` is a fault. -/
def run : {α : Type} → Prog ν α → Store ν → Option (α × Store ν)
  | _, .ret a, s => some (a, s)
  | _, .fail, _ => none
  | _, .act x op k, s => (op.exec (s x)).bind fun r => (k r.1).run (Function.update s x r.2)
  | _, .fork p q k, s => (p.run s).bind fun r => (q.run r.2).bind fun r => k.run r.2
  | _, .call own p k, s => (p.run own).bind fun r => (k r.1).run s

section ProgramOrder

variable (s : Store ν)

@[simp] theorem run_ret (a : α) : (ret a : Prog ν α).run s = some (a, s) := rfl

@[simp] theorem run_fail : (fail : Prog ν α).run s = none := rfl

theorem run_act (x : ν) (op : VecOp β) (k : β → Prog ν α) :
    (act x op k).run s = (op.exec (s x)).bind fun r => (k r.1).run (Function.update s x r.2) := rfl

theorem run_fork (p q : Prog ν Unit) (k : Prog ν α) :
    (fork p q k).run s = (p.run s).bind fun r => (q.run r.2).bind fun r => k.run r.2 := rfl

theorem run_call (own : Store ν) (p : Prog ν β) (k : β → Prog ν α) :
    (call own p k).run s = (p.run own).bind fun r => (k r.1).run s := rfl

end ProgramOrder

/-- What a call returns when everything runs in program order. -/
def eval (p : Prog ν α) : Option α := (p.run Store.empty).map Prod.fst

/-- One access of some live task, or the end of a fork or of a call. -/
inductive Step : {α : Type} → Prog ν α → Store ν → Prog ν α → Store ν → Prop
  | act {α β : Type} {x : ν} {op : VecOp β} {k : β → Prog ν α} {s : Store ν} {b : β} {v : Vec}
      (h : op.exec (s x) = some (b, v)) : Step (.act x op k) s (k b) (Function.update s x v)
  | left {α : Type} {p p' q : Prog ν Unit} {k : Prog ν α} {s s' : Store ν} (h : Step p s p' s') :
      Step (.fork p q k) s (.fork p' q k) s'
  | right {α : Type} {p q q' : Prog ν Unit} {k : Prog ν α} {s s' : Store ν} (h : Step q s q' s') :
      Step (.fork p q k) s (.fork p q' k) s'
  | join {α : Type} {a b : Unit} {k : Prog ν α} {s : Store ν} :
      Step (.fork (.ret a) (.ret b) k) s k s
  | inside {α β : Type} {own own' : Store ν} {p p' : Prog ν β} {k : β → Prog ν α} {s : Store ν}
      (h : Step p own p' own') : Step (.call own p k) s (.call own' p' k) s
  | leave {α β : Type} {own : Store ν} {b : β} {k : β → Prog ν α} {s : Store ν} :
      Step (.call own (.ret b) k) s (k b) s

/-- Every schedule from `p` in memory `s` terminates without a fault, with a
value and a memory in `Q`. -/
inductive Always (Q : α → Store ν → Prop) : Prog ν α → Store ν → Prop
  | done {a : α} {s : Store ν} (h : Q a s) : Always Q (.ret a) s
  | step {p : Prog ν α} {s : Store ν} (hp : ∃ p' s', Step p s p' s')
      (h : ∀ p' s', Step p s p' s' → Always Q p' s') : Always Q p s

/-- A call returns `a` under every schedule. -/
def EverySchedule (p : Prog ν α) (a : α) : Prop := Always (fun b _ => b = a) p Store.empty

end Semantics

/-! ## Footprints -/

/-- The accesses that a task may make. -/
abbrev Footprint (ν : Type) := ν → Touch → Prop

/-- Each access of one footprint may be exchanged with each of the other. -/
def Separate (F G : Footprint ν) : Prop := ∀ x t u, F x t → G x u → t.Indep u

theorem Separate.symm {F G : Footprint ν} (h : Separate F G) : Separate G F :=
  fun x t u ht hu => (h x u t hu ht).symm

/-- Every access `p` can make to the vectors of its activation lies in `F`,
whatever it reads. Called functions only access vectors of their own. -/
def Within (F : Footprint ν) : {α : Type} → Prog ν α → Prop
  | _, .ret _ => True
  | _, .fail => True
  | _, .act x op k => F x op.touch ∧ ∀ b, (k b).Within F
  | _, .fork p q k => p.Within F ∧ q.Within F ∧ k.Within F
  | _, .call _ _ k => ∀ b, (k b).Within F

/-- The tasks of every fork have separate footprints, in `p`, in what it calls
and in what remains of it after any access. -/
def RaceFree : {α : Type} → Prog ν α → Prop
  | _, .ret _ => True
  | _, .fail => True
  | _, .act _ _ k => ∀ b, (k b).RaceFree
  | _, .fork p q k => p.RaceFree ∧ q.RaceFree ∧ k.RaceFree ∧
      ∃ F G : Footprint ν, p.Within F ∧ q.Within G ∧ Separate F G
  | _, .call _ p k => p.RaceFree ∧ ∀ b, (k b).RaceFree

/-! ## Every schedule agrees with program order -/

section Schedules

variable [DecidableEq ν]

/-- A step leaves the memory alone, or makes one access, which it could also
make in any other memory that answers it in the same way. -/
theorem Step.access {p p' : Prog ν α} {s s' : Store ν} (h : Step p s p' s') :
    (s' = s ∧ ∀ t, Step p t p' t) ∨
    ∃ (β : Type) (x : ν) (op : VecOp β) (b : β) (v : Vec), op.exec (s x) = some (b, v) ∧
      s' = Function.update s x v ∧ (∀ F, p.Within F → F x op.touch) ∧
      ∀ t w, op.exec (t x) = some (b, w) → Step p t p' (Function.update t x w) := by
  induction h with
  | act h => exact .inr ⟨_, _, _, _, _, h, rfl, fun F hF => hF.1, fun t w hw => .act hw⟩
  | left _ ih =>
    rcases ih with ⟨hs, hp⟩ | ⟨β, x, op, b, v, he, hs, hF, hp⟩
    · exact .inl ⟨hs, fun t => .left (hp t)⟩
    · exact .inr ⟨β, x, op, b, v, he, hs, fun F h => hF F h.1, fun t w hw => .left (hp t w hw)⟩
  | right _ ih =>
    rcases ih with ⟨hs, hp⟩ | ⟨β, x, op, b, v, he, hs, hF, hp⟩
    · exact .inl ⟨hs, fun t => .right (hp t)⟩
    · exact .inr ⟨β, x, op, b, v, he, hs, fun F h => hF F h.2.1, fun t w hw => .right (hp t w hw)⟩
  | join => exact .inl ⟨rfl, fun t => .join⟩
  | inside h _ => exact .inl ⟨rfl, fun t => .inside h⟩
  | leave => exact .inl ⟨rfl, fun t => .leave⟩

theorem Step.within {p p' : Prog ν α} {s s' : Store ν} (h : Step p s p' s') {F : Footprint ν}
    (hF : p.Within F) : p'.Within F := by
  induction h with
  | act _ => exact hF.2 _
  | left _ ih => exact ⟨ih hF.1, hF.2⟩
  | right _ ih => exact ⟨hF.1, ih hF.2.1, hF.2.2⟩
  | join => exact hF.2.2
  | inside _ _ => exact hF
  | leave => exact hF _

/-- An access that is independent of everything `p` does may be made before
`p` instead of after it. -/
theorem run_access (p : Prog ν α) {F G : Footprint ν} (hFG : Separate F G) (hF : p.Within F)
    (x : ν) (op : VecOp β) (hG : G x op.touch) {s s₁ : Store ν} {a : α} {b : β} {v : Vec}
    (hp : p.run s = some (a, s₁)) (ho : op.exec (s x) = some (b, v)) :
    ∃ w, op.exec (s₁ x) = some (b, w) ∧
      p.run (Function.update s x v) = some (a, Function.update s₁ x w) := by
  induction p generalizing s s₁ v with
  | ret c =>
    simp only [run_ret, Option.some.injEq, Prod.mk.injEq] at hp
    obtain ⟨rfl, rfl⟩ := hp
    exact ⟨v, ho, rfl⟩
  | fail => simp at hp
  | act y f k ih =>
    obtain ⟨⟨c, u⟩, hc, hk⟩ := Option.bind_eq_some_iff.mp hp
    by_cases hxy : x = y
    · subst hxy
      obtain ⟨v₃, h1, h2⟩ := f.diamond op (hFG x _ _ hF.1 hG) hc ho
      obtain ⟨w, hw, hr⟩ := ih c (hF.2 c) hk (by rwa [Function.update_self])
      refine ⟨w, hw, ?_⟩
      rw [run_act, Function.update_self, h1, Option.bind_some, Function.update_idem]
      rwa [Function.update_idem] at hr
    · obtain ⟨w, hw, hr⟩ := ih c (hF.2 c) hk (by rwa [Function.update_of_ne hxy])
      refine ⟨w, hw, ?_⟩
      rw [run, Function.update_of_ne (Ne.symm hxy), hc, Option.bind_some,
        Function.update_comm hxy]
      exact hr
  | fork p q k ihp ihq ihk =>
    obtain ⟨⟨_, t₁⟩, h1, h⟩ := Option.bind_eq_some_iff.mp hp
    obtain ⟨⟨_, t₂⟩, h2, h3⟩ := Option.bind_eq_some_iff.mp h
    obtain ⟨w₁, e1, r1⟩ := ihp hF.1 h1 ho
    obtain ⟨w₂, e2, r2⟩ := ihq hF.2.1 h2 e1
    obtain ⟨w₃, e3, r3⟩ := ihk hF.2.2 h3 e2
    exact ⟨w₃, e3, by rw [run_fork, r1, Option.bind_some, r2, Option.bind_some, r3]⟩
  | call own p k _ ihk =>
    obtain ⟨⟨c, _⟩, h1, h2⟩ := Option.bind_eq_some_iff.mp hp
    obtain ⟨w, e, r⟩ := ihk c (hF c) h2 ho
    exact ⟨w, e, by rw [run_call, h1, Option.bind_some]; exact r⟩

/-- **Step invariance.** No step of a race-free program changes what program
order would still compute. -/
theorem Step.run_eq {p p' : Prog ν α} {s s' : Store ν} (h : Step p s p' s') (hR : p.RaceFree)
    {r : α × Store ν} (hp : p.run s = some r) : p'.RaceFree ∧ p'.run s' = some r := by
  induction p generalizing s s' with
  | ret a => cases h
  | fail => cases h
  | act x op k _ =>
    cases h with
    | act h =>
      rw [run_act, h, Option.bind_some] at hp
      exact ⟨hR _, hp⟩
  | fork p q k ihp ihq _ =>
    obtain ⟨hRp, hRq, hk, F, G, hF, hG, hFG⟩ := hR
    obtain ⟨⟨_, s₁⟩, h1, h2⟩ := Option.bind_eq_some_iff.mp hp
    cases h with
    | left h =>
      obtain ⟨hR', hr⟩ := ihp h hRp h1
      exact ⟨⟨hR', hRq, hk, F, G, h.within hF, hG, hFG⟩, by rw [run_fork, hr]; exact h2⟩
    | right h =>
      rename_i q'
      obtain ⟨⟨_, s₂⟩, h3, h4⟩ := Option.bind_eq_some_iff.mp h2
      -- the same step of `q`, taken after `p` has finished in program order
      have hmove : ∃ s₃, Step q s₁ q' s₃ ∧ p.run s' = some ((), s₃) := by
        rcases h.access with ⟨rfl, hq'⟩ | ⟨β, x, op, b, v, he, rfl, hx, hq'⟩
        · exact ⟨s₁, hq' s₁, h1⟩
        · obtain ⟨w, e, r⟩ := run_access p hFG hF x op (hx G hG) h1 he
          exact ⟨_, hq' s₁ w e, r⟩
      obtain ⟨s₃, hs₃, hp₃⟩ := hmove
      obtain ⟨hR', hr⟩ := ihq hs₃ hRq h3
      exact ⟨⟨hRp, hR', hk, F, G, hF, h.within hG, hFG⟩, by
        rw [run_fork, hp₃, Option.bind_some, hr]; exact h4⟩
    | join =>
      simp only [run_ret, Option.some.injEq] at h1
      cases h1
      exact ⟨hk, h2⟩
  | call own p k ihp _ =>
    obtain ⟨r₁, h1, h2⟩ := Option.bind_eq_some_iff.mp hp
    cases h with
    | inside h =>
      obtain ⟨hR', hr⟩ := ihp h hR.1 h1
      exact ⟨⟨hR', hR.2⟩, by rw [run_call, hr]; exact h2⟩
    | leave =>
      simp only [run_ret, Option.some.injEq] at h1
      cases h1
      exact ⟨hR.2 _, h2⟩

/-- A program that program order completes is finished or can take a step. -/
theorem progress (p : Prog ν α) {s : Store ν} {r : α × Store ν} (hp : p.run s = some r) :
    p = .ret r.1 ∧ s = r.2 ∨ ∃ p' s', Step p s p' s' := by
  induction p generalizing s with
  | ret a =>
    simp only [run_ret, Option.some.injEq] at hp
    exact .inl ⟨by rw [← hp], by rw [← hp]⟩
  | fail => simp at hp
  | act x op k _ =>
    obtain ⟨⟨b, v⟩, h, _⟩ := Option.bind_eq_some_iff.mp hp
    exact .inr ⟨_, _, .act h⟩
  | fork p q k ihp ihq _ =>
    obtain ⟨r₁, h1, h2⟩ := Option.bind_eq_some_iff.mp hp
    obtain ⟨r₂, h3, _⟩ := Option.bind_eq_some_iff.mp h2
    rcases ihp h1 with ⟨rfl, rfl⟩ | ⟨p', s', h⟩
    · rcases ihq h3 with ⟨rfl, _⟩ | ⟨q', s', h⟩
      · exact .inr ⟨_, _, .join⟩
      · exact .inr ⟨_, _, .right h⟩
    · exact .inr ⟨_, _, .left h⟩
  | call own p k ihp _ =>
    obtain ⟨r₁, h1, _⟩ := Option.bind_eq_some_iff.mp hp
    rcases ihp h1 with ⟨rfl, _⟩ | ⟨p', own', h⟩
    · exact .inr ⟨_, _, .leave⟩
    · exact .inr ⟨_, _, .inside h⟩

/-- `p'` is what some step leaves of `p`. -/
def Next (p' p : Prog ν α) : Prop := ∃ s s', Step p s p' s'

/-- Programs run for finitely many steps, in any schedule and any memory. -/
theorem acc_next (p : Prog ν α) : Acc Next p := by
  induction p with
  | ret a => exact ⟨_, fun _ ⟨_, _, h⟩ => by cases h⟩
  | fail => exact ⟨_, fun _ ⟨_, _, h⟩ => by cases h⟩
  | act x op k ih => exact ⟨_, fun _ ⟨_, _, h⟩ => by cases h with | act h => exact ih _⟩
  | fork p q k ihp ihq ihk =>
    induction ihp generalizing q with
    | intro p _ ihp =>
      induction ihq with
      | intro q hq ihq =>
        refine ⟨_, fun _ ⟨s, s', h⟩ => ?_⟩
        cases h with
        | left h => exact ihp _ ⟨s, s', h⟩ q ⟨q, hq⟩
        | right h => exact ihq _ ⟨s, s', h⟩
        | join => exact ihk
  | call own p k ihp ihk =>
    induction ihp generalizing own with
    | intro p _ ihp =>
      refine ⟨_, fun _ ⟨s, s', h⟩ => ?_⟩
      cases h with
      | inside h => exact ihp _ ⟨_, _, h⟩ _
      | leave => exact ihk _

/-- **Schedule independence.** Every schedule of a race-free program terminates
with the value and the memory of program order. -/
theorem always_of_run (p : Prog ν α) (hR : p.RaceFree) {s : Store ν} {r : α × Store ν}
    (hp : p.run s = some r) : Always (fun a t => (a, t) = r) p s := by
  induction acc_next p generalizing s with
  | intro p _ ih =>
    rcases progress p hp with ⟨rfl, rfl⟩ | hstep
    · exact .done rfl
    · refine .step hstep fun p' s' h => ?_
      obtain ⟨hR', hr⟩ := h.run_eq hR hp
      exact ih p' ⟨s, s', h⟩ hR' hr

theorem Always.mono {Q Q' : α → Store ν → Prop} (hQ : ∀ a s, Q a s → Q' a s) {p : Prog ν α}
    {s : Store ν} (h : Always Q p s) : Always Q' p s := by
  induction h with
  | done h => exact .done (hQ _ _ h)
  | step hp _ ih => exact .step hp ih

/-- Every schedule of a race-free call returns what program order returns. -/
theorem everySchedule_of_eval {p : Prog ν α} (hR : p.RaceFree) {a : α} (hp : p.eval = some a) :
    p.EverySchedule a := by
  obtain ⟨⟨b, s⟩, hr, rfl⟩ := Option.map_eq_some_iff.mp hp
  exact (always_of_run p hR hr).mono fun _ _ h => congrArg Prod.fst h

end Schedules

/-! ## Rules for program order -/

section Run

variable [DecidableEq ν] (s : Store ν)

@[simp] theorem run_pure (a : α) : (pure a : Prog ν α).run s = some (a, s) := rfl

theorem run_bind (p : Prog ν α) (f : α → Prog ν β) :
    (p >>= f).run s = (p.run s).bind fun r => (f r.1).run r.2 := by
  change (p.bind f).run s = _
  induction p generalizing s with
  | ret a => rfl
  | fail => rfl
  | act x op k ih =>
    rw [bind, run_act, run_act, Option.bind_assoc]
    congr 1
    funext r
    exact ih r.1 _ f
  | fork p q k _ _ ihk =>
    rw [bind, run_fork, run_fork, Option.bind_assoc]
    congr 1
    funext r
    rw [Option.bind_assoc]
    congr 1
    funext r
    exact ihk _ f
  | call own p k _ ihk =>
    rw [bind, run_call, run_call, Option.bind_assoc]
    congr 1
    funext r
    exact ihk r.1 _ f

/-- A known first part is executed away. -/
theorem run_bind_of {p : Prog ν α} {s t : Store ν} {a : α} (h : p.run s = some (a, t))
    (f : α → Prog ν β) : (p >>= f).run s = (f a).run t := by
  rw [run_bind, h, Option.bind_some]

theorem run_read {x : ν} {i : Nat} (h : i < (s x).length) :
    (read x i).run s = some (at0 (s x) i, s) := by
  simp [read, run_act, VecOp.exec, h]

theorem run_write {x : ν} {i : Nat} (a : Int) (h : i < (s x).length) :
    (write x i a).run s = some ((), Function.update s x ((s x).set i a)) := by
  simp [write, run_act, VecOp.exec, h]

theorem run_size (x : ν) : (size x).run s = some ((s x).length, s) := by
  simp [size, run_act, VecOp.exec]

theorem run_assign (x : ν) (v : Vec) : (assign x v).run s = some ((), Function.update s x v) := by
  simp [assign, run_act, VecOp.exec]

theorem run_resize (x : ν) (n : Nat) :
    (resize x n).run s = some ((), Function.update s x (resizeTo (s x) n)) := by
  simp [resize, run_act, VecOp.exec]

@[simp] theorem run_lift_ok (a : α) : (lift (.ok a) : Prog ν α).run s = some (a, s) := rfl

theorem run_lift (m : Run α) : (lift m : Prog ν α).run s = m.toOption.map fun a => (a, s) := by
  cases m <;> rfl

theorem run_invoke (p : Prog ν α) : (invoke p).run s = p.eval.map fun a => (a, s) := by
  rw [invoke, run_call, eval, Option.map_map]
  cases p.run Store.empty <;> rfl

/-- A loop in program order, written as a loop over memories. -/
theorem run_serialFor_succ (n : Nat) (body : Nat → Prog ν Unit) :
    (serialFor (n + 1) body).run s = ((serialFor n body).run s).bind fun r => (body n).run r.2 :=
  run_bind s _ _

/-- A parallel loop computes in program order what the serial loop computes. -/
theorem run_parFor (n : Nat) (body : Nat → Prog ν Unit) :
    (parFor n body).run s = (serialFor n body).run s := by
  induction n with
  | zero => rfl
  | succ n ih =>
    rw [run_serialFor_succ, ← ih, parFor, run_fork]
    congr 1
    funext r
    cases (body n).run r.2 <;> rfl

theorem run_forWhen (c : Prop) [Decidable c] (n : Nat) (body : Nat → Prog ν Unit) :
    (forWhen c n body).run s = (serialFor n body).run s := by
  unfold forWhen
  split
  · exact run_parFor s n body
  · rfl

/-- A loop that passes through the memories `st 0, …, st n`. -/
theorem run_serialFor_trace (n : Nat) (body : Nat → Prog ν Unit) (st : Nat → Store ν)
    (h : ∀ i < n, (body i).run (st i) = some ((), st (i + 1))) :
    (serialFor n body).run (st 0) = some ((), st n) := by
  induction n with
  | zero => rfl
  | succ n ih =>
    rw [run_serialFor_succ, ih fun i hi => h i (by omega), Option.bind_some]
    exact h n (by omega)

/-- The loop writes the cells `off, …, off + n - 1` of `x` in turn; iteration
`i` finds its own cell as it was before the loop and all other vectors intact. -/
theorem run_serialFor_splice (x : ν) (off n : Nat) (g : Nat → Int) (body : Nat → Prog ν Unit)
    (hv : off + n ≤ (s x).length)
    (h : ∀ i < n, ∀ w : Vec, w.length = (s x).length → at0 w (off + i) = at0 (s x) (off + i) →
      (body i).run (Function.update s x w) =
        some ((), Function.update s x (w.set (off + i) (g i)))) :
    (serialFor n body).run s = some ((), Function.update s x (splice (s x) off n g)) := by
  have ht := run_serialFor_trace n body (fun i => Function.update s x (splice (s x) off i g))
    (fun i hi => by
      rw [h i hi _ (by simp) (by rw [at0_splice _ off i g _ (by omega), if_neg (by omega)]),
        splice_succ _ off i g (by omega)])
  simpa only [splice_zero, Function.update_eq_self] using ht

/-- Reading a vector returns its entries. -/
theorem run_readVec (x : ν) : (readVec x).run s = some (s x, s) := by
  have hl : ∀ n ≤ (s x).length,
      (forLoop n (fun i v => do return v ++ [← read x i]) ([] : Vec) : Prog ν Vec).run s =
        some ((s x).take n, s) := by
    intro n hn
    induction n with
    | zero => rfl
    | succ n ih =>
      rw [forLoop, run_bind_of (ih (by omega)), run_bind_of (run_read s (by omega)), run_pure,
        List.take_succ_eq_append_getElem (by omega), at0_eq_getElem]
  rw [readVec, run_bind_of (run_size s x), hl _ (Nat.le_refl _), List.take_length]

theorem run_parDo (p q : Prog ν Unit) : (parDo p q).run s = (do p; q : Prog ν Unit).run s := by
  rw [parDo, run_fork, run_bind]
  congr 1
  funext r
  cases q.run r.2 <;> rfl

theorem run_sections (ps : List (Prog ν Unit)) : (sections ps).run s = (inOrder ps).run s := by
  induction ps generalizing s with
  | nil => rfl
  | cons p ps ih =>
    rw [inOrder, run_bind, sections, run_fork]
    congr 1
    funext r
    rw [ih]
    cases (inOrder ps).run r.2 <;> rfl

theorem run_parDoNest (ps : List (Prog ν Unit)) : (parDoNest ps).run s = (inOrder ps).run s := by
  induction ps generalizing s with
  | nil => rfl
  | cons p ps ih =>
    rw [inOrder]
    cases ps with
    | nil =>
      rw [parDoNest, run_bind]
      cases h : p.run s <;> rfl
    | cons q ps =>
      rw [parDoNest, run_parDo, run_bind, run_bind]
      congr 1
      funext r
      exact ih r.2

/-- A write is a store into the vector. -/
theorem run_write_eq (x : ν) (i : Nat) (a : Int) : (write x i a).run s =
    (store (s x) i a).toOption.map fun v => ((), Function.update s x v) := by
  simp only [write, run_act, VecOp.exec, store]
  split <;> rfl

/-- A loop of computations and writes is a loop of stores, faults included. -/
theorem run_serialFor_store (x : ν) (n : Nat) (f : Nat → Run Int) :
    (serialFor n fun i => do let a ← lift (f i); write x i a).run s =
      (forLoop n (fun i v => do store v i (← f i)) (s x)).toOption.map
        fun v => ((), Function.update s x v) := by
  induction n with
  | zero =>
    change _ = some ((), Function.update s x (s x))
    rw [Function.update_eq_self]
    rfl
  | succ n ih =>
    rw [run_serialFor_succ, ih, forLoop]
    cases forLoop n (fun i v => do store v i (← f i)) (s x) with
    | error e => rfl
    | ok v =>
      change (lift (f n) >>= fun a => write x n a).run (Function.update s x v) = _
      rw [run_bind, run_lift, ok_bind]
      cases f n with
      | error e => rfl
      | ok a =>
        change (write x n a).run (Function.update s x v) = _
        rw [run_write_eq, Function.update_self, ok_bind]
        cases store v n a with
        | error e => rfl
        | ok w =>
          change some ((), Function.update (Function.update s x v) x w) = _
          rw [Function.update_idem]
          rfl

end Run

/-! ## Programs and computations on values -/

section Computes

variable [DecidableEq ν]

/-- In program order and from any memory, `p` returns what `m` returns, and
faults when `m` does. -/
def Computes (p : Prog ν α) (m : Run α) : Prop := ∀ s, (p.run s).map Prod.fst = m.toOption

theorem Computes.eval {p : Prog ν α} {m : Run α} (h : p.Computes m) : p.eval = m.toOption :=
  h Store.empty

theorem computes_pure (a : α) : (pure a : Prog ν α).Computes (pure a) := fun _ => rfl

theorem computes_lift (m : Run α) : (lift m : Prog ν α).Computes m := by
  intro s
  rw [run_lift]
  cases m <;> rfl

theorem computes_invoke {p : Prog ν α} {m : Run α} (h : p.eval = m.toOption) :
    (invoke p).Computes m := by
  intro s
  rw [run_invoke, h]
  cases m <;> rfl

theorem computes_bind {p : Prog ν α} {m : Run α} {f : α → Prog ν β} {g : α → Run β}
    (hp : p.Computes m) (hf : ∀ a, (f a).Computes (g a)) : (p >>= f).Computes (m >>= g) := by
  intro s
  have h := hp s
  rw [run_bind]
  cases m with
  | error e =>
    rw [Option.map_eq_none_iff.mp h]
    rfl
  | ok a =>
    obtain ⟨⟨b, t⟩, hr, rfl⟩ := Option.map_eq_some_iff.mp h
    rw [hr]
    exact hf b t

/-- The first part is known to return `a`. -/
theorem computes_bind_ok {p : Prog ν α} {a : α} {f : α → Prog ν β} {m : Run β}
    (hp : p.Computes (.ok a)) (hf : (f a).Computes m) : (p >>= f).Computes m := by
  intro s
  obtain ⟨⟨b, t⟩, hr, rfl⟩ := Option.map_eq_some_iff.mp (hp s)
  rw [run_bind_of hr]
  exact hf t

/-- A fault of the first part is the fault of the whole. -/
theorem computes_bind_error {p : Prog ν α} {e : Fault} {f : α → Prog ν β}
    (hp : p.Computes (.error e)) : (p >>= f).Computes (.error e) := by
  intro s
  rw [run_bind, Option.map_eq_none_iff.mp (hp s)]
  rfl

/-- A loop that passes through the states `st 0, …, st n`. -/
theorem computes_forLoop_trace {σ : Type} (n : Nat) (body : Nat → σ → Prog ν σ) (st : Nat → σ)
    (h : ∀ i < n, (body i (st i)).Computes (.ok (st (i + 1)))) :
    (forLoop n body (st 0)).Computes (.ok (st n)) := by
  induction n with
  | zero => exact computes_pure _
  | succ n ih => exact computes_bind_ok (ih fun i hi => h i (by omega)) (h n (by omega))

end Computes

/-! ## Rules for footprints and race freedom -/

section Rules

variable {F G : Footprint ν}

theorem Within.mono (hFG : ∀ x t, F x t → G x t) {p : Prog ν α} (h : p.Within F) :
    p.Within G := by
  induction p with
  | ret a => trivial
  | fail => trivial
  | act x op k ih => exact ⟨hFG _ _ h.1, fun b => ih b (h.2 b)⟩
  | fork p q k ihp ihq ihk => exact ⟨ihp h.1, ihq h.2.1, ihk h.2.2⟩
  | call own p k _ ihk => exact fun b => ihk b (h b)

theorem within_bind {p : Prog ν α} {f : α → Prog ν β} (hp : p.Within F)
    (hf : ∀ a, (f a).Within F) : (p >>= f).Within F := by
  change (p.bind f).Within F
  induction p with
  | ret a => exact hf a
  | fail => trivial
  | act x op k ih => exact ⟨hp.1, fun b => ih b (hp.2 b) hf⟩
  | fork p q k _ _ ihk => exact ⟨hp.1, hp.2.1, ihk hp.2.2 hf⟩
  | call own p k _ ihk => exact fun b => ihk b (hp b) hf

theorem raceFree_bind {p : Prog ν α} {f : α → Prog ν β} (hp : p.RaceFree)
    (hf : ∀ a, (f a).RaceFree) : (p >>= f).RaceFree := by
  change (p.bind f).RaceFree
  induction p with
  | ret a => exact hf a
  | fail => trivial
  | act x op k ih => exact fun b => ih b (hp b) hf
  | fork p q k _ _ ihk => exact ⟨hp.1, hp.2.1, ihk hp.2.2.1 hf, hp.2.2.2⟩
  | call own p k _ ihk => exact ⟨hp.1, fun b => ihk b (hp.2 b) hf⟩

theorem within_read {x : ν} {i : Nat} (h : F x (.read i)) : (read x i).Within F :=
  ⟨h, fun _ => trivial⟩
theorem within_write {x : ν} {i : Nat} {a : Int} (h : F x (.write i)) : (write x i a).Within F :=
  ⟨h, fun _ => trivial⟩
theorem within_size {x : ν} (h : F x .size) : (size x).Within F := ⟨h, fun _ => trivial⟩
theorem within_assign {x : ν} {v : Vec} (h : F x .whole) : (assign x v).Within F :=
  ⟨h, fun _ => trivial⟩
theorem within_pure (a : α) : (pure a : Prog ν α).Within F := trivial
theorem within_lift (m : Run α) : (lift m : Prog ν α).Within F := by cases m <;> trivial
theorem within_invoke (p : Prog ν α) : (invoke p).Within F := fun _ => trivial

theorem raceFree_read (x : ν) (i : Nat) : (read x i).RaceFree := fun _ => trivial
theorem raceFree_write (x : ν) (i : Nat) (a : Int) : (write x i a).RaceFree := fun _ => trivial
theorem raceFree_size (x : ν) : (size x).RaceFree := fun _ => trivial
theorem raceFree_assign (x : ν) (v : Vec) : (assign x v).RaceFree := fun _ => trivial
theorem raceFree_resize (x : ν) (n : Nat) : (resize x n).RaceFree := fun _ => trivial
theorem raceFree_pure (a : α) : (pure a : Prog ν α).RaceFree := trivial
theorem raceFree_lift (m : Run α) : (lift m : Prog ν α).RaceFree := by cases m <;> trivial
theorem raceFree_invoke {p : Prog ν α} (h : p.RaceFree) : (invoke p).RaceFree :=
  ⟨h, fun _ => trivial⟩

theorem within_ite {c : Prop} [Decidable c] {p q : Prog ν α} (hp : p.Within F) (hq : q.Within F) :
    (if c then p else q).Within F := by split <;> assumption

theorem raceFree_ite {c : Prop} [Decidable c] {p q : Prog ν α} (hp : p.RaceFree)
    (hq : q.RaceFree) : (if c then p else q).RaceFree := by split <;> assumption

theorem within_forLoop {σ : Type} {n : Nat} {body : Nat → σ → Prog ν σ}
    (h : ∀ i < n, ∀ t, (body i t).Within F) (t : σ) : (forLoop n body t).Within F := by
  induction n with
  | zero => trivial
  | succ n ih => exact within_bind (ih fun i hi => h i (by omega)) (h n (by omega))

theorem raceFree_forLoop {σ : Type} {n : Nat} {body : Nat → σ → Prog ν σ}
    (h : ∀ i t, (body i t).RaceFree) (t : σ) : (forLoop n body t).RaceFree := by
  induction n with
  | zero => trivial
  | succ n ih => exact raceFree_bind ih (h n)

theorem within_readVec {x : ν} (hs : F x .size) (hl : ∀ i, F x (.read i)) :
    (readVec x).Within F :=
  within_bind (within_size hs) fun _ =>
    within_forLoop (fun i _ _ => within_bind (within_read (hl i)) fun _ => within_pure _) _

theorem raceFree_readVec (x : ν) : (readVec x).RaceFree :=
  raceFree_bind (raceFree_size x) fun _ =>
    raceFree_forLoop (fun i _ => raceFree_bind (raceFree_read x i) fun _ => raceFree_pure _) _

theorem within_serialFor {n : Nat} {body : Nat → Prog ν Unit} (h : ∀ i < n, (body i).Within F) :
    (serialFor n body).Within F :=
  within_forLoop (fun i hi _ => h i hi) ()

theorem raceFree_serialFor (n : Nat) {body : Nat → Prog ν Unit} (h : ∀ i, (body i).RaceFree) :
    (serialFor n body).RaceFree :=
  raceFree_forLoop (fun i _ => h i) ()

theorem within_parFor {n : Nat} {body : Nat → Prog ν Unit} (h : ∀ i < n, (body i).Within F) :
    (parFor n body).Within F := by
  induction n with
  | zero => trivial
  | succ n ih => exact ⟨ih fun i hi => h i (by omega), h n (by omega), trivial⟩

/-- A parallel loop is race free when the footprints of its iterations are
pairwise separate. -/
theorem raceFree_parFor {n : Nat} {body : Nat → Prog ν Unit} (B : Nat → Footprint ν)
    (h : ∀ i < n, (body i).RaceFree) (hB : ∀ i < n, (body i).Within (B i))
    (hs : ∀ i < n, ∀ j < n, i ≠ j → Separate (B i) (B j)) : (parFor n body).RaceFree := by
  induction n with
  | zero => trivial
  | succ n ih =>
    refine ⟨ih (fun i hi => h i (by omega)) (fun i hi => hB i (by omega))
      (fun i hi j hj => hs i (by omega) j (by omega)), h n (by omega), trivial,
      fun x t => ∃ i < n, B i x t, B n, ?_, hB n (by omega), ?_⟩
    · exact within_parFor fun i hi => (hB i (by omega)).mono fun x t ht => ⟨i, hi, ht⟩
    · rintro x t u ⟨i, hi, ht⟩ hu
      exact hs i (by omega) n (by omega) (by omega) x t u ht hu

theorem within_forWhen {c : Prop} [Decidable c] {n : Nat} {body : Nat → Prog ν Unit}
    (h : ∀ i < n, (body i).Within F) : (forWhen c n body).Within F :=
  within_ite (within_parFor h) (within_serialFor h)

theorem raceFree_forWhen {c : Prop} [Decidable c] {n : Nat} {body : Nat → Prog ν Unit}
    (B : Nat → Footprint ν) (h : ∀ i, (body i).RaceFree) (hB : ∀ i < n, (body i).Within (B i))
    (hs : ∀ i < n, ∀ j < n, i ≠ j → Separate (B i) (B j)) : (forWhen c n body).RaceFree :=
  raceFree_ite (raceFree_parFor B (fun i _ => h i) hB hs) (raceFree_serialFor n h)

theorem raceFree_parDo {p q : Prog ν Unit} (hp : p.RaceFree) (hq : q.RaceFree)
    (hF : p.Within F) (hG : q.Within G) (hFG : Separate F G) : (parDo p q).RaceFree :=
  ⟨hp, hq, trivial, F, G, hF, hG, hFG⟩

theorem within_parDo {p q : Prog ν Unit} (hp : p.Within F) (hq : q.Within F) :
    (parDo p q).Within F :=
  ⟨hp, hq, trivial⟩

/-- All accesses to the vectors in `xs`. -/
def owns (xs : List ν) : Footprint ν := fun x _ => x ∈ xs

theorem separate_owns {xs ys : List ν} (h : ∀ x ∈ xs, x ∉ ys) : Separate (owns xs) (owns ys) :=
  fun x _ _ hx hy => absurd hy (h x hx)

/-- Each task only accesses the vectors of its list. -/
def Owners (xs : List (List ν)) (ps : List (Prog ν Unit)) : Prop :=
  List.Forall₂ (fun x p => p.RaceFree ∧ p.Within (owns x)) xs ps

theorem owners_inOrder {xs : List (List ν)} {ps : List (Prog ν Unit)} (h : Owners xs ps) :
    (inOrder ps).RaceFree := by
  induction h with
  | nil => trivial
  | cons hp _ ih => exact raceFree_bind hp.1 fun _ => ih

/-- Tasks that access different vectors may run in any order. -/
theorem owners_sections (xs : List (List ν)) (hx : xs.flatten.Nodup) {ps : List (Prog ν Unit)}
    (h : Owners xs ps) : (sections ps).RaceFree ∧ (sections ps).Within (owns xs.flatten) := by
  induction h with
  | nil => exact ⟨trivial, trivial⟩
  | cons hp _ ih =>
    rw [List.flatten_cons, List.nodup_append] at hx
    obtain ⟨hR, hW⟩ := ih hx.2.1
    exact ⟨⟨hp.1, hR, trivial, _, _, hp.2, hW,
        separate_owns fun y hy hy' => hx.2.2 y hy y hy' rfl⟩,
      hp.2.mono fun y _ hy => List.mem_append_left _ hy,
      hW.mono fun y _ hy => List.mem_append_right _ hy, trivial⟩

theorem owners_parDoNest (xs : List (List ν)) (hx : xs.flatten.Nodup) {ps : List (Prog ν Unit)}
    (h : Owners xs ps) : (parDoNest ps).RaceFree ∧ (parDoNest ps).Within (owns xs.flatten) := by
  induction h with
  | nil => exact ⟨trivial, trivial⟩
  | @cons x p xs ps hp hps ih =>
    rw [List.flatten_cons, List.nodup_append] at hx
    obtain ⟨hR, hW⟩ := ih hx.2.1
    have hp' : p.Within (owns (x :: xs).flatten) :=
      hp.2.mono fun y _ hy => List.mem_append_left _ hy
    cases ps with
    | nil => exact ⟨hp.1, hp'⟩
    | cons q ps =>
      exact ⟨raceFree_parDo hp.1 hR hp.2 hW (separate_owns fun y hy hy' => hx.2.2 y hy y hy' rfl),
        within_parDo hp' (hW.mono fun y _ hy => List.mem_append_right _ hy)⟩

theorem raceFree_recurse {γ : Type} {body : (γ → γ → Prog ν α) → γ → γ → Prog ν α}
    (h : ∀ rec, (∀ x y, (rec x y).RaceFree) → ∀ x y, (body rec x y).RaceFree) (fuel : Nat)
    (x y : γ) :
    (recurse body fuel x y).RaceFree := by
  induction fuel generalizing x y with
  | zero => trivial
  | succ fuel ih => exact h _ ih x y

end Rules

end Prog

end BigintMultiply.ForkJoin
