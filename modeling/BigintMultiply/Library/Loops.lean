import BigintMultiply.Library.ForkJoin

/-! Loops cut into tasks.

A runtime is free to run a parallel loop as a tree of tasks, each of which takes a
part of the range in order. `Covers` describes these programs, and `Implements`
the programs in which every parallel loop was replaced by one of them.

* `Implements.everySchedule`: a race-free program keeps its result under every
  schedule, whatever the runtime chooses for each loop. -/

namespace BigintMultiply.ForkJoin.Prog
open Checked Vectors

variable {ν α β γ : Type}

/-! ## Sequences of programs -/

theorem bind_assoc (p : Prog ν α) (f : α → Prog ν β) (g : β → Prog ν γ) :
    (p >>= f) >>= g = p >>= fun a => f a >>= g := by
  change (p.bind f).bind g = p.bind fun a => (f a).bind g
  induction p with
  | ret a => rfl
  | fail => rfl
  | act x op k ih => exact congrArg _ (funext fun b => ih b f)
  | fork p q k _ _ ihk => exact congrArg _ (ihk f)
  | call own p k _ ihk => exact congrArg _ (funext fun b => ihk b f)

theorem bind_ret (p : Prog ν α) : p >>= (fun a => ret a) = p := by
  change p.bind (fun a => ret a) = p
  induction p with
  | ret a => rfl
  | fail => rfl
  | act x op k ih => exact congrArg _ (funext ih)
  | fork p q k _ _ ihk => exact congrArg _ ihk
  | call own p k _ ihk => exact congrArg _ (funext ihk)

/-- The iterations `a, …, a + n - 1` in program order. -/
def rangeFor (a n : Nat) (body : Nat → Prog ν Unit) : Prog ν Unit :=
  serialFor n fun i => body (a + i)

theorem rangeFor_succ (a n : Nat) (body : Nat → Prog ν Unit) :
    rangeFor a (n + 1) body = (do rangeFor a n body; body (a + n)) := rfl

theorem rangeFor_add (a m n : Nat) (body : Nat → Prog ν Unit) :
    rangeFor a (m + n) body = (do rangeFor a m body; rangeFor (a + m) n body) := by
  induction n with
  | zero => exact (bind_ret _).symm
  | succ n ih =>
    rw [← Nat.add_assoc, rangeFor_succ, rangeFor_succ, ih, bind_assoc, Nat.add_assoc]

theorem rangeFor_zero (n : Nat) (body : Nat → Prog ν Unit) :
    rangeFor 0 n body = serialFor n body := by
  simp only [rangeFor, Nat.zero_add]

/-! ## The accesses of a program -/

/-- The accesses that `p` makes to the vectors of its activation: its least footprint. -/
def accesses (p : Prog ν α) : Footprint ν := fun x t => ∀ F : Footprint ν, p.Within F → F x t

theorem within_accesses (p : Prog ν α) : p.Within p.accesses := by
  induction p with
  | ret a => trivial
  | fail => trivial
  | act x op k ih =>
    exact ⟨fun F hF => hF.1, fun b => (ih b).mono fun y t h F hF => h F (hF.2 b)⟩
  | fork p q k ihp ihq ihk =>
    exact ⟨ihp.mono fun y t h F hF => h F hF.1, ihq.mono fun y t h F hF => h F hF.2.1,
      ihk.mono fun y t h F hF => h F hF.2.2⟩
  | call own p k _ ihk => exact fun b => (ihk b).mono fun y t h F hF => h F (hF b)

theorem Within.separate {p : Prog ν α} {q : Prog ν β} {F G : Footprint ν} (hp : p.Within F)
    (hq : q.Within G) (h : Separate F G) : Separate p.accesses q.accesses :=
  fun x t u ht hu => h x t u (ht F hp) (hu G hq)

theorem within_of_parFor {F : Footprint ν} {n : Nat} {body : Nat → Prog ν Unit}
    (h : (parFor n body).Within F) : ∀ i < n, (body i).Within F := by
  induction n with
  | zero => exact fun i hi => absurd hi (Nat.not_lt_zero i)
  | succ n ih =>
    intro i hi
    rcases Nat.lt_succ_iff_lt_or_eq.mp hi with hi' | rfl
    · exact ih h.1 i hi'
    · exact h.2.1

theorem raceFree_of_parFor {n : Nat} {body : Nat → Prog ν Unit} (h : (parFor n body).RaceFree) :
    ∀ i < n, (body i).RaceFree := by
  induction n with
  | zero => exact fun i hi => absurd hi (Nat.not_lt_zero i)
  | succ n ih =>
    intro i hi
    rcases Nat.lt_succ_iff_lt_or_eq.mp hi with hi' | rfl
    · exact ih h.1 i hi'
    · exact h.2.1

/-- The iterations of a race-free parallel loop touch separate places. -/
theorem separate_of_parFor {n : Nat} {body : Nat → Prog ν Unit} (h : (parFor n body).RaceFree) :
    ∀ i < n, ∀ j < n, i ≠ j → Separate (body i).accesses (body j).accesses := by
  induction n with
  | zero => exact fun i hi => absurd hi (Nat.not_lt_zero i)
  | succ n ih =>
    obtain ⟨hR, -, -, F, G, hF, hG, hFG⟩ := h
    have hlast : ∀ i < n, Separate (body i).accesses (body n).accesses := fun i hi =>
      (within_of_parFor hF i hi).separate hG hFG
    intro i hi j hj hij
    rcases Nat.lt_succ_iff_lt_or_eq.mp hi with hi' | rfl
    · rcases Nat.lt_succ_iff_lt_or_eq.mp hj with hj' | rfl
      · exact ih hR i hi' j hj' hij
      · exact hlast i hi'
    · exact (hlast j (by omega)).symm

/-! ## Covering a range -/

/-- `p` runs the iterations `a, …, a + n - 1` of `body`: in order, or a first part
beside the others or before them. -/
inductive Covers (body : Nat → Prog ν Unit) : Nat → Nat → Prog ν Unit → Prop
  | serial (a n : Nat) : Covers body a n (rangeFor a n body)
  | fork {a m n : Nat} {p q : Prog ν Unit} (hp : Covers body a m p)
      (hq : Covers body (a + m) n q) : Covers body a (m + n) (parDo p q)
  | before {a m n : Nat} {p q : Prog ν Unit} (hp : Covers body a m p)
      (hq : Covers body (a + m) n q) : Covers body a (m + n) (do p; q)

theorem covers_one (body : Nat → Prog ν Unit) (a : Nat) : Covers body a 1 (body a) :=
  Covers.serial a 1

section Covers

variable {body : Nat → Prog ν Unit} {a n : Nat} {p : Prog ν Unit}

/-- In program order it is the serial loop. -/
theorem Covers.run_eq [DecidableEq ν] (h : Covers body a n p) (s : Store ν) :
    p.run s = (rangeFor a n body).run s := by
  induction h generalizing s with
  | serial a n => rfl
  | fork _ _ ihp ihq =>
    rw [run_parDo, rangeFor_add, run_bind, run_bind, ihp]
    congr 1
    funext r
    exact ihq r.2
  | before _ _ ihp ihq =>
    rw [rangeFor_add, run_bind, run_bind, ihp]
    congr 1
    funext r
    exact ihq r.2

theorem Covers.within {F : Footprint ν} (h : Covers body a n p)
    (hF : ∀ i, a ≤ i → i < a + n → (body i).Within F) : p.Within F := by
  induction h with
  | serial a n => exact within_serialFor fun i hi => hF _ (by omega) (by omega)
  | fork _ _ ihp ihq =>
    exact within_parDo (ihp fun i h1 h2 => hF i h1 (by omega))
      (ihq fun i h1 h2 => hF i (by omega) (by omega))
  | before _ _ ihp ihq =>
    exact within_bind (ihp fun i h1 h2 => hF i h1 (by omega)) fun _ =>
      ihq fun i h1 h2 => hF i (by omega) (by omega)

theorem raceFree_rangeFor (hR : ∀ i, a ≤ i → i < a + n → (body i).RaceFree) :
    (rangeFor a n body).RaceFree := by
  induction n with
  | zero => trivial
  | succ n ih =>
    exact raceFree_bind (ih fun i h1 h2 => hR i h1 (by omega)) fun _ => hR _ (by omega) (by omega)

/-- Iterations on separate places may be cut in any way. -/
theorem Covers.raceFree (h : Covers body a n p) (hR : ∀ i, a ≤ i → i < a + n → (body i).RaceFree)
    (hs : ∀ i j, a ≤ i → i < j → j < a + n → Separate (body i).accesses (body j).accesses) :
    p.RaceFree := by
  induction h with
  | serial a n => exact raceFree_rangeFor hR
  | @fork a m n p q hp hq ihp ihq =>
    refine raceFree_parDo (ihp (fun i h1 h2 => hR i h1 (by omega))
        fun i j h1 h2 h3 => hs i j h1 h2 (by omega))
      (ihq (fun i h1 h2 => hR i (by omega) (by omega))
        fun i j h1 h2 h3 => hs i j (by omega) h2 (by omega))
      (F := fun x t => ∃ i, a ≤ i ∧ i < a + m ∧ (body i).accesses x t)
      (G := fun x t => ∃ i, a + m ≤ i ∧ i < a + m + n ∧ (body i).accesses x t) ?_ ?_ ?_
    · exact hp.within fun i h1 h2 => (within_accesses _).mono fun x t ht => ⟨i, h1, h2, ht⟩
    · exact hq.within fun i h1 h2 => (within_accesses _).mono fun x t ht => ⟨i, h1, h2, ht⟩
    · rintro x t u ⟨i, hi, hi', ht⟩ ⟨j, hj, hj', hu⟩
      exact hs i j hi (by omega) (by omega) x t u ht hu
  | before _ _ ihp ihq =>
    exact raceFree_bind (ihp (fun i h1 h2 => hR i h1 (by omega))
        fun i j h1 h2 h3 => hs i j h1 h2 (by omega))
      fun _ => ihq (fun i h1 h2 => hR i (by omega) (by omega))
        fun i j h1 h2 h3 => hs i j (by omega) h2 (by omega)

end Covers

/-! ## Programs with their loops implemented -/

/-- `p'` is `p` with its parallel loops replaced by programs of `L`, each dynamic
instance of a loop by its own. -/
inductive Implements (L : Nat → (Nat → Prog ν Unit) → Prog ν Unit → Prop) :
    {α : Type} → Prog ν α → Prog ν α → Prop
  | ret {α : Type} (a : α) : Implements L (.ret a) (.ret a)
  | fail {α : Type} : Implements L (.fail : Prog ν α) .fail
  | act {α β : Type} {x : ν} {op : VecOp β} {k' k : β → Prog ν α}
      (hk : ∀ b, Implements L (k' b) (k b)) : Implements L (.act x op k') (.act x op k)
  | fork {α : Type} {p' p q' q : Prog ν Unit} {k' k : Prog ν α} (hp : Implements L p' p)
      (hq : Implements L q' q) (hk : Implements L k' k) :
      Implements L (.fork p' q' k') (.fork p q k)
  | call {α β : Type} {own : ν → Vec} {p' p : Prog ν β} {k' k : β → Prog ν α}
      (hp : Implements L p' p) (hk : ∀ b, Implements L (k' b) (k b)) :
      Implements L (.call own p' k') (.call own p k)
  | loop {α : Type} {n : Nat} {body' body : Nat → Prog ν Unit} {p : Prog ν Unit}
      {k' k : Prog ν α} (hbody : ∀ i < n, Implements L (body' i) (body i)) (hp : L n body' p)
      (hk : Implements L k' k) : Implements L (do p; k') (do parFor n body; k)

section Implements

variable {L : Nat → (Nat → Prog ν Unit) → Prog ν Unit → Prop}

theorem Implements.refl (p : Prog ν α) : Implements L p p := by
  induction p with
  | ret a => exact .ret a
  | fail => exact .fail
  | act x op k ih => exact .act ih
  | fork p q k ihp ihq ihk => exact .fork ihp ihq ihk
  | call own p k ihp ihk => exact .call ihp ihk

theorem Implements.bind {p' p : Prog ν α} {f' f : α → Prog ν β} (h : Implements L p' p)
    (hf : ∀ a, Implements L (f' a) (f a)) : Implements L (p' >>= f') (p >>= f) := by
  induction h with
  | ret a => exact hf a
  | fail => exact .fail
  | act _ ih => exact .act fun b => ih b hf
  | fork hp hq _ _ _ ihk => exact .fork hp hq (ihk hf)
  | call hp _ _ ihk => exact .call hp fun b => ihk b hf
  | loop hbody hp _ _ ihk =>
    rw [bind_assoc, bind_assoc]
    exact .loop hbody hp (ihk hf)

theorem Implements.parFor {n : Nat} {body' body : Nat → Prog ν Unit} {p : Prog ν Unit}
    (hbody : ∀ i < n, Implements L (body' i) (body i)) (hp : L n body' p) :
    Implements L p (parFor n body) := by
  have h := Implements.loop hbody hp (.ret ())
  rwa [bind_ret, bind_ret] at h

variable (hL : ∀ n body p, L n body p → Covers body 0 n p) {p' p : Prog ν α}

include hL

theorem Implements.within (h : Implements L p' p) {F : Footprint ν} (hF : p.Within F) :
    p'.Within F := by
  induction h with
  | ret a => trivial
  | fail => trivial
  | act _ ih => exact ⟨hF.1, fun b => ih b (hF.2 b)⟩
  | fork _ _ _ ihp ihq ihk => exact ⟨ihp hF.1, ihq hF.2.1, ihk hF.2.2⟩
  | call _ _ _ ihk => exact fun b => ihk b (hF b)
  | @loop α n body' body p k' k _ hp _ ihb ihk =>
    have hk : k.Within F := by
      cases n with
      | zero => exact hF
      | succ n => exact hF.2.2
    have hb : (Prog.parFor n body).Within F := by
      cases n with
      | zero => trivial
      | succ n => exact ⟨hF.1, hF.2.1, trivial⟩
    exact within_bind ((hL _ _ _ hp).within fun i _ hi =>
      ihb i (by omega) (within_of_parFor hb i (by omega))) fun _ => ihk hk

theorem Implements.raceFree (h : Implements L p' p) (hR : p.RaceFree) : p'.RaceFree := by
  induction h with
  | ret a => trivial
  | fail => trivial
  | act _ ih => exact fun b => ih b (hR b)
  | fork hp hq _ ihp ihq ihk =>
    obtain ⟨hRp, hRq, hRk, F, G, hF, hG, hFG⟩ := hR
    exact ⟨ihp hRp, ihq hRq, ihk hRk, F, G, hp.within hL hF, hq.within hL hG, hFG⟩
  | call _ _ ihp ihk => exact ⟨ihp hR.1, fun b => ihk b (hR.2 b)⟩
  | @loop α n body' body p k' k hbody hp _ ihb ihk =>
    have hk : k.RaceFree := by
      cases n with
      | zero => exact hR
      | succ n => exact hR.2.2.1
    have hloop : (Prog.parFor n body).RaceFree := by
      cases n with
      | zero => trivial
      | succ n => exact ⟨hR.1, hR.2.1, trivial, hR.2.2.2⟩
    refine raceFree_bind ((hL _ _ _ hp).raceFree (fun i _ hi => ihb i (by omega)
      (raceFree_of_parFor hloop i (by omega))) fun i j _ hij hj => ?_) fun _ => ihk hk
    exact ((hbody i (by omega)).within hL (within_accesses _)).separate
      ((hbody j (by omega)).within hL (within_accesses _))
      (separate_of_parFor hloop i (by omega) j (by omega) (by omega))

theorem Implements.run_eq [DecidableEq ν] (h : Implements L p' p) (s : Store ν) :
    p'.run s = p.run s := by
  induction h generalizing s with
  | ret a => rfl
  | fail => rfl
  | act _ ih =>
    rw [run_act, run_act]
    congr 1
    funext r
    exact ih r.1 _
  | fork _ _ _ ihp ihq ihk =>
    rw [run_fork, run_fork, ihp]
    congr 1
    funext r
    rw [ihq]
    congr 1
    funext r
    exact ihk r.2
  | call _ _ ihp ihk =>
    rw [run_call, run_call, ihp]
    congr 1
    funext r
    exact ihk r.1 s
  | @loop α n body' body p k' k _ hp _ ihb ihk =>
    have hserial : ∀ m ≤ n, (serialFor m body').run s = (serialFor m body).run s := by
      intro m hm
      induction m with
      | zero => rfl
      | succ m ih =>
        rw [run_serialFor_succ, run_serialFor_succ, ih (by omega)]
        congr 1
        funext r
        exact ihb m (by omega) r.2
    rw [run_bind, run_bind, (hL _ _ _ hp).run_eq, rangeFor_zero, hserial n (Nat.le_refl n),
      run_parFor]
    congr 1
    funext r
    exact ihk r.2

/-- **Implemented loops.** Cutting the parallel loops of a race-free call into tasks
does not change what it returns, and no schedule does. -/
theorem Implements.everySchedule [DecidableEq ν] (h : Implements L p' p) (hR : p.RaceFree) {a : α}
    (hp : p.eval = some a) : p'.EverySchedule a :=
  everySchedule_of_eval (h.raceFree hL hR) (by rw [eval, h.run_eq hL]; exact hp)

end Implements

end BigintMultiply.ForkJoin.Prog
