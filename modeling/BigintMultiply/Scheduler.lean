import Mathlib.Algebra.BigOperators.Group.Finset.Piecewise
import Mathlib.Algebra.Order.BigOperators.Group.Finset
import Mathlib.Data.List.Infix
import Mathlib.Tactic.Ring
import BigintMultiply.Library.Positions
import BigintMultiply.Library.Transitions
import BigintMultiply.WorkStealingDeque

/-! The work-stealing scheduler of the vendored library, `scheduler.h`.

Workers run a fork-join program: `pardo` pushes its right task as a job, runs the
left one and then takes the job back or waits for the thief, doing other jobs
meanwhile. A job is named by the position of its fork. The deques are the lists with
atomic operations that the arrays were shown to be, with their capacity, and attempts
to find work that fail are no steps.

* `Inv`: what holds between the stacks, the deques, the flags and the program;
* `Step.preserves`: every step of every worker keeps it;
* `Step.refines`: what the workers do to the program are steps of the program;
* `run_safe`: the assertions hold, jobs run once, and the result is the right one. -/

namespace BigintMultiply.Scheduler
open ForkJoin Prog Transitions
open WorkStealingDeque (qSize)

/-- A call on the stack of a worker. `π` is the position of a fork. -/
inductive Frame
  /-- The call that started the scheduler. -/
  | main
  /-- `worker()`, looking for a job. -/
  | worker
  /-- `pardo` runs `left()`. -/
  | left (π : Pos)
  /-- `pardo` has got its job back and runs `execute_right()`. -/
  | right (π : Pos)
  /-- `pardo` is in `wait_until`, looking for other jobs. -/
  | wait (π : Pos)
  /-- `(*job)()` of a job that was found. -/
  | job (π : Pos)
  deriving DecidableEq, Repr

/-- The task whose code the frame runs. -/
def Frame.task : Frame → Option Pos
  | .main => some []
  | .worker => none
  | .left π => some (π ++ [.left])
  | .right π => some (π ++ [.right])
  | .wait _ => none
  | .job π => some (π ++ [.right])

/-- The fork of a frame of `pardo`. -/
def Frame.fork : Frame → Option Pos
  | .left π => some π
  | .right π => some π
  | .wait π => some π
  | _ => none

/-- Frames that look for a job. -/
def Frame.Idle : Frame → Prop
  | .worker => True
  | .wait _ => True
  | _ => False

/-- The program as far as it has run, and the workers. `bot w` is the index at which
the deque of `w` gets its next job, and `aborted` says that a push has found its
array full and ended the process. `done π` says that the job of the fork at `π`
exists and has finished; `closure π` is the code it was made of. -/
structure State (θ ν α : Type) where
  prog : Prog ν α
  mem : Store ν
  stack : θ → List Frame
  deque : θ → List Pos
  bot : θ → Nat
  aborted : Bool
  done : Pos → Bool
  closure : Pos → Option (Prog ν Unit)

section Model

variable {θ ν α : Type} [DecidableEq θ] [DecidableEq ν]

def initial (w₀ : θ) (p : Prog ν α) (m : Store ν) : State θ ν α where
  prog := p
  mem := m
  stack := fun w => if w = w₀ then [.main] else [.worker]
  deque := fun _ => []
  bot := fun _ => 0
  aborted := false
  done := fun _ => false
  closure := fun _ => none

def State.setStack (s : State θ ν α) (w : θ) (l : List Frame) : State θ ν α :=
  { s with stack := Function.update s.stack w l }

def State.setDeque (s : State θ ν α) (w : θ) (l : List Pos) : State θ ν α :=
  { s with deque := Function.update s.deque w l }

def State.setBot (s : State θ ν α) (w : θ) (n : Nat) : State θ ν α :=
  { s with bot := Function.update s.bot w n }

def State.setDone (s : State θ ν α) (π : Pos) (b : Bool) : State θ ν α :=
  { s with done := Function.update s.done π b }

/-- `pardo` returns: the job object is gone and the task goes on behind the fork. -/
def State.leave (s : State θ ν α) (π : Pos) : State θ ν α :=
  { s.setDone π false with prog := s.prog.resume π }

/-- Where the next job goes after a pop that leaves the jobs `d`. -/
def botAfter (bot : Nat) (d : List Pos) : Nat := if d = [] then 0 else bot - 1

/-- What worker `w` may do next. -/
inductive Move (s : State θ ν α) (w : θ) : State θ ν α → Prop
  /-- The code on top of the stack makes an access. -/
  | access {f : Frame} {l : List Frame} {π : Pos} {p : Prog ν α} {m : Store ν}
      (hs : s.stack w = f :: l) (hf : f.task = some π) (h : AccessAt π s.prog s.mem p m) :
      Move s w { s with prog := p, mem := m }
  /-- `pardo` makes the job, pushes it and calls `left()`. -/
  | spawn {f : Frame} {l : List Frame} {π : Pos} {q : Prog ν Unit} (hs : s.stack w = f :: l)
      (hf : f.task = some π) (hk : s.prog.kindAt π = some .forked)
      (hq : s.prog.task (π ++ [.right]) = some ⟨Unit, q⟩) (hb : s.bot w + 1 ≠ qSize) :
      Move s w {
        (((s.setStack w (.left π :: f :: l)).setDeque w (s.deque w ++ [π])).setBot w
          (s.bot w + 1)).setDone π false
        with closure := Function.update s.closure π (some q) }
  /-- The push of `pardo` finds the array full and calls `std::abort()`. -/
  | abort {f : Frame} {l : List Frame} {π : Pos} (hs : s.stack w = f :: l)
      (hf : f.task = some π) (hk : s.prog.kindAt π = some .forked) (hb : s.bot w + 1 = qSize) :
      Move s w { s with aborted := true }
  /-- `left()` has returned and `get_own_job` returns a job. -/
  | ownJob {l : List Frame} {π j : Pos} {d : List Pos} (hs : s.stack w = .left π :: l)
      (hl : s.prog.kindAt (π ++ [.left]) = some .returned) (hd : s.deque w = d ++ [j]) :
      Move s w (((s.setStack w (.right π :: l)).setDeque w d).setBot w (botAfter (s.bot w) d))
  /-- `left()` has returned and `get_own_job` returns `nullptr`. -/
  | noJob {l : List Frame} {π : Pos} (hs : s.stack w = .left π :: l)
      (hl : s.prog.kindAt (π ++ [.left]) = some .returned) (hd : s.deque w = []) :
      Move s w ((s.setStack w (.wait π :: l)).setBot w 0)
  /-- `execute_right()` has returned. -/
  | rightReturn {l : List Frame} {π : Pos} (hs : s.stack w = .right π :: l)
      (hr : s.prog.kindAt (π ++ [.right]) = some .returned) :
      Move s w ((s.setStack w l).leave π)
  /-- `wait_until` finds that the job has finished. -/
  | waitReturn {l : List Frame} {π : Pos} (hs : s.stack w = .wait π :: l) (hd : s.done π = true) :
      Move s w ((s.setStack w l).leave π)
  /-- `get_job` finds a job in the worker's own deque. -/
  | ownWork {f : Frame} {l : List Frame} {j : Pos} {d : List Pos} (hs : s.stack w = f :: l)
      (hf : f.Idle) (hd : s.deque w = d ++ [j]) :
      Move s w (((s.setStack w (.job j :: f :: l)).setDeque w d).setBot w (botAfter (s.bot w) d))
  /-- `try_steal` takes a job from the deque of `v`. -/
  | steal {f : Frame} {l : List Frame} {v : θ} {j : Pos} {d : List Pos} (hs : s.stack w = f :: l)
      (hf : f.Idle) (hd : s.deque v = j :: d) :
      Move s w ((s.setStack w (.job j :: f :: l)).setDeque v d)
  /-- The code of a job has returned. -/
  | jobReturn {l : List Frame} {π : Pos} (hs : s.stack w = .job π :: l)
      (hr : s.prog.kindAt (π ++ [.right]) = some .returned) :
      Move s w ((s.setStack w l).setDone π true)

/-- One step of worker `w`, unless the process has ended. -/
structure Step (s : State θ ν α) (w : θ) (s' : State θ ν α) : Prop where
  live : s.aborted = false
  move : Move s w s'

end Model

/-! ## Stacks -/

/-- What may stand on what: a `pardo` on the code that forks, a job on a search. -/
inductive Chain : List Frame → Prop
  | main : Chain [.main]
  | worker : Chain [.worker]
  | fork {f g : Frame} {l : List Frame} {π : Pos} (hf : f.fork = some π) (hg : g.task = some π)
      (h : Chain (g :: l)) : Chain (f :: g :: l)
  | job {g : Frame} {l : List Frame} {π : Pos} (hg : g.Idle) (h : Chain (g :: l)) :
      Chain (.job π :: g :: l)

/-- The jobs that `pardo` may still find in its own deque: those of the calls of
`left()` since the last search for a job, from the oldest. -/
def lefts : List Frame → List Pos
  | .left π :: l => lefts l ++ [π]
  | .right _ :: l => lefts l
  | _ => []

/-- The frames that run the task at `π`. -/
def tasks (π : Pos) (l : List Frame) : Nat := l.countP fun f => f.task = some π

/-- The frames of `pardo` at `π`. -/
def forks (π : Pos) (l : List Frame) : Nat := l.countP fun f => f.fork = some π

/-- The frames of `pardo` at `π` that have not got their job back. -/
def owners (π : Pos) (l : List Frame) : Nat := l.count (.left π) + l.count (.wait π)

theorem Frame.Idle.task_eq {f : Frame} (h : f.Idle) : f.task = none := by
  cases f <;> first | rfl | cases h

theorem Frame.Idle.lefts_eq {f : Frame} (h : f.Idle) (l : List Frame) : lefts (f :: l) = [] := by
  cases f <;> first | rfl | cases h

theorem tasks_cons (π : Pos) (f : Frame) (l : List Frame) :
    tasks π (f :: l) = tasks π l + if f.task = some π then 1 else 0 := by
  simp [tasks, List.countP_cons]

theorem forks_cons (π : Pos) (f : Frame) (l : List Frame) :
    forks π (f :: l) = forks π l + if f.fork = some π then 1 else 0 := by
  simp [forks, List.countP_cons]

/-- Code that has forked stands under its `pardo`, except on top. -/
theorem Chain.tasks_eq {f : Frame} {l : List Frame} (h : Chain (f :: l)) (π : Pos) :
    tasks π (f :: l) = forks π (f :: l) + if f.task = some π then 1 else 0 := by
  generalize hfl : f :: l = k at h
  induction h generalizing f l with
  | main => cases hfl; simp [tasks, forks, Frame.fork]
  | worker => cases hfl; simp [tasks, forks, Frame.fork]
  | @fork f g l σ hf hg h ih =>
    cases hfl
    rw [tasks_cons, forks_cons, ih rfl, hf, hg]
  | job hg h ih =>
    cases hfl
    rw [tasks_cons, forks_cons, ih rfl, hg.task_eq]
    simp [Frame.fork]

theorem forks_eq (π : Pos) (l : List Frame) : forks π l = owners π l + l.count (.right π) := by
  induction l with
  | nil => rfl
  | cons f l ih =>
    rw [forks_cons, ih]
    simp only [owners, List.count_cons]
    cases f <;> simp [Frame.fork] <;> split <;> omega

theorem tasks_left (π : Pos) (l : List Frame) : tasks (π ++ [.left]) l = l.count (.left π) := by
  induction l with
  | nil => rfl
  | cons f l ih =>
    rw [tasks_cons, ih, List.count_cons]
    cases f <;> simp [Frame.task]

theorem tasks_right (π : Pos) (l : List Frame) :
    tasks (π ++ [.right]) l = l.count (.right π) + l.count (.job π) := by
  induction l with
  | nil => rfl
  | cons f l ih =>
    rw [tasks_cons, ih, List.count_cons, List.count_cons]
    cases f <;> simp [Frame.task] <;> split <;> omega

theorem tasks_nil (l : List Frame) : tasks [] l = l.count .main := by
  induction l with
  | nil => rfl
  | cons f l ih =>
    rw [tasks_cons, ih, List.count_cons]
    cases f <;> simp [Frame.task]

theorem mem_of_mem_lefts {π : Pos} {l : List Frame} (h : π ∈ lefts l) : .left π ∈ l := by
  induction l with
  | nil => cases h
  | cons f l ih =>
    cases f with
    | left σ =>
      rcases List.mem_append.mp h with h | h
      · exact List.mem_cons_of_mem _ (ih h)
      · rw [List.mem_singleton.mp h]
        exact List.mem_cons_self
    | right σ => exact List.mem_cons_of_mem _ (ih h)
    | _ => cases h

/-! ## The invariant -/

section Places

variable {ν α : Type}

/-- The program stands where the frame says. -/
structure Placed (p : Prog ν α) (f : Frame) : Prop where
  forked : ∀ π, f.fork = some π → p.kindAt π = some .forked
  leftDone : ∀ π, f = .right π ∨ f = .wait π → p.kindAt (π ++ [.left]) = some .returned

theorem placed_left {p : Prog ν α} {π : Pos} (hk : p.kindAt π = some .forked) :
    Placed p (.left π) :=
  ⟨fun σ hσ => Option.some.inj hσ ▸ hk, fun σ hσ => by rcases hσ with hσ | hσ <;> cases hσ⟩

theorem placed_right {p : Prog ν α} {π : Pos} (hk : p.kindAt π = some .forked)
    (hl : p.kindAt (π ++ [.left]) = some .returned) : Placed p (.right π) :=
  ⟨fun σ hσ => Option.some.inj hσ ▸ hk, fun σ hσ => by
    rcases hσ with hσ | hσ <;> cases hσ
    exact hl⟩

theorem placed_wait {p : Prog ν α} {π : Pos} (hk : p.kindAt π = some .forked)
    (hl : p.kindAt (π ++ [.left]) = some .returned) : Placed p (.wait π) :=
  ⟨fun σ hσ => Option.some.inj hσ ▸ hk, fun σ hσ => by
    rcases hσ with hσ | hσ <;> cases hσ
    exact hl⟩

theorem placed_job (p : Prog ν α) (π : Pos) : Placed p (.job π) :=
  ⟨fun σ hσ => (by cases hσ), fun σ hσ => by rcases hσ with hσ | hσ <;> cases hσ⟩

/-- The right task of the fork at `π` is the code `q`. -/
def Unstarted (p : Prog ν α) (q : Option (Prog ν Unit)) (π : Pos) : Prop :=
  p.task (π ++ [.right]) = q.map fun q => ⟨Unit, q⟩

end Places

section Invariant

variable {θ ν α : Type} [Fintype θ]

/-- A quantity of the stacks, over all workers. -/
def State.total (s : State θ ν α) (c : List Frame → Nat) : Nat := ∑ w, c (s.stack w)

/-- How often the job of the fork at `π` stands in the deques. -/
def State.queued (s : State θ ν α) (π : Pos) : Nat := ∑ w, (s.deque w).count π

/-- * `law`: a `pardo` that has not got its job back has it in a deque, on a stack
    or finished;
  * `unstarted`: the code of a job in a deque has not begun;
  * `bots`: the array holds at most the jobs of the calls of `left()`. -/
structure Inv (s : State θ ν α) : Prop where
  chain : ∀ w, Chain (s.stack w)
  deques : ∀ w, s.deque w <:+ lefts (s.stack w)
  main : s.total (List.count .main) = 1
  law : ∀ π, s.queued π + s.total (List.count (.job π)) + (s.done π).toNat = s.total (owners π)
  placed : ∀ w, ∀ f ∈ s.stack w, Placed s.prog f
  rightDone : ∀ π, s.done π = true → s.prog.kindAt (π ++ [.right]) = some .returned
  unstarted : ∀ w, ∀ π ∈ s.deque w, Unstarted s.prog (s.closure π) π
  bots : ∀ w, s.bot w ≤ (lefts (s.stack w)).length

/-! ## Sums over the workers -/

theorem sum_update [DecidableEq θ] {β : Type} (g : θ → β) (w : θ) (b : β) (c : β → Nat) :
    ∑ v, c (Function.update g w b v) + c (g w) = ∑ v, c (g v) + c b := by
  have hrest : ∑ v ∈ Finset.univ.erase w, c (Function.update g w b v) =
      ∑ v ∈ Finset.univ.erase w, c (g v) :=
    Finset.sum_congr rfl fun v hv => by rw [Function.update_of_ne (Finset.ne_of_mem_erase hv)]
  rw [← Finset.add_sum_erase _ _ (Finset.mem_univ w),
    ← Finset.add_sum_erase _ _ (Finset.mem_univ w), hrest, Function.update_self]
  ring

theorem le_total (s : State θ ν α) (c : List Frame → Nat) (w : θ) : c (s.stack w) ≤ s.total c :=
  Finset.single_le_sum (f := fun v => c (s.stack v)) (fun _ _ => Nat.zero_le _) (Finset.mem_univ w)

theorem le_queued (s : State θ ν α) (π : Pos) (w : θ) : (s.deque w).count π ≤ s.queued π :=
  Finset.single_le_sum (f := fun v => (s.deque v).count π) (fun _ _ => Nat.zero_le _)
    (Finset.mem_univ w)

theorem exists_of_total_pos {s : State θ ν α} {c : List Frame → Nat} (h : 0 < s.total c) :
    ∃ w, 0 < c (s.stack w) := by
  obtain ⟨w, -, hw⟩ := Finset.exists_ne_zero_of_sum_ne_zero (Nat.ne_of_gt h)
  exact ⟨w, Nat.pos_of_ne_zero hw⟩

theorem exists_of_queued_pos {s : State θ ν α} {π : Pos} (h : 0 < s.queued π) :
    ∃ w, π ∈ s.deque w := by
  obtain ⟨w, -, hw⟩ := Finset.exists_ne_zero_of_sum_ne_zero (Nat.ne_of_gt h)
  exact ⟨w, List.count_pos_iff.mp (Nat.pos_of_ne_zero hw)⟩

theorem total_forks (s : State θ ν α) (π : Pos) :
    s.total (forks π) = s.total (owners π) + s.total (List.count (.right π)) := by
  simp only [State.total, forks_eq, Finset.sum_add_distrib]

theorem total_tasks_right (s : State θ ν α) (π : Pos) : s.total (tasks (π ++ [.right])) =
    s.total (List.count (.right π)) + s.total (List.count (.job π)) := by
  simp only [State.total, tasks_right, Finset.sum_add_distrib]

theorem total_tasks_left (s : State θ ν α) (π : Pos) :
    s.total (tasks (π ++ [.left])) ≤ s.total (owners π) := by
  simp only [State.total, tasks_left]
  exact Finset.sum_le_sum fun w _ => Nat.le_add_right _ _

section Consequences

variable {s : State θ ν α} (h : Inv s)

include h

/-- No code forks twice at a time, and code on top of a stack has not forked. -/
theorem Inv.forks_le (π : Pos) : s.total (forks π) ≤ s.total (tasks π) := by
  refine Finset.sum_le_sum fun w _ => ?_
  have hw := h.chain w
  cases hl : s.stack w with
  | nil => exact Nat.zero_le _
  | cons f l =>
    rw [hl] at hw
    rw [hw.tasks_eq]
    exact Nat.le_add_right _ _

theorem Inv.forks_lt {w : θ} {f : Frame} {l : List Frame} (hs : s.stack w = f :: l) {π : Pos}
    (hf : f.task = some π) : s.total (forks π) < s.total (tasks π) := by
  refine Finset.sum_lt_sum (fun v _ => ?_) ⟨w, Finset.mem_univ w, ?_⟩
  · have hv := h.chain v
    cases hl : s.stack v with
    | nil => exact Nat.le_refl _
    | cons f l =>
      rw [hl] at hv
      rw [hv.tasks_eq]
      exact Nat.le_add_right _ _
  · have hw := h.chain w
    rw [hs] at hw ⊢
    rw [hw.tasks_eq, if_pos hf]
    exact Nat.lt_succ_self _

theorem Inv.jobs_le (π : Pos) : s.queued π + s.total (List.count (.job π)) ≤ s.total (owners π) :=
  (h.law π) ▸ Nat.le_add_right _ _

/-- The tasks of a fork run below it. -/
theorem Inv.tasks_append_le (π : Pos) (d : Side) :
    s.total (tasks (π ++ [d])) ≤ s.total (forks π) := by
  have hjobs := h.jobs_le π
  rw [total_forks]
  cases d with
  | left => exact Nat.le_trans (total_tasks_left s π) (Nat.le_add_right _ _)
  | right =>
    rw [total_tasks_right]
    omega

/-- **No task is run twice at a time.** -/
theorem Inv.tasks_le_one (π : Pos) : s.total (tasks π) ≤ 1 := by
  induction π using List.reverseRecOn with
  | nil =>
    refine Nat.le_of_eq (Eq.trans ?_ h.main)
    simp only [State.total, tasks_nil]
  | append_singleton π d ih =>
    exact Nat.le_trans (h.tasks_append_le π d) (Nat.le_trans (h.forks_le π) ih)

theorem Inv.forks_le_one (π : Pos) : s.total (forks π) ≤ 1 :=
  Nat.le_trans (h.forks_le π) (h.tasks_le_one π)

/-- Code whose tasks run is run itself. -/
theorem Inv.tasks_pos_of_prefix {σ π : Pos} (hσ : σ <+: π) (hπ : 0 < s.total (tasks π)) :
    0 < s.total (tasks σ) := by
  obtain ⟨ρ, rfl⟩ := hσ
  induction ρ using List.reverseRecOn with
  | nil => rwa [List.append_nil] at hπ
  | append_singleton ρ d ih =>
    rw [← List.append_assoc] at hπ
    exact ih (Nat.lt_of_lt_of_le hπ (Nat.le_trans (h.tasks_append_le _ d) (h.forks_le _)))

/-- The code of a job in a deque is not run by anyone, and its flag is not set. -/
theorem Inv.queued_alone {w : θ} {π : Pos} (hπ : π ∈ s.deque w) :
    s.total (tasks (π ++ [.right])) = 0 ∧ s.done π = false := by
  have hq : 0 < s.queued π := Nat.lt_of_lt_of_le (List.count_pos_iff.mpr hπ) (le_queued s π w)
  have hlaw := h.law π
  have hone := h.forks_le_one π
  rw [total_forks] at hone
  rw [total_tasks_right]
  refine ⟨by omega, ?_⟩
  cases hd : s.done π with
  | false => rfl
  | true =>
    rw [hd, Bool.toNat_true] at hlaw
    omega

/-- The flag of a job that is run is not set. -/
theorem Inv.done_eq_false {w : θ} {π : Pos} (hπ : .job π ∈ s.stack w) : s.done π = false := by
  have hjob : 0 < s.total (List.count (.job π)) :=
    Nat.lt_of_lt_of_le (List.count_pos_iff.mpr hπ) (le_total s _ w)
  have hlaw := h.law π
  have hone := h.forks_le_one π
  rw [total_forks] at hone
  cases hd : s.done π with
  | false => rfl
  | true =>
    rw [hd, Bool.toNat_true] at hlaw
    omega

/-- Code that has not forked has no job. -/
theorem Inv.done_of_task {w : θ} {f : Frame} {l : List Frame} (hs : s.stack w = f :: l) {π : Pos}
    (hf : f.task = some π) : s.done π = false := by
  have hlt := h.forks_lt hs hf
  have hone := h.tasks_le_one π
  have hforks := total_forks s π
  have hlaw := h.law π
  cases hd : s.done π with
  | false => rfl
  | true =>
    rw [hd, Bool.toNat_true] at hlaw
    omega

end Consequences

/-! ## Steps -/

section Steps

variable [DecidableEq θ] {s : State θ ν α} {w : θ}

theorem total_update (s : State θ ν α) (w : θ) (l : List Frame) (c : List Frame → Nat) :
    (s.setStack w l).total c + c (s.stack w) = s.total c + c l := sum_update s.stack w l c

theorem queued_update (s : State θ ν α) (w : θ) (l : List Pos) (π : Pos) :
    (s.setDeque w l).queued π + (s.deque w).count π = s.queued π + l.count π :=
  sum_update s.deque w l fun d => d.count π

omit [Fintype θ] in
/-- What holds of the new value and of all old values holds after an update. -/
theorem forall_update {β : Type} {g : θ → β} {b : β} {P : β → Prop} (hb : P b)
    (hg : ∀ v, P (g v)) (v : θ) : P (Function.update g w b v) := by
  by_cases hv : v = w
  · subst hv
    rwa [Function.update_self]
  · rw [Function.update_of_ne hv]
    exact hg v

theorem owners_cons (π : Pos) (f : Frame) (l : List Frame) : owners π (f :: l) =
    owners π l + if f = .left π ∨ f = .wait π then 1 else 0 := by
  simp only [owners, List.count_cons]
  cases f <;> simp <;> split <;> omega

theorem count_job_cons (π : Pos) (f : Frame) (l : List Frame) : (f :: l).count (.job π) =
    l.count (.job π) + if f = .job π then 1 else 0 := by
  simp [List.count_cons]

theorem count_snoc (π σ : Pos) (d : List Pos) :
    (d ++ [σ]).count π = d.count π + if σ = π then 1 else 0 := by
  simp [List.count_cons]

theorem Chain.of_fork {f : Frame} {l : List Frame} {π : Pos} (h : Chain (f :: l))
    (hf : f.fork = some π) : ∃ g k, l = g :: k ∧ g.task = some π ∧ Chain l := by
  cases h with
  | main => cases hf
  | worker => cases hf
  | fork hf' hg h =>
    rw [hf, Option.some.injEq] at hf'
    exact ⟨_, _, rfl, hf' ▸ hg, h⟩
  | job hg h => cases hf

theorem Chain.of_job {l : List Frame} {π : Pos} (h : Chain (.job π :: l)) :
    Chain l ∧ lefts l = [] := by
  cases h with
  | fork hf _ _ => cases hf
  | job hg h => exact ⟨h, hg.lefts_eq _⟩

omit [DecidableEq θ] in
theorem Inv.left_mem (h : Inv s) {π : Pos} (hπ : π ∈ s.deque w) : .left π ∈ s.stack w :=
  mem_of_mem_lefts ((h.deques w).subset hπ)

omit [DecidableEq θ] in
/-- A search finds the worker's own deque empty. -/
theorem Inv.deque_eq_nil (h : Inv s) {l : List Frame} (hs : s.stack w = l) (hl : lefts l = []) :
    s.deque w = [] := by
  have hd := h.deques w
  rw [hs, hl] at hd
  exact List.suffix_nil.mp hd

omit [DecidableEq θ] in
theorem tasks_pos {f : Frame} {l : List Frame} (hs : s.stack w = f :: l) {π : Pos}
    (hf : f.task = some π) : 0 < s.total (tasks π) := by
  refine Nat.lt_of_lt_of_le ?_ (le_total s (tasks π) w)
  rw [hs, tasks_cons, if_pos hf]
  exact Nat.succ_pos _

omit [DecidableEq θ] in
/-- The code of a job in a deque is apart from all code that is run. -/
theorem Inv.apart (h : Inv s) {v : θ} {σ π : Pos} (hσ : σ ∈ s.deque v)
    (hπ : 0 < s.total (tasks π)) : ¬ σ ++ [.right] <+: π := fun hpre => by
  have hpos := h.tasks_pos_of_prefix hpre hπ
  rw [(h.queued_alone hσ).1] at hpos
  exact Nat.lt_irrefl 0 hpos

theorem Inv.main_update (h : Inv s) {l : List Frame}
    (hl : l.count .main = (s.stack w).count .main) :
    (s.setStack w l).total (List.count .main) = 1 :=
  (Nat.add_right_cancel (hl ▸ total_update s w l (List.count .main))).trans h.main

theorem Inv.deques_update (h : Inv s) {l : List Frame} {d : List Pos} (hd : d <:+ lefts l) (v : θ) :
    Function.update s.deque w d v <:+ lefts (Function.update s.stack w l v) := by
  by_cases hv : v = w
  · subst hv
    rwa [Function.update_self, Function.update_self]
  · rw [Function.update_of_ne hv, Function.update_of_ne hv]
    exact h.deques v

theorem Inv.bots_update (h : Inv s) {l : List Frame} {n : Nat} (hn : n ≤ (lefts l).length)
    (v : θ) : Function.update s.bot w n v ≤ (lefts (Function.update s.stack w l v)).length := by
  by_cases hv : v = w
  · subst hv
    rwa [Function.update_self, Function.update_self]
  · rw [Function.update_of_ne hv, Function.update_of_ne hv]
    exact h.bots v

/-- A step that leaves the arrays alone. -/
theorem Inv.bots_stack (h : Inv s) {l : List Frame} (hl : s.bot w ≤ (lefts l).length) (v : θ) :
    s.bot v ≤ (lefts (Function.update s.stack w l v)).length := by
  have hv := h.bots_update (w := w) hl v
  rwa [Function.update_eq_self] at hv

omit [DecidableEq θ] in
/-- A search starts at the beginning of the array. -/
theorem Inv.bot_eq_zero (h : Inv s) {l : List Frame} (hs : s.stack w = l) (hl : lefts l = []) :
    s.bot w = 0 := by
  have hb := h.bots w
  rw [hs, hl] at hb
  exact Nat.le_zero.mp hb

omit [DecidableEq θ] in
theorem Inv.placed_cons (h : Inv s) {f g : Frame} {l : List Frame} (hs : s.stack w = f :: l)
    (hg : Placed s.prog g) : ∀ f ∈ g :: l, Placed s.prog f :=
  List.forall_mem_cons.mpr ⟨hg, fun f hf => h.placed w f (hs ▸ List.mem_cons_of_mem _ hf)⟩

omit [DecidableEq θ] in
theorem access_preserves [DecidableEq ν] (h : Inv s) {f : Frame} {l : List Frame} {π : Pos}
    {p : Prog ν α} {m : Store ν} (hs : s.stack w = f :: l) (hf : f.task = some π)
    (ha : AccessAt π s.prog s.mem p m) : Inv { s with prog := p, mem := m } where
  chain := h.chain
  deques := h.deques
  main := h.main
  law := h.law
  placed v g hg := ⟨fun σ hσ => ha.kindAt_keep ((h.placed v g hg).forked σ hσ) (by decide),
    fun σ hσ => ha.kindAt_keep ((h.placed v g hg).leftDone σ hσ) (by decide)⟩
  rightDone σ hσ := ha.kindAt_keep (h.rightDone σ hσ) (by decide)
  unstarted v σ hσ := by
    have hπ := tasks_pos hs hf
    obtain ⟨q, hq⟩ := exists_task_of_forked ((h.placed v _ (h.left_mem hσ)).forked σ rfl) .right
    refine Eq.trans (ha.task_eq (fun hpre => ?_) (h.apart hσ hπ)) (h.unstarted v σ hσ)
    obtain ⟨ρ, hρ⟩ := hpre
    cases ρ with
    | nil =>
      rw [List.append_nil] at hρ
      exact h.apart hσ hπ (hρ ▸ List.prefix_refl _)
    | cons d ρ =>
      have hnone := kindAt_below_eq_none ha.running (by decide) d ρ
      rw [hρ, kindAt, hq] at hnone
      cases hnone
  bots := h.bots

/-- `pardo` begins where no other `pardo` is. -/
theorem spawn_preserves (h : Inv s) {f : Frame} {l : List Frame} {π : Pos} {q : Prog ν Unit}
    (hs : s.stack w = f :: l) (hf : f.task = some π) (hk : s.prog.kindAt π = some .forked)
    (hq : s.prog.task (π ++ [.right]) = some ⟨Unit, q⟩) :
    Inv {
      (((s.setStack w (.left π :: f :: l)).setDeque w (s.deque w ++ [π])).setBot w
        (s.bot w + 1)).setDone π false
      with closure := Function.update s.closure π (some q) } where
  chain := forall_update (.fork rfl hf (hs ▸ h.chain w)) h.chain
  deques := h.deques_update (by
    obtain ⟨t, ht⟩ := h.deques w
    exact ⟨t, by rw [lefts, ← hs, ← ht, List.append_assoc]⟩)
  main := h.main_update (by rw [hs]; rfl)
  law σ := by
    have hj := total_update s w (.left π :: f :: l) (List.count (.job σ))
    have ho := total_update s w (.left π :: f :: l) (owners σ)
    have hd := queued_update s w (s.deque w ++ [π]) σ
    have hlaw := h.law σ
    rw [hs, count_job_cons _ (.left π)] at hj
    rw [hs, owners_cons _ (.left π)] at ho
    rw [count_snoc] at hd
    change (s.setDeque w _).queued σ + (s.setStack w _).total _ +
      (Function.update s.done π false σ).toNat = (s.setStack w _).total _
    simp only [Frame.left.injEq, reduceCtorEq, or_false, if_false] at hj ho
    by_cases hσ : π = σ
    · subst hσ
      have hlt := h.forks_lt hs hf
      have hone := h.tasks_le_one π
      have hforks := total_forks s π
      simp only [Function.update_self, Bool.toNat_false, if_true] at ho hd ⊢
      omega
    · rw [Function.update_of_ne (Ne.symm hσ)]
      omega
  placed := forall_update (P := fun l => ∀ f ∈ l, Placed s.prog f)
    (List.forall_mem_cons.mpr ⟨placed_left hk, hs ▸ h.placed w⟩) h.placed
  rightDone σ hσ := by
    change Function.update s.done π false σ = true at hσ
    by_cases hπ : σ = π
    · subst hπ
      rw [Function.update_self] at hσ
      cases hσ
    · rw [Function.update_of_ne hπ] at hσ
      exact h.rightDone σ hσ
  unstarted := by
    have hnew : ∀ σ, (σ ≠ π → Unstarted s.prog (s.closure σ) σ) →
        Unstarted s.prog (Function.update s.closure π (some q) σ) σ := by
      intro σ hσ
      by_cases hπ : σ = π
      · subst hπ
        rw [Function.update_self]
        exact hq
      · rw [Function.update_of_ne hπ]
        exact hσ hπ
    refine forall_update
      (P := fun d => ∀ σ ∈ d, Unstarted s.prog (Function.update s.closure π (some q) σ) σ)
      (fun σ hσ => hnew σ fun hπ => ?_) fun v σ hσ => hnew σ fun _ => h.unstarted v σ hσ
    exact h.unstarted w σ ((List.mem_append.mp hσ).resolve_right fun hm =>
      hπ (List.mem_singleton.mp hm))
  bots := h.bots_update (by
    rw [lefts, ← hs, List.length_append]
    exact Nat.succ_le_succ (h.bots w))

omit [DecidableEq θ] in
/-- The job that `get_own_job` returns is that of the `pardo`. -/
theorem Inv.own_eq (h : Inv s) {l : List Frame} {π j : Pos} {d : List Pos}
    (hs : s.stack w = .left π :: l) (hd : s.deque w = d ++ [j]) : j = π ∧ d <:+ lefts l := by
  obtain ⟨t, ht⟩ := h.deques w
  rw [hs, hd, lefts, ← List.append_assoc] at ht
  obtain ⟨h1, h2⟩ := List.append_inj' ht rfl
  exact ⟨List.singleton_inj.mp h2, t, h1⟩

theorem ownJob_preserves (h : Inv s) {l : List Frame} {π j : Pos} {d : List Pos}
    (hs : s.stack w = .left π :: l) (hl : s.prog.kindAt (π ++ [.left]) = some .returned)
    (hd : s.deque w = d ++ [j]) :
    Inv (((s.setStack w (.right π :: l)).setDeque w d).setBot w (botAfter (s.bot w) d)) := by
  obtain ⟨rfl, hsuffix⟩ := h.own_eq hs hd
  have hfork := h.placed w (.left j) (hs ▸ List.mem_cons_self)
  obtain ⟨g, k, rfl, hg, hk⟩ := (hs ▸ h.chain w : Chain (.left j :: l)).of_fork rfl
  exact {
    chain := forall_update (.fork rfl hg hk) h.chain
    deques := h.deques_update hsuffix
    main := h.main_update (by rw [hs]; rfl)
    law := fun σ => by
      have hj := total_update s w (.right j :: g :: k) (List.count (.job σ))
      have ho := total_update s w (.right j :: g :: k) (owners σ)
      have hq := queued_update s w d σ
      have hlaw := h.law σ
      rw [hs, count_job_cons _ (.left j), count_job_cons _ (.right j)] at hj
      rw [hs, owners_cons _ (.left j), owners_cons _ (.right j)] at ho
      rw [hd, count_snoc] at hq
      change (s.setDeque w _).queued σ + (s.setStack w _).total _ + (s.done σ).toNat =
        (s.setStack w _).total _
      simp only [Frame.left.injEq, reduceCtorEq, or_self, or_false, if_false] at hj ho
      omega
    placed := forall_update (P := fun l => ∀ f ∈ l, Placed s.prog f)
      (h.placed_cons hs (placed_right (hfork.forked _ rfl) hl)) h.placed
    rightDone := h.rightDone
    unstarted := forall_update (P := fun d => ∀ σ ∈ d, Unstarted s.prog (s.closure σ) σ)
      (fun σ hσ => h.unstarted w σ (hd ▸ List.mem_append_left _ hσ)) h.unstarted
    bots := h.bots_update (by
      have hb := h.bots w
      rw [hs, lefts, List.length_append, List.length_singleton] at hb
      rw [lefts, botAfter]
      split <;> omega) }

theorem noJob_preserves (h : Inv s) {l : List Frame} {π : Pos}
    (hs : s.stack w = .left π :: l) (hl : s.prog.kindAt (π ++ [.left]) = some .returned)
    (hd : s.deque w = []) : Inv ((s.setStack w (.wait π :: l)).setBot w 0) := by
  have hfork := h.placed w (.left π) (hs ▸ List.mem_cons_self)
  obtain ⟨g, k, rfl, hg, hk⟩ := (hs ▸ h.chain w : Chain (.left π :: l)).of_fork rfl
  exact {
    chain := forall_update (.fork rfl hg hk) h.chain
    deques := fun v => by
      have hv := h.deques_update (w := w) (l := .wait π :: g :: k) (List.nil_suffix) v
      rwa [← hd, Function.update_eq_self] at hv
    main := h.main_update (by rw [hs]; rfl)
    law := fun σ => by
      have hj := total_update s w (.wait π :: g :: k) (List.count (.job σ))
      have ho := total_update s w (.wait π :: g :: k) (owners σ)
      have hlaw := h.law σ
      rw [hs, count_job_cons _ (.left π), count_job_cons _ (.wait π)] at hj
      rw [hs, owners_cons _ (.left π), owners_cons _ (.wait π)] at ho
      change s.queued σ + (s.setStack w _).total _ + (s.done σ).toNat = (s.setStack w _).total _
      simp only [Frame.left.injEq, Frame.wait.injEq, reduceCtorEq, or_false, false_or,
        if_false] at hj ho
      omega
    placed := forall_update (P := fun l => ∀ f ∈ l, Placed s.prog f)
      (h.placed_cons hs (placed_wait (hfork.forked _ rfl) hl)) h.placed
    rightDone := h.rightDone
    unstarted := h.unstarted
    bots := h.bots_update (Nat.zero_le _) }

theorem steal_preserves (h : Inv s) {f : Frame} {l : List Frame} {v : θ} {j : Pos} {d : List Pos}
    (hs : s.stack w = f :: l) (hf : f.Idle) (hd : s.deque v = j :: d) :
    Inv ((s.setStack w (.job j :: f :: l)).setDeque v d) where
  chain := forall_update (.job hf (hs ▸ h.chain w)) h.chain
  deques u := by
    have hu := h.deques_update (w := w) (l := .job j :: f :: l) List.nil_suffix u
    rw [← h.deque_eq_nil hs (hf.lefts_eq l), Function.update_eq_self] at hu
    refine List.IsSuffix.trans ?_ hu
    by_cases huv : u = v
    · subst huv
      simp only [State.setDeque, Function.update_self, hd]
      exact List.suffix_cons j d
    · simp only [State.setDeque, State.setStack, Function.update_of_ne huv]
      exact List.suffix_refl _
  main := h.main_update (by rw [hs]; rfl)
  law σ := by
    have hj := total_update s w (.job j :: f :: l) (List.count (.job σ))
    have ho := total_update s w (.job j :: f :: l) (owners σ)
    have hq := queued_update s v d σ
    have hlaw := h.law σ
    rw [hs, count_job_cons _ (.job j)] at hj
    rw [hs, owners_cons _ (.job j)] at ho
    rw [hd, List.count_cons] at hq
    change (s.setDeque v _).queued σ + (s.setStack w _).total _ + (s.done σ).toNat =
      (s.setStack w _).total _
    simp only [Frame.job.injEq, reduceCtorEq, or_self, if_false, beq_iff_eq] at hj ho hq
    omega
  placed := forall_update (P := fun l => ∀ f ∈ l, Placed s.prog f)
    (List.forall_mem_cons.mpr ⟨placed_job _ j, hs ▸ h.placed w⟩) h.placed
  rightDone := h.rightDone
  unstarted := forall_update (P := fun d => ∀ σ ∈ d, Unstarted s.prog (s.closure σ) σ)
    (fun σ hσ => h.unstarted v σ (hd ▸ List.mem_cons_of_mem _ hσ)) h.unstarted
  bots := h.bots_stack (h.bot_eq_zero hs (hf.lefts_eq l) ▸ Nat.zero_le _)

theorem jobReturn_preserves (h : Inv s) {l : List Frame} {π : Pos} (hs : s.stack w = .job π :: l)
    (hr : s.prog.kindAt (π ++ [.right]) = some .returned) :
    Inv ((s.setStack w l).setDone π true) := by
  obtain ⟨hchain, hlefts⟩ := (hs ▸ h.chain w : Chain (.job π :: l)).of_job
  exact {
    chain := forall_update hchain h.chain
    deques := fun v => by
      have hv := h.deques_update (w := w) (l := l) List.nil_suffix v
      rwa [← h.deque_eq_nil hs rfl, Function.update_eq_self] at hv
    main := h.main_update (by rw [hs]; rfl)
    law := fun σ => by
      have hj := total_update s w l (List.count (.job σ))
      have ho := total_update s w l (owners σ)
      have hlaw := h.law σ
      rw [hs, count_job_cons _ (.job π)] at hj
      rw [hs, owners_cons _ (.job π)] at ho
      change s.queued σ + (s.setStack w _).total _ + (Function.update s.done π true σ).toNat =
        (s.setStack w _).total _
      simp only [Frame.job.injEq, reduceCtorEq, or_self, if_false] at hj ho
      by_cases hσ : π = σ
      · subst hσ
        have hone := h.forks_le_one π
        have hforks := total_forks s π
        simp only [Function.update_self, Bool.toNat_true, if_true] at hj ⊢
        omega
      · rw [Function.update_of_ne (Ne.symm hσ)]
        rw [if_neg hσ] at hj
        omega
    placed := forall_update (P := fun l => ∀ f ∈ l, Placed s.prog f)
      (fun f hf => h.placed w f (hs ▸ List.mem_cons_of_mem _ hf)) h.placed
    rightDone := fun σ hσ => by
      change Function.update s.done π true σ = true at hσ
      by_cases hπ : σ = π
      · subst hπ
        exact hr
      · rw [Function.update_of_ne hπ] at hσ
        exact h.rightDone σ hσ
    unstarted := h.unstarted
    bots := h.bots_stack (h.bot_eq_zero hs rfl ▸ Nat.zero_le _) }

/-- `pardo` returns when both of its tasks have. -/
theorem leave_preserves (h : Inv s) {f : Frame} {l : List Frame} {π : Pos}
    (hs : s.stack w = f :: l) (hf : f = .right π ∨ f = .wait π ∧ s.done π = true)
    (hl : s.prog.kindAt (π ++ [.left]) = some .returned)
    (hr : s.prog.kindAt (π ++ [.right]) = some .returned) : Inv ((s.setStack w l).leave π) := by
  have hfork : f.fork = some π := by rcases hf with rfl | ⟨rfl, -⟩ <;> rfl
  have hdeque : s.deque w <:+ lefts l := by
    rcases hf with rfl | ⟨rfl, -⟩
    · exact (hs ▸ h.deques w : s.deque w <:+ lefts (.right π :: l))
    · exact (h.deque_eq_nil hs rfl) ▸ List.nil_suffix
  have hbot : s.bot w ≤ (lefts l).length := by
    rcases hf with rfl | ⟨rfl, -⟩
    · exact (hs ▸ h.bots w : s.bot w ≤ (lefts (.right π :: l)).length)
    · exact h.bot_eq_zero hs rfl ▸ Nat.zero_le _
  obtain ⟨g, k, rfl, hg, hk⟩ := (hs ▸ h.chain w : Chain (f :: l)).of_fork hfork
  have hπ : s.prog.kindAt π = some .forked :=
    (h.placed w f (hs ▸ List.mem_cons_self)).forked π hfork
  have hone := h.forks_le_one π
  have hforks := total_update s w (g :: k) (forks π)
  rw [hs, forks_cons π f, if_pos hfork] at hforks
  have htasks : 0 < s.total (tasks π) := Nat.lt_of_lt_of_le (by omega) (h.forks_le π)
  -- the frames that stay are at forks outside of the one that is left
  have hplaced : ∀ v, ∀ e ∈ Function.update s.stack w (g :: k) v, Placed s.prog e :=
    forall_update (P := fun l => ∀ f ∈ l, Placed s.prog f)
      (fun e he => h.placed w e (hs ▸ List.mem_cons_of_mem _ he)) h.placed
  have hforked : ∀ {σ : Pos}, s.prog.kindAt σ = some .forked → σ ≠ π → ¬ π <+: σ := by
    intro σ hσ hne hpre
    rcases of_prefix_of_returned (fun d => by cases d <;> assumption) hσ hpre with heq | ⟨-, hc⟩
    · exact hne heq
    · cases hc
  have hnot : ∀ v, ∀ e ∈ Function.update s.stack w (g :: k) v, ∀ σ, e.fork = some σ →
      ¬ π <+: σ := by
    intro v e he σ hσ
    refine hforked ((hplaced v e he).forked σ hσ) fun hσπ => ?_
    have hle := le_total (s.setStack w (g :: k)) (forks π) v
    have hpos : 0 < forks π (Function.update s.stack w (g :: k) v) :=
      List.countP_pos_iff.mpr ⟨e, he, by simp [hσ, hσπ]⟩
    change forks π (Function.update s.stack w (g :: k) v) ≤ _ at hle
    omega
  have hkeep : ∀ {σ : Pos} {d : Side} {c : Kind}, c ≠ .forked → ¬ π <+: σ →
      s.prog.kindAt (σ ++ [d]) = some c → (s.prog.resume π).kindAt (σ ++ [d]) = some c := by
    intro σ d c hc hσ hk
    refine (resume_kindAt_eq s.prog fun hpre => ?_).trans hk
    rcases List.prefix_concat_iff.mp hpre with rfl | hpre
    · exact hc (Option.some.inj (hk.symm.trans hπ))
    · exact hσ hpre
  exact {
    chain := forall_update hk h.chain
    deques := fun v => by
      have hv := h.deques_update (w := w) (l := g :: k) hdeque v
      rwa [Function.update_eq_self] at hv
    main := h.main_update (by rw [hs]; rcases hf with rfl | ⟨rfl, -⟩ <;> rfl)
    law := fun σ => by
      have hj := total_update s w (g :: k) (List.count (.job σ))
      have ho := total_update s w (g :: k) (owners σ)
      have hlaw := h.law σ
      have hlawπ := h.law π
      have hforksπ := total_forks s π
      rw [hs, count_job_cons _ f] at hj
      rw [hs, owners_cons _ f] at ho
      change s.queued σ + (s.setStack w _).total _ + (Function.update s.done π false σ).toNat =
        (s.setStack w _).total _
      have hdone : (Function.update s.done π false σ).toNat =
          if π = σ then 0 else (s.done σ).toNat := by
        split
        · subst π
          rw [Function.update_self]
          rfl
        · rename_i hne
          rw [Function.update_of_ne (Ne.symm hne)]
      rw [hdone]
      rcases hf with rfl | ⟨rfl, hd⟩
      · have hright : 0 < s.total (List.count (.right π)) :=
          Nat.lt_of_lt_of_le (List.count_pos_iff.mpr (hs ▸ List.mem_cons_self)) (le_total s _ w)
        simp only [reduceCtorEq, or_self, if_false] at hj ho
        split
        · subst π
          omega
        · omega
      · simp only [Frame.wait.injEq, reduceCtorEq, false_or, if_false] at hj ho
        split
        · subst π
          rw [hd, Bool.toNat_true] at hlaw
          rw [if_pos rfl] at ho
          omega
        · rename_i hne
          rw [if_neg hne] at ho
          omega
    placed := fun v e he => ⟨fun σ hσ => (resume_kindAt_eq s.prog (hnot v e he σ hσ)).trans
        ((hplaced v e he).forked σ hσ), fun σ hσ => by
      refine hkeep (by decide) (hnot v e he σ ?_) ((hplaced v e he).leftDone σ hσ)
      rcases hσ with rfl | rfl <;> rfl⟩
    rightDone := fun σ hσ => by
      change Function.update s.done π false σ = true at hσ
      by_cases hne : σ = π
      · subst hne
        rw [Function.update_self] at hσ
        cases hσ
      · rw [Function.update_of_ne hne] at hσ
        have hret := h.rightDone σ hσ
        exact hkeep (by decide) (hforked (forked_of_below hret) hne) hret
    unstarted := fun v σ hσ => by
      have hleft : .left σ ∈ Function.update s.stack w (g :: k) v := by
        by_cases hv : v = w
        · subst hv
          rw [Function.update_self]
          exact mem_of_mem_lefts (hdeque.subset hσ)
        · rw [Function.update_of_ne hv]
          exact h.left_mem hσ
      refine Eq.trans (resume_task_eq s.prog (fun hpre => ?_) (h.apart hσ htasks))
        (h.unstarted v σ hσ)
      rcases List.prefix_concat_iff.mp hpre with rfl | hpre
      · exact h.apart hσ htasks (List.prefix_refl _)
      · exact hnot v _ hleft σ rfl hpre
    bots := h.bots_stack hbot }

/-- A `pardo` that returns leaves the code on top of the other stacks where it is. -/
theorem leave_keep (h : Inv s) {f : Frame} {l : List Frame} {π : Pos} (hs : s.stack w = f :: l)
    (hf : f = .right π ∨ f = .wait π ∧ s.done π = true)
    (hret : ∀ d, s.prog.kindAt (π ++ [d]) = some .returned) {v : θ} (hv : v ≠ w) {g : Frame}
    {k : List Frame} {σ : Pos} {c : Kind} (hsv : s.stack v = g :: k) (hg : g.task = some σ)
    (hσ : s.prog.kindAt σ = some c) : (s.prog.resume π).kindAt σ = some c := by
  have hfork : f.fork = some π := by rcases hf with rfl | ⟨rfl, -⟩ <;> rfl
  have hone := h.forks_le_one π
  have hpos : 0 < forks π (s.stack w) := by
    rw [hs, forks_cons, if_pos hfork]
    exact Nat.succ_pos _
  have hle := le_total s (forks π) w
  -- the other worker is not in this `pardo`
  have hzero : forks π (g :: k) = 0 := by
    have hupdate := total_update s w [] (forks π)
    have hother := le_total (s.setStack w []) (forks π) v
    have hstack : (s.setStack w []).stack v = g :: k := (Function.update_of_ne hv _ _).trans hsv
    rw [hstack] at hother
    change _ + _ = _ + 0 at hupdate
    omega
  rw [forks_cons] at hzero
  refine (resume_kindAt_eq s.prog fun hpre => ?_).trans hσ
  rcases of_prefix_of_returned hret hσ hpre with rfl | ⟨⟨d, rfl⟩, -⟩
  · have hlt := h.forks_lt hsv hg
    have htasks := h.tasks_le_one σ
    omega
  · cases g with
    | left ρ =>
      obtain ⟨rfl, -⟩ := List.append_inj' (Option.some.inj hg) rfl
      simp [Frame.fork] at hzero
    | right ρ =>
      obtain ⟨rfl, -⟩ := List.append_inj' (Option.some.inj hg) rfl
      simp [Frame.fork] at hzero
    | job ρ =>
      obtain ⟨rfl, hd⟩ := List.append_inj' (Option.some.inj hg) rfl
      have hjob : .job ρ ∈ s.stack v := hsv ▸ List.mem_cons_self
      rcases hf with rfl | ⟨-, hdone⟩
      · have hright := le_total s (List.count (.right ρ)) w
        have hjobs := le_total s (List.count (.job ρ)) v
        have htasks := h.tasks_le_one (ρ ++ [.right])
        have hr := List.count_pos_iff.mpr (hs ▸ List.mem_cons_self : .right ρ ∈ s.stack w)
        have hj := List.count_pos_iff.mpr hjob
        rw [total_tasks_right] at htasks
        omega
      · cases (h.done_eq_false hjob).symm.trans hdone
    | main =>
      exact absurd (Option.some.inj hg).symm (List.append_ne_nil_of_right_ne_nil _ (by simp))
    | _ => cases hg

/-- **Other workers.** A task on top of a stack that is at a fork or has returned is
so until its own worker goes on. -/
theorem Step.kindAt_keep [DecidableEq ν] {s' : State θ ν α} (hstep : Step s w s') (h : Inv s)
    {v : θ} (hv : v ≠ w) {g : Frame} {k : List Frame} {σ : Pos} {c : Kind}
    (hsv : s.stack v = g :: k) (hg : g.task = some σ) (hσ : s.prog.kindAt σ = some c)
    (hc : c ≠ .running) : s'.prog.kindAt σ = some c := by
  cases hstep.move with
  | access hs hf ha => exact ha.kindAt_keep hσ hc
  | @rightReturn l π hs hr =>
    have hl := (h.placed w _ (hs ▸ List.mem_cons_self)).leftDone π (.inl rfl)
    exact leave_keep h hs (.inl rfl) (fun d => by cases d <;> assumption) hv hsv hg hσ
  | @waitReturn l π hs hd =>
    have hl := (h.placed w _ (hs ▸ List.mem_cons_self)).leftDone π (.inr rfl)
    have hr := h.rightDone π hd
    exact leave_keep h hs (.inr ⟨rfl, hd⟩) (fun d => by cases d <;> assumption) hv hsv hg hσ
  | _ => exact hσ

/-- **Every step keeps the invariant.** -/
theorem Step.preserves [DecidableEq ν] {s' : State θ ν α} (hstep : Step s w s') (h : Inv s) :
    Inv s' := by
  cases hstep.move with
  | access hs hf ha => exact access_preserves h hs hf ha
  | spawn hs hf hk hq hb => exact spawn_preserves h hs hf hk hq
  | abort hs hf hk hb => exact ⟨h.chain, h.deques, h.main, h.law, h.placed, h.rightDone,
      h.unstarted, h.bots⟩
  | ownJob hs hl hd => exact ownJob_preserves h hs hl hd
  | noJob hs hl hd => exact noJob_preserves h hs hl hd
  | @rightReturn l π hs hr =>
    exact leave_preserves h hs (.inl rfl)
      ((h.placed w _ (hs ▸ List.mem_cons_self)).leftDone π (.inl rfl)) hr
  | @waitReturn l π hs hd =>
    exact leave_preserves h hs (.inr ⟨rfl, hd⟩)
      ((h.placed w _ (hs ▸ List.mem_cons_self)).leftDone π (.inr rfl)) (h.rightDone π hd)
  | ownWork hs hf hd =>
    rw [h.deque_eq_nil hs (hf.lefts_eq _)] at hd
    exact absurd hd.symm (List.append_ne_nil_of_right_ne_nil _ (List.cons_ne_nil _ _))
  | steal hs hf hd => exact steal_preserves h hs hf hd
  | jobReturn hs hr => exact jobReturn_preserves h hs hr

end Steps

/-! ## Runs -/

section Runs

variable [DecidableEq θ] [DecidableEq ν] {s s' : State θ ν α} {w₀ : θ} {p : Prog ν α} {m : Store ν}

omit [DecidableEq ν] in
theorem initial_total (c : List Frame → Nat) : (initial w₀ p m).total c =
    ∑ w, if w = w₀ then c [.main] else c [.worker] := by
  refine Finset.sum_congr rfl fun w _ => ?_
  rw [initial]
  dsimp only
  split <;> rfl

omit [DecidableEq ν] in
theorem initial_inv (w₀ : θ) (p : Prog ν α) (m : Store ν) : Inv (initial w₀ p m) where
  chain w := by
    rw [initial]
    dsimp only
    split
    · exact .main
    · exact .worker
  deques w := List.nil_suffix
  main := by
    rw [initial_total]
    simp
  law π := by
    rw [initial_total, initial_total]
    simp [State.queued, initial, owners]
  placed w f hf := by
    have hnone : f = .main ∨ f = .worker := by
      rw [initial] at hf
      dsimp only at hf
      split at hf
      · exact .inl (List.mem_singleton.mp hf)
      · exact .inr (List.mem_singleton.mp hf)
    rcases hnone with rfl | rfl
    · exact ⟨fun σ hσ => (by cases hσ), fun σ hσ => by rcases hσ with hσ | hσ <;> cases hσ⟩
    · exact ⟨fun σ hσ => (by cases hσ), fun σ hσ => by rcases hσ with hσ | hσ <;> cases hσ⟩
  rightDone π hπ := by cases hπ
  unstarted w π hπ := by cases hπ
  bots w := Nat.zero_le _

/-- A worker moves the program by one of its own steps or not at all. -/
theorem Step.refines {w : θ} (hstep : Step s w s') (h : Inv s) :
    s'.prog = s.prog ∧ s'.mem = s.mem ∨ Prog.Step s.prog s.mem s'.prog s'.mem := by
  cases hstep.move with
  | access hs hf ha => exact .inr ha.step
  | @rightReturn l π hs hr =>
    exact .inr (step_resume ((h.placed w _ (hs ▸ List.mem_cons_self)).leftDone π (.inl rfl)) hr _)
  | @waitReturn l π hs hd =>
    exact .inr (step_resume ((h.placed w _ (hs ▸ List.mem_cons_self)).leftDone π (.inr rfl))
      (h.rightDone π hd) _)
  | _ => exact .inl ⟨rfl, rfl⟩

/-- The scheduler may run into this state: its invariant holds, and in program order
the program still ends in `r`. -/
structure Sound (r : α × Store ν) (s : State θ ν α) : Prop where
  inv : Inv s
  raceFree : s.prog.RaceFree
  run_eq : s.prog.run s.mem = some r

theorem Sound.step {r : α × Store ν} {w : θ} (h : Sound r s) (hstep : Step s w s') :
    Sound r s' := by
  rcases hstep.refines h.inv with ⟨hp, hm⟩ | hprog
  · exact ⟨hstep.preserves h.inv, hp ▸ h.raceFree, by rw [hp, hm]; exact h.run_eq⟩
  · obtain ⟨hR, hr⟩ := hprog.run_eq h.raceFree h.run_eq
    exact ⟨hstep.preserves h.inv, hR, hr⟩

theorem inv_of_run {ws : List θ} (h : Run Step (initial w₀ p m) ws s) : Inv s :=
  h.invariant (fun _ _ _ hs hstep => hstep.preserves hs) (initial_inv w₀ p m)

theorem sound_of_run {r : α × Store ν} (hR : p.RaceFree) (hp : p.run m = some r) {ws : List θ}
    (h : Run Step (initial w₀ p m) ws s) : Sound r s :=
  h.invariant (fun _ _ _ hs hstep => hs.step hstep) ⟨initial_inv w₀ p m, hR, hp⟩

/-- What the scheduler relies on.

* `once`: no task is run by two frames;
* `fresh`: nobody runs a job in a deque, its flag is not set, and its code has not begun;
* `unset`: `assert(done == false)` of a job that is run;
* `own`: `assert(job == &right_job)`;
* `finished`: a `pardo` whose job has finished has finished its left task, too;
* `search`: a worker that looks for a job has none of its own. -/
structure Safe (s : State θ ν α) : Prop where
  once : ∀ π, s.total (tasks π) ≤ 1
  fresh : ∀ w, ∀ π ∈ s.deque w, s.total (tasks (π ++ [.right])) = 0 ∧ s.done π = false ∧
    Unstarted s.prog (s.closure π) π
  unset : ∀ w π, .job π ∈ s.stack w → s.done π = false
  own : ∀ w l π j d, s.stack w = .left π :: l → s.deque w = d ++ [j] → j = π
  finished : ∀ w l π, s.stack w = .wait π :: l → s.done π = true →
    s.prog.kindAt (π ++ [.left]) = some .returned ∧
    s.prog.kindAt (π ++ [.right]) = some .returned
  search : ∀ w f l, s.stack w = f :: l → f.Idle → s.deque w = []

omit [DecidableEq θ] [DecidableEq ν] in
theorem Inv.safe (h : Inv s) : Safe s where
  once := h.tasks_le_one
  fresh w π hπ := ⟨(h.queued_alone hπ).1, (h.queued_alone hπ).2, h.unstarted w π hπ⟩
  unset _ _ hπ := h.done_eq_false hπ
  own _ _ _ _ _ hs hd := (h.own_eq hs hd).1
  finished w _ π hs hd :=
    ⟨(h.placed w _ (hs ▸ List.mem_cons_self)).leftDone π (.inr rfl), h.rightDone π hd⟩
  search _ _ l hs hf := h.deque_eq_nil hs (hf.lefts_eq l)

omit [DecidableEq θ] in
/-- A program that has returned has returned the result of program order. -/
theorem Sound.returned {r : α × Store ν} (h : Sound r s) (hk : s.prog.kind = .returned) :
    s.prog = .ret r.1 ∧ s.mem = r.2 := by
  obtain ⟨a, ha⟩ := eq_ret_of_kind hk
  have hr := h.run_eq
  rw [ha, run_ret, Option.some.injEq] at hr
  exact ⟨by rw [ha, ← hr], by rw [← hr]⟩

end Runs

end Invariant

end BigintMultiply.Scheduler
