import Mathlib.Algebra.BigOperators.Ring.Finset
import Mathlib.Data.Finset.Max
import BigintMultiply.Library.Nesting
import BigintMultiply.Scheduler

/-! Runs of the scheduler end.

A worker that waits may do any other job meanwhile, and the job it waits for may
be buried under a wait in the stack of the thief. `Timed` shows that this cannot
close a circle: the thief's wait began later.

* `exists_step`: while the program has not returned some worker can go on;
* `runs_end`: every run of a race-free program ends, with the result of program order
  or because a deque was full, which cannot happen below 1000 nested forks;
* `runs_abort`: with 1000 it does happen. -/

namespace BigintMultiply.Scheduler
open Vectors ForkJoin Prog Transitions
open WorkStealingDeque (qSize)

/-! ## The order of the calls -/

/-- When a frame began: `t` for the `pardo` at a fork and `u` for its job. -/
def Frame.time (t u : Pos → Nat) : Frame → Nat
  | .main => 0
  | .worker => 0
  | .left π => t π
  | .right π => t π
  | .wait π => t π
  | .job π => u π

section Order

variable {θ ν α : Type}

/-- Frames began in the order of their stacks, and a job after its `pardo`, all
before `N`. -/
structure Timed (stack : θ → List Frame) (t u : Pos → Nat) (N : Nat) : Prop where
  sorted : ∀ w, (stack w).Pairwise fun f g => g.time t u < f.time t u
  bound : ∀ w, ∀ f ∈ stack w, f.time t u < N
  jobs : ∀ w π, .job π ∈ stack w → t π < u π

variable [Fintype θ] [DecidableEq θ] [DecidableEq ν] {s s' : State θ ν α} {w : θ}
  {t u : Pos → Nat} {N : Nat}

omit [Fintype θ] in
theorem Timed.update {stack : θ → List Frame} (h : Timed stack t u N) {l : List Frame}
    (hsorted : l.Pairwise fun f g => g.time t u < f.time t u) (hbound : ∀ f ∈ l, f.time t u < N)
    (hjobs : ∀ π, .job π ∈ l → t π < u π) : Timed (Function.update stack w l) t u N where
  sorted := forall_update
    (P := fun l : List Frame => l.Pairwise fun f g => g.time t u < f.time t u) hsorted h.sorted
  bound := forall_update (P := fun l : List Frame => ∀ f ∈ l, f.time t u < N) hbound h.bound
  jobs := forall_update (P := fun l : List Frame => ∀ π, .job π ∈ l → t π < u π) hjobs h.jobs

omit [Fintype θ] in
theorem Timed.pop {stack : θ → List Frame} (h : Timed stack t u N) {f : Frame} {l : List Frame}
    (hs : stack w = f :: l) : Timed (Function.update stack w l) t u N :=
  h.update (hs ▸ h.sorted w : (f :: l).Pairwise _).of_cons
    (fun g hg => h.bound w g (hs ▸ List.mem_cons_of_mem _ hg))
    fun π hπ => h.jobs w π (hs ▸ List.mem_cons_of_mem _ hπ)

omit [Fintype θ] in
/-- `pardo` goes from one phase to the next. -/
theorem Timed.replace {stack : θ → List Frame} (h : Timed stack t u N) {f g : Frame}
    {l : List Frame} (hs : stack w = f :: l) (hg : g.time t u = f.time t u)
    (hjob : ∀ π, g ≠ .job π) : Timed (Function.update stack w (g :: l)) t u N := by
  have hsorted := h.sorted w
  have hbound := h.bound w
  have hjobs := h.jobs w
  rw [hs] at hsorted hbound hjobs
  rw [List.pairwise_cons] at hsorted
  refine h.update (List.pairwise_cons.mpr ⟨hg ▸ hsorted.1, hsorted.2⟩)
    (List.forall_mem_cons.mpr ⟨hg ▸ hbound f List.mem_cons_self, fun e he =>
      hbound e (List.mem_cons_of_mem _ he)⟩) fun π hπ => ?_
  exact hjobs π (List.mem_cons_of_mem _ ((List.mem_cons.mp hπ).resolve_left (hjob π).symm))

omit [Fintype θ] in
/-- A frame that begins now. -/
theorem Timed.push {stack : θ → List Frame} (h : Timed stack t u N) {f : Frame}
    (hf : f.time t u = N) (hjob : ∀ π, f = .job π → t π < u π) :
    Timed (Function.update stack w (f :: stack w)) t u (N + 1) := by
  have hle : Timed stack t u (N + 1) := ⟨h.sorted, fun v g hg => Nat.lt_succ_of_lt (h.bound v g hg),
    h.jobs⟩
  refine hle.update (List.pairwise_cons.mpr ⟨fun g hg => hf ▸ h.bound w g hg, h.sorted w⟩)
    (List.forall_mem_cons.mpr ⟨hf ▸ Nat.lt_succ_self N, hle.bound w⟩) fun π hπ => ?_
  rcases List.mem_cons.mp hπ with hπ | hπ
  · exact hjob π hπ.symm
  · exact h.jobs w π hπ

omit [Fintype θ] [DecidableEq θ] in
/-- Times of frames that are not there may be chosen anew. -/
theorem Timed.congr {stack : θ → List Frame} {t' u' : Pos → Nat} (h : Timed stack t u N)
    (ht : ∀ w, ∀ f ∈ stack w, f.time t' u' = f.time t u)
    (hjobs : ∀ w π, .job π ∈ stack w → t' π = t π) : Timed stack t' u' N where
  sorted w := (h.sorted w).imp_of_mem fun {f g} hf hg hlt => by rwa [ht w f hf, ht w g hg]
  bound w f hf := (ht w f hf).symm ▸ h.bound w f hf
  jobs w π hπ := by
    have hu : u' π = u π := ht w _ hπ
    rw [hjobs w π hπ, hu]
    exact h.jobs w π hπ

omit [DecidableEq θ] [DecidableEq ν] in
theorem count_pos_of_mem {f : Frame} (hf : f ∈ s.stack w) : 0 < s.total (List.count f) :=
  Nat.lt_of_lt_of_le (List.count_pos_iff.mpr hf) (le_total s _ w)

omit [DecidableEq θ] [DecidableEq ν] in
theorem forks_pos_of_mem {f : Frame} {π : Pos} (hf : f ∈ s.stack w) (hπ : f.fork = some π) :
    0 < s.total (forks π) :=
  Nat.lt_of_lt_of_le (List.countP_pos_iff.mpr ⟨f, hf, by simp [hπ]⟩) (le_total s (forks π) w)

/-- **The order is kept.** -/
theorem Step.timed (hstep : Step s w s') (h : Inv s) (ht : Timed s.stack t u N) :
    ∃ t' u' N', Timed s'.stack t' u' N' := by
  cases hstep.move with
  | access hs hf ha => exact ⟨t, u, N, ht⟩
  | abort hs hf hk hb => exact ⟨t, u, N, ht⟩
  | @spawn f l π q hs hf hk hq hb =>
    have hlt := h.forks_lt hs hf
    have hone := h.tasks_le_one π
    have hzero : s.total (forks π) = 0 := by omega
    have hjobs := h.jobs_le π
    have hforks := total_forks s π
    have hnew : Timed s.stack (Function.update t π N) u N := by
      refine ht.congr (fun v f hf => ?_) fun v σ hσ => ?_
      · have hne : f.fork ≠ some π := fun hπ => by
          have hpos := forks_pos_of_mem hf hπ
          omega
        cases f <;> simp only [Frame.fork, ne_eq, Option.some.injEq] at hne <;>
          simp [Frame.time, Function.update_of_ne, hne]
      · refine Function.update_of_ne (fun hσπ => ?_) _ _
        have hpos := count_pos_of_mem (hσπ ▸ hσ)
        omega
    refine ⟨_, _, _, hs ▸ hnew.push (w := w) (f := .left π) ?_ fun σ hσ => by cases hσ⟩
    exact Function.update_self _ _ _
  | @ownJob l π j d hs hl hd =>
    exact ⟨t, u, N, ht.replace hs rfl fun σ hσ => by cases hσ⟩
  | noJob hs hl hd => exact ⟨t, u, N, ht.replace hs rfl fun σ hσ => by cases hσ⟩
  | rightReturn hs hr => exact ⟨t, u, N, ht.pop hs⟩
  | waitReturn hs hd => exact ⟨t, u, N, ht.pop hs⟩
  | ownWork hs hf hd =>
    rw [h.deque_eq_nil hs (hf.lefts_eq _)] at hd
    exact absurd hd.symm (List.append_ne_nil_of_right_ne_nil _ (List.cons_ne_nil _ _))
  | @steal f l v j d hs hf hd =>
    have hj : j ∈ s.deque v := hd ▸ List.mem_cons_self
    have hleft := ht.bound v _ (h.left_mem hj)
    have halone := (h.queued_alone hj).1
    rw [total_tasks_right] at halone
    have hnew : Timed s.stack t (Function.update u j N) N := by
      refine ht.congr (fun v f hf => ?_) fun _ _ _ => rfl
      have hne : f ≠ .job j := fun hj => by
        have hpos := count_pos_of_mem (hj ▸ hf)
        omega
      cases f <;> simp only [ne_eq, Frame.job.injEq] at hne <;>
        simp [Frame.time, Function.update_of_ne, hne]
    refine ⟨_, _, _,
      hs ▸ hnew.push (w := w) (f := .job j) (Function.update_self _ _ _) fun σ hσ => ?_⟩
    cases hσ
    rw [Function.update_self]
    exact hleft
  | jobReturn hs hr => exact ⟨t, u, N, ht.pop hs⟩

end Order

/-! ## No deadlock -/

section Progress

variable {θ ν α : Type} [Fintype θ] [DecidableEq θ] [DecidableEq ν] {s : State θ ν α}

omit [DecidableEq θ] [DecidableEq ν] in
theorem Inv.forked_of_owners (h : Inv s) {π : Pos} (hπ : 0 < s.total (owners π)) :
    s.prog.kindAt π = some .forked := by
  obtain ⟨v, hv⟩ := exists_of_total_pos hπ
  rw [owners] at hv
  rcases Nat.add_pos_iff_pos_or_pos.mp hv with hv | hv
  · exact (h.placed v _ (List.count_pos_iff.mp hv)).forked π rfl
  · exact (h.placed v _ (List.count_pos_iff.mp hv)).forked π rfl

omit [DecidableEq θ] [DecidableEq ν] in
/-- The code of a frame is there. -/
theorem Inv.exists_kindAt (h : Inv s) {w : θ} {f : Frame} {τ : Pos} (hf : f ∈ s.stack w)
    (hτ : f.task = some τ) : ∃ c, s.prog.kindAt τ = some c := by
  have hside : ∀ {π : Pos} (d : Side), s.prog.kindAt π = some .forked →
      ∃ c, s.prog.kindAt (π ++ [d]) = some c := by
    intro π d hπ
    obtain ⟨q, hq⟩ := exists_task_of_forked hπ d
    exact ⟨q.kind, by rw [kindAt, hq]; rfl⟩
  cases f with
  | main =>
    cases hτ
    exact ⟨_, kindAt_nil _⟩
  | worker => cases hτ
  | left π =>
    cases hτ
    exact hside .left ((h.placed w _ hf).forked π rfl)
  | right π =>
    cases hτ
    exact hside .right ((h.placed w _ hf).forked π rfl)
  | wait π => cases hτ
  | job π =>
    cases hτ
    -- the `pardo` that made the job is still there
    have hjob := count_pos_of_mem hf
    have hle := h.jobs_le π
    exact hside .right (h.forked_of_owners (by omega))

/-- A worker that runs code can go on. -/
theorem Sound.exists_step_of_task {r : α × Store ν} (h : Sound r s) {w : θ} {f : Frame}
    {l : List Frame} {τ : Pos} (hs : s.stack w = f :: l) (hf : f.task = some τ)
    (hk : s.prog.kind ≠ .returned) : ∃ s', Move s w s' := by
  obtain ⟨c, hc⟩ := h.inv.exists_kindAt (hs ▸ List.mem_cons_self) hf
  cases c with
  | running =>
    obtain ⟨p', m', ha⟩ := exists_accessAt s.prog h.raceFree h.run_eq hc
    exact ⟨_, .access hs hf ha⟩
  | forked =>
    obtain ⟨q, hq⟩ := exists_task_of_forked hc .right
    by_cases hb : s.bot w + 1 = qSize
    · exact ⟨_, .abort hs hf hc hb⟩
    · exact ⟨_, .spawn hs hf hc hq hb⟩
  | returned =>
    cases f with
    | main =>
      cases hf
      exact absurd (Option.some.inj ((kindAt_nil _).symm.trans hc)) hk
    | worker => cases hf
    | left π =>
      cases hf
      rcases List.eq_nil_or_concat (s.deque w) with hd | ⟨d, j, hd⟩
      · exact ⟨_, .noJob hs hc hd⟩
      · exact ⟨_, .ownJob hs hc (hd.trans List.concat_eq_append)⟩
    | right π =>
      cases hf
      exact ⟨_, .rightReturn hs hc⟩
    | wait π => cases hf
    | job π =>
      cases hf
      exact ⟨_, .jobReturn hs hc⟩

theorem Frame.idle_or_task (f : Frame) : f.Idle ∨ ∃ τ, f.task = some τ := by
  cases f with
  | worker => exact .inl trivial
  | wait π => exact .inl trivial
  | main => exact .inr ⟨_, rfl⟩
  | left π => exact .inr ⟨_, rfl⟩
  | right π => exact .inr ⟨_, rfl⟩
  | job π => exact .inr ⟨_, rfl⟩

/-- Under a search there is a wait, or nothing. -/
theorem Chain.idle_cases {f : Frame} {l : List Frame} (h : Chain (f :: l)) (hf : f.Idle) :
    f :: l = [.worker] ∨ ∃ π, f = .wait π := by
  cases h with
  | main => cases hf
  | worker => exact .inl rfl
  | @fork f g l π hπ hg h =>
    cases f with
    | wait σ => exact .inr ⟨σ, rfl⟩
    | worker => cases hπ
    | _ => cases hf
  | job hg h => cases hf

/-- The beginning of the wait on top of a stack. -/
def waitTime (t : Pos → Nat) : List Frame → Nat
  | .wait π :: _ => t π + 1
  | _ => 0

/-- **No deadlock.** While the program has not returned, some worker can go on. -/
theorem Sound.exists_step {r : α × Store ν} (h : Sound r s) {t u : Pos → Nat} {N : Nat}
    (ht : Timed s.stack t u N) (hk : s.prog.kind ≠ .returned) (hlive : s.aborted = false) :
    ∃ w s', Step s w s' := by
  by_contra hno
  have hstuck : ∀ w s', ¬ Move s w s' := fun w s' hs => hno ⟨w, s', hlive, hs⟩
  have hidle : ∀ w f l, s.stack w = f :: l → f.Idle := by
    intro w f l hs
    rcases f.idle_or_task with hf | ⟨τ, hf⟩
    · exact hf
    · obtain ⟨s', hs'⟩ := h.exists_step_of_task hs hf hk
      exact absurd hs' (hstuck w s')
  have htop : ∀ w f, f ∈ s.stack w → f ≠ .worker → ∃ π l, s.stack w = .wait π :: l := by
    intro w f hf hne
    cases hl : s.stack w with
    | nil =>
      rw [hl] at hf
      cases hf
    | cons g l =>
      rcases (hl ▸ h.inv.chain w : Chain (g :: l)).idle_cases (hidle w g l hl) with hw | ⟨π, rfl⟩
      · rw [hl, hw] at hf
        exact absurd (List.mem_singleton.mp hf) hne
      · exact ⟨π, l, rfl⟩
  -- the main call waits; of all waits on top of a stack take the last one to begin
  have hmain : 0 < s.total (List.count .main) := h.inv.main ▸ Nat.one_pos
  obtain ⟨w₁, hw₁⟩ := exists_of_total_pos hmain
  obtain ⟨π₁, l₁, hl₁⟩ := htop w₁ .main (List.count_pos_iff.mp hw₁) (by decide)
  obtain ⟨w, -, hmax⟩ := Finset.exists_max_image Finset.univ (fun v => waitTime t (s.stack v))
    ⟨w₁, Finset.mem_univ w₁⟩
  have hpos := hmax w₁ (Finset.mem_univ w₁)
  obtain ⟨π, l, hl⟩ : ∃ π l, s.stack w = .wait π :: l := by
    cases hs : s.stack w with
    | nil => simp [hs, hl₁, waitTime] at hpos
    | cons f l =>
      refine (htop w f (hs ▸ List.mem_cons_self) fun hf => ?_).imp fun π hπ => ?_
      · simp [hs, hf, hl₁, waitTime] at hpos
      · rwa [hs] at hπ
  have howner : 0 < s.total (owners π) := by
    refine Nat.lt_of_lt_of_le ?_ (le_total s (owners π) w)
    rw [hl, owners_cons]
    simp
  have hlaw := h.inv.law π
  have hcases : 0 < s.queued π ∨ 0 < s.total (List.count (.job π)) ∨ s.done π = true := by
    cases hd : s.done π with
    | true => exact .inr (.inr rfl)
    | false =>
      rw [hd, Bool.toNat_false] at hlaw
      omega
  rcases hcases with hq | hj | hd
  · obtain ⟨v, hv⟩ := exists_of_queued_pos hq
    obtain ⟨σ, k, hσ⟩ := htop v _ (h.inv.left_mem hv) (by simp)
    rw [h.inv.deque_eq_nil hσ rfl] at hv
    cases hv
  · obtain ⟨v, hv⟩ := exists_of_total_pos hj
    have hjob := List.count_pos_iff.mp hv
    obtain ⟨σ, k, hσ⟩ := htop v _ hjob (by simp)
    have hsorted := ht.sorted v
    have hbegan := ht.jobs v π hjob
    rw [hσ] at hjob hsorted
    have hlater := (List.pairwise_cons.mp hsorted).1 (.job π)
      ((List.mem_cons.mp hjob).resolve_left (by simp))
    have hle := hmax v (Finset.mem_univ v)
    simp only [hσ, hl, waitTime] at hle
    simp only [Frame.time] at hlater
    omega
  · exact hstuck w _ (.waitReturn hl hd)

end Progress

/-! ## Runs are finite -/

/-- What a frame has spent of the four units of its fork. -/
def Frame.credit : Frame → Nat
  | .left _ => 3
  | .right _ => 2
  | .wait _ => 4
  | _ => 0

def Frame.isJob : Frame → Bool
  | .job _ => true
  | _ => false

theorem countP_isJob (f : Frame) (l : List Frame) : (f :: l).countP Frame.isJob =
    l.countP Frame.isJob + match f with
      | .job _ => 1
      | _ => 0 := by
  cases f <;> simp [Frame.isJob, List.countP_cons]

def credits (l : List Frame) : Nat := (l.map Frame.credit).sum

section Finite

variable {θ ν α : Type} [Fintype θ] {s s' : State θ ν α} {w : θ}

def State.credits (s : State θ ν α) : Nat := s.total Scheduler.credits

/-- The jobs in the deques. -/
def State.waiting (s : State θ ν α) : Nat := ∑ w, (s.deque w).length

/-- Steps of the scheduler that leave the program alone spend it. -/
def State.rank (s : State θ ν α) : Nat :=
  4 * s.prog.forkPositions.length + s.total (List.countP Frame.isJob) + 2 * s.waiting - s.credits

theorem credits_le (l : List Frame) : credits l ≤ 4 * (l.filterMap Frame.fork).length := by
  induction l with
  | nil => exact Nat.le_refl _
  | cons f l ih =>
    rw [credits] at ih ⊢
    rw [List.filterMap_cons, List.map_cons, List.sum_cons]
    cases f <;> simp only [Frame.credit, Frame.fork, List.length_cons] <;> omega

theorem count_filterMap_fork (π : Pos) (l : List Frame) :
    (l.filterMap Frame.fork : Multiset Pos).count π = forks π l := by
  induction l with
  | nil => rfl
  | cons f l ih =>
    rw [forks_cons, ← ih, List.filterMap_cons]
    cases f <;> simp only [Frame.fork, ← Multiset.cons_coe, Multiset.count_cons,
      Option.some.injEq, reduceCtorEq, if_false, eq_comm, add_zero]

/-- Each fork of the program has spent at most its four units. -/
theorem Inv.credits_le (h : Inv s) : s.credits ≤ 4 * s.prog.forkPositions.length := by
  set S : Multiset Pos := ∑ w, ((s.stack w).filterMap Frame.fork : Multiset Pos) with hS
  have hcount : ∀ π, S.count π ≤ 1 := by
    intro π
    rw [hS, Multiset.count_sum']
    refine Nat.le_trans (Nat.le_of_eq (Finset.sum_congr rfl fun w _ => ?_)) (h.forks_le_one π)
    exact count_filterMap_fork π (s.stack w)
  have hsub : S ⊆ (s.prog.forkPositions : Multiset Pos) := by
    intro π hπ
    obtain ⟨w, -, hw⟩ := Multiset.mem_sum.mp hπ
    obtain ⟨f, hf, hfπ⟩ := List.mem_filterMap.mp (Multiset.mem_coe.mp hw)
    exact Multiset.mem_coe.mpr (mem_forkPositions ((h.placed w f hf).forked π hfπ))
  have hcard := Multiset.card_le_card
    ((Multiset.le_iff_subset (Multiset.nodup_iff_count_le_one.mpr hcount)).mpr hsub)
  rw [hS, Multiset.card_sum, Multiset.coe_card] at hcard
  calc s.credits ≤ ∑ w, 4 * ((s.stack w).filterMap Frame.fork).length :=
        Finset.sum_le_sum fun w _ => Scheduler.credits_le (s.stack w)
    _ = 4 * ∑ w, ((s.stack w).filterMap Frame.fork).length := (Finset.mul_sum _ _ _).symm
    _ ≤ 4 * s.prog.forkPositions.length := Nat.mul_le_mul_left 4 hcard

variable [DecidableEq θ] [DecidableEq ν]

omit [DecidableEq ν] in
theorem waiting_update (s : State θ ν α) (w : θ) (d : List Pos) :
    (s.setDeque w d).waiting + (s.deque w).length = s.waiting + d.length :=
  sum_update s.deque w d List.length

omit [Fintype θ] [DecidableEq θ] [DecidableEq ν] in
theorem credits_cons (f : Frame) (l : List Frame) : credits (f :: l) = f.credit + credits l := rfl

omit [DecidableEq ν] in
/-- The rank falls when a worker spends more on its stack than it takes from a deque. -/
theorem rank_lt {v : θ} {l : List Frame} {d : List Pos} (hprog : s'.prog = s.prog)
    (hstack : s'.stack = Function.update s.stack w l)
    (hdeque : s'.deque = Function.update s.deque v d)
    (hle : s'.credits ≤ 4 * s'.prog.forkPositions.length)
    (hspend : credits (s.stack w) + l.countP Frame.isJob + 2 * d.length <
      credits l + (s.stack w).countP Frame.isJob + 2 * (s.deque v).length) :
    s'.rank < s.rank := by
  have htotal : ∀ c, s'.total c + c (s.stack w) = s.total c + c l := fun c => by
    rw [State.total, hstack]
    exact total_update s w l c
  have hcredits := htotal credits
  have hjobs := htotal (List.countP Frame.isJob)
  have hwaiting : s'.waiting + (s.deque v).length = s.waiting + d.length := by
    rw [State.waiting, hdeque]
    exact waiting_update s v d
  rw [hprog, State.credits] at hle
  rw [State.rank, State.rank, hprog, State.credits, State.credits]
  omega

/-- A step moves the program, spends rank or ends the process. -/
theorem Step.rank_lt (hstep : Step s w s') (h : Inv s) :
    (∃ m, Prog.Step s.prog s.mem s'.prog m) ∨ (s'.prog = s.prog ∧ s'.rank < s.rank) ∨
      s'.aborted = true := by
  have hnew := (hstep.preserves h).credits_le
  cases hstep.move with
  | access hs hf ha => exact .inl ⟨_, ha.step⟩
  | abort hs hf hk hb => exact .inr (.inr rfl)
  | @rightReturn l π hs hr =>
    exact .inl
      ⟨_, step_resume ((h.placed w _ (hs ▸ List.mem_cons_self)).leftDone π (.inl rfl)) hr _⟩
  | @waitReturn l π hs hd =>
    exact .inl ⟨_, step_resume ((h.placed w _ (hs ▸ List.mem_cons_self)).leftDone π (.inr rfl))
      (h.rightDone π hd) _⟩
  | spawn hs hf hk hq hb =>
    refine .inr (.inl ⟨rfl, Scheduler.rank_lt rfl rfl rfl hnew ?_⟩)
    rw [← hs]
    simp only [credits_cons, Frame.credit, countP_isJob, List.length_append,
      List.length_singleton]
    omega
  | ownJob hs hl hd =>
    refine .inr (.inl ⟨rfl, Scheduler.rank_lt rfl rfl rfl hnew ?_⟩)
    simp only [hs, hd, credits_cons, Frame.credit, countP_isJob, List.length_append,
      List.length_singleton]
    omega
  | noJob hs hl hd =>
    refine .inr (.inl ⟨rfl,
      Scheduler.rank_lt rfl rfl (Function.update_eq_self w s.deque).symm hnew ?_⟩)
    simp only [hs, credits_cons, Frame.credit, countP_isJob]
    omega
  | ownWork hs hf hd =>
    rw [h.deque_eq_nil hs (hf.lefts_eq _)] at hd
    exact absurd hd.symm (List.append_ne_nil_of_right_ne_nil _ (List.cons_ne_nil _ _))
  | steal hs hf hd =>
    refine .inr (.inl ⟨rfl, Scheduler.rank_lt rfl rfl rfl hnew ?_⟩)
    rw [← hs, hd]
    simp only [credits_cons, Frame.credit, countP_isJob, List.length_cons]
    omega
  | jobReturn hs hr =>
    refine .inr (.inl ⟨rfl,
      Scheduler.rank_lt rfl rfl (Function.update_eq_self w s.deque).symm hnew ?_⟩)
    simp only [hs, credits_cons, Frame.credit, countP_isJob]
    omega

end Finite

/-! ## Every run ends -/

section Ends

variable {θ ν α : Type} [DecidableEq θ] [DecidableEq ν]

/-- However the workers go on from here, they reach `Q` after finitely many steps. -/
inductive Ends (Q : State θ ν α → Prop) : State θ ν α → Prop
  | done {s : State θ ν α} (h : Q s) : Ends Q s
  | step {s : State θ ν α} (hs : ∃ w s', Step s w s') (h : ∀ w s', Step s w s' → Ends Q s') :
      Ends Q s

/-- The program has returned `r` and no worker has anything left to do. -/
def Finished (r : α × Store ν) (s : State θ ν α) : Prop :=
  s.prog = .ret r.1 ∧ s.mem = r.2 ∧ s.aborted = false ∧ ∀ w s', ¬ Step s w s'

/-- What a run reaches may be described better with an invariant. -/
theorem Ends.of_invariant {I Q R : State θ ν α → Prop}
    (hI : ∀ s w s', I s → Step s w s' → I s') (hQ : ∀ s, I s → Q s → R s) {s : State θ ν α}
    (h : Ends Q s) (h0 : I s) : Ends R s := by
  induction h with
  | done h => exact .done (hQ _ h0 h)
  | step hs _ ih => exact .step hs fun w s' hstep => ih w s' hstep (hI _ _ _ h0 hstep)

variable [Fintype θ] {s : State θ ν α} {r : α × Store ν}

theorem Sound.finished (h : Sound r s) (hk : s.prog.kind = .returned) (hlive : s.aborted = false) :
    Finished r s := by
  obtain ⟨hprog, hmem⟩ := h.returned hk
  refine ⟨hprog, hmem, hlive, fun w s' hstep => ?_⟩
  have hnone : ∀ {π : Pos} {d : Side} {c : Kind}, s.prog.kindAt (π ++ [d]) ≠ some c :=
    fun hc => List.append_ne_nil_of_right_ne_nil _ (List.cons_ne_nil _ _)
      (kindAt_of_returned hk hc).1
  cases hstep.move with
  | access hs hf ha => cases (kindAt_of_returned hk ha.running).2
  | spawn hs hf hc hq hb => cases (kindAt_of_returned hk hc).2
  | abort hs hf hc hb => cases (kindAt_of_returned hk hc).2
  | ownJob hs hl hd => exact hnone hl
  | noJob hs hl hd => exact hnone hl
  | rightReturn hs hr => exact hnone hr
  | waitReturn hs hd => exact hnone (h.inv.rightDone _ hd)
  | ownWork hs hf hd =>
    rw [h.inv.deque_eq_nil hs (hf.lefts_eq _)] at hd
    exact List.append_ne_nil_of_right_ne_nil _ (List.cons_ne_nil _ _) hd.symm
  | @steal f l v j d hs hf hd =>
    have hleft := h.inv.left_mem (hd ▸ List.mem_cons_self : j ∈ s.deque v)
    cases (kindAt_of_returned hk ((h.inv.placed v _ hleft).forked j rfl)).2
  | jobReturn hs hr => exact hnone hr

/-- By induction on what remains of the program, and then on the rank. -/
theorem Sound.ends (h : Sound r s) {t u : Pos → Nat} {N : Nat} (ht : Timed s.stack t u N) :
    Ends (fun s => Finished r s ∨ s.aborted = true) s := by
  generalize hp : s.prog = p
  induction acc_next p generalizing s t u N with
  | intro p _ ihp =>
    generalize hn : s.rank = n
    induction n using Nat.strong_induction_on generalizing s t u N with
    | _ n ihn =>
      cases hlive : s.aborted with
      | true => exact .done (.inr hlive)
      | false =>
        by_cases hk : s.prog.kind = .returned
        · exact .done (.inl (h.finished hk hlive))
        · refine .step (h.exists_step ht hk hlive) fun w s' hstep => ?_
          obtain ⟨t', u', N', ht'⟩ := hstep.timed h.inv ht
          rcases hstep.rank_lt h.inv with ⟨m, hprog⟩ | ⟨hprog, hlt⟩ | habort
          · exact ihp s'.prog ⟨_, _, hp ▸ hprog⟩ (h.step hstep) ht' rfl
          · exact ihn s'.rank (hn ▸ hlt) (h.step hstep) ht' (hprog.trans hp) rfl
          · exact .done (.inr habort)

/-! ## Room in the deques -/

/-- The calls of `left()` since the last search lie in each other's left or right tasks. -/
theorem Chain.lefts_le {f : Frame} {l : List Frame} (h : Chain (f :: l)) {π : Pos}
    (hf : f.task = some π) : (lefts (f :: l)).length ≤ π.length := by
  generalize hfl : f :: l = k at h
  induction h generalizing f l π with
  | main => exact Nat.zero_le _
  | worker => exact Nat.zero_le _
  | @fork f g l σ hfork hg _ ih =>
    cases hfl
    have hbelow := ih hg rfl
    cases f with
    | left τ =>
      cases hfork
      cases hf
      rw [lefts, List.length_append, List.length_append]
      exact Nat.succ_le_succ hbelow
    | right τ =>
      cases hfork
      cases hf
      rw [lefts, List.length_append]
      exact Nat.le_succ_of_le hbelow
    | wait τ => cases hf
    | _ => cases hfork
  | job _ _ _ => cases hfl; exact Nat.zero_le _

omit [DecidableEq θ] [DecidableEq ν] in
/-- A push at a fork finds at most one job in the array for each fork around it. -/
theorem Inv.bot_lt (h : Inv s) {n : Nat} (hn : s.prog.Nested n) {w : θ} {f : Frame}
    {l : List Frame} {π : Pos} (hs : s.stack w = f :: l) (hf : f.task = some π)
    (hk : s.prog.kindAt π = some .forked) : s.bot w < n := by
  have hbot := h.bots w
  rw [hs] at hbot
  exact Nat.lt_of_le_of_lt (Nat.le_trans hbot ((hs ▸ h.chain w : Chain (f :: l)).lefts_le hf))
    (hn.length_lt hk)

theorem Step.nested {w : θ} {s' : State θ ν α} (hstep : Step s w s') (h : Inv s) {n : Nat}
    (hn : s.prog.Nested n) : s'.prog.Nested n := by
  rcases hstep.refines h with ⟨hprog, -⟩ | hprog
  · rwa [hprog]
  · exact hprog.nested hn

/-- The forks that are left are nested less deep than a deque has entries. -/
structure Roomy (s : State θ ν α) : Prop where
  inv : Inv s
  nested : ∃ n < qSize, s.prog.Nested n
  live : s.aborted = false

theorem Roomy.step {w : θ} {s' : State θ ν α} (h : Roomy s) (hstep : Step s w s') : Roomy s' := by
  obtain ⟨n, hsize, hn⟩ := h.nested
  refine ⟨hstep.preserves h.inv, ⟨n, hsize, hstep.nested h.inv hn⟩, ?_⟩
  cases hstep.move with
  | abort hs hf hk hb =>
    have hlt := h.inv.bot_lt hn hs hf hk
    omega
  | _ => exact hstep.live

omit [Fintype θ] [DecidableEq ν] in
theorem initial_timed (w₀ : θ) (p : Prog ν α) (m : Store ν) :
    Timed (initial w₀ p m).stack (fun _ => 0) (fun _ => 0) 1 := by
  have hstack : ∀ w, (initial w₀ p m).stack w = [.main] ∨ (initial w₀ p m).stack w = [.worker] := by
    intro w
    simp only [initial]
    split
    · exact .inl rfl
    · exact .inr rfl
  refine ⟨fun w => ?_, fun w f hf => ?_, fun w π hπ => ?_⟩
  · rcases hstack w with h | h <;> rw [h] <;> exact List.pairwise_singleton _ _
  · rcases hstack w with h | h <;> rw [h] at hf <;> rw [List.mem_singleton.mp hf] <;>
      exact Nat.one_pos
  · rcases hstack w with h | h <;> rw [h] at hπ <;> cases List.mem_singleton.mp hπ

section Runs

variable {w₀ : θ} {p : Prog ν α} {m : Store ν}

/-- Below 1000 nested forks no deque is ever full. -/
theorem live_of_run {n : Nat} (hn : p.Nested n) (hsize : n < qSize) {ws : List θ}
    (h : Run Step (initial w₀ p m) ws s) : s.aborted = false :=
  (h.invariant (I := Roomy) (fun _ _ _ h hstep => h.step hstep)
    ⟨initial_inv w₀ p m, ⟨n, hsize, hn⟩, rfl⟩).live

variable (hR : p.RaceFree) (hp : p.run m = some r)

include hR hp

theorem ends_or_aborts : Ends (fun s => Finished r s ∨ s.aborted = true) (initial w₀ p m) :=
  Sound.ends ⟨initial_inv w₀ p m, hR, hp⟩ (initial_timed w₀ p m)

theorem ends_of_nested {n : Nat} (hn : p.Nested n) (hsize : n < qSize) :
    Ends (Finished r) (initial w₀ p m) := by
  exact (ends_or_aborts hR hp).of_invariant (I := Roomy) (fun _ _ _ h hstep => h.step hstep)
    (fun s h hs => hs.resolve_right (by rw [h.live]; decide))
    ⟨initial_inv w₀ p m, ⟨n, hsize, hn⟩, rfl⟩

/-- **Every run ends.** However the workers take their steps, a race-free program that
program order completes returns that result after finitely many steps, or a push
finds a deque full; no worker is stuck before, and none has anything left to do
after. With fewer than 1000 forks in each other no deque is ever full. -/
theorem runs_end : Ends (fun s => Finished r s ∨ s.aborted = true) (initial w₀ p m) ∧
    ∀ n < qSize, p.Nested n → Ends (Finished r) (initial w₀ p m) :=
  ⟨ends_or_aborts hR hp, fun _ hsize hn => ends_of_nested hR hp hn hsize⟩

end Runs

end Ends

/-- Two workers on a loop of two iterations. -/
theorem runs_end_two : Ends (Finished ((), Function.update (fun _ => zeros 2) ()
      (splice (zeros 2) 0 2 fun _ => 7)))
    (initial (0 : Fin 2) (parFor 2 fun i => write () i 7) fun _ => zeros 2) := by
  refine (runs_end ?_ ?_).2 2 (by decide) ?_
  · refine raceFree_parFor (fun i _ t => t = .write i) (fun i _ => raceFree_write _ _ _)
      (fun i _ => within_write rfl) ?_
    rintro i _ j _ hij _ t u rfl rfl
    exact hij
  · rw [run_parFor]
    refine run_serialFor_splice _ () 0 2 (fun _ => 7) _ (by decide) fun i hi w hw _ => ?_
    have hlen : i < w.length := hw.symm ▸ hi
    rw [Nat.zero_add, run_write _ _ hlen, Function.update_self, Function.update_idem]
  · exact nested_parDo (nested_parDo (p := .ret ()) trivial nested_act) nested_act

/-! ## Where a deque is full -/

section Abort

variable {θ ν α : Type} [DecidableEq θ] [DecidableEq ν]

/-- A worker goes down the left tasks and no other worker gets a turn. -/
theorem spawn_run (w₀ : θ) (p : Prog ν α) (m : Store ν) {k : Nat} (hk : k < qSize)
    (hp : ∀ i < k, p.kindAt (List.replicate i .left) = some .forked) :
    ∃ ws s f l, Run Step (initial w₀ p m) ws s ∧ s.prog = p ∧ s.aborted = false ∧ s.bot w₀ = k ∧
      s.stack w₀ = f :: l ∧ f.task = some (List.replicate k .left) := by
  induction k with
  | zero => exact ⟨[], _, .main, [], .nil, rfl, rfl, rfl, if_pos rfl, rfl⟩
  | succ k ih =>
    obtain ⟨ws, s, f, l, hrun, hprog, hlive, hbot, hs, hf⟩ :=
      ih (Nat.lt_of_succ_lt hk) fun i hi => hp i (Nat.lt_succ_of_lt hi)
    have hfork := hp k (Nat.lt_succ_self k)
    obtain ⟨q, hq⟩ := exists_task_of_forked hfork .right
    have hmove := Move.spawn hs hf (hprog ▸ hfork) (hprog ▸ hq) (by omega)
    refine ⟨_, _, .left _, f :: l, .snoc hrun ⟨hlive, hmove⟩, hprog, hlive, ?_,
      Function.update_self _ _ _, ?_⟩
    · exact (Function.update_self _ _ _).trans (congrArg (· + 1) hbot)
    · rw [Frame.task, List.replicate_succ']

/-- **The bound on the nesting is sharp.** Whatever the number of workers, a program with
1000 forks in each other's left tasks may end in `std::abort()`. -/
theorem runs_abort (w₀ : θ) (p : Prog ν α) (m : Store ν)
    (hp : ∀ i < qSize, p.kindAt (List.replicate i .left) = some .forked) :
    ∃ ws s, Run Step (initial w₀ p m) ws s ∧ s.aborted = true := by
  obtain ⟨ws, s, f, l, hrun, hprog, hlive, hbot, hs, hf⟩ :=
    spawn_run w₀ p m (k := 999) (by decide) fun i hi => hp i (Nat.lt_succ_of_lt hi)
  have hfork := hp 999 (by decide)
  exact ⟨_, _, .snoc hrun ⟨hlive, .abort hs hf (hprog ▸ hfork) (by rw [hbot]; rfl)⟩, rfl⟩

omit [DecidableEq ν] in
theorem kindAt_parFor {n : Nat} (body : Nat → Prog ν Unit) {i : Nat} (hi : i < n) :
    (parFor n body).kindAt (List.replicate i .left) = some .forked := by
  induction n generalizing i with
  | zero => cases hi
  | succ n ih =>
    cases i with
    | zero => rfl
    | succ i => exact ih (Nat.lt_of_succ_lt_succ hi)

end Abort

/-- A loop whose iterations are forked one by one. -/
theorem runs_abort_1000 : ∃ ws s,
    Run Step (initial (0 : Fin 4) (parFor 1000 fun i => write () i 7) fun _ => zeros 1000) ws s ∧
    s.aborted = true :=
  runs_abort 0 _ _ fun _ hi => kindAt_parFor _ hi

end BigintMultiply.Scheduler
