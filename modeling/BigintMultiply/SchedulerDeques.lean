import BigintMultiply.SchedulerProgress

/-! The scheduler on the arrays of its deques, `scheduler.h` over
`work_stealing_deque.h`.

A step is one access to a shared variable, also inside the calls of `push_bottom`,
`pop_bottom` and `pop_top`, and workers may attempt a theft anywhere and as often as
they want.

* `Refines`: how the lists of the scheduler's model stand for the arrays;
* `Refines.step`: an access is a step of that model or changes nothing there;
* `deques_refine`: so what was shown of that model holds of the arrays. -/

namespace BigintMultiply.SchedulerDeques
open ForkJoin Prog Transitions Scheduler
open WorkStealingDeque (qSize Action Event Call Queue QueueStep Yields step_shows step_yields)

/-- The deque whose call a worker is in: its own or that of a victim. -/
inductive Into (θ : Type)
  | own
  | theft (v : θ)
  deriving DecidableEq, Repr

/-- The program, the stacks and the flags of the jobs, the arrays, and for each worker
the call of a deque that it is in. -/
structure State (θ ν α : Type) where
  prog : Prog ν α
  mem : Store ν
  stack : θ → List Frame
  done : Pos → Bool
  deque : θ → WorkStealingDeque.State θ Pos
  call : θ → Option (Into θ)
  aborted : Bool

section Model

variable {θ ν α : Type} [DecidableEq θ] [DecidableEq ν]

/-- The arrays hold arbitrary pointers at first. -/
def initial (w₀ : θ) (p : Prog ν α) (m : Store ν) (deq : θ → Nat → Pos) : State θ ν α where
  prog := p
  mem := m
  stack := fun w => if w = w₀ then [.main] else [.worker]
  done := fun _ => false
  deque v := WorkStealingDeque.initial (deq v)
  call := fun _ => none
  aborted := false

/-- The access to the deque of `v` that worker `w` makes next, in which call. -/
inductive Next (s : State θ ν α) (w : θ) : θ → Action θ Pos → Into θ → Prop
  /-- `pardo` makes the job and calls `spawn`. -/
  | spawn {f : Frame} {l : List Frame} {π : Pos} (hc : s.call w = none)
      (hs : s.stack w = f :: l) (hf : f.task = some π) (hk : s.prog.kindAt π = some .forked) :
      Next s w w (.push π) .own
  /-- `left()` has returned and `pardo` calls `get_own_job`. -/
  | getOwnJob {l : List Frame} {π : Pos} (hc : s.call w = none) (hs : s.stack w = .left π :: l)
      (hl : s.prog.kindAt (π ++ [.left]) = some .returned) : Next s w w .pop .own
  /-- `get_job` calls `get_own_job`. -/
  | getJob {f : Frame} {l : List Frame} (hc : s.call w = none) (hs : s.stack w = f :: l)
      (hf : f.Idle) : Next s w w .pop .own
  /-- `try_steal` calls `pop_top`; the target is any worker. -/
  | trySteal {f : Frame} {l : List Frame} {v : θ} (hc : s.call w = none)
      (hs : s.stack w = f :: l) (hf : f.Idle) : Next s w v (.thief w) (.theft v)
  /-- The call goes on. -/
  | own (hc : s.call w = some .own) : Next s w w .owner .own
  | theft {v : θ} (hc : s.call w = some (.theft v)) : Next s w v (.thief w) (.theft v)

/-- The call of the deque has returned. -/
def returns : Event θ Pos → Bool
  | .pushed _ _ => true
  | .popped _ => true
  | .stolen _ _ _ => true
  | _ => false

/-- The stack after what a call of the deque has returned. -/
def answer : List Frame → Event θ Pos → List Frame
  | l, .pushed π _ => .left π :: l
  | .left π :: l, .popped (some _) => .right π :: l
  | .left π :: l, .popped none => .wait π :: l
  | l, .popped (some j) => .job j :: l
  | l, .stolen _ (some j) _ => .job j :: l
  | l, _ => l

/-- Worker `w` has made an access in its call `c` of the deque of `v`. -/
def State.after (s : State θ ν α) (w v : θ) (c : Into θ) (e : Event θ Pos)
    (d : WorkStealingDeque.State θ Pos) : State θ ν α :=
  { s with
    stack := Function.update s.stack w (answer (s.stack w) e)
    -- `make_job` before the push
    done := match e with
      | .pushing π => Function.update s.done π false
      | _ => s.done
    deque := Function.update s.deque v d
    call := Function.update s.call w (if returns e then none else some c)
    aborted := match e with
      | .aborted => true
      | _ => s.aborted }

/-- What worker `w` may do next. -/
inductive Move (s : State θ ν α) (w : θ) : State θ ν α → Prop
  /-- The code on top of the stack makes an access. -/
  | access {f : Frame} {l : List Frame} {π : Pos} {p : Prog ν α} {m : Store ν}
      (hc : s.call w = none) (hs : s.stack w = f :: l) (hf : f.task = some π)
      (h : AccessAt π s.prog s.mem p m) : Move s w { s with prog := p, mem := m }
  /-- `execute_right()` has returned. -/
  | rightReturn {l : List Frame} {π : Pos} (hc : s.call w = none) (hs : s.stack w = .right π :: l)
      (hr : s.prog.kindAt (π ++ [.right]) = some .returned) :
      Move s w {
        s with
        stack := Function.update s.stack w l
        done := Function.update s.done π false
        prog := s.prog.resume π }
  /-- `wait_until` finds that the job has finished. -/
  | waitReturn {l : List Frame} {π : Pos} (hc : s.call w = none) (hs : s.stack w = .wait π :: l)
      (hd : s.done π = true) :
      Move s w {
        s with
        stack := Function.update s.stack w l
        done := Function.update s.done π false
        prog := s.prog.resume π }
  /-- The code of a job has returned. -/
  | jobReturn {l : List Frame} {π : Pos} (hc : s.call w = none) (hs : s.stack w = .job π :: l)
      (hr : s.prog.kindAt (π ++ [.right]) = some .returned) :
      Move s w {
        s with
        stack := Function.update s.stack w l
        done := Function.update s.done π true }
  /-- A call of a deque begins or goes on. -/
  | deque {v : θ} {a : Action θ Pos} {c : Into θ} {e : Event θ Pos}
      {d : WorkStealingDeque.State θ Pos} (h : Next s w v a c)
      (hd : WorkStealingDeque.step (s.deque v) a = some (e, d)) : Move s w (s.after w v c e d)

/-- One access of worker `w`, unless the process has ended. -/
structure Step (s : State θ ν α) (w : θ) (s' : State θ ν α) : Prop where
  live : s.aborted = false
  move : Move s w s'

/-- An access with no thief outrun by the tag of a deque. -/
def FreshStep (s : State θ ν α) (w : θ) (s' : State θ ν α) : Prop :=
  (∀ v, (s.deque v).Fresh) ∧ Step s w s'

end Model

/-! ## The lists behind the arrays -/

section Refinement

variable {θ ν α : Type}

/-- Where the code of a worker stands that is in a call of its own deque. -/
def OwnCall (s : Scheduler.State θ ν α) (w : θ) : Call Pos → Prop
  | .idle => True
  | .push π => ∃ f l, s.stack w = f :: l ∧ f.task = some π ∧ s.prog.kindAt π = some .forked
  | .pop => ∃ f l, s.stack w = f :: l ∧
      (f.Idle ∨ ∃ π, f = .left π ∧ s.prog.kindAt (π ++ [.left]) = some .returned)
  | .aborted => s.aborted = true

/-- What a call that worker `w` is in has to do with its stack; `own` is the call that
its own deque is in. -/
structure Calling (s : Scheduler.State θ ν α) (w : θ) (call : Option (Into θ))
    (own : Call Pos) : Prop where
  code : OwnCall s w own
  busy : call = some .own ↔ own ≠ .idle
  thief : ∀ v, call = some (.theft v) → ∃ f l, s.stack w = f :: l ∧ f.Idle

theorem answer_job {f : Frame} (hf : f.Idle) (l : List Frame) (j : Pos) :
    answer (f :: l) (.popped (some j) : Event θ Pos) = .job j :: f :: l := by
  cases f <;> first | rfl | cases hf

theorem answer_none {f : Frame} (hf : f.Idle) (l : List Frame) :
    answer (f :: l) (.popped none : Event θ Pos) = f :: l := by
  cases f <;> first | rfl | cases hf

theorem calling_none (s : Scheduler.State θ ν α) (w : θ) : Calling s w none .idle :=
  ⟨trivial, by simp, fun _ hc => by cases hc⟩

/-- A worker outside of its own deque. -/
theorem Calling.own_eq {s : Scheduler.State θ ν α} {w : θ} {call : Option (Into θ)} {own : Call Pos}
    (h : Calling s w call own) (hc : call ≠ some .own) : own = .idle := by
  by_contra hown
  exact hc (h.busy.mpr hown)

/-- Other workers leave a worker's stack and the code on top of it where they are. -/
theorem Calling.keep {s s' : Scheduler.State θ ν α} {w : θ} {call : Option (Into θ)}
    {own : Call Pos} (h : Calling s w call own) (hstack : s'.stack w = s.stack w)
    (haborted : s.aborted = true → s'.aborted = true)
    (hcode : ∀ {f l τ k}, s.stack w = f :: l → f.task = some τ → s.prog.kindAt τ = some k →
      k ≠ .running → s'.prog.kindAt τ = some k) : Calling s' w call own where
  code := by
    have hown := h.code
    cases own with
    | idle => trivial
    | push π =>
      obtain ⟨f, l, hs, hf, hk⟩ := hown
      exact ⟨f, l, hstack.trans hs, hf, hcode hs hf hk (by decide)⟩
    | pop =>
      obtain ⟨f, l, hs, hf⟩ := hown
      refine ⟨f, l, hstack.trans hs, hf.imp id ?_⟩
      rintro ⟨π, rfl, hk⟩
      exact ⟨π, rfl, hcode hs rfl hk (by decide)⟩
    | aborted => exact haborted hown
  busy := h.busy
  thief v hc := by
    rw [hstack]
    exact h.thief v hc

/-- The lists stand for the arrays, and all else is the same. -/
structure Refines [Fintype θ] (c : State θ ν α) (s : Scheduler.State θ ν α) : Prop where
  prog : s.prog = c.prog
  mem : s.mem = c.mem
  stack : s.stack = c.stack
  done : s.done = c.done
  aborted : s.aborted = c.aborted
  inv : Scheduler.Inv s
  deques : ∀ v, (c.deque v).Inv
  shows : ∀ v, ∃ call beaten, (c.deque v).Shows ⟨s.deque v, s.bot v, call, beaten⟩
  calls : ∀ w, Calling s w (c.call w) (c.deque w).owner.call

variable [Fintype θ] [DecidableEq θ] [DecidableEq ν] {c c' : State θ ν α}
  {s s' : Scheduler.State θ ν α} {w v : θ} {into : Into θ} {e : Event θ Pos}
  {d : WorkStealingDeque.State θ Pos} {q : Queue θ Pos}

omit [DecidableEq ν] in
/-- An access to the deque of `v`, whose list is then that of `q`. -/
theorem Refines.after (h : Refines c s) (hd : d.Inv) (hq : d.Shows q) (hinv : Scheduler.Inv s')
    (hprog : s'.prog = s.prog) (hmem : s'.mem = s.mem)
    (hstack : s'.stack = Function.update s.stack w (answer (s.stack w) e))
    (hdone : s'.done = (c.after w v into e d).done)
    (haborted : s'.aborted = (c.after w v into e d).aborted)
    (hdeque : s'.deque = Function.update s.deque v q.jobs)
    (hbot : s'.bot = Function.update s.bot v q.bot)
    (hv : v ≠ w → q.call = (c.deque v).owner.call)
    (hw : Calling s' w (if returns e then none else some into)
      ((Function.update c.deque v d) w).owner.call) : Refines (c.after w v into e d) s' where
  prog := hprog.trans h.prog
  mem := hmem.trans h.mem
  stack := by
    rw [hstack, h.stack]
    rfl
  done := hdone
  aborted := haborted
  inv := hinv
  deques := forall_update hd h.deques
  shows u := by
    rw [hdeque, hbot]
    by_cases hu : u = v
    · subst hu
      refine ⟨q.call, q.beaten, ?_⟩
      simpa only [State.after, Function.update_self] using hq
    · simpa only [State.after, Function.update_of_ne hu] using h.shows u
  calls u := by
    by_cases hu : u = w
    · subst hu
      simpa only [State.after, Function.update_self] using hw
    · have hcall : ((c.after w v into e d).deque u).owner.call = (c.deque u).owner.call := by
        by_cases huv : u = v
        · subst huv
          simp only [State.after, Function.update_self]
          exact hq.call.symm.trans (hv hu)
        · simp only [State.after, Function.update_of_ne huv]
      rw [hcall]
      simp only [State.after, Function.update_of_ne hu]
      refine (h.calls u).keep ?_ (fun ha => ?_) fun _ _ hk _ => by rwa [hprog]
      · rw [hstack, Function.update_of_ne hu]
      · rw [haborted]
        rw [h.aborted] at ha
        cases e <;> first | rfl | exact ha

omit [DecidableEq ν] in
/-- An access to the deque of `v` that the list does not see. -/
theorem Refines.stutter (h : Refines c s) (hd : d.Inv) (hq : d.Shows q)
    (hstack : answer (c.stack w) e = c.stack w) (hdone : (c.after w v into e d).done = c.done)
    (haborted : (c.after w v into e d).aborted = c.aborted) (hjobs : q.jobs = s.deque v)
    (hbot : q.bot = s.bot v) (hv : v ≠ w → q.call = (c.deque v).owner.call)
    (hw : Calling s w (if returns e then none else some into)
      ((Function.update c.deque v d) w).owner.call) : Refines (c.after w v into e d) s := by
  refine h.after hd hq h.inv rfl rfl ?_ (h.done.trans hdone.symm) (h.aborted.trans haborted.symm)
    ?_ ?_ hv hw
  · rw [h.stack, hstack, Function.update_eq_self]
  · rw [hjobs, Function.update_eq_self]
  · rw [hbot, Function.update_eq_self]

omit [Fintype θ] [DecidableEq θ] [DecidableEq ν] in
theorem calling_own {own : Call Pos} (hcode : OwnCall s w own) (h : own ≠ .idle) :
    Calling s w (some .own) own :=
  ⟨hcode, by simp [h], fun _ hc => by cases hc⟩

omit [Fintype θ] [DecidableEq ν] in
theorem popped_some {j : Pos} {q' : Queue θ Pos} (h : QueueStep q (.popped (some j)) q') :
    q.jobs = q'.jobs ++ [j] ∧ q'.bot = botAfter q.bot q'.jobs ∧ q'.call = .idle := by
  cases h with
  | popped _ hj hne => exact ⟨hj, (if_neg hne).symm, rfl⟩
  | poppedLast _ hj => exact ⟨hj, rfl, rfl⟩

/-- `pop_bottom` has returned. -/
theorem Refines.popped (h : Refines c s) (hlive : c.aborted = false) {j : Option Pos}
    (hcode : OwnCall s w .pop) {call : Call Pos} {beaten : θ → Bool}
    (hstep : QueueStep ⟨s.deque w, s.bot w, call, beaten⟩ (.popped j) q) (hd : d.Inv)
    (hq : d.Shows q) : Refines (c.after w w .own (.popped j) d) s ∨
      ∃ s', Scheduler.Step s w s' ∧ Refines (c.after w w .own (.popped j) d) s' := by
  have hlive' : s.aborted = false := h.aborted.trans hlive
  have hw : ∀ s' : Scheduler.State θ ν α, q.call = .idle → Calling s' w none
      ((Function.update c.deque w d) w).owner.call := fun s' hidle => by
    rw [Function.update_self, ← hq.call, hidle]
    exact calling_none s' w
  obtain ⟨f, l, hs, hcase⟩ := hcode
  cases j with
  | some j =>
    obtain ⟨hj, hbot, hidle⟩ := popped_some hstep
    rcases hcase with hf | ⟨π, rfl, hl⟩
    · have hstep' : Scheduler.Step s w _ := ⟨hlive', .ownWork hs hf hj⟩
      exact .inr ⟨_, hstep', h.after hd hq (hstep'.preserves h.inv) rfl rfl
        (by rw [hs, answer_job hf]; rfl) h.done h.aborted rfl (by rw [hbot]; rfl)
        (fun hv => absurd rfl hv) (hw _ hidle)⟩
    · have hstep' : Scheduler.Step s w _ := ⟨hlive', .ownJob hs hl hj⟩
      exact .inr ⟨_, hstep', h.after hd hq (hstep'.preserves h.inv) rfl rfl
        (by rw [hs]; rfl) h.done h.aborted rfl (by rw [hbot]; rfl)
        (fun hv => absurd rfl hv) (hw _ hidle)⟩
  | none =>
    cases hstep with
    | poppedNone _ hj =>
      rcases hcase with hf | ⟨π, rfl, hl⟩
      · -- the search goes on
        refine .inl (h.stutter hd hq ?_ rfl rfl hj.symm (h.inv.bot_eq_zero hs (hf.lefts_eq l)).symm
          (fun hv => absurd rfl hv) (hw _ rfl))
        rw [← h.stack, hs, answer_none hf]
      · have hstep' : Scheduler.Step s w _ := ⟨hlive', .noJob hs hl hj⟩
        exact .inr ⟨_, hstep', h.after hd hq (hstep'.preserves h.inv) rfl rfl
          (by rw [hs]; rfl) h.done h.aborted (Function.update_eq_self_iff.mpr hj.symm).symm rfl
          (fun hv => absurd rfl hv) (hw _ rfl)⟩

omit [DecidableEq ν] in
/-- `push_bottom` is called. -/
theorem Refines.begin_push (h : Refines c s) (hfresh : (c.deque w).Fresh) {f : Frame}
    {l : List Frame} {π : Pos} (hs : c.stack w = f :: l) (hf : f.task = some π)
    (hk : c.prog.kindAt π = some .forked)
    (hd : WorkStealingDeque.step (c.deque w) (.push π) = some (e, d)) :
    Refines (c.after w w .own e d) s := by
  obtain ⟨call, beaten, hq⟩ := h.shows w
  obtain ⟨hinv, q', hstep, hq'⟩ := step_shows (h.deques w) hfresh hq hd
  have hs' : s.stack w = f :: l := h.stack ▸ hs
  cases step_yields hd
  cases hstep with
  | pushing _ =>
    refine h.stutter hinv hq' rfl ?_ rfl rfl rfl (fun hv => absurd rfl hv) ?_
    · exact Function.update_eq_self_iff.mpr (h.done ▸ h.inv.done_of_task hs' hf).symm
    · rw [Function.update_self, ← hq'.call]
      exact calling_own ⟨f, l, hs', hf, h.prog ▸ hk⟩ fun hc => by cases hc

/-- `pop_bottom` is called, and may return at once. -/
theorem Refines.begin_pop (h : Refines c s) (hfresh : (c.deque w).Fresh)
    (hlive : c.aborted = false) {f : Frame} {l : List Frame} (hs : c.stack w = f :: l)
    (hf : f.Idle ∨ ∃ π, f = .left π ∧ c.prog.kindAt (π ++ [.left]) = some .returned)
    (hd : WorkStealingDeque.step (c.deque w) .pop = some (e, d)) :
    Refines (c.after w w .own e d) s ∨
      ∃ s', Scheduler.Step s w s' ∧ Refines (c.after w w .own e d) s' := by
  obtain ⟨call, beaten, hq⟩ := h.shows w
  obtain ⟨hinv, q', hstep, hq'⟩ := step_shows (h.deques w) hfresh hq hd
  have hcode : OwnCall s w .pop := ⟨f, l, h.stack ▸ hs, h.prog ▸ hf⟩
  cases step_yields hd with
  | pop =>
    cases hstep with
    | popping _ =>
      refine .inl (h.stutter hinv hq' rfl rfl rfl rfl rfl (fun hv => absurd rfl hv) ?_)
      rw [Function.update_self, ← hq'.call]
      exact calling_own hcode fun hc => by cases hc
  | popNone => exact h.popped hlive hcode hstep hinv hq'

/-- The owner of a deque goes on in its call. -/
theorem Refines.continue_own (h : Refines c s) (hfresh : (c.deque w).Fresh)
    (hlive : c.aborted = false) (hc : c.call w = some .own)
    (hd : WorkStealingDeque.step (c.deque w) .owner = some (e, d)) :
    Refines (c.after w w .own e d) s ∨
      ∃ s', Scheduler.Step s w s' ∧ Refines (c.after w w .own e d) s' := by
  have hlive' : s.aborted = false := h.aborted.trans hlive
  obtain ⟨call, beaten, hq⟩ := h.shows w
  obtain ⟨hinv, q', hstep, hq'⟩ := step_shows (h.deques w) hfresh hq hd
  have hcall : call = (c.deque w).owner.call := hq.call
  have hcode := (h.calls w).code
  have hbusy := (h.calls w).busy.mp hc
  rw [← hcall] at hcode hbusy
  cases step_yields hd with
  | owner =>
    cases hstep with
    | silent =>
      refine .inl (h.stutter hinv hq' rfl rfl rfl rfl rfl (fun hv => absurd rfl hv) ?_)
      rw [Function.update_self, ← hq'.call]
      exact calling_own hcode hbusy
  | @pushed π first =>
    cases hstep with
    | pushed hpush hb =>
      obtain rfl : call = .push π := hpush
      obtain ⟨f, l, hs, hf, hk⟩ := hcode
      obtain ⟨r, hr⟩ := exists_task_of_forked hk .right
      have hstep' : Scheduler.Step s w _ := ⟨hlive', .spawn hs hf hk hr (Nat.ne_of_lt hb)⟩
      refine .inr ⟨_, hstep', h.after hinv hq' (hstep'.preserves h.inv) rfl rfl
        (by rw [hs]; rfl) ?_ h.aborted rfl rfl (fun hv => absurd rfl hv) ?_⟩
      · refine Eq.trans ?_ h.done
        exact Function.update_eq_self_iff.mpr (h.inv.done_of_task hs hf).symm
      · rw [Function.update_self, ← hq'.call]
        exact calling_none _ w
  | aborted =>
    cases hstep with
    | @aborted π hpush hb =>
      obtain rfl : call = .push π := hpush
      obtain ⟨f, l, hs, hf, hk⟩ := hcode
      have hstep' : Scheduler.Step s w _ := ⟨hlive', .abort hs hf hk hb⟩
      refine .inr ⟨_, hstep', h.after hinv hq' (hstep'.preserves h.inv) rfl rfl
        (Function.update_eq_self w s.stack).symm h.done rfl (Function.update_eq_self w s.deque).symm
        (Function.update_eq_self w s.bot).symm (fun hv => absurd rfl hv) ?_⟩
      rw [Function.update_self, ← hq'.call]
      exact calling_own rfl fun hc => by cases hc
  | popped =>
    refine h.popped hlive ?_ hstep hinv hq'
    have hpop : call = .pop := by
      cases hstep with
      | popped hpop _ _ => exact hpop
      | poppedLast hpop _ => exact hpop
      | poppedNone hpop _ => exact hpop.resolve_left hbusy
    rwa [hpop] at hcode

/-- A thief makes an access in its call of `pop_top`. -/
theorem Refines.theft (h : Refines c s) (hfresh : (c.deque v).Fresh) (hlive : c.aborted = false)
    {f : Frame} {l : List Frame} (hs : s.stack w = f :: l) (hf : f.Idle)
    (hc : c.call w ≠ some .own)
    (hd : WorkStealingDeque.step (c.deque v) (.thief w) = some (e, d)) :
    Refines (c.after w v (.theft v) e d) s ∨
      ∃ s', Scheduler.Step s w s' ∧ Refines (c.after w v (.theft v) e d) s' := by
  have hlive' : s.aborted = false := h.aborted.trans hlive
  obtain ⟨call, beaten, hq⟩ := h.shows v
  obtain ⟨hinv, q', hstep, hq'⟩ := step_shows (h.deques v) hfresh hq hd
  have hcall : call = (c.deque v).owner.call := hq.call
  -- the thief is in no call of its own deque
  have hidle := (h.calls w).own_eq hc
  have hown : q'.call = call → ((Function.update c.deque v d) w).owner.call = .idle := by
    intro hsame
    by_cases hv : w = v
    · subst hv
      rw [Function.update_self, ← hq'.call, hsame, hcall, hidle]
    · rw [Function.update_of_ne hv, hidle]
  have hgo : q'.call = call → Calling s w (some (.theft v))
      ((Function.update c.deque v d) w).owner.call := fun hsame => by
    rw [hown hsame]
    exact ⟨trivial, by simp, fun _ _ => ⟨f, l, hs, hf⟩⟩
  have hend : ∀ s' : Scheduler.State θ ν α, q'.call = call → Calling s' w none
      ((Function.update c.deque v d) w).owner.call := fun s' hsame => by
    rw [hown hsame]
    exact calling_none s' w
  cases step_yields hd with
  | thief =>
    cases hstep with
    | silent => exact .inl (h.stutter hinv hq' rfl rfl rfl rfl rfl (fun _ => hcall) (hgo rfl))
  | stealing =>
    cases hstep with
    | stealing => exact .inl (h.stutter hinv hq' rfl rfl rfl rfl rfl (fun _ => hcall) (hgo rfl))
  | stolen =>
    cases hstep with
    | stolen hj =>
      have hstep' : Scheduler.Step s w _ := ⟨hlive', .steal hs hf hj⟩
      exact .inr ⟨_, hstep', h.after hinv hq' (hstep'.preserves h.inv) rfl rfl
        (by rw [hs]; rfl) h.done h.aborted rfl (Function.update_eq_self v s.bot).symm
        (fun _ => hcall) (hend _ rfl)⟩
    | stolenNone _ =>
      exact .inl (h.stutter hinv hq' rfl rfl rfl rfl rfl (fun _ => hcall) (hend _ rfl))

/-- A step outside of the deques. -/
theorem Refines.outside (h : Refines c s) (hc : c.call w = none) (hstep : Scheduler.Step s w s')
    {l : List Frame} (hl : s'.stack = Function.update s.stack w l) (hprog : s'.prog = c'.prog)
    (hmem : s'.mem = c'.mem) (hstack : s'.stack = c'.stack) (hdone : s'.done = c'.done)
    (haborted : s'.aborted = c'.aborted) (hlive : c'.aborted = c.aborted)
    (hdeque : s'.deque = s.deque) (hbot : s'.bot = s.bot) (hdeques : c'.deque = c.deque)
    (hcall : c'.call = c.call) : Refines c' s' where
  prog := hprog
  mem := hmem
  stack := hstack
  done := hdone
  aborted := haborted
  inv := hstep.preserves h.inv
  deques v := hdeques ▸ h.deques v
  shows v := by
    rw [hdeque, hbot, hdeques]
    exact h.shows v
  calls v := by
    rw [hdeques, hcall]
    by_cases hv : v = w
    · subst hv
      rw [(h.calls v).own_eq (by rw [hc]; exact fun hn => by cases hn), hc]
      exact calling_none s' v
    · refine (h.calls v).keep ?_ (fun ha => ?_) fun hs hf hk hne =>
        hstep.kindAt_keep h.inv hv hs hf hk hne
      · rw [hl, Function.update_of_ne hv]
      · rw [haborted, hlive, ← h.aborted, ha]

/-- **One access.** It is a step of the scheduler on lists or changes nothing there. -/
theorem Refines.step (h : Refines c s) (hstep : FreshStep c w c') :
    Refines c' s ∨ ∃ s', Scheduler.Step s w s' ∧ Refines c' s' := by
  obtain ⟨hfresh, hlive, hmove⟩ := hstep
  have hlive' : s.aborted = false := h.aborted.trans hlive
  cases hmove with
  | @access f l π p m hc hs hf ha =>
    have hstep : Scheduler.Step s w { s with prog := p, mem := m } :=
      ⟨hlive', .access (h.stack ▸ hs) hf (by rw [h.prog, h.mem]; exact ha)⟩
    exact .inr ⟨_, hstep, h.outside hc hstep (Function.update_eq_self w s.stack).symm rfl rfl
      h.stack h.done h.aborted rfl rfl rfl rfl rfl⟩
  | @rightReturn l π hc hs hr =>
    have hstep : Scheduler.Step s w ((s.setStack w l).leave π) :=
      ⟨hlive', .rightReturn (h.stack ▸ hs) (h.prog ▸ hr)⟩
    exact .inr ⟨_, hstep, h.outside hc hstep rfl (by rw [← h.prog]; rfl) h.mem
      (by rw [← h.stack]; rfl) (by rw [← h.done]; rfl)
      h.aborted rfl rfl rfl rfl rfl⟩
  | @waitReturn l π hc hs hd =>
    have hstep : Scheduler.Step s w ((s.setStack w l).leave π) :=
      ⟨hlive', .waitReturn (h.stack ▸ hs) (h.done ▸ hd)⟩
    exact .inr ⟨_, hstep, h.outside hc hstep rfl (by rw [← h.prog]; rfl) h.mem
      (by rw [← h.stack]; rfl) (by rw [← h.done]; rfl)
      h.aborted rfl rfl rfl rfl rfl⟩
  | @jobReturn l π hc hs hr =>
    have hstep : Scheduler.Step s w ((s.setStack w l).setDone π true) :=
      ⟨hlive', .jobReturn (h.stack ▸ hs) (h.prog ▸ hr)⟩
    exact .inr ⟨_, hstep, h.outside hc hstep rfl h.prog h.mem
      (by rw [← h.stack]; rfl) (by rw [← h.done]; rfl)
      h.aborted rfl rfl rfl rfl rfl⟩
  | @deque v a into e d hn hd =>
    cases hn with
    | spawn hc hs hf hk => exact .inl (h.begin_push (hfresh w) hs hf hk hd)
    | getOwnJob hc hs hl => exact h.begin_pop (hfresh w) hlive hs (.inr ⟨_, rfl, hl⟩) hd
    | getJob hc hs hf => exact h.begin_pop (hfresh w) hlive hs (.inl hf) hd
    | own hc => exact h.continue_own (hfresh w) hlive hc hd
    | trySteal hc hs hf =>
      exact h.theft (hfresh v) hlive (h.stack ▸ hs) hf (by rw [hc]; exact fun hn => by cases hn) hd
    | theft hc =>
      obtain ⟨f, l, hs, hf⟩ := (h.calls w).thief v hc
      exact h.theft (hfresh v) hlive hs hf (by rw [hc]; exact fun hn => by cases hn) hd

/-- A call of a deque that has begun can make its next access. -/
theorem Refines.exists_step (h : Refines c s) (hlive : c.aborted = false) {into : Into θ}
    (hc : c.call w = some into) : ∃ c', Step c w c' := by
  cases into with
  | own =>
    have hcode := (h.calls w).code
    have hbusy := (h.calls w).busy.mp hc
    obtain ⟨e, d, hd⟩ := (h.deques w).exists_ownerStep (fun hi => hbusy (by rw [hi]; rfl))
      fun ha => by
        rw [ha] at hcode
        exact absurd (hcode.symm.trans (h.aborted.trans hlive)) (by decide)
    exact ⟨_, hlive, .deque (.own hc) hd⟩
  | theft v =>
    obtain ⟨e, d, hd⟩ := (h.deques v).exists_thiefStep w
    exact ⟨_, hlive, .deque (.theft hc) hd⟩

variable {w₀ : θ} {p : Prog ν α} {m : Store ν}

omit [DecidableEq ν] in
theorem initial_refines (w₀ : θ) (p : Prog ν α) (m : Store ν) (deq : θ → Nat → Pos) :
    Refines (initial w₀ p m deq) (Scheduler.initial w₀ p m) where
  prog := rfl
  mem := rfl
  stack := rfl
  done := rfl
  aborted := rfl
  inv := initial_inv w₀ p m
  deques v := WorkStealingDeque.initial_inv (deq v)
  shows v := ⟨_, _, WorkStealingDeque.initial_shows (deq v)⟩
  calls w := calling_none _ w

section Runs

variable {deq : θ → Nat → Pos} {ws : List θ} (h : Run FreshStep (initial w₀ p m deq) ws c)

include h

/-- Every run of accesses is one of the scheduler on lists, less some steps. -/
theorem refines_of_run : ∃ vs s, vs.Sublist ws ∧
    Run Scheduler.Step (Scheduler.initial w₀ p m) vs s ∧ Refines c s := by
  have hstep : ∀ (c : State θ ν α) (s : Scheduler.State θ ν α) w c', Refines c s →
      FreshStep c w c' → Refines c' s ∨ ∃ s', Scheduler.Step s w s' ∧ Refines c' s' :=
    fun _ _ _ _ hs hstep => hs.step hstep
  exact h.simulate_stutter Refines hstep (initial_refines w₀ p m deq)

theorem result_of_run {r : α × Store ν} (hR : p.RaceFree) (hp : p.run m = some r)
    (hk : c.prog.kind = .returned) : c.prog = .ret r.1 ∧ c.mem = r.2 := by
  obtain ⟨vs, s, -, hrun, hs⟩ := refines_of_run h
  rw [← hs.prog, ← hs.mem]
  exact (sound_of_run hR hp hrun).returned (hs.prog ▸ hk)

theorem no_abort_of_run {n : Nat} (hn : p.Nested n) (hsize : n < qSize) : c.aborted = false := by
  obtain ⟨vs, s, -, hrun, hs⟩ := refines_of_run h
  rw [← hs.aborted]
  exact live_of_run hn hsize hrun

end Runs

/-- **The scheduler on the arrays.** Whatever the arrays hold at first, every run of
accesses is one of the scheduler on lists with fewer steps: with the same program,
memory and stacks, and the jobs of the arrays in its lists. A call of a deque that
has begun can always go on. A race-free program that program order completes returns
nothing else, and fewer than 1000 nested forks fill no array. -/
theorem deques_refine (deq : θ → Nat → Pos) {ws : List θ}
    (h : Run FreshStep (initial w₀ p m deq) ws c) :
    (∃ vs s, vs.Sublist ws ∧ Run Scheduler.Step (Scheduler.initial w₀ p m) vs s ∧
      s.prog = c.prog ∧ s.mem = c.mem ∧ s.stack = c.stack ∧ s.done = c.done ∧
      s.aborted = c.aborted ∧ ∀ v, s.deque v = (c.deque v).content) ∧
    (c.aborted = false → ∀ w, c.call w ≠ none → ∃ c', Step c w c') ∧
    (∀ r, p.RaceFree → p.run m = some r → c.prog.kind = .returned →
      c.prog = .ret r.1 ∧ c.mem = r.2) ∧
    ∀ n < qSize, p.Nested n → c.aborted = false := by
  obtain ⟨vs, s, hsub, hrun, hs⟩ := refines_of_run h
  refine ⟨⟨vs, s, hsub, hrun, hs.prog, hs.mem, hs.stack, hs.done, hs.aborted, fun v => ?_⟩,
    fun hlive w hc => ?_, fun r hR hp hk => result_of_run h hR hp hk,
    fun n hsize hn => no_abort_of_run h hn hsize⟩
  · obtain ⟨_, _, hshow⟩ := hs.shows v
    exact hshow.jobs
  · obtain ⟨into, hinto⟩ := Option.ne_none_iff_exists'.mp hc
    exact hs.exists_step hlive hinto

end Refinement

/-- Steps in which no tag has been reset yet. -/
theorem freshStep_of_resets {θ ν α : Type} [DecidableEq θ] [DecidableEq ν] {s t : State θ ν α}
    {w : θ} (hr : ∀ v, (s.deque v).resets = 0) (h : Move s w t) (hlive : s.aborted = false) :
    Run FreshStep s [w] t :=
  .single ⟨fun v i _ => hr v ▸ Nat.lt_of_lt_of_le (by decide) (Nat.le_add_left _ _), hlive, h⟩

/-- One worker forks and wants its job back, and another is faster. -/
theorem deques_refine_race : ∃ c : State (Fin 2) Unit Unit,
    Run FreshStep (initial 0 (.fork (.ret ()) (.ret ()) (.ret ())) Store.empty fun _ _ => [])
      ([0] ++ [0] ++ [0] ++ [1] ++ [1] ++ [0] ++ [1] ++ [1]) c ∧
    c.call 0 = some .own ∧ c.stack 1 = [.job [], .worker] ∧ (∃ c', Step c 0 c') ∧
    ∃ vs s, vs.Sublist ([0] ++ [0] ++ [0] ++ [1] ++ [1] ++ [0] ++ [1] ++ [1]) ∧
      Run Scheduler.Step (Scheduler.initial 0 (.fork (.ret ()) (.ret ()) (.ret ())) Store.empty)
        vs s ∧ s.prog = c.prog ∧ s.mem = c.mem ∧ s.stack = c.stack ∧ s.done = c.done ∧
      s.aborted = c.aborted ∧ ∀ v, s.deque v = (c.deque v).content := by
  have h := (((((((freshStep_of_resets (s := initial (0 : Fin 2) (.fork (.ret ()) (.ret ())
      (.ret ())) (Store.empty : Store Unit) fun _ _ => []) (w := 0) (by decide)
      (.deque (.spawn (f := .main) (l := []) (π := []) rfl rfl rfl rfl) rfl) rfl).trans
    (freshStep_of_resets (w := 0) (by decide) (.deque (.own rfl) rfl) rfl)).trans
    (freshStep_of_resets (w := 0) (by decide) (.deque (.own rfl) rfl) rfl)).trans
    (freshStep_of_resets (w := 1) (by decide)
      (.deque (.trySteal (v := 0) (f := .worker) (l := []) rfl rfl trivial) rfl) rfl)).trans
    (freshStep_of_resets (w := 1) (by decide) (.deque (.theft (v := 0) rfl) rfl) rfl)).trans
    (freshStep_of_resets (w := 0) (by decide)
      (.deque (.getOwnJob (l := [.main]) (π := []) rfl rfl rfl) rfl) rfl)).trans
    (freshStep_of_resets (w := 1) (by decide) (.deque (.theft (v := 0) rfl) rfl) rfl)).trans
    (freshStep_of_resets (w := 1) (by decide) (.deque (.theft (v := 0) rfl) rfl) rfl)
  obtain ⟨hrun, hgo, -, -⟩ := deques_refine _ h
  exact ⟨_, h, rfl, rfl, hgo rfl 0 (fun hc => by cases hc), hrun⟩

end BigintMultiply.SchedulerDeques
