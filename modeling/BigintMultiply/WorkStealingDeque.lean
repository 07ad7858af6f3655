import Mathlib.Data.List.Perm.Basic
import Mathlib.Tactic.Ring
import BigintMultiply.Library.Transitions

/-! The work-stealing deque of the scheduler, `work_stealing_deque.h`.

One owner pushes and pops at the bottom, any number of thieves pop at the top.
A step of the model is one access to a shared variable, and the accesses of the
owner and the thieves interleave in any order (sequential consistency).

* `run_refines`: every run is one of `Queue`, a list with atomic operations, as long
  as no call of `pop_top` is overtaken by `2 ^ 32` resets of the tag.
* `run_progress`: in such a run no access leaves the array.
* `stale_theft`: after `2 ^ 32` resets a job is taken twice and another is lost. -/

namespace BigintMultiply.WorkStealingDeque
open Transitions

def qSize : Nat := 1000

/-- `age_t`. Both fields are `unsigned int`. -/
structure Age where
  tag : Nat
  top : Nat
  deriving DecidableEq, Repr

/-- Where the owner is in its call, with the call's local variables. -/
inductive Owner (Job : Type)
  | idle
  /-- `push_bottom` has read `bot`. -/
  | pushStore (job : Job) (localBot : Nat)
  /-- It has stored the job. -/
  | pushPublish (job : Job) (localBot : Nat)
  /-- `std::abort()` was called. -/
  | aborted
  /-- `pop_bottom` has read `bot` and decremented `local_bot`. -/
  | popLower (localBot : Nat)
  /-- It has stored `bot`. -/
  | popJob (localBot : Nat)
  /-- It has read the job. -/
  | popAge (localBot : Nat) (job : Job)
  /-- It has read an age with `local_bot <= old_age.top`. -/
  | popReset (localBot : Nat) (job : Job) (oldAge : Age)
  /-- It has stored 0 to `bot`. -/
  | popSwap (localBot : Nat) (job : Job) (oldAge : Age)
  /-- It has lost the last job. -/
  | popStore (newAge : Age)
  deriving DecidableEq, Repr

/-- Where a thief is in its call of `pop_top`. -/
inductive Thief (Job : Type)
  | idle
  | hasAge (oldAge : Age)
  /-- It has read `bot`, with `local_bot > old_age.top`. -/
  | hasBot (oldAge : Age) (localBot : Nat)
  | hasJob (oldAge : Age) (localBot : Nat) (job : Job)
  deriving DecidableEq, Repr

/-- The shared variables and the positions of all threads. `resets` counts the
changes of the tag and `seen i` its value when thief `i` read the age: history
that no step depends on. -/
structure State (θ Job : Type) where
  bot : Nat
  age : Age
  deq : Nat → Job
  owner : Owner Job
  thief : θ → Thief Job
  resets : Nat
  seen : θ → Nat

/-- What a step shows to the callers. -/
inductive Event (θ Job : Type)
  | silent
  /-- `push_bottom(job)` is called. -/
  | pushing (job : Job)
  /-- It returns whether the job is the first one. -/
  | pushed (job : Job) (first : Bool)
  /-- It calls `std::abort()`. -/
  | aborted
  /-- `pop_bottom` is called and finds `bot` above 0. -/
  | popping
  /-- It returns a job or `nullptr`. -/
  | popped (job : Option Job)
  /-- Thief `i` calls `pop_top`. -/
  | stealing (i : θ)
  /-- The call returns `{job, empty}`. -/
  | stolen (i : θ) (job : Option Job) (empty : Bool)
  deriving DecidableEq, Repr

/-- Who makes the next access: the owner begins a call or continues it, a thief
begins or continues `pop_top`. -/
inductive Action (θ Job : Type)
  | push (job : Job)
  | pop
  | owner
  | thief (i : θ)

section Step

variable {θ Job : Type} [DecidableEq θ]

/-- The state after construction; the array holds arbitrary pointers. -/
def initial (deq : Nat → Job) : State θ Job :=
  ⟨0, ⟨0, 0⟩, deq, .idle, fun _ => .idle, 0, fun _ => 0⟩

/-- `n + 1` on `unsigned int`. -/
def inc (n : Nat) : Nat := (n + 1) % 2 ^ 32

/-- `new_age` of `pop_bottom`. -/
def Age.next (a : Age) : Age := ⟨inc a.tag, 0⟩

/-- `new_age` of `pop_top`. -/
def Age.bump (a : Age) : Age := ⟨a.tag, inc a.top⟩

/-- The next access of the owner inside a call. -/
def ownerStep (s : State θ Job) : Option (Event θ Job × State θ Job) :=
  match s.owner with
  | .idle | .aborted => none
  | .pushStore job localBot =>
    if localBot < qSize then
      some (.silent, { s with
        deq := Function.update s.deq localBot job, owner := .pushPublish job localBot })
    else none
  | .pushPublish job localBot =>
    if inc localBot = qSize then some (.aborted, { s with owner := .aborted })
    else some (.pushed job (inc localBot = 1), { s with bot := inc localBot, owner := .idle })
  | .popLower localBot => some (.silent, { s with bot := localBot, owner := .popJob localBot })
  | .popJob localBot =>
    if localBot < qSize then
      some (.silent, { s with owner := .popAge localBot (s.deq localBot) })
    else none
  | .popAge localBot job =>
    if localBot > s.age.top then some (.popped (some job), { s with owner := .idle })
    else some (.silent, { s with owner := .popReset localBot job s.age })
  | .popReset localBot job oldAge =>
    some (.silent, { s with bot := 0, owner := .popSwap localBot job oldAge })
  | .popSwap localBot job oldAge =>
    if localBot = oldAge.top ∧ s.age = oldAge then
      some (.popped (some job), { s with
        age := oldAge.next, owner := .idle, resets := s.resets + 1 })
    else some (.silent, { s with owner := .popStore oldAge.next })
  | .popStore newAge =>
    some (.popped none, { s with age := newAge, owner := .idle, resets := s.resets + 1 })

/-- The next access of thief `i`. -/
def thiefStep (s : State θ Job) (i : θ) : Option (Event θ Job × State θ Job) :=
  let goto (t : Thief Job) : State θ Job := { s with thief := Function.update s.thief i t }
  match s.thief i with
  | .idle =>
    some (.stealing i, { goto (.hasAge s.age) with seen := Function.update s.seen i s.resets })
  | .hasAge oldAge =>
    if s.bot > oldAge.top then some (.silent, goto (.hasBot oldAge s.bot))
    else some (.stolen i none true, goto .idle)
  | .hasBot oldAge localBot =>
    if oldAge.top < qSize then
      some (.silent, goto (.hasJob oldAge localBot (s.deq oldAge.top)))
    else none
  | .hasJob oldAge localBot job =>
    if s.age = oldAge then
      some (.stolen i (some job) (localBot = inc oldAge.top), {
        goto .idle with age := oldAge.bump })
    -- the failed exchange has loaded the present age into `old_age`
    else some (.stolen i none (localBot = inc s.age.top), goto .idle)

/-- One access. There is none for a call begun inside another, or for an index
outside the array. -/
def step (s : State θ Job) : Action θ Job → Option (Event θ Job × State θ Job)
  | .push job =>
    match s.owner with
    | .idle => some (.pushing job, { s with owner := .pushStore job s.bot })
    | _ => none
  | .pop =>
    match s.owner with
    | .idle =>
      if s.bot ≠ 0 then some (.popping, { s with owner := .popLower (s.bot - 1) })
      else some (.popped none, s)
    | _ => none
  | .owner => ownerStep s
  | .thief i => thiefStep s i

/-- What an access may show. -/
inductive Yields {θ Job : Type} : Action θ Job → Event θ Job → Prop
  | push {job : Job} : Yields (.push job) (.pushing job)
  | pop : Yields .pop .popping
  | popNone : Yields .pop (.popped none)
  | owner : Yields .owner .silent
  | pushed {job : Job} {first : Bool} : Yields .owner (.pushed job first)
  | aborted : Yields .owner .aborted
  | popped {job : Option Job} : Yields .owner (.popped job)
  | thief {i : θ} : Yields (.thief i) .silent
  | stealing {i : θ} : Yields (.thief i) (.stealing i)
  | stolen {i : θ} {job : Option Job} {empty : Bool} : Yields (.thief i) (.stolen i job empty)

theorem step_yields {s s' : State θ Job} {a : Action θ Job} {e : Event θ Job}
    (hs : step s a = some (e, s')) : Yields a e := by
  cases a with
  | push job =>
    cases ho : s.owner with
    | idle =>
      simp only [step, ho, Option.some.injEq, Prod.mk.injEq] at hs
      obtain ⟨rfl, rfl⟩ := hs
      exact .push
    | _ => simp [step, ho] at hs
  | pop =>
    cases ho : s.owner with
    | idle =>
      simp only [step, ho] at hs
      split at hs <;> cases hs
      · exact .pop
      · exact .popNone
    | _ => simp [step, ho] at hs
  | owner =>
    simp only [step, ownerStep] at hs
    split at hs <;> try split at hs
    all_goals cases hs
    all_goals constructor
  | thief i =>
    simp only [step, thiefStep] at hs
    split at hs <;> try split at hs
    all_goals cases hs
    all_goals constructor

end Step

/-! ## A list with atomic operations -/

/-- The call that the owner is in. -/
inductive Call (Job : Type)
  | idle
  | push (job : Job)
  | pop
  | aborted
  deriving DecidableEq, Repr

/-- The purpose of the deque: jobs from the top to the bottom. `bot` is where the
next job would go, `call` the call of the owner, and `beaten i` says that since
thief `i` began another call has taken the last job or one from the top, or has
found no job. -/
structure Queue (θ Job : Type) where
  jobs : List Job
  bot : Nat
  call : Call Job
  beaten : θ → Bool

def Queue.empty {θ Job : Type} : Queue θ Job := ⟨[], 0, .idle, fun _ => false⟩

/-- What the calls do to the list, each when it returns. `push_bottom` returns whether
the index of its job is 0, and aborts when the array is full. A theft fails only if
it was beaten, or if no job is there but one that the owner is about to take; of
`empty` nothing is said, it comes from a `bot` that is out of date. -/
inductive QueueStep {θ Job : Type} [DecidableEq θ] (q : Queue θ Job) :
    Event θ Job → Queue θ Job → Prop
  | silent : QueueStep q .silent q
  | pushing {job : Job} (h : q.call = .idle) :
      QueueStep q (.pushing job) { q with call := .push job }
  | pushed {job : Job} (h : q.call = .push job) (hb : q.bot + 1 < qSize) :
      QueueStep q (.pushed job (q.bot = 0))
        { q with jobs := q.jobs ++ [job], bot := q.bot + 1, call := .idle }
  | aborted {job : Job} (h : q.call = .push job) (hb : q.bot + 1 = qSize) :
      QueueStep q .aborted { q with call := .aborted }
  | popping (h : q.call = .idle) : QueueStep q .popping { q with call := .pop }
  | popped {js : List Job} {job : Job} (h : q.call = .pop) (hj : q.jobs = js ++ [job])
      (hne : js ≠ []) :
      QueueStep q (.popped (some job)) { q with jobs := js, bot := q.bot - 1, call := .idle }
  | poppedLast {job : Job} (h : q.call = .pop) (hj : q.jobs = [job]) :
      QueueStep q (.popped (some job)) ⟨[], 0, .idle, fun _ => true⟩
  | poppedNone (h : q.call = .idle ∨ q.call = .pop) (hj : q.jobs = []) :
      QueueStep q (.popped none) ⟨[], 0, .idle, fun _ => true⟩
  | stealing {i : θ} :
      QueueStep q (.stealing i) { q with beaten := Function.update q.beaten i false }
  | stolen {i : θ} {job : Job} {js : List Job} {empty : Bool} (hj : q.jobs = job :: js) :
      QueueStep q (.stolen i (some job) empty) { q with jobs := js, beaten := fun _ => true }
  | stolenNone {i : θ} {empty : Bool}
      (h : q.beaten i = true ∨ q.jobs = [] ∨ q.call = .pop ∧ q.jobs.length = 1) :
      QueueStep q (.stolen i none empty) q

/-- What an event does to the jobs. -/
def Effect {θ Job : Type} (q : List Job) (e : Event θ Job) (r : List Job) : Prop :=
  match e with
  | .pushed job _ => r = q ++ [job]
  | .popped (some job) => q = r ++ [job]
  | .popped none => q = [] ∧ r = []
  | .stolen _ (some job) _ => q = job :: r
  | _ => r = q

/-! ## The invariant -/

section Invariant

variable {θ Job : Type}

/-- The end of the jobs in the array. A job that `pop_bottom` reached for stays in
until the owner has it for sure. -/
def State.bottom (s : State θ Job) : Nat :=
  match s.owner with
  | .popJob localBot => localBot + 1
  | .popAge localBot _ => localBot + 1
  | .popReset localBot _ _ => localBot + 1
  | .popSwap localBot _ _ => localBot + 1
  | .popStore _ => s.age.top
  | _ => s.bot

/-- The entries of the array from `top` up to `bottom`. -/
def jobs (deq : Nat → Job) (top bottom : Nat) : List Job :=
  (List.range' top (bottom - top)).map deq

/-- The jobs in the deque, from the top to the bottom. -/
def State.content (s : State θ Job) : List Job := jobs s.deq s.age.top s.bottom

/-- The age that the owner read before it gave up on taking the job without a race:
only thieves have changed it since. -/
def OldAge (age oldAge : Age) (localBot : Nat) : Prop :=
  localBot ≤ oldAge.top ∧ oldAge.top ≤ age.top ∧ oldAge.tag = age.tag

def State.OwnerOk (s : State θ Job) : Prop :=
  match s.owner with
  | .idle => True
  | .aborted => True
  | .pushStore _ localBot => s.bot = localBot
  | .pushPublish job localBot => s.bot = localBot ∧ s.deq localBot = job
  | .popLower localBot => s.bot = localBot + 1
  | .popJob localBot => s.bot = localBot
  | .popAge localBot job => s.bot = localBot ∧ s.deq localBot = job
  | .popReset localBot job oldAge =>
    s.bot = localBot ∧ s.deq localBot = job ∧ OldAge s.age oldAge localBot
  | .popSwap localBot job oldAge =>
    s.bot = 0 ∧ s.deq localBot = job ∧ OldAge s.age oldAge localBot
  | .popStore newAge => s.bot = 0 ∧ newAge = s.age.next

/-- What a thief relies on in the part of the state that it has read. -/
structure View (Job : Type) where
  resets : Nat
  top : Nat
  bottom : Nat
  deq : Nat → Job

def State.view (s : State θ Job) : View Job := ⟨s.resets, s.age.top, s.bottom, s.deq⟩

/-- An age that a thief read after `seen` resets. -/
structure Read (v : View Job) (seen : Nat) (oldAge : Age) : Prop where
  seen_le : seen ≤ v.resets
  tag : oldAge.tag = seen % 2 ^ 32
  top_le : seen = v.resets → oldAge.top ≤ v.top

/-- While neither the tag nor the top has changed since a thief read them, the job it
reaches for is in the deque. -/
def ThiefOk (v : View Job) (seen : Nat) : Thief Job → Prop
  | .idle => True
  | .hasAge oldAge => Read v seen oldAge
  | .hasBot oldAge _ => Read v seen oldAge ∧ oldAge.top < qSize ∧
    (seen = v.resets → oldAge.top = v.top → oldAge.top < v.bottom)
  | .hasJob oldAge _ job => Read v seen oldAge ∧
    (seen = v.resets → oldAge.top = v.top → oldAge.top < v.bottom ∧ v.deq oldAge.top = job)

structure State.Inv (s : State θ Job) : Prop where
  top_le : s.age.top ≤ s.bottom
  bottom_lt : s.bottom < qSize
  tag : s.age.tag = s.resets % 2 ^ 32
  owner : s.OwnerOk
  thief : ∀ i, ThiefOk s.view (s.seen i) (s.thief i)

/-- No call of `pop_top` has been overtaken by `2 ^ 32` resets. -/
def State.Fresh (s : State θ Job) : Prop :=
  ∀ i, s.thief i ≠ .idle → s.resets < s.seen i + 2 ^ 32

/-- What a thief relies on survives every change that leaves the tag and the top
alone and keeps the job at the top in place. -/
theorem ThiefOk.mono {v w : View Job} {seen : Nat} {t : Thief Job} (hr : v.resets ≤ w.resets)
    (hv : w.resets = v.resets → v.top ≤ w.top ∧ (w.top = v.top → v.top < v.bottom →
      v.top < w.bottom ∧ w.deq v.top = v.deq v.top)) (h : ThiefOk v seen t) :
    ThiefOk w seen t := by
  have hread : ∀ {oldAge}, Read v seen oldAge → Read w seen oldAge := fun hread => by
    refine ⟨Nat.le_trans hread.seen_le hr, hread.tag, fun hs => ?_⟩
    have hle := hread.seen_le
    have htop := hread.top_le (by omega)
    exact Nat.le_trans htop (hv (by omega)).1
  -- the tag and the top are as the thief read them only if both were so in `v`
  have hsame : ∀ {oldAge}, Read v seen oldAge → seen = w.resets → oldAge.top = w.top →
      seen = v.resets ∧ oldAge.top = v.top ∧ w.resets = v.resets ∧ w.top = v.top := by
    intro oldAge hread hs ht
    have hle := hread.seen_le
    have htop := hread.top_le (by omega)
    have hw := (hv (by omega)).1
    omega
  cases t with
  | idle => trivial
  | hasAge oldAge => exact hread h
  | hasBot oldAge localBot =>
    refine ⟨hread h.1, h.2.1, fun hs ht => ?_⟩
    obtain ⟨hs', ht', hres, htop⟩ := hsame h.1 hs ht
    have hlt := h.2.2 hs' ht'
    rw [ht'] at hlt ⊢
    exact ((hv hres).2 htop hlt).1
  | hasJob oldAge localBot job =>
    refine ⟨hread h.1, fun hs ht => ?_⟩
    obtain ⟨hs', ht', hres, htop⟩ := hsame h.1 hs ht
    obtain ⟨hlt, hjob⟩ := h.2 hs' ht'
    rw [ht'] at hlt hjob ⊢
    obtain ⟨hlt', hdeq⟩ := (hv hres).2 htop hlt
    exact ⟨hlt', hdeq.trans hjob⟩

/-! ## The jobs in the array -/

theorem jobs_empty (deq : Nat → Job) {top bottom : Nat} (h : bottom ≤ top) :
    jobs deq top bottom = [] := by
  rw [jobs, Nat.sub_eq_zero_of_le h]
  rfl

theorem jobs_append (deq : Nat → Job) {top bottom : Nat} (h : top ≤ bottom) :
    jobs deq top (bottom + 1) = jobs deq top bottom ++ [deq bottom] := by
  rw [jobs, Nat.sub_add_comm h, List.range'_1_concat, List.map_append, Nat.add_sub_cancel' h]
  rfl

theorem jobs_cons (deq : Nat → Job) {top bottom : Nat} (h : top < bottom) :
    jobs deq top bottom = deq top :: jobs deq (top + 1) bottom := by
  rw [jobs, show bottom - top = (bottom - (top + 1)) + 1 by omega, List.range'_succ, List.map_cons]
  rfl

theorem jobs_congr {deq deq' : Nat → Job} {top bottom : Nat}
    (h : ∀ i, i < bottom → deq' i = deq i) : jobs deq' top bottom = jobs deq top bottom := by
  refine List.map_congr_left fun i hi => h i ?_
  have := List.mem_range'_1.mp hi
  omega

/-! ## Steps -/

/-- A step of the owner keeps the thieves' positions, so that only the shared
variables have to be compared. -/
theorem State.Inv.ofOwner {s s' : State θ Job} (h : s.Inv) (hthief : s'.thief = s.thief)
    (hseen : s'.seen = s.seen) (hr : s.resets ≤ s'.resets)
    (hv : s'.resets = s.resets → s'.age = s.age ∧ (s.age.top < s.bottom →
      s.age.top < s'.bottom ∧ s'.deq s.age.top = s.deq s.age.top))
    (htop : s'.age.top ≤ s'.bottom) (hbottom : s'.bottom < qSize)
    (htag : s'.age.tag = s'.resets % 2 ^ 32) (howner : s'.OwnerOk) : s'.Inv where
  top_le := htop
  bottom_lt := hbottom
  tag := htag
  owner := howner
  thief i := by
    rw [hthief, hseen]
    refine (h.thief i).mono hr fun hsame => ?_
    obtain ⟨hage, hdeq⟩ := hv hsame
    exact ⟨Nat.le_of_eq (congrArg Age.top hage).symm, fun _ => hdeq⟩

theorem inc_eq {n : Nat} (h : n < qSize) : inc n = n + 1 :=
  Nat.mod_eq_of_lt (by rw [qSize] at h; omega)

/-- `push_bottom` after it has read `bot`. -/
theorem push_refines {s s' : State θ Job} {e : Event θ Job} {job : Job} {localBot : Nat}
    (h : s.Inv) (ho : s.owner = .pushStore job localBot ∨ s.owner = .pushPublish job localBot)
    (hs : ownerStep s = some (e, s')) : s'.Inv ∧ Effect s.content e s'.content := by
  have hown := h.owner
  have hlt := h.bottom_lt
  have htop := h.top_le
  rcases ho with ho | ho
  · -- the cell at `bot` holds no job
    simp only [State.OwnerOk, ho] at hown
    simp only [State.bottom, ho] at hlt htop
    subst hown
    simp only [ownerStep, ho, if_pos hlt, Option.some.injEq, Prod.mk.injEq] at hs
    obtain ⟨rfl, rfl⟩ := hs
    have hcell : ∀ i < s.bot, Function.update s.deq s.bot job i = s.deq i := fun i hi =>
      Function.update_of_ne (Nat.ne_of_lt hi) _ _
    refine ⟨h.ofOwner rfl rfl (Nat.le_refl _) (fun _ => ⟨rfl, fun ht => ?_⟩) htop hlt h.tag
      ⟨rfl, Function.update_self _ _ _⟩, ?_⟩
    · simp only [State.bottom, ho] at ht ⊢
      exact ⟨ht, hcell _ ht⟩
    · have hsame : s.content = jobs (Function.update s.deq s.bot job) s.age.top s.bot := by
        simp only [State.content, State.bottom, ho]
        exact (jobs_congr hcell).symm
      rw [hsame]
      exact rfl
  · simp only [State.OwnerOk, ho] at hown
    simp only [State.bottom, ho] at hlt htop
    obtain ⟨rfl, hjob⟩ := hown
    simp only [ownerStep, ho, inc_eq hlt] at hs
    by_cases hfull : s.bot + 1 = qSize
    · rw [if_pos hfull, Option.some.injEq, Prod.mk.injEq] at hs
      obtain ⟨rfl, rfl⟩ := hs
      refine ⟨h.ofOwner rfl rfl (Nat.le_refl _) (fun _ => ⟨rfl, fun ht => ?_⟩) htop hlt h.tag
        trivial, ?_⟩
      · simp only [State.bottom, ho] at ht ⊢
        exact ⟨ht, trivial⟩
      · simp only [State.content, State.bottom, ho]
        exact rfl
    · rw [if_neg hfull, Option.some.injEq, Prod.mk.injEq] at hs
      obtain ⟨rfl, rfl⟩ := hs
      refine ⟨h.ofOwner rfl rfl (Nat.le_refl _) (fun _ => ⟨rfl, fun ht => ?_⟩) ?_ ?_ h.tag
        trivial, ?_⟩
      · simp only [State.bottom, ho] at ht ⊢
        exact ⟨by omega, trivial⟩
      · change s.age.top ≤ s.bot + 1
        omega
      · change s.bot + 1 < qSize
        omega
      · simp only [State.content, State.bottom, ho]
        rw [jobs_append _ htop, hjob]
        exact rfl

/-- `pop_bottom` until it has read the age: the job it reaches for stays in the deque. -/
theorem popRead_refines {s s' : State θ Job} {e : Event θ Job} {localBot : Nat} (h : s.Inv)
    (ho : s.owner = .popLower localBot ∨ s.owner = .popJob localBot ∨
      ∃ job, s.owner = .popAge localBot job)
    (hs : ownerStep s = some (e, s')) : s'.Inv ∧ Effect s.content e s'.content := by
  have hown := h.owner
  have hlt := h.bottom_lt
  have htop := h.top_le
  rcases ho with ho | ho | ⟨job, ho⟩
  · simp only [State.OwnerOk, ho] at hown
    simp only [State.bottom, ho, hown] at hlt htop
    simp only [ownerStep, ho, Option.some.injEq, Prod.mk.injEq] at hs
    obtain ⟨rfl, rfl⟩ := hs
    refine ⟨h.ofOwner rfl rfl (Nat.le_refl _) (fun _ => ⟨rfl, fun ht => ?_⟩) htop hlt h.tag rfl, ?_⟩
    · simp only [State.bottom, ho, hown] at ht ⊢
      exact ⟨ht, trivial⟩
    · simp only [State.content, State.bottom, ho, hown]
      exact rfl
  · simp only [State.OwnerOk, ho] at hown
    simp only [State.bottom, ho] at hlt htop
    simp only [ownerStep, ho, if_pos (show localBot < qSize by omega), Option.some.injEq,
      Prod.mk.injEq] at hs
    obtain ⟨rfl, rfl⟩ := hs
    refine ⟨h.ofOwner rfl rfl (Nat.le_refl _) (fun _ => ⟨rfl, fun ht => ?_⟩) htop hlt h.tag
      ⟨hown, rfl⟩, ?_⟩
    · simp only [State.bottom, ho] at ht ⊢
      exact ⟨ht, trivial⟩
    · simp only [State.content, State.bottom, ho]
      exact rfl
  · simp only [State.OwnerOk, ho] at hown
    simp only [State.bottom, ho] at hlt htop
    simp only [ownerStep, ho] at hs
    by_cases hbelow : localBot > s.age.top
    · -- no thief that reads `bot` from now on reaches for the job at `localBot`
      rw [if_pos hbelow, Option.some.injEq, Prod.mk.injEq] at hs
      obtain ⟨rfl, rfl⟩ := hs
      refine ⟨h.ofOwner rfl rfl (Nat.le_refl _) (fun _ => ⟨rfl, fun ht => ?_⟩) ?_ ?_ h.tag
        trivial, ?_⟩
      · simp only [State.bottom, hown.1]
        exact ⟨hbelow, trivial⟩
      · change s.age.top ≤ s.bot
        omega
      · change s.bot < qSize
        omega
      · simp only [State.content, State.bottom, ho, hown.1]
        rw [jobs_append _ (by omega), hown.2]
        exact rfl
    · rw [if_neg hbelow, Option.some.injEq, Prod.mk.injEq] at hs
      obtain ⟨rfl, rfl⟩ := hs
      refine ⟨h.ofOwner rfl rfl (Nat.le_refl _) (fun _ => ⟨rfl, fun ht => ?_⟩) htop hlt h.tag
        ⟨hown.1, hown.2, by omega, Nat.le_refl _, rfl⟩, ?_⟩
      · simp only [State.bottom, ho] at ht ⊢
        exact ⟨ht, trivial⟩
      · simp only [State.content, State.bottom, ho]
        exact rfl

/-- `pop_bottom` when at most one job was left: it races with the thieves and resets. -/
theorem popReset_refines {s s' : State θ Job} {e : Event θ Job} (h : s.Inv)
    (ho : (∃ localBot job oldAge, s.owner = .popReset localBot job oldAge ∨
      s.owner = .popSwap localBot job oldAge) ∨ ∃ newAge, s.owner = .popStore newAge)
    (hs : ownerStep s = some (e, s')) : s'.Inv ∧ Effect s.content e s'.content := by
  have hown := h.owner
  have hlt := h.bottom_lt
  have htop := h.top_le
  have htag := h.tag
  rcases ho with ⟨localBot, job, oldAge, ho | ho⟩ | ⟨newAge, ho⟩
  · simp only [State.OwnerOk, ho] at hown
    simp only [State.bottom, ho] at hlt htop
    simp only [ownerStep, ho, Option.some.injEq, Prod.mk.injEq] at hs
    obtain ⟨rfl, rfl⟩ := hs
    refine ⟨h.ofOwner rfl rfl (Nat.le_refl _) (fun _ => ⟨rfl, fun ht => ?_⟩) htop hlt h.tag
      ⟨rfl, hown.2⟩, ?_⟩
    · simp only [State.bottom, ho] at ht ⊢
      exact ⟨ht, trivial⟩
    · simp only [State.content, State.bottom, ho]
      exact rfl
  · simp only [State.OwnerOk, ho] at hown
    simp only [State.bottom, ho] at hlt htop
    obtain ⟨hbot, hjob, hle, hold, holdTag⟩ := hown
    simp only [ownerStep, ho] at hs
    by_cases hwin : localBot = oldAge.top ∧ s.age = oldAge
    · obtain ⟨rfl, rfl⟩ := hwin
      rw [if_pos ⟨rfl, rfl⟩, Option.some.injEq, Prod.mk.injEq] at hs
      obtain ⟨rfl, rfl⟩ := hs
      refine ⟨h.ofOwner rfl rfl (Nat.le_succ _) (fun hr => absurd hr (Nat.succ_ne_self _))
        (Nat.zero_le _) ?_ ?_ trivial, ?_⟩
      · change s.bot < qSize
        omega
      · change inc s.age.tag = (s.resets + 1) % 2 ^ 32
        rw [htag, inc]
        omega
      · simp only [State.content, State.bottom, ho, Age.next]
        rw [jobs_append _ (Nat.le_refl _), jobs_empty _ (Nat.le_refl _), hjob,
          jobs_empty _ (Nat.le_of_eq hbot)]
        exact rfl
    · -- a thief was faster: the age has moved on by one top
      have hgone : localBot + 1 ≤ s.age.top := by
        by_contra hc
        refine hwin ⟨by omega, ?_⟩
        cases hage : s.age with
        | mk tag top =>
          cases hage' : oldAge with
          | mk tag' top' =>
            simp only [hage, hage'] at hc hle hold holdTag
            rw [holdTag, show top' = top by omega]
      rw [if_neg hwin, Option.some.injEq, Prod.mk.injEq] at hs
      obtain ⟨rfl, rfl⟩ := hs
      refine ⟨h.ofOwner rfl rfl (Nat.le_refl _) (fun _ => ⟨rfl, fun ht => ?_⟩) (Nat.le_refl _) ?_
        h.tag ⟨hbot, ?_⟩, ?_⟩
      · simp only [State.bottom, ho] at ht
        omega
      · change s.age.top < qSize
        omega
      · rw [Age.next, holdTag]
        rfl
      · simp only [State.content, State.bottom, ho]
        rw [jobs_empty _ hgone, jobs_empty _ (Nat.le_refl _)]
        exact rfl
  · simp only [State.OwnerOk, ho] at hown
    simp only [ownerStep, ho, Option.some.injEq, Prod.mk.injEq] at hs
    obtain ⟨rfl, rfl⟩ := hs
    obtain ⟨hbot, rfl⟩ := hown
    refine ⟨h.ofOwner rfl rfl (Nat.le_succ _) (fun hr => absurd hr (Nat.succ_ne_self _))
      (Nat.zero_le _) ?_ ?_ trivial, ?_⟩
    · change s.bot < qSize
      rw [hbot]
      exact Nat.succ_pos 999
    · change inc s.age.tag = (s.resets + 1) % 2 ^ 32
      rw [htag, inc]
      omega
    · simp only [State.content, State.bottom, ho, Age.next]
      rw [jobs_empty _ (Nat.le_refl _), jobs_empty _ (Nat.le_of_eq hbot)]
      exact ⟨rfl, rfl⟩

/-- Every access of the owner is a step of the list. -/
theorem ownerStep_refines {s s' : State θ Job} {e : Event θ Job} (h : s.Inv)
    (hs : ownerStep s = some (e, s')) : s'.Inv ∧ Effect s.content e s'.content := by
  cases ho : s.owner with
  | idle => simp [ownerStep, ho] at hs
  | aborted => simp [ownerStep, ho] at hs
  | pushStore job localBot => exact push_refines h (.inl ho) hs
  | pushPublish job localBot => exact push_refines h (.inr ho) hs
  | popLower localBot => exact popRead_refines h (.inl ho) hs
  | popJob localBot => exact popRead_refines h (.inr (.inl ho)) hs
  | popAge localBot job => exact popRead_refines h (.inr (.inr ⟨job, ho⟩)) hs
  | popReset localBot job oldAge => exact popReset_refines h (.inl ⟨_, _, _, .inl ho⟩) hs
  | popSwap localBot job oldAge => exact popReset_refines h (.inl ⟨_, _, _, .inr ho⟩) hs
  | popStore newAge => exact popReset_refines h (.inr ⟨_, ho⟩) hs

/-- Below `bot` there are only jobs, wherever the owner is. -/
theorem State.Inv.lt_bottom {s : State θ Job} (h : s.Inv) {n : Nat} (hn : n < s.bot) :
    n < s.bottom := by
  have hown := h.owner
  cases ho : s.owner with
  | popJob localBot =>
    simp only [State.OwnerOk, State.bottom, ho] at hown ⊢
    omega
  | popAge localBot job =>
    simp only [State.OwnerOk, State.bottom, ho] at hown ⊢
    omega
  | popReset localBot job oldAge =>
    simp only [State.OwnerOk, State.bottom, ho] at hown ⊢
    omega
  | popSwap localBot job oldAge =>
    simp only [State.OwnerOk, State.bottom, ho] at hown ⊢
    omega
  | popStore newAge =>
    simp only [State.OwnerOk, ho] at hown
    omega
  | _ =>
    simp only [State.bottom, ho]
    exact hn

/-- A thief takes the job at the top while the owner is anywhere in a call. -/
theorem State.Inv.bump {s : State θ Job} (h : s.Inv) (ht : s.age.top < s.bottom) :
    ({ s with age := s.age.bump } : State θ Job).bottom = s.bottom ∧
      ({ s with age := s.age.bump } : State θ Job).OwnerOk := by
  have hown := h.owner
  have hinc : inc s.age.top = s.age.top + 1 := inc_eq (Nat.lt_trans ht h.bottom_lt)
  have hold : ∀ {oldAge localBot}, OldAge s.age oldAge localBot →
      OldAge s.age.bump oldAge localBot := fun hold => by
    refine ⟨hold.1, ?_, hold.2.2⟩
    change _ ≤ inc s.age.top
    have := hold.2.1
    omega
  cases ho : s.owner with
  | popReset localBot job oldAge =>
    simp only [State.OwnerOk, State.bottom, ho] at hown ⊢
    exact ⟨trivial, hown.1, hown.2.1, hold hown.2.2⟩
  | popSwap localBot job oldAge =>
    simp only [State.OwnerOk, State.bottom, ho] at hown ⊢
    exact ⟨trivial, hown.1, hown.2.1, hold hown.2.2⟩
  | popStore newAge =>
    simp only [State.bottom, ho] at ht
    exact absurd ht (Nat.lt_irrefl _)
  | _ =>
    simp only [State.OwnerOk, State.bottom, ho] at hown ⊢
    exact ⟨trivial, hown⟩

section Thief

variable [DecidableEq θ]

/-- A thief moves on and changes no shared variable. -/
theorem State.Inv.move {s : State θ Job} (h : s.Inv) (i : θ) {t : Thief Job} {seen : θ → Nat}
    (hseen : ∀ j, j ≠ i → seen j = s.seen j) (ht : ThiefOk s.view (seen i) t) :
    ({ s with thief := Function.update s.thief i t, seen := seen } : State θ Job).Inv where
  top_le := h.top_le
  bottom_lt := h.bottom_lt
  tag := h.tag
  owner := h.owner
  thief j := by
    change ThiefOk s.view (seen j) (Function.update s.thief i t j)
    by_cases hj : j = i
    · subst hj
      rwa [Function.update_self]
    · rw [Function.update_of_ne hj, hseen j hj]
      exact h.thief j

/-- **A theft.** The exchange succeeds only if the job is still at the top. -/
theorem steal_refines {s : State θ Job} (h : s.Inv) (hf : s.Fresh) {i : θ} {oldAge : Age}
    {localBot : Nat} {job : Job} (hi : s.thief i = .hasJob oldAge localBot job)
    (hage : s.age = oldAge) (empty : Bool) :
    ({ s with thief := Function.update s.thief i .idle, age := oldAge.bump } : State θ Job).Inv ∧
      Effect s.content (.stolen i (some job) empty)
        ({ s with thief := Function.update s.thief i .idle, age := oldAge.bump } :
          State θ Job).content := by
  subst hage
  have hthief := h.thief i
  rw [hi] at hthief
  obtain ⟨hread, hjob⟩ := hthief
  -- equal tags: no reset has happened since the thief read the age
  have hseen : s.seen i = s.resets := by
    have hfresh := hf i (by rw [hi]; exact fun hc => by cases hc)
    have hle : s.seen i ≤ s.resets := hread.seen_le
    have htag := hread.tag
    rw [h.tag] at htag
    omega
  obtain ⟨ht, hdeq⟩ := hjob hseen rfl
  have ht : s.age.top < s.bottom := ht
  have hdeq : s.deq s.age.top = job := hdeq
  have hinc : inc s.age.top = s.age.top + 1 := inc_eq (Nat.lt_trans ht h.bottom_lt)
  obtain ⟨hbottom, howner⟩ := h.bump ht
  have hinv : ({ s with age := s.age.bump } : State θ Job).Inv := by
    refine ⟨?_, ?_, h.tag, howner, fun j => ?_⟩
    · rw [hbottom]
      change inc s.age.top ≤ s.bottom
      omega
    · rw [hbottom]
      exact h.bottom_lt
    · refine ThiefOk.mono (v := s.view) (Nat.le_refl s.resets) (fun _ => ⟨?_, ?_⟩) (h.thief j)
      · change s.age.top ≤ inc s.age.top
        omega
      · intro hsame
        change inc s.age.top = s.age.top at hsame
        omega
  refine ⟨hinv.move i (fun _ _ => rfl) trivial, ?_⟩
  have hafter : ({ s with thief := Function.update s.thief i .idle, age := s.age.bump } :
      State θ Job).content = jobs s.deq (s.age.top + 1) s.bottom := by
    rw [← hinc, ← hbottom]
    rfl
  rw [hafter, State.content, jobs_cons _ ht, hdeq]
  exact rfl

/-- Every access of a thief is a step of the list. -/
theorem thiefStep_refines {s s' : State θ Job} {e : Event θ Job} (h : s.Inv) (hf : s.Fresh) (i : θ)
    (hs : thiefStep s i = some (e, s')) : s'.Inv ∧ Effect s.content e s'.content := by
  have hthief := h.thief i
  cases hi : s.thief i with
  | idle =>
    simp only [thiefStep, hi, Option.some.injEq, Prod.mk.injEq] at hs
    obtain ⟨rfl, rfl⟩ := hs
    refine ⟨h.move i (fun j hj => Function.update_of_ne hj _ _) ?_, rfl⟩
    rw [Function.update_self]
    exact ⟨Nat.le_refl _, h.tag, fun _ => Nat.le_refl _⟩
  | hasAge oldAge =>
    rw [hi] at hthief
    simp only [thiefStep, hi] at hs
    split at hs
    · rename_i hbot
      rw [Option.some.injEq, Prod.mk.injEq] at hs
      obtain ⟨rfl, rfl⟩ := hs
      have hlt := h.lt_bottom hbot
      exact ⟨h.move i (fun _ _ => rfl) ⟨hthief, Nat.lt_trans hlt h.bottom_lt, fun _ _ => hlt⟩,
        rfl⟩
    · rw [Option.some.injEq, Prod.mk.injEq] at hs
      obtain ⟨rfl, rfl⟩ := hs
      exact ⟨h.move i (fun _ _ => rfl) trivial, rfl⟩
  | hasBot oldAge localBot =>
    rw [hi] at hthief
    simp only [thiefStep, hi] at hs
    split at hs
    · rw [Option.some.injEq, Prod.mk.injEq] at hs
      obtain ⟨rfl, rfl⟩ := hs
      exact ⟨h.move i (fun _ _ => rfl) ⟨hthief.1, fun hr ht => ⟨hthief.2.2 hr ht, rfl⟩⟩, rfl⟩
    · cases hs
  | hasJob oldAge localBot job =>
    simp only [thiefStep, hi] at hs
    split at hs
    · rename_i hage
      rw [Option.some.injEq, Prod.mk.injEq] at hs
      obtain ⟨rfl, rfl⟩ := hs
      exact steal_refines h hf hi hage _
    · rw [Option.some.injEq, Prod.mk.injEq] at hs
      obtain ⟨rfl, rfl⟩ := hs
      exact ⟨h.move i (fun _ _ => rfl) trivial, rfl⟩

end Thief

/-! ## Runs -/

section Runs

variable [DecidableEq θ]

/-- Every access is a step of the list. -/
theorem step_refines {s s' : State θ Job} {a : Action θ Job} {e : Event θ Job} (h : s.Inv)
    (hf : s.Fresh) (hs : step s a = some (e, s')) : s'.Inv ∧ Effect s.content e s'.content := by
  cases a with
  | push job =>
    cases ho : s.owner with
    | idle =>
      simp only [step, ho, Option.some.injEq, Prod.mk.injEq] at hs
      obtain ⟨rfl, rfl⟩ := hs
      have hbottom : s.bottom = s.bot := by simp only [State.bottom, ho]
      have htop := h.top_le
      have hlt := h.bottom_lt
      rw [hbottom] at htop hlt
      refine ⟨h.ofOwner rfl rfl (Nat.le_refl _) (fun _ => ⟨rfl, fun ht => ?_⟩) htop hlt h.tag rfl,
        ?_⟩
      · rw [hbottom] at ht
        exact ⟨ht, rfl⟩
      · rw [State.content, hbottom]
        exact rfl
    | _ => simp [step, ho] at hs
  | pop =>
    cases ho : s.owner with
    | idle =>
      have hbottom : s.bottom = s.bot := by simp only [State.bottom, ho]
      have htop := h.top_le
      have hlt := h.bottom_lt
      rw [hbottom] at htop hlt
      simp only [step, ho] at hs
      by_cases hb : s.bot ≠ 0
      · rw [if_pos hb, Option.some.injEq, Prod.mk.injEq] at hs
        obtain ⟨rfl, rfl⟩ := hs
        refine ⟨h.ofOwner rfl rfl (Nat.le_refl _) (fun _ => ⟨rfl, fun ht => ?_⟩) htop hlt h.tag ?_,
          ?_⟩
        · rw [hbottom] at ht
          exact ⟨ht, rfl⟩
        · change s.bot = s.bot - 1 + 1
          omega
        · rw [State.content, hbottom]
          exact rfl
      · rw [if_neg hb, Option.some.injEq, Prod.mk.injEq] at hs
        obtain ⟨rfl, rfl⟩ := hs
        rw [State.content, jobs_empty _ (by omega)]
        exact ⟨h, rfl, rfl⟩
    | _ => simp [step, ho] at hs
  | owner => exact ownerStep_refines h hs
  | thief i => exact thiefStep_refines h hf i hs

/-- A step by anyone, with no thief outrun by the tags. -/
def FreshStep (s : State θ Job) (e : Event θ Job) (s' : State θ Job) : Prop :=
  s.Fresh ∧ ∃ a, step s a = some (e, s')

end Runs

theorem initial_inv (deq : Nat → Job) : (initial deq : State θ Job).Inv :=
  ⟨Nat.le_refl 0, Nat.succ_pos 999, rfl, trivial, fun _ => trivial⟩

/-- The call that a position of the owner lies in. -/
def Owner.call : Owner Job → Call Job
  | .idle => .idle
  | .pushStore job _ => .push job
  | .pushPublish job _ => .push job
  | .aborted => .aborted
  | _ => .pop

/-- The age that a thief has read. -/
def Thief.age : Thief Job → Option Age
  | .idle => none
  | .hasAge oldAge => some oldAge
  | .hasBot oldAge _ => some oldAge
  | .hasJob oldAge _ _ => some oldAge

/-- The list behind a state. -/
structure State.Shows (s : State θ Job) (q : Queue θ Job) : Prop where
  jobs : q.jobs = s.content
  call : q.call = s.owner.call
  bot : (∀ newAge, s.owner ≠ .popStore newAge) → q.bot = s.bottom
  beaten : ∀ i a, (s.thief i).age = some a → a ≠ s.age → q.beaten i = true

section Main

variable [DecidableEq θ]

omit [DecidableEq θ] in
/-- An access of the owner that shows nothing. -/
theorem State.Shows.ofSilent {s s' : State θ Job} {q : Queue θ Job} (h : s.Shows q)
    (hjobs : s'.content = s.content) (hcall : s'.owner.call = s.owner.call)
    (hbot : (∀ newAge, s'.owner ≠ .popStore newAge) → s'.bottom = s.bottom ∧
      ∀ newAge, s.owner ≠ .popStore newAge)
    (hthief : s'.thief = s.thief) (hage : s'.age = s.age) : s'.Shows q where
  jobs := h.jobs.trans hjobs.symm
  call := h.call.trans hcall.symm
  bot hs := (h.bot (hbot hs).2).trans (hbot hs).1.symm
  beaten i a hi ha := h.beaten i a (hthief ▸ hi) (hage ▸ ha)

omit [DecidableEq θ] in
/-- The owner returns from its call. -/
theorem State.shows_idle {s : State θ Job} {js : List Job} {bot : Nat} {beaten : θ → Bool}
    (ho : s.owner = .idle) (hjobs : js = s.content) (hbot : bot = s.bot)
    (hbeaten : ∀ i a, (s.thief i).age = some a → a ≠ s.age → beaten i = true) :
    s.Shows ⟨js, bot, .idle, beaten⟩ where
  jobs := hjobs
  call := by rw [ho]; rfl
  bot _ := by
    simp only [State.bottom, ho]
    exact hbot
  beaten := hbeaten

theorem push_shows {s s' : State θ Job} {q : Queue θ Job} {e : Event θ Job} {job : Job}
    {localBot : Nat} (h : s.Inv) (hq : s.Shows q)
    (ho : s.owner = .pushStore job localBot ∨ s.owner = .pushPublish job localBot)
    (hs : ownerStep s = some (e, s')) : ∃ q', QueueStep q e q' ∧ s'.Shows q' := by
  have hown := h.owner
  have hlt := h.bottom_lt
  have heff := (push_refines h ho hs).2
  have hcall := hq.call
  rcases ho with ho | ho
  · simp only [State.OwnerOk, ho] at hown
    simp only [State.bottom, ho] at hlt
    simp only [ownerStep, ho, if_pos (hown ▸ hlt), Option.some.injEq, Prod.mk.injEq] at hs
    obtain ⟨rfl, rfl⟩ := hs
    refine ⟨q, .silent, hq.ofSilent heff (by rw [ho]; rfl) (fun _ => ⟨?_, ?_⟩) rfl rfl⟩
    · simp only [State.bottom, ho]
    · rw [ho]
      exact fun _ hc => by cases hc
  · have hbot := hq.bot (by rw [ho]; exact fun _ hc => by cases hc)
    simp only [State.OwnerOk, ho] at hown
    simp only [State.bottom, ho] at hlt hbot
    obtain ⟨rfl, -⟩ := hown
    rw [ho] at hcall
    simp only [ownerStep, ho, inc_eq hlt] at hs
    by_cases hfull : s.bot + 1 = qSize
    · rw [if_pos hfull, Option.some.injEq, Prod.mk.injEq] at hs
      obtain ⟨rfl, rfl⟩ := hs
      refine ⟨_, .aborted hcall (hbot ▸ hfull), ⟨hq.jobs.trans (Eq.symm heff), rfl, fun _ => ?_,
        hq.beaten⟩⟩
      simp only [State.bottom]
      exact hbot
    · rw [if_neg hfull, Option.some.injEq, Prod.mk.injEq] at hs
      obtain ⟨rfl, rfl⟩ := hs
      have hfirst : decide (s.bot + 1 = 1) = decide (q.bot = 0) :=
        decide_eq_decide.mpr (by omega)
      rw [hfirst]
      refine ⟨_, .pushed hcall (by omega), State.shows_idle rfl ?_ (congrArg (· + 1) hbot)
        hq.beaten⟩
      rw [hq.jobs]
      exact Eq.symm heff

theorem popRead_shows {s s' : State θ Job} {q : Queue θ Job} {e : Event θ Job} {localBot : Nat}
    (h : s.Inv) (hq : s.Shows q)
    (ho : s.owner = .popLower localBot ∨ s.owner = .popJob localBot ∨
      ∃ job, s.owner = .popAge localBot job)
    (hs : ownerStep s = some (e, s')) : ∃ q', QueueStep q e q' ∧ s'.Shows q' := by
  have hown := h.owner
  have hlt := h.bottom_lt
  have heff := (popRead_refines h ho hs).2
  rcases ho with ho | ho | ⟨job, ho⟩
  · simp only [State.OwnerOk, ho] at hown
    simp only [ownerStep, ho, Option.some.injEq, Prod.mk.injEq] at hs
    obtain ⟨rfl, rfl⟩ := hs
    refine ⟨q, .silent, hq.ofSilent heff (by rw [ho]; rfl) (fun _ => ⟨?_, ?_⟩) rfl rfl⟩
    · simp only [State.bottom, ho, hown]
    · rw [ho]
      exact fun _ hc => by cases hc
  · simp only [State.bottom, ho] at hlt
    simp only [ownerStep, ho, if_pos (show localBot < qSize by omega), Option.some.injEq,
      Prod.mk.injEq] at hs
    obtain ⟨rfl, rfl⟩ := hs
    refine ⟨q, .silent, hq.ofSilent heff (by rw [ho]; rfl) (fun _ => ⟨?_, ?_⟩) rfl rfl⟩
    · simp only [State.bottom, ho]
    · rw [ho]
      exact fun _ hc => by cases hc
  · have hstore : ∀ newAge, s.owner ≠ .popStore newAge := by
      rw [ho]
      exact fun _ hc => by cases hc
    have hbot := hq.bot hstore
    have hcall := hq.call
    simp only [State.OwnerOk, ho] at hown
    simp only [State.bottom, ho] at hbot
    rw [ho] at hcall
    simp only [ownerStep, ho] at hs
    by_cases hbelow : localBot > s.age.top
    · rw [if_pos hbelow, Option.some.injEq, Prod.mk.injEq] at hs
      obtain ⟨rfl, rfl⟩ := hs
      -- a job is left at the top
      refine ⟨_, .popped hcall (hq.jobs.trans heff) ?_, State.shows_idle rfl rfl ?_ hq.beaten⟩
      · simp only [State.content, State.bottom, hown.1]
        rw [jobs_cons _ hbelow]
        exact List.cons_ne_nil _ _
      · change q.bot - 1 = s.bot
        omega
    · rw [if_neg hbelow, Option.some.injEq, Prod.mk.injEq] at hs
      obtain ⟨rfl, rfl⟩ := hs
      refine ⟨q, .silent, hq.ofSilent heff (by rw [ho]; rfl) (fun _ => ⟨?_, hstore⟩) rfl rfl⟩
      simp only [State.bottom, ho]

theorem popReset_shows {s s' : State θ Job} {q : Queue θ Job} {e : Event θ Job} (h : s.Inv)
    (hq : s.Shows q)
    (ho : (∃ localBot job oldAge, s.owner = .popReset localBot job oldAge ∨
      s.owner = .popSwap localBot job oldAge) ∨ ∃ newAge, s.owner = .popStore newAge)
    (hs : ownerStep s = some (e, s')) : ∃ q', QueueStep q e q' ∧ s'.Shows q' := by
  have hown := h.owner
  have heff := (popReset_refines h ho hs).2
  have hcall := hq.call
  rcases ho with ⟨localBot, job, oldAge, ho | ho⟩ | ⟨newAge, ho⟩
  · simp only [ownerStep, ho, Option.some.injEq, Prod.mk.injEq] at hs
    obtain ⟨rfl, rfl⟩ := hs
    refine ⟨q, .silent, hq.ofSilent heff (by rw [ho]; rfl) (fun _ => ⟨?_, ?_⟩) rfl rfl⟩
    · simp only [State.bottom, ho]
    · rw [ho]
      exact fun _ hc => by cases hc
  · simp only [State.OwnerOk, ho] at hown
    rw [ho] at hcall
    simp only [ownerStep, ho] at hs
    by_cases hwin : localBot = oldAge.top ∧ s.age = oldAge
    · rw [if_pos hwin, Option.some.injEq, Prod.mk.injEq] at hs
      obtain ⟨rfl, rfl⟩ := hs
      -- the job was the last one
      have hnil : ({ s with age := oldAge.next, owner := .idle, resets := s.resets + 1 } :
          State θ Job).content = [] := jobs_empty _ (Nat.le_of_eq hown.1)
      have hlast : q.jobs = [job] := by
        rw [hq.jobs]
        exact Eq.trans heff (congrArg (· ++ [job]) hnil)
      exact ⟨_, .poppedLast hcall hlast,
        State.shows_idle rfl hnil.symm hown.1.symm fun _ _ _ _ => rfl⟩
    · rw [if_neg hwin, Option.some.injEq, Prod.mk.injEq] at hs
      obtain ⟨rfl, rfl⟩ := hs
      exact ⟨q, .silent, hq.ofSilent heff (by rw [ho]; rfl) (fun hn => absurd rfl (hn _)) rfl rfl⟩
  · simp only [State.OwnerOk, ho] at hown
    rw [ho] at hcall
    simp only [ownerStep, ho, Option.some.injEq, Prod.mk.injEq] at hs
    obtain ⟨rfl, rfl⟩ := hs
    exact ⟨_, .poppedNone (.inr hcall) (hq.jobs.trans heff.1),
      State.shows_idle rfl heff.2.symm hown.1.symm fun _ _ _ _ => rfl⟩

/-- Every access of the owner is a step of the list. -/
theorem ownerStep_shows {s s' : State θ Job} {q : Queue θ Job} {e : Event θ Job} (h : s.Inv)
    (hq : s.Shows q) (hs : ownerStep s = some (e, s')) :
    ∃ q', QueueStep q e q' ∧ s'.Shows q' := by
  cases ho : s.owner with
  | idle => simp [ownerStep, ho] at hs
  | aborted => simp [ownerStep, ho] at hs
  | pushStore job localBot => exact push_shows h hq (.inl ho) hs
  | pushPublish job localBot => exact push_shows h hq (.inr ho) hs
  | popLower localBot => exact popRead_shows h hq (.inl ho) hs
  | popJob localBot => exact popRead_shows h hq (.inr (.inl ho)) hs
  | popAge localBot job => exact popRead_shows h hq (.inr (.inr ⟨job, ho⟩)) hs
  | popReset localBot job oldAge => exact popReset_shows h hq (.inl ⟨_, _, _, .inl ho⟩) hs
  | popSwap localBot job oldAge => exact popReset_shows h hq (.inl ⟨_, _, _, .inr ho⟩) hs
  | popStore newAge => exact popReset_shows h hq (.inr ⟨_, ho⟩) hs

omit [DecidableEq θ] in
/-- A `bot` at the top leaves no job, or one that the owner is about to take. -/
theorem State.Inv.content_of_bot_le {s : State θ Job} (h : s.Inv) (hb : s.bot ≤ s.age.top) :
    s.content = [] ∨ s.owner.call = .pop ∧ s.content.length = 1 := by
  have hown := h.owner
  have htop := h.top_le
  have hlen : s.content.length = s.bottom - s.age.top := by
    rw [State.content, jobs, List.length_map, List.length_range']
  have hnil : s.bottom ≤ s.age.top → s.content = [] := jobs_empty _
  cases ho : s.owner with
  | popJob localBot =>
    simp only [State.OwnerOk, State.bottom, ho] at hown htop hlen hnil
    by_cases hle : localBot + 1 ≤ s.age.top
    · exact .inl (hnil hle)
    · exact .inr ⟨rfl, by omega⟩
  | popAge localBot job =>
    simp only [State.OwnerOk, State.bottom, ho] at hown htop hlen hnil
    by_cases hle : localBot + 1 ≤ s.age.top
    · exact .inl (hnil hle)
    · exact .inr ⟨rfl, by omega⟩
  | popReset localBot job oldAge =>
    simp only [State.OwnerOk, State.bottom, ho] at hown htop hlen hnil
    by_cases hle : localBot + 1 ≤ s.age.top
    · exact .inl (hnil hle)
    · exact .inr ⟨rfl, by omega⟩
  | popSwap localBot job oldAge =>
    simp only [State.OwnerOk, State.bottom, ho, OldAge] at hown htop hlen hnil
    by_cases hle : localBot + 1 ≤ s.age.top
    · exact .inl (hnil hle)
    · exact .inr ⟨rfl, by omega⟩
  | popStore newAge =>
    simp only [State.bottom, ho] at hnil
    exact .inl (hnil (Nat.le_refl _))
  | _ =>
    simp only [State.bottom, ho] at hnil
    exact .inl (hnil hb)

/-- A thief moves on in its call. -/
theorem State.Shows.move {s : State θ Job} {q : Queue θ Job} (h : s.Shows q) (i : θ)
    {t : Thief Job} (ht : ∀ a, t.age = some a → a ≠ s.age → q.beaten i = true) :
    ({ s with thief := Function.update s.thief i t } : State θ Job).Shows q where
  jobs := h.jobs
  call := h.call
  bot := h.bot
  beaten j a hj ha := by
    change (Function.update s.thief i t j).age = some a at hj
    by_cases hji : j = i
    · subst hji
      rw [Function.update_self] at hj
      exact ht a hj ha
    · rw [Function.update_of_ne hji] at hj
      exact h.beaten j a hj ha

/-- Every access of a thief is a step of the list. -/
theorem thiefStep_shows {s s' : State θ Job} {q : Queue θ Job} {e : Event θ Job} (h : s.Inv)
    (hf : s.Fresh) (hq : s.Shows q) (i : θ) (hs : thiefStep s i = some (e, s')) :
    ∃ q', QueueStep q e q' ∧ s'.Shows q' := by
  have heff := (thiefStep_refines h hf i hs).2
  have hold := hq.beaten i
  cases hi : s.thief i with
  | idle =>
    simp only [thiefStep, hi, Option.some.injEq, Prod.mk.injEq] at hs
    obtain ⟨rfl, rfl⟩ := hs
    refine ⟨_, .stealing, hq.jobs, hq.call, hq.bot, fun j a hj ha => ?_⟩
    change (Function.update s.thief i (.hasAge s.age) j).age = some a at hj
    by_cases hji : j = i
    · subst hji
      rw [Function.update_self] at hj
      exact absurd (Option.some.inj hj).symm ha
    · rw [Function.update_of_ne hji] at hj
      exact (Function.update_of_ne hji _ _).trans (hq.beaten j a hj ha)
  | hasAge oldAge =>
    rw [hi] at hold
    simp only [thiefStep, hi] at hs
    split at hs
    · rw [Option.some.injEq, Prod.mk.injEq] at hs
      obtain ⟨rfl, rfl⟩ := hs
      exact ⟨q, .silent, hq.move i hold⟩
    · rename_i hbot
      rw [Option.some.injEq, Prod.mk.injEq] at hs
      obtain ⟨rfl, rfl⟩ := hs
      refine ⟨q, .stolenNone ?_, hq.move i fun _ hc => by cases hc⟩
      by_cases hage : oldAge = s.age
      · rw [hq.jobs, hq.call]
        exact .inr (h.content_of_bot_le (hage ▸ Nat.not_lt.mp hbot))
      · exact .inl (hold _ rfl hage)
  | hasBot oldAge localBot =>
    rw [hi] at hold
    simp only [thiefStep, hi] at hs
    split at hs
    · rw [Option.some.injEq, Prod.mk.injEq] at hs
      obtain ⟨rfl, rfl⟩ := hs
      exact ⟨q, .silent, hq.move i hold⟩
    · cases hs
  | hasJob oldAge localBot job =>
    rw [hi] at hold
    simp only [thiefStep, hi] at hs
    split at hs
    · rename_i hage
      rw [Option.some.injEq, Prod.mk.injEq] at hs
      obtain ⟨rfl, rfl⟩ := hs
      refine ⟨_, .stolen (hq.jobs.trans heff), rfl, hq.call, fun hn => ?_, fun _ _ _ _ => rfl⟩
      subst hage
      have ht : s.age.top < s.bottom := by
        by_contra hc
        rw [State.content, jobs_empty _ (Nat.not_lt.mp hc)] at heff
        cases heff
      exact (hq.bot hn).trans (h.bump ht).1.symm
    · rename_i hage
      rw [Option.some.injEq, Prod.mk.injEq] at hs
      obtain ⟨rfl, rfl⟩ := hs
      exact ⟨q, .stolenNone (.inl (hold _ rfl (Ne.symm hage))),
        hq.move i fun _ hc => by cases hc⟩

/-- **One access.** It keeps the invariant and is a step of the list. -/
theorem step_shows {s s' : State θ Job} {q : Queue θ Job} {a : Action θ Job} {e : Event θ Job}
    (h : s.Inv) (hf : s.Fresh) (hq : s.Shows q) (hs : step s a = some (e, s')) :
    s'.Inv ∧ ∃ q', QueueStep q e q' ∧ s'.Shows q' := by
  obtain ⟨hinv, heff⟩ := step_refines h hf hs
  refine ⟨hinv, ?_⟩
  cases a with
  | push job =>
    cases ho : s.owner with
    | idle =>
      have hcall := hq.call
      have hbot := hq.bot (by rw [ho]; exact fun _ hc => by cases hc)
      rw [ho] at hcall
      simp only [State.bottom, ho] at hbot
      simp only [step, ho, Option.some.injEq, Prod.mk.injEq] at hs
      obtain ⟨rfl, rfl⟩ := hs
      exact ⟨_, .pushing hcall, hq.jobs.trans (Eq.symm heff), rfl, fun _ => hbot, hq.beaten⟩
    | _ => simp [step, ho] at hs
  | pop =>
    cases ho : s.owner with
    | idle =>
      have hcall := hq.call
      have hbot := hq.bot (by rw [ho]; exact fun _ hc => by cases hc)
      rw [ho] at hcall
      simp only [State.bottom, ho] at hbot
      simp only [step, ho] at hs
      by_cases hb : s.bot ≠ 0
      · rw [if_pos hb, Option.some.injEq, Prod.mk.injEq] at hs
        obtain ⟨rfl, rfl⟩ := hs
        exact ⟨_, .popping hcall, hq.jobs.trans (Eq.symm heff), rfl, fun _ => by
          simp only [State.bottom]
          omega, hq.beaten⟩
      · rw [if_neg hb, Option.some.injEq, Prod.mk.injEq] at hs
        obtain ⟨rfl, rfl⟩ := hs
        exact ⟨_, .poppedNone (.inl hcall) (hq.jobs.trans heff.1),
          State.shows_idle ho heff.2.symm (not_not.mp hb).symm fun _ _ _ _ => rfl⟩
    | _ => simp [step, ho] at hs
  | owner => exact ownerStep_shows h hq hs
  | thief i => exact thiefStep_shows h hf hq i hs

/-- The jobs pushed in a history. -/
def pushes (es : List (Event θ Job)) : List Job :=
  es.filterMap fun
    | .pushed job _ => some job
    | _ => none

/-- The jobs that left the deque in a history, to the owner or to a thief. -/
def takes (es : List (Event θ Job)) : List Job :=
  es.filterMap fun
    | .popped job => job
    | .stolen _ job _ => job
    | _ => none

/-- A list neither loses nor duplicates a job. -/
theorem queueRun_accounts {es : List (Event θ Job)} {q : Queue θ Job}
    (h : Run QueueStep .empty es q) : (pushes es).Perm (takes es ++ q.jobs) := by
  induction h with
  | nil => exact .nil
  | @snoc es e q r _ hs ih =>
    simp only [pushes, takes, List.filterMap_append] at ih ⊢
    cases hs with
    | @pushed job _ _ => simpa using ih.append_right [job]
    | popped _ hj _ =>
      rw [hj] at ih
      simp only [List.filterMap_cons, List.filterMap_nil, List.append_nil, List.append_assoc]
      exact ih.trans (List.perm_append_comm.append_left _)
    | poppedLast _ hj =>
      rw [hj] at ih
      simpa using ih
    | poppedNone _ hj =>
      rw [hj] at ih
      simpa using ih
    | stolen hj =>
      rw [hj] at ih
      simpa using ih
    | _ => simpa using ih

omit [DecidableEq θ] in
theorem initial_shows (deq : Nat → Job) : (initial deq : State θ Job).Shows .empty :=
  ⟨rfl, rfl, fun _ => rfl, fun _ _ hc => by cases hc⟩

theorem run_simulates (deq : Nat → Job) {es : List (Event θ Job)} {s : State θ Job}
    (h : Run FreshStep (initial deq) es s) :
    ∃ q, Run QueueStep .empty es q ∧ s.Inv ∧ s.Shows q := by
  refine h.simulate (fun s q => s.Inv ∧ s.Shows q) (fun s q e t ⟨hs, hq⟩ ⟨hf, a, ha⟩ => ?_)
    ⟨initial_inv deq, initial_shows deq⟩
  obtain ⟨ht, q', hstep, hq'⟩ := step_shows hs hf hq ha
  exact ⟨q', hstep, ht, hq'⟩

/-- Steps in which no tag has been reset yet. -/
theorem freshStep_of_resets {s t : State θ Job} {e : Event θ Job} (a : Action θ Job)
    (hr : s.resets = 0) (h : step s a = some (e, t)) : FreshStep s e t :=
  ⟨fun i _ => hr ▸ Nat.lt_of_lt_of_le (by decide) (Nat.le_add_left _ _), a, h⟩

/-- The owner pushes 7, and a thief has got as far as reading the array. -/
theorem reach_run : Run FreshStep (initial fun _ => 0 : State Unit Nat)
    ([.pushing 7, .silent, .pushed 7 true] ++ [.stealing (), .silent])
    ⟨1, ⟨0, 0⟩, Function.update (fun _ => 0) 0 7, .idle, fun _ => .hasBot ⟨0, 0⟩ 1, 0,
      fun _ => 0⟩ := by
  have hnext : ∀ {s t : State Unit Nat} {e} (a), s.resets = 0 → step s a = some (e, t) →
      Run FreshStep s [e] t := fun a hr h => .single (freshStep_of_resets a hr h)
  have hpush := ((hnext (s := initial fun _ => 0) (.push 7) rfl rfl).trans
    (hnext .owner rfl rfl)).trans (hnext .owner rfl rfl)
  exact (hpush.trans (hnext (.thief ()) rfl rfl)).trans (hnext (.thief ()) rfl rfl)

/-- **The deque is linearizable.** Whatever the array holds at first and however the
accesses of the owner and the thieves interleave, the calls return what the calls
of a list with atomic operations return, in the same order. Every pushed job was
taken once or is still in the deque. -/
theorem run_refines (deq : Nat → Job) {es : List (Event θ Job)} {s : State θ Job}
    (h : Run FreshStep (initial deq) es s) :
    ∃ q, Run QueueStep .empty es q ∧ q.jobs = s.content ∧
      (pushes es).Perm (takes es ++ s.content) := by
  obtain ⟨q, hq, -, hs⟩ := run_simulates deq h
  exact ⟨q, hq, hs.jobs, hs.jobs ▸ queueRun_accounts hq⟩

/-- The thief goes on and gets the 7. -/
theorem run_refines_theft : ∃ (s : State Unit Nat) (q : Queue Unit Nat), Run QueueStep .empty
      ([.pushing 7, .silent, .pushed 7 true] ++ [.stealing (), .silent] ++
        [.silent, .stolen () (some 7) true]) q ∧
    q.jobs = s.content ∧ [7].Perm ([7] ++ s.content) := by
  have hread := reach_run.trans (.single (freshStep_of_resets (.thief ()) rfl rfl))
  have hrun := hread.trans (.single (freshStep_of_resets (.thief ()) rfl rfl))
  obtain ⟨q, hq⟩ := run_refines _ hrun
  exact ⟨_, q, hq⟩

/-- The owner's call that has begun can make its next access. -/
theorem State.Inv.exists_ownerStep {s : State θ Job} (h : s.Inv) (hidle : s.owner ≠ .idle)
    (habort : s.owner ≠ .aborted) : ∃ e t, step s .owner = some (e, t) := by
  have hlt := h.bottom_lt
  have hown := h.owner
  cases ho : s.owner with
  | idle => exact absurd ho hidle
  | aborted => exact absurd ho habort
  | pushStore job localBot =>
    simp only [State.OwnerOk, State.bottom, ho] at hown hlt
    exact ⟨_, _, by simp only [step, ownerStep, ho]; exact if_pos (hown ▸ hlt)⟩
  | pushPublish job localBot =>
    simp only [step, ownerStep, ho]
    split <;> exact ⟨_, _, rfl⟩
  | popJob localBot =>
    simp only [State.bottom, ho] at hlt
    exact ⟨_, _, by simp only [step, ownerStep, ho]; exact if_pos (by omega)⟩
  | popAge localBot job =>
    simp only [step, ownerStep, ho]
    split <;> exact ⟨_, _, rfl⟩
  | popSwap localBot job oldAge =>
    simp only [step, ownerStep, ho]
    split <;> exact ⟨_, _, rfl⟩
  | _ =>
    simp only [step, ownerStep, ho]
    exact ⟨_, _, rfl⟩

theorem State.Inv.exists_thiefStep {s : State θ Job} (h : s.Inv) (i : θ) :
    ∃ e t, step s (.thief i) = some (e, t) := by
  have hthief := h.thief i
  cases hi : s.thief i with
  | idle =>
    simp only [step, thiefStep, hi]
    exact ⟨_, _, rfl⟩
  | hasAge oldAge =>
    simp only [step, thiefStep, hi]
    split <;> exact ⟨_, _, rfl⟩
  | hasBot oldAge localBot =>
    rw [hi] at hthief
    exact ⟨_, _, by simp only [step, thiefStep, hi]; exact if_pos hthief.2.1⟩
  | hasJob oldAge localBot job =>
    simp only [step, thiefStep, hi]
    split <;> exact ⟨_, _, rfl⟩

/-- **No access leaves the array.** In every state that a run reaches, a call of the
owner or of a thief that has begun can make its next access. -/
theorem run_progress (deq : Nat → Job) {es : List (Event θ Job)} {s : State θ Job}
    (h : Run FreshStep (initial deq) es s) :
    (s.owner ≠ .idle → s.owner ≠ .aborted → ∃ e t, step s .owner = some (e, t)) ∧
      ∀ i, ∃ e t, step s (.thief i) = some (e, t) := by
  obtain ⟨-, -, hinv, -⟩ := run_simulates deq h
  exact ⟨hinv.exists_ownerStep, hinv.exists_thiefStep⟩

/-- The owner has called `pop_bottom` and a thief is about to read the job that it
reaches for. -/
theorem run_progress_theft : ∃ s : State Unit Nat,
    Run FreshStep (initial fun _ => 0) ([.pushing 7, .silent, .pushed 7 true] ++
      [.stealing (), .silent] ++ [.popping]) s ∧
    s.owner = .popLower 0 ∧ s.thief () = .hasBot ⟨0, 0⟩ 1 ∧
    (s.owner ≠ .idle → s.owner ≠ .aborted → ∃ e t, step s .owner = some (e, t)) ∧
    ∀ i, ∃ e t, step s (.thief i) = some (e, t) := by
  have hrun := reach_run.trans (.single (freshStep_of_resets .pop rfl rfl))
  exact ⟨_, hrun, rfl, rfl, run_progress _ hrun⟩

/-! ## The tag wraps -/

/-- A step by anyone. -/
def AnyStep (s : State θ Job) (e : Event θ Job) (s' : State θ Job) : Prop :=
  ∃ a, step s a = some (e, s')

section Wrap

variable (deq : Nat → Job) (thief : θ → Thief Job) (resets : Nat) (seen : θ → Nat) (tag : Nat)

/-- A call of `push_bottom` on an empty deque, without interference. -/
theorem push_run (job : Job) : Run AnyStep ⟨0, ⟨tag, 0⟩, deq, .idle, thief, resets, seen⟩
    [.pushing job, .silent, .pushed job true]
    ⟨1, ⟨tag, 0⟩, Function.update deq 0 job, .idle, thief, resets, seen⟩ :=
  ((Run.single ⟨.push job, rfl⟩).trans (.single ⟨.owner, rfl⟩)).trans (.single ⟨.owner, rfl⟩)

/-- A call of `pop_bottom` that takes the only job, without interference. -/
theorem pop_run : Run AnyStep ⟨1, ⟨tag, 0⟩, deq, .idle, thief, resets, seen⟩
    [.popping, .silent, .silent, .silent, .silent, .popped (some (deq 0))]
    ⟨0, ⟨inc tag, 0⟩, deq, .idle, thief, resets + 1, seen⟩ := by
  have hswap : AnyStep ⟨0, ⟨tag, 0⟩, deq, .popSwap 0 (deq 0) ⟨tag, 0⟩, thief, resets, seen⟩
      (.popped (some (deq 0))) ⟨0, ⟨inc tag, 0⟩, deq, .idle, thief, resets + 1, seen⟩ :=
    ⟨.owner, if_pos ⟨rfl, rfl⟩⟩
  exact (((((Run.single ⟨.pop, rfl⟩).trans (.single ⟨.owner, rfl⟩)).trans
    (.single ⟨.owner, rfl⟩)).trans (.single ⟨.owner, rfl⟩)).trans (.single ⟨.owner, rfl⟩)).trans
      (.single hswap)

/-- The owner pushes and pops `n` jobs one at a time; each round resets the tag. -/
theorem rounds_run (f : Nat → Job) (n : Nat) (htag : tag < 2 ^ 32) :
    ∃ es deq', Run AnyStep ⟨0, ⟨tag, 0⟩, deq, .idle, thief, resets, seen⟩ es
        ⟨0, ⟨(tag + n) % 2 ^ 32, 0⟩, deq', .idle, thief, resets + n, seen⟩ ∧
      pushes es = (List.range n).map f ∧ takes es = (List.range n).map f := by
  induction n with
  | zero =>
    refine ⟨[], deq, ?_, rfl, rfl⟩
    rw [Nat.add_zero, Nat.mod_eq_of_lt htag]
    exact .nil
  | succ n ih =>
    obtain ⟨es, deq', hrun, hp, ht⟩ := ih
    have hpush := push_run deq' thief (resets + n) seen ((tag + n) % 2 ^ 32) (f n)
    have hpop := pop_run (Function.update deq' 0 (f n)) thief (resets + n) seen
      ((tag + n) % 2 ^ 32)
    rw [inc, Nat.mod_add_mod, Function.update_self] at hpop
    refine ⟨_, Function.update deq' 0 (f n), (hrun.trans hpush).trans hpop, ?_, ?_⟩
    · rw [List.range_succ, List.map_append, ← hp]
      simp [pushes]
    · rw [List.range_succ, List.map_append, ← ht]
      simp [takes]

/-- A thief begins `pop_top` on a single job and stops before the exchange. -/
theorem stall_run (i : θ) (hi : thief i = .idle) :
    ∃ seen' : θ → Nat, Run AnyStep ⟨1, ⟨tag, 0⟩, deq, .idle, thief, resets, seen⟩
      [.stealing i, .silent, .silent]
      ⟨1, ⟨tag, 0⟩, deq, .idle, Function.update thief i (.hasJob ⟨tag, 0⟩ 1 (deq 0)), resets,
        seen'⟩ := by
  have h1 : AnyStep ⟨1, ⟨tag, 0⟩, deq, .idle, thief, resets, seen⟩ (.stealing i)
      ⟨1, ⟨tag, 0⟩, deq, .idle, Function.update thief i (.hasAge ⟨tag, 0⟩), resets,
        Function.update seen i resets⟩ := ⟨.thief i, by simp only [step, thiefStep, hi]⟩
  have h2 : ∀ sn, AnyStep
      ⟨1, ⟨tag, 0⟩, deq, .idle, Function.update thief i (.hasAge ⟨tag, 0⟩), resets, sn⟩ .silent
      ⟨1, ⟨tag, 0⟩, deq, .idle, Function.update thief i (.hasBot ⟨tag, 0⟩ 1), resets, sn⟩ :=
    fun sn => ⟨.thief i, by simp [step, thiefStep]⟩
  have h3 : ∀ sn, AnyStep
      ⟨1, ⟨tag, 0⟩, deq, .idle, Function.update thief i (.hasBot ⟨tag, 0⟩ 1), resets, sn⟩ .silent
      ⟨1, ⟨tag, 0⟩, deq, .idle, Function.update thief i (.hasJob ⟨tag, 0⟩ 1 (deq 0)), resets,
        sn⟩ :=
    fun sn => ⟨.thief i, by simp [step, thiefStep, qSize]⟩
  exact ⟨_, ((Run.single h1).trans (.single (h2 _))).trans (.single (h3 _))⟩

end Wrap

/-- The owner overtakes a stalled thief by `N` resets, after which the tag is the same. -/
theorem stale_run (deq : Nat → Job) (i : θ) (f : Nat → Job) {N : Nat} (hN : N % 2 ^ 32 = 0)
    (hpos : 0 < N) : ∃ es es' s t u, Run AnyStep (initial deq : State θ Job) es s ∧
      s.thief i = .hasJob ⟨0, 0⟩ 1 (f 0) ∧ s.age = ⟨0, 0⟩ ∧ s.resets = 0 ∧ pushes es = [f 0] ∧
      takes es = [] ∧ Run AnyStep s es' t ∧ t.thief = s.thief ∧ t.age = ⟨0, 0⟩ ∧ t.resets = N ∧
      pushes es' = (List.range N).map (fun k => f (k + 1)) ∧ takes es' = (List.range N).map f ∧
      t.content = [f N] ∧ AnyStep t (.stolen i (some (f 0)) true) u ∧ u.content = [] := by
  obtain ⟨n, rfl⟩ : ∃ n, N = n + 1 := ⟨N - 1, by omega⟩
  obtain ⟨seen, h2⟩ := stall_run (Function.update deq 0 (f 0)) (fun _ : θ => .idle) 0 (fun _ => 0)
    0 i rfl
  rw [Function.update_self] at h2
  set thief : θ → Thief Job := Function.update (fun _ => .idle) i (.hasJob ⟨0, 0⟩ 1 (f 0))
    with hthief
  have h1 : Run AnyStep (initial deq : State θ Job) _ _ :=
    push_run deq (fun _ : θ => Thief.idle) 0 (fun _ => 0) 0 (f 0)
  have h3 := pop_run (Function.update deq 0 (f 0)) thief 0 seen 0
  rw [Function.update_self] at h3
  obtain ⟨es, deq', h4, hp, ht⟩ := rounds_run (Function.update deq 0 (f 0)) thief 1 seen 1
    (fun k => f (k + 1)) n (by decide)
  have htag : (1 + n) % 2 ^ 32 = 0 := by omega
  rw [htag] at h4
  have h5 := push_run deq' thief (1 + n) seen 0 (f (n + 1))
  have h6 : AnyStep ⟨1, ⟨0, 0⟩, Function.update deq' 0 (f (n + 1)), .idle, thief, 1 + n, seen⟩
      (.stolen i (some (f 0)) true) ⟨1, ⟨0, 1⟩, Function.update deq' 0 (f (n + 1)), .idle,
        Function.update thief i .idle, 1 + n, seen⟩ :=
    ⟨.thief i, by simp [step, thiefStep, hthief, Age.bump, inc]⟩
  have hi : thief i = .hasJob ⟨0, 0⟩ 1 (f 0) := by rw [hthief, Function.update_self]
  refine ⟨_, _, _, _, _, h1.trans h2, hi, rfl, rfl, rfl, rfl,
    (h3.trans h4).trans h5, rfl, rfl, Nat.add_comm 1 n, ?_, ?_, ?_, h6, rfl⟩
  · simp only [pushes, List.filterMap_append] at hp ⊢
    rw [hp, List.range_succ]
    simp
  · simp only [takes, List.filterMap_append] at ht ⊢
    rw [ht, List.range_succ_eq_map]
    simp
  · have hjob : Function.update deq' 0 (f (n + 1)) 0 = f (n + 1) := Function.update_self _ _ _
    exact congrArg (fun j => [j]) hjob

/-- **The bound on the resets is sharp.** A thief has read an age with tag 0 and the job
`f 0`, and stalls. The owner pops the `2 ^ 32` jobs `f 0, f 1, …`, each of them the last
in the deque, which resets the tag each time, and pushes another. The tag is 0 again,
the exchange of the thief succeeds, and it takes `f 0` a second time instead of the
job that is there, which is lost. -/
theorem stale_theft (deq : Nat → Job) (i : θ) (f : Nat → Job) :
    ∃ es es' s t u, Run AnyStep (initial deq : State θ Job) es s ∧
      s.thief i = .hasJob ⟨0, 0⟩ 1 (f 0) ∧ s.age = ⟨0, 0⟩ ∧ s.resets = 0 ∧ pushes es = [f 0] ∧
      takes es = [] ∧ Run AnyStep s es' t ∧ t.thief = s.thief ∧ t.age = ⟨0, 0⟩ ∧
      t.resets = 2 ^ 32 ∧ pushes es' = (List.range (2 ^ 32)).map (fun k => f (k + 1)) ∧
      takes es' = (List.range (2 ^ 32)).map f ∧ t.content = [f (2 ^ 32)] ∧
      AnyStep t (.stolen i (some (f 0)) true) u ∧ u.content = [] :=
  stale_run deq i f (Nat.mod_self _) (Nat.two_pow_pos 32)

end Main

end Invariant

end BigintMultiply.WorkStealingDeque
