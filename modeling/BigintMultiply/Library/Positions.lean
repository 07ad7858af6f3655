import BigintMultiply.Library.ForkJoin

/-! Positions of the tasks of a fork-join program.

A task is found by the sides of the forks around it. `AccessAt` makes the next
access of the task at a position, `resume` continues behind a fork.

* `AccessAt.step`, `step_resume`: these are the steps of the program;
* `AccessAt.task_eq`, `resume_task_eq`: they leave tasks elsewhere alone;
* `exists_accessAt`: in a race-free program that program order completes every
  task that has not returned can go on. -/

namespace BigintMultiply.ForkJoin
open Checked Vectors

inductive Side
  | left
  | right
  deriving DecidableEq, Repr

/-- The sides of the forks around a task, from the outermost. -/
abbrev Pos := List Side

/-- What a task is about to do. -/
inductive Kind
  | running
  | forked
  | returned
  deriving DecidableEq, Repr

namespace Prog

variable {ν α β : Type}

def kind : {α : Type} → Prog ν α → Kind
  | _, .ret _ => .returned
  | _, .fail => .running
  | _, .act _ _ _ => .running
  | _, .fork _ _ _ => .forked
  | _, .call _ p _ => if p.kind = .forked then .forked else .running

/-- The task at a position. A call is part of the task that makes it. -/
def task : {α : Type} → Prog ν α → Pos → Option (Σ β : Type, Prog ν β)
  | α, .ret a, π => match π with
    | [] => some ⟨α, .ret a⟩
    | _ :: _ => none
  | α, .fail, π => match π with
    | [] => some ⟨α, .fail⟩
    | _ :: _ => none
  | α, .act x op k, π => match π with
    | [] => some ⟨α, .act x op k⟩
    | _ :: _ => none
  | α, .fork p q k, π => match π with
    | [] => some ⟨α, .fork p q k⟩
    | .left :: π => p.task π
    | .right :: π => q.task π
  | α, .call own p k, π => match π with
    | [] => some ⟨α, .call own p k⟩
    | d :: π => p.task (d :: π)

def kindAt (p : Prog ν α) (π : Pos) : Option Kind := (p.task π).map fun t => t.2.kind

/-- The fork at a position gives way to its continuation. -/
def resume : {α : Type} → Prog ν α → Pos → Prog ν α
  | _, .fork p q k, π => match π with
    | [] => k
    | .left :: π => .fork (p.resume π) q k
    | .right :: π => .fork p (q.resume π) k
  | _, .call own p k, π => .call own (p.resume π) k
  | _, .ret a, _ => .ret a
  | _, .fail, _ => .fail
  | _, .act x op k, _ => .act x op k

/-- The task at `π` makes an access or leaves a call. -/
inductive AccessAt [DecidableEq ν] :
    {α : Type} → Pos → Prog ν α → Store ν → Prog ν α → Store ν → Prop
  | act {α β : Type} {x : ν} {op : VecOp β} {k : β → Prog ν α} {s : Store ν} {b : β} {v : Vec}
      (h : op.exec (s x) = some (b, v)) :
      AccessAt [] (.act x op k) s (k b) (Function.update s x v)
  | leave {α β : Type} {own : Store ν} {b : β} {k : β → Prog ν α} {s : Store ν} :
      AccessAt [] (.call own (.ret b) k) s (k b) s
  | left {α : Type} {π : Pos} {p p' q : Prog ν Unit} {k : Prog ν α} {s s' : Store ν}
      (h : AccessAt π p s p' s') : AccessAt (.left :: π) (.fork p q k) s (.fork p' q k) s'
  | right {α : Type} {π : Pos} {p q q' : Prog ν Unit} {k : Prog ν α} {s s' : Store ν}
      (h : AccessAt π q s q' s') : AccessAt (.right :: π) (.fork p q k) s (.fork p q' k) s'
  | inside {α β : Type} {π : Pos} {own own' : Store ν} {p p' : Prog ν β} {k : β → Prog ν α}
      {s : Store ν} (h : AccessAt π p own p' own') :
      AccessAt π (.call own p k) s (.call own' p' k) s

/-! ## Tasks -/

theorem task_nil (p : Prog ν α) : p.task [] = some ⟨α, p⟩ := by cases p <;> rfl

theorem kindAt_nil (p : Prog ν α) : p.kindAt [] = some p.kind := by rw [kindAt, task_nil]; rfl

theorem kind_call (own : ν → Vec) (p : Prog ν β) (k : β → Prog ν α) :
    (call own p k).kind = if p.kind = .forked then .forked else .running := rfl

theorem kind_call_cases (own : ν → Vec) (p : Prog ν β) (k : β → Prog ν α) :
    (call own p k).kind = .forked ∨ (call own p k).kind = .running := by
  rw [kind_call]
  split
  · exact .inl rfl
  · exact .inr rfl

theorem eq_ret_of_kind {p : Prog ν α} (h : p.kind = .returned) : ∃ a, p = .ret a := by
  cases p with
  | ret a => exact ⟨a, rfl⟩
  | call own p k => rcases kind_call_cases own p k with hk | hk <;> cases hk.symm.trans h
  | _ => cases h

/-- A task of a task. -/
theorem task_append (p : Prog ν α) (π σ : Pos) :
    p.task (π ++ σ) = (p.task π).bind fun t => t.2.task σ := by
  induction p generalizing π with
  | fork p q k ihp ihq _ =>
    cases π with
    | nil => rw [task_nil]; rfl
    | cons d π =>
      cases d with
      | left => exact ihp π
      | right => exact ihq π
  | call own p k ihp _ =>
    cases π with
    | nil => rw [task_nil]; rfl
    | cons d π => exact ihp (d :: π)
  | _ =>
    cases π with
    | nil => rw [task_nil]; rfl
    | cons d π => rfl

theorem kindAt_append {p : Prog ν α} {π : Pos} {t : Σ β : Type, Prog ν β}
    (h : p.task π = some t) (σ : Pos) : p.kindAt (π ++ σ) = t.2.kindAt σ := by
  rw [kindAt, task_append, h]
  rfl

theorem exists_task {p : Prog ν α} {π : Pos} {c : Kind} (h : p.kindAt π = some c) :
    ∃ t, p.task π = some t ∧ t.2.kind = c := by
  obtain ⟨t, ht, hc⟩ := Option.map_eq_some_iff.mp h
  exact ⟨t, ht, hc⟩

/-- Only a task at a fork has tasks. -/
theorem task_cons_eq_none {p : Prog ν α} (h : p.kind ≠ .forked) (d : Side) (σ : Pos) :
    p.task (d :: σ) = none := by
  induction p with
  | fork p q k => exact absurd rfl h
  | call own p k ihp _ =>
    refine ihp fun hp => h ?_
    rw [kind_call, if_pos hp]
  | _ => rfl

theorem kindAt_below_eq_none {p : Prog ν α} {π : Pos} {c : Kind} (h : p.kindAt π = some c)
    (hc : c ≠ .forked) (d : Side) (σ : Pos) : p.kindAt (π ++ d :: σ) = none := by
  obtain ⟨t, ht, rfl⟩ := exists_task h
  rw [kindAt_append ht, kindAt, task_cons_eq_none hc]
  rfl

/-- A task that has tasks is at a fork. -/
theorem forked_of_below {p : Prog ν α} {π : Pos} {d : Side} {σ : Pos} {c : Kind}
    (h : p.kindAt (π ++ d :: σ) = some c) : p.kindAt π = some .forked := by
  cases hπ : p.kindAt π with
  | none =>
    rw [kindAt, Option.map_eq_none_iff] at hπ
    rw [kindAt, task_append, hπ] at h
    cases h
  | some c' =>
    by_cases hc : c' = .forked
    · rw [hc]
    · rw [kindAt_below_eq_none hπ hc] at h
      cases h

/-- A program that has returned has no tasks. -/
theorem kindAt_of_returned {p : Prog ν α} (hk : p.kind = .returned) {π : Pos} {c : Kind}
    (h : p.kindAt π = some c) : π = [] ∧ c = .returned := by
  cases π with
  | nil =>
    rw [kindAt_nil, hk, Option.some.injEq] at h
    exact ⟨rfl, h.symm⟩
  | cons d π =>
    have hnone := kindAt_below_eq_none (π := []) ((kindAt_nil p).trans (congrArg some hk))
      (by decide) d π
    cases hnone.symm.trans h

/-- Tasks that have returned are the last ones below their fork. -/
theorem of_prefix_of_returned {p : Prog ν α} {π σ : Pos} {c : Kind}
    (hret : ∀ d, p.kindAt (π ++ [d]) = some .returned) (hσ : p.kindAt σ = some c)
    (hpre : π <+: σ) : σ = π ∨ (∃ d, σ = π ++ [d]) ∧ c = .returned := by
  obtain ⟨ρ, rfl⟩ := hpre
  cases ρ with
  | nil => exact .inl (List.append_nil π)
  | cons d ρ =>
    cases ρ with
    | nil => exact .inr ⟨⟨d, rfl⟩, Option.some.inj (hσ.symm.trans (hret d))⟩
    | cons e ρ =>
      have hnone := kindAt_below_eq_none (hret d) (by decide) e ρ
      rw [List.append_assoc] at hnone
      cases hnone.symm.trans hσ

/-- Both tasks of a fork are there. -/
theorem exists_task_of_forked {p : Prog ν α} {π : Pos} (h : p.kindAt π = some .forked) (d : Side) :
    ∃ q : Prog ν Unit, p.task (π ++ [d]) = some ⟨Unit, q⟩ := by
  have hkind : ∀ {β : Type} (q : Prog ν β), q.kind = .forked →
      ∃ r : Prog ν Unit, q.task [d] = some ⟨Unit, r⟩ := by
    intro β q hq
    induction q with
    | fork p q k =>
      cases d with
      | left => exact ⟨p, task_nil p⟩
      | right => exact ⟨q, task_nil q⟩
    | call own p k ihp _ =>
      refine ihp ?_
      rw [kind_call] at hq
      split at hq
      · assumption
      · cases hq
    | _ => cases hq
  obtain ⟨t, ht, hc⟩ := exists_task h
  obtain ⟨r, hr⟩ := hkind t.2 hc
  exact ⟨r, by rw [task_append, ht]; exact hr⟩

/-- The positions of the forks that the program is at. -/
def forkPositions : {α : Type} → Prog ν α → List Pos
  | _, .fork p q _ => [] :: (p.forkPositions.map (.left :: ·) ++ q.forkPositions.map (.right :: ·))
  | _, .call _ p _ => p.forkPositions
  | _, .ret _ => []
  | _, .fail => []
  | _, .act _ _ _ => []

theorem mem_forkPositions {p : Prog ν α} {π : Pos} (h : p.kindAt π = some .forked) :
    π ∈ p.forkPositions := by
  induction p generalizing π with
  | fork p q k ihp ihq _ =>
    cases π with
    | nil => exact List.mem_cons_self
    | cons d π =>
      refine List.mem_cons_of_mem _ (List.mem_append.mpr ?_)
      cases d with
      | left => exact .inl (List.mem_map_of_mem (ihp h))
      | right => exact .inr (List.mem_map_of_mem (ihq h))
  | call own p k ihp _ =>
    cases π with
    | nil =>
      rw [kindAt_nil, kind_call, Option.some.injEq] at h
      split at h
      · rename_i hp
        exact ihp ((kindAt_nil p).trans (congrArg some hp))
      · cases h
    | cons d π => exact ihp h
  | _ => cases π <;> cases h

/-! ## Steps at a position -/

section Steps

variable [DecidableEq ν] {p p' : Prog ν α} {π σ : Pos} {s s' : Store ν}

theorem AccessAt.step (h : AccessAt π p s p' s') : Step p s p' s' := by
  induction h with
  | act h => exact .act h
  | leave => exact .leave
  | left _ ih => exact .left ih
  | right _ ih => exact .right ih
  | inside _ ih => exact .inside ih

theorem AccessAt.running (h : AccessAt π p s p' s') : p.kindAt π = some .running := by
  induction h with
  | act _ => rfl
  | leave => rfl
  | left _ ih => exact ih
  | right _ ih => exact ih
  | @inside α β π own own' p p' k s h ih =>
    cases π with
    | nil =>
      rw [kindAt_nil, Option.some.injEq] at ih
      rw [kindAt_nil, kind_call, ih]
      rfl
    | cons d π => exact ih

/-- An access leaves the tasks alone that do not contain it and that it does not contain. -/
theorem AccessAt.task_eq (h : AccessAt π p s p' s') (hσ : ¬ π <+: σ) (hπ : ¬ σ <+: π) :
    p'.task σ = p.task σ := by
  induction h generalizing σ with
  | act _ => exact absurd List.nil_prefix hσ
  | leave => exact absurd List.nil_prefix hσ
  | left _ ih =>
    cases σ with
    | nil => exact absurd List.nil_prefix hπ
    | cons d σ =>
      cases d with
      | left => exact ih (by simpa using hσ) (by simpa using hπ)
      | right => rfl
  | right _ ih =>
    cases σ with
    | nil => exact absurd List.nil_prefix hπ
    | cons d σ =>
      cases d with
      | left => rfl
      | right => exact ih (by simpa using hσ) (by simpa using hπ)
  | inside _ ih =>
    cases σ with
    | nil => exact absurd List.nil_prefix hπ
    | cons d σ => exact ih hσ hπ

/-- It does not change what the tasks that contain it are about to do. -/
theorem AccessAt.kindAt_eq (h : AccessAt π p s p' s') (hσ : ¬ π <+: σ) :
    p'.kindAt σ = p.kindAt σ := by
  induction h generalizing σ with
  | act _ => exact absurd List.nil_prefix hσ
  | leave => exact absurd List.nil_prefix hσ
  | left _ ih =>
    cases σ with
    | nil => rfl
    | cons d σ =>
      cases d with
      | left => exact ih (by simpa using hσ)
      | right => rfl
  | right _ ih =>
    cases σ with
    | nil => rfl
    | cons d σ =>
      cases d with
      | left => rfl
      | right => exact ih (by simpa using hσ)
  | @inside α β π own own' p p' k s _ ih =>
    cases σ with
    | nil =>
      have hk := ih hσ
      rw [kindAt_nil, kindAt_nil, Option.some.injEq] at hk
      rw [kindAt_nil, kindAt_nil, kind_call, kind_call, hk]
    | cons d σ => exact ih hσ

/-- Other tasks at a fork stay there, and those that have returned stay so. -/
theorem AccessAt.kindAt_keep (h : AccessAt π p s p' s') {c : Kind} (hσ : p.kindAt σ = some c)
    (hc : c ≠ .running) : p'.kindAt σ = some c := by
  by_cases hπ : π <+: σ
  · obtain ⟨ρ, rfl⟩ := hπ
    cases ρ with
    | nil =>
      rw [List.append_nil, h.running, Option.some.injEq] at hσ
      exact absurd hσ.symm hc
    | cons d ρ =>
      rw [kindAt_below_eq_none h.running (by decide)] at hσ
      cases hσ
  · rw [h.kindAt_eq hπ, hσ]

omit [DecidableEq ν] in
theorem resume_task_eq (p : Prog ν α) (hσ : ¬ π <+: σ) (hπ : ¬ σ <+: π) :
    (p.resume π).task σ = p.task σ := by
  induction p generalizing π σ with
  | fork p q k ihp ihq _ =>
    cases σ with
    | nil => exact absurd List.nil_prefix hπ
    | cons d σ =>
      cases π with
      | nil => exact absurd List.nil_prefix hσ
      | cons e π =>
        cases d <;> cases e
        · exact ihp (by simpa using hσ) (by simpa using hπ)
        · rfl
        · rfl
        · exact ihq (by simpa using hσ) (by simpa using hπ)
  | call own p k ihp _ =>
    cases σ with
    | nil => exact absurd List.nil_prefix hπ
    | cons d σ => exact ihp hσ hπ
  | _ => rfl

omit [DecidableEq ν] in
theorem resume_kindAt_eq (p : Prog ν α) (hσ : ¬ π <+: σ) :
    (p.resume π).kindAt σ = p.kindAt σ := by
  induction p generalizing π σ with
  | fork p q k ihp ihq _ =>
    cases π with
    | nil => exact absurd List.nil_prefix hσ
    | cons e π =>
      cases σ with
      | nil => cases e <;> rfl
      | cons d σ =>
        cases d <;> cases e
        · exact ihp (by simpa using hσ)
        · rfl
        · rfl
        · exact ihq (by simpa using hσ)
  | call own p k ihp _ =>
    cases σ with
    | nil =>
      have hk := ihp hσ
      rw [kindAt_nil, kindAt_nil, Option.some.injEq] at hk
      change (call own (p.resume π) k).kindAt [] = _
      rw [kindAt_nil, kindAt_nil, kind_call, kind_call, hk]
    | cons d σ => exact ihp hσ
  | _ => rfl

/-- A fork both of whose tasks have returned may be left. -/
theorem step_resume (hl : p.kindAt (π ++ [.left]) = some .returned)
    (hr : p.kindAt (π ++ [.right]) = some .returned) (s : Store ν) : Step p s (p.resume π) s := by
  have hret : ∀ {q : Prog ν Unit}, q.kindAt [] = some .returned → q = .ret () := fun hq =>
    (eq_ret_of_kind (Option.some.inj ((kindAt_nil _).symm.trans hq))).choose_spec
  induction p generalizing π s with
  | fork p q k ihp ihq _ =>
    cases π with
    | nil =>
      rw [hret hl, hret hr]
      exact .join
    | cons d π =>
      cases d with
      | left => exact .left (ihp hl hr s)
      | right => exact .right (ihq hl hr s)
  | call own p k ihp _ =>
    cases π with
    | nil => exact .inside (@ihp [] hl hr own)
    | cons d π => exact .inside (@ihp (d :: π) hl hr own)
  | _ => cases π <;> cases hl

end Steps

/-! ## Progress -/

/-- An access that is possible after an independent one is possible before it. -/
theorem exec_of_indep {β γ : Type} (f : VecOp β) (g : VecOp γ) (h : f.touch.Indep g.touch)
    {v u : Vec} {a : β} {r : γ × Vec} (hf : f.exec v = some (a, u)) (hg : g.exec u = some r) :
    ∃ r', g.exec v = some r' := by
  have hlen : f.touch ≠ .whole → u.length = v.length := by
    intro hw
    cases f with
    | read i => grind [VecOp.exec]
    | write i c => grind [VecOp.exec]
    | size => grind [VecOp.exec]
    | assign w => exact absurd rfl hw
    | resize n => exact absurd rfl hw
  cases g with
  | read i =>
    have hl := hlen fun hw => by rw [hw] at h; exact h
    simp only [VecOp.exec, hl, Option.ite_none_right_eq_some] at hg
    exact ⟨_, if_pos hg.1⟩
  | write i c =>
    have hl := hlen fun hw => by rw [hw] at h; exact h
    simp only [VecOp.exec, hl, Option.ite_none_right_eq_some] at hg
    exact ⟨_, if_pos hg.1⟩
  | size => exact ⟨_, rfl⟩
  | assign w => exact ⟨_, rfl⟩
  | resize n => exact ⟨_, rfl⟩

section Progress

variable [DecidableEq ν]

/-- An access that is possible after an independent program is possible before it. -/
theorem exec_before_run (p : Prog ν α) {F G : Footprint ν} (hFG : Separate F G) (hF : p.Within F)
    {x : ν} {op : VecOp β} (hG : G x op.touch) {s t : Store ν} {a : α} {r : β × Vec}
    (hp : p.run s = some (a, t)) (ho : op.exec (t x) = some r) : ∃ r', op.exec (s x) = some r' := by
  induction p generalizing s t r with
  | ret c =>
    simp only [run_ret, Option.some.injEq, Prod.mk.injEq] at hp
    rw [hp.2]
    exact ⟨r, ho⟩
  | fail => simp at hp
  | act y f k ih =>
    obtain ⟨⟨c, u⟩, hc, hk⟩ := Option.bind_eq_some_iff.mp hp
    obtain ⟨r', hr'⟩ := ih c (hF.2 c) hk ho
    by_cases hxy : x = y
    · subst hxy
      rw [Function.update_self] at hr'
      exact exec_of_indep f op (hFG x _ _ hF.1 hG) hc hr'
    · rw [Function.update_of_ne hxy] at hr'
      exact ⟨r', hr'⟩
  | fork p q k ihp ihq ihk =>
    obtain ⟨⟨_, t₁⟩, h1, h⟩ := Option.bind_eq_some_iff.mp hp
    obtain ⟨⟨_, t₂⟩, h2, h3⟩ := Option.bind_eq_some_iff.mp h
    obtain ⟨r₁, e1⟩ := ihk hF.2.2 h3 ho
    obtain ⟨r₂, e2⟩ := ihq hF.2.1 h2 e1
    exact ihp hF.1 h1 e2
  | call own p k _ ihk =>
    obtain ⟨⟨c, _⟩, h1, h2⟩ := Option.bind_eq_some_iff.mp hp
    exact ihk c (hF c) h2 ho

/-- An access changes no memory, or is one access to it. -/
theorem AccessAt.access {p p' : Prog ν α} {π : Pos} {s s' : Store ν} (h : AccessAt π p s p' s') :
    (∀ t, AccessAt π p t p' t) ∨
    ∃ (β : Type) (x : ν) (op : VecOp β) (r : β × Vec), op.exec (s x) = some r ∧
      (∀ F, p.Within F → F x op.touch) ∧
      ∀ t r, op.exec (t x) = some r → ∃ p' t', AccessAt π p t p' t' := by
  induction h with
  | act h => exact .inr ⟨_, _, _, _, h, fun F hF => hF.1, fun t r hr => ⟨_, _, .act hr⟩⟩
  | leave => exact .inl fun t => .leave
  | left _ ih =>
    rcases ih with h | ⟨β, x, op, r, he, hF, h⟩
    · exact .inl fun t => .left (h t)
    · refine .inr ⟨β, x, op, r, he, fun F hW => hF F hW.1, fun t r hr => ?_⟩
      obtain ⟨p', t', h'⟩ := h t r hr
      exact ⟨_, _, .left h'⟩
  | right _ ih =>
    rcases ih with h | ⟨β, x, op, r, he, hF, h⟩
    · exact .inl fun t => .right (h t)
    · refine .inr ⟨β, x, op, r, he, fun F hW => hF F hW.2.1, fun t r hr => ?_⟩
      obtain ⟨p', t', h'⟩ := h t r hr
      exact ⟨_, _, .right h'⟩
  | inside h _ => exact .inl fun t => .inside h

/-- **No task is stuck.** In a race-free program that program order completes, each
task that is neither at a fork nor done can make its next access now. -/
theorem exists_accessAt (p : Prog ν α) {π : Pos} (hR : p.RaceFree) {s : Store ν}
    {r : α × Store ν} (hp : p.run s = some r) (hπ : p.kindAt π = some .running) :
    ∃ p' s', AccessAt π p s p' s' := by
  induction p generalizing π s with
  | ret a => cases π <;> cases hπ
  | fail => simp at hp
  | act x op k _ =>
    obtain ⟨⟨b, v⟩, h, _⟩ := Option.bind_eq_some_iff.mp hp
    cases π with
    | nil => exact ⟨_, _, .act h⟩
    | cons d π => cases hπ
  | fork p q k ihp ihq _ =>
    obtain ⟨hRp, hRq, -, F, G, hF, hG, hFG⟩ := hR
    obtain ⟨⟨_, s₁⟩, h1, h2⟩ := Option.bind_eq_some_iff.mp hp
    obtain ⟨⟨_, s₂⟩, h3, _⟩ := Option.bind_eq_some_iff.mp h2
    cases π with
    | nil => cases hπ
    | cons d π =>
      cases d with
      | left =>
        obtain ⟨p', s', h⟩ := ihp hRp h1 hπ
        exact ⟨_, _, .left h⟩
      | right =>
        -- `q` can go on where `p` has finished, and so it can beside `p`
        obtain ⟨q', t', h⟩ := ihq hRq h3 hπ
        rcases h.access with h | ⟨β, x, op, r, he, hx, h⟩
        · exact ⟨_, _, .right (h s)⟩
        · obtain ⟨r', hr'⟩ := exec_before_run p hFG hF (hx G hG) h1 he
          obtain ⟨q', t', h'⟩ := h s r' hr'
          exact ⟨_, _, .right h'⟩
  | call own p k ihp _ =>
    obtain ⟨⟨b, t⟩, h1, _⟩ := Option.bind_eq_some_iff.mp hp
    have hp' : p.kindAt π = some .running ∨ ∃ b, p = .ret b ∧ π = [] := by
      cases π with
      | cons d π => exact .inl hπ
      | nil =>
        rw [kindAt_nil, kind_call, Option.some.injEq] at hπ
        rw [kindAt_nil]
        cases p with
        | ret b => exact .inr ⟨b, rfl, rfl⟩
        | fork p q k => cases hπ
        | call own p k =>
          refine .inl (congrArg some ((kind_call_cases own p k).resolve_left fun h => ?_))
          rw [if_pos h] at hπ
          cases hπ
        | _ => exact .inl rfl
    rcases hp' with hπ' | ⟨b, rfl, rfl⟩
    · obtain ⟨p', own', h⟩ := ihp hR.1 h1 hπ'
      exact ⟨_, _, .inside h⟩
    · exact ⟨_, _, .leave⟩

end Progress

end Prog

end BigintMultiply.ForkJoin
