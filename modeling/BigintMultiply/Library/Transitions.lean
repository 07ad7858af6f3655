import Mathlib.Data.List.Basic

/-! Labelled transition systems: finite runs, the invariant rule and the rules of
forward simulation. -/

namespace BigintMultiply.Transitions

variable {σ τ ε : Type*}

/-- A finite run of `step` from `s`, with its labels in order. -/
inductive Run (step : σ → ε → σ → Prop) (s : σ) : List ε → σ → Prop
  | nil : Run step s [] s
  | snoc {es : List ε} {e : ε} {t u : σ} (hr : Run step s es t) (hs : step t e u) :
      Run step s (es ++ [e]) u

section Rules

variable {step : σ → ε → σ → Prop} {s t u : σ} {es : List ε}

/-- What holds at the start and is kept by every step holds at the end. -/
theorem Run.invariant {I : σ → Prop} (hstep : ∀ s e t, I s → step s e t → I t) (h0 : I s)
    (h : Run step s es t) : I t := by
  induction h with
  | nil => exact h0
  | snoc _ hs ih => exact hstep _ _ _ ih hs

theorem Run.trans {fs : List ε} (h : Run step s es t) (h' : Run step t fs u) :
    Run step s (es ++ fs) u := by
  induction h' with
  | nil => rwa [List.append_nil]
  | snoc _ hs ih =>
    rw [← List.append_assoc]
    exact .snoc ih hs

theorem Run.single {e : ε} (h : step s e t) : Run step s [e] t := Run.snoc .nil h

/-- **Forward simulation.** If related states make the same labelled steps, every
run of the first system is matched by a run of the second with its labels. -/
theorem Run.simulate {stepA : τ → ε → τ → Prop} (R : σ → τ → Prop)
    (hR : ∀ s a e t, R s a → step s e t → ∃ b, stepA a e b ∧ R t b) {a : τ} (h0 : R s a)
    (h : Run step s es t) : ∃ b, Run stepA a es b ∧ R t b := by
  induction h with
  | nil => exact ⟨a, .nil, h0⟩
  | snoc _ hs ih =>
    obtain ⟨b, hb, hrel⟩ := ih
    obtain ⟨c, hc, hrel'⟩ := hR _ _ _ _ hrel hs
    exact ⟨c, .snoc hb hc, hrel'⟩

/-- **Stuttering simulation.** If each step of the first system is matched by one of
the second or changes nothing there, its runs are matched by runs with fewer steps. -/
theorem Run.simulate_stutter {stepA : τ → ε → τ → Prop} (R : σ → τ → Prop)
    (hR : ∀ s a e t, R s a → step s e t → R t a ∨ ∃ b, stepA a e b ∧ R t b) {a : τ} (h0 : R s a)
    (h : Run step s es t) : ∃ fs b, fs.Sublist es ∧ Run stepA a fs b ∧ R t b := by
  induction h with
  | nil => exact ⟨[], a, .slnil, .nil, h0⟩
  | snoc _ hs ih =>
    obtain ⟨fs, b, hfs, hb, hrel⟩ := ih
    rcases hR _ _ _ _ hrel hs with hrel' | ⟨c, hc, hrel'⟩
    · exact ⟨fs, b, hfs.trans (List.sublist_append_left _ _), hb, hrel'⟩
    · exact ⟨_, c, hfs.append (.refl _), .snoc hb hc, hrel'⟩

end Rules

end BigintMultiply.Transitions
