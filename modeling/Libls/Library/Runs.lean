import Mathlib.Data.List.Basic

/-! # Runs of a transition system

A system is a relation `step` between a state, the label of a step and the next state.  `Run` is a
sequence of steps with the list of its labels; statements about runs on which something does not
happen are statements about these labels.

`Run.invariant` and `Run.history` are the rules for safety: what steps keep, runs keep.  `Run.simulates` is the one for
refinement, `Run.execs` the one for memories that represent states, `Run.of_exec` and `Run.exec_keeps` the ones for runs that are computed,
`Run.exists_of_measure` the one for termination.  `Run.first` finds the step at which a run leaves a set of states. -/

namespace Libls

variable {σ α : Type} {step : σ → α → σ → Prop} {s s' s'' : σ} {a : α} {as bs : List α}

/-- A run with the labels of its steps. -/
inductive Run (step : σ → α → σ → Prop) : σ → List α → σ → Prop
  | nil (s : σ) : Run step s [] s
  | cons {s s' s'' : σ} {a : α} {as : List α} :
      step s a s' → Run step s' as s'' → Run step s (a :: as) s''

namespace Run

theorem single (h : step s a s') : Run step s [a] s' := .cons h (.nil s')

theorem append (h : Run step s as s') (h' : Run step s' bs s'') : Run step s (as ++ bs) s'' := by
  induction h with
  | nil s => exact h'
  | cons ha _ ih => exact .cons ha (ih h')

theorem snoc (h : Run step s as s') (h' : step s' a s'') : Run step s (as ++ [a]) s'' :=
  h.append (.single h')

/-- The parts of a run. -/
theorem of_append (h : Run step s (as ++ bs) s'') : ∃ s', Run step s as s' ∧ Run step s' bs s'' := by
  induction as generalizing s with
  | nil => exact ⟨s, .nil s, h⟩
  | cons a as ih =>
      cases h with
      | cons ha hrest =>
          obtain ⟨s', h₁, h₂⟩ := ih hrest
          exact ⟨s', .cons ha h₁, h₂⟩

theorem mono {step' : σ → α → σ → Prop} (hstep : ∀ s a s', step s a s' → step' s a s') (h : Run step s as s') :
    Run step' s as s' := by
  induction h with
  | nil s => exact .nil s
  | cons ha _ ih => exact .cons (hstep _ _ _ ha) ih

/-- **Safety.**  What every step with an admissible label keeps holds at the end of a run. -/
theorem invariant {P : α → Prop} {I : σ → Prop}
    (hstep : ∀ s a s', step s a s' → P a → I s → I s') (h : Run step s as s') (hP : ∀ a ∈ as, P a)
    (hI : I s) : I s' := by
  induction h with
  | nil s => exact hI
  | cons ha _ ih =>
      exact ih (fun b hb => hP b (List.mem_cons_of_mem _ hb)) (hstep _ _ _ ha (hP _ List.mem_cons_self) hI)

/-- The same, for what a state says about the steps before it. -/
theorem history {I : List α → σ → Prop} (hstep : ∀ as s a s', step s a s' → I as s → I (as ++ [a]) s')
    (h : Run step s as s') (hI : I [] s) : I as s' := by
  have hrest : ∀ before, I before s → I (before ++ as) s' := by
    clear hI
    induction h with
    | nil s =>
        intro before hbefore
        rwa [List.append_nil]
    | @cons s₀ s₁ s₂ a as ha hrun ih =>
        intro before hbefore
        have hnext := ih (before ++ [a]) (hstep _ _ _ _ ha hbefore)
        rwa [List.append_assoc, List.singleton_append] at hnext
  exact hrest [] hI

/-- **Refinement.**  Where every step of a system is what some steps of another one look like from outside, so is
every run. -/
theorem simulates {τ β ε : Type} {step' : τ → β → τ → Prop} {R : σ → τ → Prop} {see : α → Option ε}
    {see' : β → Option ε} {t : τ}
    (hstep : ∀ s a s' t, step s a s' → R s t →
      ∃ bs t', Run step' t bs t' ∧ bs.filterMap see' = (see a).toList ∧ R s' t')
    (h : Run step s as s') (hR : R s t) :
    ∃ bs t', Run step' t bs t' ∧ bs.filterMap see' = as.filterMap see ∧ R s' t' := by
  induction h generalizing t with
  | nil s => exact ⟨[], t, .nil t, rfl, hR⟩
  | @cons s₀ s₁ s₂ a as ha hrun ih =>
      obtain ⟨bs₁, t₁, hrun₁, hsee₁, hR₁⟩ := hstep _ _ _ _ ha hR
      obtain ⟨bs₂, t₂, hrun₂, hsee₂, hR₂⟩ := ih hR₁
      refine ⟨bs₁ ++ bs₂, t₂, hrun₁.append hrun₂, ?_, hR₂⟩
      rw [List.filterMap_append, hsee₁, hsee₂]
      cases hsee : see a with
      | none => rw [List.filterMap_cons_none hsee, Option.toList_none, List.nil_append]
      | some e => rw [List.filterMap_cons_some hsee, Option.toList_some, List.singleton_append]

/-- **Execution.**  A memory that represents the state of the system follows each of its steps by `exec`, and so
every run. -/
theorem execs {τ : Type} {exec : α → τ → Option τ} {R : τ → σ → Prop} {t : τ}
    (hstep : ∀ s a s' t, step s a s' → R t s → ∃ t', exec a t = some t' ∧ R t' s') (h : Run step s as s') (hR : R t s) :
    ∃ t', as.foldlM (fun t a => exec a t) t = some t' ∧ R t' s' := by
  induction h generalizing t with
  | nil s => exact ⟨t, rfl, hR⟩
  | cons ha _ ih =>
      obtain ⟨t₁, ht₁, hR₁⟩ := hstep _ _ _ _ ha hR
      obtain ⟨t₂, ht₂, hR₂⟩ := ih hR₁
      refine ⟨t₂, ?_, hR₂⟩
      rw [List.foldlM_cons, ht₁]
      exact ht₂

/-- A run that is computed, to an end that looks as `see` shows it. -/
theorem of_exec {ε : Type} {exec : σ → α → Option σ} (hexec : ∀ s a s', exec s a = some s' → step s a s') (see : σ → ε)
    {e : ε} (h : (as.foldlM exec s).map see = some e) : ∃ s', see s' = e ∧ Run step s as s' := by
  induction as generalizing s with
  | nil => exact ⟨s, Option.some.inj h, .nil s⟩
  | cons a as ih =>
      rw [List.foldlM_cons] at h
      cases ha : exec s a with
      | none =>
          rw [ha] at h
          cases h
      | some s₁ =>
          rw [ha] at h
          obtain ⟨s', hsee, hrun⟩ := ih h
          exact ⟨s', hsee, .cons (hexec _ _ _ ha) hrun⟩

/-- What every computed step keeps holds at the end of a computed run. -/
theorem exec_keeps {ε : Type} {exec : σ → α → Option σ} {I : σ → Prop} (hexec : ∀ s a s', exec s a = some s' → I s → I s')
    (see : σ → ε) {e : ε} (h : (as.foldlM exec s).map see = some e) (hI : I s) : ∃ s', see s' = e ∧ I s' := by
  have hruns : ∃ s', see s' = e ∧ Run (fun s a s' => exec s a = some s') s as s' := of_exec (fun _ _ _ ha => ha) see h
  obtain ⟨s', hsee, hrun⟩ := hruns
  exact ⟨s', hsee, hrun.invariant (P := fun _ => True) (fun _ _ _ ha _ => hexec _ _ _ ha) (fun _ _ => trivial) hI⟩

/-- **Termination.**  Where every state in `I` is in `G` or has a step to a smaller state in `I`, some run
ends in `G`. -/
theorem exists_of_measure {I G : σ → Prop} (μ : σ → ℕ)
    (hstep : ∀ s, I s → G s ∨ ∃ a s', step s a s' ∧ I s' ∧ μ s' < μ s) (hI : I s) :
    ∃ as s', Run step s as s' ∧ I s' ∧ G s' := by
  have hbound : ∀ n s, μ s < n → I s → ∃ as s', Run step s as s' ∧ I s' ∧ G s' := by
    intro n
    induction n with
    | zero =>
        intro s hlt
        exact absurd hlt (Nat.not_lt_zero _)
    | succ n ih =>
        intro s hlt hI
        rcases hstep s hI with hG | ⟨a, s₁, ha, hI₁, hless⟩
        · exact ⟨[], s, .nil s, hI, hG⟩
        · obtain ⟨as, s', hrun, hend⟩ := ih s₁ (by omega) hI₁
          exact ⟨a :: as, s', .cons ha hrun, hend⟩
  exact hbound _ s (Nat.lt_succ_self _) hI

/-- Where every state in `I` has a step that stays in `I`, there are runs of every length. -/
theorem exists_of_length {I : σ → Prop} (hstep : ∀ s, I s → ∃ a s', step s a s' ∧ I s') (hI : I s) (n : ℕ) :
    ∃ as s', Run step s as s' ∧ as.length = n := by
  induction n generalizing s with
  | zero => exact ⟨[], s, .nil s, rfl⟩
  | succ n ih =>
      obtain ⟨a, s', ha, hI'⟩ := hstep s hI
      obtain ⟨as, s'', hrun, hlen⟩ := ih hI'
      exact ⟨a :: as, s'', .cons ha hrun, by rw [List.length_cons, hlen]⟩

/-- A run from `I` to a state outside `I` passes a state in `J`, if that is where steps from `I` end
that leave `I`. -/
theorem first {P : α → Prop} {I J : σ → Prop}
    (hstep : ∀ s a s', step s a s' → P a → I s → I s' ∨ J s') (h : Run step s as s')
    (hP : ∀ a ∈ as, P a) (hI : I s) (hn : ¬ I s') :
    ∃ s₁ as₁ as₂, as = as₁ ++ as₂ ∧ Run step s as₁ s₁ ∧ J s₁ ∧ Run step s₁ as₂ s' := by
  induction h with
  | nil s => exact absurd hI hn
  | @cons s s₀ s' a as ha hrest ih =>
      rcases hstep _ _ _ ha (hP _ List.mem_cons_self) hI with hI₀ | hJ
      · obtain ⟨s₁, as₁, as₂, rfl, h₁, hJ, h₂⟩ :=
          ih (fun b hb => hP b (List.mem_cons_of_mem _ hb)) hI₀ hn
        exact ⟨s₁, a :: as₁, as₂, rfl, .cons ha h₁, hJ, h₂⟩
      · exact ⟨s₀, [a], as, rfl, .single ha, hJ, hrest⟩

end Run
end Libls
