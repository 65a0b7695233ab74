import Mathlib.Data.Nat.Init
import Mathlib.Order.Basic

/-! # Programs with loops, as fuelled computations

A C function with a loop is modelled by a `Prog`: a computation that is given an amount of
fuel and may fail.  Failure (`none`) covers everything a run of the C function must not do
(`abort()`, a failing assertion, a null dereference, an access outside an array) and also
running out of fuel; the monotonicity carried as a field says that fuel is the only thing
that can turn a failure into a result, and that it never changes a result.

`Returns p a` is the meaning of a program: with enough fuel `p` ends with `a`.  Since more
fuel never hurts, the rules below (`returns_bind`, `Returns.iterate`) never mention fuel, and
a specification `∃ a, Returns p a ∧ Q a` is total correctness: `p` terminates, fails nowhere
and ends in `Q`. -/

namespace Libls

/-- A computation whose loops are cut off by fuel; more fuel keeps every result. -/
structure Prog (α : Type) where
  run : ℕ → Option α
  mono : ∀ n a, run n = some a → run (n + 1) = some a

/-- What one pass of a loop body decides: go on with a new loop state, or leave. -/
inductive Iter (σ α : Type) where
  | next (s : σ)
  | done (a : α)

/-- Change the loop state or the result. -/
def Iter.map {σ σ' α α' : Type} (f : σ' → σ) (g : α' → α) : Iter σ' α' → Iter σ α
  | .next s => .next (f s)
  | .done a => .done (g a)

/-- `J` of the next loop state, or `R` of the result. -/
def Iter.All {σ α : Type} (J : σ → Prop) (R : α → Prop) : Iter σ α → Prop
  | .next s => J s
  | .done a => R a

namespace Prog

variable {σ α β : Type}

theorem mono_le (p : Prog α) {n m : ℕ} {a : α} (h : n ≤ m) (hn : p.run n = some a) :
    p.run m = some a := by
  induction h with
  | refl => exact hn
  | step _ ih => exact p.mono _ _ ih

/-- A computation without loops. -/
def ofOption (o : Option α) : Prog α := ⟨fun _ => o, fun _ _ h => h⟩

instance : Monad Prog where
  pure a := ofOption (some a)
  bind p f :=
    { run := fun n => (p.run n).bind fun a => (f a).run n
      mono := by
        intro n b h
        obtain ⟨a, ha, hb⟩ := Option.bind_eq_some_iff.mp h
        simp [p.mono n a ha, (f a).mono n b hb] }

instance : MonadLift Option Prog := ⟨ofOption⟩

/-- `abort()`, a failing `assert` and every other step that has no result. -/
def abort : Prog α := ofOption none

/-! ### Loops -/

/-- At most `k` passes of a loop body, each of them run with the fuel `n`. -/
def passes (body : σ → Prog (Iter σ α)) (n : ℕ) : ℕ → σ → Option α
  | 0, _ => none
  | k + 1, s =>
      match (body s).run n with
      | none => none
      | some (.next s') => passes body n k s'
      | some (.done a) => some a

theorem passes_mono (body : σ → Prog (Iter σ α)) {n m : ℕ} (hn : n ≤ m) :
    ∀ {k j : ℕ} {s : σ} {a : α}, k ≤ j → passes body n k s = some a → passes body m j s = some a
  | 0, _, _, _, _, h => by simp [passes] at h
  | k + 1, 0, _, _, hk, _ => by omega
  | k + 1, j + 1, s, a, hk, h => by
      rw [passes] at h
      cases hb : (body s).run n with
      | none => rw [hb] at h; cases h
      | some r =>
          rw [hb] at h
          rw [passes, (body s).mono_le hn hb]
          cases r with
          | done b => exact h
          | next s' => exact passes_mono body hn (Nat.le_of_succ_le_succ hk) h

/-- A loop: passes of the body until one of them leaves. -/
def iterate (body : σ → Prog (Iter σ α)) (s : σ) : Prog α :=
  ⟨fun n => passes body n n s, fun n _ h => passes_mono body (Nat.le_succ n) (Nat.le_succ n) h⟩

/-! ### What a program returns -/

/-- With enough fuel, `p` ends with the result `a`. -/
def Returns (p : Prog α) (a : α) : Prop := ∃ n, p.run n = some a

theorem Returns.of_run {p : Prog α} {a : α} {n : ℕ} (h : p.run n = some a) : Returns p a := ⟨n, h⟩

/-- A program has at most one result. -/
theorem Returns.unique {p : Prog α} {a b : α} (ha : Returns p a) (hb : Returns p b) : a = b := by
  obtain ⟨n, hn⟩ := ha
  obtain ⟨m, hm⟩ := hb
  have h1 := p.mono_le (Nat.le_max_left n m) hn
  have h2 := p.mono_le (Nat.le_max_right n m) hm
  exact Option.some.inj (h1.symm.trans h2)

@[simp] theorem returns_ofOption {o : Option α} {a : α} : Returns (ofOption o) a ↔ o = some a :=
  ⟨fun ⟨_, h⟩ => h, fun h => ⟨0, h⟩⟩

@[simp] theorem returns_lift {o : Option α} {a : α} :
    Returns (liftM o : Prog α) a ↔ o = some a := returns_ofOption

/-- A step that cannot fail here. -/
@[simp] theorem lift_bind {a : α} {f : α → Prog β} : ((liftM (some a) : Prog α) >>= f) = f a := rfl

@[simp] theorem returns_pure {a b : α} : Returns (pure a : Prog α) b ↔ a = b := by
  rw [show (pure a : Prog α) = ofOption (some a) from rfl, returns_ofOption, Option.some.injEq]

@[simp] theorem returns_abort {a : α} : ¬ Returns (abort : Prog α) a := by
  rw [abort, returns_ofOption]
  simp

@[simp] theorem returns_bind {p : Prog α} {f : α → Prog β} {b : β} :
    Returns (p >>= f) b ↔ ∃ a, Returns p a ∧ Returns (f a) b := by
  constructor
  · rintro ⟨n, h⟩
    obtain ⟨a, ha, hb⟩ := Option.bind_eq_some_iff.mp h
    exact ⟨a, ⟨n, ha⟩, ⟨n, hb⟩⟩
  · rintro ⟨a, ⟨n, ha⟩, ⟨m, hb⟩⟩
    refine ⟨max n m, Option.bind_eq_some_iff.mpr ⟨a, ?_, ?_⟩⟩
    · exact p.mono_le (Nat.le_max_left n m) ha
    · exact (f a).mono_le (Nat.le_max_right n m) hb

/-- One pass that leaves the loop. -/
theorem Returns.iterate_done {body : σ → Prog (Iter σ α)} {s : σ} {a : α}
    (h : Returns (body s) (.done a)) : Returns (iterate body s) a := by
  obtain ⟨n, hn⟩ := h
  refine ⟨n + 1, ?_⟩
  show passes body (n + 1) (n + 1) s = some a
  rw [passes, (body s).mono n _ hn]

/-- One pass that goes on. -/
theorem Returns.iterate_next {body : σ → Prog (Iter σ α)} {s s' : σ} {a : α}
    (h : Returns (body s) (.next s')) (hs' : Returns (iterate body s') a) :
    Returns (iterate body s) a := by
  obtain ⟨n, hn⟩ := h
  obtain ⟨m, hm⟩ := hs'
  refine ⟨max n m + 1, ?_⟩
  show passes body (max n m + 1) (max n m + 1) s = some a
  rw [passes, (body s).mono_le (by omega : n ≤ max n m + 1) hn]
  exact passes_mono body (by omega) (by omega) hm

/-- What a loop returns, by what its first pass does. -/
theorem returns_iterate {body : σ → Prog (Iter σ α)} {s : σ} {a : α} :
    Returns (iterate body s) a ↔ Returns (body s) (.done a) ∨
      ∃ s', Returns (body s) (.next s') ∧ Returns (iterate body s') a := by
  constructor
  · rintro ⟨n, hn⟩
    obtain ⟨k, hk⟩ : ∃ k, n = k + 1 := by
      cases n with
      | zero => cases hn
      | succ k => exact ⟨k, rfl⟩
    subst hk
    change passes body (k + 1) (k + 1) s = some a at hn
    rw [passes] at hn
    cases hb : (body s).run (k + 1) with
    | none => rw [hb] at hn; cases hn
    | some r =>
        rw [hb] at hn
        cases r with
        | done b =>
            cases hn
            exact .inl ⟨k + 1, hb⟩
        | next s' => exact .inr ⟨s', ⟨k + 1, hb⟩, k + 1, passes_mono body (Nat.le_refl _) (Nat.le_succ k) hn⟩
  · rintro (h | ⟨s', h, hs'⟩)
    · exact Returns.iterate_done h
    · exact Returns.iterate_next h hs'

/-- A pass that goes on does not change what the loop returns. -/
theorem returns_iterate_next {body : σ → Prog (Iter σ α)} {s s' : σ} {a : α}
    (h : Returns (body s) (.next s')) : Returns (iterate body s) a ↔ Returns (iterate body s') a := by
  refine ⟨fun hr => ?_, Returns.iterate_next h⟩
  rcases returns_iterate.mp hr with hd | ⟨s'', hn, hr'⟩
  · cases hd.unique h
  · cases hn.unique h
    exact hr'

theorem returns_iterate_done {body : σ → Prog (Iter σ α)} {s : σ} {a b : α}
    (h : Returns (body s) (.done b)) : Returns (iterate body s) a ↔ b = a := by
  refine ⟨fun hr => ?_, fun e => e ▸ Returns.iterate_done h⟩
  rcases returns_iterate.mp hr with hd | ⟨s', hn, -⟩
  · cases hd.unique h
    rfl
  · cases hn.unique h

/-- **The loop rule.**  Passes that keep `I`, make its variant smaller, and establish `Q` when
they leave, make the whole loop return in `Q`. -/
theorem Returns.iterate {body : σ → Prog (Iter σ α)} {Q : α → Prop} (I : ℕ → σ → Prop)
    (step : ∀ n s, I n s → (∃ a, Returns (body s) (.done a) ∧ Q a) ∨
      ∃ s' m, Returns (body s) (.next s') ∧ m < n ∧ I m s') :
    ∀ n s, I n s → ∃ a, Returns (Prog.iterate body s) a ∧ Q a := by
  intro n
  induction n using Nat.strongRecOn with
  | _ n ih =>
      intro s hs
      rcases step n s hs with ⟨a, ha, hq⟩ | ⟨s', m, hs', hlt, hI⟩
      · exact ⟨a, Returns.iterate_done ha, hq⟩
      · obtain ⟨a, ha, hq⟩ := ih m hlt s' hI
        exact ⟨a, Returns.iterate_next hs' ha, hq⟩

/-- The loop rule for a result that is known. -/
theorem Returns.iterate_to {body : σ → Prog (Iter σ α)} {b : α} (I : ℕ → σ → Prop)
    (step : ∀ n s, I n s → Returns (body s) (.done b) ∨ ∃ s' m, Returns (body s) (.next s') ∧ m < n ∧ I m s') :
    ∀ n s, I n s → Returns (Prog.iterate body s) b := by
  intro n s hs
  obtain ⟨a, ha, rfl⟩ := Returns.iterate (Q := fun a => a = b) I
    (fun n s hs => (step n s hs).imp_left fun h => ⟨b, h, rfl⟩) n s hs
  exact ha

/-- A loop that walks along a sequence, from each element to the one behind it, and keeps those that it has
passed. -/
theorem Returns.iterate_walk {β : Type} {body : Option β × List β → Prog (Iter (Option β × List β) (List β))}
    {L : List β} (hdone : Returns (body (none, L)) (.done L))
    (hnext : ∀ A x B, L = A ++ x :: B → Returns (body (some x, A)) (.next (B.head?, A ++ [x]))) :
    Returns (Prog.iterate body (L.head?, [])) L := by
  -- the rest of the sequence, behind the elements passed
  have hrest : ∀ B A : List β, L = A ++ B → Returns (Prog.iterate body (B.head?, A)) L := by
    intro B
    induction B with
    | nil =>
        intro A hL
        rw [List.append_nil] at hL
        rw [← hL]
        exact Returns.iterate_done hdone
    | cons x B ih =>
        intro A hL
        exact Returns.iterate_next (hnext A x B hL) (ih (A ++ [x]) (by rw [hL, List.append_cons]))
  exact hrest L [] rfl

/-! ### Programs that are run -/

/-- What a program computes with the fuel `n`, if it may be run. -/
def attempt (may : Prop) [Decidable may] (p : Prog α) (n : ℕ) : Option α := if may then p.run n else none

theorem attempt_eq_some {may : Prop} [Decidable may] {p : Prog α} {n : ℕ} {a : α} (h : attempt may p n = some a) :
    may ∧ Returns p a := by
  unfold attempt at h
  by_cases hmay : may
  · rw [if_pos hmay] at h
    exact ⟨hmay, n, h⟩
  · rw [if_neg hmay] at h
    cases h

theorem attempt_map_eq_some {may : Prop} [Decidable may] {p : Prog α} {n : ℕ} {f : α → β} {b : β}
    (h : (attempt may p n).map f = some b) : may ∧ ∃ a, Returns p a ∧ f a = b := by
  obtain ⟨a, hattempt, hb⟩ := Option.map_eq_some_iff.mp h
  obtain ⟨hmay, ha⟩ := attempt_eq_some hattempt
  exact ⟨hmay, a, ha, hb⟩

/-! ### Loops that carry more along -/

section carry
variable {σ' α' : Type} {step : σ → Option (Iter σ α)} {step' : σ' → Option (Iter σ' α')} {f : σ' → σ}
  {g : α' → α}

theorem passes_map (h : ∀ p, (step' p).map (Iter.map f g) = step (f p)) (n : ℕ) : ∀ (k : ℕ) (p : σ'),
    (passes (fun q => liftM (step' q)) n k p).map g = passes (fun q => liftM (step q)) n k (f p)
  | 0, _ => rfl
  | k + 1, p => by
      have hp : (liftM (step (f p)) : Prog (Iter σ α)).run n = (step' p).map (Iter.map f g) := (h p).symm
      rw [passes, passes, hp]
      cases step' p with
      | none => rfl
      | some i =>
          cases i with
          | next p' => exact passes_map h n k p'
          | done a => rfl

/-- A loop that does the same as another one, and more that the other one does not see. -/
theorem returns_iterate_map (h : ∀ p, (step' p).map (Iter.map f g) = step (f p)) {p : σ'} {a : α} :
    Returns (iterate (fun q => liftM (step q)) (f p)) a ↔
      ∃ a', Returns (iterate (fun q => liftM (step' q)) p) a' ∧ g a' = a := by
  have hrun : ∀ n, (iterate (fun q => liftM (step q)) (f p)).run n =
      ((iterate (fun q => liftM (step' q)) p).run n).map g := fun n => (passes_map h n n p).symm
  constructor
  · rintro ⟨n, hn⟩
    rw [hrun] at hn
    obtain ⟨a', ha', hg⟩ := Option.map_eq_some_iff.mp hn
    exact ⟨a', ⟨n, ha'⟩, hg⟩
  · rintro ⟨a', ⟨n, hn⟩, rfl⟩
    exact ⟨n, by rw [hrun, hn]; rfl⟩

/-- The loop rule for a loop that carries more along: the variant and the invariant `I` are those of the
plain loop, and the passes keep `J` beside them. -/
theorem Returns.iterate_carry (h : ∀ p, (step' p).map (Iter.map f g) = step (f p)) {Q : α → Prop}
    {R : α' → Prop} (I : ℕ → σ → Prop) (J : σ' → Prop)
    (hI : ∀ n s, I n s → (∃ a, step s = some (.done a) ∧ Q a) ∨
      ∃ s' m, step s = some (.next s') ∧ m < n ∧ I m s')
    (hJ : ∀ n p i, I n (f p) → J p → step' p = some i → i.All J R) (n : ℕ) (p : σ') (hn : I n (f p)) (hp : J p) :
    ∃ a, Returns (Prog.iterate (fun q => liftM (step' q)) p) a ∧ Q (g a) ∧ R a := by
  refine Returns.iterate (Q := fun a => Q (g a) ∧ R a) (fun n p => I n (f p) ∧ J p) ?_ n p ⟨hn, hp⟩
  rintro n p ⟨hn, hp⟩
  simp only [returns_lift]
  rcases hI n (f p) hn with ⟨a, ha, hQ⟩ | ⟨s', m, hs', hm, hI'⟩
  · obtain ⟨i, hi, hmap⟩ := Option.map_eq_some_iff.mp ((h p).trans ha)
    cases i with
    | next p' => cases hmap
    | done a' =>
        cases hmap
        exact .inl ⟨a', hi, hQ, hJ n p _ hn hp hi⟩
  · obtain ⟨i, hi, hmap⟩ := Option.map_eq_some_iff.mp ((h p).trans hs')
    cases i with
    | done a' => cases hmap
    | next p' =>
        cases hmap
        exact .inr ⟨p', m, hi, hm, hI', hJ n p _ hn hp hi⟩

end carry

/-! ### The states a loop comes through -/

/-- The loop comes from `s` to the state `s'`. -/
inductive Reached (body : σ → Prog (Iter σ α)) (s : σ) : σ → Prop
  | start : Reached body s s
  | next {s' s'' : σ} : Reached body s s' → Returns (body s') (.next s'') → Reached body s s''

/-- What every pass keeps holds of all states of the loop. -/
theorem Reached.invariant {body : σ → Prog (Iter σ α)} {s s' : σ} {I : σ → Prop} (h : Reached body s s')
    (hstep : ∀ s s', I s → Returns (body s) (.next s') → I s') (hI : I s) : I s' := by
  induction h with
  | start => exact hI
  | next _ hpass ih => exact hstep _ _ ih hpass

theorem Reached.head {body : σ → Prog (Iter σ α)} {s s₁ s' : σ} (h : Reached body s₁ s')
    (hpass : Returns (body s) (.next s₁)) : Reached body s s' := by
  induction h with
  | start => exact .next .start hpass
  | next _ hpass' ih => exact .next ih hpass'

/-- A loop that returns has come to a state in which it leaves. -/
theorem Returns.reached {body : σ → Prog (Iter σ α)} {s : σ} {a : α} (h : Returns (Prog.iterate body s) a) :
    ∃ s', Reached body s s' ∧ Returns (body s') (.done a) := by
  obtain ⟨n, hn⟩ := h
  have hpasses : ∀ k s, passes body n k s = some a → ∃ s', Reached body s s' ∧ Returns (body s') (.done a) := by
    intro k
    induction k with
    | zero =>
        intro s hk
        cases hk
    | succ k ih =>
        intro s hk
        rw [passes] at hk
        cases hb : (body s).run n with
        | none =>
            rw [hb] at hk
            cases hk
        | some r =>
            rw [hb] at hk
            cases r with
            | done b =>
                cases hk
                exact ⟨s, .start, n, hb⟩
            | next s₁ =>
                obtain ⟨s', hs', hdone⟩ := ih s₁ hk
                exact ⟨s', hs'.head ⟨n, hb⟩, hdone⟩
  exact hpasses n s hn

/-- What a loop returns, it returns from every state that it comes through. -/
theorem Reached.returns_iff {body : σ → Prog (Iter σ α)} {s s' : σ} {a : α} (h : Reached body s s') :
    Returns (Prog.iterate body s) a ↔ Returns (Prog.iterate body s') a := by
  induction h with
  | start => exact Iff.rfl
  | next _ hpass ih => exact ih.trans (returns_iterate_next hpass)

/-- A loop whose passes keep `I` and go on returns nothing. -/
theorem not_returns_iterate {body : σ → Prog (Iter σ α)} (I : σ → Prop)
    (hstep : ∀ s, I s → ∃ s', Returns (body s) (.next s') ∧ I s') {s : σ} (hI : I s) (a : α) :
    ¬ Returns (Prog.iterate body s) a := by
  intro h
  obtain ⟨s', hreached, hdone⟩ := h.reached
  have hs' : I s' := by
    refine hreached.invariant (fun s₁ s₂ h₁ hpass => ?_) hI
    obtain ⟨s₃, hnext, h₃⟩ := hstep s₁ h₁
    cases hpass.unique hnext
    exact h₃
  obtain ⟨s'', hnext, -⟩ := hstep s' hs'
  cases hdone.unique hnext

end Prog
end Libls
