import Libls.AtomicBits

/-! # What threads can rely on

A pass of a loop fails only because another thread has changed the word (`retries_le`).  The calls of a run that have
all returned are those of the functions of `non-atomic.h` one after the other (`atomic_order`), and so the bit of a run
is what the calls that have found it clear and those that have found it set leave of it (`atomic_balance`). -/

namespace Libls.Bitmaps.Atomic

variable {T : Type} [DecidableEq T] {bits : ℕ} {s s' : State T} {a : Bitmap bits} {ls : List (Label T)} {l : Label T}

/-! ### Passes that fail -/

/-- The thread `t` has to start again with a word. -/
def Label.fails (t : T) (p : ℕ) : Label T → Bool
  | retry u c => u = t ∧ c.p = p
  | _ => false

/-- Another thread than `t` changes a word. -/
def Label.disturbs (t : T) (p : ℕ) : Label T → Bool
  | swap u c old => u ≠ t ∧ c.p = p ∧ c.val old ≠ old
  | _ => false

/-- Whether the word that `t` has loaded is another one now. -/
def State.stale (s : State T) (t : T) (p : ℕ) : ℕ :=
  match s.pc t with
  | .swap c old => if c.p = p ∧ s.mem.read p ≠ some old then 1 else 0
  | _ => 0

omit [DecidableEq T] in
theorem stale_le_one (s : State T) (t : T) (p : ℕ) : s.stale t p ≤ 1 := by
  unfold State.stale
  split
  · split
    · exact Nat.le_refl 1
    · exact Nat.zero_le 1
  · exact Nat.zero_le 1

omit [DecidableEq T] in
theorem stale_congr {t : T} {p : ℕ} (hpc : s'.pc t = s.pc t) (hmem : s'.mem.read p = s.mem.read p) :
    s'.stale t p = s.stale t p := by
  unfold State.stale
  rw [hpc, hmem]

@[simp] theorem goto_mem (s : State T) (t : T) (pc : Pc) : (s.goto t pc).mem = s.mem := rfl

@[simp] theorem goto_self (s : State T) (t : T) (pc : Pc) : (s.goto t pc).pc t = pc := by
  unfold State.goto
  exact Function.update_self ..

theorem goto_of_ne (s : State T) {t u : T} (pc : Pc) (h : u ≠ t) : (s.goto t pc).pc u = s.pc u := by
  unfold State.goto
  exact Function.update_of_ne h ..

/-- What a step adds to the passes that have failed, and to the changes that made them fail. -/
theorem stale_step (h : Step bits s l s') (t : T) (p : ℕ) :
    (l.fails t p).toNat + s'.stale t p ≤ (l.disturbs t p).toNat + s.stale t p := by
  cases h.moves with
  | @call u c hpc hnr =>
      by_cases hu : t = u
      · subst hu
        simp [Label.fails, Label.disturbs, State.stale]
      · simp [Label.fails, Label.disturbs, stale_congr (goto_of_ne s _ hu) rfl]
  | @load u c old hpc hread =>
      by_cases hu : t = u
      · subst hu
        have hfresh : (s.goto t (.swap c old)).stale t p = 0 := by
          unfold State.stale
          rw [goto_self]
          exact if_neg fun h => h.2 (h.1 ▸ hread)
        rw [hfresh]
        exact Nat.zero_le _
      · simp [Label.fails, Label.disturbs, stale_congr (goto_of_ne s _ hu) rfl]
  | @swap u c old mem hpc hread hwrite =>
      by_cases hu : t = u
      · subst hu
        simp [Label.fails, Label.disturbs, State.stale]
      · by_cases hchange : c.p = p ∧ c.val old ≠ old
        · have hdisturbs : (Label.swap u c old).disturbs t p = true := decide_eq_true ⟨Ne.symm hu, hchange⟩
          rw [hdisturbs]
          exact Nat.le_trans (Nat.add_le_add_left (stale_le_one _ t p) _) (Nat.le_add_right 1 _)
        · have hmem : mem.read p = s.mem.read p := by
            obtain ⟨mem', hwrite', -, hread'⟩ := Block.write_of_lt (Block.lt_of_read hread) (c.val old)
            rw [hwrite] at hwrite'
            cases hwrite'
            rw [hread']
            by_cases hp : p = c.p
            · rw [if_pos hp, hp, hread]
              by_contra hne
              exact hchange ⟨hp.symm, fun h => hne (congrArg some h)⟩
            · exact if_neg hp
          rw [stale_congr (s := s) (goto_of_ne ⟨mem, s.pc⟩ _ hu) hmem]
          simp [Label.fails]
  | @retry u c old was hpc hread hne =>
      by_cases hu : t = u
      · subst hu
        by_cases hp : c.p = p
        · subst hp
          have hstale : s.stale t c.p = 1 := by
            unfold State.stale
            rw [hpc]
            apply if_pos
            refine ⟨rfl, fun h => hne ?_⟩
            rw [hread] at h
            exact Option.some.inj h
          have hfresh : (s.goto t (.top c)).stale t c.p = 0 := by
            unfold State.stale
            rw [goto_self]
          rw [hstale, hfresh]
          exact Nat.le_trans (Bool.toNat_le _) (Nat.le_add_left 1 _)
        · simp [Label.fails, Label.disturbs, State.stale, hp]
      · have hfails : (Label.retry u c).fails t p = false := decide_eq_false fun h => hu h.1.symm
        rw [hfails, stale_congr (s := s) (goto_of_ne s _ hu) rfl]
        simp [Label.disturbs]
  | @ret u c result hpc =>
      by_cases hu : t = u
      · subst hu
        simp [Label.fails, Label.disturbs, State.stale]
      · simp [Label.fails, Label.disturbs, stale_congr (goto_of_ne s _ hu) rfl]

theorem countP_snoc {α : Type} (p : α → Bool) (as : List α) (x : α) : (as ++ [x]).countP p = as.countP p + (p x).toNat := by
  rw [List.countP_append, List.countP_singleton]
  cases p x <;> rfl

/-- **Other threads are to blame.**  In every run and for every word, a thread has to start again at most as often as
other threads have changed the word. -/
theorem retries_le (h : Run (Step bits) (start a) ls s) (t : T) (p : ℕ) :
    ls.countP (Label.fails t p) ≤ ls.countP (Label.disturbs t p) := by
  have hI : ls.countP (Label.fails t p) + s.stale t p ≤ ls.countP (Label.disturbs t p) := by
    apply h.history (I := fun ls s => ls.countP (Label.fails t p) + s.stale t p ≤ ls.countP (Label.disturbs t p))
    · intro as s l s' hstep hI
      have hone := stale_step hstep t p
      rw [countP_snoc, countP_snoc]
      omega
    · exact Nat.le_refl 0
  exact Nat.le_trans (Nat.le_add_right _ _) hI

theorem retries_le_race : race.countP (Label.fails false 0) ≤ race.countP (Label.disturbs false 0) := by
  obtain ⟨s, h, -⟩ := run_race
  exact retries_le h false 0

/-! ### One call after the other -/

/-- A call that has returned. -/
structure Returned (T : Type) where
  t : T
  c : Call
  result : Option Bool
deriving DecidableEq

def Label.returned : Label T → Option (Returned T)
  | ret t c result => some ⟨t, c, result⟩
  | _ => none

namespace Whole

def Label.returned : Label T → Option (Returned T)
  | ret t c result => some ⟨t, c, result⟩
  | _ => none

def Label.applied : Label T → Option (Returned T)
  | apply t c result => some ⟨t, c, result⟩
  | _ => none

end Whole

/-- The calls one after the other, each of which returns what it is said to return. -/
def sequential (mem : Block Word) : List (Returned T) → Option (Block Word)
  | [] => some mem
  | r :: rest => do
      let (mem, result) ← r.c.whole mem
      if result = r.result then sequential mem rest else none

variable {w w' : Whole.State T} {ws : List (Whole.Label T)}

theorem sequential_applied (h : Run (Whole.Step bits) w ws w') :
    sequential w.mem (ws.filterMap Whole.Label.applied) = some w'.mem := by
  induction h with
  | nil w => rfl
  | @cons w w₁ w' l ws hstep _ ih =>
      cases hstep with
      | call hpc hnr => exact ih
      | @apply t c mem result hpc hwhole =>
          have happlied : (Whole.Label.apply t c result).applied = some ⟨t, c, result⟩ := rfl
          rw [List.filterMap_cons_some happlied, sequential, hwhole, Option.bind_eq_bind, Option.bind_some]
          exact (if_pos rfl).trans ih
      | ret hpc => exact ih

/-- Whether a call has taken effect and not returned. -/
def Whole.Pc.pending (pc : Whole.Pc) (c : Call) (result : Option Bool) : ℕ := if pc = done c result then 1 else 0

theorem pending_goto (w : Whole.State T) (t : T) (pc : Whole.Pc) (r : Returned T) :
    ((w.goto t pc).pc r.t).pending r.c r.result =
      if r.t = t then pc.pending r.c r.result else (w.pc r.t).pending r.c r.result := by
  unfold Whole.State.goto
  dsimp only
  by_cases ht : r.t = t
  · rw [if_pos ht, ht, Function.update_self]
  · rw [if_neg ht, Function.update_of_ne ht]

/-- A call that is pending is one that has taken effect, until it returns. -/
theorem pending_step {l : Whole.Label T} (h : Whole.Step bits w l w') (r : Returned T) :
    l.applied.toList.count r + (w.pc r.t).pending r.c r.result =
      l.returned.toList.count r + (w'.pc r.t).pending r.c r.result := by
  cases h with
  | @call t c hpc hnr =>
      rw [pending_goto]
      by_cases ht : r.t = t
      · rw [if_pos ht, ht, hpc]
        rfl
      · rw [if_neg ht]
        rfl
  | @apply t c mem result hpc hwhole =>
      rw [pending_goto]
      by_cases ht : r.t = t
      · obtain ⟨t', c', result'⟩ := r
        subst ht
        rw [if_pos rfl, hpc]
        by_cases heq : c = c' ∧ result = result'
        · obtain ⟨rfl, rfl⟩ := heq
          simp [Whole.Label.applied, Whole.Label.returned, Whole.Pc.pending]
        · simp [Whole.Label.applied, Whole.Label.returned, Whole.Pc.pending, heq]
      · have hne : ∀ x : Returned T, x.t = t → x ≠ r := fun x hx h => ht (h ▸ hx)
        rw [if_neg ht]
        simp [Whole.Label.applied, Whole.Label.returned, hne]
  | @ret t c result hpc =>
      rw [pending_goto]
      by_cases ht : r.t = t
      · obtain ⟨t', c', result'⟩ := r
        subst ht
        rw [if_pos rfl, hpc]
        by_cases heq : c = c' ∧ result = result'
        · obtain ⟨rfl, rfl⟩ := heq
          simp [Whole.Label.applied, Whole.Label.returned, Whole.Pc.pending]
        · simp [Whole.Label.applied, Whole.Label.returned, Whole.Pc.pending, heq]
      · have hne : ∀ x : Returned T, x.t = t → x ≠ r := fun x hx h => ht (h ▸ hx)
        rw [if_neg ht]
        simp [Whole.Label.applied, Whole.Label.returned, hne]

theorem filterMap_snoc {α β : Type} (f : α → Option β) (as : List α) (x : α) :
    (as ++ [x]).filterMap f = as.filterMap f ++ (f x).toList := by
  rw [List.filterMap_append]
  cases hx : f x with
  | none => rw [List.filterMap_cons_none hx, List.filterMap_nil, Option.toList_none]
  | some y => rw [List.filterMap_cons_some hx, List.filterMap_nil, Option.toList_some]

/-- In a run with no call at its ends, the calls that take effect are those that return. -/
theorem applied_perm (h : Run (Whole.Step bits) w ws w') (hidle : ∀ t, w.pc t = .idle) (hidle' : ∀ t, w'.pc t = .idle) :
    (ws.filterMap Whole.Label.applied).Perm (ws.filterMap Whole.Label.returned) := by
  rw [List.perm_iff_count]
  intro r
  have hcount : (ws.filterMap Whole.Label.applied).count r =
      (ws.filterMap Whole.Label.returned).count r + (w'.pc r.t).pending r.c r.result := by
    apply h.history (I := fun ws w => (ws.filterMap Whole.Label.applied).count r =
      (ws.filterMap Whole.Label.returned).count r + (w.pc r.t).pending r.c r.result)
    · intro ws w l w' hstep hI
      have hone := pending_step hstep r
      rw [filterMap_snoc, filterMap_snoc, List.count_append, List.count_append]
      omega
    · rw [hidle]
      rfl
  rw [hcount, hidle']
  rfl

/-- The returns of a run are seen from outside. -/
def Event.returned : Event T → Option (Returned T)
  | ret t c result => some ⟨t, c, result⟩
  | _ => none

omit [DecidableEq T] in
theorem returned_eq_of_events (h : ws.filterMap Whole.Label.event = ls.filterMap Label.event) :
    ws.filterMap Whole.Label.returned = ls.filterMap Label.returned := by
  have hwhole : (Whole.Label.returned : Whole.Label T → _) = fun l => l.event.bind Event.returned := by
    funext l
    cases l <;> rfl
  have hthreads : (Label.returned : Label T → _) = fun l => l.event.bind Event.returned := by
    funext l
    cases l <;> rfl
  rw [hwhole, hthreads, ← List.filterMap_filterMap, ← List.filterMap_filterMap, h]

/-- The calls that a run has made, in the order in which they have taken effect. -/
theorem exists_order (h : Run (Step bits) (start a) ls s) (hidle : ∀ t, s.pc t = .idle) :
    ∃ order : List (Returned T), order.Perm (ls.filterMap Label.returned) ∧ sequential a.block order = some s.mem := by
  obtain ⟨ws, hrun, hevents⟩ := run_whole h
  refine ⟨ws.filterMap Whole.Label.applied, ?_, sequential_applied hrun⟩
  rw [← returned_eq_of_events hevents]
  apply applied_perm hrun
  · intro t
    rfl
  · intro t
    exact congrArg Pc.whole (hidle t)

/-- **Calls are atomic.**  When all calls of a run have returned, their results and the memory are those of the same
calls one after the other in some order, each by the function of `non-atomic.h`. -/
theorem atomic_order (h : Run (Step bits) (start a) ls s) (hidle : ∀ t, s.pc t = .idle) :
    ∃ order : List (Returned T), order.Perm (ls.filterMap Label.returned) ∧ sequential a.block order = some s.mem :=
  exists_order h hidle

theorem atomic_order_race : ∃ s : State Bool, ∃ order : List (Returned Bool),
    order.Perm (race.filterMap Label.returned) ∧ sequential zero64.block order = some s.mem := by
  obtain ⟨s, h, hidle⟩ := run_race
  exact ⟨s, atomic_order h hidle⟩

/-! ### What is left of a bit -/

/-- A call of a function with a result. -/
def Returned.isOf (c : Call) (result : Option Bool) (r : Returned T) : Bool := r.c = c ∧ r.result = result

/-- Every call that returns has been made, with a bit of the bitmap. -/
structure Made (bits : ℕ) (ls : List (Label T)) (s : State T) : Prop where
  sound : Sound bits s
  inCall : ∀ t c, (s.pc t).inCall = some c → .call t c ∈ ls
  returned : ∀ t c result, .ret t c result ∈ ls → c.nr < bits ∧ .call t c ∈ ls

theorem inCall_goto {t u : T} {pc : Pc} {c : Call} (h : ((s.goto u pc).pc t).inCall = some c)
    (hpc : pc.inCall = some c → t = u → (s.pc t).inCall = some c) : (s.pc t).inCall = some c := by
  by_cases ht : t = u
  · subst ht
    rw [goto_self] at h
    exact hpc h rfl
  · rwa [goto_of_ne s pc ht] at h

/-- A thread is in a call because it makes the call, or was in it. -/
theorem inCall_step (h : Step bits s l s') {t : T} {c : Call} (hc : (s'.pc t).inCall = some c) :
    l = .call t c ∨ (s.pc t).inCall = some c := by
  cases h.moves with
  | @call u c' hpc hnr =>
      by_cases ht : t = u
      · subst ht
        rw [goto_self] at hc
        cases hc
        exact .inl rfl
      · rw [goto_of_ne s _ ht] at hc
        exact .inr hc
  | load hpc hread =>
      apply Or.inr (inCall_goto hc _)
      rintro hin rfl
      rwa [hpc]
  | @swap u c' old mem hpc hread hwrite =>
      apply Or.inr (@inCall_goto T _ ⟨mem, s.pc⟩ t u _ c hc _)
      rintro hin rfl
      exact (congrArg Pc.inCall hpc).trans hin
  | retry hpc hread hne =>
      apply Or.inr (inCall_goto hc _)
      rintro hin rfl
      rwa [hpc]
  | ret hpc =>
      apply Or.inr (inCall_goto hc _)
      intro hin
      cases hin

theorem Made.step (h : Made bits ls s) (hstep : Step bits s l s') : Made bits (ls ++ [l]) s' := by
  refine ⟨h.sound.step hstep, ?_, ?_⟩
  · intro t c hc
    rcases inCall_step hstep hc with rfl | hin
    · exact List.mem_append_right _ (List.mem_singleton_self _)
    · exact List.mem_append_left _ (h.inCall t c hin)
  · intro t c result hmem
    rcases List.mem_append.mp hmem with hmem | hmem
    · obtain ⟨hnr, hcall⟩ := h.returned t c result hmem
      exact ⟨hnr, List.mem_append_left _ hcall⟩
    · obtain rfl := List.mem_singleton.mp hmem
      cases hstep.moves with
      | ret hpc =>
          have hin := congrArg Pc.inCall hpc
          exact ⟨h.sound.nr t c hin, List.mem_append_left _ (h.inCall t c hin)⟩

theorem made_run (h : Run (Step bits) (start a) ls s) : Made bits ls s := by
  apply h.history (I := fun ls s => Made bits ls s)
  · intro ls s l s' hstep hI
    exact hI.step hstep
  · refine ⟨sound_start a, fun t c hc => ?_, fun t c result hmem => absurd hmem List.not_mem_nil⟩
    cases hc

omit [DecidableEq T] in
/-- What one call leaves of a bit, if it is `test_and_set_bit` or `test_and_clear_bit` when it is about that bit. -/
theorem isOf_balance {nr : ℕ} {r : Returned T} {d : Bitmap bits}
    (honly : r.c.nr = nr → r.c = testAndSetBit nr ∨ r.c = testAndClearBit nr)
    (hresult : (if r.c.tests = true then some (a.bit r.c.nr) else none) = r.result)
    (hd : ∀ i, d.bit i = if i = r.c.nr then r.c.op.bit (a.bit i) else a.bit i) :
    (a.bit nr).toNat + (r.isOf (testAndSetBit nr) (some false)).toNat =
      (d.bit nr).toNat + (r.isOf (testAndClearBit nr) (some true)).toNat := by
  obtain ⟨t, c, result⟩ := r
  dsimp only at honly hresult hd
  unfold Returned.isOf
  dsimp only
  rw [hd]
  by_cases hnr : c.nr = nr
  · rcases honly hnr with rfl | rfl
    · have hset : result = some (a.bit nr) := hresult.symm
      rw [hset, if_pos hnr.symm]
      cases a.bit nr <;> simp [testAndSetBit, testAndClearBit, Op.bit]
    · have hclear : result = some (a.bit nr) := hresult.symm
      rw [hclear, if_pos hnr.symm]
      cases a.bit nr <;> simp [testAndSetBit, testAndClearBit, Op.bit]
  · have hne : ∀ op tests, c ≠ ⟨nr, op, tests⟩ := fun op tests h => hnr (congrArg Call.nr h)
    rw [if_neg (Ne.symm hnr)]
    simp [testAndSetBit, testAndClearBit, hne]

omit [DecidableEq T] in
/-- What the calls one after the other leave of a bit. -/
theorem sequential_balance {nr : ℕ} {order : List (Returned T)} {mem : Block Word} (h : sequential a.block order = some mem)
    (hnr : ∀ r ∈ order, r.c.nr < bits)
    (honly : ∀ r ∈ order, r.c.nr = nr → r.c = testAndSetBit nr ∨ r.c = testAndClearBit nr) :
    ∃ d : Bitmap bits, mem = d.block ∧ (a.bit nr).toNat + order.countP (Returned.isOf (testAndSetBit nr) (some false)) =
      (d.bit nr).toNat + order.countP (Returned.isOf (testAndClearBit nr) (some true)) := by
  induction order generalizing a with
  | nil =>
      cases h
      exact ⟨a, rfl, rfl⟩
  | cons r rest ih =>
      obtain ⟨a₁, hwhole, ha₁⟩ := whole_spec r.c a (hnr r List.mem_cons_self)
      rw [sequential, hwhole, Option.bind_eq_bind, Option.bind_some] at h
      dsimp only at h
      by_cases hresult : (if r.c.tests = true then some (a.bit r.c.nr) else none) = r.result
      · rw [if_pos hresult] at h
        obtain ⟨d, rfl, hd⟩ := ih h (fun x hx => hnr x (List.mem_cons_of_mem _ hx))
          (fun x hx => honly x (List.mem_cons_of_mem _ hx))
        have hone := isOf_balance (honly r List.mem_cons_self) hresult ha₁
        have hif : ∀ b : Bool, (if b = true then 1 else 0) = b.toNat := by decide
        refine ⟨d, rfl, ?_⟩
        rw [List.countP_cons, List.countP_cons, hif, hif]
        omega
      · rw [if_neg hresult] at h
        cases h

omit [DecidableEq T] in
theorem mem_returned {r : Returned T} (h : r ∈ ls.filterMap Label.returned) : .ret r.t r.c r.result ∈ ls := by
  obtain ⟨l, hl, hr⟩ := List.mem_filterMap.mp h
  cases l with
  | ret t c result =>
      cases hr
      exact hl
  | call t c => cases hr
  | load t => cases hr
  | swap t c old => cases hr
  | retry t c => cases hr

/-- **No update is lost.**  When all calls of a run have returned, and those for the bit `nr` were `test_and_set_bit`
and `test_and_clear_bit`: the calls that have found the bit clear when they have set it outnumber those that have found
it set when they have cleared it by what the bit has become more than it was.  In particular at most one of any number
of calls of `test_and_set_bit` finds the bit clear, if nothing clears it. -/
theorem atomic_balance (h : Run (Step bits) (start a) ls s) (hidle : ∀ t, s.pc t = .idle) {nr : ℕ}
    (honly : ∀ t c, .call t c ∈ ls → c.nr = nr → c = testAndSetBit nr ∨ c = testAndClearBit nr) :
    ∃ d : Bitmap bits, s.mem = d.block ∧
      (a.bit nr).toNat + (ls.filterMap Label.returned).countP (Returned.isOf (testAndSetBit nr) (some false)) =
        (d.bit nr).toNat + (ls.filterMap Label.returned).countP (Returned.isOf (testAndClearBit nr) (some true)) := by
  obtain ⟨order, hperm, horder⟩ := exists_order h hidle
  have hmade := made_run h
  have hmem : ∀ r ∈ order, r.c.nr < bits ∧ .call r.t r.c ∈ ls := fun r hr =>
    hmade.returned _ _ _ (mem_returned (hperm.mem_iff.mp hr))
  obtain ⟨d, hd, hbalance⟩ := sequential_balance horder (fun r hr => (hmem r hr).1)
    (fun r hr => honly _ _ (hmem r hr).2)
  rw [hperm.countP_eq, hperm.countP_eq] at hbalance
  exact ⟨d, hd, hbalance⟩

theorem atomic_balance_race : ∃ s : State Bool, ∃ d : Bitmap 64, s.mem = d.block ∧
    (zero64.bit 3).toNat + (race.filterMap Label.returned).countP (Returned.isOf (testAndSetBit 3) (some false)) =
      (d.bit 3).toNat + (race.filterMap Label.returned).countP (Returned.isOf (testAndClearBit 3) (some true)) := by
  obtain ⟨s, h, hidle⟩ := run_race
  refine ⟨s, atomic_balance h hidle ?_⟩
  intro t c hmem _
  simp only [race, List.mem_cons, Label.call.injEq, reduceCtorEq, or_false, List.not_mem_nil] at hmem
  rcases hmem with ⟨-, rfl⟩ | ⟨-, rfl⟩ <;> exact .inl rfl

end Libls.Bitmaps.Atomic
