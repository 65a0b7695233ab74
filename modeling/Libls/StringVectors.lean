import Libls.Strings
import Libls.Library.Runs

/-! # What `strv_append3` does when memory runs out

A call may find no memory for the array (`reallocOk`) or for the string (`strndupOk`).  In the second case
it has counted the entry already, and leaves a null pointer there.  `append_all_or_nothing_iff` says which
calls add their string or change nothing: all that meet neither this nor an array of `2 ^ 31` entries that
is to be doubled. -/

namespace Libls.Strings

/-- A call of `strv_append3`, with what its two allocations do. -/
structure Call where
  reallocOk : Bool
  strndupOk : Bool
  str : List Byte
  len : ℤ

/-- What is added of the argument: up to `len` characters of the string. -/
def Call.added (c : Call) : List Byte := (c.str.takeWhile (· ≠ 0)).take (toSize c.len)

def Call.exec (c : Call) (sv : Strv) : Option (Strv × ℤ) :=
  strvAppend3 c.reallocOk c.strndupOk sv c.str c.len

/-- A call that returns, with whatever code. -/
def Call.Step (sv : Strv) (c : Call) (sv' : Strv) : Prop := ∃ ret, c.exec sv = some (sv', ret)

/-- The vector holds strings before the call, and afterwards those and the new one, or still the same. -/
def AllOrNothing (c : Call) (sv : Strv) : Prop :=
  ∃ fs sv' ret, sv.Holds fs ∧ c.exec sv = some (sv', ret) ∧
    ((ret = 0 ∧ sv'.Holds (fs ++ [c.added])) ∨ (ret = -1 ∧ sv'.len = sv.len ∧ sv'.Holds fs))

/-- If there is room for an entry, or `realloc` makes some, then the string is copied, and an array that is
doubled has fewer than `2 ^ 31` entries. -/
def Call.Granted (c : Call) (sv : Strv) : Prop :=
  (sv.len < sv.size ∨ c.reallocOk = true) → c.strndupOk = true ∧ (sv.len < sv.size ∨ sv.size < 2 ^ 31)

variable {sv sv' : Strv} {fs : List (List Byte)} {c : Call} {cs : List Call}

theorem strndup_eq_take (str : List Byte) (n : ℕ) : strndup str n = (str.takeWhile (· ≠ 0)).take n := by
  unfold strndup
  induction str generalizing n with
  | nil => simp
  | cons b str ih =>
      cases n with
      | zero => simp
      | succ n =>
          by_cases hb : b = 0
          · simp [hb]
          · simpa [hb] using ih n

/-! ### The array -/

/-- An array that has room is left as it is. -/
theorem strvGrow_room (ok : Bool) (h : sv.len < sv.size) : strvGrow ok sv = some sv := if_neg (Nat.not_le.mpr h)

theorem strvGrow_full (h : sv.size ≤ sv.len) : strvGrow false sv = none := by
  unfold strvGrow
  rw [if_pos h]
  rfl

/-- Doubling a full array. -/
theorem strvGrow_double (h : sv.Holds fs) (hfull : sv.size ≤ sv.len) (hlt : sv.size < 2 ^ 31) :
    ∃ sv', strvGrow true sv = some sv' ∧ sv'.Holds fs ∧ sv'.len < sv'.size ∧ sv'.size < 2 ^ 32 := by
  have hfits := h.fits
  have hlen := h.len
  obtain ⟨sv', hg, hh, hroom⟩ := strvGrow_holds h (by omega)
  refine ⟨sv', hg, hh, hroom, ?_⟩
  unfold strvGrow at hg
  rw [if_pos hfull, u32_of_lt (by omega)] at hg
  cases hg
  show (if sv.size * 2 = 0 then 1 else sv.size * 2) < 2 ^ 32
  split <;> omega

/-- The double of a larger array is no longer than its strings. -/
theorem strvGrow_wraps (hfull : sv.size ≤ sv.len) (hge : 2 ^ 31 ≤ sv.size)
    (hlt : sv.size < 2 ^ 32) : ∃ sv', strvGrow true sv = some sv' ∧ sv'.len = sv.len ∧ sv'.strv.size ≤ sv.len := by
  have hu : u32 (sv.size * 2) ≤ sv.size := by
    unfold u32
    omega
  unfold strvGrow
  rw [if_pos hfull]
  refine ⟨_, rfl, rfl, ?_⟩
  simp only [Block.size_realloc]
  split <;> omega

/-! ### One call -/

/-- With room for an entry, all depends on `strndup`. -/
theorem allOrNothing_room {sv₁ : Strv} (h : sv.Holds fs) (hg : strvGrow c.reallocOk sv = some sv₁) (h₁ : sv₁.Holds fs)
    (hroom : sv₁.len < sv₁.size) (hlt : sv₁.size < 2 ^ 32) : AllOrNothing c sv ↔ c.strndupOk = true := by
  have hlen : sv₁.len = sv.len := h₁.len.trans h.len.symm
  obtain ⟨sv', hexec, hlen', -, hh⟩ := strvAppend3_room hg h₁ hroom (by omega) c.strndupOk c.str c.len
  constructor
  · rintro ⟨fs', sv'', ret, -, hexec', hret⟩
    cases hexec.symm.trans hexec'
    cases hdup : c.strndupOk with
    | true => rfl
    | false =>
        rw [hdup] at hret
        obtain ⟨hret, -⟩ | ⟨-, hkept, -⟩ := hret
        · simp at hret
        · omega
  · intro hdup
    refine ⟨fs, sv', 0, h, by rw [Call.exec, hexec, if_pos hdup], .inl ⟨rfl, ?_⟩⟩
    rw [Call.added, ← strndup_eq_take]
    exact hh hdup

/-- A call on a vector of strings is all or nothing if and only if it is granted. -/
theorem allOrNothing_iff (h : sv.Holds fs) (hlt : sv.size < 2 ^ 32) : AllOrNothing c sv ↔ c.Granted sv := by
  have hfits := h.fits
  by_cases hroom : sv.len < sv.size
  · rw [allOrNothing_room h (strvGrow_room _ hroom) h hroom hlt]
    exact ⟨fun hdup _ => ⟨hdup, .inl hroom⟩, fun hgr => (hgr (.inl hroom)).1⟩
  · have hfull : sv.size ≤ sv.len := Nat.le_of_not_lt hroom
    cases hok : c.reallocOk with
    | false =>
        -- nothing has changed yet when `realloc` fails
        have hexec : c.exec sv = some (sv, -1) := by
          unfold Call.exec strvAppend3
          rw [hok, strvGrow_full hfull]
        refine ⟨fun _ hgr => ?_, fun _ => ⟨fs, sv, -1, h, hexec, .inr ⟨rfl, rfl, h⟩⟩⟩
        rw [hok] at hgr
        exact absurd hgr (by simp [hroom])
    | true =>
        by_cases hsmall : sv.size < 2 ^ 31
        · obtain ⟨sv₁, hg, h₁, hroom₁, hlt₁⟩ := strvGrow_double h hfull hsmall
          rw [allOrNothing_room h (by rw [hok]; exact hg) h₁ hroom₁ hlt₁]
          exact ⟨fun hdup _ => ⟨hdup, .inr hsmall⟩, fun hgr => (hgr (.inr hok)).1⟩
        · -- the write is behind the array
          obtain ⟨sv₁, hg, hlen₁, hsz₁⟩ := strvGrow_wraps hfull (Nat.le_of_not_lt hsmall) hlt
          have hexec : c.exec sv = none := by
            have hout : ∀ v, sv₁.strv.write sv₁.len v = none := fun v => if_neg (by omega)
            unfold Call.exec strvAppend3
            simp only [hok, hg, hout]
            rfl
          constructor
          · rintro ⟨fs', sv', ret, -, hexec', -⟩
            cases hexec.symm.trans hexec'
          · intro hgr
            obtain ⟨-, hlt' | hlt'⟩ := hgr (.inr hok)
            · exact absurd hlt' hroom
            · exact absurd hlt' hsmall

/-! ### All runs -/

/-- What a run keeps as long as its calls are granted. -/
def Good (sv : Strv) : Prop := sv.size < 2 ^ 32 ∧ ∃ fs, sv.Holds fs

theorem strvGrow_size {ok : Bool} (h : strvGrow ok sv = some sv') (hlt : sv.size < 2 ^ 32) : sv'.size < 2 ^ 32 := by
  unfold strvGrow at h
  split_ifs at h
  · cases h
    show (if u32 (sv.size * 2) = 0 then 1 else u32 (sv.size * 2)) < 2 ^ 32
    unfold u32
    split <;> omega
  · cases h
    exact hlt

theorem exec_size {ret : ℤ} (h : c.exec sv = some (sv', ret)) (hlt : sv.size < 2 ^ 32) : sv'.size < 2 ^ 32 := by
  unfold Call.exec strvAppend3 at h
  cases hg : strvGrow c.reallocOk sv with
  | none =>
      rw [hg] at h
      cases h
      exact hlt
  | some sv₁ =>
      rw [hg] at h
      obtain ⟨b, hb, h⟩ := Option.bind_eq_some_iff.mp h
      cases h
      exact (strvGrow_size hg hlt : sv₁.size < 2 ^ 32)

theorem Good.step (h : Good sv) (hc : AllOrNothing c sv) (hs : c.Step sv sv') : Good sv' := by
  obtain ⟨fs, sv'', ret, -, hexec, hret⟩ := hc
  obtain ⟨ret', hexec'⟩ := hs
  cases hexec.symm.trans hexec'
  refine ⟨exec_size hexec h.1, ?_⟩
  obtain ⟨-, hh⟩ | ⟨-, -, hh⟩ := hret
  · exact ⟨_, hh⟩
  · exact ⟨_, hh⟩

/-- `P` holds of each call of the run `cs`, in the state before it. -/
def EachCall (P : Call → Strv → Prop) (cs : List Call) : Prop :=
  ∀ A c B sv, cs = A ++ c :: B → Libls.Run Call.Step strvInit A sv → P c sv

/-- A run all of whose calls are all or nothing keeps the vector good. -/
theorem Good.of_run (hP : EachCall AllOrNothing cs) {A B : List Call} (hcs : cs = A ++ B)
    (hr : Libls.Run Call.Step strvInit A sv) : Good sv := by
  induction A using List.reverseRecOn generalizing B sv with
  | nil =>
      cases hr
      exact ⟨by decide, [], strvInit_holds⟩
  | append_singleton A c ih =>
      obtain ⟨sv₁, h₁, h₂⟩ := hr.of_append
      have hc : AllOrNothing c sv₁ := hP A c B sv₁ (by rw [hcs, List.append_assoc]; rfl) h₁
      cases h₂ with
      | cons hs hnil =>
          cases hnil
          exact (ih (by rw [hcs, List.append_assoc]) h₁).step hc hs

/-- If the calls before are granted, they are all or nothing. -/
theorem EachCall.allOrNothing (hP : EachCall Call.Granted cs) : EachCall AllOrNothing cs := by
  induction cs using List.reverseRecOn with
  | nil =>
      intro A c B sv hcs
      cases A <;> cases hcs
  | append_singleton cs d ih =>
      have hbefore : EachCall AllOrNothing cs := by
        apply ih
        intro A c B sv hcs hr
        apply hP A c (B ++ [d]) sv _ hr
        rw [hcs]
        simp
      intro A c B sv hcs hr
      cases B using List.reverseRecOn with
      | nil =>
          obtain ⟨rfl, -⟩ := List.append_inj' hcs rfl
          obtain ⟨hlt, fs, hh⟩ := Good.of_run hbefore (List.append_nil cs).symm hr
          exact (allOrNothing_iff hh hlt).mpr (hP cs c [] sv hcs hr)
      | append_singleton B b =>
          rw [← List.cons_append, ← List.append_assoc] at hcs
          obtain ⟨rfl, -⟩ := List.append_inj' hcs rfl
          exact hbefore A c B sv rfl hr

/-- **All or nothing.**  In a run from `strv_init`, each call adds its string or changes nothing if and only
if each call is granted. -/
theorem append_all_or_nothing_iff (cs : List Call) : EachCall AllOrNothing cs ↔ EachCall Call.Granted cs := by
  constructor
  · intro hP A c B sv hcs hr
    obtain ⟨hlt, fs, hh⟩ := Good.of_run hP hcs hr
    exact (allOrNothing_iff hh hlt).mp (hP A c B sv hcs hr)
  · exact EachCall.allOrNothing

/-- Where `strndup` fails, the entry has been counted. -/
theorem append_counts_entry : ∃ sv', Call.exec ⟨true, false, [97, 0], 1⟩ strvInit = some (sv', -1) ∧ sv'.len = 1 ∧
    sv'.strv.read 0 = some none ∧ ¬ EachCall AllOrNothing [⟨true, false, [97, 0], 1⟩] := by
  refine ⟨⟨⟨[some none]⟩, 1, 1⟩, rfl, rfl, rfl, fun hP => ?_⟩
  obtain ⟨fs, sv', ret, -, hexec, hret⟩ := hP [] ⟨true, false, [97, 0], 1⟩ [] strvInit rfl (.nil _)
  cases hexec
  obtain ⟨hret, -⟩ | ⟨-, hlen, -⟩ := hret
  · cases hret
  · cases hlen

end Libls.Strings
