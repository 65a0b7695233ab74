import Mathlib.Data.List.Nodup
import Mathlib.Data.List.Basic

/-! # Lists of nodes whose predecessor is a pointer to a pointer

A slot is a place that holds the address of a node or none: the first pointer of a head, or the next
pointer of a node.  `R p x` says that the slot `p` holds `x`, and that `x` knows it; `E p` says that `p`
holds nothing.  A list is followed from its slot to slot (`Leads`).  Inserting, removing and moving are all the
same step: one slot takes over what another one held (`TakesOver`). -/

namespace Libls

/-- A pointer to a node, by the place where it is stored. -/
inductive Slot (κ ι : Type) where
  | first (h : κ)
  | next (x : ι)
deriving DecidableEq, Repr

namespace Slot

variable {κ ι : Type} {R R' : Slot κ ι → ι → Prop} {E E' : Slot κ ι → Prop} {p q : Slot κ ι} {x : ι} {as bs xs : List ι}

/-- From the slot `p`, the nodes `xs` follow each other, up to an empty slot. -/
def Leads (R : Slot κ ι → ι → Prop) (E : Slot κ ι → Prop) : Slot κ ι → List ι → Prop
  | p, [] => E p
  | p, x :: xs => R p x ∧ Leads R E (.next x) xs

/-- From the slot `p`, the nodes `xs` follow each other. -/
def Through (R : Slot κ ι → ι → Prop) : Slot κ ι → List ι → Prop
  | _, [] => True
  | p, x :: xs => R p x ∧ Through R (.next x) xs

/-- The slot behind the nodes `xs`. -/
def behind : Slot κ ι → List ι → Slot κ ι
  | p, [] => p
  | _, x :: xs => behind (.next x) xs

theorem leads_append : ∀ {p : Slot κ ι} {as : List ι},
    Leads R E p (as ++ bs) ↔ Through R p as ∧ Leads R E (behind p as) bs
  | _, [] => by simp [Through, behind]
  | _, x :: as => by rw [List.cons_append, Leads, Through, behind, leads_append, and_assoc]

theorem behind_mem : ∀ (p : Slot κ ι) (as : List ι), behind p as = p ∨ ∃ x ∈ as, behind p as = .next x
  | _, [] => .inl rfl
  | _, x :: as => by
      rcases behind_mem (.next x) as with h | ⟨y, hy, h⟩
      · exact .inr ⟨x, List.mem_cons_self, h⟩
      · exact .inr ⟨y, List.mem_cons_of_mem x hy, h⟩

theorem behind_concat : ∀ (p : Slot κ ι) (as : List ι), behind p (as ++ [x]) = .next x
  | _, [] => rfl
  | _, y :: as => behind_concat (.next y) as

/-- What the slots of a list hold is all that matters. -/
theorem Leads.congr (h : Leads R E p xs) (hp : (∀ x ∈ xs, R p x → R' p x) ∧ (E p → E' p))
    (hxs : ∀ y ∈ xs, (∀ x ∈ xs, R (.next y) x → R' (.next y) x) ∧ (E (.next y) → E' (.next y))) :
    Leads R' E' p xs := by
  induction xs generalizing p with
  | nil => exact hp.2 h
  | cons x xs ih =>
      refine ⟨hp.1 x List.mem_cons_self h.1, ih h.2 ?_ ?_⟩
      · exact ⟨fun z hz => (hxs x List.mem_cons_self).1 z (List.mem_cons_of_mem x hz), (hxs x List.mem_cons_self).2⟩
      · intro y hy
        have hy' := hxs y (List.mem_cons_of_mem x hy)
        exact ⟨fun z hz => hy'.1 z (List.mem_cons_of_mem x hz), hy'.2⟩

/-- The way up to the slot behind `as` does not come through that slot. -/
theorem Through.congr : ∀ {r : Slot κ ι} {as : List ι}, Through R r as →
    (∀ s x, R s x → s ≠ behind r as → s ≠ q → R' s x) → r ∉ as.map Slot.next → as.Nodup → r ≠ q →
    (∀ y ∈ as, Slot.next y ≠ q) → Through R' r as
  | _, [], _, _, _, _, _, _ => trivial
  | r, x :: as, h, hkeep, hr, hnd, hrq, hq => by
      obtain ⟨hx, has⟩ := List.nodup_cons.mp hnd
      obtain ⟨hxq, hasq⟩ := List.forall_mem_cons.mp hq
      have hrb : r ≠ behind r (x :: as) := by
        intro heq
        rcases behind_mem (.next x) as with hb | ⟨y, hy, hb⟩
        · exact hr (List.mem_map.mpr ⟨x, List.mem_cons_self, (heq.trans hb).symm⟩)
        · exact hr (List.mem_map.mpr ⟨y, List.mem_cons_of_mem x hy, (heq.trans hb).symm⟩)
      refine ⟨hkeep r x h.1 hrb hrq, Through.congr h.2 hkeep ?_ has hxq hasq⟩
      intro hmem
      obtain ⟨y, hy, hyx⟩ := List.mem_map.mp hmem
      cases hyx
      exact hx hy

/-- `q` now holds what `p` held, and no other slot has changed. -/
structure TakesOver (R : Slot κ ι → ι → Prop) (E : Slot κ ι → Prop) (R' : Slot κ ι → ι → Prop) (E' : Slot κ ι → Prop)
    (p q : Slot κ ι) : Prop where
  held : ∀ x, R p x → R' q x
  empty : E p → E' q
  keep : ∀ r x, R r x → r ≠ p → r ≠ q → R' r x
  keepEmpty : ∀ r, E r → r ≠ p → r ≠ q → E' r

namespace TakesOver

/-- A list that does not come through `p` or `q` stays. -/
theorem frame (ht : TakesOver R E R' E' p q) {r : Slot κ ι} (h : Leads R E r xs) (hp : r ≠ p) (hq : r ≠ q)
    (hxs : ∀ y ∈ xs, Slot.next y ≠ p ∧ Slot.next y ≠ q) : Leads R' E' r xs :=
  h.congr ⟨fun x _ hx => ht.keep r x hx hp hq, fun he => ht.keepEmpty r he hp hq⟩ fun y hy =>
    ⟨fun x _ hx => ht.keep _ x hx (hxs y hy).1 (hxs y hy).2, fun he => ht.keepEmpty _ he (hxs y hy).1 (hxs y hy).2⟩

/-- The list from `p` on is now the list from `q` on. -/
theorem leads (ht : TakesOver R E R' E' p q) (h : Leads R E p xs) (hxs : ∀ y ∈ xs, Slot.next y ≠ p ∧ Slot.next y ≠ q) :
    Leads R' E' q xs := by
  cases xs with
  | nil => exact ht.empty h
  | cons x xs =>
      obtain ⟨hx, hrest⟩ := List.forall_mem_cons.mp hxs
      exact ⟨ht.held x h.1, ht.frame h.2 hx.1 hx.2 hrest⟩

end TakesOver
end Slot

/-! ### Families of lists -/

/-- The lists of the heads in use. -/
abbrev HeadLists (κ ι : Type) := κ → Option (List ι)

namespace HeadLists

variable {κ ι : Type} {H : HeadLists κ ι} {h h' : κ} {x : ι} {o : Option (List ι)}

/-- `x` is in no list. -/
def Free (H : HeadLists κ ι) (x : ι) : Prop := ∀ h xs, H h = some xs → x ∉ xs

variable [DecidableEq κ]

def set (H : HeadLists κ ι) (h : κ) (o : Option (List ι)) : HeadLists κ ι := fun k => if k = h then o else H k

@[simp] theorem set_self : H.set h o h = o := if_pos rfl

theorem set_ne (hne : h' ≠ h) : H.set h o h' = H h' := if_neg hne

theorem Free.set (hfree : H.Free x) (ho : ∀ xs, o = some xs → x ∉ xs) : (H.set h o).Free x := by
  intro h' xs hH
  rcases eq_or_ne h' h with rfl | hne
  · rw [set_self] at hH
    exact ho xs hH
  · rw [set_ne hne] at hH
    exact hfree h' xs hH

end HeadLists

open Slot in
/-- The lists of the heads, with every node in one place of one list. -/
structure SlotLists {κ ι : Type} (R : Slot κ ι → ι → Prop) (E : Slot κ ι → Prop) (H : HeadLists κ ι) : Prop where
  leads : ∀ h xs, H h = some xs → Leads R E (.first h) xs
  nodup : ∀ h xs, H h = some xs → xs.Nodup
  apart : ∀ h h' xs xs' x, H h = some xs → H h' = some xs' → x ∈ xs → x ∈ xs' → h = h'

namespace SlotLists

open Slot

variable {κ ι : Type} [DecidableEq κ] {R R' : Slot κ ι → ι → Prop} {E E' : Slot κ ι → Prop} {H : HeadLists κ ι}
  {h : κ} {x : ι} {as bs xs : List ι}

omit [DecidableEq κ] in
/-- **Frame.**  What the slots of the lists hold is all that matters. -/
theorem congr (hH : SlotLists R E H)
    (hfirst : ∀ h xs, H h = some xs → (∀ x ∈ xs, R (.first h) x → R' (.first h) x) ∧ (E (.first h) → E' (.first h)))
    (hnext : ∀ h xs y, H h = some xs → y ∈ xs →
      (∀ x ∈ xs, R (.next y) x → R' (.next y) x) ∧ (E (.next y) → E' (.next y))) : SlotLists R' E' H :=
  ⟨fun h xs hL => (hH.leads h xs hL).congr (hfirst h xs hL) fun y hy => hnext h xs y hL hy, hH.nodup, hH.apart⟩

/-- The list of `h` is exchanged for one of nodes that are in no other list. -/
theorem put (hH : SlotLists R E H) (hframe : ∀ h' xs, h' ≠ h → H h' = some xs → Leads R' E' (.first h') xs)
    (hxs : Leads R' E' (.first h) xs) (hnd : xs.Nodup) (hnew : ∀ h' ys x, h' ≠ h → H h' = some ys → x ∈ ys → x ∉ xs) :
    SlotLists R' E' (H.set h (some xs)) := by
  constructor
  · intro h' ys hys
    rcases eq_or_ne h' h with rfl | hne
    · rw [HeadLists.set_self, Option.some.injEq] at hys
      exact hys ▸ hxs
    · rw [HeadLists.set_ne hne] at hys
      exact hframe h' ys hne hys
  · intro h' ys hys
    rcases eq_or_ne h' h with rfl | hne
    · rw [HeadLists.set_self, Option.some.injEq] at hys
      exact hys ▸ hnd
    · rw [HeadLists.set_ne hne] at hys
      exact hH.nodup h' ys hys
  · intro h₁ h₂ ys₁ ys₂ x hys₁ hys₂ hx₁ hx₂
    rcases eq_or_ne h₁ h with rfl | hne₁
    · rcases eq_or_ne h₂ h₁ with rfl | hne₂
      · rfl
      · rw [HeadLists.set_self, Option.some.injEq] at hys₁
        rw [HeadLists.set_ne hne₂] at hys₂
        exact absurd (hys₁ ▸ hx₁) (hnew h₂ ys₂ x hne₂ hys₂ hx₂)
    · rw [HeadLists.set_ne hne₁] at hys₁
      rcases eq_or_ne h₂ h with rfl | hne₂
      · rw [HeadLists.set_self, Option.some.injEq] at hys₂
        exact absurd (hys₂ ▸ hx₂) (hnew h₁ ys₁ x hne₁ hys₁ hx₁)
      · rw [HeadLists.set_ne hne₂] at hys₂
        exact hH.apart h₁ h₂ ys₁ ys₂ x hys₁ hys₂ hx₁ hx₂

omit [DecidableEq κ] in
/-- The slot behind a part of the list of `h` is in no other list. -/
theorem ne_behind (hH : SlotLists R E H) (hL : H h = some (as ++ bs)) {h' : κ} (hne : h' ≠ h) (hxs : H h' = some xs) :
    Slot.first h' ≠ behind (.first h) as ∧ ∀ y ∈ xs, Slot.next y ≠ behind (.first h) as := by
  rcases behind_mem (.first h) as with hb | ⟨a, ha, hb⟩
  · rw [hb]
    refine ⟨fun heq => hne (Slot.first.inj heq), fun y _ heq => ?_⟩
    cases heq
  · rw [hb]
    refine ⟨(fun heq => by cases heq), fun y hy heq => ?_⟩
    cases heq
    exact hne (hH.apart h' h _ _ a hxs hL hy (List.mem_append_left bs ha))

omit [DecidableEq κ] in
/-- It is not behind the nodes of the rest either. -/
theorem ne_behind_rest (hH : SlotLists R E H) (hL : H h = some (as ++ bs)) :
    ∀ y ∈ bs, Slot.next y ≠ behind (.first h) as := by
  intro y hy heq
  rcases behind_mem (.first h) as with hb | ⟨a, ha, hb⟩
  · rw [hb] at heq
    cases heq
  · rw [hb] at heq
    cases heq
    exact List.disjoint_of_nodup_append (hH.nodup h _ hL) ha hy

/-- **Insertion** at the slot behind `as`. -/
theorem insert (hH : SlotLists R E H) (hL : H h = some (as ++ bs)) (hfree : H.Free x)
    (ht : TakesOver R E R' E' (behind (.first h) as) (.next x)) (hx : R' (behind (.first h) as) x) :
    SlotLists R' E' (H.set h (some (as ++ x :: bs))) := by
  obtain ⟨hthrough, hrest⟩ := leads_append.mp (hH.leads h _ hL)
  have hnd := hH.nodup h _ hL
  have hnot := hfree h _ hL
  have hne : ∀ {ys : List ι}, x ∉ ys → ∀ y ∈ ys, (Slot.next y : Slot κ ι) ≠ .next x := by
    intro ys hx y hy heq
    cases heq
    exact hx hy
  have hxas : x ∉ as := fun hmem => hnot (List.mem_append_left bs hmem)
  have hxbs : x ∉ bs := fun hmem => hnot (List.mem_append_right as hmem)
  apply hH.put
  · intro h' xs hh hxs
    obtain ⟨hfirst, hnodes⟩ := hH.ne_behind hL hh hxs
    apply ht.frame (hH.leads h' xs hxs) hfirst (by simp)
    intro y hy
    exact ⟨hnodes y hy, hne (hfree h' xs hxs) y hy⟩
  · refine leads_append.mpr ⟨?_, hx, ?_⟩
    · apply hthrough.congr ht.keep _ hnd.of_append_left _ (hne hxas)
      · simp
      · simp
    · apply ht.leads hrest
      intro y hy
      exact ⟨hH.ne_behind_rest hL y hy, hne hxbs y hy⟩
  · exact List.nodup_middle.mpr (List.nodup_cons.mpr ⟨hnot, hnd⟩)
  · intro h' ys y hh hys hy hmem
    rcases List.mem_append.mp hmem with hmem | hmem
    · exact hh (hH.apart h' h ys _ y hys hL hy (List.mem_append_left bs hmem))
    · rcases List.mem_cons.mp hmem with rfl | hmem
      · exact hfree h' ys hys hy
      · exact hh (hH.apart h' h ys _ y hys hL hy (List.mem_append_right as hmem))

/-- **Removal** of the node behind `as`. -/
theorem remove (hH : SlotLists R E H) (hL : H h = some (as ++ x :: bs))
    (ht : TakesOver R E R' E' (.next x) (behind (.first h) as)) : SlotLists R' E' (H.set h (some (as ++ bs))) := by
  obtain ⟨hthrough, -, hrest⟩ := leads_append.mp (hH.leads h _ hL)
  have hnd := hH.nodup h _ hL
  have hsub : ∀ y, y ∈ as ++ bs → y ∈ as ++ x :: bs := by
    intro y hy
    rcases List.mem_append.mp hy with hy | hy
    · exact List.mem_append_left _ hy
    · exact List.mem_append_right as (List.mem_cons_of_mem x hy)
  have hx : x ∉ as ++ bs := (List.nodup_cons.mp (List.nodup_middle.mp hnd)).1
  have hne : ∀ {ys : List ι}, x ∉ ys → ∀ y ∈ ys, (Slot.next y : Slot κ ι) ≠ .next x := by
    intro ys hx y hy heq
    cases heq
    exact hx hy
  have hmemx : x ∈ as ++ x :: bs := List.mem_append_right as List.mem_cons_self
  apply hH.put
  · intro h' xs hh hxs
    obtain ⟨hfirst, hnodes⟩ := hH.ne_behind hL hh hxs
    apply ht.frame (hH.leads h' xs hxs) (by simp) hfirst
    intro y hy
    exact ⟨hne (fun hxmem => hh (hH.apart h' h xs _ x hxs hL hxmem hmemx)) y hy, hnodes y hy⟩
  · refine leads_append.mpr ⟨?_, ?_⟩
    · apply hthrough.congr (fun s x hs hb hq => ht.keep s x hs hq hb) _ hnd.of_append_left _
        (hne fun hmem => hx (List.mem_append_left bs hmem))
      · simp
      · simp
    · apply ht.leads hrest
      intro y hy
      exact ⟨hne (fun hmem => hx (List.mem_append_right as hmem)) y hy,
        hH.ne_behind_rest hL y (List.mem_cons_of_mem x hy)⟩
  · exact (List.nodup_cons.mp (List.nodup_middle.mp hnd)).2
  · intro h' ys y hh hys hy hmem
    exact hh (hH.apart h' h ys _ y hys hL hy (hsub y hmem))

/-- **Moving** a whole list to another head, whose own list is given up. -/
theorem move (hH : SlotLists R E H) {new : κ} (hL : H h = some xs) (hne : new ≠ h)
    (ht : TakesOver R E R' E' (.first h) (.first new)) (he : E' (.first h)) :
    SlotLists R' E' ((H.set new (some xs)).set h (some [])) := by
  have hcases : ∀ h' ys, ((H.set new (some xs)).set h (some [])) h' = some ys →
      (h' = h ∧ ys = []) ∨ (h' = new ∧ ys = xs) ∨ (h' ≠ h ∧ h' ≠ new ∧ H h' = some ys) := by
    intro h' ys hys
    rcases eq_or_ne h' h with rfl | hh
    · rw [HeadLists.set_self, Option.some.injEq] at hys
      exact .inl ⟨rfl, hys.symm⟩
    · rw [HeadLists.set_ne hh] at hys
      rcases eq_or_ne h' new with rfl | hn
      · rw [HeadLists.set_self, Option.some.injEq] at hys
        exact .inr (.inl ⟨rfl, hys.symm⟩)
      · rw [HeadLists.set_ne hn] at hys
        exact .inr (.inr ⟨hh, hn, hys⟩)
  constructor
  · intro h' ys hys
    rcases hcases h' ys hys with ⟨rfl, rfl⟩ | ⟨rfl, rfl⟩ | ⟨hh, hn, hys⟩
    · exact he
    · exact ht.leads (hH.leads h _ hL) (by simp)
    · exact ht.frame (hH.leads h' ys hys) (by simp [hh]) (by simp [hn]) (by simp)
  · intro h' ys hys
    rcases hcases h' ys hys with ⟨rfl, rfl⟩ | ⟨rfl, rfl⟩ | ⟨hh, hn, hys⟩
    · exact List.nodup_nil
    · exact hH.nodup h _ hL
    · exact hH.nodup h' ys hys
  · intro h₁ h₂ ys₁ ys₂ x hys₁ hys₂ hx₁ hx₂
    rcases hcases h₁ ys₁ hys₁ with ⟨rfl, rfl⟩ | ⟨rfl, rfl⟩ | ⟨hh₁, hn₁, hy₁⟩
    · exact absurd hx₁ List.not_mem_nil
    · rcases hcases h₂ ys₂ hys₂ with ⟨rfl, rfl⟩ | ⟨rfl, rfl⟩ | ⟨hh₂, hn₂, hy₂⟩
      · exact absurd hx₂ List.not_mem_nil
      · rfl
      · exact absurd (hH.apart h₂ h ys₂ _ x hy₂ hL hx₂ hx₁) hh₂
    · rcases hcases h₂ ys₂ hys₂ with ⟨rfl, rfl⟩ | ⟨rfl, rfl⟩ | ⟨hh₂, hn₂, hy₂⟩
      · exact absurd hx₂ List.not_mem_nil
      · exact absurd (hH.apart h₁ h ys₁ _ x hy₁ hL hx₁ hx₂) hh₁
      · exact hH.apart h₁ h₂ ys₁ ys₂ x hy₁ hy₂ hx₁ hx₂

end SlotLists
end Libls
