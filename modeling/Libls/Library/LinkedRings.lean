import Libls.Library.Runs
import Mathlib.Data.List.Cycle

/-! # Rings of linked cells

A relation `R` says which cell is linked to which.  A ring is a cycle of distinct cells, each linked to
the next; the list of a cell `h` are the other cells of its ring, in order.  Two rings are joined, and
one ring is cut in two, by the same step: two cells `p` and `q` exchange what they are linked to
(`Crossed`).  Insertion, removal, moving and splicing are made of such steps.

`Rings R L` is a family of rings: `L h` is the list of `h`, for every cell `h` that is taken for the head
of a list, and no cell is in the rings of two heads. -/

namespace Libls

variable {ι : Type} {R R' : ι → ι → Prop}

/-! ### One ring -/

/-- The cells of the cycle `c` are distinct, and each is linked to the next. -/
structure LinkRing (R : ι → ι → Prop) (c : Cycle ι) : Prop where
  nodup : c.Nodup
  chain : c.Chain R

/-- `p` and `q` exchange what they are linked to, and nothing else changes. -/
structure Crossed (R R' : ι → ι → Prop) (p q : ι) : Prop where
  left : ∀ b, R q b → R' p b
  right : ∀ a, R p a → R' q a
  keep : ∀ a b, R a b → a ≠ p → a ≠ q → R' a b

theorem Crossed.symm {p q : ι} (h : Crossed R R' p q) : Crossed R R' q p :=
  ⟨h.right, h.left, fun a b hab hq hp => h.keep a b hab hp hq⟩

/-- A path from `a` becomes one from `c`, where `c` is now linked to what `a` was linked to. -/
theorem isChain_relink {a b c : ι} {xs : List ι} (h : List.IsChain R (a :: (xs ++ [b])))
    (hfirst : ∀ z, R a z → R' c z) (hkeep : ∀ x ∈ xs, ∀ z, R x z → R' x z) :
    List.IsChain R' (c :: (xs ++ [b])) := by
  induction xs generalizing a c with
  | nil =>
      rw [List.nil_append, List.isChain_pair] at h ⊢
      exact hfirst b h
  | cons x xs ih =>
      rw [List.cons_append, List.isChain_cons_cons] at h ⊢
      refine ⟨hfirst x h.1, ih h.2 (hkeep x List.mem_cons_self) ?_⟩
      intro y hy
      exact hkeep y (List.mem_cons_of_mem x hy)

namespace LinkRing

theorem iff_cons {h : ι} {xs : List ι} :
    LinkRing R (h :: xs : List ι) ↔ (h :: xs).Nodup ∧ List.IsChain R (h :: (xs ++ [h])) :=
  ⟨fun hr => ⟨hr.nodup, hr.chain⟩, fun hr => ⟨hr.1, hr.2⟩⟩

/-- The cells of a ring in another order of walking through it. -/
theorem rotate {xs ys : List ι} (h : LinkRing R (xs ++ ys : List ι)) : LinkRing R (ys ++ xs : List ι) := by
  rwa [Cycle.coe_eq_coe.mpr (List.isRotated_append : xs ++ ys ~r ys ++ xs)] at h

/-- What the links of the cells of a ring are is all that matters. -/
theorem congr {h : ι} {xs : List ι} (hr : LinkRing R (h :: xs : List ι))
    (hkeep : ∀ a ∈ h :: xs, ∀ b ∈ h :: xs, R a b → R' a b) : LinkRing R' (h :: xs : List ι) := by
  obtain ⟨hnd, hc⟩ := iff_cons.mp hr
  refine iff_cons.mpr ⟨hnd, hc.imp_of_mem_imp ?_⟩
  intro a b ha hb hab
  have hmem : ∀ x, x ∈ h :: (xs ++ [h]) → x ∈ h :: xs := by
    intro x hx
    rw [← List.cons_append, List.mem_append, List.mem_singleton] at hx
    exact hx.elim id fun e => e ▸ List.mem_cons_self
  exact hkeep a (hmem a ha) b (hmem b hb) hab

theorem single {h : ι} (hh : R h h) : LinkRing R ([h] : List ι) :=
  iff_cons.mpr ⟨List.nodup_singleton h, List.isChain_pair.mpr hh⟩

/-- Two rings become one. -/
theorem merge {p q : ι} {xs ys : List ι} (hc : Crossed R R' p q) (hp : LinkRing R (p :: xs : List ι))
    (hq : LinkRing R (q :: ys : List ι)) (hd : (p :: xs).Disjoint (q :: ys)) :
    LinkRing R' (p :: (ys ++ q :: xs) : List ι) := by
  obtain ⟨hndp, hcp⟩ := iff_cons.mp hp
  obtain ⟨hndq, hcq⟩ := iff_cons.mp hq
  have hperm : (p :: (ys ++ q :: xs)).Perm ((p :: xs) ++ (q :: ys)) := by
    rw [List.cons_append]
    apply List.Perm.cons p
    have hfront : (ys ++ q :: xs).Perm (q :: (xs ++ ys)) := List.perm_append_comm
    exact hfront.trans List.perm_middle.symm
  refine iff_cons.mpr ⟨hperm.nodup_iff.mpr (List.nodup_append'.mpr ⟨hndp, hndq, hd⟩), ?_⟩
  rw [List.append_assoc, List.cons_append, List.isChain_cons_split]
  constructor
  · apply isChain_relink hcq hc.left
    intro x hx z hz
    apply hc.keep x z hz
    · rintro rfl
      exact hd List.mem_cons_self (List.mem_cons_of_mem q hx)
    · rintro rfl
      exact (List.nodup_cons.mp hndq).1 hx
  · apply isChain_relink hcp hc.right
    intro x hx z hz
    apply hc.keep x z hz
    · rintro rfl
      exact (List.nodup_cons.mp hndp).1 hx
    · rintro rfl
      exact hd (List.mem_cons_of_mem p hx) List.mem_cons_self

/-- One ring becomes two. -/
theorem split {p q : ι} {xs ys : List ι} (hc : Crossed R R' p q)
    (hr : LinkRing R (p :: (ys ++ q :: xs) : List ι)) :
    LinkRing R' (p :: xs : List ι) ∧ LinkRing R' (q :: ys : List ι) := by
  obtain ⟨hnd, hchain⟩ := iff_cons.mp hr
  rw [List.append_assoc, List.cons_append, List.isChain_cons_split] at hchain
  have hp : p ∉ ys ++ q :: xs := (List.nodup_cons.mp hnd).1
  have htail : (ys ++ q :: xs).Nodup := (List.nodup_cons.mp hnd).2
  have hq : q ∉ ys ++ xs := (List.nodup_middle.mp htail |> List.nodup_cons.mp).1
  have hboth : (ys ++ xs).Nodup := (List.nodup_middle.mp htail |> List.nodup_cons.mp).2
  have hpx : p ∉ xs := fun hx => hp (by simp [hx])
  have hpy : p ∉ ys := fun hx => hp (by simp [hx])
  have hqx : q ∉ xs := fun hx => hq (by simp [hx])
  have hqy : q ∉ ys := fun hx => hq (by simp [hx])
  constructor
  · refine iff_cons.mpr ⟨List.nodup_cons.mpr ⟨hpx, hboth.of_append_right⟩, ?_⟩
    apply isChain_relink hchain.2 hc.left
    intro x hx z hz
    exact hc.keep x z hz (fun e => hpx (e ▸ hx)) (fun e => hqx (e ▸ hx))
  · refine iff_cons.mpr ⟨List.nodup_cons.mpr ⟨hqy, hboth.of_append_left⟩, ?_⟩
    apply isChain_relink hchain.1 hc.right
    intro x hx z hz
    exact hc.keep x z hz (fun e => hpy (e ▸ hx)) (fun e => hqy (e ▸ hx))

/-- Neighbours in the list of a ring are linked. -/
theorem linked {h p n : ι} {as bs : List ι} (hr : LinkRing R (h :: (as ++ bs) : List ι))
    (hp : (h :: as).getLast? = some p) (hn : (bs ++ [h]).head? = some n) : R p n := by
  obtain ⟨as', has⟩ := List.getLast?_eq_some_iff.mp hp
  obtain ⟨bs', hbs⟩ := List.head?_eq_some_iff.mp hn
  have hc := (iff_cons.mp hr).2
  rw [List.append_assoc, hbs, ← List.cons_append, has, List.append_assoc] at hc
  exact (List.isChain_append_cons_cons.mp hc).2.1

/-- The ring of `l` comes in behind `p`, which is `h` or the last cell of `as`. -/
theorem join {h l p q : ι} {as bs ys : List ι} (hc : Crossed R R' p q)
    (hp : (h :: as).getLast? = some p) (hq : (l :: ys).getLast? = some q)
    (hh : LinkRing R (h :: (as ++ bs) : List ι)) (hl : LinkRing R (l :: ys : List ι))
    (hd : (h :: (as ++ bs)).Disjoint (l :: ys)) : LinkRing R' (h :: (as ++ l :: (ys ++ bs)) : List ι) := by
  obtain ⟨as', has⟩ := List.getLast?_eq_some_iff.mp hp
  obtain ⟨ys', hys⟩ := List.getLast?_eq_some_iff.mp hq
  rw [← List.cons_append, has] at hh hd
  rw [hys] at hl hd
  have hh' : LinkRing R (p :: (bs ++ as') : List ι) := by
    rw [List.append_assoc] at hh
    exact hh.rotate
  have hd' : (p :: (bs ++ as')).Disjoint (q :: ys') := by
    intro x hx hx'
    apply @hd x
    · simp only [List.mem_cons, List.mem_append, List.not_mem_nil, or_false] at hx ⊢
      tauto
    · simp only [List.mem_cons, List.mem_append, List.not_mem_nil, or_false] at hx' ⊢
      tauto
  have hmerged : LinkRing R' ((p :: (ys' ++ q :: bs)) ++ as' : List ι) := by
    have hm := merge hc hh' hl.rotate hd'
    simpa using hm
  have hgoal : h :: (as ++ l :: (ys ++ bs)) = as' ++ (p :: (ys' ++ q :: bs)) := by
    rw [← List.cons_append, has, ← List.cons_append, hys]
    simp
  rw [hgoal]
  exact hmerged.rotate

/-- The cells from `l` to `q` come out of a ring, in which they stand behind `p`. -/
theorem cut {h l p q : ι} {as bs ys : List ι} (hc : Crossed R R' p q)
    (hp : (h :: as).getLast? = some p) (hq : (l :: ys).getLast? = some q)
    (hr : LinkRing R (h :: (as ++ l :: (ys ++ bs)) : List ι)) :
    LinkRing R' (h :: (as ++ bs) : List ι) ∧ LinkRing R' (l :: ys : List ι) := by
  obtain ⟨as', has⟩ := List.getLast?_eq_some_iff.mp hp
  obtain ⟨ys', hys⟩ := List.getLast?_eq_some_iff.mp hq
  have hwhole : h :: (as ++ l :: (ys ++ bs)) = as' ++ (p :: (ys' ++ q :: bs)) := by
    rw [← List.cons_append, has, ← List.cons_append, hys]
    simp
  rw [hwhole] at hr
  have hr' : LinkRing R (p :: (ys' ++ q :: (bs ++ as')) : List ι) := by
    have hrot := hr.rotate
    simpa using hrot
  obtain ⟨h1, h2⟩ := split hc hr'
  constructor
  · rw [← List.cons_append, has, List.append_assoc]
    have hrot : LinkRing R' ((p :: bs) ++ as' : List ι) := h1
    exact hrot.rotate
  · rw [hys]
    have hrot : LinkRing R' ([q] ++ ys' : List ι) := h2
    exact hrot.rotate

end LinkRing

/-! ### Families of rings -/

/-- The lists of the cells that are heads of lists. -/
abbrev Lists (ι : Type) := ι → Option (List ι)

namespace Lists

/-- No cell is the head of a list. -/
def empty : Lists ι := fun _ => none

/-- `x` is in the ring of `h`: it is `h` or in the list of `h`. -/
def Mem (L : Lists ι) (h x : ι) : Prop := ∃ xs, L h = some xs ∧ x ∈ h :: xs

/-- `x` is in no list, though it may be the head of one. -/
def Free (L : Lists ι) (x : ι) : Prop := ∀ h xs, L h = some xs → x ∉ xs

theorem empty_free {x : ι} : empty.Free x := fun _ _ hL => by cases hL

variable [DecidableEq ι] {L : Lists ι} {h h' x : ι} {o : Option (List ι)}

/-- The list of `h` becomes `o`; with `none`, `h` is no head any more. -/
def set (L : Lists ι) (h : ι) (o : Option (List ι)) : Lists ι := fun x => if x = h then o else L x

@[simp] theorem set_self : L.set h o h = o := if_pos rfl

theorem set_ne (hne : h' ≠ h) : L.set h o h' = L h' := if_neg hne

@[simp] theorem set_set {o' : Option (List ι)} : (L.set h o).set h o' = L.set h o' := by
  funext y
  rcases eq_or_ne y h with rfl | hne
  · rw [set_self, set_self]
  · rw [set_ne hne, set_ne hne, set_ne hne]

theorem set_comm {o' : Option (List ι)} (hne : h ≠ h') : (L.set h o).set h' o' = (L.set h' o').set h o := by
  funext y
  rcases eq_or_ne y h with rfl | hy
  · rw [set_ne hne, set_self, set_self]
  · rw [set_ne hy]
    rcases eq_or_ne y h' with rfl | hy'
    · rw [set_self, set_self]
    · rw [set_ne hy', set_ne hy', set_ne hy]

theorem set_eq_self (hL : L h = o) : L.set h o = L := by
  funext y
  rcases eq_or_ne y h with rfl | hy
  · rw [set_self, hL]
  · rw [set_ne hy]

theorem Free.set {L : Lists ι} (hfree : L.Free x) (ho : ∀ xs, o = some xs → x ∉ xs) : (L.set h o).Free x := by
  intro h' xs hL
  rcases eq_or_ne h' h with rfl | hne
  · rw [set_self] at hL
    exact ho xs hL
  · rw [set_ne hne] at hL
    exact hfree h' xs hL

theorem Free.drop {L : Lists ι} (hfree : L.Free x) : (L.set h none).Free x :=
  hfree.set fun _ hxs => by cases hxs

theorem Free.alone {L : Lists ι} (hfree : L.Free x) : (L.set h (some [])).Free x :=
  hfree.set fun _ hxs => by
    cases hxs
    exact List.not_mem_nil

/-- What is in the rings after a change at `h`. -/
theorem mem_set : (L.set h o).Mem h' x ↔ (h' ≠ h ∧ L.Mem h' x) ∨ (h' = h ∧ ∃ xs, o = some xs ∧ x ∈ h :: xs) := by
  rcases eq_or_ne h' h with rfl | hne
  · simp [Mem]
  · simp [Mem, set_ne hne, hne]

end Lists

/-- The lists are read off rings of cells, and no two heads share a cell. -/
structure Rings (R : ι → ι → Prop) (L : Lists ι) : Prop where
  ring : ∀ h xs, L h = some xs → LinkRing R (h :: xs : List ι)
  apart : ∀ h h' x, L.Mem h x → L.Mem h' x → h = h'

namespace Rings

variable {L L' : Lists ι}

theorem empty : Rings R Lists.empty := by
  refine ⟨fun h xs hL => ?_, fun h h' x hx => ?_⟩
  · cases hL
  · obtain ⟨_, hL, -⟩ := hx
    cases hL

theorem nodup (hR : Rings R L) {h : ι} {xs : List ι} (hL : L h = some xs) : (h :: xs).Nodup :=
  (hR.ring h xs hL).nodup

/-- A cell of a list is no head. -/
theorem entry_none (hR : Rings R L) {h e : ι} {xs : List ι} (hL : L h = some xs) (he : e ∈ xs) : L e = none := by
  cases hLe : L e with
  | none => rfl
  | some zs =>
      have heq : e = h := hR.apart e h e ⟨zs, hLe, List.mem_cons_self⟩ ⟨xs, hL, List.mem_cons_of_mem h he⟩
      exact absurd (heq ▸ he) (List.nodup_cons.mp (hR.nodup hL)).1

/-- A head is in no list. -/
theorem free_of_head (hR : Rings R L) {h : ι} {xs : List ι} (hL : L h = some xs) : L.Free h := by
  intro h' xs' hL' hmem
  rw [hR.entry_none hL' hmem] at hL
  cases hL

/-- A cell is in one list only. -/
theorem eq_of_mem (hR : Rings R L) {h h' e : ι} {xs xs' : List ι} (hL : L h = some xs) (hL' : L h' = some xs')
    (he : e ∈ xs) (he' : e ∈ xs') : h = h' :=
  hR.apart h h' e ⟨xs, hL, List.mem_cons_of_mem h he⟩ ⟨xs', hL', List.mem_cons_of_mem h' he'⟩

/-- **Frame.**  A family of rings is kept when the links inside its rings are. -/
theorem congr (hR : Rings R L) (hkeep : ∀ h a b, L.Mem h a → L.Mem h b → R a b → R' a b) : Rings R' L := by
  refine ⟨?_, hR.apart⟩
  intro h xs hL
  exact (hR.ring h xs hL).congr fun a ha b hb => hkeep h a b ⟨xs, hL, ha⟩ ⟨xs, hL, hb⟩

/-- Fewer cells are taken for heads. -/
theorem mono (hR : Rings R L) (hsub : ∀ h xs, L' h = some xs → L h = some xs) : Rings R L' := by
  refine ⟨fun h xs hL => hR.ring h xs (hsub h xs hL), ?_⟩
  rintro h h' x ⟨xs, hL, hx⟩ ⟨xs', hL', hx'⟩
  exact hR.apart h h' x ⟨xs, hsub h xs hL, hx⟩ ⟨xs', hsub h' xs' hL', hx'⟩

variable [DecidableEq ι] {h l p q x : ι} {as bs xs ys : List ι}

/-- The family without the list of `h`. -/
theorem drop (hR : Rings R L) (h : ι) : Rings R (L.set h none) := by
  apply hR.mono
  intro h' xs hL
  rcases eq_or_ne h' h with rfl | hne
  · rw [Lists.set_self] at hL
    cases hL
  · rwa [Lists.set_ne hne] at hL

/-- A ring of cells that are in no other ring comes in as the list of `h`. -/
theorem put (hR : Rings R (L.set h none)) (hring : LinkRing R (h :: xs : List ι))
    (hnew : ∀ h' x, h' ≠ h → L.Mem h' x → x ∉ h :: xs) : Rings R (L.set h (some xs)) := by
  constructor
  · intro h' zs hL
    rcases eq_or_ne h' h with rfl | hne
    · rw [Lists.set_self, Option.some.injEq] at hL
      exact hL ▸ hring
    · rw [Lists.set_ne hne] at hL
      exact hR.ring h' zs ((Lists.set_ne hne).trans hL)
  · intro h₁ h₂ x h₁x h₂x
    rcases Lists.mem_set.mp h₁x with ⟨hne₁, hm₁⟩ | ⟨rfl, _, hxs, hx₁⟩
    · rcases Lists.mem_set.mp h₂x with ⟨hne₂, hm₂⟩ | ⟨rfl, _, hxs, hx₂⟩
      · exact hR.apart h₁ h₂ x (Lists.mem_set.mpr (.inl ⟨hne₁, hm₁⟩)) (Lists.mem_set.mpr (.inl ⟨hne₂, hm₂⟩))
      · cases hxs
        exact absurd hx₂ (hnew h₁ x hne₁ hm₁)
    · cases hxs
      rcases Lists.mem_set.mp h₂x with ⟨hne₂, hm₂⟩ | ⟨rfl, -⟩
      · exact absurd hx₁ (hnew h₂ x hne₂ hm₂)
      · rfl

/-- The entry that leaves a list is in no list. -/
theorem free_of_removed {e : ι} (hR : Rings R L) (hL : L h = some (as ++ e :: bs)) :
    Lists.Free (L.set h (some (as ++ bs))) e := by
  have he : e ∈ as ++ e :: bs := List.mem_append_right as List.mem_cons_self
  intro h' xs hxs hmem
  rcases eq_or_ne h' h with rfl | hne
  · rw [Lists.set_self, Option.some.injEq] at hxs
    subst hxs
    have hnd := (List.nodup_cons.mp (hR.nodup hL)).2
    exact (List.nodup_cons.mp (List.nodup_middle.mp hnd)).1 hmem
  · rw [Lists.set_ne hne] at hxs
    exact hne (hR.eq_of_mem hxs hL hmem he)

theorem none_of_removed {e : ι} (hR : Rings R L) (hL : L h = some (as ++ e :: bs)) :
    (L.set h (some (as ++ bs))) e = none := by
  have he : e ∈ as ++ e :: bs := List.mem_append_right as List.mem_cons_self
  have hne : e ≠ h := by
    rintro rfl
    exact (List.nodup_cons.mp (hR.nodup hL)).1 he
  rw [Lists.set_ne hne]
  exact hR.entry_none hL he

/-- A cell in no list is linked to itself: it is the head of an empty list. -/
theorem alone (hR : Rings R L) (hfree : L.Free h) (hself : R' h h)
    (hkeep : ∀ a b, R a b → a ≠ h → b ≠ h → R' a b) : Rings R' (L.set h (some [])) := by
  have hother : ∀ h' x, h' ≠ h → L.Mem h' x → x ≠ h := by
    rintro h' x hne ⟨xs, hL, hx⟩ rfl
    rcases List.mem_cons.mp hx with rfl | hx
    · exact hne rfl
    · exact hfree h' xs hL hx
  apply put
  · apply (hR.drop h).congr
    intro h' a b ha hb hab
    rcases Lists.mem_set.mp ha with ⟨hne, ha⟩ | ⟨-, _, hxs, -⟩
    · rcases Lists.mem_set.mp hb with ⟨-, hb⟩ | ⟨-, _, hxs, -⟩
      · exact hkeep a b hab (hother h' a hne ha) (hother h' b hne hb)
      · cases hxs
    · cases hxs
  · exact LinkRing.single hself
  · intro h' x hne hx hx'
    exact hother h' x hne hx (List.mem_singleton.mp hx')

/-- The same ring with another of its cells as the head. -/
theorem rehead (hR : Rings R L) (hL : L h = some (as ++ x :: bs)) :
    Rings R ((L.set h none).set x (some (bs ++ h :: as))) := by
  have hring : LinkRing R (x :: (bs ++ h :: as) : List ι) := by
    have h1 : LinkRing R ((h :: as) ++ (x :: bs) : List ι) := hR.ring h _ hL
    exact h1.rotate
  have hin : ∀ y, y ∈ x :: (bs ++ h :: as) → L.Mem h y := by
    intro y hy
    refine ⟨as ++ x :: bs, hL, ?_⟩
    simp only [List.mem_cons, List.mem_append] at hy ⊢
    tauto
  apply put
  · exact (hR.drop h).drop x
  · exact hring
  · intro h' y _ hy hy'
    rcases Lists.mem_set.mp hy with ⟨hne, hm⟩ | ⟨-, _, hxs, -⟩
    · exact hne (hR.apart h' h y hm (hin y hy'))
    · cases hxs

/-- **Insertion.**  The ring of `l` comes into the list of `h`, behind its part `as`. -/
theorem merge (hR : Rings R L) (hc : Crossed R R' p q) (hL : L h = some (as ++ bs)) (hl : L l = some ys)
    (hne : l ≠ h) (hp : (h :: as).getLast? = some p) (hq : (l :: ys).getLast? = some q) :
    Rings R' ((L.set l none).set h (some (as ++ l :: (ys ++ bs)))) := by
  have hmp : L.Mem h p := by
    refine ⟨_, hL, ?_⟩
    rw [← List.cons_append]
    exact List.mem_append_left bs (List.mem_of_getLast? hp)
  have hmq : L.Mem l q := ⟨_, hl, List.mem_of_getLast? hq⟩
  have hd : (h :: (as ++ bs)).Disjoint (l :: ys) := fun x hx hx' =>
    hne (hR.apart l h x ⟨_, hl, hx'⟩ ⟨_, hL, hx⟩)
  have hother : ∀ h' x, ((L.set l none).set h none).Mem h' x → h' ≠ h ∧ h' ≠ l ∧ L.Mem h' x := by
    intro h' x hx
    rcases Lists.mem_set.mp hx with ⟨hneh, hx⟩ | ⟨-, _, hxs, -⟩
    · rcases Lists.mem_set.mp hx with ⟨hnel, hx⟩ | ⟨-, _, hxs, -⟩
      · exact ⟨hneh, hnel, hx⟩
      · cases hxs
    · cases hxs
  apply put
  · apply ((hR.drop l).drop h).congr
    intro h' a b ha _ hab
    obtain ⟨hneh, hnel, ha⟩ := hother h' a ha
    apply hc.keep a b hab
    · rintro rfl
      exact hneh (hR.apart h' h a ha hmp)
    · rintro rfl
      exact hnel (hR.apart h' l a ha hmq)
  · exact (hR.ring h _ hL).join hc hp hq (hR.ring l _ hl) hd
  · intro h' x hneh hx hx'
    rcases Lists.mem_set.mp hx with ⟨hnel, hx⟩ | ⟨-, _, hxs, -⟩
    · have hcases : x ∈ h :: (as ++ bs) ∨ x ∈ l :: ys := by
        simp only [List.mem_cons, List.mem_append] at hx' ⊢
        tauto
      rcases hcases with hxh | hxl
      · exact hneh (hR.apart h' h x hx ⟨_, hL, hxh⟩)
      · exact hnel (hR.apart h' l x hx ⟨_, hl, hxl⟩)
    · cases hxs

/-- **Removal.**  The part of the list of `h` from `l` to `q` becomes a ring of its own, that of `l`. -/
theorem split (hR : Rings R L) (hc : Crossed R R' p q) (hL : L h = some (as ++ l :: (ys ++ bs)))
    (hp : (h :: as).getLast? = some p) (hq : (l :: ys).getLast? = some q) :
    Rings R' ((L.set h (some (as ++ bs))).set l (some ys)) := by
  obtain ⟨hring₁, hring₂⟩ := (hR.ring h _ hL).cut hc hp hq
  have hin : ∀ x, x ∈ h :: (as ++ bs) ∨ x ∈ l :: ys → L.Mem h x := by
    intro x hx
    refine ⟨_, hL, ?_⟩
    simp only [List.mem_cons, List.mem_append] at hx ⊢
    tauto
  have hmp : L.Mem h p := by
    apply hin p
    rw [← List.cons_append]
    exact .inl (List.mem_append_left bs (List.mem_of_getLast? hp))
  have hmq : L.Mem h q := hin q (.inr (List.mem_of_getLast? hq))
  have hrest : Rings R' (L.set h (some (as ++ bs))) := by
    apply put
    · apply (hR.drop h).congr
      intro h' a b ha _ hab
      rcases Lists.mem_set.mp ha with ⟨hne, ha⟩ | ⟨-, _, hxs, -⟩
      · apply hc.keep a b hab
        · rintro rfl
          exact hne (hR.apart h' h a ha hmp)
        · rintro rfl
          exact hne (hR.apart h' h a ha hmq)
      · cases hxs
    · exact hring₁
    · intro h' x hne hx hx'
      exact hne (hR.apart h' h x hx (hin x (.inl hx')))
  have hnd : (h :: (as ++ l :: (ys ++ bs))).Nodup := hR.nodup hL
  apply put
  · exact hrest.drop l
  · exact hring₂
  · intro h' x _ hx hx'
    rcases Lists.mem_set.mp hx with ⟨hne, hx⟩ | ⟨-, _, hxs, hx⟩
    · exact hne (hR.apart h' h x hx (hin x (.inr hx')))
    · cases hxs
      have hperm : (h :: (as ++ l :: (ys ++ bs))).Perm ((h :: (as ++ bs)) ++ (l :: ys)) := by
        rw [List.cons_append, List.append_assoc]
        apply List.Perm.cons h
        rw [List.perm_append_left_iff, ← List.cons_append]
        exact List.perm_append_comm
      exact (List.nodup_append'.mp (hperm.nodup_iff.mp hnd)).2.2 hx hx'

end Rings
end Libls
