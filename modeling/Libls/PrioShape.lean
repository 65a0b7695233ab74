import Mathlib.Data.Nat.Size
import Mathlib.Tactic
import Libls.PrioTree

/-! # The shape of priority trees

A priority tree is balanced by weight: the left subtree of every node holds as many nodes as
the right one, or one more, and the balance bit says which (`Balanced`).  The bits therefore
determine where the next leaf goes and which leaf goes next (`Balanced.lighter`,
`Balanced.heavier`); after a leaf has been added or taken away, the bits on its path to the
root change (`changed`), which `prioChangeUp` does.

`prioSwap_focus` says that `prio_swap` exchanges two objects and leaves the shape, with its
bits, alone. -/

namespace Libls.Prio

open LinkedTree

variable {ι : Type}

/-! ### The invariant -/

/-- The balance bit `b` of a node whose subtrees hold `nl` and `nr` nodes. -/
def Weighed (b : PrioBalance) (nl nr : ℕ) : Prop :=
  b = .equalWeight ∧ nl = nr ∨ b = .leftHeavier ∧ nl = nr + 1

/-- Every left subtree is as heavy as the right one or heavier by one, and the balances agree. -/
def Balanced : LTree ι PrioBalance → Prop
  | .nil => True
  | .node l _ b r => Weighed b (size l) (size r) ∧ Balanced l ∧ Balanced r

/-- `Weighed`, seen from side `d` where the subtree holds `nn` nodes. -/
def WeighedOn (d : Dir) (b : PrioBalance) (nn nf : ℕ) : Prop :=
  match d with
  | .left => Weighed b nn nf
  | .right => Weighed b nf nn

/-- The tree around a hole is balanced when the hole holds `n` nodes. -/
def CtxBalanced : List (Frame ι PrioBalance) → ℕ → Prop
  | [], _ => True
  | f :: ctx, n => WeighedOn f.dir f.tag n (size f.sib) ∧ Balanced f.sib ∧
      CtxBalanced ctx (n + size f.sib + 1)

@[simp] theorem balanced_nil : Balanced (.nil : LTree ι PrioBalance) := trivial

@[simp] theorem balanced_make {d : Dir} {l r : LTree ι PrioBalance} {x : ι} {b : PrioBalance} :
    Balanced (.make d l x b r) ↔ WeighedOn d b (size l) (size r) ∧ Balanced l ∧ Balanced r := by
  cases d with
  | left => exact Iff.rfl
  | right => exact and_congr Iff.rfl and_comm

theorem balanced_fill {ctx : List (Frame ι PrioBalance)} {t : LTree ι PrioBalance} :
    Balanced (fill ctx t) ↔ CtxBalanced ctx (size t) ∧ Balanced t := by
  induction ctx generalizing t with
  | nil => simp [fill, CtxBalanced]
  | cons f ctx ih =>
      simp only [fill, ih, Frame.fill, size_make, balanced_make, CtxBalanced]
      tauto

/-! ### The left spine -/

/-- The number of nodes on the path that always goes left. -/
def leftSpine : LTree ι PrioBalance → ℕ
  | .nil => 0
  | .node l _ _ _ => leftSpine l + 1

/-- A balanced tree with a left spine of `h` nodes has at least `2 ^ (h - 1)` and fewer than
`2 ^ h` nodes. -/
theorem Balanced.leftSpine_bounds {t : LTree ι PrioBalance} (h : Balanced t) :
    2 ^ leftSpine t ≤ 2 * size t + (if size t = 0 then 1 else 0) ∧ size t < 2 ^ leftSpine t := by
  induction t with
  | nil => simp [leftSpine]
  | node l x b r ihl ihr =>
      obtain ⟨hw, hl, -⟩ := h
      obtain ⟨ih1, ih2⟩ := ihl hl
      have hn : size l = size r ∨ size l = size r + 1 := by
        rcases hw with ⟨-, hw⟩ | ⟨-, hw⟩ <;> omega
      rw [size_node, leftSpine, pow_succ]
      split at ih1 <;> constructor <;> omega

/-- The left spine of a balanced tree is the binary length of its weight. -/
theorem Balanced.leftSpine_eq {t : LTree ι PrioBalance} (h : Balanced t) :
    leftSpine t = Nat.size (size t) := by
  obtain ⟨h1, h2⟩ := h.leftSpine_bounds
  apply le_antisymm
  · cases hs : leftSpine t with
    | zero => exact Nat.zero_le _
    | succ k =>
        rw [Nat.succ_le_iff, Nat.lt_size]
        rw [hs, pow_succ] at h1
        have : 1 < 2 ^ k * 2 := by
          have := Nat.one_le_two_pow (n := k)
          omega
        split at h1 <;> omega
  · rwa [Nat.size_le]

/-- No path is longer than the left spine. -/
theorem Balanced.height_eq {t : LTree ι PrioBalance} (h : Balanced t) : height t = leftSpine t := by
  induction t with
  | nil => rfl
  | node l x b r ihl ihr =>
      obtain ⟨hw, hl, hr⟩ := h
      have hle : size r ≤ size l := by rcases hw with ⟨-, hw⟩ | ⟨-, hw⟩ <;> omega
      have : leftSpine r ≤ leftSpine l := by
        rw [hl.leftSpine_eq, hr.leftSpine_eq]
        exact Nat.size_le_size hle
      rw [height, leftSpine, ihl hl, ihr hr]
      omega

/-! ### Changing the balances of a path -/

/-- The frame with the other balance bit. -/
def changed (f : Frame ι PrioBalance) : Frame ι PrioBalance := { f with tag := f.tag.change }

@[simp] theorem changed_dir (f : Frame ι PrioBalance) : (changed f).dir = f.dir := rfl
@[simp] theorem changed_x (f : Frame ι PrioBalance) : (changed f).x = f.x := rfl
@[simp] theorem changed_tag (f : Frame ι PrioBalance) : (changed f).tag = f.tag.change := rfl
@[simp] theorem changed_sib (f : Frame ι PrioBalance) : (changed f).sib = f.sib := rfl

@[simp] theorem above_map_changed (ctx : List (Frame ι PrioBalance)) :
    above (ctx.map changed) = above ctx := by
  cases ctx <;> rfl

@[simp] theorem ctxNodes_map_changed (ctx : List (Frame ι PrioBalance)) :
    ctxNodes (ctx.map changed) = ctxNodes ctx := by
  induction ctx with
  | nil => rfl
  | cons f ctx ih => simp [ih]

@[simp] theorem heapCtx_map_changed {le : ι → ι → Prop} {ctx : List (Frame ι PrioBalance)} :
    HeapCtx le (ctx.map changed) ↔ HeapCtx le ctx := by
  induction ctx with
  | nil => rfl
  | cons f ctx ih => simp [HeapCtx, ih]

/-- A path that goes to the lighter side everywhere has room for one more node. -/
theorem weighed_lighter {b : PrioBalance} {nl nr : ℕ} (h : Weighed b nl nr) :
    (b = .equalWeight → Weighed b.change (nl + 1) nr) ∧
      (b = .leftHeavier → Weighed b.change nl (nr + 1)) := by
  rcases h with ⟨rfl, rfl⟩ | ⟨rfl, rfl⟩ <;> simp [Weighed, PrioBalance.change]

/-- A path that goes to the heavier side everywhere can lose a node. -/
theorem weighed_heavier {b : PrioBalance} {nl nr : ℕ} (h : Weighed b nl nr) :
    (b = .equalWeight → 0 < nr → Weighed b.change nl (nr - 1)) ∧
      (b = .leftHeavier → 0 < nl ∧ Weighed b.change (nl - 1) nr) := by
  rcases h with ⟨rfl, rfl⟩ | ⟨rfl, rfl⟩ <;> simp [Weighed, PrioBalance.change]
  omega

variable [DecidableEq ι] {s : PrioRoot ι} {ctx : List (Frame ι PrioBalance)} {t : LTree ι PrioBalance}

theorem prioChangeBalance_focus {d : Dir} {l r : LTree ι PrioBalance} {x : ι} {b : PrioBalance}
    (h : Focus s ctx (.make d l x b r)) :
    Focus (prioChangeBalance x s) ctx (.make d l x b.change r) := by
  have hb : prioBalance x s = b := by rw [prioBalance, h.mem_top, Cell.make_tag]
  rw [prioChangeBalance, hb]
  exact h.setTag _

/-- The walk to the root changes every balance above the focus, and nothing else. -/
theorem prioChangeUp_focus (h : Focus s ctx t) :
    ∃ s', Prog.Returns (prioChangeUp (above ctx) s) s' ∧ Focus s' (ctx.map changed) t ∧
      ∀ y ∉ ctxNodes ctx, s'.mem y = s.mem y := by
  induction ctx generalizing s t with
  | nil => exact ⟨s, Prog.Returns.iterate_done (Prog.returns_ofOption.mpr rfl), h, fun _ _ => rfl⟩
  | cons f ctx ih =>
      have h1 := prioChangeBalance_focus (Focus.cons_iff.mp h)
      have hp : prioParent f.x (prioChangeBalance f.x s) = above ctx := h1.parent_top (by simp)
      obtain ⟨s', hs', hf, hm⟩ := ih h1
      refine ⟨s', Prog.Returns.iterate_next (Prog.returns_ofOption.mpr rfl) ?_,
        Focus.cons_iff.mpr hf, fun y hy => ?_⟩
      · simp only [hp]
        exact hs'
      · simp only [ctxNodes_cons, List.mem_cons, List.mem_append, not_or] at hy
        rw [hm y hy.2.2, prioChangeBalance, prioSetBalance, Store.setTag_mem, if_neg hy.1]

/-! ### `prio_swap` -/

/-- The links of `prioSwapSide` before the one from above. -/
def swapLinks (d : Dir) (node parent : ι) (s : PrioRoot ι) : PrioRoot ι :=
  let far := (s.mem node).child d.other
  let s := s.setChild d.other node ((s.mem parent).child d.other)
  let s := s.setChild d.other parent far
  let s := s.setParentOf ((s.mem node).child d.other) (some node)
  let s := s.setParentOf ((s.mem parent).child d.other) (some parent)
  let s := s.setChild d parent ((s.mem node).child d)
  let s := s.setParentOf ((s.mem parent).child d) (some parent)
  prioSetParent node (prioParent parent s) s

theorem prioSwapSide_eq (d : Dir) (node parent : ι) (s : PrioRoot ι) : prioSwapSide d node parent s =
    prioSetParent parent (some node) ((prioUpdateDownlink node parent
      (swapLinks d node parent s)).setChild d node (some parent)) := rfl

variable {d : Dir} {n p : ι} {bn bp : PrioBalance} {a b c : LTree ι PrioBalance}

omit [DecidableEq ι] in
/-- Nothing hangs from two of the nodes that `prio_swap` writes. -/
theorem swap_apart (h : Focus s ctx (.make d (.make d a n bn b) p bp c)) : n ≠ p ∧
    (a.top ≠ some n ∧ b.top ≠ some n ∧ c.top ≠ some n) ∧
    (a.top ≠ some p ∧ b.top ≠ some p ∧ c.top ≠ some p) ∧
    (∀ y, a.top = some y → b.top ≠ some y) ∧ (∀ y, a.top = some y → c.top ≠ some y) ∧
    ∀ y, b.top = some y → c.top ≠ some y := by
  have hnd := h.nodup
  simp only [LTree.nodup_make, LTree.mem_make, not_or] at hnd
  obtain ⟨hp, hpc, ⟨hna, hnb, -, -, hab⟩, -, hc⟩ := hnd
  refine ⟨fun e => hp.1 e.symm, ⟨fun e => hna (LTree.top_mem e), fun e => hnb (LTree.top_mem e),
    fun e => hc n (.inl rfl) (LTree.top_mem e)⟩, ⟨fun e => hp.2.1 (LTree.top_mem e),
    fun e => hp.2.2 (LTree.top_mem e), fun e => hpc (LTree.top_mem e)⟩, ?_, ?_, ?_⟩
  · exact fun y ha hb => hab y (LTree.top_mem ha) (LTree.top_mem hb)
  · exact fun y ha hc' => hc y (.inr (.inl (LTree.top_mem ha))) (LTree.top_mem hc')
  · exact fun y hb hc' => hc y (.inr (.inr (LTree.top_mem hb))) (LTree.top_mem hc')

theorem swapLinks_mem (h : Focus s ctx (.make d (.make d a n bn b) p bp c)) (y : ι) :
    (swapLinks d n p s).mem y = if y = n then .make d (above ctx) bn a.top c.top
      else if y = p then .make d (above ctx) bp a.top b.top
      else if a.top = some y ∨ b.top = some y then (s.mem y).setParent (some p)
      else if c.top = some y then (s.mem y).setParent (some n) else s.mem y := by
  have hp := h.mem_top
  have hn : s.mem n = .make d (some p) bn a.top b.top := (Focus.near_iff.mp h).mem_top
  obtain ⟨hnp, ⟨han, hbn, hcn⟩, ⟨hap, hbp, hcp⟩, hab, hac, hbc⟩ := swap_apart h
  rw [LTree.top_make] at hp
  by_cases h1 : y = n
  · subst h1
    simp [swapLinks, hp, hn, hnp, hnp.symm, hbn, hcn, hap, hbp, hcp, prioSetParent, prioParent]
  · by_cases h2 : y = p
    · subst h2
      simp [swapLinks, hp, hn, hnp, hnp.symm, hbn, hcn, hap, hbp, hcp, prioSetParent, prioParent]
    · simp only [swapLinks, hp, hn, hnp, hnp.symm, hbn, hcn, hap, hbp, hcp, h1, h2, prioSetParent,
        prioParent, Store.setParent_mem, Store.setParentOf_mem, Store.setChild_mem, Cell.make_child,
        Cell.make_child_other, Cell.make_setChild_other, Cell.make_setChild, if_true, if_false]
      have := hab y
      have := hac y
      have := hbc y
      split_ifs <;> simp_all

theorem prioSwapSide_focus (h : Focus s ctx (.make d (.make d a n bn b) p bp c)) :
    Focus (prioSwapSide d n p s) ctx (.make d (.make d a p bp b) n bn c) := by
  obtain ⟨hnp, -⟩ := swap_apart h
  have hmem := swapLinks_mem h
  have hap := h.apart
  simp only [LTree.mem_make] at hap
  have hpar : prioParent n (swapLinks d n p s) = above ctx := by
    rw [prioParent, hmem, if_pos rfl, Cell.make_parent]
  have hout : ∀ y ∉ ctxNodes ctx, (prioUpdateDownlink n p (swapLinks d n p s)).mem y =
      (swapLinks d n p s).mem y := by
    intro y hy
    rw [prioUpdateDownlink, hpar]
    exact Store.replaceChild_mem_of_ne _ _ (fun e => hy (above_mem e)) _ _
  rw [prioSwapSide_eq]
  refine h.exchanged (swapLinks d n p s) ⟨by simp [swapLinks, prioSetParent], ?_⟩ ?_ ?_ ?_
  · intro y hy
    have h1 : y ≠ n := fun e => hap n (by simp) (e ▸ hy)
    have h2 : y ≠ p := fun e => hap p (by simp) (e ▸ hy)
    have h3 : ∀ u : LTree ι PrioBalance, (∀ z ∈ u.toList, z ∉ ctxNodes ctx) → u.top ≠ some y :=
      fun u hu e => hu y (LTree.top_mem e) hy
    rw [hmem, if_neg h1, if_neg h2, if_neg, if_neg]
    · exact h3 c fun z hz => hap z (by simp [hz])
    · rintro (e | e)
      · exact h3 a (fun z hz => hap z (by simp [hz])) e
      · exact h3 b (fun z hz => hap z (by simp [hz])) e
  · rw [← hpar]
    rfl
  · intro y hy
    have h1 : y ≠ n := fun e => hap n (by simp) (e ▸ hy)
    have h2 : y ≠ p := fun e => hap p (by simp) (e ▸ hy)
    simp [prioSetParent, h1, h2, prioUpdateDownlink, hpar]
  · intro y hy
    by_cases h1 : y = n
    · subst h1
      simp [prioSetParent, hout, hy, hmem, hnp]
    · by_cases h2 : y = p
      · subst h2
        simp [prioSetParent, hout, hy, hmem, h1]
      · simp [prioSetParent, hout, hy, hmem, h1, h2]

/-- `prio_swap` exchanges a node with its parent, and their balances stay in place. -/
theorem prioSwap_focus {f : Frame ι PrioBalance} {l r : LTree ι PrioBalance}
    (h : Focus s (f :: ctx) (.node l n bn r)) :
    Focus (prioSwap n f.x s) ctx (.make f.dir (.node l f.x bn r) n f.tag f.sib) := by
  obtain ⟨d, p, bp, c⟩ := f
  obtain ⟨a, b, e⟩ : ∃ a b, ∀ y, LTree.node l y bn r = .make d a y bn b := by
    cases d
    · exact ⟨l, r, fun _ => rfl⟩
    · exact ⟨r, l, fun _ => rfl⟩
  have hl := h.left_eq_iff rfl
  simp only [e] at h ⊢
  have h1 := prioSwapSide_focus (Focus.near_iff.mpr h)
  have hn : prioBalance n (prioSwapSide d n p s) = bn := by rw [prioBalance, h1.mem_top, Cell.make_tag]
  have hp : prioBalance p (prioSwapSide d n p s) = bp := by
    rw [prioBalance, (Focus.near_iff.mp h1).mem_top, Cell.make_tag]
  have hside : prioSwap n p s = prioSetBalance p bn (prioSetBalance n bp (prioSwapSide d n p s)) := by
    cases d <;> simp [prioSwap, hl, hn, hp]
  rw [hside]
  exact Focus.near_iff.mpr ((Focus.near_iff.mp (h1.setTag bp)).setTag bn)

/-! ### Finding the next leaf -/

omit [DecidableEq ι] in
theorem top_eq_none {t : LTree ι PrioBalance} : t.top = none ↔ t = .nil := by
  cases t <;> simp

/-- The loop that looks for a place stops at the empty slot whose path may be changed. -/
theorem prioLink_focus (node : ι) {x : ι} (h : Focus s ctx t) (ht : t.top = some x)
    (hb : Balanced t) (hc : CtxBalanced (ctx.map changed) (size t + 1)) :
    ∃ f ctx', fill (f :: ctx') .nil = fill ctx t ∧ CtxBalanced ((f :: ctx').map changed) 1 ∧
      Prog.Returns (prioLink node x s) (f.x, s.setChild f.dir f.x (some node)) := by
  induction t generalizing ctx x with
  | nil => cases ht
  | node l y b r ihl ihr =>
      obtain rfl : y = x := Option.some.inj ht
      obtain ⟨hw, hl, hr⟩ := hb
      have hx : s.mem y = ⟨above ctx, b, l.top, r.top⟩ := h.linked.1
      obtain ⟨h1, h2⟩ := weighed_lighter hw
      rw [size_node] at hc
      cases b with
      | equalWeight =>
          have hc' : CtxBalanced ((⟨.left, y, .equalWeight, r⟩ :: ctx).map changed) (size l + 1) :=
            ⟨h1 rfl, hr, by simpa [Nat.add_right_comm] using hc⟩
          cases l with
          | nil =>
              refine ⟨⟨.left, y, .equalWeight, r⟩, ctx, rfl, hc', Prog.Returns.iterate_done ?_⟩
              simp [prioLinkPass, prioBalance, hx]
          | node l₁ z bz l₂ =>
              obtain ⟨f, ctx', e, hf, hret⟩ := ihl (Focus.near_iff (d := .left).mp h) rfl hl hc'
              refine ⟨f, ctx', e, hf, Prog.Returns.iterate_next ?_ hret⟩
              simp [prioLinkPass, prioBalance, hx]
      | leftHeavier =>
          have hc' : CtxBalanced ((⟨.right, y, .leftHeavier, l⟩ :: ctx).map changed) (size r + 1) :=
            ⟨h2 rfl, hl, by
              simpa [Nat.add_right_comm, Nat.add_comm, Nat.add_left_comm] using hc⟩
          cases r with
          | nil =>
              refine ⟨⟨.right, y, .leftHeavier, l⟩, ctx, rfl, hc', Prog.Returns.iterate_done ?_⟩
              simp [prioLinkPass, prioBalance, hx]
          | node r₁ z bz r₂ =>
              obtain ⟨f, ctx', e, hf, hret⟩ := ihr (Focus.near_iff (d := .right).mp h) rfl hr hc'
              refine ⟨f, ctx', e, hf, Prog.Returns.iterate_next ?_ hret⟩
              simp [prioLinkPass, prioBalance, hx]

omit [DecidableEq ι] in
/-- The loop that looks for a victim stops at a leaf whose path may be changed. -/
theorem prioVictim_focus (h : Focus s ctx t) (ht : t ≠ .nil) (hb : Balanced t)
    (hc : CtxBalanced (ctx.map changed) (size t - 1)) :
    ∃ ctx' v, fill ctx' (.node .nil v .equalWeight .nil) = fill ctx t ∧
      CtxBalanced (ctx'.map changed) 0 ∧
      Prog.Returns (Prog.iterate (fun p => .ofOption (prioVictimPass s p)) (t.top, above ctx))
        (v, above ctx') := by
  induction t generalizing ctx with
  | nil => exact absurd rfl ht
  | node l x b r ihl ihr =>
      rw [size_node, Nat.add_sub_cancel] at hc
      obtain ⟨hw, hl, hr⟩ := hb
      have hx : s.mem x = ⟨above ctx, b, l.top, r.top⟩ := h.linked.1
      obtain ⟨h1, h2⟩ := weighed_heavier hw
      cases b with
      | equalWeight =>
          cases r with
          | nil =>
              obtain rfl : l = .nil := by
                rcases hw with ⟨-, hw⟩ | ⟨hw, -⟩
                · exact size_eq_zero.mp hw
                · cases hw
              refine ⟨ctx, x, rfl, hc, Prog.Returns.iterate_done ?_⟩
              simp [prioVictimPass, prioBalance, hx]
          | node r₁ z bz r₂ =>
              have hc' : CtxBalanced ((⟨.right, x, .equalWeight, l⟩ :: ctx).map changed)
                  (size (.node r₁ z bz r₂) - 1) := by
                refine ⟨h1 rfl (by simp), hl, ?_⟩
                simpa [Nat.add_comm, Nat.add_left_comm] using hc
              obtain ⟨ctx', v, e, hf, hret⟩ := ihr (Focus.near_iff (d := .right).mp h) nofun hr hc'
              refine ⟨ctx', v, e, hf, Prog.Returns.iterate_next ?_ hret⟩
              simp [prioVictimPass, prioBalance, hx]
      | leftHeavier =>
          cases l with
          | nil => exact absurd (h2 rfl).1 (by simp)
          | node l₁ z bz l₂ =>
              have hc' : CtxBalanced ((⟨.left, x, .leftHeavier, r⟩ :: ctx).map changed)
                  (size (.node l₁ z bz l₂) - 1) := by
                refine ⟨(h2 rfl).2, hr, ?_⟩
                simpa [Nat.add_right_comm] using hc
              obtain ⟨ctx', v, e, hf, hret⟩ := ihl (Focus.near_iff (d := .left).mp h) nofun hl hc'
              refine ⟨ctx', v, e, hf, Prog.Returns.iterate_next ?_ hret⟩
              simp [prioVictimPass, prioBalance, hx]

end Libls.Prio
