import Libls.Library.LinkedTreeMoves

/-! # Values cached in the nodes of a tree

An augmented tree keeps in each node a value that is computed from the data of the node and the values
of its children by a function `comb`.  `Cached comb data value t` says that all these values of the tree
`t` are right; `CachedCtx` is the same of a tree with a hole below which the value `v` is, and
`StaleCtx` leaves the first node above the hole out.

Rotations need `RotationLaw comb`.  With it the value at the top of a tree depends on the sequence of its
nodes only (`Cached.top_eq_aggregate`), and a rotation changes the value of the two nodes that it
exchanges only (`CachedCtx.rotated`).

`Chain` is what a program sees that climbs from a hole to a node `stop`, reading the children of each
node it comes to. -/

namespace Libls.LinkedTree

variable {ι τ α β : Type} {comb : α → Option β → Option β → β} {data data' : ι → α} {value value' : ι → β}
  {l r t t' a b c : LTree ι τ} {x y p g : ι} {tag tx tx' ty ty' tp tp' tg tg' : τ} {ctx : List (Frame ι τ)}
  {d : Dir} {v : Option β}

/-! ### Aggregates of sequences -/

/-- The order in which the values are combined does not matter: the two sides are the values of the trees
before and after a rotation. -/
def RotationLaw (comb : α → Option β → Option β → β) : Prop :=
  ∀ x y a b c, comb y (some (comb x a b)) c = comb x a (some (comb y b c))

/-- The value of a sequence. -/
def aggregate (comb : α → Option β → Option β → β) : List α → Option β
  | [] => none
  | x :: xs => some (comb x none (aggregate comb xs))

theorem aggregate_append_cons (hrot : RotationLaw comb) (as bs : List α) (x : α) :
    aggregate comb (as ++ x :: bs) = some (comb x (aggregate comb as) (aggregate comb bs)) := by
  induction as with
  | nil => rfl
  | cons y as ih =>
      rw [List.cons_append, aggregate, ih, ← hrot]
      rfl

/-! ### Right values -/

/-- The value of a node whose child on side `d` has the value `near`. -/
def combOn (comb : α → Option β → Option β → β) (d : Dir) (x : α) (near far : Option β) : β :=
  match d with
  | .left => comb x near far
  | .right => comb x far near

theorem RotationLaw.combOn (hrot : RotationLaw comb) (d : Dir) (x y : α) (a b c : Option β) :
    combOn comb d y (some (combOn comb d x a b)) c = combOn comb d x a (some (combOn comb d y b c)) := by
  cases d with
  | left => exact hrot x y a b c
  | right => exact (hrot y x c b a).symm

/-- Every node has the value that its data and the values of its children make. -/
def Cached (comb : α → Option β → Option β → β) (data : ι → α) (value : ι → β) : LTree ι τ → Prop
  | .nil => True
  | .node l x _ r => value x = comb (data x) (l.top.map value) (r.top.map value) ∧
      Cached comb data value l ∧ Cached comb data value r

/-- The nodes of a context have right values for a tree of value `v` in its hole. -/
def CachedCtx (comb : α → Option β → Option β → β) (data : ι → α) (value : ι → β) :
    Option β → List (Frame ι τ) → Prop
  | _, [] => True
  | v, f :: ctx => value f.x = combOn comb f.dir (data f.x) v (f.sib.top.map value) ∧
      Cached comb data value f.sib ∧ CachedCtx comb data value (some (value f.x)) ctx

/-- The nodes of a context have right values, but for the first one, whose value may be any. -/
def StaleCtx (comb : α → Option β → Option β → β) (data : ι → α) (value : ι → β) :
    List (Frame ι τ) → Prop
  | [] => True
  | f :: ctx => Cached comb data value f.sib ∧ CachedCtx comb data value (some (value f.x)) ctx

@[simp] theorem cached_nil : Cached comb data value (.nil : LTree ι τ) := trivial

@[simp] theorem cached_make : Cached comb data value (.make d l x tag r) ↔
    value x = combOn comb d (data x) (l.top.map value) (r.top.map value) ∧
      Cached comb data value l ∧ Cached comb data value r := by
  cases d with
  | left => exact Iff.rfl
  | right => exact and_congr Iff.rfl and_comm

theorem CachedCtx.stale (h : CachedCtx comb data value v ctx) : StaleCtx comb data value ctx := by
  cases ctx with
  | nil => trivial
  | cons f ctx => exact h.2

theorem cached_fill : Cached comb data value (fill ctx t) ↔
    Cached comb data value t ∧ CachedCtx comb data value (t.top.map value) ctx := by
  induction ctx generalizing t with
  | nil => exact (and_iff_left trivial).symm
  | cons f ctx ih =>
      rw [fill, ih, Frame.fill, cached_make, LTree.top_make, CachedCtx, Option.map_some]
      tauto

theorem top_map_congr (hv : ∀ y ∈ t.toList, value' y = value y) : t.top.map value' = t.top.map value := by
  cases t with
  | nil => rfl
  | node l y tag r => exact congrArg some (hv y (by simp))

/-- The values depend on the nodes of the tree only. -/
theorem Cached.congr_all (h : Cached comb data value t)
    (hv : ∀ y ∈ t.toList, value' y = value y ∧ data' y = data y) : Cached comb data' value' t := by
  induction t with
  | nil => trivial
  | node l x tag r ihl ihr =>
      obtain ⟨hx, hl, hr⟩ := h
      simp only [LTree.toList_node, List.mem_append, List.mem_cons] at hv
      have hvl : ∀ y ∈ l.toList, value' y = value y ∧ data' y = data y := fun y hy => hv y (.inl hy)
      have hvr : ∀ y ∈ r.toList, value' y = value y ∧ data' y = data y := fun y hy => hv y (.inr (.inr hy))
      have hvx := hv x (.inr (.inl rfl))
      refine ⟨?_, ihl hl hvl, ihr hr hvr⟩
      rw [hvx.1, hvx.2, hx, top_map_congr fun y hy => (hvl y hy).1, top_map_congr fun y hy => (hvr y hy).1]

theorem Cached.congr (h : Cached comb data value t) (hv : ∀ y ∈ t.toList, value' y = value y) :
    Cached comb data value' t := h.congr_all fun y hy => ⟨hv y hy, rfl⟩

theorem CachedCtx.congr_all (h : CachedCtx comb data value v ctx)
    (hv : ∀ y ∈ ctxNodes ctx, value' y = value y ∧ data' y = data y) : CachedCtx comb data' value' v ctx := by
  induction ctx generalizing v with
  | nil => trivial
  | cons f ctx ih =>
      obtain ⟨hf, hs, hc⟩ := h
      simp only [ctxNodes_cons, List.mem_cons, List.mem_append] at hv
      have hvs : ∀ y ∈ f.sib.toList, value' y = value y ∧ data' y = data y := fun y hy => hv y (.inr (.inl hy))
      have hvf := hv f.x (.inl rfl)
      refine ⟨?_, hs.congr_all hvs, ?_⟩
      · rw [hvf.1, hvf.2, hf, top_map_congr fun y hy => (hvs y hy).1]
      · rw [hvf.1]
        exact ih hc fun y hy => hv y (.inr (.inr hy))

theorem CachedCtx.congr (h : CachedCtx comb data value v ctx) (hv : ∀ y ∈ ctxNodes ctx, value' y = value y) :
    CachedCtx comb data value' v ctx := h.congr_all fun y hy => ⟨hv y hy, rfl⟩

/-- The value at the top of a tree is the value of its sequence. -/
theorem Cached.top_eq_aggregate (hrot : RotationLaw comb) (h : Cached comb data value t) :
    t.top.map value = aggregate comb (t.toList.map data) := by
  induction t with
  | nil => rfl
  | node l x tag r ihl ihr =>
      obtain ⟨hx, hl, hr⟩ := h
      rw [LTree.toList_node, List.map_append, List.map_cons, aggregate_append_cons hrot, ← ihl hl, ← ihr hr,
        ← hx]
      rfl

/-- The values are right in whichever way the nodes are tagged and whatever their parent pointers are. -/
theorem Cached.of_linked {m m' : ι → Cell ι τ} {par par' : Option ι} (h : Cached comb data value t)
    (hl : Linked m par t) (hl' : Linked m' par' t') (htop : t'.top = t.top)
    (hm : ∀ y ∈ t.toList, (m' y).left = (m y).left ∧ (m' y).right = (m y).right) :
    Cached comb data value t' := by
  induction t generalizing par par' t' with
  | nil =>
      cases t' with
      | nil => trivial
      | node => cases htop
  | node l x tag r ihl ihr =>
      cases t' with
      | nil => trivial
      | node l' x' tag' r' =>
          obtain rfl : x' = x := Option.some.inj htop
          obtain ⟨hx, hl, hr⟩ := hl
          obtain ⟨hx', hl', hr'⟩ := hl'
          have hch := hm x' (by simp)
          rw [hx, hx'] at hch
          have htl : l'.top = l.top := hch.1
          have htr : r'.top = r.top := hch.2
          refine ⟨?_, ihl h.2.1 hl hl' htl fun y hy => hm y (by simp [hy]),
            ihr h.2.2 hr hr' htr fun y hy => hm y (by simp [hy])⟩
          rw [htl, htr]
          exact h.1

/-- Right values, node by node. -/
theorem cached_iff {m : ι → Cell ι τ} {par : Option ι} (h : Linked m par t) : Cached comb data value t ↔
    ∀ y ∈ t.toList, value y = comb (data y) ((m y).left.map value) ((m y).right.map value) := by
  induction t generalizing par with
  | nil => simp
  | node l x tag r ihl ihr =>
      obtain ⟨hx, hl, hr⟩ := h
      simp only [Cached, ihl hl, ihr hr, LTree.toList_node, List.mem_append, List.mem_cons, or_imp, forall_and,
        forall_eq, hx]
      tauto

/-! ### Rotations -/

/-- A rotation that lifts `p` over `g`, after which `p` has the value that `g` had, and `g` is computed
again. -/
theorem Cached.rotated (hrot : RotationLaw comb)
    (h : Cached comb data value (fill ctx (.make d (.make d a p tp b) g tg c)))
    (hnd : (fill ctx (.make d (.make d a p tp b) g tg c)).toList.Nodup)
    (hp : value' p = value g) (hg : value' g = combOn comb d (data g) (b.top.map value) (c.top.map value))
    (hv : ∀ y, y ≠ p → y ≠ g → value' y = value y) :
    Cached comb data value' (fill ctx (.make d a p tp' (.make d b g tg' c))) := by
  rw [cached_fill, cached_make, cached_make, LTree.top_make, LTree.top_make, Option.map_some, Option.map_some] at h
  obtain ⟨⟨hvg, ⟨hvp, ha, hb⟩, hc⟩, hctx⟩ := h
  have hnd' : (LTree.make d (.make d a p tp b) g tg c).toList.Nodup ∧
      ∀ y ∈ ctxNodes ctx, y ≠ p ∧ y ≠ g := by
    rw [toList_fill, List.append_assoc] at hnd
    have hperm : (before ctx ++ ((LTree.make d (.make d a p tp b) g tg c).toList ++ after ctx)).Perm
        ((LTree.make d (.make d a p tp b) g tg c).toList ++ ctxNodes ctx) :=
      (List.perm_append_comm_assoc _ _ _).trans ((ctxNodes_perm ctx).symm.append_left _)
    have := hperm.nodup_iff.mp hnd
    rw [List.nodup_append'] at this
    refine ⟨this.1, fun y hy => ⟨?_, ?_⟩⟩
    · rintro rfl
      exact this.2.2 (by simp) hy
    · rintro rfl
      exact this.2.2 (by simp) hy
  obtain ⟨hnd, hout⟩ := hnd'
  simp only [LTree.nodup_make, LTree.mem_make, not_or] at hnd
  have hva : ∀ y ∈ a.toList, value' y = value y := fun y hy => hv y (by grind) (by grind)
  have hvb : ∀ y ∈ b.toList, value' y = value y := fun y hy => hv y (by grind) (by grind)
  have hvc : ∀ y ∈ c.toList, value' y = value y := fun y hy => hv y (by grind) (by grind)
  rw [cached_fill, cached_make, cached_make, LTree.top_make, LTree.top_make, Option.map_some, Option.map_some,
    top_map_congr hva, top_map_congr hvb, top_map_congr hvc, hp]
  refine ⟨⟨?_, ha.congr hva, hg, hb.congr hvb, hc.congr hvc⟩,
    hctx.congr fun y hy => hv y (hout y hy).1 (hout y hy).2⟩
  rw [hg, hvg, hvp, hrot.combOn]

/-! ### Climbing -/

/-- The cells of the nodes of a context, up to a node `stop` above it, with the pointer `hole` in the
hole. -/
def Chain (m : ι → Cell ι τ) (stop : Option ι) : Option ι → List (Frame ι τ) → Prop
  | _, [] => True
  | hole, f :: ctx => m f.x = .make f.dir ((above ctx).or stop) f.tag hole f.sib.top ∧
      Chain m stop (some f.x) ctx

theorem LinkedCtx.chain {m : ι → Cell ι τ} {root hole : Option ι} {ctx' : List (Frame ι τ)}
    (h : LinkedCtx m root hole (ctx ++ ctx')) : Chain m (above ctx') hole ctx := by
  induction ctx generalizing hole with
  | nil => trivial
  | cons f ctx ih =>
      obtain ⟨hf, -, hc⟩ := h
      refine ⟨?_, ih hc⟩
      cases ctx with
      | nil => exact hf
      | cons g ctx => exact hf

theorem Chain.congr {m m' : ι → Cell ι τ} {stop hole : Option ι} (h : Chain m stop hole ctx)
    (hm : ∀ y ∈ ctxNodes ctx, m' y = m y) : Chain m' stop hole ctx := by
  induction ctx generalizing hole with
  | nil => trivial
  | cons f ctx ih =>
      obtain ⟨hf, hc⟩ := h
      exact ⟨(hm f.x (by simp)).trans hf, ih hc fun y hy => hm y (by simp [hy])⟩

/-- Another node comes above the top node `x` of the chain. -/
theorem Chain.restop [DecidableEq ι] {m m' : ι → Cell ι τ} {stop stop' hole : Option ι}
    (h : Chain m stop hole ctx) (hnd : (ctxNodes ctx).Nodup) (htop : (fill ctx t).top = some x)
    (hm : ∀ y ∈ ctxNodes ctx, m' y = if y = x then (m y).setParent stop' else m y) :
    Chain m' stop' hole ctx := by
  induction ctx generalizing hole t with
  | nil => trivial
  | cons f ctx ih =>
      obtain ⟨hf, hc⟩ := h
      cases ctx with
      | nil =>
          have hfx : f.x = x := by simpa [fill, Frame.fill] using htop
          refine ⟨?_, trivial⟩
          rw [hm f.x (by simp), if_pos hfx, hf, Cell.make_setParent]
          rfl
      | cons g ctx =>
          obtain ⟨x', hx', htop'⟩ := exists_top_fill g ctx
          obtain rfl : x' = x := Option.some.inj ((htop' _).symm.trans htop)
          simp only [ctxNodes_cons f, List.nodup_cons, List.mem_append, not_or] at hnd
          have hne : f.x ≠ x' := fun e => hnd.1.2 (e ▸ hx')
          refine ⟨?_, ih hc (List.nodup_append'.mp hnd.2).2.1 htop fun y hy => hm y ?_⟩
          · rw [hm f.x (by simp), if_neg hne, hf]
            rfl
          · exact List.mem_cons_of_mem _ (List.mem_append_right _ hy)

theorem Focus.chain {s : Store ι τ} (h : Focus s ctx t) : Chain s.mem none t.top ctx := by
  have hc := h.ctx_linked
  rw [← List.append_nil ctx] at hc
  exact hc.chain

end Libls.LinkedTree
