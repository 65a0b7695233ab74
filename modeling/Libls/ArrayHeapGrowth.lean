import Libls.ArrayHeapRuns
import Libls.Library.Runs

/-! # How far an array heap can grow

`heap_insert` doubles the size of a full array, and takes a size of 0 for that of an array which has
not been allocated yet.  `Doubled` are the sizes this comes through: 0 and the powers of two up to
`2 ^ 31`, whose double is 0 again.  Nothing here depends on the order, so a run (`Call`) may use
any comparison function, and another one in each call.

`heap_insert_keeps_iff` says which insertions are right: all of them but the one into a full array of
`2 ^ 31` nodes.  The children of a slot always have the numbers that the loops compute. -/

namespace Libls.ArrayHeap

variable {ι : Type} [DecidableEq ι] {cmp : ι → ι → ℤ} {h h' h₁ : Heap ι} {S : Finset ι} {x : ι} {a : ℕ → ι}
  {n p : ℕ}

/-! ### The size -/

/-- The sizes that doubling comes through. -/
def Doubled (size : ℕ) : Prop := size = 0 ∨ ∃ k, k ≤ 31 ∧ size = 2 ^ k

theorem Doubled.le {size : ℕ} (hd : Doubled size) : size ≤ 2 ^ 31 := by
  rcases hd with rfl | ⟨k, hk, rfl⟩
  · exact Nat.zero_le _
  · exact Nat.pow_le_pow_right (by decide) hk

/-- The first size, and the double of a size that can be doubled. -/
theorem Doubled.double {size : ℕ} (hd : Doubled size) (hlt : size < 2 ^ 31) :
    Doubled (if u32 (size * 2) = 0 then 1 else u32 (size * 2)) := by
  rw [u32_of_lt (by omega)]
  rcases hd with rfl | ⟨k, hk, rfl⟩
  · exact .inr ⟨0, by omega, rfl⟩
  · have hk' : k < 31 := (Nat.pow_lt_pow_iff_right (by decide)).mp hlt
    have hpos : 2 ^ k * 2 ≠ 0 := (Nat.mul_pos (Nat.two_pow_pos k) (by decide)).ne'
    rw [if_neg hpos]
    exact .inr ⟨k + 1, hk', (Nat.pow_succ 2 k).symm⟩

omit [DecidableEq ι] in
theorem heapGrow_len {ok : Bool} (hg : heapGrow ok h = some h₁) : h₁.len = h.len := by
  unfold heapGrow at hg
  cases ok <;> split_ifs at hg <;> cases hg <;> rfl

omit [DecidableEq ι] in
theorem heapGrow_doubled {ok : Bool} (hd : Doubled h.size) (hfits : h.len ≤ h.size) (hlt : h.len < 2 ^ 31)
    (hg : heapGrow ok h = some h₁) : Doubled h₁.size := by
  unfold heapGrow at hg
  by_cases hfull : h.size ≤ h.len
  · rw [if_pos hfull] at hg
    cases ok with
    | false => simp at hg
    | true =>
        have hh := Option.some.inj hg
        rw [← hh]
        exact hd.double (by omega)
  · rw [if_neg hfull] at hg
    cases hg
    exact hd

omit [DecidableEq ι] in
/-- At `2 ^ 31` the double of the size is 0, and the new array has a single slot. -/
theorem heapGrow_wraps (hd : Doubled h.size) (hfits : h.len ≤ h.size) (hlen : h.len = 2 ^ 31)
    (hg : heapGrow true h = some h₁) : h₁.node.size = 1 := by
  have hsize : h.size = 2 ^ 31 := by
    have := hd.le
    omega
  have hu : u32 (2 ^ 31 * 2) = 0 := by decide
  simp only [heapGrow, hsize, hlen, hu, le_refl, if_true, Option.some.injEq] at hg
  rw [← hg]
  exact Block.size_realloc

/-- The insertion into a full array of `2 ^ 31` nodes writes behind the new array. -/
theorem heapInsert_wraps {r : Heap ι × ℤ} (hd : Doubled h.size) (hfits : h.len ≤ h.size)
    (hlen : h.len = 2 ^ 31) : ¬ Prog.Returns (heapInsert cmp true x h) r := by
  intro hr
  unfold heapInsert at hr
  cases hg : heapGrow true h with
  | none =>
      unfold heapGrow at hg
      split_ifs at hg with _ hok
      exact hok rfl
  | some h₁ =>
      rw [hg] at hr
      obtain ⟨b, hb, -⟩ := Prog.returns_bind.mp hr
      have hlen₁ : h₁.len = h.len := heapGrow_len hg
      have hout : ¬ h₁.len < h₁.node.size := by
        rw [heapGrow_wraps hd hfits hlen hg]
        omega
      rw [Prog.returns_lift, Block.write, if_neg hout] at hb
      cases hb

/-! ### Moving nodes keeps the size -/

theorem heapSwap_size {y : ι} (hs : heapSwap x y h = some h') : h'.size = h.size := by
  simp only [heapSwap, Option.bind_eq_bind, Option.bind_eq_some_iff] at hs
  obtain ⟨b₁, -, b₂, -, hs⟩ := hs
  cases hs
  rfl

theorem heapPullUpPass_size {r : Iter (Heap ι) (Heap ι)} (hr : heapPullUpPass cmp x h = some r) :
    r = .done h ∨ ∃ h₁, r = .next h₁ ∧ h₁.size = h.size := by
  unfold heapPullUpPass at hr
  by_cases h0 : 0 < h.idx x
  · rw [if_pos h0] at hr
    obtain ⟨parent, -, hr⟩ := Option.bind_eq_some_iff.mp hr
    by_cases hle : cmp x parent ≤ 0
    · rw [if_pos hle] at hr
      cases hr
      exact .inl rfl
    · rw [if_neg hle] at hr
      obtain ⟨h₁, hh₁, hr⟩ := Option.bind_eq_some_iff.mp hr
      cases hr
      exact .inr ⟨h₁, rfl, heapSwap_size hh₁⟩
  · rw [if_neg h0] at hr
    cases hr
    exact .inl rfl

theorem heapPullUp_size (hr : Prog.Returns (heapPullUp cmp x h) h') : h'.size = h.size := by
  obtain ⟨h₁, hreach, hdone⟩ := hr.reached
  have hsize : h₁.size = h.size := by
    refine hreach.invariant (I := fun h₁ => h₁.size = h.size) (fun h₁ h₂ hI hpass => ?_) rfl
    rcases heapPullUpPass_size (Prog.returns_ofOption.mp hpass) with hd | ⟨h₃, hn, hsz⟩
    · cases hd
    · cases hn
      exact hsz.trans hI
  rcases heapPullUpPass_size (Prog.returns_ofOption.mp hdone) with hd | ⟨h₃, hn, -⟩
  · cases hd
    exact hsize
  · cases hn

theorem heapDeletePass_size {s : ι × ℕ × Heap ι} {r : Iter (ι × ℕ × Heap ι) (ι × ℕ × Heap ι)}
    (hr : heapDeletePass cmp s = some r) :
    r = .done s ∨ ∃ s₁, r = .next s₁ ∧ s₁.2.2.size = s.2.2.size := by
  obtain ⟨node, p, h⟩ := s
  rw [heapDeletePass] at hr
  by_cases hc : h.len < u32 (p * 2 + 1)
  · rw [if_pos hc] at hr
    cases hr
    exact .inl rfl
  · rw [if_neg hc] at hr
    obtain ⟨larger, -, hr⟩ := Option.bind_eq_some_iff.mp hr
    obtain ⟨b, -, hr⟩ := Option.bind_eq_some_iff.mp hr
    cases hr
    exact .inr ⟨_, rfl, rfl⟩

theorem heapDelete_size (hr : Prog.Returns (heapDelete cmp x h) h') : h'.size = h.size := by
  obtain ⟨n, hn⟩ : ∃ n, u32 (h.len + 2 ^ 32 - 1) = n := ⟨_, rfl⟩
  simp only [heapDelete, hn] at hr
  split_ifs at hr with h0
  · rw [← Prog.returns_pure.mp hr]
  · obtain ⟨last, -, hr⟩ := Prog.returns_bind.mp hr
    split_ifs at hr with hlast
    · rw [← Prog.returns_pure.mp hr]
    · obtain ⟨⟨node, p, h₁⟩, hloop, hr⟩ := Prog.returns_bind.mp hr
      have hsize : h₁.size = h.size := by
        obtain ⟨s, hreach, hdone⟩ := hloop.reached
        have hs : s.2.2.size = h.size := by
          refine hreach.invariant (I := fun s => s.2.2.size = h.size) (fun s s' hI hpass => ?_) rfl
          rcases heapDeletePass_size (Prog.returns_ofOption.mp hpass) with hd | ⟨s₁, hn, hsz⟩
          · cases hd
          · cases hn
            exact hsz.trans hI
        rcases heapDeletePass_size (Prog.returns_ofOption.mp hdone) with hd | ⟨s₁, hn, -⟩
        · cases hd
          exact hs
        · cases hn
      split_ifs at hr with hnode
      · rw [← Prog.returns_pure.mp hr]
        exact hsize
      · obtain ⟨b, -, hr⟩ := Prog.returns_bind.mp hr
        exact (heapPullUp_size hr).trans hsize

/-! ### Runs -/

/-- A call of a program that uses one heap, with the comparison function of that moment. -/
inductive Call (ι : Type) where
  | insert (cmp : ι → ι → ℤ) (node : ι) (ok : Bool)
  | delete (cmp : ι → ι → ℤ) (node : ι)
  | adjust (cmp : ι → ι → ℤ) (node : ι)
  /-- The nodes outside the heap belong to the program. -/
  | outside (idx : ι → ℕ)

namespace Call

/-- The call, with the return value of `heap_insert`. -/
def exec : Call ι → Heap ι → Prog (Heap ι × ℤ)
  | .insert cmp node ok, h => heapInsert cmp ok node h
  | .delete cmp node, h => do return (← heapDelete cmp node h, 0)
  | .adjust cmp node, h => do return (← heapAdjust cmp node h, 0)
  | .outside idx, h => return ({ h with idx := idx }, 0)

def Legal (h : Heap ι) (S : Finset ι) : Call ι → Prop
  | .insert _ node _ => node ∉ S
  | .delete _ node => node ∈ S
  | .adjust _ node => node ∈ S
  | .outside idx => ∀ x ∈ S, idx x = h.idx x

/-- The members after a call that has returned `ret`. -/
def members (S : Finset ι) (ret : ℤ) : Call ι → Finset ι
  | .insert _ node _ => if ret = 0 then Insert.insert node S else S
  | .delete _ node => S.erase node
  | _ => S

/-- A call takes the heap with its members to the next heap. -/
def Step (s : Heap ι × Finset ι) (c : Call ι) (s' : Heap ι × Finset ι) : Prop :=
  c.Legal s.1 s.2 ∧ ∃ ret, Prog.Returns (c.exec s.1) (s'.1, ret) ∧ s'.2 = c.members s.2 ret

end Call

/-- What all heaps have in common, whatever their order. -/
structure Growing (h : Heap ι) (S : Finset ι) : Prop where
  heap : HeapOf (fun _ _ => True) h S
  doubled : Doubled h.size

omit [DecidableEq ι] in
theorem Growing.init (idx : ι → ℕ) : Growing (heapInit idx) ∅ := ⟨.inl ⟨rfl, rfl, rfl⟩, .inl rfl⟩

omit [DecidableEq ι] in
theorem Growing.len_le (hg : Growing h S) : h.len ≤ h.size ∧ h.len ≤ 2 ^ 31 := by
  have hd := hg.doubled.le
  rcases hg.heap with ⟨hlen, -, -⟩ | ⟨a, hv⟩
  · omega
  · have := hv.fits
    omega

/-- An insertion that has a result keeps what all heaps have in common. -/
theorem Growing.insert {ok : Bool} {ret : ℤ} (hg : Growing h S) (hx : x ∉ S)
    (hr : Prog.Returns (heapInsert cmp ok x h) (h', ret)) : Growing h' (if ret = 0 then insert x S else S) := by
  obtain ⟨a, hv⟩ := hg.heap.inv x
  obtain ⟨hfits, hle⟩ := hg.len_le
  cases hgrow : heapGrow ok h with
  | none =>
      unfold heapInsert at hr
      rw [hgrow] at hr
      cases Prog.returns_pure.mp hr
      exact hg
  | some h₁ =>
      by_cases hlt : h.len < 2 ^ 31
      · obtain ⟨h'', a', hret, hv', hlen, hsize⟩ := heapInsert_grown (Agrees.any cmp) hv hlt hx hgrow
        cases hr.unique hret
        refine ⟨.inr ⟨a', by simpa using hv'⟩, ?_⟩
        rw [hsize]
        exact heapGrow_doubled hg.doubled hfits hlt hgrow
      · have hlen : h.len = 2 ^ 31 := by omega
        cases ok with
        | true => exact absurd hr (heapInsert_wraps hg.doubled hfits hlen)
        | false =>
            have hfull : h.size ≤ h.len := by
              have := hg.doubled.le
              omega
            simp [heapGrow, hfull] at hgrow

theorem Growing.step {s s' : Heap ι × Finset ι} {c : Call ι} (hs : Call.Step s c s') (hg : Growing s.1 s.2) :
    Growing s'.1 s'.2 := by
  obtain ⟨h, S⟩ := s
  obtain ⟨h', S'⟩ := s'
  obtain ⟨hlegal, ret, hr, rfl⟩ := hs
  have hle := hg.len_le.2
  cases c with
  | insert cmp node ok => exact hg.insert hlegal hr
  | delete cmp node =>
      obtain ⟨h₁, hr₁, hret⟩ := Prog.returns_bind.mp hr
      cases Prog.returns_pure.mp hret
      obtain ⟨a, hv⟩ := hg.heap.inv node
      obtain ⟨h₂, a', hr₂, hv', -⟩ := heapDelete_spec (Agrees.any cmp) hv hle hlegal
      cases hr₁.unique hr₂
      exact ⟨.inr ⟨a', hv'⟩, (heapDelete_size hr₁).symm ▸ hg.doubled⟩
  | adjust cmp node =>
      obtain ⟨h₁, hr₁, hret⟩ := Prog.returns_bind.mp hr
      cases Prog.returns_pure.mp hret
      obtain ⟨a, hv⟩ := hg.heap.inv node
      obtain ⟨h₂, a', hr₂, hv', -, hsize⟩ := heapAdjust_spec (Agrees.any cmp) (fun _ _ _ _ _ => trivial) hv
        (fun _ _ _ _ _ => trivial) hlegal hle
      cases hr₁.unique hr₂
      exact ⟨.inr ⟨a', hv'⟩, hsize.symm ▸ hg.doubled⟩
  | outside idx =>
      cases Prog.returns_pure.mp hr
      refine ⟨hg.heap.imp_right ?_, hg.doubled⟩
      rintro ⟨a, hv⟩
      refine ⟨a, fun i hi => ?_, hv.order, hv.members, hv.fits, hv.block⟩
      obtain ⟨hrd, hx⟩ := hv.slots i hi
      exact ⟨hrd, (hlegal (a i) ((hv.members _).mpr ⟨i, hi, rfl⟩)).trans hx⟩

theorem Growing.of_run {s : Heap ι × Finset ι} {cs : List (Call ι)} {idx : ι → ℕ}
    (hr : Libls.Run Call.Step (heapInit idx, ∅) cs s) : Growing s.1 s.2 := by
  apply hr.invariant (P := fun _ => True) (I := fun s => Growing s.1 s.2)
  · intro s c s' hs _ hg
    exact hg.step hs
  · exact fun _ _ => trivial
  · exact Growing.init idx

/-! ### What an insertion keeps -/

/-- The nodes of a heap stand in slots that they know. -/
structure Holds (h : Heap ι) (S : Finset ι) : Prop where
  node : ∀ x ∈ S, h.idx x < h.len ∧ h.node.read (h.idx x) = some x
  slot : ∀ i < h.len, ∃ x ∈ S, h.node.read i = some x ∧ h.idx x = i

omit [DecidableEq ι] in
theorem HeapInv.holds {le : ι → ι → Prop} (hv : HeapInv le h S a) : Holds h S := by
  refine ⟨fun x hx => ?_, fun i hi => ⟨a i, (hv.members _).mpr ⟨i, hi, rfl⟩, hv.slots i hi⟩⟩
  obtain ⟨i, hi, rfl⟩ := (hv.members x).mp hx
  obtain ⟨hrd, hidx⟩ := hv.slots i hi
  rw [hidx]
  exact ⟨hi, hrd⟩

/-- An insertion whose `realloc` succeeds writes into the new array, and adds one node to those that
are there. -/
def InsertKeeps (cmp : ι → ι → ℤ) (x : ι) (h : Heap ι) (S : Finset ι) : Prop :=
  ∃ h₁ h', heapGrow true h = some h₁ ∧ h₁.len < h₁.node.size ∧
    Prog.Returns (heapInsert cmp true x h) (h', 0) ∧ Holds h' (insert x S) ∧ h'.len = h.len + 1 ∧ h'.len ≤ h'.size

theorem Growing.insertKeeps_iff (hg : Growing h S) (hx : x ∉ S) : InsertKeeps cmp x h S ↔ h.len ≠ 2 ^ 31 := by
  obtain ⟨a, hv⟩ := hg.heap.inv x
  obtain ⟨hfits, hle⟩ := hg.len_le
  constructor
  · rintro ⟨h₁, h', -, -, hret, -⟩ hlen
    exact heapInsert_wraps hg.doubled hfits hlen hret
  · intro hne
    have hlt : h.len < 2 ^ 31 := by omega
    obtain ⟨h₁, hgrow⟩ : ∃ h₁, heapGrow true h = some h₁ := by
      unfold heapGrow
      by_cases hfull : h.size ≤ h.len
      · exact ⟨_, if_pos hfull⟩
      · exact ⟨_, if_neg hfull⟩
    obtain ⟨hv₁, -, -, hroom⟩ := heapGrow_inv hv hlt hgrow
    obtain ⟨h', a', hret, hv', hlen', -⟩ := heapInsert_grown (Agrees.any cmp) hv hlt hx hgrow
    exact ⟨h₁, h', hgrow, by rwa [hv₁.block], hret, hv'.holds, hlen', hv'.fits⟩

/-! ### The children of a slot -/

/-- The children of slot `p` have the numbers that the loops compute for them, the second one if the
first one does not lie behind the heap. -/
def ChildExact (p len : ℕ) : Prop :=
  u32 (p * 2 + 1) = p * 2 + 1 ∧ (p * 2 + 1 ≤ len → u32 (u32 (p * 2 + 1) + 1) = p * 2 + 2)

theorem childExact_of_lt {len : ℕ} (hp : p < 2 ^ 31) (hlen : len ≤ 2 ^ 31) : ChildExact p len := by
  have hu : u32 (p * 2 + 1) = p * 2 + 1 := u32_of_lt (by omega)
  refine ⟨hu, fun hle => ?_⟩
  rw [hu, u32_of_lt (by omega)]

/-- In all passes of `heap_push_down` and of the loop of `heap_delete`, for any member of the heap. -/
def ChildrenExact (cmp : ι → ι → ℤ) (h : Heap ι) (S : Finset ι) : Prop :=
  ∀ x ∈ S,
    (∀ h', Prog.Reached (fun h => .ofOption (heapPushDownPass cmp x h)) h h' → ChildExact (h'.idx x) h'.len) ∧
    ∀ node p h', Prog.Reached (fun s => .ofOption (heapDeletePass cmp s))
        (x, h.idx x, { h with len := u32 (h.len + 2 ^ 32 - 1) }) (node, p, h') → ChildExact p h'.len

/-- The node that `heap_push_down` moves stays among the first `n` slots. -/
theorem heapPushDown_reached {i : ℕ} (hs : Slots h a n) (hn : h.len = n) (hlt : n ≤ 2 ^ 31) (hi : i < n)
    (hr : Prog.Reached (fun h => .ofOption (heapPushDownPass cmp (a i) h)) h h') :
    ∃ a' j, j < n ∧ a' j = a i ∧ Moved h h' n a a' := by
  refine hr.invariant (I := fun h' => ∃ a' j, j < n ∧ a' j = a i ∧ Moved h h' n a a') ?_
    ⟨a, i, hi, rfl, Moved.refl hs⟩
  rintro h₁ h₂ ⟨a₁, j, hj, hax, hm⟩ hpass
  rw [← hax] at hpass
  rcases heapPushDownPass_spec (Agrees.any cmp) hm.slots (hm.len.trans hn) hlt hj with
    ⟨hdone, -⟩ | ⟨c, h₃, -, hcn, -, hnext, -, -, hm₃⟩
  · cases hdone.symm.trans (Prog.returns_ofOption.mp hpass)
  · cases hnext.symm.trans (Prog.returns_ofOption.mp hpass)
    refine ⟨_, c, hcn, ?_, hm.trans hm₃⟩
    rw [Function.update_self]
    exact hax

/-- So does the hole of `heap_delete`. -/
theorem Walking.reached {last node : ι} {s : ι × ℕ × Heap ι}
    (hw : Walking (fun _ _ => True) last S n a node p h) (hlt : n < 2 ^ 31)
    (hr : Prog.Reached (fun s => .ofOption (heapDeletePass cmp s)) (node, p, h) s) :
    ∃ a', Walking (fun _ _ => True) last S n a' s.1 s.2.1 s.2.2 := by
  refine hr.invariant (I := fun s => ∃ a', Walking (fun _ _ => True) last S n a' s.1 s.2.1 s.2.2) ?_ ⟨a, hw⟩
  rintro ⟨node₁, p₁, h₁⟩ s₂ ⟨a₁, hw₁⟩ hpass
  by_cases hp : 2 * p₁ + 1 ≤ n
  · obtain ⟨node₂, c, h₂, hnext, -, hw₂⟩ := hw₁.step (Agrees.any cmp) hlt hp
    cases hnext.symm.trans (Prog.returns_ofOption.mp hpass)
    exact ⟨_, hw₂⟩
  · have hdone : heapDeletePass cmp (node₁, p₁, h₁) = some (.done (node₁, p₁, h₁)) :=
      hw₁.leaves hlt (Nat.lt_of_not_le hp)
    cases hdone.symm.trans (Prog.returns_ofOption.mp hpass)

theorem Growing.childrenExact (hg : Growing h S) (cmp : ι → ι → ℤ) : ChildrenExact cmp h S := by
  intro x hx
  obtain ⟨a, hv⟩ := hg.heap.inv x
  obtain ⟨hfits, hle⟩ := hg.len_le
  obtain ⟨i, hi, rfl⟩ := (hv.members x).mp hx
  refine ⟨fun h' hreach => ?_, fun node p h' hreach => ?_⟩
  · obtain ⟨a', j, hj, hax, hm⟩ := heapPushDown_reached hv.slots rfl hle hi hreach
    have hidx : h'.idx (a i) = j := by
      rw [← hax]
      exact (hm.slots j hj).2
    rw [hidx, hm.len]
    exact childExact_of_lt (by omega) hle
  · obtain ⟨n, hn⟩ : ∃ n, h.len = n + 1 := ⟨h.len - 1, by omega⟩
    rw [u32_pred hn hle, (hv.slots i hi).2] at hreach
    obtain ⟨a', hw⟩ := (hv.walking (Agrees.any cmp) hn (hn ▸ hi)).reached (by omega) hreach
    have hhole : p ≤ n := hw.hole
    have hlen : h'.len = n := hw.len
    rw [hlen]
    exact childExact_of_lt (by omega) (by omega)

/-! ### All runs -/

/-- In every run an insertion whose `realloc` succeeds is right unless the heap has `2 ^ 31` nodes, and
the children of a slot have the numbers that are computed for them. -/
theorem heap_insert_keeps_iff {cs : List (Call ι)} {idx : ι → ℕ}
    (hr : Libls.Run Call.Step (heapInit idx, ∅) cs (h, S)) :
    (∀ cmp x, x ∉ S → (InsertKeeps cmp x h S ↔ h.len ≠ 2 ^ 31)) ∧ ∀ cmp, ChildrenExact cmp h S := by
  have hg : Growing h S := Growing.of_run hr
  constructor
  · intro cmp x hx
    exact hg.insertKeeps_iff hx
  · intro cmp
    exact hg.childrenExact cmp

instance Call.decidableLegal (h : Heap ι) (S : Finset ι) : (c : Call ι) → Decidable (c.Legal h S)
  | .insert _ node _ => inferInstanceAs (Decidable (node ∉ S))
  | .delete _ node => inferInstanceAs (Decidable (node ∈ S))
  | .adjust _ node => inferInstanceAs (Decidable (node ∈ S))
  | .outside idx => inferInstanceAs (Decidable (∀ x ∈ S, idx x = h.idx x))

/-- A legal call with the fuel `n`, and the members after it. -/
def Call.attempt (n : ℕ) (s : Heap ι × Finset ι) (c : Call ι) : Option (Heap ι × Finset ι) :=
  (Prog.attempt (c.Legal s.1 s.2) (c.exec s.1) n).map fun r => (r.1, c.members s.2 r.2)

theorem Call.step_of_attempt {s s' : Heap ι × Finset ι} {c : Call ι} (hs : c.attempt n s = some s') : c.Step s s' := by
  obtain ⟨hc, r, hr, rfl⟩ := Prog.attempt_map_eq_some hs
  exact ⟨hc, r.2, hr, rfl⟩

/-- After insertions of which one fails, deletions, and calls with another order, before the next insertion. -/
theorem heap_insert_keeps_sample : ∃ h : Heap ℤ, h.len = 3 ∧ h.size = 8 ∧
    (InsertKeeps (fun a b => a - b) 8 h {2, 3, 5} ↔ h.len ≠ 2 ^ 31) ∧
    ChildrenExact (fun a b => a - b) h {2, 3, 5} := by
  let up : ℤ → ℤ → ℤ := fun a b => a - b
  let down : ℤ → ℤ → ℤ := fun a b => b - a
  have hrun : (([.insert up 1 true, .insert up 2 true, .insert up 3 true, .insert up 4 true, .insert up 5 false,
      .insert down 5 true, .adjust down 1, .delete up 4, .delete down 1].foldlM (Call.attempt 9)
        (heapInit fun _ => 0, ∅)).map fun s => (s.1.len, s.1.size, s.2)) = some (3, 8, {2, 3, 5}) := by
    decide +kernel
  obtain ⟨⟨h, S⟩, hsee, hr⟩ := Libls.Run.of_exec (fun _ _ _ => Call.step_of_attempt) _ hrun
  obtain ⟨hlen, hrest⟩ := Prod.mk.inj hsee
  obtain ⟨hsize, rfl⟩ := Prod.mk.inj hrest
  obtain ⟨hkeeps, hexact⟩ := heap_insert_keeps_iff hr
  exact ⟨h, hlen, hsize, hkeeps up 8 (by decide), hexact up⟩

/-- The calls that insert the nodes `0, 1, ..., n - 1`, with keys that are all equal. -/
def insertions (n : ℕ) : List (Call ℕ) := (List.range n).map fun i => .insert (fun _ _ => 0) i true

/-- A heap can be filled up to `2 ^ 31` nodes. -/
theorem run_insertions (hn : n ≤ 2 ^ 31) : ∃ h, h.len = n ∧
    Libls.Run Call.Step (heapInit fun _ => 0, ∅) (insertions n) (h, Finset.range n) := by
  induction n with
  | zero => exact ⟨heapInit fun _ => 0, rfl, .nil _⟩
  | succ n ih =>
      obtain ⟨h, hlen, hr⟩ := ih (by omega)
      have hg : Growing h (Finset.range n) := Growing.of_run hr
      have hx : n ∉ Finset.range n := Finset.notMem_range_self
      have hkeeps : InsertKeeps (fun _ _ => 0) n h (Finset.range n) := (hg.insertKeeps_iff hx).mpr (by omega)
      obtain ⟨h₁, h', -, -, hret, -, hlen', -⟩ := hkeeps
      refine ⟨h', by omega, ?_⟩
      rw [insertions, List.range_succ, List.map_append]
      refine hr.snoc ⟨hx, 0, hret, ?_⟩
      exact Finset.range_add_one

/-- The next insertion has no room. -/
theorem heap_insert_at_limit : ∃ h, h.len = 2 ^ 31 ∧
    Libls.Run Call.Step (heapInit fun _ => 0, ∅) (insertions (2 ^ 31)) (h, Finset.range (2 ^ 31)) ∧
    ¬ InsertKeeps (fun _ _ => 0) (2 ^ 31) h (Finset.range (2 ^ 31)) := by
  obtain ⟨h, hlen, hr⟩ := run_insertions (le_refl (2 ^ 31))
  have hg : Growing h (Finset.range (2 ^ 31)) := Growing.of_run hr
  refine ⟨h, hlen, hr, fun hk => ?_⟩
  exact (hg.insertKeeps_iff Finset.notMem_range_self).mp hk hlen

end Libls.ArrayHeap
