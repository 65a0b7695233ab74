import Mathlib.Tactic
import Libls.RbInsert
import Libls.RbErase
import Libls.Timers
import Libls.Library.Runs

/-! # Runs of timer operations

`TimerQueue` is the invariant of the timer queue: the tree holds the pending timers, sorted by
`expires` and, among equals, in the order in which they were added; `loop->next` is the first of
them, and the nodes of the other timers are cleared.

`TimerReachable` are the states of a program that adds, updates and deletes timers, in callbacks or
elsewhere, and whose loop fires the timers that are due. -/

namespace Libls.Loop

open LinkedTree Rb

variable {ι : Type} [DecidableEq ι] {loop : TimerLoop ι} {timer : ι} {inited added L : List ι}

/-! ### The invariant -/

/-- The pending timers `L`, of which `added` is the order in which they were added. -/
structure TimerQueue (loop : TimerLoop ι) (inited added L : List ι) : Prop where
  sorted : L.Pairwise fun a b => loop.expires a ≤ loop.expires b
  ties : ∀ e, L.filter (loop.expires · = e) = added.filter (loop.expires · = e)
  nodup : added.Nodup
  next : loop.next = L.head?
  emptyNode : ∀ a ∈ inited, rbEmptyNode a loop.root = true ↔ a ∉ L
  inited : ∀ a ∈ L, a ∈ inited

omit [DecidableEq ι] in
theorem mem_iff_of_ties {f : ι → Timeval} {L added : List ι}
    (h : ∀ e, L.filter (f · = e) = added.filter (f · = e)) (a : ι) : a ∈ L ↔ a ∈ added := by
  have h1 : a ∈ L.filter (f · = f a) ↔ a ∈ L := by simp
  have h2 : a ∈ added.filter (f · = f a) ↔ a ∈ added := by simp
  rw [← h1, h, h2]

theorem TimerQueue.mem_of_next (h : TimerQueue loop inited added L) (hnext : loop.next = some timer) :
    timer ∈ L := by
  apply List.mem_of_mem_head?
  rw [← h.next, hnext]
  rfl

omit [DecidableEq ι] in
/-- No node of a tree looks empty. -/
theorem rbEmptyNode_of_mem {s : RbRoot ι} [DecidableEq ι] {t : LTree ι RbColor} {a : ι}
    (h : Focus s [] t) (ha : a ∈ t.toList) : rbEmptyNode a s = false := by
  obtain ⟨ctx, l, c, r, rfl, hf⟩ := h.exists_of_mem ha
  have hne : above ctx ≠ some a := fun e => hf.apart a (by simp) (above_mem e)
  simp [rbEmptyNode, rbParent, hf.linked.1, hne]

theorem rbEmptyNode_iff {s : RbRoot ι} {a : ι} :
    rbEmptyNode a s = true ↔ (s.mem a).parent = some a ∧ (s.mem a).tag = .red :=
  decide_eq_true_iff

theorem rbEmptyNode_clear {s : RbRoot ι} {a b : ι} :
    rbEmptyNode a (rbClearNode b s) = true ↔ a = b ∨ rbEmptyNode a s = true := by
  rw [rbEmptyNode_iff, rbEmptyNode_iff, rbClearNode, rbSetParentColor_mem]
  by_cases h : a = b
  · simp [h, Cell.setParent, Cell.setTag]
  · simp [h]

/-- Clearing a node outside the tree. -/
theorem holds_clear {s : RbRoot ι} (h : Holds s L) (ht : timer ∉ L) :
    Holds (rbClearNode timer s) L := by
  obtain ⟨t, hf, hrb, rfl⟩ := h
  refine ⟨t, hf.congr rfl fun y hy => ?_, hrb, rfl⟩
  rw [rbClearNode, rbSetParentColor_mem, if_neg]
  rintro rfl
  simp [ht] at hy

/-! ### `add_timer` -/

omit [DecidableEq ι] in
/-- The walk ends at the slot behind the last timer that is not later. -/
theorem addTimerWalk_returns {t : LTree ι RbColor} {ctx : List (Frame ι RbColor)}
    (h : Focus loop.root ctx t)
    (hs : (fill ctx t).toList.Pairwise fun a b => loop.expires a ≤ loop.expires b)
    (hb : ∀ a ∈ before ctx, loop.expires a ≤ loop.expires timer)
    (ha : ∀ a ∈ after ctx, loop.expires timer < loop.expires a) :
    ∃ ctx', fill ctx' .nil = fill ctx t ∧
      Prog.Returns (Prog.iterate (fun q => return addTimerStep timer loop q) (above ctx, slot ctx))
        (above ctx', slot ctx') ∧
      (∀ a ∈ before ctx', loop.expires a ≤ loop.expires timer) ∧
      ∀ a ∈ after ctx', loop.expires timer < loop.expires a := by
  induction t generalizing ctx with
  | nil =>
      refine ⟨ctx, rfl, Prog.Returns.iterate_done (Prog.returns_pure.mpr ?_), hb, ha⟩
      rw [addTimerStep, getLink_slot h]
      rfl
  | node l x c r ihl ihr =>
      have hs' := hs
      rw [toList_fill, LTree.toList_node, List.pairwise_append, List.pairwise_append,
        List.pairwise_append, List.pairwise_cons] at hs'
      obtain ⟨⟨-, ⟨-, ⟨hxr, -⟩, hlx⟩, -⟩, -⟩ := hs'
      have hstep : addTimerStep timer loop (above ctx, slot ctx) =
          if timercmpLt (loop.expires timer) (loop.expires x) then .next (some x, some (x, .left))
          else .next (some x, some (x, .right)) := by
        rw [addTimerStep, getLink_slot h]
        rfl
      by_cases hlt : loop.expires timer < loop.expires x
      · rw [if_pos (timercmpLt_iff.mpr hlt)] at hstep
        have hf : Focus loop.root (⟨.left, x, c, r⟩ :: ctx) l := Focus.cons_iff.mpr h
        obtain ⟨ctx', hfill, hret, hb', ha'⟩ := ihl hf hs hb fun a ha' => by
            simp only [after, List.cons_append, List.mem_cons, List.mem_append] at ha'
            rcases ha' with rfl | ha' | ha'
            · exact hlt
            · exact hlt.trans_le (hxr a ha')
            · exact ha a ha'
        exact ⟨ctx', hfill, Prog.Returns.iterate_next (Prog.returns_pure.mpr hstep) hret, hb', ha'⟩
      · have hle : loop.expires x ≤ loop.expires timer := not_lt.mp hlt
        rw [if_neg (by simpa using hlt)] at hstep
        have hf : Focus loop.root (⟨.right, x, c, l⟩ :: ctx) r := Focus.cons_iff.mpr h
        obtain ⟨ctx', hfill, hret, hb', ha'⟩ := ihr hf hs (fun a ha' => by
            simp only [before, List.mem_append, List.mem_singleton] at ha'
            rcases ha' with ha' | ha' | rfl
            · exact hb a ha'
            · exact (hlx a ha' x (by simp)).trans hle
            · exact hle) ha
        exact ⟨ctx', hfill, Prog.Returns.iterate_next (Prog.returns_pure.mpr hstep) hret, hb', ha'⟩

omit [DecidableEq ι] in
/-- What the last lines of `add_timer` make of `loop->next`. -/
theorem addTimerNext_eq {A B : List ι} (hnext : loop.next = (A ++ B).head?)
    (hb : ∀ a ∈ A, loop.expires a ≤ loop.expires timer)
    (ha : ∀ a ∈ B, loop.expires timer < loop.expires a) :
    addTimerNext timer loop = (A ++ timer :: B).head? := by
  rw [addTimerNext, hnext]
  cases A with
  | nil =>
      cases B with
      | nil => rfl
      | cons b B => simp [ha b (by simp)]
  | cons a A => simp [hb a (by simp)]

/-- A timer that is put behind those that are not later. -/
theorem TimerQueue.insert {A B : List ι} {root : RbRoot ι} (h : TimerQueue loop inited added (A ++ B))
    (ht : timer ∈ inited) (hadded : timer ∉ added)
    (hb : ∀ a ∈ A, loop.expires a ≤ loop.expires timer)
    (ha : ∀ a ∈ B, loop.expires timer < loop.expires a) (hH : Holds root (A ++ timer :: B))
    (hsame : SameOutside (A ++ timer :: B) loop.root root) :
    TimerQueue { loop with root := root, next := addTimerNext timer loop } inited
      (added ++ [timer]) (A ++ timer :: B) := by
  have hs := h.sorted
  refine ⟨?_, fun e => ?_, ?_, addTimerNext_eq h.next hb ha, fun a hin => ?_, fun a hin => ?_⟩
  · rw [List.pairwise_append] at hs ⊢
    obtain ⟨hA, hB, hAB⟩ := hs
    refine ⟨hA, List.pairwise_cons.mpr ⟨fun b hb' => (ha b hb').le, hB⟩, fun a ha' b hb' => ?_⟩
    rcases List.mem_cons.mp hb' with rfl | hb'
    · exact hb a ha'
    · exact hAB a ha' b hb'
  · have hties := h.ties e
    rw [List.filter_append] at hties ⊢
    rw [List.filter_append, ← hties]
    by_cases he : loop.expires timer = e
    · have hnil : B.filter (loop.expires · = e) = [] := by
        rw [List.filter_eq_nil_iff]
        intro b hb'
        have := ha b hb'
        rw [he] at this
        simp [this.ne']
      simp [he, hnil]
    · simp [he]
  · exact List.nodup_append'.mpr ⟨h.nodup, by simp, by simpa using hadded⟩
  · by_cases hm : a ∈ A ++ timer :: B
    · obtain ⟨t, hf, -, hL⟩ := hH
      rw [← hL] at hm ⊢
      simp [rbEmptyNode_of_mem hf hm, hm]
    · have hcell : root.mem a = loop.root.mem a := hsame a hm
      have hm' : a ∉ A ++ B := fun hin => hm (by
        simp only [List.mem_append, List.mem_cons] at hin ⊢
        tauto)
      have := h.emptyNode a hin
      rw [rbEmptyNode_iff, ← hcell, ← rbEmptyNode_iff] at this
      simpa [hm, hm'] using this
  · rcases List.mem_append.mp hin with hin | hin
    · exact h.inited a (by simp [hin])
    · rcases List.mem_cons.mp hin with rfl | hin
      · exact ht
      · exact h.inited a (by simp [hin])

theorem addTimer_queue (h : TimerQueue loop inited added L) (hH : Holds loop.root L)
    (ht : timer ∈ inited) (hadded : timer ∉ added) (hcb : loop.callback timer = true) :
    ∃ loop' L', Prog.Returns (addTimer timer loop) loop' ∧ Holds loop'.root L' ∧
      TimerQueue loop' inited (added ++ [timer]) L' := by
  obtain ⟨t, hf, hrb, rfl⟩ := hH
  have hL : timer ∉ t.toList := fun hm => hadded ((mem_iff_of_ties h.ties timer).mp hm)
  have hb₀ : ∀ a ∈ before ([] : List (Frame ι RbColor)), loop.expires a ≤ loop.expires timer := by
    simp [before]
  obtain ⟨ctx, hfill, hret, hb, ha⟩ := addTimerWalk_returns hf h.sorted hb₀ (by simp [after])
  change fill ctx .nil = t at hfill
  subst hfill
  have hsplit : (fill ctx (.nil : LTree ι RbColor)).toList = before ctx ++ after ctx := by
    rw [toList_fill, LTree.toList_nil, List.append_nil]
  have hctx : timer ∉ ctxNodes ctx := fun hm => hL (mem_fill.mpr (.inr hm))
  obtain ⟨root, hroot, hH, hsame⟩ := rbInsertColor_holds (Focus.fill_iff.mpr hf) hrb hctx
  rw [hsplit] at h hL
  refine ⟨{ loop with root := root, next := addTimerNext timer loop },
    before ctx ++ timer :: after ctx, ?_, hH, ?_⟩
  · have hempty : rbEmptyNode timer loop.root = true := (h.emptyNode timer ht).mpr hL
    rw [addTimer, if_pos ⟨hempty, hcb⟩]
    exact Prog.returns_bind.mpr ⟨_, hret, Prog.returns_bind.mpr ⟨_, hroot, Prog.returns_pure.mpr rfl⟩⟩
  · exact h.insert ht hadded hb ha hH hsame

omit [DecidableEq ι] in
theorem erase_eq_filter_comm [DecidableEq ι] {p : ι → Bool} (hL : L.Nodup) (hadded : added.Nodup)
    (h : L.filter p = added.filter p) : (L.erase timer).filter p = (added.erase timer).filter p := by
  rw [hL.erase_eq_filter, hadded.erase_eq_filter, List.filter_comm, List.filter_comm p, h]

/-! ### `del_timer` -/

/-- A timer that is taken out. -/
theorem TimerQueue.erase {root : RbRoot ι} (h : TimerQueue loop inited added L) (hL : L.Nodup)
    (hH : Holds root (L.erase timer)) (hsame : SameOutside L loop.root root) :
    TimerQueue { loop with root := rbClearNode timer root, next := (L.erase timer).head? } inited
      (added.erase timer) (L.erase timer) := by
  refine ⟨h.sorted.sublist List.erase_sublist, fun e => erase_eq_filter_comm hL h.nodup (h.ties e),
    h.nodup.erase timer, rfl, fun a hin => ?_, fun a hin => h.inited a (List.mem_of_mem_erase hin)⟩
  rw [rbEmptyNode_clear, hL.mem_erase_iff]
  by_cases hm : a ∈ L
  · by_cases hat : a = timer
    · simp [hat]
    · obtain ⟨t, hf, -, hL'⟩ := hH
      have hat' : a ∈ t.toList := by
        rw [hL', hL.mem_erase_iff]
        exact ⟨hat, hm⟩
      simp [hat, hm, rbEmptyNode_of_mem hf hat']
  · have hcell : root.mem a = loop.root.mem a := hsame a hm
    have := h.emptyNode a hin
    rw [rbEmptyNode_iff, ← hcell, ← rbEmptyNode_iff] at this
    simp [hm, this]

theorem head?_erase (h : L.head? ≠ some timer) : (L.erase timer).head? = L.head? := by
  cases L with
  | nil => rfl
  | cons a L =>
      have hne : a ≠ timer := fun e => h (by rw [e, List.head?_cons])
      rw [List.erase_cons_tail (by simpa using hne), List.head?_cons, List.head?_cons]

/-- `del_timer` takes the timer out, if it is pending. -/
theorem delTimer_queue (h : TimerQueue loop inited added L) (hH : Holds loop.root L)
    (ht : timer ∈ inited) :
    ∃ loop' L', Prog.Returns (delTimer timer loop) loop' ∧ Holds loop'.root L' ∧
      TimerQueue loop' inited (added.erase timer) L' ∧ loop'.realtime = loop.realtime ∧
      loop'.callback = loop.callback := by
  have hempty := h.emptyNode timer ht
  by_cases hm : timer ∈ L
  · have hne : rbEmptyNode timer loop.root = false := by
      rw [Bool.eq_false_iff, Ne, hempty]
      exact not_not.mpr hm
    obtain ⟨t, hf, hrb, rfl⟩ := hH
    have hnd := hf.nodup
    obtain ⟨ctx, l, c, r, rfl, hfx⟩ := hf.exists_of_mem hm
    obtain ⟨root, hroot, hH, hsame⟩ := rbErase_holds hfx hrb
    have hL : (fill ctx (.node l timer c r)).toList =
        (before ctx ++ l.toList) ++ timer :: (r.toList ++ after ctx) := by
      rw [toList_fill]
      simp
    have hnot : timer ∉ before ctx ++ l.toList := by
      rw [hL, List.nodup_middle, List.nodup_cons, List.mem_append, not_or] at hnd
      exact hnd.1.1
    have herase : (fill ctx (.node l timer c r)).toList.erase timer =
        before ctx ++ (l.toList ++ r.toList) ++ after ctx := by
      rw [hL, List.erase_append_right _ hnot, List.erase_cons_head]
      simp
    have hnext : Prog.Returns (delTimerNext timer loop)
        ((fill ctx (.node l timer c r)).toList.erase timer).head? := by
      by_cases hn : loop.next = some timer
      · rw [delTimerNext, if_pos hn]
        have hhead := h.next
        rw [hn, hL] at hhead
        have hnil : before ctx ++ l.toList = [] := by
          cases hA : before ctx ++ l.toList with
          | nil => rfl
          | cons a A =>
              rw [hA] at hhead hnot
              exact absurd (Option.some.inj hhead) (fun e => hnot (by simp [e]))
        rw [hL, List.erase_append_right _ hnot, List.erase_cons_head, hnil, List.nil_append]
        exact rbNext_returns hfx
      · rw [delTimerNext, if_neg hn, head?_erase (by rwa [← h.next]), ← h.next]
        exact Prog.returns_pure.mpr rfl
    rw [← herase] at hH
    refine ⟨_, _, ?_, holds_clear hH hnd.not_mem_erase, h.erase hnd hH hsame, rfl, rfl⟩
    rw [delTimer, hne]
    exact Prog.returns_bind.mpr ⟨_, hnext, Prog.returns_bind.mpr ⟨_, hroot, Prog.returns_pure.mpr rfl⟩⟩
  · refine ⟨loop, L, ?_, hH, ?_, rfl, rfl⟩
    · rw [delTimer, if_pos (hempty.mpr hm)]
      exact Prog.returns_pure.mpr rfl
    · rw [List.erase_of_not_mem fun hin => hm ((mem_iff_of_ties h.ties timer).mpr hin)]
      exact h

/-! ### The other operations -/

/-- `expires` of a timer that is not pending may be set. -/
theorem TimerQueue.setExpires (h : TimerQueue loop inited added L) (ht : timer ∉ added)
    (e : Timeval) :
    TimerQueue { loop with expires := Function.update loop.expires timer e } inited added L := by
  have hL : ∀ a ∈ L, a ≠ timer := fun a ha hat => ht (hat ▸ (mem_iff_of_ties h.ties a).mp ha)
  have hadd : ∀ a ∈ added, a ≠ timer := fun a ha hat => ht (hat ▸ ha)
  refine ⟨?_, fun e' => ?_, h.nodup, h.next, h.emptyNode, h.inited⟩
  · refine h.sorted.imp_of_mem fun {a b} ha hb hab => ?_
    show Function.update loop.expires timer e a ≤ Function.update loop.expires timer e b
    rw [Function.update_of_ne (hL a ha), Function.update_of_ne (hL b hb)]
    exact hab
  · have hfl : ∀ M : List ι, (∀ a ∈ M, a ≠ timer) →
        M.filter (fun a => Function.update loop.expires timer e a = e') =
          M.filter (loop.expires · = e') := fun M hM =>
      List.filter_congr fun a ha => by rw [Function.update_of_ne (hM a ha)]
    rw [hfl L hL, hfl added hadd]
    exact h.ties e'

theorem initTimer_queue (h : TimerQueue loop inited added L) (ht : timer ∉ added) :
    TimerQueue (initTimer timer loop) (timer :: inited) added L := by
  have hL : timer ∉ L := fun hm => ht ((mem_iff_of_ties h.ties timer).mp hm)
  refine ⟨h.sorted, h.ties, h.nodup, h.next, fun a hin => ?_, fun a hin =>
    List.mem_cons_of_mem _ (h.inited a hin)⟩
  rw [initTimer, rbEmptyNode_clear]
  by_cases hat : a = timer
  · simp [hat, hL]
  · rw [List.mem_cons] at hin
    rw [h.emptyNode a (hin.resolve_left hat)]
    simp [hat]

/-! ### The passes of `__run_timers` -/

/-- A pass that calls a timer back has taken out the first timer, which is due. -/
theorem runTimersPass_next {loop' : TimerLoop ι} :
    Prog.Returns (runTimersPass loop) (.next (timer, loop')) ↔ loop.next = some timer ∧
      ¬ loop.realtime < loop.expires timer ∧ Prog.Returns (delTimer timer loop) loop' := by
  rw [runTimersPass]
  cases hnext : loop.next with
  | none =>
      constructor
      · intro h
        cases Prog.returns_pure.mp h
      · rintro ⟨h, -⟩
        cases h
  | some first =>
      simp only [timercmpLt_iff, Option.some_inj]
      constructor
      · intro h
        split at h
        · cases Prog.returns_pure.mp h
        · next hdue =>
            obtain ⟨loop₁, hdel, h⟩ := Prog.returns_bind.mp h
            cases Prog.returns_pure.mp h
            exact ⟨rfl, hdue, hdel⟩
      · rintro ⟨rfl, hdue, hdel⟩
        rw [if_neg hdue]
        exact Prog.returns_bind.mpr ⟨_, hdel, Prog.returns_pure.mpr rfl⟩

omit [DecidableEq ι] in
/-- What a pass returns if the first timer is not due. -/
def waitTime (realtime expires : Timeval) : ℤ :=
  let delta := timersub expires realtime
  let ms := Int.bmod (delta.sec * 1000 + delta.usec.tdiv 1000) (2 ^ 32)
  if ms = 0 then 1 else ms

/-- A pass that returns has found no timer, or the first one is not due. -/
theorem runTimersPass_done {ms : ℤ} : Prog.Returns (runTimersPass loop) (.done ms) ↔
    (loop.next = none ∧ ms = -1) ∨ ∃ timer, loop.next = some timer ∧ loop.realtime < loop.expires timer ∧
      ms = waitTime loop.realtime (loop.expires timer) := by
  rw [runTimersPass]
  cases hnext : loop.next with
  | none =>
      constructor
      · intro h
        cases Prog.returns_pure.mp h
        exact .inl ⟨rfl, rfl⟩
      · rintro (⟨-, rfl⟩ | ⟨timer, h, -⟩)
        · exact Prog.returns_pure.mpr rfl
        · cases h
  | some first =>
      simp only [timercmpLt_iff]
      constructor
      · intro h
        split at h
        · next hlater =>
            cases Prog.returns_pure.mp h
            exact .inr ⟨first, rfl, hlater, rfl⟩
        · obtain ⟨loop₁, -, h⟩ := Prog.returns_bind.mp h
          cases Prog.returns_pure.mp h
      · rintro (⟨h, -⟩ | ⟨timer, h, hlater, rfl⟩)
        · cases h
        · cases h
          rw [if_pos hlater]
          exact Prog.returns_pure.mpr rfl

/-! ### Runs -/

/-- The steps of a program with one loop.  `addTimer` stands for setting `expires` and calling
`add_timer`, `gettimeofday` for the call at the head of `__run_timers`, and `fire` for a pass of its
loop that takes `timer` out to call it back; what the callback does are steps of their own. -/
inductive TimerCall (ι : Type) where
  | gettimeofday (now : Timeval)
  | setCallback (timer : ι) (set : Bool)
  | initTimer (timer : ι)
  | addTimer (timer : ι) (expires : Timeval)
  | addTimeout (timer : ι) (ms : Msec)
  | updateTimeout (timer : ι) (ms : Msec)
  | delTimer (timer : ι)
  | fire (timer : ι)

namespace TimerCall

def run (loop : TimerLoop ι) : TimerCall ι → Prog (TimerLoop ι)
  | gettimeofday now => return { loop with realtime := now }
  | setCallback timer set => return { loop with callback := Function.update loop.callback timer set }
  | initTimer timer => return Loop.initTimer timer loop
  | addTimer timer expires =>
      Loop.addTimer timer { loop with expires := Function.update loop.expires timer expires }
  | addTimeout timer ms => Loop.addTimeout timer ms loop
  | updateTimeout timer ms => Loop.updateTimeout timer ms loop
  | delTimer timer => Loop.delTimer timer loop
  | fire timer => do
      match ← runTimersPass loop with
      | .next (timer', loop) => if timer' = timer then return loop else Prog.abort
      | .done _ => Prog.abort

/-- Only timers that have been initialised are used, and no pending one is initialised again. -/
def Allowed (inited added : List ι) : TimerCall ι → Prop
  | initTimer timer => timer ∉ added
  | addTimer timer _ | addTimeout timer _ | updateTimeout timer _ | delTimer timer => timer ∈ inited
  | gettimeofday _ | setCallback _ _ | fire _ => True

/-- The timers initialised after a step. -/
def initedAfter (inited : List ι) : TimerCall ι → List ι
  | initTimer timer => timer :: inited
  | _ => inited

/-- The timers added and not since deleted or fired, in the order in which they were added. -/
def addedAfter (added : List ι) : TimerCall ι → List ι
  | addTimer timer _ | addTimeout timer _ => added ++ [timer]
  | updateTimeout timer _ => added.erase timer ++ [timer]
  | delTimer timer | fire timer => added.erase timer
  | gettimeofday _ | setCallback _ _ | initTimer _ => added

/-- What the assertions in a step ask for, and that the timer which fires is due. -/
def Asserts (loop : TimerLoop ι) (added : List ι) : TimerCall ι → Prop
  | addTimer timer _ | addTimeout timer _ => timer ∉ added ∧ loop.callback timer = true
  | updateTimeout timer _ => loop.callback timer = true
  | fire timer => loop.next = some timer ∧ ¬ loop.realtime < loop.expires timer
  | gettimeofday _ | setCallback _ _ | initTimer _ | delTimer _ => True

/-- A step whose assertions hold has a result, and keeps the queue. -/
theorem run_spec (h : TimerQueue loop inited added L) (hH : Holds loop.root L) {c : TimerCall ι}
    (hc : c.Allowed inited added) (ha : c.Asserts loop added) :
    ∃ loop' L', Prog.Returns (c.run loop) loop' ∧ Holds loop'.root L' ∧
      TimerQueue loop' (c.initedAfter inited) (c.addedAfter added) L' := by
  cases c with
  | gettimeofday now =>
      exact ⟨_, L, Prog.returns_pure.mpr rfl, hH,
        ⟨h.sorted, h.ties, h.nodup, h.next, h.emptyNode, h.inited⟩⟩
  | setCallback timer set =>
      exact ⟨_, L, Prog.returns_pure.mpr rfl, hH,
        ⟨h.sorted, h.ties, h.nodup, h.next, h.emptyNode, h.inited⟩⟩
  | initTimer timer =>
      have hL : timer ∉ L := fun hm => hc ((mem_iff_of_ties h.ties timer).mp hm)
      exact ⟨_, L, Prog.returns_pure.mpr rfl, holds_clear hH hL, initTimer_queue h hc⟩
  | addTimer timer expires => exact addTimer_queue (h.setExpires ha.1 expires) hH hc ha.1 ha.2
  | addTimeout timer ms => exact addTimer_queue (h.setExpires ha.1 _) hH hc ha.1 ha.2
  | updateTimeout timer ms =>
      obtain ⟨loop₁, L₁, hret₁, hH₁, h₁, -, hcb⟩ := delTimer_queue h hH hc
      have hnot : timer ∉ added.erase timer := h.nodup.not_mem_erase
      have hcb₁ : loop₁.callback timer = true := by
        rw [hcb]
        exact ha
      obtain ⟨loop₂, L₂, hret₂, hH₂, h₂⟩ := addTimer_queue (h₁.setExpires hnot _) hH₁ hc hnot hcb₁
      exact ⟨loop₂, L₂, Prog.returns_bind.mpr ⟨_, hret₁, hret₂⟩, hH₂, h₂⟩
  | delTimer timer =>
      obtain ⟨loop', L', hret, hH', h', -⟩ := delTimer_queue h hH hc
      exact ⟨loop', L', hret, hH', h'⟩
  | fire timer =>
      obtain ⟨hnext, hdue⟩ := ha
      have hin : timer ∈ inited := h.inited timer (h.mem_of_next hnext)
      obtain ⟨loop', L', hret, hH', h', -⟩ := delTimer_queue h hH hin
      refine ⟨loop', L', ?_, hH', h'⟩
      have hpass : Prog.Returns (runTimersPass loop) (.next (timer, loop')) :=
        runTimersPass_next.mpr ⟨hnext, hdue, hret⟩
      refine Prog.returns_bind.mpr ⟨_, hpass, ?_⟩
      simp

/-- A step with a result has met its assertions. -/
theorem asserts_of_run (h : TimerQueue loop inited added L) (hH : Holds loop.root L)
    {c : TimerCall ι} (hc : c.Allowed inited added) {loop' : TimerLoop ι}
    (hrun : Prog.Returns (c.run loop) loop') : c.Asserts loop added := by
  have hadd : ∀ {l : TimerLoop ι} {timer : ι} {added L : List ι}, timer ∈ inited →
      TimerQueue l inited added L → ∀ e, Prog.Returns (Loop.addTimer timer { l with expires := e }) loop' →
      timer ∉ added ∧ l.callback timer = true := by
    intro l timer added L ht hq e hret
    rw [Loop.addTimer] at hret
    split at hret
    · next hcond =>
        exact ⟨fun hm => (hq.emptyNode timer ht).mp hcond.1 ((mem_iff_of_ties hq.ties timer).mpr hm),
          hcond.2⟩
    · exact (Prog.returns_abort hret).elim
  cases c with
  | gettimeofday now => trivial
  | setCallback timer set => trivial
  | initTimer timer => trivial
  | addTimer timer expires => exact hadd hc h _ hrun
  | addTimeout timer ms => exact hadd hc h _ hrun
  | updateTimeout timer ms =>
      obtain ⟨loop₁, L₁, hret₁, hH₁, h₁, -, hcb⟩ := delTimer_queue h hH hc
      obtain ⟨loop₂, hret₂, hrun⟩ := Prog.returns_bind.mp hrun
      rw [hret₂.unique hret₁] at hrun
      rw [Asserts, ← hcb]
      exact (hadd hc h₁ _ hrun).2
  | delTimer timer => trivial
  | fire timer =>
      obtain ⟨i, hpass, hrun⟩ := Prog.returns_bind.mp hrun
      cases i with
      | done ms => exact (Prog.returns_abort hrun).elim
      | next q =>
          obtain ⟨timer', loop₁⟩ := q
          simp only at hrun
          split at hrun
          · next heq =>
              subst heq
              obtain ⟨hnext, hdue, -⟩ := runTimersPass_next.mp hpass
              exact ⟨hnext, hdue⟩
          · exact (Prog.returns_abort hrun).elim

end TimerCall

/-- The states that a program with one loop reaches, with the timers it has initialised and those it
has added and not since deleted or fired. -/
inductive TimerReachable : TimerLoop ι → List ι → List ι → Prop
  | alloc (now : Timeval) (mem : ι → Cell ι RbColor) (expires : ι → Timeval) (callback : ι → Bool) :
      TimerReachable (allocTimers now mem expires callback) [] []
  | call {loop loop' : TimerLoop ι} {inited added : List ι} (c : TimerCall ι)
      (h : TimerReachable loop inited added) (hc : c.Allowed inited added)
      (hrun : Prog.Returns (c.run loop) loop') :
      TimerReachable loop' (c.initedAfter inited) (c.addedAfter added)

theorem TimerReachable.queue (h : TimerReachable loop inited added) :
    ∃ L, Holds loop.root L ∧ TimerQueue loop inited added L := by
  induction h with
  | alloc now mem expires callback =>
      refine ⟨[], ⟨.nil, Focus.empty rfl, ⟨rfl, 0, rfl⟩, rfl⟩, ?_⟩
      exact ⟨.nil, fun e => rfl, .nil, rfl, by simp, by simp⟩
  | call c _ hc hrun ih =>
      obtain ⟨L, hH, h⟩ := ih
      obtain ⟨loop', L', hret, hH', h'⟩ := c.run_spec h hH hc (c.asserts_of_run h hH hc hrun)
      rw [← hrun.unique hret] at hH' h'
      exact ⟨L', hH', h'⟩

/-- **The timer queue.**  In every state that a program reaches, the sequence of the tree is sorted by
`expires`, holds the timers that were added and not since deleted or fired, those with equal
`expires` in the order in which they were added, `loop->next` is its first element, and among the
initialised timers exactly those outside the tree are empty nodes; and the next step has a result
whenever its assertions hold. -/
theorem timer_run_queue (h : TimerReachable loop inited added) :
    (∃ t : LTree ι RbColor, loop.root.root = t.top ∧ Linked loop.root.mem none t ∧
      t.toList.Nodup ∧ IsRb t ∧
      t.toList.Pairwise (fun a b => loop.expires a ≤ loop.expires b) ∧
      (∀ a, a ∈ t.toList ↔ a ∈ added) ∧
      (∀ e, t.toList.filter (loop.expires · = e) = added.filter (loop.expires · = e)) ∧
      loop.next = t.toList.head? ∧
      ∀ a ∈ inited, rbEmptyNode a loop.root = true ↔ a ∉ t.toList) ∧
    ∀ c : TimerCall ι, c.Allowed inited added → c.Asserts loop added →
      ∃ loop', Prog.Returns (c.run loop) loop' := by
  obtain ⟨L, ⟨t, hf, hrb, rfl⟩, hq⟩ := h.queue
  refine ⟨⟨t, hf.ctx_linked, hf.linked, hf.nodup, hrb, hq.sorted, mem_iff_of_ties hq.ties, hq.ties,
    hq.next, hq.emptyNode⟩, fun c hc ha => ?_⟩
  obtain ⟨loop', -, hret, -⟩ := c.run_spec hq ⟨t, hf, hrb, rfl⟩ hc ha
  exact ⟨loop', hret⟩

instance TimerCall.decidableAllowed (inited added : List ι) : (c : TimerCall ι) → Decidable (c.Allowed inited added)
  | .initTimer timer => inferInstanceAs (Decidable (timer ∉ added))
  | .addTimer timer _ => inferInstanceAs (Decidable (timer ∈ inited))
  | .addTimeout timer _ => inferInstanceAs (Decidable (timer ∈ inited))
  | .updateTimeout timer _ => inferInstanceAs (Decidable (timer ∈ inited))
  | .delTimer timer => inferInstanceAs (Decidable (timer ∈ inited))
  | .gettimeofday _ => inferInstanceAs (Decidable True)
  | .setCallback _ _ => inferInstanceAs (Decidable True)
  | .fire _ => inferInstanceAs (Decidable True)

/-- An allowed step with the fuel `n`, and the timers after it. -/
def TimerCall.attempt (n : ℕ) (p : TimerLoop ι × List ι × List ι) (c : TimerCall ι) :
    Option (TimerLoop ι × List ι × List ι) :=
  (Prog.attempt (c.Allowed p.2.1 p.2.2) (c.run p.1) n).map (·, c.initedAfter p.2.1, c.addedAfter p.2.2)

theorem TimerCall.attempt_reachable {n : ℕ} {p p' : TimerLoop ι × List ι × List ι} {c : TimerCall ι}
    (hc : c.attempt n p = some p') (h : TimerReachable p.1 p.2.1 p.2.2) : TimerReachable p'.1 p'.2.1 p'.2.2 := by
  obtain ⟨hallowed, loop, hrun, rfl⟩ := Prog.attempt_map_eq_some hc
  exact h.call c hallowed hrun

/-- A loop in which a timer has fired, another one is deleted, and the other two expire at the same time, 1
behind 2 since it was added anew. -/
theorem timer_run_queue_ties : ∃ loop : TimerLoop ℕ, loop.next = some 2 ∧ loop.expires 1 = loop.expires 2 ∧
    (∃ t : LTree ℕ RbColor, loop.root.root = t.top ∧ Linked loop.root.mem none t ∧
      t.toList.Nodup ∧ IsRb t ∧
      t.toList.Pairwise (fun a b => loop.expires a ≤ loop.expires b) ∧
      (∀ a, a ∈ t.toList ↔ a ∈ [2, 1]) ∧
      (∀ e, t.toList.filter (loop.expires · = e) = [2, 1].filter (loop.expires · = e)) ∧
      loop.next = t.toList.head? ∧
      ∀ a ∈ [4, 3, 2, 1], rbEmptyNode a loop.root = true ↔ a ∉ t.toList) ∧
    ∀ c : TimerCall ℕ, c.Allowed [4, 3, 2, 1] [2, 1] → c.Asserts loop [2, 1] →
      ∃ loop', Prog.Returns (c.run loop) loop' := by
  let start : TimerLoop ℕ := allocTimers ⟨0, 0⟩ (fun _ => ⟨none, .red, none, none⟩) (fun _ => ⟨0, 0⟩) fun _ => true
  have hrun : (([.initTimer 1, .initTimer 2, .initTimer 3, .initTimer 4, .addTimeout 1 1500, .addTimeout 2 1500,
      .addTimeout 3 700, .addTimer 4 ⟨9, 0⟩, .updateTimeout 1 1500, .delTimer 4, .gettimeofday ⟨1, 0⟩,
      .fire 3].foldlM (TimerCall.attempt 9) (start, [], [])).map fun p =>
        (p.1.next, p.1.expires 1, p.1.expires 2, p.2)) = some (some 2, ⟨1, 500000⟩, ⟨1, 500000⟩, [4, 3, 2, 1], [2, 1]) := by
    decide +kernel
  obtain ⟨⟨loop, inited, added⟩, hsee, h⟩ := Libls.Run.exec_keeps (fun _ _ _ => TimerCall.attempt_reachable) _ hrun
    (TimerReachable.alloc ..)
  simp only [Prod.mk.injEq] at hsee
  obtain ⟨hnext, h₁, h₂, rfl, rfl⟩ := hsee
  exact ⟨loop, hnext, h₁.trans h₂.symm, timer_run_queue h⟩

end Libls.Loop
