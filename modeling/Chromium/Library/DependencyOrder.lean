import Mathlib.Data.List.Nodup
import Mathlib.Logic.Relation

/-!
# Orders that respect dependencies

A list is in order if everything a member needs is in front of it. Members
that are gathered from the last to the first wait for what is gathered behind
them; appending them in reverse keeps the order.
-/

namespace Chromium.Library

open List

section

variable {needs waitsFor : α -> α -> Prop} {order pending : List α}

/-- Everything a member needs is in front of it. -/
def InOrder (needs : α -> α -> Prop) (order : List α) : Prop :=
  ∀ front member back, order = front ++ member :: back → ∀ other, needs member other → other ∈ front

/-- A member is in front of another. -/
def Before (order : List α) (first second : α) : Prop :=
  ∃ front back, order = front ++ second :: back ∧ first ∈ front

theorem inOrder_nil : InOrder needs [] := by
  intro front mem back split_
  cases front <;> cases split_

theorem InOrder.of_append (inOrder : InOrder needs (order ++ pending)) : InOrder needs order := by
  intro front mem back split_
  apply inOrder front mem (back ++ pending)
  rw [split_, append_assoc, cons_append]

section

variable (inOrder : InOrder needs order)
include inOrder

theorem InOrder.take (n : Nat) : InOrder needs (order.take n) := by
  rw [← take_append_drop n order] at inOrder
  exact inOrder.of_append

theorem InOrder.concat (ready : ∀ other, needs new_ other -> other ∈ order) :
    InOrder needs (order ++ [new_]) := by
  intro front mem back split_
  rcases append_eq_append_iff.mp split_ with
    ⟨between, rfl, isLast⟩ | ⟨between, isOrder, isRest⟩
  · rcases cons_eq_append_iff.mp isLast with ⟨rfl, same⟩ | ⟨rest, -, isEnd⟩
    · cases same
      rw [append_nil]
      exact ready
    · rw [nil_eq, append_eq_nil_iff] at isEnd
      cases isEnd.2
  · rcases cons_eq_append_iff.mp isRest with ⟨rfl, same⟩ | ⟨rest, rfl, -⟩
    · cases same
      rw [append_nil] at isOrder
      rw [← isOrder]
      exact ready
    · exact inOrder front mem rest isOrder

/-- An ordered list is closed under what its members need. -/
theorem InOrder.mem_of_transGen (isMem : member ∈ order)
    (above : Relation.TransGen needs member other) :
    other ∈ order := by
  induction above with
  | single isNeeded =>
    obtain ⟨front, back, rfl⟩ := append_of_mem isMem
    exact mem_append_left _ (inOrder front member back rfl _ isNeeded)
  | tail _ isNeeded ih =>
    obtain ⟨front, back, rfl⟩ := append_of_mem ih
    exact mem_append_left _ (inOrder front _ back rfl _ isNeeded)

/-- All that a member needs, and what that needs, is in front of it. -/
theorem InOrder.before_of_transGen (isMem : member ∈ order)
    (above : Relation.TransGen needs member other) :
    Before order other member := by
  obtain ⟨front, back, rfl⟩ := append_of_mem isMem
  refine ⟨front, back, rfl, ?_⟩
  rcases Relation.TransGen.head'_iff.mp above with ⟨next, isNeeded, rest⟩
  have inFront := inOrder front member back rfl next isNeeded
  rcases Relation.reflTransGen_iff_eq_or_transGen.mp rest with rfl | further
  · exact inFront
  · exact inOrder.of_append.mem_of_transGen inFront further

end

/-- What a pending member needs is in the list, pending behind it, or still
waited for. -/
def Waits (needs : α -> α -> Prop) (order : List α)
    (waitsFor : α -> α -> Prop) (pending : List α) : Prop :=
  ∀ front member back, pending = front ++ member :: back ->
    ∀ other, needs member other -> other ∈ order ∨ other ∈ back ∨ waitsFor member other

theorem waits_nil : Waits needs order waitsFor [] := by
  intro front mem back split_
  cases front <;> cases split_

theorem Waits.tail (waits : Waits needs order waitsFor (mem :: pending)) :
    Waits needs order waitsFor pending := by
  intro front other back split_
  apply waits (mem :: front) other back
  rw [split_, cons_append]

theorem Waits.imp (waits : Waits needs order waitsFor pending)
    (resolve : ∀ mem ∈ pending, ∀ other, needs mem other ->
      waitsFor mem other -> other ∈ order ∨ waitsThen mem other) :
    Waits needs order waitsThen pending := by
  intro front mem back split_ other isNeeded
  have isMem : mem ∈ pending := by
    rw [split_]
    exact mem_append_right _ mem_cons_self
  rcases waits front mem back split_ other isNeeded with
    inOrder | inBack | waited
  · exact .inl inOrder
  · exact .inr (.inl inBack)
  · exact (resolve mem isMem other isNeeded waited).imp_right .inr

/-- A member is gathered that others wait for. -/
theorem Waits.concat (waits : Waits needs order waitsFor pending) {waitsThen : α -> α -> Prop}
    (resolve : ∀ mem ∈ pending, ∀ other, needs mem other ->
      waitsFor mem other -> other = new_ ∨ waitsThen mem other)
    (waiting : ∀ other, needs new_ other -> other ∈ order ∨ waitsThen new_ other) :
    Waits needs order waitsThen (pending ++ [new_]) := by
  intro front mem back split_ other isNeeded
  rcases append_eq_append_iff.mp split_ with
    ⟨between, rfl, isLast⟩ | ⟨between, isPending, isRest⟩
  · rcases cons_eq_append_iff.mp isLast with ⟨rfl, same⟩ | ⟨rest, -, isEnd⟩
    · cases same
      exact (waiting other isNeeded).imp_right .inr
    · rw [nil_eq, append_eq_nil_iff] at isEnd
      cases isEnd.2
  · rcases cons_eq_append_iff.mp isRest with ⟨rfl, same⟩ | ⟨rest, rfl, isEnd⟩
    · cases same
      exact (waiting other isNeeded).imp_right .inr
    · have isMem : mem ∈ pending := by
        rw [isPending]
        exact mem_append_right _ mem_cons_self
      subst isEnd
      rcases waits front mem rest isPending other isNeeded with
        inOrder | inBack | waited
      · exact .inl inOrder
      · exact .inr (.inl (mem_append_left _ inBack))
      · rcases resolve mem isMem other isNeeded waited with rfl | waited
        · exact .inr (.inl (mem_append_right _ (mem_singleton_self _)))
        · exact .inr (.inr waited)

/-- The pending members are appended in reverse. -/
theorem InOrder.append_reverse (inOrder : InOrder needs order)
    (waits : Waits needs order (fun _ _ => False) pending) :
    InOrder needs (order ++ pending.reverse) := by
  induction pending with
  | nil =>
    rw [reverse_nil, append_nil]
    exact inOrder
  | cons member pending ih =>
    rw [reverse_cons, ← append_assoc]
    apply (ih waits.tail).concat
    intro other isNeeded
    rw [mem_append, mem_reverse]
    rcases waits [] member pending rfl other isNeeded with
      inOrder | inBack | waited
    · exact .inl inOrder
    · exact .inr inBack
    · exact absurd waited id

end

/-!
## Breadth-first traversals

A traversal visits the nodes that wait in a queue, and lets the children of each
wait behind the others. In a forest no node is visited twice.
-/

section

/-- The nodes that were visited, in their order, and the ones that wait. -/
inductive Underway (children : α -> List α) (top : α) : List α -> List α -> Prop
  | start : Underway children top [] [top]
  | visit (underway : Underway children top visited (node :: waiting)) :
      Underway children top (visited ++ [node]) (waiting ++ children node)

/-- The children of a node are one level below it, and have no other parent. -/
structure Forest (children : α -> List α) (level : α -> Nat) : Prop where
  below : ∀ node, ∀ child ∈ children node, level child = level node + 1
  nodup : ∀ node, (children node).Nodup
  apart : ∀ node other child, child ∈ children node -> child ∈ children other -> node = other

variable {visited waiting : List α}

namespace Underway

section

variable (underway : Underway children top visited waiting)
include underway

/-- What was visited and what waits are the top and the children of what was
visited. -/
theorem order : visited ++ waiting = top :: visited.flatMap children := by
  induction underway with
  | start => rfl
  | @visit visited node waiting _ ih =>
    calc visited ++ [node] ++ (waiting ++ children node)
      _ = visited ++ node :: waiting ++ children node := by simp
      _ = top :: (visited.flatMap children ++ children node) := by
          rw [ih, cons_append]
      _ = top :: (visited ++ [node]).flatMap children := by
          rw [flatMap_append, flatMap_singleton]

/-- What waits is the top or a child of what was visited. -/
theorem mem_cases (mem : node ∈ visited ++ waiting) :
    node = top ∨ ∃ parent ∈ visited, node ∈ children parent := by
  rw [underway.order, mem_cons] at mem
  exact mem.imp_right mem_flatMap.mp

theorem top_mem : top ∈ visited ++ waiting := by
  rw [underway.order]
  exact mem_cons_self

end

theorem level_le (forest : Forest children level)
    (underway : Underway children top visited waiting) :
    ∀ node ∈ visited ++ waiting, level top <= level node := by
  induction underway with
  | start =>
    intro node mem
    obtain rfl := mem_singleton.mp mem
    exact Nat.le_refl _
  | @visit visited parent waiting _ ih =>
    intro node mem
    have isBelow : node ∈ visited ++ parent :: waiting ∨ node ∈ children parent := by
      simp only [mem_append, mem_cons, not_mem_nil, or_false] at mem ⊢
      tauto
    rcases isBelow with before | isChild
    · exact ih node before
    · have above := ih parent (mem_append_right _ mem_cons_self)
      rw [forest.below parent node isChild]
      exact Nat.le_succ_of_le above

theorem nodup (forest : Forest children level) (underway : Underway children top visited waiting) :
    (visited ++ waiting).Nodup := by
  induction underway with
  | start => exact nodup_singleton top
  | @visit visited node waiting underway ih =>
    have next := Underway.visit underway
    rw [next.order, nodup_cons]
    constructor
    · intro isChild
      obtain ⟨parent, isVisited, mem⟩ := mem_flatMap.mp isChild
      have above := next.level_le forest parent (mem_append_left _ isVisited)
      rw [forest.below parent top mem] at above
      exact Nat.not_succ_le_self _ above
    · have isFront : (visited ++ [node]).Sublist (visited ++ node :: waiting) :=
        (singleton_sublist.mpr mem_cons_self).append_left visited
      have nodupVisited := Nodup.sublist isFront ih
      refine nodup_flatMap.mpr ⟨fun parent _ => forest.nodup parent, ?_⟩
      apply nodupVisited.imp
      intro parent other ne child mem isOther
      exact ne (forest.apart parent other child mem isOther)

/-- A node is visited behind the one that it is a child of. -/
theorem inOrder (forest : Forest children level)
    (underway : Underway children top visited waiting) :
    InOrder (fun child parent => child ≠ top ∧ child ∈ children parent) visited := by
  induction underway with
  | start => exact inOrder_nil
  | @visit visited node waiting underway ih =>
    apply ih.concat
    rintro parent ⟨notTop, isChild⟩
    rcases underway.mem_cases (mem_append_right _ mem_cons_self) with
      isTop | ⟨other, isVisited, mem⟩
    · exact absurd isTop notTop
    · rw [forest.apart parent other node isChild mem]
      exact isVisited

end Underway

/-- A list of nodes in the order of a whole traversal. -/
abbrev Traversed (children : α -> List α) (top : α) (order : List α) : Prop :=
  Underway children top order []

variable {order : List α}

namespace Traversed

theorem top_mem (traversed : Traversed children top order) : top ∈ order := by
  have isMem := Underway.top_mem traversed
  rwa [append_nil] at isMem

theorem nodup (forest : Forest children level) (traversed : Traversed children top order) :
    order.Nodup := by
  have apart := Underway.nodup forest traversed
  rwa [append_nil] at apart

section

variable (traversed : Traversed children top order)
include traversed

theorem order_eq : order = top :: order.flatMap children := by
  have isOrder := Underway.order traversed
  rwa [append_nil] at isOrder

/-- The children of a node are visited one directly behind the other. -/
theorem children_infix (isVisited : node ∈ order) : children node <:+: order := by
  obtain ⟨front, back, isOrder⟩ := append_of_mem isVisited
  refine ⟨top :: front.flatMap children, back.flatMap children, ?_⟩
  conv_rhs => rw [traversed.order_eq, isOrder]
  rw [flatMap_append, flatMap_cons]
  simp

theorem child_mem (isVisited : node ∈ order) (isChild : child ∈ children node) : child ∈ order :=
  (traversed.children_infix isVisited).subset isChild

end

end Traversed

end

end Chromium.Library
