import Mathlib

/-!
# Linked lists

A heap of nodes gives every node an optional successor. `Segment` says that following the successors
from one pointer passes through the given nodes and ends at another pointer. Segments compose, do not
depend on the successors of other nodes, and can be linked to a new end at their last node.
-/

set_option autoImplicit false
set_option relaxedAutoImplicit false

namespace ZephyrThrift.Foundation

universe u

variable {α : Type u}

/-- Following `next` from `start` passes through `nodes` and arrives at `stop`. -/
def Segment (next : α → Option α) : Option α → List α → Option α → Prop
  | start, [], stop => start = stop
  | start, node :: nodes, stop => start = some node ∧ Segment next (next node) nodes stop

theorem Segment.append {next : α → Option α} {second : List α} {middle stop : Option α}
    (hsecond : Segment next middle second stop) (first : List α) :
    ∀ start, Segment next start first middle → Segment next start (first ++ second) stop := by
  induction first with
  | nil => intro start hfirst; cases hfirst; exact hsecond
  | cons node first ih => intro start hfirst; exact ⟨hfirst.1, ih _ hfirst.2⟩

/-- The successors of other nodes do not matter. -/
theorem Segment.congr {next next' : α → Option α} {stop : Option α} (nodes : List α) :
    ∀ start, (∀ node ∈ nodes, next' node = next node) → Segment next start nodes stop →
      Segment next' start nodes stop := by
  induction nodes with
  | nil => intro start _ h; exact h
  | cons node nodes ih =>
    intro start hsame h
    refine ⟨h.1, ?_⟩
    rw [hsame node List.mem_cons_self]
    exact ih _ (fun other hother ↦ hsame other (List.mem_cons_of_mem _ hother)) h.2

/-- The last node of a segment can be linked to another end. -/
theorem Segment.relink [DecidableEq α] {next : α → Option α} {last : α} {old : Option α}
    (stop : Option α) (nodes : List α) :
    ∀ start, last ∉ nodes → Segment next start (nodes ++ [last]) old →
      Segment (Function.update next last stop) start (nodes ++ [last]) stop := by
  induction nodes with
  | nil => intro start _ h; exact ⟨h.1, Function.update_self ..⟩
  | cons node nodes ih =>
    intro start hlast h
    have hnode : node ≠ last := fun heq ↦ hlast (heq ▸ List.mem_cons_self)
    refine ⟨h.1, ?_⟩
    rw [Function.update_of_ne hnode]
    exact ih _ (fun hmem ↦ hlast (List.mem_cons_of_mem _ hmem)) h.2

/-- The start of a segment is its first node, or its end. -/
theorem Segment.start_eq {next : α → Option α} {start stop : Option α} {nodes : List α}
    (h : Segment next start nodes stop) : start = nodes.head?.or stop := by
  cases nodes with
  | nil => exact h
  | cons node nodes => exact h.1

end ZephyrThrift.Foundation
