import Dummynet.System.Moves

/-!
# What is recorded

The packets in a list of records, by what happened to them.

## Main definitions

* `chosen`, `outOf`: the packets that an instance took from its queues, and the ones that left its
  delay line.
* `released`, `gone`: the packets that left delay lines, and the ones that left dummynet.
* `freed`: the packets that were dropped.
-/

namespace Dummynet

variable {p : SiPtr} {l l' : List Event}

/-- The packets that the scheduler of `p` chose. -/
def chosen (p : SiPtr) (l : List Event) : List Mbuf :=
  l.filterMap fun
    | .dequeued p' m => if p' = p then some m else none
    | _ => none

/-- The packets that left the delay line of `p`. -/
def outOf (p : SiPtr) (l : List Event) : List Mbuf :=
  l.filterMap fun
    | .released p' d => if p' = p then some d.m else none
    | _ => none

/-- The packets that left a delay line. -/
def released (l : List Event) : List DlPkt :=
  l.filterMap fun
    | .released _ d => some d
    | _ => none

/-- The packets that left dummynet after their delay: they were handed to the caller, were cut off
behind the packet that was handed to it, or were sent. -/
def gone (l : List Event) : List DlPkt :=
  l.flatMap fun
    | .handed d => [d]
    | .chained ds => ds
    | .sent d _ => [d]
    | _ => []

/-- The packets that were dropped. -/
def freed (l : List Event) : List Mbuf :=
  l.filterMap fun
    | .freed m => some m
    | _ => none

/-- Records that are not about delay lines. -/
def Event.isAside : Event → Prop
  | .dequeued _ _ | .released _ _ => False
  | _ => True

@[simp] theorem chosen_append : chosen p (l ++ l') = chosen p l ++ chosen p l' :=
  List.filterMap_append ..

@[simp] theorem outOf_append : outOf p (l ++ l') = outOf p l ++ outOf p l' :=
  List.filterMap_append ..

@[simp] theorem released_append : released (l ++ l') = released l ++ released l' :=
  List.filterMap_append ..

@[simp] theorem gone_append : gone (l ++ l') = gone l ++ gone l' := List.flatMap_append ..

@[simp] theorem freed_append : freed (l ++ l') = freed l ++ freed l' := List.filterMap_append ..

@[simp] theorem chosen_nil : chosen p [] = [] := rfl

@[simp] theorem outOf_nil : outOf p [] = [] := rfl

@[simp] theorem released_nil : released [] = [] := rfl

@[simp] theorem gone_nil : gone [] = [] := rfl

@[simp] theorem freed_nil : freed [] = [] := rfl

theorem chosen_aside (h : ∀ e ∈ l, e.isAside) : chosen p l = [] :=
  List.filterMap_eq_nil_iff.2 fun e he => by
    have := h e he
    cases e <;> first | rfl | exact this.elim

theorem outOf_aside (h : ∀ e ∈ l, e.isAside) : outOf p l = [] :=
  List.filterMap_eq_nil_iff.2 fun e he => by
    have := h e he
    cases e <;> first | rfl | exact this.elim

theorem released_aside (h : ∀ e ∈ l, e.isAside) : released l = [] :=
  List.filterMap_eq_nil_iff.2 fun e he => by
    have := h e he
    cases e <;> first | rfl | exact this.elim

theorem Event.isKey.aside {e : Event} (h : e.isKey) : e.isAside := by
  cases e <;> trivial

theorem Event.isNote.aside {e : Event} (h : e.isNote) : e.isAside := by
  cases e <;> trivial

theorem gone_keys (h : ∀ e ∈ l, e.isKey) : gone l = [] :=
  List.flatMap_eq_nil_iff.2 fun e he => by
    have := h e he
    cases e <;> first | rfl | exact this.elim

theorem freed_keys (h : ∀ e ∈ l, e.isKey) : freed l = [] :=
  List.filterMap_eq_nil_iff.2 fun e he => by
    have := h e he
    cases e <;> first | rfl | exact this.elim

@[simp] theorem freed_released (p : SiPtr) (ds : List DlPkt) :
    freed (ds.map (Event.released p)) = [] := by
  simp [freed, List.filterMap_map]

@[simp] theorem released_map (p : SiPtr) (ds : List DlPkt) :
    released (ds.map (Event.released p)) = ds := by
  simp [released, List.filterMap_map]

@[simp] theorem gone_released (p : SiPtr) (ds : List DlPkt) :
    gone (ds.map (Event.released p)) = [] := by
  simp [gone, List.flatMap_map]

@[simp] theorem chosen_released (p p' : SiPtr) (ds : List DlPkt) :
    chosen p (ds.map (Event.released p')) = [] := by
  simp [chosen, List.filterMap_map]

@[simp] theorem outOf_self (p : SiPtr) (ds : List DlPkt) :
    outOf p (ds.map (Event.released p)) = ds.map DlPkt.m := by
  simp [outOf, List.filterMap_map]

theorem outOf_of_ne {p' : SiPtr} (hne : p' ≠ p) (ds : List DlPkt) :
    outOf p (ds.map (Event.released p')) = [] := by
  simp [outOf, List.filterMap_map, hne]

end Dummynet
