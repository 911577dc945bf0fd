import Mathlib.Data.List.Nodup
import Mathlib.Logic.Function.Basic

/-! A queue kept as a doubly linked list: a head, a tail, and a `next` and a
`prev` link in every node. `Represents` ties the links to the list of nodes from
head to tail; adding at the tail appends to it and removing the head drops its
first element. -/
namespace LinkedQueue

variable {ι : Type}

@[ext]
structure Links (ι : Type) where
  head : Option ι
  tail : Option ι
  next : ι → Option ι
  prev : ι → Option ι

/-- Link `x` behind the tail. -/
def Links.pushBack [DecidableEq ι] (q : Links ι) (x : ι) : Links ι :=
  let next := Function.update q.next x none
  match q.tail with
  | some t =>
    { q with
      next := Function.update next t (some x)
      prev := Function.update q.prev x (some t)
      tail := some x }
  | none =>
    { head := some x
      tail := some x
      next := next
      prev := Function.update q.prev x none }

/-- Unlink the head `x`. -/
def Links.popFront [DecidableEq ι] (q : Links ι) (x : ι) : Links ι :=
  match q.next x with
  | some y =>
    { q with
      head := some y
      next := Function.update q.next x none
      prev := Function.update (Function.update q.prev y none) x none }
  | none =>
    { head := none
      tail := none
      next := Function.update q.next x none
      prev := Function.update q.prev x none }

/-- The nodes `l` are linked in order, the first of them to `p`, and the tail is
the last of them, or `p` when there is none. -/
def Seg (q : Links ι) : Option ι → List ι → Prop
  | p, [] => q.tail = p
  | p, x :: l => q.prev x = p ∧ q.next x = l.head? ∧ Seg q (some x) l

structure Represents (q : Links ι) (l : List ι) : Prop where
  head : q.head = l.head?
  seg : Seg q none l
  nodup : l.Nodup

variable {q q' : Links ι} {l : List ι} {x : ι}

theorem Seg.congr {p : Option ι} (h : Seg q p l) (htail : q'.tail = q.tail)
    (hnext : ∀ y ∈ l, q'.next y = q.next y) (hprev : ∀ y ∈ l, q'.prev y = q.prev y) :
    Seg q' p l := by
  induction l generalizing p with
  | nil => exact htail.trans h
  | cons y l ih =>
    obtain ⟨hp, hn, hl⟩ := h
    refine ⟨(hprev y List.mem_cons_self).trans hp, (hnext y List.mem_cons_self).trans hn, ?_⟩
    exact ih hl (fun z hz => hnext z (List.mem_cons_of_mem y hz))
      (fun z hz => hprev z (List.mem_cons_of_mem y hz))

theorem Seg.tail_eq {p : Option ι} (h : Seg q p l) : q.tail = l.getLast?.or p := by
  induction l generalizing p with
  | nil => exact h
  | cons y l ih =>
    rw [ih h.2.2]
    cases l with
    | nil => rfl
    | cons z l =>
      rw [List.getLast?_cons_cons, List.getLast?_eq_getLast_of_ne_nil (List.cons_ne_nil z l),
        Option.some_or, Option.some_or]

theorem Represents.tail_eq (h : Represents q l) : q.tail = l.getLast? := by
  rw [h.seg.tail_eq, Option.or_none]

/-- Appending to a segment of a queue: the old tail points to the new node, and
the new node back to it. -/
theorem Seg.append [DecidableEq ι] {p : Option ι} (h : Seg q p l) (hnodup : l.Nodup) (hx : x ∉ l)
    (htail : q'.tail = some x) (hxprev : q'.prev x = q.tail) (hxnext : q'.next x = none)
    (hprev : ∀ y ∈ l, q'.prev y = q.prev y)
    (hnext : ∀ y ∈ l, q'.next y = if q.tail = some y then some x else q.next y) :
    Seg q' p (l ++ [x]) := by
  induction l generalizing p with
  | nil => exact ⟨hxprev.trans h, hxnext, htail⟩
  | cons y l ih =>
    obtain ⟨hp, hn, hl⟩ := h
    rw [List.nodup_cons] at hnodup
    rw [List.mem_cons, not_or] at hx
    refine ⟨(hprev y List.mem_cons_self).trans hp, ?_, ?_⟩
    · rw [hnext y List.mem_cons_self, hl.tail_eq]
      cases l with
      | nil => simp
      | cons z l =>
        -- the tail is further back, so the link of `y` stays
        have hne : ¬ ((z :: l).getLast?.or (some y) = some y) := by
          rw [List.getLast?_eq_getLast_of_ne_nil (List.cons_ne_nil z l), Option.some_or,
            Option.some_inj]
          intro heq
          exact hnodup.1 (heq ▸ List.getLast_mem _)
        rw [if_neg hne, hn]
        rfl
    · exact ih hl hnodup.2 hx.2 (fun z hz => hprev z (List.mem_cons_of_mem y hz))
        (fun z hz => hnext z (List.mem_cons_of_mem y hz))

theorem Links.pushBack_head [DecidableEq ι] (q : Links ι) (x : ι) :
    (q.pushBack x).head = if q.tail = none then some x else q.head := by
  cases h : q.tail <;> simp [Links.pushBack, h]

theorem Links.pushBack_tail [DecidableEq ι] (q : Links ι) (x : ι) :
    (q.pushBack x).tail = some x := by
  cases h : q.tail <;> simp [Links.pushBack, h]

theorem Links.pushBack_next [DecidableEq ι] (q : Links ι) (x y : ι) :
    (q.pushBack x).next y =
      if q.tail = some y then some x else if y = x then none else q.next y := by
  cases h : q.tail with
  | none => simp [Links.pushBack, h, Function.update_apply]
  | some t => simp [Links.pushBack, h, Function.update_apply, eq_comm]

theorem Links.pushBack_prev [DecidableEq ι] (q : Links ι) (x y : ι) :
    (q.pushBack x).prev y = if y = x then q.tail else q.prev y := by
  cases h : q.tail <;> simp [Links.pushBack, h, Function.update_apply]

theorem Represents.pushBack [DecidableEq ι] (h : Represents q l) (hx : x ∉ l) :
    Represents (q.pushBack x) (l ++ [x]) := by
  have htail := h.tail_eq
  have hne : ∀ y ∈ l, y ≠ x := fun y hy heq => hx (heq ▸ hy)
  have hxtail : q.tail ≠ some x := fun ht => hx (List.mem_of_getLast? (htail.symm.trans ht))
  refine ⟨?_, ?_, ?_⟩
  · rw [q.pushBack_head, htail, h.head]
    cases l with
    | nil => rfl
    | cons y l => simp
  · refine h.seg.append h.nodup hx (q.pushBack_tail x) ?_ ?_ (fun y hy => ?_) (fun y hy => ?_)
    · rw [q.pushBack_prev, if_pos rfl]
    · rw [q.pushBack_next, if_neg hxtail, if_pos rfl]
    · rw [q.pushBack_prev, if_neg (hne y hy)]
    · rw [q.pushBack_next, if_neg (hne y hy)]
  · rw [List.nodup_append]
    refine ⟨h.nodup, List.nodup_singleton x, fun a ha b hb => ?_⟩
    rw [List.mem_singleton.mp hb]
    exact hne a ha

theorem Links.popFront_head [DecidableEq ι] (q : Links ι) (x : ι) :
    (q.popFront x).head = q.next x := by
  cases h : q.next x <;> simp [Links.popFront, h]

theorem Links.popFront_tail [DecidableEq ι] (q : Links ι) (x : ι) :
    (q.popFront x).tail = if q.next x = none then none else q.tail := by
  cases h : q.next x <;> simp [Links.popFront, h]

theorem Links.popFront_next [DecidableEq ι] (q : Links ι) (x y : ι) :
    (q.popFront x).next y = if y = x then none else q.next y := by
  cases h : q.next x <;> simp [Links.popFront, h, Function.update_apply]

theorem Links.popFront_prev [DecidableEq ι] (q : Links ι) (x y : ι) :
    (q.popFront x).prev y =
      if y = x then none else if q.next x = some y then none else q.prev y := by
  cases h : q.next x with
  | none => simp [Links.popFront, h, Function.update_apply]
  | some z => simp [Links.popFront, h, Function.update_apply, eq_comm]

theorem Represents.popFront [DecidableEq ι] (h : Represents q (x :: l)) :
    Represents (q.popFront x) l := by
  have hnodup := List.nodup_cons.mp h.nodup
  obtain ⟨-, hn, hl⟩ := h.seg
  have hne : ∀ y ∈ l, y ≠ x := fun y hy heq => hnodup.1 (heq ▸ hy)
  refine ⟨(q.popFront_head x).trans hn, ?_, hnodup.2⟩
  cases l with
  | nil =>
    have hnext : q.next x = none := hn
    show (q.popFront x).tail = none
    rw [q.popFront_tail, if_pos hnext]
  | cons y l =>
    obtain ⟨-, hny, hl⟩ := hl
    have hnext : q.next x = some y := hn
    have hyl : ∀ z ∈ l, some y ≠ some z := fun z hz heq =>
      (List.nodup_cons.mp hnodup.2).1 (Option.some_inj.mp heq ▸ hz)
    refine ⟨?_, ?_, hl.congr ?_ (fun z hz => ?_) (fun z hz => ?_)⟩
    · rw [q.popFront_prev, if_neg (hne y List.mem_cons_self), if_pos hnext]
    · rw [q.popFront_next, if_neg (hne y List.mem_cons_self), hny]
    · rw [q.popFront_tail, hnext, if_neg (Option.some_ne_none y)]
    · rw [q.popFront_next, if_neg (hne z (List.mem_cons_of_mem y hz))]
    · rw [q.popFront_prev, if_neg (hne z (List.mem_cons_of_mem y hz)), hnext, if_neg (hyl z hz)]

end LinkedQueue
