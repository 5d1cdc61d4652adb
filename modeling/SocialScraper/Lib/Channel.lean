import Mathlib.Data.List.Basic
/-!
# A queue closed by end markers

The producer of a FIFO queue puts one `done` for each of `n` consumers after
its last item; a consumer that takes one returns. `Drains` is the invariant of
what is pending, in the queue and before it: only markers follow a marker, and
none is lost.
-/

namespace Lib

variable {α : Type*}

/-- What travels through the queue. -/
inductive Message (α : Type*) where
  | item (a : α)
  | done
deriving DecidableEq

def Message.isDone : Message α → Bool
  | .item _ => false
  | .done => true

/-- The end markers in `q`. -/
def markers (q : List (Message α)) : ℕ := q.countP Message.isDone

/-- Only markers follow a marker. -/
def Closing : List (Message α) → Prop
  | [] => True
  | .item _ :: q => Closing q
  | .done :: q => ∀ a, .item a ∉ q

@[simp] theorem markers_nil : markers ([] : List (Message α)) = 0 := rfl
@[simp] theorem markers_item (a : α) (q : List (Message α)) : markers (.item a :: q) = markers q :=
  List.countP_cons_of_neg (by simp [Message.isDone])
@[simp] theorem markers_done (q : List (Message α)) : markers (.done :: q) = markers q + 1 :=
  List.countP_cons_of_pos (by simp [Message.isDone])
@[simp] theorem markers_append (p q : List (Message α)) : markers (p ++ q) = markers p + markers q := by simp [markers]
@[simp] theorem markers_replicate (n : ℕ) : markers (List.replicate n (Message.done : Message α)) = n := by
  simp [markers, List.countP_replicate, Message.isDone]
@[simp] theorem markers_map_item (as : List α) : markers (as.map Message.item) = 0 := by
  simp [markers, List.countP_map, Function.comp_def, Message.isDone]

def Message.toItem : Message α → Option α
  | .item a => some a
  | .done => none

/-- The items in `q`, in order. -/
def items (q : List (Message α)) : List α := q.filterMap Message.toItem

@[simp] theorem items_nil : items ([] : List (Message α)) = [] := rfl
@[simp] theorem items_item (a : α) (q : List (Message α)) : items (.item a :: q) = a :: items q := rfl
@[simp] theorem items_done (q : List (Message α)) : items (.done :: q) = items q := rfl
@[simp] theorem items_append (p q : List (Message α)) : items (p ++ q) = items p ++ items q := List.filterMap_append
@[simp] theorem items_load (as : List α) (n : ℕ) : items (as.map Message.item ++ List.replicate n .done) = as := by
  induction as with
  | nil =>
    induction n with
    | zero => rfl
    | succ n ih => exact ih
  | cons a as ih => exact congrArg (a :: ·) ih

theorem count_load [DecidableEq α] (as : List α) (n : ℕ) (a : α) :
    (as.map Message.item ++ List.replicate n Message.done).count (Message.item a) = as.count a := by
  induction as with
  | nil => simp [List.count_replicate]
  | cons b as ih => simpa [List.count_cons] using ih

theorem eq_nil_of_no_items {q : List (Message α)} (h : ∀ a, .item a ∉ q) (hm : markers q = 0) : q = [] := by
  cases q with
  | nil => rfl
  | cons m q =>
    cases m with
    | item a => exact absurd List.mem_cons_self (h a)
    | done => simp at hm

namespace Closing

theorem of_no_items {q : List (Message α)} (h : ∀ a, .item a ∉ q) : Closing q := by
  cases q with
  | nil => trivial
  | cons m q =>
    cases m with
    | item a => exact absurd List.mem_cons_self (h a)
    | done => exact fun a ha => h a (List.mem_cons_of_mem _ ha)

theorem tail {m : Message α} {q : List (Message α)} (h : Closing (m :: q)) : Closing q := by
  cases m with
  | item a => exact h
  | done => exact of_no_items h

theorem suffix {p q : List (Message α)} (h : Closing (p ++ q)) : Closing q := by
  induction p with
  | nil => exact h
  | cons m p ih => exact ih h.tail

/-- Before its first marker a queue may hold any items. -/
theorem prepend {p q : List (Message α)} (h : Closing q) (hp : markers p = 0) : Closing (p ++ q) := by
  induction p with
  | nil => exact h
  | cons m p ih =>
    cases m with
    | item b => exact ih (by simpa using hp)
    | done => simp at hp

end Closing

/-- What is pending for `n` consumers, of which `returned` have taken a marker. -/
structure Drains (pending : List (Message α)) (returned n : ℕ) : Prop where
  closing : Closing pending
  markers : markers pending + returned = n
  drained : 0 < returned → ∀ a, .item a ∉ pending

namespace Drains

variable {p q : List (Message α)} {r n : ℕ} {a : α}

theorem load (as : List α) (n : ℕ) : Drains (as.map Message.item ++ List.replicate n .done) 0 n where
  closing := Closing.prepend (.of_no_items fun a => by simp) (by simp)
  markers := by simp
  drained h := absurd h (by omega)

theorem take_item (h : Drains (.item a :: p) r n) : Drains p r n where
  closing := h.closing
  markers := by simpa using h.markers
  drained hr := absurd List.mem_cons_self (h.drained hr a)

theorem take_done (h : Drains (.done :: p) r n) : Drains p (r + 1) n where
  closing := h.closing.tail
  markers := by
    have := h.markers
    simp only [markers_done] at this
    omega
  drained _ := h.closing

/-- No marker has been put while all of them are still to come. -/
theorem none_put (h : Drains (q ++ p) r n) (hp : Lib.markers p = n) : Lib.markers q = 0 ∧ r = 0 := by
  have := h.markers
  simp only [markers_append] at this
  omega

/-- An item is put while all markers are still to come. -/
theorem insert (h : Drains (q ++ p) r n) (hp : Lib.markers p = n) (a : α) : Drains (q ++ .item a :: p) r n where
  closing := Closing.prepend (q := .item a :: p) h.closing.suffix (h.none_put hp).1
  markers := by simpa using h.markers
  drained hr := absurd hr (by have := (h.none_put hp).2; omega)

/-- Once all consumers have returned, nothing is pending. -/
theorem all_returned (h : Drains p n n) (hn : 0 < n) : p = [] := by
  have := h.markers
  exact eq_nil_of_no_items (h.drained hn) (by omega)

end Drains

end Lib
