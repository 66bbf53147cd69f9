import Mathlib.Data.List.Basic
import Mathlib.Data.List.Count
import Mathlib.Data.List.Perm.Basic

/-!
# Growable vectors and their memory

A vector is a length and the memory it owns. Removing an element moves the later ones one slot to
the left and clearing only sets the length, so that a cursor over the slots that was made before
still reads what the memory holds: beyond the length, an element that has been moved or cleared.
-/

/-- The first `len` slots of `buf` are the elements; the rest is memory that was written before. -/
structure Vec (α : Type*) where
  buf : List α
  len : Nat
  len_le : len ≤ buf.length
deriving DecidableEq, Repr

namespace Vec

variable {α : Type*} {v w : Vec α} {x y : α} {i : Nat} {p : α → Bool}

def new : Vec α := ⟨[], 0, Nat.le_refl 0⟩

def toList (v : Vec α) : List α := v.buf.take v.len

def isEmpty (v : Vec α) : Bool := v.len == 0

/-- What a cursor at slot `i` reads. -/
def slot (v : Vec α) (i : Nat) : Option α := v.buf[i]?

def push (v : Vec α) (x : α) : Vec α where
  buf := v.toList ++ [x] ++ v.buf.drop (v.len + 1)
  len := v.len + 1
  len_le := by simp [toList, v.len_le]

/-- The last element stays where it was, in the slot that is now the first one beyond the length. -/
def remove (v : Vec α) (i : Nat) : Vec α :=
  if h : i < v.len then
    { buf := v.toList.eraseIdx i ++ v.buf.drop (v.len - 1)
      len := v.len - 1
      len_le := by
        have hlen := v.len_le
        simp only [toList, List.length_append, List.length_eraseIdx, List.length_take, List.length_drop]
        split_ifs <;> omega }
  else v

def clear (v : Vec α) : Vec α := { v with len := 0, len_le := Nat.zero_le _ }

def append (v w : Vec α) : Vec α where
  buf := v.toList ++ w.toList ++ v.buf.drop (v.len + w.len)
  len := v.len + w.len
  len_le := by
    have hv := v.len_le
    have hw := w.len_le
    simp only [toList, List.length_append, List.length_take]
    omega

/-- The index of the first element with `p`. -/
def position (v : Vec α) (p : α → Bool) : Option Nat := v.toList.findIdx? p

@[simp] lemma length_toList : v.toList.length = v.len := by
  simp [toList, v.len_le]

@[simp] lemma toList_new : (new : Vec α).toList = [] := rfl

@[simp] lemma toList_push : (v.push x).toList = v.toList ++ [x] :=
  List.take_left' (by simp [push])

@[simp] lemma toList_clear : v.clear.toList = [] := rfl

@[simp] lemma toList_append : (v.append w).toList = v.toList ++ w.toList :=
  List.take_left' (by simp [append])

lemma isEmpty_iff : v.isEmpty = true ↔ v.toList = [] := by
  rw [isEmpty, beq_iff_eq, ← List.length_eq_zero_iff, length_toList]

@[simp] lemma len_push : (v.push x).len = v.len + 1 := rfl

lemma toList_remove (h : i < v.len) : (v.remove i).toList = v.toList.eraseIdx i := by
  have hlen : (v.toList.eraseIdx i).length = v.len - 1 := by
    rw [List.length_eraseIdx, length_toList, if_pos h]
  simp only [remove, dif_pos h]
  exact List.take_left' hlen

lemma slot_of_lt (h : i < v.len) : v.slot i = v.toList[i]? := by
  rw [slot, toList, List.getElem?_take_of_lt h]

lemma position_eq_none : v.position p = none ↔ ∀ x ∈ v.toList, p x = false := by
  rw [position, List.findIdx?_eq_none_iff]

end Vec
