import Mathlib.Logic.Function.Basic

/-!
# Files with times of modification

A disk holds a content and a time for each file. Edits that come later than a time leave a mark on
every file they change, and a file that is not younger is the old one. A program that reads files
asks for one after the other, and its result depends on nothing but the answers.
-/

namespace Files

variable {P C α : Type}

structure File (C : Type) where
  content : C
  mtime : Nat

structure Disk (P C : Type) where
  file : P → Option (File C)
  dir : P → Bool

namespace Disk

def content (d : Disk P C) (p : P) : Option C := (d.file p).map File.content

/-- There is a file or a directory. -/
def has (d : Disk P C) (p : P) : Bool := (d.file p).isSome || d.dir p

lemma content_of_file {d : Disk P C} {p : P} {f : File C} (h : d.file p = some f) :
    d.content p = some f.content := by rw [content, h, Option.map_some]

lemma content_congr {d d' : Disk P C} {p : P} (h : d.file p = d'.file p) :
    d.content p = d'.content p := by rw [content, content, h]

variable [DecidableEq P]

def write (d : Disk P C) (p : P) (c : C) (now : Nat) : Disk P C :=
  { d with file := Function.update d.file p (some ⟨c, now⟩) }

def mkdir (d : Disk P C) (p : P) : Disk P C := { d with dir := Function.update d.dir p true }

@[simp] lemma file_mkdir (d : Disk P C) (p : P) : (d.mkdir p).file = d.file := rfl

lemma file_write_self (d : Disk P C) (p : P) (c : C) (now : Nat) :
    (d.write p c now).file p = some ⟨c, now⟩ := Function.update_self p _ d.file

lemma file_write_of_ne {d : Disk P C} {p q : P} (h : q ≠ p) (c : C) (now : Nat) :
    (d.write p c now).file q = d.file q := Function.update_of_ne h _ d.file

lemma has_of_content {d : Disk P C} {p : P} {c : C} (h : d.content p = some c) :
    d.has p = true := by
  obtain ⟨f, hf, -⟩ := Option.map_eq_some_iff.mp h
  rw [has, hf]
  rfl

lemma has_mkdir {d : Disk P C} {q : P} (h : d.has q = true) (p : P) : (d.mkdir p).has q = true := by
  rw [has, Bool.or_eq_true] at h ⊢
  rcases h with hfile | hdir
  · exact .inl hfile
  · right
    change Function.update d.dir p true q = true
    by_cases hqp : q = p
    · rw [hqp, Function.update_self]
    · rw [Function.update_of_ne hqp, hdir]

lemma has_write_self (d : Disk P C) (p : P) (c : C) (now : Nat) :
    (d.write p c now).has p = true := by
  rw [has, file_write_self]
  rfl

lemma has_write {d : Disk P C} {q : P} (h : d.has q = true) (p : P) (c : C) (now : Nat) :
    (d.write p c now).has q = true := by
  by_cases hqp : q = p
  · rw [hqp]
    exact has_write_self d p c now
  · rw [has, file_write_of_ne hqp]
    exact h

end Disk

/-! ### Edits -/

inductive Edit (P C : Type)
  | write (p : P) (c : C) (time : Nat)
  | remove (p : P)
  | mkdir (p : P)
  | rmdir (p : P)

namespace Edit

variable [DecidableEq P]

def apply (d : Disk P C) : Edit P C → Disk P C
  | write p c time => d.write p c time
  | remove p => { d with file := Function.update d.file p none }
  | mkdir p => d.mkdir p
  | rmdir p => { d with dir := Function.update d.dir p false }

/-- What is written is younger than `t`. -/
def LaterThan (t : Nat) : Edit P C → Prop
  | write _ _ time => t < time
  | _ => True

/-- The file at `p` is written or removed. -/
def On (p : P) : Edit P C → Prop
  | write q _ _ => q = p
  | remove q => q = p
  | _ => False

variable {d : Disk P C} {e : Edit P C} {es : List (Edit P C)} {p : P} {f : File C} {t : Nat}

lemma file_apply_of_not_on (h : ¬e.On p) : (e.apply d).file p = d.file p := by
  cases e with
  | write q c time => exact Disk.file_write_of_ne (fun hp => h hp.symm) c time
  | remove q => exact Function.update_of_ne (fun hp => h hp.symm) _ _
  | mkdir q => rfl
  | rmdir q => rfl

lemma file_of_apply (he : e.LaterThan t) (h : (e.apply d).file p = some f) (hf : f.mtime ≤ t) :
    d.file p = some f := by
  by_cases hon : e.On p
  · cases e with
    | write q c time =>
      obtain rfl : q = p := hon
      obtain rfl := Option.some_inj.mp ((Disk.file_write_self d q c time).symm.trans h)
      exact absurd he (Nat.not_lt.mpr hf)
    | remove q =>
      obtain rfl : q = p := hon
      have hnone : (Edit.apply d (.remove q)).file q = none := Function.update_self q _ d.file
      cases hnone.symm.trans h
    | mkdir q => exact hon.elim
    | rmdir q => exact hon.elim
  · rwa [file_apply_of_not_on hon] at h

/-- The edits, one after the other. -/
def applyAll (d : Disk P C) (es : List (Edit P C)) : Disk P C := es.foldl apply d

lemma file_applyAll_of_not_on (h : ∀ e ∈ es, ¬e.On p) : (applyAll d es).file p = d.file p := by
  induction es generalizing d with
  | nil => rfl
  | cons e es ih =>
    have hrest : (applyAll (e.apply d) es).file p = (e.apply d).file p :=
      ih fun e' he' => h e' (List.mem_cons_of_mem e he')
    exact hrest.trans (file_apply_of_not_on (h e List.mem_cons_self))

/-- A file that is not younger than the edits was there before them. -/
lemma file_of_applyAll (hes : ∀ e ∈ es, e.LaterThan t) (h : (applyAll d es).file p = some f)
    (hf : f.mtime ≤ t) : d.file p = some f := by
  induction es generalizing d with
  | nil => exact h
  | cons e es ih =>
    have hmid : (e.apply d).file p = some f := ih (fun e' he' => hes e' (List.mem_cons_of_mem e he')) h
    exact file_of_apply (hes e List.mem_cons_self) hmid hf

end Edit

/-! ### Programs that read files -/

inductive Reading (P C α : Type)
  | done (x : α)
  | read (p : P) (next : Option C → Reading P C α)

namespace Reading

/-- The result, by the content of each file. -/
def run (content : P → Option C) : Reading P C α → α
  | done x => x
  | read p next => (next (content p)).run content

/-- The files that are asked for. -/
def asked (content : P → Option C) : Reading P C α → List P
  | done _ => []
  | read p next => p :: (next (content p)).asked content

lemma run_congr {r : Reading P C α} {f g : P → Option C} (h : ∀ p ∈ r.asked f, g p = f p) :
    r.run g = r.run f := by
  induction r with
  | done x => rfl
  | read p next ih =>
    have hp : g p = f p := h p List.mem_cons_self
    have hnext := ih (f p) fun q hq => h q (List.mem_cons_of_mem p hq)
    rw [run, run, hp, hnext]

end Reading

end Files
