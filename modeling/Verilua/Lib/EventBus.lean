import Verilua.Lib.TransitionSystem
import Mathlib.Data.List.Nodup
import Mathlib.Tactic.ByContra
import Mathlib.Tactic.Common

/-!
# An event bus whose sends are handed out by nested loops

Tokens register on events. A send only appends the event to a shared pending list and raises a
flag; when the flag is noticed a loop walks the pending list from its front, takes the tokens
waiting on each entry and hands them out one by one. Between two hands anything may happen, so
loops nest, and a nested loop walks the same pending list from its front again and clears it.

Two questions are answered for any events and tokens: whether a token is handed out for a send
that came after its registration, and whether the tokens waiting at a send are all handed out
once everything is quiet.
-/

namespace EventBus

open TransitionSystem

variable {E W : Type*}

/-- What the bus did, newest first in the log. -/
inductive Entry (E W : Type*)
  | register (e : E) (w : W)
  | send (e : E) (waiting : List W)
  | hand (e : E) (w : W)
  | drop (e : E) (w : W)
  deriving DecidableEq

/-- A loop in progress: the index of the entry it takes next, and the tokens of the entry it
took last that it has still to hand out. -/
structure Loop (E W : Type*) where
  next : Nat
  taken : Option (E × List W)

@[ext]
structure Bus (E W : Type*) where
  waiting : E → List W
  pending : List E
  /-- How many entries at the front of `pending` some loop has taken. -/
  handled : Nat
  flag : Bool
  /-- The loops in progress, innermost first. -/
  loops : List (Loop E W)
  log : List (Entry E W)

inductive Act (E W : Type*)
  | register (e : E) (w : W)
  | send (e : E)
  | drop (e : E) (i : Nat)
  | reset (e : E)
  | beginLoop
  | loop

def Bus.init : Bus E W :=
  { waiting := fun _ => [], pending := [], handled := 0, flag := false, loops := [], log := [] }

/-- The sends that no loop has taken yet. -/
def Bus.unhandled (b : Bus E W) : List E := b.pending.drop b.handled

variable [DecidableEq E]

/-- One move of the innermost loop. -/
def Bus.advance (b : Bus E W) : Option (Bus E W) :=
  match b.loops with
  | [] => none
  | ⟨k, some (e, w :: ws)⟩ :: ls =>
    some { b with loops := ⟨k, some (e, ws)⟩ :: ls, log := .hand e w :: b.log }
  | ⟨k, some (_, [])⟩ :: ls => some { b with loops := ⟨k, none⟩ :: ls }
  | ⟨k, none⟩ :: ls =>
    match b.pending[k]? with
    | some e => some { b with
        loops := ⟨k + 1, some (e, b.waiting e)⟩ :: ls
        waiting := Function.update b.waiting e []
        handled := max b.handled (k + 1) }
    | none => some { b with loops := ls, pending := [], handled := 0 }

def Bus.step (b : Bus E W) : Act E W → Option (Bus E W)
  | .register e w => some { b with
      waiting := Function.update b.waiting e (b.waiting e ++ [w])
      log := .register e w :: b.log }
  | .send e => some { b with
      pending := b.pending ++ [e], flag := true, log := .send e (b.waiting e) :: b.log }
  | .drop e i =>
    match (b.waiting e)[i]? with
    | some w => some { b with
        waiting := Function.update b.waiting e ((b.waiting e).eraseIdx i)
        log := .drop e w :: b.log }
    | none => none
  | .reset e => some { b with waiting := Function.update b.waiting e [] }
  | .beginLoop =>
    if b.flag then some { b with flag := false, loops := ⟨0, none⟩ :: b.loops } else none
  | .loop => if b.flag then none else b.advance

/-! ### The moves of the innermost loop -/

/-- What `Bus.advance` can do. -/
inductive Advance (b : Bus E W) : Bus E W → Prop
  | hand (k e w ws ls) (h : b.loops = ⟨k, some (e, w :: ws)⟩ :: ls) :
      Advance b { b with loops := ⟨k, some (e, ws)⟩ :: ls, log := .hand e w :: b.log }
  | finish (k e ls) (h : b.loops = ⟨k, some (e, [])⟩ :: ls) :
      Advance b { b with loops := ⟨k, none⟩ :: ls }
  | take (k e ls) (h : b.loops = ⟨k, none⟩ :: ls) (he : b.pending[k]? = some e) :
      Advance b { b with
        loops := ⟨k + 1, some (e, b.waiting e)⟩ :: ls
        waiting := Function.update b.waiting e []
        handled := max b.handled (k + 1) }
  | close (k ls) (h : b.loops = ⟨k, none⟩ :: ls) (he : b.pending[k]? = none) :
      Advance b { b with loops := ls, pending := [], handled := 0 }

theorem Advance.of_advance {b b' : Bus E W} (h : b.advance = some b') : Advance b b' := by
  unfold Bus.advance at h
  split at h
  · cases h
  · next k e w ws ls hl => cases h; exact .hand k e w ws ls hl
  · next k e ls hl => cases h; exact .finish k e ls hl
  · next k ls hl =>
    split at h
    · next e he => cases h; exact .take k e ls hl he
    · next he => cases h; exact .close k ls hl he

/-- What one step of the bus can do. -/
inductive Rule (b : Bus E W) : Act E W → Bus E W → Prop
  | register (e w) : Rule b (.register e w) { b with
      waiting := Function.update b.waiting e (b.waiting e ++ [w])
      log := .register e w :: b.log }
  | send (e) : Rule b (.send e) { b with
      pending := b.pending ++ [e], flag := true, log := .send e (b.waiting e) :: b.log }
  | drop (e i w) (h : (b.waiting e)[i]? = some w) : Rule b (.drop e i) { b with
      waiting := Function.update b.waiting e ((b.waiting e).eraseIdx i)
      log := .drop e w :: b.log }
  | reset (e) : Rule b (.reset e) { b with waiting := Function.update b.waiting e [] }
  | beginLoop (h : b.flag = true) :
      Rule b .beginLoop { b with flag := false, loops := ⟨0, none⟩ :: b.loops }
  | loop (hf : b.flag = false) {b'} (h : Advance b b') : Rule b .loop b'

theorem Rule.of_step {b b' : Bus E W} {a : Act E W} (h : b.step a = some b') : Rule b a b' := by
  cases a with
  | register e w => cases h; exact .register e w
  | send e => cases h; exact .send e
  | drop e i =>
    simp only [Bus.step] at h
    split at h
    · next w hw => cases h; exact .drop e i w hw
    · cases h
  | reset e => cases h; exact .reset e
  | beginLoop =>
    simp only [Bus.step] at h
    split_ifs at h with hf
    cases h; exact .beginLoop hf
  | loop =>
    simp only [Bus.step] at h
    split_ifs at h with hf
    exact .loop (by simpa using hf) (Advance.of_advance h)

lemma Rule.flag_eq_false {b b' : Bus E W} {a : Act E W} (h : Rule b a b')
    (hsend : ∀ e, a ≠ .send e) (hf : b.flag = false) : b'.flag = false := by
  cases h with
  | send e => exact absurd rfl (hsend e)
  | beginLoop => rfl
  | register | drop | reset => exact hf
  | loop _ hadv => cases hadv <;> exact hf

omit [DecidableEq E] in
/-- An entry taken by a loop was unhandled unless some loop had taken it before. -/
lemma mem_unhandled_of_getElem? {b : Bus E W} {k : Nat} {e : E} (h : b.pending[k]? = some e)
    (hk : b.handled ≤ k) : e ∈ b.unhandled := by
  refine List.mem_of_getElem? (i := k - b.handled) ?_
  rw [Bus.unhandled, List.getElem?_drop, Nat.add_sub_cancel' hk, h]

omit [DecidableEq E] in
lemma drop_max_subset (l : List E) (m n : Nat) : l.drop (max m n) ⊆ l.drop m := by
  intro x hx
  rcases Nat.le_total m n with h | h
  · rw [Nat.max_eq_right h] at hx
    exact (List.drop_subset_drop_left l h) hx
  · rwa [Nat.max_eq_left h] at hx

/-! ### Waiting lists -/

lemma mem_update_cases {f : E → List W} {e e' : E} {l : List W} {w : W}
    (h : w ∈ Function.update f e l e') : e' = e ∧ w ∈ l ∨ e' ≠ e ∧ w ∈ f e' := by
  by_cases he : e' = e
  · subst he; simpa using h
  · simpa [Function.update_of_ne he, he] using h

lemma mem_update_of_mem {f : E → List W} {e e' : E} {l : List W} {w : W} (h : w ∈ f e')
    (hl : e' = e → w ∈ l) : w ∈ Function.update f e l e' := by
  by_cases he : e' = e
  · subst he; simpa using hl rfl
  · simpa [Function.update_of_ne he] using h

lemma Rule.mem_waiting {b b' : Bus E W} {a : Act E W} {e : E} {w : W} (h : Rule b a b')
    (hne : a ≠ .register e w) (hw : w ∈ b'.waiting e) : w ∈ b.waiting e := by
  cases h with
  | register e' w' =>
    rcases mem_update_cases hw with ⟨rfl, hw⟩ | ⟨-, hw⟩
    · rcases List.mem_append.mp hw with hw | hw
      · exact hw
      · rw [List.mem_singleton.mp hw] at hne
        exact absurd rfl hne
    · exact hw
  | send | beginLoop => exact hw
  | drop e' i w' hi =>
    rcases mem_update_cases hw with ⟨rfl, hw⟩ | ⟨-, hw⟩
    · exact List.eraseIdx_subset hw
    · exact hw
  | reset e' =>
    rcases mem_update_cases hw with ⟨-, hw⟩ | ⟨-, hw⟩
    · cases hw
    · exact hw
  | loop _ h =>
    cases h with
    | hand | finish | close => exact hw
    | take k e' ls hl he =>
      rcases mem_update_cases hw with ⟨-, hw⟩ | ⟨-, hw⟩
      · cases hw
      · exact hw

/-! ### The loops run over all sends -/

/-- While the flag is down, the innermost loop has all unhandled sends before it. -/
structure Behind (b : Bus E W) : Prop where
  behind : b.flag = false → b.pending = [] ∨ ∃ l ls, b.loops = l :: ls ∧ l.next ≤ b.handled
  handled_le : b.handled ≤ b.pending.length

omit [DecidableEq E] in
lemma behind_init : Behind (Bus.init : Bus E W) := ⟨fun _ => .inl rfl, Nat.le_refl 0⟩

omit [DecidableEq E] in
lemma Behind.next_le {b : Bus E W} (hb : Behind b) (hf : b.flag = false) {l : Loop E W}
    {ls : List (Loop E W)} (hl : b.loops = l :: ls) : b.pending = [] ∨ l.next ≤ b.handled := by
  rcases hb.behind hf with h | ⟨l', _, h, hle⟩
  · exact .inl h
  · rw [hl] at h; cases h; exact .inr hle

omit [DecidableEq E] in
lemma Behind.le_handled {b : Bus E W} (hb : Behind b) (hf : b.flag = false) {l : Loop E W}
    {ls : List (Loop E W)} {e : E} (hl : b.loops = l :: ls) (he : b.pending[l.next]? = some e) :
    l.next ≤ b.handled :=
  (hb.next_le hf hl).resolve_left fun h => by simp [h] at he

omit [DecidableEq E] in
/-- The entry that the innermost loop takes is the only unhandled one that `handled` steps over. -/
lemma Behind.mem_of_take {b : Bus E W} (hb : Behind b) (hf : b.flag = false) {k : Nat} {e e' : E}
    {ls : List (Loop E W)} (hl : b.loops = ⟨k, none⟩ :: ls) (he : b.pending[k]? = some e)
    (hu : e' ∈ b.unhandled) (hne : e' ≠ e) : e' ∈ b.pending.drop (max b.handled (k + 1)) := by
  have hlt : k < b.pending.length := (List.getElem?_eq_some_iff.mp he).1
  have hk : k ≤ b.handled := hb.le_handled hf hl he
  unfold Bus.unhandled at hu
  rcases Nat.lt_or_ge k b.handled with hlt' | hge
  · rwa [Nat.max_eq_left hlt']
  · have hkeq : k = b.handled := Nat.le_antisymm hk hge
    subst hkeq
    rw [Nat.max_eq_right (Nat.le_succ _)]
    rw [List.drop_eq_getElem_cons hlt, List.mem_cons] at hu
    refine hu.resolve_left fun h => hne ?_
    rw [h]
    exact (List.getElem?_eq_some_iff.mp he).2

omit [DecidableEq E] in
/-- A loop that has come to the end of the pending list leaves no send unhandled. -/
lemma Behind.unhandled_of_close {b : Bus E W} (hb : Behind b) (hf : b.flag = false) {k : Nat}
    {ls : List (Loop E W)} (hl : b.loops = ⟨k, none⟩ :: ls) (he : b.pending[k]? = none) :
    b.unhandled = [] := by
  rcases hb.next_le hf hl with h | hle
  · simp [Bus.unhandled, h]
  · exact List.drop_eq_nil_of_le (Nat.le_trans (List.getElem?_eq_none_iff.mp he) hle)

lemma Behind.advance {b b' : Bus E W} (hb : Behind b) (hf : b.flag = false)
    (h : Advance b b') : Behind b' := by
  cases h with
  | hand k e w ws ls hl | finish k e ls hl =>
    exact ⟨fun _ => (hb.next_le hf hl).imp_right fun h => ⟨_, _, rfl, h⟩, hb.handled_le⟩
  | take k e ls hl he =>
    have hlt : k < b.pending.length := (List.getElem?_eq_some_iff.mp he).1
    exact ⟨fun _ => .inr ⟨_, _, rfl, Nat.le_max_right _ _⟩, Nat.max_le.mpr ⟨hb.handled_le, hlt⟩⟩
  | close k ls hl he => exact ⟨fun _ => .inl rfl, Nat.le_refl 0⟩

lemma Behind.step {b b' : Bus E W} {a : Act E W} (hb : Behind b) (h : Rule b a b') : Behind b' := by
  cases h with
  | register | drop | reset => exact ⟨hb.behind, hb.handled_le⟩
  | send e => exact ⟨fun h => by simp at h, by simpa using Nat.le_succ_of_le hb.handled_le⟩
  | beginLoop hf => exact ⟨fun _ => .inr ⟨_, _, rfl, Nat.zero_le _⟩, hb.handled_le⟩
  | loop hf h => exact hb.advance hf h

theorem behind_of_reach {G : Bus E W → Act E W → Prop} {b : Bus E W}
    (h : Reach Bus.step G Bus.init b) : Behind b :=
  h.invariant behind_init fun _ _ _ _ hb _ hs => hb.step (Rule.of_step hs)

omit [DecidableEq E] in
/-- Once the flag is down and no loop is in progress nothing is pending. -/
theorem Behind.pending_eq_nil {b : Bus E W} (hb : Behind b) (hf : b.flag = false)
    (hl : b.loops = []) : b.pending = [] := by
  rcases hb.behind hf with h | ⟨_, _, h, _⟩
  · exact h
  · rw [hl] at h; cases h

/-- A send stays unhandled until the list of its event is taken. -/
lemma Behind.mem_unhandled {b b' : Bus E W} {a : Act E W} {e : E} (hb : Behind b)
    (h : Rule b a b') (hu : e ∈ b.unhandled) (hw : b'.waiting e ≠ []) : e ∈ b'.unhandled := by
  cases h with
  | register | drop | reset | beginLoop => exact hu
  | send e' =>
    simp only [Bus.unhandled, List.drop_append_of_le_length hb.handled_le]
    exact List.mem_append_left _ hu
  | loop hf h =>
    cases h with
    | hand | finish => exact hu
    | take k e' ls hl he =>
      have hne : e ≠ e' := by
        rintro rfl
        exact hw (Function.update_self ..)
      exact hb.mem_of_take hf hl he hu hne
    | close k ls hl he =>
      rw [hb.unhandled_of_close hf hl he] at hu
      cases hu

/-! ### Everything that was waiting at a send is handed out -/

/-- `w` waited on `e` at some send and was neither handed out nor dropped since. -/
def Owed (e : E) (w : W) : List (Entry E W) → Prop
  | [] => False
  | .register _ _ :: log => Owed e w log
  | .send e' ws :: log => e' = e ∧ w ∈ ws ∨ Owed e w log
  | .hand e' w' :: log => ¬ (e' = e ∧ w' = w) ∧ Owed e w log
  | .drop e' w' :: log => ¬ (e' = e ∧ w' = w) ∧ Owed e w log

omit [DecidableEq E] in
lemma owed_of_split {e : E} {w : W} {ws : List W} {later earlier : List (Entry E W)}
    (hw : w ∈ ws) (hhand : .hand e w ∉ later) (hdrop : .drop e w ∉ later) :
    Owed e w (later ++ .send e ws :: earlier) := by
  induction later with
  | nil => exact .inl ⟨rfl, hw⟩
  | cons x later ih =>
    simp only [List.mem_cons, not_or] at hhand hdrop
    have hrest := ih hhand.2 hdrop.2
    cases x with
    | register => exact hrest
    | send => exact .inr hrest
    | hand e' w' => exact ⟨fun h => hhand.1 (by rw [h.1, h.2]), hrest⟩
    | drop e' w' => exact ⟨fun h => hdrop.1 (by rw [h.1, h.2]), hrest⟩

/-- A waiting list is not thrown away while a send on its event is unhandled. -/
def KeepsOwed (b : Bus E W) : Act E W → Prop
  | .reset e => e ∈ b.unhandled → b.waiting e = []
  | _ => True

/-- Whatever is owed a hand is still on the way to it. -/
structure Covered (b : Bus E W) : Prop where
  /-- While the flag is down, the innermost loop has all unhandled sends before it. -/
  behind : b.flag = false → b.pending = [] ∨ ∃ l ls, b.loops = l :: ls ∧ l.next ≤ b.handled
  handled_le : b.handled ≤ b.pending.length
  owed : ∀ e w, Owed e w b.log → w ∈ b.waiting e ∧ e ∈ b.unhandled ∨
    ∃ l ∈ b.loops, ∃ ws, l.taken = some (e, ws) ∧ w ∈ ws

omit [DecidableEq E] in
lemma covered_init : Covered (Bus.init : Bus E W) :=
  ⟨fun _ => .inl rfl, Nat.le_refl 0, fun _ _ h => h.elim⟩

omit [DecidableEq E] in
lemma mem_eraseIdx_or {l : List W} {i : Nat} {w x : W} (hi : l[i]? = some w) (hx : x ∈ l) :
    x = w ∨ x ∈ l.eraseIdx i := by
  rw [List.eraseIdx_eq_take_drop_succ]
  obtain ⟨hlt, rfl⟩ := List.getElem?_eq_some_iff.mp hi
  rw [← List.take_append_drop i l, List.drop_eq_getElem_cons hlt] at hx
  simp only [List.mem_append, List.mem_cons] at hx ⊢
  tauto

omit [DecidableEq E] in
lemma Covered.toBehind {b : Bus E W} (hb : Covered b) : Behind b := ⟨hb.behind, hb.handled_le⟩

lemma Covered.advance {b b' : Bus E W} (hb : Covered b) (hf : b.flag = false)
    (h : Advance b b') : Covered b' := by
  obtain ⟨hbehind, hle⟩ := hb.toBehind.advance hf h
  refine ⟨hbehind, hle, ?_⟩
  cases h with
  | hand k e w ws ls hl =>
    rintro e' w' ⟨hne, ho⟩
    refine (hb.owed e' w' ho).imp_right ?_
    rintro ⟨l, hmem, ws', ht, hw⟩
    rw [hl, List.mem_cons] at hmem
    rcases hmem with rfl | hmem
    · cases ht
      rcases List.mem_cons.mp hw with rfl | hw
      · exact absurd ⟨rfl, rfl⟩ hne
      · exact ⟨_, List.mem_cons_self, _, rfl, hw⟩
    · exact ⟨l, List.mem_cons_of_mem _ hmem, ws', ht, hw⟩
  | finish k e ls hl =>
    intro e' w' ho
    refine (hb.owed e' w' ho).imp_right ?_
    rintro ⟨l, hmem, ws', ht, hw⟩
    rw [hl, List.mem_cons] at hmem
    rcases hmem with rfl | hmem
    · cases ht; cases hw
    · exact ⟨l, List.mem_cons_of_mem _ hmem, ws', ht, hw⟩
  | take k e ls hl he =>
    intro e' w' ho
    rcases hb.owed e' w' ho with ⟨hw, hu⟩ | ⟨l, hmem, ws', ht, hw⟩
    · by_cases hee : e' = e
      · subst hee
        exact .inr ⟨_, List.mem_cons_self, _, rfl, hw⟩
      · exact .inl ⟨by simpa [Function.update_of_ne hee] using hw,
          hb.toBehind.mem_of_take hf hl he hu hee⟩
    · rw [hl, List.mem_cons] at hmem
      rcases hmem with rfl | hmem
      · cases ht
      · exact .inr ⟨l, List.mem_cons_of_mem _ hmem, ws', ht, hw⟩
  | close k ls hl he =>
    have hend : b.unhandled = [] := hb.toBehind.unhandled_of_close hf hl he
    intro e' w' ho
    rcases hb.owed e' w' ho with ⟨_, hu⟩ | ⟨l, hmem, ws', ht, hw⟩
    · simp [hend] at hu
    · rw [hl, List.mem_cons] at hmem
      rcases hmem with rfl | hmem
      · cases ht
      · exact .inr ⟨l, hmem, ws', ht, hw⟩

/-- One step keeps what is owed on its way, unless it throws away an owed waiting list. -/
lemma Covered.step {b b' : Bus E W} {a : Act E W} (hb : Covered b) (hok : KeepsOwed b a)
    (h : Rule b a b') : Covered b' := by
  obtain ⟨hbehind, hle⟩ := hb.toBehind.step h
  cases h with
  | register e w =>
    refine ⟨hbehind, hle, fun e' w' ho => (hb.owed e' w' ho).imp_left ?_⟩
    rintro ⟨hw, hu⟩
    exact ⟨mem_update_of_mem hw fun h => by subst h; simp [hw], hu⟩
  | send e =>
    have hdrop : b.unhandled ++ [e] = (b.pending ++ [e]).drop b.handled :=
      (List.drop_append_of_le_length hb.handled_le).symm
    refine ⟨hbehind, hle, ?_⟩
    rintro e' w' (⟨rfl, hw⟩ | ho)
    · exact .inl ⟨hw, by simp only [Bus.unhandled, ← hdrop]; simp⟩
    · refine (hb.owed e' w' ho).imp_left fun ⟨hw, hu⟩ => ⟨hw, ?_⟩
      simp only [Bus.unhandled, ← hdrop] at hu ⊢
      exact List.mem_append_left _ hu
  | drop e i w hi =>
    refine ⟨hbehind, hle, ?_⟩
    rintro e' w' ⟨hne, ho⟩
    refine (hb.owed e' w' ho).imp_left fun ⟨hw, hu⟩ => ⟨mem_update_of_mem hw ?_, hu⟩
    rintro rfl
    exact (mem_eraseIdx_or hi hw).resolve_left fun h => hne ⟨rfl, h.symm⟩
  | reset e =>
    refine ⟨hbehind, hle, ?_⟩
    intro e' w' ho
    refine (hb.owed e' w' ho).imp_left fun ⟨hw, hu⟩ => ⟨mem_update_of_mem hw ?_, hu⟩
    rintro rfl
    simp [hok hu] at hw
  | beginLoop hf =>
    refine ⟨hbehind, hle, ?_⟩
    intro e' w' ho
    refine (hb.owed e' w' ho).imp_right ?_
    rintro ⟨l, hmem, hrest⟩
    exact ⟨l, List.mem_cons_of_mem _ hmem, hrest⟩
  | loop hf h => exact hb.advance hf h

theorem covered_of_reach {b : Bus E W} (h : Reach Bus.step KeepsOwed Bus.init b) : Covered b :=
  h.invariant covered_init fun _ _ _ _ hb hok hs => hb.step hok (Rule.of_step hs)

omit [DecidableEq E] in
/-- Once the flag is down and no loop is in progress nothing is pending. -/
theorem Covered.pending_eq_nil {b : Bus E W} (hb : Covered b) (hf : b.flag = false)
    (hl : b.loops = []) : b.pending = [] := hb.toBehind.pending_eq_nil hf hl

omit [DecidableEq E] in
/-- Once the flag is down and no loop is in progress, every token that was waiting at a send
has been handed out or dropped after it. -/
theorem Covered.handed_or_dropped {b : Bus E W} (hb : Covered b) (hf : b.flag = false)
    (hl : b.loops = []) {later earlier : List (Entry E W)} {e : E} {ws : List W} {w : W}
    (hlog : b.log = later ++ .send e ws :: earlier) (hw : w ∈ ws) :
    .hand e w ∈ later ∨ .drop e w ∈ later := by
  by_contra hno
  rw [not_or] at hno
  have ho : Owed e w b.log := hlog ▸ owed_of_split hw hno.1 hno.2
  rcases hb.owed e w ho with ⟨_, hu⟩ | ⟨l, hmem, _⟩
  · simp [Bus.unhandled, hb.pending_eq_nil hf hl] at hu
  · simp [hl] at hmem

/-! ### A registration is handed out at most once -/

/-- Every registration brings a token of its own. -/
def Fresh (b : Bus E W) : Act E W → Prop
  | .register e w => .register e w ∉ b.log
  | _ => True

def Loop.tokens (e : E) (l : Loop E W) : List W :=
  match l.taken with
  | some (e', ws) => if e' = e then ws else []
  | none => []

/-- The tokens of `e` that can still be handed out: those waiting and those some loop holds. -/
def Bus.tokens (b : Bus E W) (e : E) : List W :=
  b.waiting e ++ b.loops.flatMap (Loop.tokens e)

def Entry.handed : Entry E W → Option (E × W)
  | .hand e w => some (e, w)
  | _ => none

structure Once (b : Bus E W) : Prop where
  nodup : ∀ e, (b.tokens e).Nodup
  registered : ∀ e, ∀ w ∈ b.tokens e, .register e w ∈ b.log
  not_handed : ∀ e, ∀ w ∈ b.tokens e, .hand e w ∉ b.log
  handed_registered : ∀ e w, .hand e w ∈ b.log → .register e w ∈ b.log
  handed_nodup : (b.log.filterMap Entry.handed).Nodup

lemma once_init : Once (Bus.init : Bus E W) := by
  constructor <;> simp [Bus.init, Bus.tokens]

lemma Once.mono {b b' : Bus E W} (hb : Once b) (news : List (Entry E W))
    (htok : ∀ e, (b'.tokens e).Sublist (b.tokens e)) (hlog : b'.log = news ++ b.log)
    (hnews : ∀ x ∈ news, x.handed = none) : Once b' := by
  have hnot : ∀ e w, .hand e w ∉ news := fun e w hmem => by
    simpa [Entry.handed] using hnews _ hmem
  have hfilter : news.filterMap Entry.handed = [] :=
    List.filterMap_eq_nil_iff.mpr hnews
  refine ⟨fun e => (hb.nodup e).sublist (htok e), fun e w hw => ?_, fun e w hw => ?_,
    fun e w hw => ?_, ?_⟩
  · rw [hlog]
    exact List.mem_append_right _ (hb.registered e w ((htok e).subset hw))
  · rw [hlog, List.mem_append, not_or]
    exact ⟨hnot e w, hb.not_handed e w ((htok e).subset hw)⟩
  · rw [hlog, List.mem_append] at hw ⊢
    exact .inr (hb.handed_registered e w (hw.resolve_left (hnot e w)))
  · rw [hlog, List.filterMap_append, hfilter, List.nil_append]
    exact hb.handed_nodup

lemma Once.advance {b b' : Bus E W} (hb : Once b) (h : Advance b b') : Once b' := by
  cases h with
  | hand k e w ws ls hl =>
    have htok : ∀ e', b.tokens e' =
        b.waiting e' ++ ((if e = e' then w :: ws else []) ++ ls.flatMap (Loop.tokens e')) := by
      intro e'; simp [Bus.tokens, hl, Loop.tokens]
    have hmem : w ∈ b.tokens e := by rw [htok]; simp
    have hnd := hb.nodup e
    rw [htok, if_pos rfl, List.cons_append, List.nodup_middle, List.nodup_cons] at hnd
    have hsub : ∀ e', (b.waiting e' ++ ((if e = e' then ws else []) ++
        ls.flatMap (Loop.tokens e'))).Sublist (b.tokens e') := by
      intro e'
      rw [htok]
      refine (List.Sublist.refl _).append (List.Sublist.append ?_ (List.Sublist.refl _))
      split_ifs
      · exact List.sublist_cons_self _ _
      · exact List.Sublist.refl _
    have htok' : ∀ e', Bus.tokens { b with loops := ⟨k, some (e, ws)⟩ :: ls, log := .hand e w :: b.log } e'
        = b.waiting e' ++ ((if e = e' then ws else []) ++ ls.flatMap (Loop.tokens e')) := by
      intro e'; simp [Bus.tokens, Loop.tokens]
    refine ⟨fun e' => ?_, fun e' x hx => ?_, fun e' x hx => ?_, fun e' x hx => ?_, ?_⟩
    · rw [htok']; exact (hb.nodup e').sublist (hsub e')
    · rw [htok'] at hx
      exact List.mem_cons_of_mem _ (hb.registered e' x ((hsub e').subset hx))
    · rw [htok'] at hx
      simp only [List.mem_cons, not_or]
      refine ⟨?_, hb.not_handed e' x ((hsub e').subset hx)⟩
      rintro ⟨⟩
      rw [if_pos rfl] at hx
      exact hnd.1 hx
    · rcases List.mem_cons.mp hx with h | hx
      · cases h; exact List.mem_cons_of_mem _ (hb.registered e w hmem)
      · exact List.mem_cons_of_mem _ (hb.handed_registered e' x hx)
    · simp only [List.filterMap_cons, Entry.handed, List.nodup_cons]
      refine ⟨fun hx => ?_, hb.handed_nodup⟩
      obtain ⟨y, hy, hy'⟩ := List.mem_filterMap.mp hx
      cases y <;> simp [Entry.handed] at hy'
      obtain ⟨rfl, rfl⟩ := hy'
      exact hb.not_handed _ _ hmem hy
  | finish k e ls hl =>
    refine hb.mono [] (fun e' => ?_) rfl (by simp)
    simp [Bus.tokens, hl, Loop.tokens]
  | take k e ls hl he =>
    -- the waiting list moves, as it is, in front of what the loops hold
    refine hb.mono [] (fun e' => ?_) rfl (by simp)
    by_cases hee : e = e'
    · subst hee; simp [Bus.tokens, hl, Loop.tokens]
    · have hne : e' ≠ e := fun h => hee h.symm
      simp [Bus.tokens, hl, Loop.tokens, hee, hne]
  | close k ls hl he =>
    refine hb.mono [] (fun e' => ?_) rfl (by simp)
    simp [Bus.tokens, hl, Loop.tokens]

lemma Once.step {b b' : Bus E W} {a : Act E W} (hb : Once b) (hok : Fresh b a)
    (h : Rule b a b') : Once b' := by
  cases h with
  | register e w =>
    have htok : ∀ e', Bus.tokens { b with
        waiting := Function.update b.waiting e (b.waiting e ++ [w]), log := .register e w :: b.log } e'
        = if e' = e then b.waiting e ++ w :: b.loops.flatMap (Loop.tokens e) else b.tokens e' := by
      intro e'
      by_cases hee : e' = e
      · subst hee; simp [Bus.tokens]
      · simp [Bus.tokens, hee]
    have hnew : w ∉ b.tokens e := fun hw => hok (hb.registered e w hw)
    refine ⟨fun e' => ?_, fun e' x hx => ?_, fun e' x hx => ?_, fun e' x hx => ?_, hb.handed_nodup⟩
    · rw [htok]
      split_ifs with hee
      · rw [List.nodup_middle, List.nodup_cons]
        exact ⟨hnew, hb.nodup e⟩
      · exact hb.nodup e'
    all_goals simp only [htok] at hx
    · split_ifs at hx with hee
      · subst hee
        simp only [List.mem_append, List.mem_cons] at hx ⊢
        rcases hx with hx | rfl | hx
        · exact .inr (hb.registered _ _ (List.mem_append_left _ hx))
        · exact .inl rfl
        · exact .inr (hb.registered _ _ (List.mem_append_right _ hx))
      · exact List.mem_cons_of_mem _ (hb.registered e' x hx)
    · simp only [List.mem_cons, reduceCtorEq, false_or]
      split_ifs at hx with hee
      · subst hee
        simp only [List.mem_append, List.mem_cons] at hx
        rcases hx with hx | rfl | hx
        · exact hb.not_handed _ _ (List.mem_append_left _ hx)
        · exact fun h => hok (hb.handed_registered _ _ h)
        · exact hb.not_handed _ _ (List.mem_append_right _ hx)
      · exact hb.not_handed e' x hx
    · simp only [List.mem_cons, reduceCtorEq, false_or] at hx ⊢
      exact .inr (hb.handed_registered e' x hx)
  | send e => exact hb.mono [_] (fun e' => List.Sublist.refl _) rfl (by simp [Entry.handed])
  | drop e i w hi =>
    refine hb.mono [_] (fun e' => ?_) rfl (by simp [Entry.handed])
    refine List.Sublist.append ?_ (List.Sublist.refl _)
    by_cases hee : e' = e
    · subst hee; simpa using List.eraseIdx_sublist _ i
    · simp [hee]
  | reset e =>
    refine hb.mono [] (fun e' => List.Sublist.append ?_ (List.Sublist.refl _)) rfl (by simp)
    by_cases hee : e' = e
    · subst hee; simp
    · simp [hee]
  | beginLoop hf =>
    refine hb.mono [] (fun e' => ?_) rfl (by simp)
    simp [Bus.tokens, Loop.tokens]
  | loop hf h => exact hb.advance h

omit [DecidableEq E] in
/-- Every token is handed out at most once. -/
theorem Once.count_hand_le_one [DecidableEq E] [DecidableEq W] {b : Bus E W} (hb : Once b) (e : E)
    (w : W) : b.log.count (.hand e w) ≤ 1 := by
  have hcount : ∀ log : List (Entry E W),
      log.count (.hand e w) = (log.filterMap Entry.handed).count (e, w) := by
    intro log
    induction log with
    | nil => rfl
    | cons x log ih =>
      cases x with
      | hand e' w' =>
        simp only [List.filterMap_cons, Entry.handed, List.count_cons, ih]
        simp
      | register | send | drop =>
        simp only [List.filterMap_cons, Entry.handed, List.count_cons, ih]
        simp
  rw [hcount]
  exact List.nodup_iff_count_le_one.mp hb.handed_nodup (e, w)

theorem once_of_reach {b : Bus E W} (h : Reach Bus.step Fresh Bus.init b) : Once b :=
  h.invariant once_init fun _ _ _ _ hb hok hs => hb.step hok (Rule.of_step hs)

lemma Rule.mem_tokens {b b' : Bus E W} {a : Act E W} {e : E} {w : W} (h : Rule b a b')
    (hw : w ∈ b'.tokens e) : w ∈ b.tokens e ∨ a = .register e w := by
  simp only [Bus.tokens, List.mem_append, List.mem_flatMap] at hw ⊢
  cases h with
  | register e₀ w₀ =>
    rcases hw with hw | hw
    · rcases mem_update_cases hw with ⟨rfl, hmem⟩ | ⟨-, hmem⟩
      · rcases List.mem_append.mp hmem with hmem | hmem
        · exact .inl (.inl hmem)
        · cases List.mem_singleton.mp hmem
          exact .inr rfl
      · exact .inl (.inl hmem)
    · exact .inl (.inr hw)
  | send => exact .inl hw
  | drop e₀ i =>
    refine .inl (hw.imp_left fun hw => ?_)
    rcases mem_update_cases hw with ⟨rfl, hmem⟩ | ⟨-, hmem⟩
    · exact List.eraseIdx_subset hmem
    · exact hmem
  | reset e₀ =>
    refine .inl (hw.imp_left fun hw => ?_)
    rcases mem_update_cases hw with ⟨-, hmem⟩ | ⟨-, hmem⟩
    · cases hmem
    · exact hmem
  | beginLoop =>
    refine .inl (hw.imp_right ?_)
    rintro ⟨l, hl, hmem⟩
    rcases List.mem_cons.mp hl with rfl | hl
    · cases hmem
    · exact ⟨l, hl, hmem⟩
  | loop hf h =>
    left
    cases h with
    | hand k e₀ w₀ ws ls hl =>
      refine hw.imp_right ?_
      rintro ⟨l, hl', hmem⟩
      rcases List.mem_cons.mp hl' with rfl | hl'
      · refine ⟨_, hl ▸ List.mem_cons_self, ?_⟩
        simp only [Loop.tokens] at hmem ⊢
        split_ifs at hmem ⊢
        · exact List.mem_cons_of_mem _ hmem
        · cases hmem
      · exact ⟨l, hl ▸ List.mem_cons_of_mem _ hl', hmem⟩
    | finish k e₀ ls hl =>
      refine hw.imp_right ?_
      rintro ⟨l, hl', hmem⟩
      rcases List.mem_cons.mp hl' with rfl | hl'
      · cases hmem
      · exact ⟨l, hl ▸ List.mem_cons_of_mem _ hl', hmem⟩
    | take k e₀ ls hl =>
      rcases hw with hw | ⟨l, hl', hmem⟩
      · rcases mem_update_cases hw with ⟨-, hmem⟩ | ⟨-, hmem⟩
        · cases hmem
        · exact .inl hmem
      · rcases List.mem_cons.mp hl' with rfl | hl'
        · simp only [Loop.tokens] at hmem
          split_ifs at hmem with heq
          · exact .inl (heq ▸ hmem)
          · cases hmem
        · exact .inr ⟨l, hl ▸ List.mem_cons_of_mem _ hl', hmem⟩
    | close k ls hl =>
      refine hw.imp_right ?_
      rintro ⟨l, hl', hmem⟩
      exact ⟨l, hl ▸ List.mem_cons_of_mem _ hl', hmem⟩

lemma Rule.mem_hand {b b' : Bus E W} {a : Act E W} {e : E} {w : W} (h : Rule b a b')
    (hw : .hand e w ∈ b'.log) : .hand e w ∈ b.log ∨ w ∈ b.tokens e := by
  cases h with
  | register | send | drop => exact .inl ((List.mem_cons.mp hw).resolve_left (by simp))
  | reset | beginLoop => exact .inl hw
  | loop _ hadv =>
    cases hadv with
    | hand k e₀ w₀ ws ls hl =>
      rcases List.mem_cons.mp hw with heq | hw
      · cases heq
        right
        simp [Bus.tokens, hl, Loop.tokens]
      · exact .inl hw
    | finish | take | close => exact .inl hw

/-! ### A token is handed out for a send that came after its registration -/

/-- `e` was sent after `w` had registered on it. -/
def SentSince (e : E) (w : W) (log : List (Entry E W)) : Prop :=
  ∃ later ws earlier, log = later ++ .send e ws :: earlier ∧ .register e w ∈ earlier

omit [DecidableEq E] in
lemma SentSince.cons {e : E} {w : W} {log : List (Entry E W)} (h : SentSince e w log)
    (x : Entry E W) : SentSince e w (x :: log) := by
  obtain ⟨later, ws, earlier, rfl, hmem⟩ := h
  exact ⟨x :: later, ws, earlier, rfl, hmem⟩

omit [DecidableEq E] in
lemma not_sentSince_nil {e : E} {w : W} : ¬ SentSince e w [] := by
  rintro ⟨later, ws, earlier, h, -⟩
  simp at h

omit [DecidableEq E] in
lemma sentSince_cons {e : E} {w : W} {x : Entry E W} {log : List (Entry E W)}
    (h : SentSince e w (x :: log)) :
    (∃ ws, x = .send e ws ∧ .register e w ∈ log) ∨ SentSince e w log := by
  obtain ⟨later, ws, earlier, heq, hmem⟩ := h
  rcases List.cons_eq_append_iff.mp heq with ⟨-, heq⟩ | ⟨later', -, rfl⟩
  · cases heq; exact .inl ⟨ws, rfl, hmem⟩
  · exact .inr ⟨later', ws, earlier, rfl, hmem⟩

/-- No token registers on an event with an unhandled send, and a loop that comes to an entry
taken before finds nobody waiting there, unless a later send on the same event is unhandled. -/
def Prompt (b : Bus E W) : Act E W → Prop
  | .register e _ => e ∉ b.unhandled
  | .loop => ∀ k ls e, b.loops = ⟨k, none⟩ :: ls → b.pending[k]? = some e → k < b.handled →
      b.waiting e = [] ∨ e ∈ b.unhandled
  | _ => True

structure Answered (b : Bus E W) : Prop where
  handled_le : b.handled ≤ b.pending.length
  waiting : ∀ e, ∀ w ∈ b.waiting e,
    .register e w ∈ b.log ∧ (e ∈ b.unhandled → SentSince e w b.log)
  held : ∀ l ∈ b.loops, ∀ e ws, l.taken = some (e, ws) → ∀ w ∈ ws, SentSince e w b.log
  handed : ∀ later e w earlier, b.log = later ++ .hand e w :: earlier → SentSince e w earlier

omit [DecidableEq E] in
lemma answered_init : Answered (Bus.init : Bus E W) := by
  constructor <;> simp [Bus.init]

omit [DecidableEq E] in
lemma Answered.handed_cons {b : Bus E W} (hb : Answered b) {x : Entry E W}
    (hx : ∀ e w, x ≠ .hand e w) {later e w earlier}
    (h : x :: b.log = later ++ .hand e w :: earlier) : SentSince e w earlier := by
  rcases List.cons_eq_append_iff.mp h with ⟨rfl, h⟩ | ⟨later', rfl, h⟩
  · cases h; exact absurd rfl (hx e w)
  · exact hb.handed later' e w earlier (List.cons.inj h).2

lemma Answered.advance {b b' : Bus E W} (hb : Answered b) (hok : Prompt b .loop)
    (h : Advance b b') : Answered b' := by
  cases h with
  | hand k e w ws ls hl =>
    have hsent : ∀ x ∈ w :: ws, SentSince e x b.log :=
      hb.held _ (hl ▸ List.mem_cons_self) e (w :: ws) rfl
    refine ⟨hb.handled_le, fun e' x hx => ?_, fun l hmem e' ws' ht x hx => ?_,
      fun later e' x earlier h => ?_⟩
    · have := hb.waiting e' x hx
      exact ⟨List.mem_cons_of_mem _ this.1, fun hu => (this.2 hu).cons _⟩
    · rcases List.mem_cons.mp hmem with rfl | hmem
      · cases ht; exact (hsent x (List.mem_cons_of_mem _ hx)).cons _
      · exact (hb.held l (hl ▸ List.mem_cons_of_mem _ hmem) e' ws' ht x hx).cons _
    · rcases List.cons_eq_append_iff.mp h with ⟨rfl, h⟩ | ⟨later', rfl, h⟩
      · cases h; exact hsent w List.mem_cons_self
      · exact hb.handed later' e' x earlier (List.cons.inj h).2
  | finish k e ls hl =>
    refine ⟨hb.handled_le, hb.waiting, fun l hmem e' ws' ht x hx => ?_, hb.handed⟩
    rcases List.mem_cons.mp hmem with rfl | hmem
    · cases ht
    · exact hb.held l (hl ▸ List.mem_cons_of_mem _ hmem) e' ws' ht x hx
  | take k e ls hl he =>
    have hlt : k < b.pending.length := (List.getElem?_eq_some_iff.mp he).1
    refine ⟨Nat.max_le.mpr ⟨hb.handled_le, hlt⟩, fun e' x hx => ?_,
      fun l hmem e' ws' ht x hx => ?_, hb.handed⟩
    · rcases mem_update_cases hx with ⟨_, hx⟩ | ⟨_, hx⟩
      · cases hx
      · have := hb.waiting e' x hx
        exact ⟨this.1, fun hu => this.2 (drop_max_subset _ _ _ hu)⟩
    · rcases List.mem_cons.mp hmem with rfl | hmem
      · cases ht
        refine (hb.waiting e x hx).2 ?_
        rcases Nat.lt_or_ge k b.handled with hlt | hge
        · exact (hok k ls e hl he hlt).resolve_left fun h => by simp [h] at hx
        · exact mem_unhandled_of_getElem? he hge
      · exact hb.held l (hl ▸ List.mem_cons_of_mem _ hmem) e' ws' ht x hx
  | close k ls hl he =>
    refine ⟨Nat.le_refl 0, fun e' x hx => ⟨(hb.waiting e' x hx).1, fun hu => ?_⟩,
      fun l hmem => hb.held l (hl ▸ List.mem_cons_of_mem _ hmem), hb.handed⟩
    simp [Bus.unhandled] at hu

lemma Answered.step {b b' : Bus E W} {a : Act E W} (hb : Answered b) (hok : Prompt b a)
    (h : Rule b a b') : Answered b' := by
  have hcons : ∀ (x : Entry E W), ∀ l ∈ b.loops, ∀ e ws, l.taken = some (e, ws) → ∀ w ∈ ws,
      SentSince e w (x :: b.log) :=
    fun x l hmem e ws ht w hw => (hb.held l hmem e ws ht w hw).cons x
  cases h with
  | register e w =>
    refine ⟨hb.handled_le, fun e' x hx => ?_, hcons _,
      fun later e' x earlier h => hb.handed_cons (by simp) h⟩
    rcases mem_update_cases hx with ⟨rfl, hx⟩ | ⟨_, hx⟩
    · refine ⟨?_, fun hu => absurd hu hok⟩
      rcases List.mem_append.mp hx with hx | hx
      · exact List.mem_cons_of_mem _ (hb.waiting e' x hx).1
      · rw [List.mem_singleton.mp hx]; exact List.mem_cons_self
    · have := hb.waiting e' x hx
      exact ⟨List.mem_cons_of_mem _ this.1, fun hu => (this.2 hu).cons _⟩
  | send e =>
    refine ⟨by simpa using Nat.le_succ_of_le hb.handled_le, fun e' x hx => ?_, hcons _,
      fun later e' x earlier h => hb.handed_cons (by simp) h⟩
    have hw := hb.waiting e' x hx
    refine ⟨List.mem_cons_of_mem _ hw.1, fun hu => ?_⟩
    simp only [Bus.unhandled, List.drop_append_of_le_length hb.handled_le, List.mem_append,
      List.mem_singleton] at hu
    rcases hu with hu | rfl
    · exact (hw.2 hu).cons _
    · exact ⟨[], _, _, rfl, hw.1⟩
  | drop e i w hi =>
    refine ⟨hb.handled_le, fun e' x hx => ?_, hcons _,
      fun later e' x earlier h => hb.handed_cons (by simp) h⟩
    have hx' : x ∈ b.waiting e' := by
      rcases mem_update_cases hx with ⟨rfl, hx⟩ | ⟨_, hx⟩
      · exact List.eraseIdx_subset hx
      · exact hx
    have := hb.waiting e' x hx'
    exact ⟨List.mem_cons_of_mem _ this.1, fun hu => (this.2 hu).cons _⟩
  | reset e =>
    refine ⟨hb.handled_le, fun e' x hx => ?_, hb.held, hb.handed⟩
    rcases mem_update_cases hx with ⟨_, hx⟩ | ⟨_, hx⟩
    · cases hx
    · exact hb.waiting e' x hx
  | beginLoop hf =>
    refine ⟨hb.handled_le, hb.waiting, fun l hmem e' ws ht => ?_, hb.handed⟩
    rcases List.mem_cons.mp hmem with rfl | hmem
    · cases ht
    · exact hb.held l hmem e' ws ht
  | loop hf h => exact hb.advance hok h

theorem answered_of_reach {b : Bus E W} (h : Reach Bus.step Prompt Bus.init b) : Answered b :=
  h.invariant answered_init fun _ _ _ _ hb hok hs => hb.step hok (Rule.of_step hs)

/-! ### No token is lost -/

/-- No list is reset while tokens wait on it. -/
def KeepsWaiting (b : Bus E W) : Act E W → Prop
  | .reset e => b.waiting e = []
  | _ => True

/-- A loop has `w` of `e` still to hand out. -/
def Bus.Held (b : Bus E W) (e : E) (w : W) : Prop := ∃ l ∈ b.loops, w ∈ l.tokens e

omit [DecidableEq E] in
/-- `w` of `e` has been handed out or dropped. -/
def Ended (e : E) (w : W) (log : List (Entry E W)) : Prop := .hand e w ∈ log ∨ .drop e w ∈ log

/-- What has registered is waiting, held or ended; and after a send, what had registered before it
was waiting at the send, if it is not held or ended. -/
structure Kept (b : Bus E W) : Prop where
  kept : ∀ e w, .register e w ∈ b.log → w ∈ b.waiting e ∨ b.Held e w ∨ Ended e w b.log
  sent : ∀ later e ws earlier, b.log = later ++ .send e ws :: earlier →
    ∀ w, .register e w ∈ earlier → w ∈ ws ∨ b.Held e w ∨ Ended e w b.log

lemma kept_init : Kept (Bus.init : Bus E W) := by
  constructor <;> simp [Bus.init]

lemma Bus.Held.tail {b : Bus E W} {e : E} {w : W} {l : Loop E W} {ls : List (Loop E W)}
    (h : b.Held e w) (hl : b.loops = l :: ls) : w ∈ l.tokens e ∨ ∃ l' ∈ ls, w ∈ l'.tokens e := by
  obtain ⟨l', hmem, hw⟩ := h
  rw [hl] at hmem
  rcases List.mem_cons.mp hmem with rfl | hmem
  · exact .inl hw
  · exact .inr ⟨l', hmem, hw⟩

lemma Advance.held {b b' : Bus E W} {e : E} {w : W} (h : Advance b b') (hw : b.Held e w) :
    b'.Held e w ∨ .hand e w ∈ b'.log := by
  cases h with
  | hand k e' w' ws ls hl =>
    rcases hw.tail hl with htok | ⟨l, hmem, htok⟩
    · simp only [Loop.tokens] at htok
      split_ifs at htok with he
      · subst he
        rcases List.mem_cons.mp htok with rfl | htok
        · exact .inr List.mem_cons_self
        · exact .inl ⟨_, List.mem_cons_self, by simpa [Loop.tokens] using htok⟩
      · cases htok
    · exact .inl ⟨l, List.mem_cons_of_mem _ hmem, htok⟩
  | finish k e' ls hl =>
    rcases hw.tail hl with htok | ⟨l, hmem, htok⟩
    · simp [Loop.tokens] at htok
    · exact .inl ⟨l, List.mem_cons_of_mem _ hmem, htok⟩
  | take k e' ls hl =>
    rcases hw.tail hl with htok | ⟨l, hmem, htok⟩
    · simp [Loop.tokens] at htok
    · exact .inl ⟨l, List.mem_cons_of_mem _ hmem, htok⟩
  | close k ls hl =>
    rcases hw.tail hl with htok | ⟨l, hmem, htok⟩
    · simp [Loop.tokens] at htok
    · exact .inl ⟨l, hmem, htok⟩

lemma Advance.waiting {b b' : Bus E W} {e : E} {w : W} (h : Advance b b') (hw : w ∈ b.waiting e) :
    w ∈ b'.waiting e ∨ b'.Held e w := by
  cases h with
  | hand | finish | close => exact .inl hw
  | take k e' ls hl he =>
    by_cases heq : e = e'
    · subst heq
      exact .inr ⟨_, List.mem_cons_self, by simpa [Loop.tokens] using hw⟩
    · exact .inl (by simpa [Function.update_of_ne heq] using hw)

lemma Rule.mem_log {b b' : Bus E W} {a : Act E W} {x : Entry E W} (h : Rule b a b')
    (hx : x ∈ b.log) : x ∈ b'.log := by
  cases h with
  | register | send | drop => exact List.mem_cons_of_mem _ hx
  | reset | beginLoop => exact hx
  | loop _ h =>
    cases h with
    | hand => exact List.mem_cons_of_mem _ hx
    | finish | take | close => exact hx

lemma Rule.ended {b b' : Bus E W} {a : Act E W} {e : E} {w : W} (h : Rule b a b')
    (hw : Ended e w b.log) : Ended e w b'.log := hw.imp h.mem_log h.mem_log

lemma Rule.held {b b' : Bus E W} {a : Act E W} {e : E} {w : W} (h : Rule b a b')
    (hw : b.Held e w) : b'.Held e w ∨ Ended e w b'.log := by
  cases h with
  | register | send | drop | reset => exact .inl hw
  | beginLoop =>
    obtain ⟨l, hmem, htok⟩ := hw
    exact .inl ⟨l, List.mem_cons_of_mem _ hmem, htok⟩
  | loop _ h => exact (h.held hw).imp_right .inl

lemma Rule.waiting {b b' : Bus E W} {a : Act E W} {e : E} {w : W} (h : Rule b a b')
    (hok : KeepsWaiting b a) (hw : w ∈ b.waiting e) :
    w ∈ b'.waiting e ∨ b'.Held e w ∨ Ended e w b'.log := by
  cases h with
  | register e' w' =>
    refine .inl (mem_update_of_mem hw fun heq => ?_)
    exact List.mem_append_left _ (heq ▸ hw)
  | send | beginLoop => exact .inl hw
  | drop e' i w' hi =>
    by_cases heq : e = e'
    · subst heq
      rcases mem_eraseIdx_or hi hw with rfl | hmem
      · exact .inr (.inr (.inr List.mem_cons_self))
      · exact .inl (by simpa using hmem)
    · exact .inl (by simpa [Function.update_of_ne heq] using hw)
  | reset e' =>
    have hempty : b.waiting e' = [] := hok
    have hne : e ≠ e' := fun heq => by simp [heq, hempty] at hw
    exact .inl (by simpa [Function.update_of_ne hne] using hw)
  | loop _ h => exact (h.waiting hw).imp_right .inl

lemma Kept.step {b b' : Bus E W} {a : Act E W} (hb : Kept b) (hok : KeepsWaiting b a)
    (h : Rule b a b') : Kept b' := by
  have hkept : ∀ e w, .register e w ∈ b.log → w ∈ b'.waiting e ∨ b'.Held e w ∨ Ended e w b'.log := by
    intro e w hr
    rcases hb.kept e w hr with hw | hw | hw
    · exact h.waiting hok hw
    · exact .inr (h.held hw)
    · exact .inr (.inr (h.ended hw))
  have hsent : ∀ later e ws earlier, b.log = later ++ .send e ws :: earlier →
      ∀ w, .register e w ∈ earlier → w ∈ ws ∨ b'.Held e w ∨ Ended e w b'.log := by
    intro later e ws earlier hlog w hr
    rcases hb.sent later e ws earlier hlog w hr with hw | hw | hw
    · exact .inl hw
    · exact .inr (h.held hw)
    · exact .inr (.inr (h.ended hw))
  -- an entry that is no send leaves the sends of the log where they were
  have hcons : ∀ x : Entry E W, (∀ e ws, x ≠ .send e ws) → ∀ later e ws earlier,
      x :: b.log = later ++ .send e ws :: earlier →
        ∀ w, .register e w ∈ earlier → w ∈ ws ∨ b'.Held e w ∨ Ended e w b'.log := by
    intro x hx later e ws earlier hlog
    rcases List.cons_eq_append_iff.mp hlog with ⟨-, hlog⟩ | ⟨later', -, hlog⟩
    · exact absurd (List.cons.inj hlog).1.symm (hx e ws)
    · exact hsent later' e ws earlier hlog
  have hmono : ∀ x : Entry E W, (∀ e w, x ≠ .register e w) → ∀ e w,
      .register e w ∈ x :: b.log → w ∈ b'.waiting e ∨ b'.Held e w ∨ Ended e w b'.log := by
    intro x hx e w hr
    rcases List.mem_cons.mp hr with heq | hr
    · exact absurd heq.symm (hx e w)
    · exact hkept e w hr
  cases h with
  | register e' w' =>
    refine ⟨fun e w hr => ?_, hcons _ (by simp)⟩
    rcases List.mem_cons.mp hr with heq | hr
    · cases heq
      exact .inl (by simp)
    · exact hkept e w hr
  | send e' =>
    refine ⟨hmono _ (by simp), fun later e ws earlier hlog w hr => ?_⟩
    rcases List.cons_eq_append_iff.mp hlog with ⟨-, hlog⟩ | ⟨later', -, hlog⟩
    · cases hlog
      exact hkept _ w hr
    · exact hsent later' e ws earlier hlog w hr
  | drop => exact ⟨hmono _ (by simp), hcons _ (by simp)⟩
  | reset => exact ⟨hkept, hsent⟩
  | beginLoop => exact ⟨hkept, hsent⟩
  | loop _ h =>
    cases h with
    | hand => exact ⟨hmono _ (by simp), hcons _ (by simp)⟩
    | finish | take | close => exact ⟨hkept, hsent⟩

theorem kept_of_reach {b : Bus E W} (h : Reach Bus.step KeepsWaiting Bus.init b) : Kept b :=
  h.invariant kept_init fun _ _ _ _ hb hok hs => hb.step hok (Rule.of_step hs)

omit [DecidableEq E] in
lemma KeepsWaiting.keepsOwed {b : Bus E W} {a : Act E W} (h : KeepsWaiting b a) : KeepsOwed b a := by
  cases a with
  | reset e => exact fun _ => h
  | register | send | drop | beginLoop | loop => trivial

/-- Once the flag is down and no loop is in progress, what had registered on an event before a send
of it has ended. -/
theorem ended_of_reach {b : Bus E W} (h : Reach Bus.step KeepsWaiting Bus.init b)
    (hf : b.flag = false) (hl : b.loops = []) {later earlier : List (Entry E W)} {e : E}
    {ws : List W} {w : W} (hlog : b.log = later ++ .send e ws :: earlier)
    (hr : .register e w ∈ earlier) : Ended e w b.log := by
  have hcov := covered_of_reach (h.mono fun _ _ hok => hok.keepsOwed)
  rcases (kept_of_reach h).sent later e ws earlier hlog w hr with hw | ⟨l, hmem, -⟩ | hw
  · have hend := hcov.handed_or_dropped hf hl hlog hw
    rw [hlog]
    exact hend.imp (List.mem_append_left _) (List.mem_append_left _)
  · rw [hl] at hmem
    cases hmem
  · exact hw

end EventBus
