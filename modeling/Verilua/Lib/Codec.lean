import Mathlib.Data.List.Basic
import Mathlib.Tactic.Ring

/-!
# Writers, and the readers that mirror them

A writer leaves a list of items behind and may stop with an error. A reader walks over a buffer
with a position and gives a value, gives up, or panics. A reader mirrors a writer when it gives the
value back from what a completed write left, and gives up on everything shorter: on each strict
prefix of a completed write, and on each prefix of a write that stopped.
-/

namespace Codec

universe u

variable {β ε : Type} {α γ : Type}

/-! ### Outcomes -/

/-- What a computation comes to: a value, no value, or a panic. -/
inductive Outcome (α : Type u) : Type u where
  | value (a : α)
  | fail
  | panic
deriving DecidableEq

namespace Outcome

variable {α γ : Type u}

protected def bind (x : Outcome α) (f : α → Outcome γ) : Outcome γ :=
  match x with
  | .value a => f a
  | .fail => .fail
  | .panic => .panic

instance : Monad Outcome where
  pure := .value
  bind := Outcome.bind

/-- The `?` on an option. -/
def ofOption : Option α → Outcome α
  | some a => .value a
  | none => .fail

@[simp] lemma pure_eq (a : α) : (pure a : Outcome α) = .value a := rfl

@[simp] lemma value_bind (a : α) (f : α → Outcome γ) : (.value a >>= f) = f a := rfl

@[simp] lemma fail_bind (f : α → Outcome γ) : ((.fail : Outcome α) >>= f) = .fail := rfl

@[simp] lemma panic_bind (f : α → Outcome γ) : ((.panic : Outcome α) >>= f) = .panic := rfl

@[simp] lemma ofOption_some (a : α) : ofOption (some a) = .value a := rfl

@[simp] lemma ofOption_none : ofOption (none : Option α) = .fail := rfl

end Outcome

/-! ### Buffers and readers -/

/-- The largest length of a buffer. -/
def isizeMax : Nat := 2 ^ 63 - 1

/-- Positions are below this number; a sum that reaches it panics. -/
def usizeSize : Nat := 2 ^ 64

/-- A slice of a buffer; one that leaves the buffer panics. -/
def index (data : List β) (first last : Nat) : Outcome (List β) :=
  if first ≤ last ∧ last ≤ data.length then .value (data.extract first last) else .panic

/-- A slice of a buffer; one that leaves the buffer is nothing. -/
def slice? (data : List β) (first last : Nat) : Option (List β) :=
  if first ≤ last ∧ last ≤ data.length then some (data.extract first last) else none

/-- A reader takes a buffer and a position in it to a value and the next position. -/
def Reader (β α : Type) : Type := List β → Nat → Outcome (α × Nat)

namespace Reader

instance : Monad (Reader β) where
  pure a := fun _ pos => .value (a, pos)
  bind r k := fun data pos => r data pos >>= fun (a, next) => k a data next

lemma pure_apply (a : α) (data : List β) (pos : Nat) :
    (pure a : Reader β α) data pos = .value (a, pos) := rfl

lemma bind_apply (r : Reader β α) (k : α → Reader β γ) (data : List β) (pos : Nat) :
    (r >>= k) data pos = r data pos >>= fun x => k x.1 data x.2 := rfl

/-- The reader that gives up. -/
def fail : Reader β α := fun _ _ => .fail

@[simp] lemma fail_apply (data : List β) (pos : Nat) :
    (fail : Reader β α) data pos = .fail := rfl

/-- The number of items from the position to the end of the buffer. -/
def remaining : Reader β Nat := fun data pos => .value (data.length - pos, pos)

/-- Read `n` items and move past them once they are understood. -/
def parse (n : Nat) (f : List β → Option α) : Reader β α := fun data pos =>
  if pos + n < usizeSize then do
    let items ← Outcome.ofOption (slice? data pos (pos + n))
    let a ← Outcome.ofOption (f items)
    .value (a, pos + n)
  else .panic

/-- Read `n` values in a row. -/
def times (n : Nat) (r : Reader β α) : Reader β (List α) :=
  match n with
  | 0 => pure []
  | n + 1 => do
    let a ← r
    let as ← times n r
    pure (a :: as)

end Reader

/-! ### Readers that keep to the buffer -/

/-- In a buffer a reader does not panic, and the position stays in the buffer. -/
structure Safe (r : Reader β α) : Prop where
  no_panic : ∀ data pos, data.length ≤ isizeMax → pos ≤ data.length → r data pos ≠ .panic
  inside : ∀ data pos, pos ≤ data.length → ∀ a next, r data pos = .value (a, next) →
    next ≤ data.length

namespace Safe

lemma pure (a : α) : Safe (β := β) (pure a) where
  no_panic _ _ _ _ h := by cases h
  inside _ _ hpos _ _ h := by cases h; exact hpos

lemma fail : Safe (β := β) (Reader.fail : Reader β α) where
  no_panic _ _ _ _ h := by cases h
  inside _ _ _ _ _ h := by cases h

lemma remaining : Safe (Reader.remaining : Reader β Nat) where
  no_panic _ _ _ _ h := by cases h
  inside _ _ hpos _ _ h := by cases h; exact hpos

lemma bind {r : Reader β α} {k : α → Reader β γ} (hr : Safe r) (hk : ∀ a, Safe (k a)) :
    Safe (r >>= k) where
  no_panic data pos hlen hpos h := by
    rw [Reader.bind_apply] at h
    cases hrun : r data pos with
    | value x =>
      rw [hrun, Outcome.value_bind] at h
      exact (hk x.1).no_panic data x.2 hlen (hr.inside data pos hpos x.1 x.2 hrun) h
    | fail => simp [hrun] at h
    | panic => exact hr.no_panic data pos hlen hpos hrun
  inside data pos hpos b next h := by
    rw [Reader.bind_apply] at h
    cases hrun : r data pos with
    | value x =>
      rw [hrun, Outcome.value_bind] at h
      exact (hk x.1).inside data x.2 (hr.inside data pos hpos x.1 x.2 hrun) b next h
    | fail => simp [hrun] at h
    | panic => simp [hrun] at h

lemma parse {n : Nat} (f : List β → Option α) (hn : n ≤ isizeMax) :
    Safe (Reader.parse n f) where
  no_panic data pos hlen hpos h := by
    have hsum : pos + n < usizeSize := by
      simp only [isizeMax, usizeSize] at *
      omega
    rw [Reader.parse, if_pos hsum] at h
    cases hs : slice? data pos (pos + n) with
    | none => simp [hs] at h
    | some items => cases hf : f items <;> simp [hs, hf] at h
  inside data pos _ a next h := by
    simp only [Reader.parse, slice?] at h
    split at h
    · split at h
      next hin =>
        rw [Outcome.ofOption_some, Outcome.value_bind] at h
        generalize data.extract pos (pos + n) = items at h
        cases hf : f items with
        | none => simp [hf] at h
        | some b =>
          simp only [hf, Outcome.ofOption_some, Outcome.value_bind, Outcome.value.injEq,
            Prod.mk.injEq] at h
          omega
      next => cases h
    · cases h

lemma times {r : Reader β α} (hr : Safe r) (n : Nat) : Safe (Reader.times n r) := by
  induction n with
  | zero => exact Safe.pure []
  | succ n ih => exact hr.bind fun a => ih.bind fun as => Safe.pure (a :: as)

end Safe

/-! ### Reading what was written -/

/-- From these items the reader gives this value, and stands behind them. -/
def Reads (r : Reader β α) (items : List β) (a : α) : Prop :=
  ∀ before after, (before ++ (items ++ after)).length ≤ isizeMax →
    r (before ++ (items ++ after)) before.length = .value (a, (before ++ items).length)

/-- With nothing behind these items, the reader gives up. -/
def Torn (r : Reader β α) (items : List β) : Prop :=
  ∀ before, (before ++ items).length ≤ isizeMax → r (before ++ items) before.length = .fail

lemma prefix_append_cases {p items items' : List β} (hp : p <+: items ++ items') :
    p <+: items ∨ ∃ q, p = items ++ q ∧ q <+: items' := by
  rcases List.prefix_or_prefix_of_prefix hp (List.prefix_append items items') with hleft | hright
  · exact .inl hleft
  · obtain ⟨q, rfl⟩ := hright
    exact .inr ⟨q, rfl, (List.prefix_append_right_inj items).mp hp⟩

lemma Torn.fail (items : List β) : Torn (Reader.fail : Reader β α) items := fun _ _ => rfl

lemma Reads.bind {r : Reader β α} {k : α → Reader β γ} {items items' : List β} {a : α} {b : γ}
    (hr : Reads r items a) (hk : Reads (k a) items' b) : Reads (r >>= k) (items ++ items') b := by
  intro before after hlen
  rw [List.append_assoc] at hlen ⊢
  rw [Reader.bind_apply, hr before (items' ++ after) hlen, Outcome.value_bind, ← List.append_assoc]
  rw [← List.append_assoc] at hlen
  rw [hk (before ++ items) after hlen, List.append_assoc]

lemma Torn.bind {r : Reader β α} {items : List β} (hr : Torn r items) (k : α → Reader β γ) :
    Torn (r >>= k) items := by
  intro before hlen
  rw [Reader.bind_apply, hr before hlen, Outcome.fail_bind]

lemma Reads.bind_torn {r : Reader β α} {k : α → Reader β γ} {items items' : List β} {a : α}
    (hr : Reads r items a) (hk : Torn (k a) items') : Torn (r >>= k) (items ++ items') := by
  intro before hlen
  rw [Reader.bind_apply, hr before items' hlen, Outcome.value_bind, ← List.append_assoc]
  rw [← List.append_assoc] at hlen
  exact hk (before ++ items) hlen

lemma Reads.pure (a : α) : Reads (β := β) (pure a) [] a := by
  intro before after _
  simp [Reader.pure_apply]

lemma Reads.parse {n : Nat} {f : List β → Option α} {items : List β} {a : α}
    (hn : items.length = n) (hf : f items = some a) :
    Reads (Reader.parse n f) items a := by
  intro before after hlen
  simp only [List.length_append] at hlen
  have hsum : before.length + n < usizeSize := by
    simp only [isizeMax, usizeSize] at *
    omega
  have hin : before.length ≤ before.length + n ∧
      before.length + n ≤ (before ++ (items ++ after)).length := by
    simp only [List.length_append]
    omega
  have hext : (before ++ (items ++ after)).extract before.length (before.length + n) = items := by
    simp [← hn]
  rw [Reader.parse, if_pos hsum, slice?, if_pos hin, hext, Outcome.ofOption_some,
    Outcome.value_bind, hf, Outcome.ofOption_some, Outcome.value_bind, List.length_append, hn]

lemma Torn.parse {n : Nat} (f : List β → Option α) {items : List β} (hmax : n ≤ isizeMax)
    (hn : items.length < n) : Torn (Reader.parse n f) items := by
  intro before hlen
  simp only [List.length_append] at hlen
  have hsum : before.length + n < usizeSize := by
    simp only [isizeMax, usizeSize] at *
    omega
  have hout : ¬(before.length ≤ before.length + n ∧
      before.length + n ≤ (before ++ items).length) := by
    simp only [List.length_append]
    omega
  rw [Reader.parse, if_pos hsum, slice?, if_neg hout, Outcome.ofOption_none, Outcome.fail_bind]

/-! ### Writers -/

/-- What a writer left behind, and whether it came to its end. -/
structure Written (ε β : Type) where
  items : List β
  result : Except ε Unit

namespace Written

/-- Nothing written, and no error. -/
def done : Written ε β := ⟨[], .ok ()⟩

/-- The items, written in full. -/
def all (items : List β) : Written ε β := ⟨items, .ok ()⟩

/-- Nothing written, and an error. -/
def error (e : ε) : Written ε β := ⟨[], .error e⟩

/-- One writer after the other; an error in the first stops the whole. -/
def andThen (w w' : Written ε β) : Written ε β :=
  match w.result with
  | .ok _ => ⟨w.items ++ w'.items, w'.result⟩
  | .error e => ⟨w.items, .error e⟩

/-- One writer for each value, in order. -/
def each (write : α → Written ε β) : List α → Written ε β
  | [] => done
  | a :: as => (write a).andThen (each write as)

/-- The writer came to its end. -/
def Complete (w : Written ε β) : Prop := w.result = .ok ()

@[simp] lemma items_all (items : List β) : (all items : Written ε β).items = items := rfl

@[simp] lemma complete_done : (done : Written ε β).Complete := rfl

@[simp] lemma complete_all (items : List β) : (all items : Written ε β).Complete := rfl

@[simp] lemma not_complete_error (e : ε) : ¬(error e : Written ε β).Complete := by
  intro h
  cases h

lemma andThen_of_complete {w : Written ε β} (h : w.Complete) (w' : Written ε β) :
    w.andThen w' = ⟨w.items ++ w'.items, w'.result⟩ := by
  obtain ⟨items, result⟩ := w
  cases h
  rfl

lemma andThen_of_not_complete {w : Written ε β} (h : ¬w.Complete) (w' : Written ε β) :
    w.andThen w' = w := by
  obtain ⟨items, result⟩ := w
  cases result with
  | ok u => exact (h rfl).elim
  | error e => rfl

lemma andThen_done (w : Written ε β) : w.andThen done = w := by
  obtain ⟨items, result⟩ := w
  cases result with
  | ok u => simp [andThen, done]
  | error e => rfl

lemma items_andThen_error (w : Written ε β) (e : ε) : (w.andThen (.error e)).items = w.items := by
  obtain ⟨items, result⟩ := w
  cases result with
  | ok u => simp [andThen, error]
  | error e => rfl

@[simp] lemma complete_andThen (w w' : Written ε β) :
    (w.andThen w').Complete ↔ w.Complete ∧ w'.Complete := by
  by_cases h : w.Complete
  · rw [andThen_of_complete h]
    exact ⟨fun h' => ⟨h, h'⟩, fun h' => h'.2⟩
  · rw [andThen_of_not_complete h]
    exact ⟨fun h' => (h h').elim, fun h' => (h h'.1).elim⟩

lemma complete_each {write : α → Written ε β} {as : List α} :
    (each write as).Complete ↔ ∀ a ∈ as, (write a).Complete := by
  induction as with
  | nil => simp [each]
  | cons a as ih => simp [each, ih]

lemma prefix_andThen (w w' : Written ε β) : w.items <+: (w.andThen w').items := by
  by_cases h : w.Complete
  · rw [andThen_of_complete h]
    exact List.prefix_append w.items w'.items
  · exact ⟨[], by rw [andThen_of_not_complete h, List.append_nil]⟩

lemma each_append (write : α → Written ε β) (as bs : List α) :
    each write (as ++ bs) = (each write as).andThen (each write bs) := by
  induction as with
  | nil => simp [each, andThen, done]
  | cons a as ih =>
    rw [List.cons_append, each, each, ih]
    by_cases h : (write a).Complete
    · rw [andThen_of_complete h, andThen_of_complete h]
      by_cases h' : (each write as).Complete
      · rw [andThen_of_complete h', andThen_of_complete (by exact h'), List.append_assoc]
      · rw [andThen_of_not_complete h', andThen_of_not_complete (by exact h')]
    · rw [andThen_of_not_complete h, andThen_of_not_complete h, andThen_of_not_complete h]

lemma length_andThen_le (w w' : Written ε β) :
    (w.andThen w').items.length ≤ w.items.length + w'.items.length := by
  by_cases h : w.Complete
  · rw [andThen_of_complete h, List.length_append]
  · rw [andThen_of_not_complete h]
    exact Nat.le_add_right _ _

lemma length_each_le {write : α → Written ε β} {as : List α} {m : Nat}
    (h : ∀ a ∈ as, (write a).items.length ≤ m) :
    (each write as).items.length ≤ as.length * m := by
  induction as with
  | nil => simp [each, done]
  | cons a as ih =>
    have hhead := h a List.mem_cons_self
    have htail := ih fun b hb => h b (List.mem_cons_of_mem a hb)
    have hboth := length_andThen_le (write a) (each write as)
    rw [List.length_cons, Nat.add_one_mul]
    exact hboth.trans (by omega)

lemma le_length_each {write : α → Written ε β} {as : List α} {m : Nat}
    (hdone : (each write as).Complete) (h : ∀ a ∈ as, m ≤ (write a).items.length) :
    as.length * m ≤ (each write as).items.length := by
  induction as with
  | nil => simp
  | cons a as ih =>
    rw [each, complete_andThen] at hdone
    have hhead := h a List.mem_cons_self
    have htail := ih hdone.2 fun b hb => h b (List.mem_cons_of_mem a hb)
    rw [each, andThen_of_complete hdone.1, List.length_append, List.length_cons, Nat.add_one_mul]
    omega

end Written

/-- What is left of a write that was cut short, or that stopped with an error. -/
structure Cut (w : Written ε β) (p : List β) : Prop where
  isPrefix : p <+: w.items
  short : w.Complete → p ≠ w.items

namespace Cut

variable {w w' : Written ε β} {p : List β}

lemma nil_of_error {e : ε} (h : Cut (.error e : Written ε β) p) : p = [] :=
  List.prefix_nil.mp h.isPrefix

lemma not_done (h : Cut (.done : Written ε β) p) : False :=
  h.short rfl (List.prefix_nil.mp h.isPrefix)

lemma length_lt {items : List β} (h : Cut (.all items : Written ε β) p) :
    p.length < items.length := by
  have hle : p.length ≤ items.length := h.isPrefix.length_le
  exact lt_of_le_of_ne hle fun heq => h.short rfl (h.isPrefix.eq_of_length heq)

/-- Two writes are cut in the first, or behind it in the second. -/
lemma andThen (h : Cut (w.andThen w') p) :
    Cut w p ∨ w.Complete ∧ ∃ q, p = w.items ++ q ∧ Cut w' q := by
  by_cases hw : w.Complete
  · obtain ⟨hp, hshort⟩ := h
    rw [Written.andThen_of_complete hw] at hp hshort
    have hsecond : ∀ q, p = w.items ++ q → q <+: w'.items → Cut w' q := fun q hpq hq =>
      ⟨hq, fun hdone heq => hshort hdone (by rw [hpq, heq])⟩
    rcases prefix_append_cases hp with hleft | ⟨q, hpq, hq⟩
    · by_cases heq : p = w.items
      · have hnil : p = w.items ++ [] := by rw [heq, List.append_nil]
        exact .inr ⟨hw, [], hnil, hsecond [] hnil List.nil_prefix⟩
      · exact .inl ⟨hleft, fun _ => heq⟩
    · exact .inr ⟨hw, q, hpq, hsecond q hpq hq⟩
  · rw [Written.andThen_of_not_complete hw] at h
    exact .inl h

end Cut

/-! ### Readers that mirror a writer -/

/-- The reader gives the value back from a completed write, and gives up on one that was cut. -/
structure Mirrors (r : Reader β α) (w : Written ε β) (a : α) : Prop where
  reads : w.Complete → Reads r w.items a
  torn : ∀ p, Cut w p → Torn r p

namespace Mirrors

lemma pure (a : α) : Mirrors (β := β) (ε := ε) (Pure.pure a) .done a where
  reads _ := Reads.pure a
  torn _ hp := hp.not_done.elim

lemma error {r : Reader β α} (e : ε) (a : α) (h : Torn r []) : Mirrors r (.error e) a where
  reads hdone := (Written.not_complete_error e hdone).elim
  torn p hp := by rwa [hp.nil_of_error]

lemma parse {n : Nat} {f : List β → Option α} {items : List β} {a : α} (hn : items.length = n)
    (hmax : n ≤ isizeMax) (hf : f items = some a) :
    Mirrors (ε := ε) (Reader.parse n f) (.all items) a where
  reads _ := Reads.parse hn hf
  torn _ hp := Torn.parse f hmax (hn ▸ hp.length_lt)

/-- A reader is torn by a cut write if what follows the first part is. -/
lemma bind_torn {r : Reader β α} {k : α → Reader β γ} {w w' : Written ε β} {a : α} {p : List β}
    (hr : Mirrors r w a) (hk : ∀ q, Cut w' q → Torn (k a) q) (hp : Cut (w.andThen w') p) :
    Torn (r >>= k) p := by
  rcases hp.andThen with hleft | ⟨hw, q, rfl, hq⟩
  · exact (hr.torn p hleft).bind k
  · exact (hr.reads hw).bind_torn (hk q hq)

lemma bind {r : Reader β α} {k : α → Reader β γ} {w w' : Written ε β} {a : α} {b : γ}
    (hr : Mirrors r w a) (hk : Mirrors (k a) w' b) : Mirrors (r >>= k) (w.andThen w') b where
  reads hdone := by
    rw [Written.complete_andThen] at hdone
    rw [Written.andThen_of_complete hdone.1]
    exact (hr.reads hdone.1).bind (hk.reads hdone.2)
  torn _ hp := hr.bind_torn hk.torn hp

lemma map {r : Reader β α} {w : Written ε β} {a : α} (hr : Mirrors r w a) (f : α → γ) :
    Mirrors (r >>= fun a => Pure.pure (f a)) w (f a) := by
  have h : Mirrors (r >>= fun a => Pure.pure (f a)) (w.andThen .done) (f a) := hr.bind (pure (f a))
  rwa [Written.andThen_done] at h

/-- The reader that reads as many values as were written mirrors the writer of a list. -/
lemma times {r : Reader β α} {δ : Type} {write : δ → Written ε β} {back : δ → α}
    (h : ∀ d, Mirrors r (write d) (back d)) (ds : List δ) :
    Mirrors (Reader.times ds.length r) (.each write ds) (ds.map back) := by
  induction ds with
  | nil => exact pure []
  | cons d ds ih => exact (h d).bind (ih.map fun as => back d :: as)

end Mirrors

/-! ### Numbers, least significant byte first -/

/-- The lowest `w` bytes of a number. -/
def leBytes : Nat → Nat → List UInt8
  | 0, _ => []
  | w + 1, n => UInt8.ofNat n :: leBytes w (n / 256)

/-- The number that the bytes stand for. -/
def ofLeBytes : List UInt8 → Nat
  | [] => 0
  | b :: bs => b.toNat + 256 * ofLeBytes bs

@[simp] lemma length_leBytes (w n : Nat) : (leBytes w n).length = w := by
  induction w generalizing n with
  | zero => rfl
  | succ w ih => simp [leBytes, ih]

@[simp] lemma ofLeBytes_leBytes (w n : Nat) : ofLeBytes (leBytes w n) = n % 256 ^ w := by
  induction w generalizing n with
  | zero => simp [leBytes, ofLeBytes, Nat.mod_one]
  | succ w ih =>
    have hbyte : (UInt8.ofNat n).toNat = n % 256 := UInt8.toNat_ofNat'
    rw [leBytes, ofLeBytes, ih, hbyte, pow_succ', Nat.mod_mul]

end Codec
