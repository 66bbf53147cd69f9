import Verilua.Dpi.Setters
import Verilua.Put.Basic

/-!
# The buffers of `dummy_vpi`

`dummy_vpi` puts and gets the values of signals through the accessors of the exporter. What is
accessed outside of a buffer is no value of the model, it is a failure.
-/

namespace Verilua.DummyVpi

open DpiExporter
open Put (VecVal)

/-- A call that does not return. -/
inductive Failure
  | fatal
  /-- Something is read or written outside of its buffer. -/
  | outside
  deriving DecidableEq

abbrev Run := Except Failure

variable {α β : Type}

/-- `FATAL` -/
def fatal (cond : Prop) [Decidable cond] : Run Unit := if cond then .ok () else .error .fatal

def access : Option α → Run α
  | some a => .ok a
  | none => .error .outside

/-- `buf[i] = a` -/
def store (buf : List α) (i : Nat) (a : α) : Run (List α) :=
  if i < buf.length then .ok (buf.set i a) else .error .outside

/-- `for (i = 0; i < n; i++) buf[i] = g(xs[i])` -/
def copy (g : α → β) (xs : List α) (n : Nat) (buf : List β) : Run (List β) :=
  (List.range n).foldlM (fun buf i => do store buf i (g (← access xs[i]?))) buf

/-! ### Handles -/

structure ComplexHandle where
  bitwidth : Nat
  beatSize : Nat
  valueVec : List UInt32
  getValue32 : Variable → Option UInt32
  getValueVec : Option (Variable → Option (List UInt32))
  getValueHexStr : Variable → Option (Cells Char)
  /-- `setValue32`, `setValueVec` and `setValueHexStr`, if `isWritable` -/
  setters : Option Writers

/-- `memAllocator.allocate<uint32_t>(n)`, which is `new uint32_t(n)`. -/
def allocate (n : UInt32) : List UInt32 := [n]

/-- The constructor. `unset` is what `beatSize` holds before it is set. -/
def ComplexHandle.make (s : SignalInfo) (unset : UInt32) : Run ComplexHandle := do
  fatal (0 < s.bitWidth)
  let getValueVec := s.getVec
  let valueVec := if s.writers.isSome then allocate unset else []
  if s.bitWidth ≤ 32 then fatal (getValueVec.isNone = true)
  return {
    bitwidth := s.bitWidth
    beatSize := coverWith32 s.bitWidth
    valueVec := valueVec
    getValue32 := s.get
    getValueVec := getValueVec
    getValueHexStr := s.getHexStr
    setters := s.writers }

/-! ### `vpi_put_value` -/

inductive PutValue
  | vector (vec : List VecVal)
  | hexStr (str : Cells Char)
  | other (format : Nat)

def vpiNoDelay : Nat := 1

/-- `setValueVec(valueVec)`; a signal of one beat has no such function. -/
def setValueVec (f : Writers) (valueVec : List UInt32) (v : Variable) : Run Variable :=
  match f.setVec with
  | some setVec => access (setVec valueVec v)
  | none => .error .fatal

def vpiPutValue (h : ComplexHandle) (v : Variable) (value : PutValue) (flags : Nat) :
    Run (ComplexHandle × Variable) :=
  match h.setters with
  | none => .error .fatal
  | some f => do
    fatal (flags = vpiNoDelay)
    match value with
    | .vector vec =>
      match h.beatSize with
      | 1 => return (h, ← access (f.set (← access vec[0]?).aval v))
      | 2 =>
        let valueVec ← store h.valueVec 0 (← access vec[0]?).aval
        let valueVec ← store valueVec 1 (← access vec[1]?).aval
        return ({ h with valueVec }, ← setValueVec f valueVec v)
      | beatSize =>
        let valueVec ← copy VecVal.aval vec beatSize h.valueVec
        return ({ h with valueVec }, ← setValueVec f valueVec v)
    | .hexStr str => return (h, ← access (f.setHexStr str v))
    | .other _ => .error .fatal

/-! ### `vpi_get_value` -/

/-- `VPI_GET_MAX_BUFFER_SIZE` -/
def maxBufferSize : Nat := 1024 * 2

/-- `VPI_GET_MAX_VEC_VALS` -/
def maxVecVals : Nat := 256

/-- The static arrays of words. -/
structure Statics where
  vpiValueVecs : List VecVal
  vecVals : List UInt32
  length_vpiValueVecs : vpiValueVecs.length = maxVecVals
  length_vecVals : vecVals.length = maxVecVals

inductive Format
  | int
  | hexStr
  | vector
  | other (format : Nat)

/-- What is left in `value_p`; for a text, what has been written to the buffer. -/
inductive GetValue
  | integer (n : UInt32)
  | str (buffer : Cells Char)
  | vector (vec : List VecVal)

def vpiGetValue (h : ComplexHandle) (v : Variable) (st : Statics) : Format → Run GetValue
  | .int => return .integer (← access (h.getValue32 v))
  | .hexStr => return .str (← access (h.getValueHexStr v))
  | .vector => do
    if h.bitwidth ≤ 32 then
      return .vector (← store st.vpiValueVecs 0 ⟨← access (h.getValue32 v), 0⟩)
    else
      match h.getValueVec with
      | none => .error .fatal
      | some getValueVec =>
        let values ← access (getValueVec v)
        let vecVals ← copy id values values.length st.vecVals
        return .vector (← copy (⟨·, 0⟩) vecVals h.beatSize st.vpiValueVecs)
  | .other _ => .error .fatal

/-! ### Copies -/

@[simp] lemma ok_bind {a : α} {f : α → Run β} : (Except.ok a : Run α) >>= f = f a := rfl

@[simp] lemma error_bind {e : Failure} {f : α → Run β} :
    (Except.error e : Run α) >>= f = .error e := rfl

lemma copy_succ (g : α → β) (xs : List α) (n : Nat) (buf : List β) :
    copy g xs (n + 1) buf =
      copy g xs n buf >>= fun buf => access xs[n]? >>= fun x => store buf n (g x) := by
  simp [copy, List.range_succ, List.foldlM_append]

lemma copy_eq (g : α → β) {xs : List α} {n : Nat} {buf : List β} (hxs : n ≤ xs.length)
    (hbuf : n ≤ buf.length) : copy g xs n buf = .ok ((xs.take n).map g ++ buf.drop n) := by
  induction n with
  | zero => rfl
  | succ n ih =>
    have hlen : ((xs.take n).map g).length = n := by
      rw [List.length_map, List.length_take, Nat.min_eq_left (Nat.le_of_succ_le hxs)]
    have hlt : n < ((xs.take n).map g ++ buf.drop n).length := by
      rw [List.length_append, hlen, List.length_drop]
      omega
    rw [copy_succ, ih (by omega) (by omega), ok_bind, List.getElem?_eq_getElem hxs, access, ok_bind,
      store, if_pos hlt, List.set_append_right _ _ hlen.le, hlen, Nat.sub_self,
      List.drop_eq_getElem_cons hbuf, List.set_cons_zero, List.take_succ_eq_append_getElem hxs,
      List.map_append, List.append_assoc, List.map_singleton, List.singleton_append]

lemma copy_outside (g : α → β) {xs : List α} {n : Nat} {buf : List β} (hxs : n ≤ xs.length)
    (hbuf : buf.length < n) : copy g xs n buf = .error .outside := by
  induction n with
  | zero => cases hbuf
  | succ n ih =>
    rw [copy_succ]
    rcases Nat.lt_or_eq_of_le (Nat.le_of_lt_succ hbuf) with hlt | heq
    · rw [ih (by omega) hlt, error_bind]
    · rw [copy_eq g (by omega) heq.ge, ok_bind, List.getElem?_eq_getElem hxs, access, ok_bind, store,
        if_neg (by simp; omega)]

/-! ### Calls -/

/-- A call with a handle. A vector is one of as many words as its caller has allocated, and a text is
one that ends with a zero. -/
inductive Call
  | putVector (vec : List VecVal) (flags : Nat)
  | putHexStr (text : List Char) (flags : Nat)
  | putOther (format flags : Nat)
  | get (format : Format)

/-- The callers of a put of a vector have allocated the words of the signal. -/
def Call.WellFormed (s : SignalInfo) : Call → Prop
  | .putVector vec _ => vec.length = s.beatSize
  | _ => True

variable {s : SignalInfo} {h : ComplexHandle} {st : Statics} {V : Nat} {c : Call}

/-- A put stays in the buffers, and one of a vector stores its words and no others. -/
structure PutWithin (s : SignalInfo) (h : ComplexHandle) (v : Variable) (value : PutValue)
    (flags : Nat) : Prop where
  inside : vpiPutValue h v value flags ≠ .error .outside
  words : ∀ vec h' v', value = .vector vec → vpiPutValue h v value flags = .ok (h', v') →
    v' = s.holding (ofWords (vec.map VecVal.aval))

/-- A read stays in the buffers, of which it needs no more than the signal has digits or words, and
one of a vector has the words of the signal. -/
structure GetWithin (s : SignalInfo) (h : ComplexHandle) (V : Nat) (st : Statics) (format : Format) :
    Prop where
  inside : vpiGetValue h (s.holding V) st format ≠ .error .outside
  buffer : ∀ cells, vpiGetValue h (s.holding V) st format = .ok (.str cells) →
    ∀ i, (cells i).isSome → i < coverWith4 s.bitWidth + 1 ∧ i < maxBufferSize
  words : ∀ vec, vpiGetValue h (s.holding V) st format = .ok (.vector vec) →
    (vec.take s.beatSize).map VecVal.aval = words s.beatSize V

/-- The call stays in the buffers, and the words that it transfers are those of the signal. -/
def Call.Within (s : SignalInfo) (h : ComplexHandle) (V : Nat) (st : Statics) : Call → Prop
  | .putVector vec flags => PutWithin s h (s.holding V) (.vector vec) flags
  | .putHexStr text flags => PutWithin s h (s.holding V) (.hexStr (cString text)) flags
  | .putOther format flags => PutWithin s h (s.holding V) (.other format) flags
  | .get format => GetWithin s h V st format

/-- The call needs no more than there is: the one word of the handle for a vector that is put, the
static arrays for what is read, and for a text as many characters as its words have. -/
def Call.Fits (s : SignalInfo) : Call → Prop
  | .putVector _ flags => s.isWritable → flags = vpiNoDelay → s.bitWidth ≤ 32
  | .putHexStr text flags => s.isWritable → flags = vpiNoDelay →
    s.bitWidth ≤ 32 ∨ 8 * (s.beatSize - 1) ≤ text.length
  | .get .hexStr =>
    (s.bitWidth ≤ 64 ∨ s.bitWidth % 32 = 0 ∨ 25 ≤ s.bitWidth % 32) ∧
      coverWith4 s.bitWidth < maxBufferSize
  | .get .vector => s.beatSize ≤ maxVecVals
  | .putOther _ _ | .get .int | .get (.other _) => True

/-! ### Handles of signals -/

/-- What the constructor makes: the handle has one word, if it is writable. -/
def handleOf (s : SignalInfo) (unset : UInt32) : ComplexHandle where
  bitwidth := s.bitWidth
  beatSize := s.beatSize
  valueVec := if s.writers.isSome then [unset] else []
  getValue32 := s.get
  getValueVec := s.getVec
  getValueHexStr := s.getHexStr
  setters := s.writers

lemma make_eq (s : SignalInfo) (unset : UInt32) :
    ComplexHandle.make s unset = .ok (handleOf s unset) := by
  unfold ComplexHandle.make
  rw [fatal, if_pos s.bitWidth_pos, ok_bind]
  by_cases h : s.bitWidth ≤ 32
  · have hnone : s.getVec = none := if_pos (beatSize_eq_one_iff.mpr h)
    rw [if_pos h, fatal, if_pos (by simp [hnone]), ok_bind]
    rfl
  · rw [if_neg h]
    rfl

/-! ### Puts -/

lemma readDigits_isSome {text : List Char} (n : Nat) {i : Nat} (hi : i ≤ text.length)
    (value : UInt32) : (readDigits (cString text) n i value).isSome := by
  induction n generalizing i value with
  | zero =>
    have hsome : ∃ c, cString text i = some c :=
      ⟨_, List.getElem?_eq_getElem (by simpa using Nat.lt_succ_of_le hi)⟩
    obtain ⟨c, hc⟩ := hsome
    rw [readDigits, hc]
    by_cases hzero : c = '\x00' <;> simp [hzero]
  | succ n ih =>
    rw [readDigits]
    rcases Nat.lt_or_eq_of_le hi with hlt | rfl
    · have hc : cString text i = some text[i] := by
        rw [cString, Cells.ofList, List.getElem?_append_left hlt, List.getElem?_eq_getElem hlt]
      rw [hc]
      by_cases hzero : text[i] = '\x00'
      · simp [hzero]
      · simpa only [if_neg hzero] using ih hlt _
    · simp [cString, Cells.ofList]

lemma setHexStr_inside {f : Writers} (hf : f ∈ s.writers) {text : List Char} :
    f.setHexStr (cString text) (s.holding V) ≠ none ↔
      s.bitWidth ≤ 32 ∨ 8 * (s.beatSize - 1) ≤ text.length := by
  have hpos := beatSize_pos s
  rw [writers_eq hf]
  by_cases h : s.beatSize = 1
  · obtain ⟨value, hvalue⟩ := Option.isSome_iff_exists.mp
      (readDigits_isSome 7 (Nat.zero_le text.length) 0)
    have hset := setScalar_holding h V value.toNat
    rw [UInt32.ofNat_toNat] at hset
    simp [h, scalarWriters, hvalue, hset, beatSize_eq_one_iff.mp h]
  · rw [if_neg h, ← beatSize_eq_one_iff, or_iff_right h]
    obtain ⟨n, hn⟩ := Nat.exists_eq_succ_of_ne_zero hpos.ne'
    rw [hn, Nat.succ_sub_one]
    constructor
    · intro hne
      by_contra hlt
      exact hne (setHexStr_beats_eq_none (not_le.mp hlt) _)
    · intro hle
      have hread : ∀ j < n + 1, (readDigits (cString text) 8 (j * 8) 0).isSome :=
        fun j hj => readDigits_isSome 8 (by omega) 0
      obtain ⟨ws, hrun, -⟩ := foldlM_setBeat (words s.beatSize V) (m := n + 1)
        (p := fun j => n + 1 - 1 - j) (y := fun j => (readDigits (cString text) 8 (j * 8) 0).getD 0)
        (x := fun j => readDigits (cString text) 8 (j * 8) 0)
        (fun j hj => by rw [length_words]; omega) (fun i hi j hj hij => by omega)
        (fun j hj => by
          obtain ⟨value, hvalue⟩ := Option.isSome_iff_exists.mp (hread j hj)
          simp [hvalue])
      rw [holding_beats h]
      exact fun hnone => Option.some_ne_none _ (hrun.symm.trans hnone)

lemma putWithin_of_fatal {v : Variable} {value : PutValue} {flags : Nat}
    (hfatal : vpiPutValue h v value flags = .error .fatal) : PutWithin s h v value flags := by
  refine ⟨?_, ?_⟩
  · rw [hfatal]
    nofun
  · intro vec h' v' _ hok
    rw [hfatal] at hok
    cases hok

/-- The put reaches a setter of the signal. -/
def Writes (s : SignalInfo) (flags : Nat) : Prop := s.isWritable ∧ flags = vpiNoDelay

lemma vpiPutValue_of_not_writes (hh : h.setters = s.writers) {v : Variable} {value : PutValue}
    {flags : Nat} (hw : ¬Writes s flags) : vpiPutValue h v value flags = .error .fatal := by
  unfold vpiPutValue
  rw [hh]
  cases hs : s.writers with
  | none => rfl
  | some f =>
    have hwritable : s.isWritable := by
      by_contra hnot
      simp [SignalInfo.writers, hnot] at hs
    have hflags : flags ≠ vpiNoDelay := fun hflags => hw ⟨hwritable, hflags⟩
    simp only [fatal, if_neg hflags, error_bind]

lemma exists_writers {flags : Nat} (hw : Writes s flags) : ∃ f, f ∈ s.writers := by
  rw [SignalInfo.writers, if_pos hw.1]
  exact ⟨_, rfl⟩

lemma putVector_outside {f : Writers} {vec : List VecVal} {unset : UInt32} {v : Variable}
    (hbeat : h.beatSize = s.beatSize) (hvec : h.valueVec = [unset]) (hf : h.setters = some f)
    (hlen : vec.length = s.beatSize) (hwide : 1 < s.beatSize) :
    vpiPutValue h v (.vector vec) vpiNoDelay = .error .outside := by
  unfold vpiPutValue
  simp only [hf, fatal, if_true, ok_bind, hbeat, hvec]
  obtain ⟨a, b, vec, rfl⟩ : ∃ a b rest, vec = a :: b :: rest := by
    match vec, hlen with
    | a :: b :: rest, _ => exact ⟨a, b, rest, rfl⟩
    | [_], hlen | [], hlen => simp at hlen; omega
  have hcopy : copy VecVal.aval (a :: b :: vec) s.beatSize [unset] = .error .outside :=
    copy_outside VecVal.aval hlen.ge hwide
  split
  · omega
  · rfl
  · rw [hcopy, error_bind]

lemma putVector_inside {f : Writers} {vec : List VecVal} (hbeat : h.beatSize = s.beatSize)
    (hf : h.setters = s.writers) (hs : f ∈ s.writers) (hlen : vec.length = s.beatSize)
    (hone : s.beatSize = 1) : vpiPutValue h (s.holding V) (.vector vec) vpiNoDelay =
      .ok (h, s.holding (ofWords (vec.map VecVal.aval))) := by
  obtain ⟨a, rfl⟩ := List.length_eq_one_iff.mp (hlen.trans hone)
  have hset := set_holding hs V a.aval
  unfold vpiPutValue
  simp only [hf, Option.mem_def.mp hs, fatal, if_true, ok_bind, hbeat, hone, access,
    List.getElem?_cons_zero, hset]
  simp [ofWords]
  rfl

lemma putVector_iff {vec : List VecVal} {flags : Nat} {unset : UInt32}
    (hlen : vec.length = s.beatSize) :
    PutWithin s (handleOf s unset) (s.holding V) (.vector vec) flags ↔
      (Writes s flags → s.bitWidth ≤ 32) := by
  by_cases hw : Writes s flags
  · obtain ⟨f, hf⟩ := exists_writers hw
    have hsome := Option.mem_def.mp hf
    have hvec : (handleOf s unset).valueVec = [unset] := by simp [handleOf, hsome]
    rw [imp_iff_right hw, hw.2, ← beatSize_eq_one_iff]
    constructor
    · intro hin
      by_contra hne
      have hpos := beatSize_pos s
      exact hin.inside (putVector_outside rfl hvec hsome hlen (by omega))
    · intro hone
      have hput := putVector_inside (V := V) (h := handleOf s unset) rfl rfl hf hlen hone
      refine ⟨?_, ?_⟩
      · rw [hput]
        nofun
      · rintro vec' h' v' ⟨⟩ hok
        exact congrArg Prod.snd (Except.ok.inj (hok.symm.trans hput))
  · exact iff_of_true (putWithin_of_fatal (vpiPutValue_of_not_writes rfl hw)) fun h => absurd h hw

lemma putHexStr_iff {text : List Char} {flags : Nat} {unset : UInt32} :
    PutWithin s (handleOf s unset) (s.holding V) (.hexStr (cString text)) flags ↔
      (Writes s flags → s.bitWidth ≤ 32 ∨ 8 * (s.beatSize - 1) ≤ text.length) := by
  by_cases hw : Writes s flags
  · obtain ⟨f, hf⟩ := exists_writers hw
    have hsome : (handleOf s unset).setters = some f := hf
    have hput : vpiPutValue (handleOf s unset) (s.holding V) (.hexStr (cString text)) vpiNoDelay =
        access (f.setHexStr (cString text) (s.holding V)) >>= fun v => pure (handleOf s unset, v) := by
      simp only [vpiPutValue, hsome, fatal, if_true, ok_bind]
    rw [imp_iff_right hw, hw.2, ← setHexStr_inside hf (V := V)]
    constructor
    · intro hin hnone
      exact hin.inside (by rw [hput, hnone]; rfl)
    · intro hne
      obtain ⟨v, hv⟩ := Option.ne_none_iff_exists'.mp hne
      refine ⟨by rw [hput, hv]; nofun, ?_⟩
      rintro vec h' v' ⟨⟩
  · exact iff_of_true (putWithin_of_fatal (vpiPutValue_of_not_writes rfl hw)) fun h => absurd h hw

/-! ### Reads -/

lemma getHexStr_eq (hV : V < 2 ^ s.bitWidth) : s.getHexStr (s.holding V) =
    some (hexCells s (if 2 < s.beatSize then s.beatSize * 8 else coverWith4 s.bitWidth) V) := by
  have hpos := beatSize_pos s
  split_ifs with h
  · exact getHexStr_more h V
  · by_cases hone : s.beatSize = 1
    · exact getHexStr_one hone hV
    · exact getHexStr_two (by omega) V

lemma isSome_hexCells {k i : Nat} :
    (hexCells s k V i).isSome ↔ i < k ∨ i = coverWith4 s.bitWidth := by
  rw [hexCells, Cells.set, Function.update_apply]
  split_ifs with h
  · simp [h]
  · simp [Cells.ofList, h]

lemma getHexStr_iff (hV : V < 2 ^ s.bitWidth) {unset : UInt32} :
    GetWithin s (handleOf s unset) V st .hexStr ↔
      (s.bitWidth ≤ 64 ∨ s.bitWidth % 32 = 0 ∨ 25 ≤ s.bitWidth % 32) ∧
        coverWith4 s.bitWidth < maxBufferSize := by
  have hget : vpiGetValue (handleOf s unset) (s.holding V) st .hexStr =
      .ok (.str (hexCells s (if 2 < s.beatSize then s.beatSize * 8 else coverWith4 s.bitWidth) V)) := by
    simp only [vpiGetValue, handleOf, getHexStr_eq hV, access, ok_bind]
    rfl
  have hiff : GetWithin s (handleOf s unset) V st .hexStr ↔
      ∀ i, i < (if 2 < s.beatSize then s.beatSize * 8 else coverWith4 s.bitWidth) ∨
        i = coverWith4 s.bitWidth → i < coverWith4 s.bitWidth + 1 ∧ i < maxBufferSize := by
    constructor
    · intro hin i hi
      exact hin.buffer _ hget i (isSome_hexCells.mpr hi)
    · intro hall
      refine ⟨by rw [hget]; nofun, fun cells hok i hi => ?_, fun vec hok => ?_⟩
      · obtain rfl := GetValue.str.inj (Except.ok.inj (hget.symm.trans hok))
        exact hall i (isSome_hexCells.mp hi)
      · cases hget.symm.trans hok
  have hpos := s.bitWidth_pos
  have hcover : coverWith4 s.bitWidth = (s.bitWidth + 3) / 4 := rfl
  have hbeats : s.beatSize = (s.bitWidth + 31) / 32 := rfl
  rw [hiff]
  by_cases hmore : 2 < s.beatSize
  · simp only [if_pos hmore]
    constructor
    · intro hall
      have hlast := hall (s.beatSize * 8 - 1) (.inl (by omega))
      have hend := hall (coverWith4 s.bitWidth) (.inr rfl)
      omega
    · rintro ⟨hdigits, hmax⟩ i hi
      omega
  · simp only [if_neg hmore]
    constructor
    · intro hall
      have hend := hall (coverWith4 s.bitWidth) (.inr rfl)
      omega
    · rintro ⟨-, hmax⟩ i hi
      omega

lemma getVector_iff (hV : V < 2 ^ s.bitWidth) {unset : UInt32} :
    GetWithin s (handleOf s unset) V st .vector ↔ s.beatSize ≤ maxVecVals := by
  by_cases h : s.bitWidth ≤ 32
  · have hone := beatSize_eq_one_iff.mpr h
    have hlen := st.length_vpiValueVecs
    obtain ⟨x, vec, hvec⟩ := List.exists_cons_of_length_pos (hlen ▸ (by decide : 0 < maxVecVals))
    have hvalue : s.get (s.holding V) = some (UInt32.ofNat V) := by
      rw [SignalInfo.get, if_pos hone, scalar_holding hone hV]
    have hget : vpiGetValue (handleOf s unset) (s.holding V) st .vector =
        .ok (.vector (⟨UInt32.ofNat V, 0⟩ :: vec)) := by
      simp only [vpiGetValue, handleOf, if_pos h, hvalue, access, ok_bind, hvec]
      rfl
    refine iff_of_true ⟨fun hout => ?_, fun cells hok => ?_, fun vec' hok => ?_⟩ ?_
    · cases hget.symm.trans hout
    · cases hget.symm.trans hok
    · obtain rfl := GetValue.vector.inj (Except.ok.inj (hget.symm.trans hok))
      simp [hone, words]
    · rw [hone]
      decide
  · have hne : s.beatSize ≠ 1 := fun hone => h (beatSize_eq_one_iff.mp hone)
    obtain ⟨read, hread⟩ : ∃ read, s.getVec = some read := ⟨_, if_neg hne⟩
    have hvalues := getVec_holding (V := V) (Option.mem_def.mpr hread)
    have hlen : (words s.beatSize V).length = s.beatSize := length_words _ _
    have hget : vpiGetValue (handleOf s unset) (s.holding V) st .vector =
        copy id (words s.beatSize V) s.beatSize st.vecVals >>= fun vecVals =>
          copy (⟨·, 0⟩) vecVals s.beatSize st.vpiValueVecs >>= fun vec => .ok (.vector vec) := by
      simp only [vpiGetValue, handleOf, if_neg h, hread, hvalues, access, ok_bind, hlen]
      rfl
    constructor
    · intro hin
      by_contra hlt
      refine hin.inside ?_
      rw [hget, copy_outside id hlen.ge (st.length_vecVals ▸ not_le.mp hlt), error_bind]
    · intro hle
      have hcopied : vpiGetValue (handleOf s unset) (s.holding V) st .vector =
          .ok (.vector ((words s.beatSize V).map (⟨·, 0⟩) ++ st.vpiValueVecs.drop s.beatSize)) := by
        have htake : ((words s.beatSize V).take s.beatSize).map id = words s.beatSize V := by
          rw [List.map_id, List.take_of_length_le hlen.le]
        have hread : (words s.beatSize V ++ st.vecVals.drop s.beatSize).take s.beatSize =
            words s.beatSize V := by
          rw [List.take_append_of_le_length hlen.ge, List.take_of_length_le hlen.le]
        rw [hget, copy_eq id hlen.ge (st.length_vecVals ▸ hle), ok_bind, htake, copy_eq, ok_bind,
          hread]
        · rw [List.length_append, hlen]
          exact Nat.le_add_right _ _
        · exact st.length_vpiValueVecs ▸ hle
      refine ⟨fun hout => ?_, fun cells hok => ?_, fun vec hok => ?_⟩
      · cases hcopied.symm.trans hout
      · cases hcopied.symm.trans hok
      · obtain rfl := GetValue.vector.inj (Except.ok.inj (hcopied.symm.trans hok))
        have hmap : ((words s.beatSize V).map fun value => VecVal.mk value 0).length =
            s.beatSize := (List.length_map _).trans hlen
        rw [List.take_append_of_le_length hmap.ge, List.take_of_length_le hmap.le, List.map_map]
        exact List.map_id _

/-- A call stays in the buffers exactly if it needs no more than there is. -/
theorem within_iff {unset : UInt32} (hV : V < 2 ^ s.bitWidth)
    (hh : ComplexHandle.make s unset = .ok h) (hc : c.WellFormed s) :
    c.Within s h V st ↔ c.Fits s := by
  obtain rfl := Except.ok.inj ((make_eq s unset).symm.trans hh)
  cases c with
  | putVector vec flags => exact (putVector_iff hc).trans and_imp
  | putHexStr text flags => exact putHexStr_iff.trans and_imp
  | putOther format flags =>
    refine iff_of_true (putWithin_of_fatal ?_) trivial
    by_cases hw : Writes s flags
    · obtain ⟨f, hf⟩ := exists_writers hw
      simp only [vpiPutValue, handleOf, Option.mem_def.mp hf, fatal, hw.2, if_true, ok_bind]
    · exact vpiPutValue_of_not_writes rfl hw
  | get format =>
    cases format with
    | hexStr => exact getHexStr_iff hV
    | vector => exact getVector_iff hV
    | int =>
      have hsome : (s.get (s.holding V)).isSome := by
        have hmap := get_holding hV
        cases hvalue : s.get (s.holding V) with
        | none => simp [hvalue] at hmap
        | some n => rfl
      obtain ⟨n, hn⟩ := Option.isSome_iff_exists.mp hsome
      have hget : vpiGetValue (handleOf s unset) (s.holding V) st .int = .ok (.integer n) := by
        simp only [vpiGetValue, handleOf, hn, access, ok_bind]
        rfl
      refine iff_of_true ⟨by rw [hget]; nofun, fun cells hok => ?_, fun vec hok => ?_⟩ trivial
      · cases hget.symm.trans hok
      · cases hget.symm.trans hok
    | other format => exact iff_of_true ⟨nofun, nofun, nofun⟩ trivial

/-- The static arrays at the start of the simulation. -/
def Statics.zero : Statics where
  vpiValueVecs := List.replicate maxVecVals ⟨0, 0⟩
  vecVals := List.replicate maxVecVals 0
  length_vpiValueVecs := List.length_replicate
  length_vecVals := List.length_replicate

theorem within_forty_bits :
    (Call.get .vector).Within (sampleSignal 40 (by decide))
      (handleOf (sampleSignal 40 (by decide)) 0) 0xab Statics.zero := by
  have hc : (Call.get .vector).WellFormed (sampleSignal 40 (by decide)) := trivial
  exact (within_iff (by decide) (make_eq _ _) hc).mpr (by decide : 2 ≤ maxVecVals)

/-- The second word of a vector of 40 bits is stored behind the one word of the handle. -/
theorem not_within : ¬(Call.putVector [⟨1, 0⟩, ⟨2, 0⟩] vpiNoDelay).Within
    (sampleSignal 40 (by decide)) (handleOf (sampleSignal 40 (by decide)) 0) 0 Statics.zero :=
  fun h => h.inside rfl

end Verilua.DummyVpi
