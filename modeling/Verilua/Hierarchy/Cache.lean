import Verilua.Lib.Codec
import Mathlib.Data.Int.Order.Basic

/-!
# The hierarchy cache file

`save_cache` and `try_load_cache` of `hierarchy_collect.rs`: a header with a magic number, the
modification time of the source and the number of entries, the path of the source, and the entries.
-/

namespace Verilua.Hierarchy

open Codec

/-- A flattened hierarchy item. A `PLI_INT32` is an integer; `I32` is its range. -/
structure HierarchyEntry where
  fullPath : String
  moduleName : Option String
  sigType : Option String
  level : Int
  bitwidth : Int
  deriving DecidableEq

def I32 (n : Int) : Prop := -2 ^ 31 ≤ n ∧ n < 2 ^ 31

/-- The magic number `VHI2`. -/
def hierarchyCacheMagic : Nat := 0x56484932

def hierarchyCacheFixedHeaderSize : Nat := 16

def minEntryBytes : Nat := 14

def u16Max : Nat := 2 ^ 16 - 1

def u64Max : UInt64 := 0xFFFFFFFFFFFFFFFF

/-! ### Writing -/

/-- The bytes of a string. -/
def utf8 (s : String) : List UInt8 := s.toByteArray.data.toList

def tooLong : String := "hierarchy cache: string too long for u16 length prefix"

abbrev Write := Written String UInt8

def writeLenPrefixedStr (s : String) : Write :=
  if (utf8 s).length > u16Max then .error tooLong
  else .andThen (.all (leBytes 2 (utf8 s).length)) (.all (utf8 s))

def writeLenPrefixedOptStr : Option String → Write
  | some v => writeLenPrefixedStr v
  | none => .all (leBytes 2 0)

/-- `to_le_bytes` of a `PLI_INT32` -/
def i32Bytes (n : Int) : List UInt8 := leBytes 4 (n % 2 ^ 32).toNat

def writeEntry (entry : HierarchyEntry) : Write :=
  (writeLenPrefixedStr entry.fullPath).andThen <|
  (writeLenPrefixedOptStr entry.moduleName).andThen <|
  (writeLenPrefixedOptStr entry.sigType).andThen <|
  .andThen (.all (i32Bytes entry.level)) (.all (i32Bytes entry.bitwidth))

/-- The fixed header. The number of entries is cut to 32 bits. -/
def fixedHeader (count : Nat) (sourceMtime : Option UInt64) : List UInt8 :=
  leBytes 4 hierarchyCacheMagic ++ leBytes 8 (sourceMtime.getD u64Max).toNat ++ leBytes 4 count

/-- `save_cache`, as far as it comes, on a file that takes what is written. -/
def saveCache (entries : List HierarchyEntry) (sourceMtime : Option UInt64)
    (sourcePath : Option String) : Write :=
  Written.andThen (.all (fixedHeader entries.length sourceMtime)) <|
  (writeLenPrefixedStr (sourcePath.getD "")).andThen <|
  .each writeEntry entries

/-! ### Reading -/

abbrev Read (α : Type) := Reader UInt8 α

/-- `std::str::from_utf8` -/
def fromUtf8 (bytes : List UInt8) : Option String := String.fromUTF8? ⟨bytes.toArray⟩

def readU16Le : Read UInt16 := .parse 2 fun bytes => some (UInt16.ofNat (ofLeBytes bytes))

def readI32Le : Read Int := .parse 4 fun bytes => some (Int.bmod (ofLeBytes bytes) (2 ^ 32))

def readStringAt (len : Nat) : Read String := .parse len fromUtf8

def readLenPrefixedString : Read String := do
  let len ← readU16Le
  readStringAt len.toNat

/-- The optional fields of an entry, where no string and the empty string are the same. -/
def readOptString : Read (Option String) := do
  let len ← readU16Le
  if len > 0 then do
    let s ← readStringAt len.toNat
    pure (some s)
  else pure none

def readEntry : Read HierarchyEntry := do
  let fullPath ← readLenPrefixedString
  let moduleName ← readOptString
  let sigType ← readOptString
  let level ← readI32Le
  let bitwidth ← readI32Le
  pure { fullPath, moduleName, sigType, level, bitwidth }

/-- The cache was made for another source. -/
def sourceMismatch (cached : String) (current : Option String) : Bool :=
  cached ≠ "" && current.any fun current => current ≠ "" && cached ≠ current

/-- The source was modified since the cache was made. -/
def stale (cached : UInt64) (current : Option UInt64) : Bool :=
  cached ≠ u64Max && current.any fun current => cached ≠ current

/-- Bounds the number of entries by what is left of the file, before memory is reserved. -/
def checkEntryCount (entryCount : Nat) : Read Unit := do
  let remaining ← Reader.remaining
  if entryCount > remaining / minEntryBytes then .fail else pure ()

/-- What `try_load_cache` does from the source path on. -/
def readBody (cachedMtime : UInt64) (entryCount : Nat) (currentMtime : Option UInt64)
    (currentSourcePath : Option String) : Read (List HierarchyEntry) := do
  let cachedSourcePath ← readLenPrefixedString
  if sourceMismatch cachedSourcePath currentSourcePath then .fail
  else if stale cachedMtime currentMtime then .fail
  else do
    checkEntryCount entryCount
    Reader.times entryCount readEntry

/-- A file is mapped unless it is longer than a slice can be. -/
def mmap (file : List UInt8) : Option (List UInt8) :=
  if file.length ≤ isizeMax then some file else none

/-- `try_load_cache` on the content of the file, if it can be opened; `fail` is its `None`. -/
def tryLoadCache (file : Option (List UInt8)) (currentMtime : Option UInt64)
    (currentSourcePath : Option String) : Outcome (List HierarchyEntry) := do
  let data ← Outcome.ofOption (file.bind mmap)
  if data.length < hierarchyCacheFixedHeaderSize then .fail
  else do
    let magic ← index data 0 4
    if ofLeBytes magic ≠ hierarchyCacheMagic then .fail
    else do
      let cachedMtime ← index data 4 12
      let entryCount ← index data 12 16
      let (entries, _) ← readBody (UInt64.ofNat (ofLeBytes cachedMtime)) (ofLeBytes entryCount)
        currentMtime currentSourcePath data hierarchyCacheFixedHeaderSize
      .value entries

/-! ### Every buffer is read without a panic -/

lemma safe_readU16Le : Safe readU16Le := .parse _ (by decide)

lemma safe_readI32Le : Safe readI32Le := .parse _ (by decide)

lemma safe_readStringAt (len : UInt16) : Safe (readStringAt len.toNat) :=
  .parse _ (le_trans len.toNat_lt.le (by decide))

lemma safe_readLenPrefixedString : Safe readLenPrefixedString :=
  safe_readU16Le.bind safe_readStringAt

lemma safe_readOptString : Safe readOptString := by
  refine safe_readU16Le.bind fun len => ?_
  split
  · exact (safe_readStringAt len).bind fun s => .pure (some s)
  · exact .pure none

lemma safe_readEntry : Safe readEntry := by
  refine safe_readLenPrefixedString.bind fun fullPath => ?_
  refine safe_readOptString.bind fun moduleName => ?_
  refine safe_readOptString.bind fun sigType => ?_
  refine safe_readI32Le.bind fun level => ?_
  exact safe_readI32Le.bind fun bitwidth => .pure _

lemma safe_readBody (cachedMtime : UInt64) (entryCount : Nat) (currentMtime : Option UInt64)
    (currentSourcePath : Option String) :
    Safe (readBody cachedMtime entryCount currentMtime currentSourcePath) := by
  refine safe_readLenPrefixedString.bind fun cachedSourcePath => ?_
  split
  · exact .fail
  · split
    · exact .fail
    · refine Safe.bind ?_ fun _ => safe_readEntry.times entryCount
      refine Safe.remaining.bind fun remaining => ?_
      split
      · exact .fail
      · exact .pure ()

lemma index_of_le {α : Type} {data : List α} {first last : Nat} (h : first ≤ last)
    (hlast : last ≤ data.length) : index data first last = .value (data.extract first last) :=
  if_pos ⟨h, hlast⟩

/-- What `try_load_cache` does from the source path on, with the numbers of the header. -/
def loadBody (data : List UInt8) (currentMtime : Option UInt64)
    (currentSourcePath : Option String) : Outcome (List HierarchyEntry × Nat) :=
  readBody (UInt64.ofNat (ofLeBytes (data.extract 4 12))) (ofLeBytes (data.extract 12 16))
    currentMtime currentSourcePath data hierarchyCacheFixedHeaderSize

lemma tryLoadCache_of_short {data : List UInt8} (h : data.length < hierarchyCacheFixedHeaderSize)
    (currentMtime : Option UInt64) (currentSourcePath : Option String) :
    tryLoadCache (some data) currentMtime currentSourcePath = .fail := by
  have hlen : data.length ≤ isizeMax := le_trans h.le (by decide)
  simp [tryLoadCache, mmap, if_pos hlen, if_pos h]

lemma tryLoadCache_of_long {data : List UInt8} (h : isizeMax < data.length)
    (currentMtime : Option UInt64) (currentSourcePath : Option String) :
    tryLoadCache (some data) currentMtime currentSourcePath = .fail := by
  simp [tryLoadCache, mmap, if_neg (Nat.not_le.mpr h)]

lemma tryLoadCache_of_header {data : List UInt8} (hlen : data.length ≤ isizeMax)
    (hheader : hierarchyCacheFixedHeaderSize ≤ data.length) (currentMtime : Option UInt64)
    (currentSourcePath : Option String) :
    tryLoadCache (some data) currentMtime currentSourcePath =
      if ofLeBytes (data.extract 0 4) ≠ hierarchyCacheMagic then .fail
      else loadBody data currentMtime currentSourcePath >>= fun x => .value x.1 := by
  have hsize : 16 ≤ data.length := hheader
  simp only [tryLoadCache, Option.bind_some, mmap, if_pos hlen, Outcome.ofOption_some,
    Outcome.value_bind, if_neg (Nat.not_lt.mpr hheader), loadBody,
    index_of_le (Nat.zero_le 4) (le_trans (by decide) hsize),
    index_of_le (show 4 ≤ 12 by decide) (le_trans (by decide) hsize),
    index_of_le (show 12 ≤ 16 by decide) hsize]

lemma loadBody_ne_panic {data : List UInt8} (hlen : data.length ≤ isizeMax)
    (hheader : hierarchyCacheFixedHeaderSize ≤ data.length) (currentMtime : Option UInt64)
    (currentSourcePath : Option String) :
    loadBody data currentMtime currentSourcePath ≠ .panic :=
  (safe_readBody _ _ currentMtime currentSourcePath).no_panic data _ hlen hheader

/-- Loading comes to a list of entries or to none, whatever is in the file. -/
lemma tryLoadCache_ne_panic (file : Option (List UInt8)) (currentMtime : Option UInt64)
    (currentSourcePath : Option String) :
    tryLoadCache file currentMtime currentSourcePath ≠ .panic := by
  cases file with
  | none => simp [tryLoadCache]
  | some data =>
    by_cases hlen : data.length ≤ isizeMax
    · by_cases hheader : hierarchyCacheFixedHeaderSize ≤ data.length
      · rw [tryLoadCache_of_header hlen hheader]
        have hbody := loadBody_ne_panic hlen hheader currentMtime currentSourcePath
        split
        · simp
        · cases hrun : loadBody data currentMtime currentSourcePath with
          | value x => simp
          | fail => simp
          | panic => exact (hbody hrun).elim
      · simp [tryLoadCache_of_short (Nat.not_le.mp hheader)]
    · simp [tryLoadCache_of_long (Nat.not_le.mp hlen)]

/-! ### The readers mirror the writers -/

/-- The prefix of 16 bits has room for the length of the string. -/
def Short (s : String) : Prop := (utf8 s).length ≤ u16Max

/-- The strings of the entry have lengths that can be written. -/
structure HierarchyEntry.Short (entry : HierarchyEntry) : Prop where
  fullPath : Hierarchy.Short entry.fullPath
  moduleName : ∀ name ∈ entry.moduleName, Hierarchy.Short name
  sigType : ∀ sig ∈ entry.sigType, Hierarchy.Short sig

/-- What is read back for an entry: an empty optional string is lost, and an integer is a
`PLI_INT32`. -/
def HierarchyEntry.stored (entry : HierarchyEntry) : HierarchyEntry where
  fullPath := entry.fullPath
  moduleName := entry.moduleName.filter (· ≠ "")
  sigType := entry.sigType.filter (· ≠ "")
  level := Int.bmod entry.level (2 ^ 32)
  bitwidth := Int.bmod entry.bitwidth (2 ^ 32)

lemma fromUtf8_utf8 (s : String) : fromUtf8 (utf8 s) = some s := by
  have hbytes : (⟨(utf8 s).toArray⟩ : ByteArray) = s.toByteArray := by simp [utf8]
  rw [fromUtf8, hbytes, String.fromUTF8?, dif_pos s.isValidUTF8]
  rfl

lemma length_utf8_eq_zero {s : String} : (utf8 s).length = 0 ↔ s = "" := by
  rw [← String.utf8ByteSize_eq_zero_iff]
  exact Iff.rfl

lemma complete_writeLenPrefixedStr {s : String} : (writeLenPrefixedStr s).Complete ↔ Short s := by
  by_cases h : Short s
  · simp [writeLenPrefixedStr, if_neg (Nat.not_lt.mpr h), h]
  · simp [writeLenPrefixedStr, if_pos (Nat.not_le.mp h), h]

lemma complete_writeLenPrefixedOptStr {s : Option String} :
    (writeLenPrefixedOptStr s).Complete ↔ ∀ v ∈ s, Short v := by
  cases s with
  | none => simp [writeLenPrefixedOptStr]
  | some v => simp [writeLenPrefixedOptStr, complete_writeLenPrefixedStr]

lemma complete_writeEntry {entry : HierarchyEntry} : (writeEntry entry).Complete ↔ entry.Short := by
  simp only [writeEntry, Written.complete_andThen, complete_writeLenPrefixedStr,
    complete_writeLenPrefixedOptStr, Written.complete_all, and_true]
  constructor
  · rintro ⟨h, h', h''⟩
    exact ⟨h, h', h''⟩
  · rintro ⟨h, h', h''⟩
    exact ⟨h, h', h''⟩

lemma mirrors_readU16Le {n : Nat} (h : n ≤ u16Max) :
    Mirrors (ε := String) readU16Le (.all (leBytes 2 n)) (UInt16.ofNat n) := by
  refine .parse (length_leBytes 2 n) (by decide) ?_
  have hn : n % 256 ^ 2 = n := Nat.mod_eq_of_lt (Nat.lt_succ_of_le h)
  rw [ofLeBytes_leBytes, hn]

lemma mirrors_readI32Le (n : Int) :
    Mirrors (ε := String) readI32Le (.all (i32Bytes n)) (Int.bmod n (2 ^ 32)) := by
  refine .parse (length_leBytes 4 _) (by decide) ?_
  have hpos : 0 ≤ n % 2 ^ 32 := Int.emod_nonneg n (by decide)
  have hlt : (n % 2 ^ 32).toNat < 256 ^ 4 := by omega
  rw [i32Bytes, ofLeBytes_leBytes, Nat.mod_eq_of_lt hlt, Int.toNat_of_nonneg hpos]
  exact congrArg some (Int.emod_bmod n (2 ^ 32))

lemma mirrors_readStringAt {s : String} (h : Short s) :
    Mirrors (ε := String) (readStringAt (UInt16.ofNat (utf8 s).length).toNat) (.all (utf8 s))
      s := by
  have hlen : (UInt16.ofNat (utf8 s).length).toNat = (utf8 s).length :=
    Nat.mod_eq_of_lt (Nat.lt_succ_of_le h)
  rw [hlen]
  exact .parse rfl (le_trans h (by decide)) (fromUtf8_utf8 s)

lemma torn_readU16Le : Torn readU16Le [] := .parse _ (by decide) (by decide)

lemma mirrors_readLenPrefixedString (s : String) :
    Mirrors readLenPrefixedString (writeLenPrefixedStr s) s := by
  by_cases h : Short s
  · rw [writeLenPrefixedStr, if_neg (Nat.not_lt.mpr h)]
    exact (mirrors_readU16Le h).bind (mirrors_readStringAt h)
  · rw [writeLenPrefixedStr, if_pos (Nat.not_le.mp h)]
    exact .error tooLong s (torn_readU16Le.bind _)

lemma mirrors_readOptString (s : Option String) :
    Mirrors readOptString (writeLenPrefixedOptStr s) (s.filter (· ≠ "")) := by
  have hnone : Mirrors (ε := String) readOptString ((Written.all (leBytes 2 0)).andThen .done)
      none := by
    refine (mirrors_readU16Le (Nat.zero_le u16Max)).bind ?_
    rw [if_neg (by decide)]
    exact .pure none
  cases s with
  | none => rwa [Written.andThen_done] at hnone
  | some v =>
    by_cases h : Short v
    · rw [writeLenPrefixedOptStr, writeLenPrefixedStr, if_neg (Nat.not_lt.mpr h)]
      by_cases hempty : v = ""
      · have hlen : (utf8 v).length = 0 := length_utf8_eq_zero.mpr hempty
        rw [List.length_eq_zero_iff.mp hlen, Option.filter_some_neg (by simpa using hempty)]
        exact hnone
      · rw [Option.filter_some_pos (by simpa using hempty)]
        have hlen : (UInt16.ofNat (utf8 v).length).toNat = (utf8 v).length :=
          Nat.mod_eq_of_lt (Nat.lt_succ_of_le h)
        have hpos : UInt16.ofNat (utf8 v).length > 0 := by
          rw [gt_iff_lt, UInt16.lt_iff_toNat_lt, hlen]
          exact Nat.pos_of_ne_zero fun hzero => hempty (length_utf8_eq_zero.mp hzero)
        refine (mirrors_readU16Le h).bind ?_
        rw [if_pos hpos]
        exact (mirrors_readStringAt h).map some
    · rw [writeLenPrefixedOptStr, writeLenPrefixedStr, if_pos (Nat.not_le.mp h)]
      exact .error tooLong _ (torn_readU16Le.bind _)

lemma mirrors_readEntry (entry : HierarchyEntry) :
    Mirrors readEntry (writeEntry entry) entry.stored := by
  refine (mirrors_readLenPrefixedString entry.fullPath).bind ?_
  refine (mirrors_readOptString entry.moduleName).bind ?_
  refine (mirrors_readOptString entry.sigType).bind ?_
  refine (mirrors_readI32Le entry.level).bind ?_
  exact (mirrors_readI32Le entry.bitwidth).map _

end Verilua.Hierarchy
