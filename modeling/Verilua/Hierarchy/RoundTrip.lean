import Verilua.Hierarchy.Cache

/-!
# What is loaded from a saved hierarchy

Loading a saved cache gives the saved entries back unless the source is another one or was modified.
A save that was interrupted is loaded as nothing, as long as the number of entries fits into the 32
bits of the header.
-/

namespace Verilua.Hierarchy

open Codec

variable {entries es : List HierarchyEntry} {sourceMtime currentMtime : Option UInt64}
  {sourcePath currentSourcePath : Option String} {count : Nat}

/-! ### The header -/

@[simp] lemma length_fixedHeader (count : Nat) (sourceMtime : Option UInt64) :
    (fixedHeader count sourceMtime).length = hierarchyCacheFixedHeaderSize := by
  simp [fixedHeader, hierarchyCacheFixedHeaderSize]

section Header

variable (count : Nat) (sourceMtime : Option UInt64) (rest : List UInt8)

lemma magic_fixedHeader :
    ofLeBytes ((fixedHeader count sourceMtime ++ rest).extract 0 4) = hierarchyCacheMagic := by
  have hext :
      (fixedHeader count sourceMtime ++ rest).extract 0 4 = leBytes 4 hierarchyCacheMagic := by
    simp [fixedHeader]
  rw [hext, ofLeBytes_leBytes]
  decide

lemma mtime_fixedHeader :
    UInt64.ofNat (ofLeBytes ((fixedHeader count sourceMtime ++ rest).extract 4 12)) =
      sourceMtime.getD u64Max := by
  have hext : (fixedHeader count sourceMtime ++ rest).extract 4 12 =
      leBytes 8 (sourceMtime.getD u64Max).toNat := by
    simp [fixedHeader]
  have hlt : (sourceMtime.getD u64Max).toNat < 256 ^ 8 := UInt64.toNat_lt _
  rw [hext, ofLeBytes_leBytes, Nat.mod_eq_of_lt hlt, UInt64.ofNat_toNat]

lemma count_fixedHeader :
    ofLeBytes ((fixedHeader count sourceMtime ++ rest).extract 12 16) = count % 2 ^ 32 := by
  have hext : (fixedHeader count sourceMtime ++ rest).extract 12 16 = leBytes 4 count := by
    simp [fixedHeader, List.take_append, List.drop_append]
  rw [hext]
  exact ofLeBytes_leBytes 4 count

lemma tryLoadCache_fixedHeader (currentMtime : Option UInt64) (currentSourcePath : Option String)
    (hlen : (fixedHeader count sourceMtime ++ rest).length ≤ isizeMax) :
    tryLoadCache (some (fixedHeader count sourceMtime ++ rest)) currentMtime currentSourcePath =
      (readBody (sourceMtime.getD u64Max) (count % 2 ^ 32) currentMtime currentSourcePath
        (fixedHeader count sourceMtime ++ rest) (fixedHeader count sourceMtime).length >>= fun x =>
          .value x.1) := by
  have hheader :
      hierarchyCacheFixedHeaderSize ≤ (fixedHeader count sourceMtime ++ rest).length := by
    simp
  rw [tryLoadCache_of_header hlen hheader, if_neg (not_not.mpr (magic_fixedHeader _ _ _)), loadBody,
    mtime_fixedHeader, count_fixedHeader, length_fixedHeader]

end Header

/-! ### The entries -/

/-- The save of a list under a number of entries that may not be its length. -/
def saved (count : Nat) (es : List HierarchyEntry) (sourceMtime : Option UInt64)
    (sourcePath : Option String) : Write :=
  Written.andThen (.all (fixedHeader count sourceMtime)) <|
  (writeLenPrefixedStr (sourcePath.getD "")).andThen <|
  .each writeEntry es

lemma saveCache_eq_saved (entries : List HierarchyEntry) (sourceMtime : Option UInt64)
    (sourcePath : Option String) :
    saveCache entries sourceMtime sourcePath =
      saved entries.length entries sourceMtime sourcePath := rfl

lemma saved_items (count : Nat) (es : List HierarchyEntry) (sourceMtime : Option UInt64)
    (sourcePath : Option String) :
    (saved count es sourceMtime sourcePath).items = fixedHeader count sourceMtime ++
      ((writeLenPrefixedStr (sourcePath.getD "")).andThen (.each writeEntry es)).items := by
  rw [saved, Written.andThen_of_complete (Written.complete_all _)]
  rfl

lemma checkEntryCount_apply (entryCount : Nat) (data : List UInt8) (pos : Nat) :
    checkEntryCount entryCount data pos =
      if entryCount > (data.length - pos) / minEntryBytes then .fail else .value ((), pos) := by
  simp only [checkEntryCount, Reader.bind_apply, Reader.remaining, Outcome.value_bind]
  split <;> rfl

lemma two_le_writeLenPrefixedStr {s : String} (h : (writeLenPrefixedStr s).Complete) :
    2 ≤ (writeLenPrefixedStr s).items.length := by
  rw [complete_writeLenPrefixedStr] at h
  rw [writeLenPrefixedStr, if_neg (Nat.not_lt.mpr h),
    Written.andThen_of_complete (Written.complete_all _)]
  simp

lemma minEntryBytes_le_writeEntry {entry : HierarchyEntry} (h : (writeEntry entry).Complete) :
    minEntryBytes ≤ (writeEntry entry).items.length := by
  have hopt : ∀ {s : Option String}, (writeLenPrefixedOptStr s).Complete →
      2 ≤ (writeLenPrefixedOptStr s).items.length := by
    intro s hs
    cases s with
    | none => simp [writeLenPrefixedOptStr]
    | some v => exact two_le_writeLenPrefixedStr hs
  simp only [writeEntry, Written.complete_andThen, Written.complete_all, and_true] at h
  obtain ⟨hpath, hname, hsig⟩ := h
  have hints : ((Written.all (i32Bytes entry.level)).andThen
      (.all (i32Bytes entry.bitwidth)) : Write).items.length = 8 := by
    rw [Written.andThen_of_complete (Written.complete_all _)]
    simp [i32Bytes]
  rw [writeEntry, Written.andThen_of_complete hpath, Written.andThen_of_complete hname,
    Written.andThen_of_complete hsig]
  simp only [List.length_append, hints, minEntryBytes]
  have := two_le_writeLenPrefixedStr hpath
  have := hopt hname
  have := hopt hsig
  omega

lemma reads_entries (h : ∀ entry ∈ es, entry.Short) :
    Reads (checkEntryCount es.length >>= fun _ => Reader.times es.length readEntry)
      (Written.each writeEntry es).items (es.map HierarchyEntry.stored) := by
  have hdone : (Written.each writeEntry es).Complete :=
    Written.complete_each.mpr fun entry hmem => complete_writeEntry.mpr (h entry hmem)
  have hroom := Written.le_length_each hdone fun entry hmem =>
    minEntryBytes_le_writeEntry (complete_writeEntry.mpr (h entry hmem))
  intro before after hlen
  have hcheck : ¬es.length > ((before ++ ((Written.each writeEntry es).items ++ after)).length -
      before.length) / minEntryBytes := by
    rw [gt_iff_lt, Nat.not_lt, Nat.le_div_iff_mul_le (by decide), List.length_append,
      List.length_append]
    omega
  rw [Reader.bind_apply, checkEntryCount_apply, if_neg hcheck, Outcome.value_bind]
  exact (Mirrors.times mirrors_readEntry es).reads hdone before after hlen

lemma torn_entries {p : List UInt8} (hp : Cut (Written.each writeEntry es) p) :
    Torn (checkEntryCount es.length >>= fun _ => Reader.times es.length readEntry) p := by
  intro before hlen
  rw [Reader.bind_apply, checkEntryCount_apply]
  split
  · rfl
  · exact (Mirrors.times mirrors_readEntry es).torn p hp before hlen

/-! ### A save that was cut -/

/-- Nothing is loaded from a strict prefix, if the header holds the number of entries. -/
lemma tryLoadCache_torn (h : count % 2 ^ 32 = es.length) {p : List UInt8}
    (hp : Cut (saved count es sourceMtime sourcePath) p) (currentMtime : Option UInt64)
    (currentSourcePath : Option String) :
    tryLoadCache (some p) currentMtime currentSourcePath = .fail := by
  rcases hp.andThen with hheader | ⟨-, q, rfl, hq⟩
  · have hshort := hheader.length_lt
    rw [length_fixedHeader] at hshort
    exact tryLoadCache_of_short hshort _ _
  · by_cases hlen : (fixedHeader count sourceMtime ++ q).length ≤ isizeMax
    · have htorn : Torn (readBody (sourceMtime.getD u64Max) (count % 2 ^ 32) currentMtime
          currentSourcePath) q := by
        refine (mirrors_readLenPrefixedString (sourcePath.getD "")).bind_torn (fun q' hq' => ?_) hq
        split
        · exact .fail q'
        · split
          · exact .fail q'
          · rw [h]
            exact torn_entries hq'
      rw [Written.items_all, tryLoadCache_fixedHeader _ _ _ _ _ hlen,
        htorn (fixedHeader count sourceMtime) hlen, Outcome.fail_bind]
    · exact tryLoadCache_of_long (Nat.not_le.mp hlen) _ _

/-! ### A save that was completed -/

/-- The entries come back from a completed save, whatever follows it, unless the source differs. -/
lemma tryLoadCache_saved (h : count % 2 ^ 32 = es.length) (hshort : ∀ entry ∈ es, entry.Short)
    (hsource : Short (sourcePath.getD "")) (after : List UInt8)
    (hlen : ((saved count es sourceMtime sourcePath).items ++ after).length ≤ isizeMax)
    (currentMtime : Option UInt64) (currentSourcePath : Option String) :
    tryLoadCache (some ((saved count es sourceMtime sourcePath).items ++ after)) currentMtime
        currentSourcePath =
      if sourceMismatch (sourcePath.getD "") currentSourcePath ∨
          stale (sourceMtime.getD u64Max) currentMtime then .fail
      else .value (es.map HierarchyEntry.stored) := by
  have hsrc := mirrors_readLenPrefixedString (sourcePath.getD "")
  have hdone := complete_writeLenPrefixedStr.mpr hsource
  rw [saved_items, Written.andThen_of_complete hdone, List.append_assoc,
    List.append_assoc] at hlen ⊢
  rw [tryLoadCache_fixedHeader _ _ _ _ _ hlen, readBody, Reader.bind_apply,
    hsrc.reads hdone _ _ hlen, Outcome.value_bind]
  by_cases hmismatch : sourceMismatch (sourcePath.getD "") currentSourcePath
  · rw [if_pos hmismatch, if_pos (.inl hmismatch)]
    rfl
  · rw [if_neg hmismatch]
    by_cases hstale : stale (sourceMtime.getD u64Max) currentMtime
    · rw [if_pos hstale, if_pos (.inr hstale)]
      rfl
    · rw [if_neg hstale, if_neg (not_or.mpr ⟨hmismatch, hstale⟩), h]
      rw [← List.append_assoc] at hlen ⊢
      rw [reads_entries hshort _ after hlen, Outcome.value_bind]

/-! ### The length of a save -/

lemma length_writeLenPrefixedStr_le (s : String) :
    (writeLenPrefixedStr s).items.length ≤ 2 + u16Max := by
  by_cases h : Short s
  · rw [writeLenPrefixedStr, if_neg (Nat.not_lt.mpr h),
      Written.andThen_of_complete (Written.complete_all _)]
    simpa [Short] using h
  · rw [writeLenPrefixedStr, if_pos (Nat.not_le.mp h)]
    exact Nat.zero_le _

lemma length_writeLenPrefixedOptStr_le (s : Option String) :
    (writeLenPrefixedOptStr s).items.length ≤ 2 + u16Max := by
  cases s with
  | none => simp [writeLenPrefixedOptStr]
  | some v => exact length_writeLenPrefixedStr_le v

lemma length_writeEntry_le (entry : HierarchyEntry) :
    (writeEntry entry).items.length ≤ 3 * (2 + u16Max) + 8 := by
  have hpath := length_writeLenPrefixedStr_le entry.fullPath
  have hname := length_writeLenPrefixedOptStr_le entry.moduleName
  have hsig := length_writeLenPrefixedOptStr_le entry.sigType
  have hints := Written.length_andThen_le (ε := String) (.all (i32Bytes entry.level))
    (.all (i32Bytes entry.bitwidth))
  simp only [Written.items_all, i32Bytes, length_leBytes] at hints
  refine (Written.length_andThen_le _ _).trans ?_
  refine (Nat.add_le_add hpath (Written.length_andThen_le _ _)).trans ?_
  refine (Nat.add_le_add_left (Nat.add_le_add hname (Written.length_andThen_le _ _)) _).trans ?_
  simp only [i32Bytes]
  omega

lemma length_saved_le (count : Nat) (hes : es.length < 2 ^ 32) (sourceMtime : Option UInt64)
    (sourcePath : Option String) :
    (saved count es sourceMtime sourcePath).items.length ≤ isizeMax := by
  have hsource := length_writeLenPrefixedStr_le (sourcePath.getD "")
  have hentries := Written.length_each_le fun entry (_ : entry ∈ es) => length_writeEntry_le entry
  have hbody := Written.length_andThen_le (writeLenPrefixedStr (sourcePath.getD ""))
    (.each writeEntry es)
  rw [saved_items, List.length_append, length_fixedHeader]
  simp only [hierarchyCacheFixedHeaderSize, u16Max, isizeMax] at *
  omega

/-! ### Interrupted saves -/

/-- A save that stops, at a string that is too long, before it writes anything behind its first
`count` entries. -/
def StopsBy (entries : List HierarchyEntry) (sourcePath : Option String) (count : Nat) : Prop :=
  ¬Short (sourcePath.getD "") ∨ (∃ entry ∈ entries.take count, ¬entry.Short) ∨
    ∃ entry, entries[count]? = some entry ∧ ¬Short entry.fullPath

lemma each_writeEntry_split (entries : List HierarchyEntry) (k : Nat) :
    Written.each writeEntry entries =
      (Written.each writeEntry (entries.take k)).andThen (.each writeEntry (entries.drop k)) := by
  rw [← Written.each_append, List.take_append_drop]

/-- Such a save leaves what a save of the first entries leaves. -/
lemma saveCache_items_of_stopsBy {k : Nat} (h : StopsBy entries sourcePath k) :
    (saveCache entries sourceMtime sourcePath).items =
      (saved entries.length (entries.take k) sourceMtime sourcePath).items := by
  rw [saveCache_eq_saved, saved_items, saved_items, each_writeEntry_split entries k]
  congr 1
  rcases h with hsource | ⟨entry, hmem, hlong⟩ | ⟨entry, hget, hlong⟩
  · have hno : ¬(writeLenPrefixedStr (sourcePath.getD "")).Complete :=
      fun hdone => hsource (complete_writeLenPrefixedStr.mp hdone)
    rw [Written.andThen_of_not_complete hno, Written.andThen_of_not_complete hno]
  · have hno : ¬(Written.each writeEntry (entries.take k)).Complete := fun hdone =>
      hlong (complete_writeEntry.mp (Written.complete_each.mp hdone entry hmem))
    rw [Written.andThen_of_not_complete hno]
  · obtain ⟨hk, hget⟩ := List.getElem?_eq_some_iff.mp hget
    have hstr : writeLenPrefixedStr entry.fullPath = .error tooLong := if_pos (Nat.not_le.mp hlong)
    have hentry : writeEntry entry = .error tooLong := by
      rw [writeEntry, hstr]
      rfl
    have hrest : Written.each writeEntry (entries.drop k) = .error tooLong := by
      rw [List.drop_eq_getElem_cons hk, hget, Written.each, hentry]
      rfl
    rw [hrest]
    by_cases hsource : (writeLenPrefixedStr (sourcePath.getD "")).Complete
    · rw [Written.andThen_of_complete hsource, Written.andThen_of_complete hsource,
        Written.items_andThen_error]
    · rw [Written.andThen_of_not_complete hsource, Written.andThen_of_not_complete hsource]

/-- Cut anywhere, a save is loaded as nothing if the header holds the number of entries, or if
nothing was written behind the entries that it holds. -/
lemma tryLoadCache_saveCache_cut
    (h : entries.length < 2 ^ 32 ∨ StopsBy entries sourcePath (entries.length % 2 ^ 32))
    {p : List UInt8} (hp : p <+: (saveCache entries sourceMtime sourcePath).items)
    (hne : p ≠ (saveCache entries sourceMtime sourcePath).items) (currentMtime : Option UInt64)
    (currentSourcePath : Option String) :
    tryLoadCache (some p) currentMtime currentSourcePath = .fail := by
  rcases h with hlt | hstop
  · exact tryLoadCache_torn (Nat.mod_eq_of_lt hlt) ⟨hp, fun _ => hne⟩ _ _
  · rw [saveCache_items_of_stopsBy hstop] at hp hne
    have hle : entries.length % 2 ^ 32 ≤ entries.length := Nat.mod_le _ _
    have hcount : entries.length % 2 ^ 32 = (entries.take (entries.length % 2 ^ 32)).length := by
      rw [List.length_take, min_eq_left hle]
    exact tryLoadCache_torn hcount ⟨hp, fun _ => hne⟩ _ _

/-! ### What comes back -/

lemma sourceMismatch_self (sourcePath : Option String) :
    sourceMismatch (sourcePath.getD "") sourcePath = false := by
  cases sourcePath <;> simp [sourceMismatch]

lemma stale_self (sourceMtime : Option UInt64) :
    stale (sourceMtime.getD u64Max) sourceMtime = false := by
  cases sourceMtime <;> simp [stale]

/-- From `2 ^ 32` entries on, a save that was cut behind the entries that the header holds is loaded
as these. -/
lemma exists_cut_loaded (h : 2 ^ 32 ≤ entries.length)
    (hgoes : ¬StopsBy entries sourcePath (entries.length % 2 ^ 32)) :
    ∃ p, p <+: (saveCache entries sourceMtime sourcePath).items ∧
      p ≠ (saveCache entries sourceMtime sourcePath).items ∧
      tryLoadCache (some p) sourceMtime sourcePath =
        .value ((entries.take (entries.length % 2 ^ 32)).map HierarchyEntry.stored) := by
  set k := entries.length % 2 ^ 32 with hk
  have hlt : k < 2 ^ 32 := Nat.mod_lt _ (by decide)
  obtain ⟨hsource, hgoes⟩ := not_or.mp hgoes
  obtain ⟨htake, hnext⟩ := not_or.mp hgoes
  have hin : k < entries.length := by omega
  have hlen : (entries.take k).length = k := by
    rw [List.length_take, min_eq_left hin.le]
  have hshort : ∀ entry ∈ entries.take k, entry.Short := fun entry hmem =>
    by_contra fun hlong => htake ⟨entry, hmem, hlong⟩
  have hpath : Short entries[k].fullPath := by_contra fun hlong =>
    hnext ⟨entries[k], List.getElem?_eq_getElem hin, hlong⟩
  have hdone : (Written.each writeEntry (entries.take k)).Complete :=
    Written.complete_each.mpr fun entry hmem => complete_writeEntry.mpr (hshort entry hmem)
  -- Behind the first entries, at least the length of the next path is written.
  have hmore : 2 ≤ (Written.each writeEntry (entries.drop k)).items.length := by
    have hfirst := two_le_writeLenPrefixedStr (complete_writeLenPrefixedStr.mpr hpath)
    have hentry : (writeLenPrefixedStr entries[k].fullPath).items.length ≤
        (writeEntry entries[k]).items.length := (Written.prefix_andThen _ _).length_le
    rw [List.drop_eq_getElem_cons hin, Written.each]
    exact hfirst.trans (hentry.trans (Written.prefix_andThen _ _).length_le)
  have hitems : (saveCache entries sourceMtime sourcePath).items =
      (saved entries.length (entries.take k) sourceMtime sourcePath).items ++
        (Written.each writeEntry (entries.drop k)).items := by
    have hwritten := complete_writeLenPrefixedStr.mpr (not_not.mp hsource)
    rw [saveCache_eq_saved, saved_items, saved_items, each_writeEntry_split entries k,
      Written.andThen_of_complete hwritten,
      Written.andThen_of_complete hwritten, Written.andThen_of_complete hdone]
    simp only [List.append_assoc]
  refine ⟨(saved entries.length (entries.take k) sourceMtime sourcePath).items, ?_, ?_, ?_⟩
  · rw [hitems]
    exact List.prefix_append _ _
  · rw [hitems]
    intro heq
    have := congrArg List.length heq
    rw [List.length_append] at this
    omega
  · have hroom := length_saved_le entries.length (by rw [hlen]; exact hlt)
      sourceMtime sourcePath
    have hload := tryLoadCache_saved (hk.symm.trans hlen.symm) hshort
      (not_not.mp hsource) [] (by rwa [List.append_nil]) sourceMtime sourcePath

    rw [List.append_nil] at hload
    rw [hload, sourceMismatch_self, stale_self]
    simp

/-- An entry that comes back as it was. -/
structure HierarchyEntry.Fits (entry : HierarchyEntry) : Prop where
  short : entry.Short
  moduleName : entry.moduleName ≠ some ""
  sigType : entry.sigType ≠ some ""
  level : I32 entry.level
  bitwidth : I32 entry.bitwidth

lemma bmod_of_i32 {n : Int} (h : I32 n) : Int.bmod n (2 ^ 32) = n :=
  Int.bmod_eq_of_le (by simpa using h.1) (by simpa using h.2)

lemma filter_ne_empty {s : Option String} (h : s ≠ some "") : s.filter (· ≠ "") = s := by
  cases s with
  | none => rfl
  | some v => exact Option.filter_some_pos (by simpa using h)

lemma HierarchyEntry.Fits.stored_eq {entry : HierarchyEntry} (h : entry.Fits) :
    entry.stored = entry := by
  simp only [HierarchyEntry.stored, filter_ne_empty h.moduleName, filter_ne_empty h.sigType,
    bmod_of_i32 h.level, bmod_of_i32 h.bitwidth]

/-- The cache was saved for another source, or for another state of it, and both are known: a path
that is not empty, and a time that is not the mark of an unknown one. -/
def SourceDiffers (sourceMtime : Option UInt64) (sourcePath : Option String)
    (currentMtime : Option UInt64) (currentSourcePath : Option String) : Prop :=
  (∃ saved current, sourcePath = some saved ∧ currentSourcePath = some current ∧ saved ≠ "" ∧
    current ≠ "" ∧ saved ≠ current) ∨
  ∃ saved current, sourceMtime = some saved ∧ currentMtime = some current ∧ saved ≠ u64Max ∧
    saved ≠ current

lemma sourceMismatch_or_stale_iff : (sourceMismatch (sourcePath.getD "") currentSourcePath ∨
    stale (sourceMtime.getD u64Max) currentMtime) ↔
      SourceDiffers sourceMtime sourcePath currentMtime currentSourcePath := by
  refine or_congr ?_ ?_
  · cases sourcePath <;> cases currentSourcePath <;> simp [sourceMismatch]
  · cases sourceMtime <;> cases currentMtime <;> simp [stale]

lemma tryLoadCache_saveCache (hlen : entries.length < 2 ^ 32)
    (hfits : ∀ entry ∈ entries, entry.Fits) (sourceMtime : Option UInt64)
    (sourcePath : Option String) (hsource : Short (sourcePath.getD ""))
    (currentMtime : Option UInt64) (currentSourcePath : Option String) :
    tryLoadCache (some (saveCache entries sourceMtime sourcePath).items) currentMtime
        currentSourcePath =
      if sourceMismatch (sourcePath.getD "") currentSourcePath ∨
          stale (sourceMtime.getD u64Max) currentMtime then .fail else .value entries := by
  have hstored : entries.map HierarchyEntry.stored = entries := by
    conv_rhs => rw [← List.map_id entries]
    exact List.map_congr_left fun entry hmem => (hfits entry hmem).stored_eq
  have hroom := length_saved_le entries.length hlen sourceMtime sourcePath
  have h := tryLoadCache_saved (Nat.mod_eq_of_lt hlen) (fun entry hmem => (hfits entry hmem).short)
    hsource [] (by simpa using hroom) currentMtime currentSourcePath
  rwa [List.append_nil, hstored] at h

/-- Entries that fit come back from a save, in order, unless the source differs. Whatever is
in the file, loading comes to an end without a panic. -/
theorem saveCache_roundTrip (entries : List HierarchyEntry) (sourceMtime : Option UInt64)
    (sourcePath : Option String) (hlen : entries.length < 2 ^ 32)
    (hfits : ∀ entry ∈ entries, entry.Fits) (hsource : Short (sourcePath.getD "")) :
    (saveCache entries sourceMtime sourcePath).Complete ∧
      tryLoadCache (some (saveCache entries sourceMtime sourcePath).items) sourceMtime sourcePath =
        .value entries ∧
      (∀ currentMtime currentSourcePath,
        (SourceDiffers sourceMtime sourcePath currentMtime currentSourcePath →
          tryLoadCache (some (saveCache entries sourceMtime sourcePath).items) currentMtime
            currentSourcePath = .fail) ∧
        (¬SourceDiffers sourceMtime sourcePath currentMtime currentSourcePath →
          tryLoadCache (some (saveCache entries sourceMtime sourcePath).items) currentMtime
            currentSourcePath = .value entries)) ∧
      ∀ file currentMtime currentSourcePath,
        tryLoadCache file currentMtime currentSourcePath ≠ .panic := by
  have hload := tryLoadCache_saveCache hlen hfits sourceMtime sourcePath hsource
  refine ⟨?_, ?_, ?_, tryLoadCache_ne_panic⟩
  · rw [saveCache, Written.complete_andThen, Written.complete_andThen, Written.complete_each]
    exact ⟨rfl, complete_writeLenPrefixedStr.mpr hsource, fun entry hmem =>
      complete_writeEntry.mpr (hfits entry hmem).short⟩
  · rw [hload, sourceMismatch_self, stale_self]
    simp
  · intro currentMtime currentSourcePath
    rw [hload, ← sourceMismatch_or_stale_iff]
    exact ⟨fun h => if_pos h, fun h => if_neg h⟩

/-- The hierarchy of the tests of the source. -/
def makeEntries : List HierarchyEntry := [
  { fullPath := "tb_top", moduleName := none, sigType := none, level := 0, bitwidth := -1 },
  { fullPath := "tb_top.u_top", moduleName := some "TopMod", sigType := none, level := 1,
    bitwidth := -1 },
  { fullPath := "tb_top.u_top.clk", moduleName := none, sigType := some "wire", level := 2,
    bitwidth := 1 },
  { fullPath := "tb_top.u_top.data", moduleName := none, sigType := some "reg", level := 2,
    bitwidth := 32 }]

lemma fits_makeEntries : ∀ entry ∈ makeEntries, entry.Fits := by
  intro entry hmem
  simp only [makeEntries, List.mem_cons, List.not_mem_nil, or_false] at hmem
  rcases hmem with rfl | rfl | rfl | rfl
  all_goals
    refine ⟨⟨?_, ?_, ?_⟩, by simp, by simp, by simp [I32], by simp [I32]⟩
    all_goals
      simp only [Short, Option.mem_def, Option.some.injEq, reduceCtorEq, false_implies,
        implies_true, forall_eq']
      try decide

lemma short_testPath : Short "/test/sim.fst" := by
  unfold Short
  decide

theorem saveCache_roundTrip_makeEntries :
    tryLoadCache
        (some (saveCache makeEntries (some 1710000000) (some "/test/sim.fst")).items)
        (some 1710000000) (some "/test/sim.fst") = .value makeEntries :=
  (saveCache_roundTrip makeEntries (some 1710000000) (some "/test/sim.fst") (by decide)
    fits_makeEntries short_testPath).2.1

lemma length_utf8_replicate (n : Nat) :
    (utf8 (String.ofList (List.replicate n 'a'))).length = n := by
  change (String.ofList (List.replicate n 'a')).utf8ByteSize = n
  induction n with
  | zero => rfl
  | succ n ih =>
    have ha : (String.singleton 'a').utf8ByteSize = 1 := rfl
    rw [List.replicate_succ, String.ofList_cons, String.utf8ByteSize_append, ih, ha, Nat.add_comm]

/-- A cache of an unknown time, or of an unknown source, is loaded whatever the time or the source
is, and a path of `2 ^ 16` bytes cannot be saved. -/
theorem saveCache_unknown_source :
    tryLoadCache (some (saveCache makeEntries none (some "/test/sim.fst")).items)
        (some 1710000000) (some "/test/sim.fst") = .value makeEntries ∧
      tryLoadCache (some (saveCache makeEntries (some 999) none).items) (some 999)
        (some "/test/sim.fst") = .value makeEntries ∧
      tryLoadCache
        (some (saveCache makeEntries (some 999)
          (some (String.ofList (List.replicate (2 ^ 16) 'a')))).items)
        (some 999) (some (String.ofList (List.replicate (2 ^ 16) 'a'))) = .fail := by
  have hempty : Short "" := Nat.zero_le _
  refine ⟨?_, ?_, ?_⟩
  · rw [tryLoadCache_saveCache (by decide) fits_makeEntries none (some "/test/sim.fst")
      short_testPath]
    simp [sourceMismatch, stale]
  · rw [tryLoadCache_saveCache (by decide) fits_makeEntries (some 999) none hempty]
    simp [sourceMismatch, stale]
  · set path := String.ofList (List.replicate (2 ^ 16) 'a') with hpath
    have hlong : ¬Short ((some path).getD "") := by
      rw [Option.getD_some, Short, hpath, length_utf8_replicate]
      decide
    have hno : ¬(saveCache makeEntries (some 999) (some path)).Complete := by
      rw [saveCache, Written.complete_andThen, Written.complete_andThen,
        complete_writeLenPrefixedStr]
      exact fun hdone => hlong hdone.2.1
    exact tryLoadCache_torn (by decide) ⟨List.prefix_refl _, fun hdone => (hno hdone).elim⟩ _ _

/-- Every strict prefix of a save is loaded as nothing, whatever the source is then, if and only if
the header holds the number of entries or the save stopped before it had more to write. -/
theorem saveCache_cut_iff (entries : List HierarchyEntry) (sourceMtime : Option UInt64)
    (sourcePath : Option String) :
    (∀ p, p <+: (saveCache entries sourceMtime sourcePath).items →
        p ≠ (saveCache entries sourceMtime sourcePath).items →
        ∀ currentMtime currentSourcePath,
          tryLoadCache (some p) currentMtime currentSourcePath = .fail) ↔
      entries.length < 2 ^ 32 ∨ StopsBy entries sourcePath (entries.length % 2 ^ 32) := by
  constructor
  · intro h
    by_contra hno
    obtain ⟨hlen, hgoes⟩ := not_or.mp hno
    obtain ⟨p, hp, hne, hload⟩ :=
      exists_cut_loaded (Nat.not_lt.mp hlen) hgoes
    rw [h p hp hne] at hload
    cases hload
  · intro h p hp hne currentMtime currentSourcePath
    exact tryLoadCache_saveCache_cut h hp hne currentMtime currentSourcePath

/-- Wires of one bit under a top module. -/
def wires (n : Nat) : List HierarchyEntry :=
  (List.range n).map fun i =>
    { fullPath := "tb.w" ++ toString i, moduleName := none, sigType := some "wire", level := 1,
      bitwidth := 1 }

lemma length_wires (n : Nat) : (wires n).length = n := by
  rw [wires, List.length_map, List.length_range]

lemma not_stopsBy_wires (n : Nat) (hn : 0 < n) (sourcePath : Option String)
    (hsource : Short (sourcePath.getD "")) : ¬StopsBy (wires n) sourcePath 0 := by
  have hfirst : (wires n)[0]? = some
      { fullPath := "tb.w0", moduleName := none, sigType := some "wire", level := 1,
        bitwidth := 1 } := by
    rw [wires, List.getElem?_map, List.getElem?_range hn]
    rfl
  have hpath : Short "tb.w0" := by unfold Short; decide
  rintro (hlong | ⟨entry, hmem, -⟩ | ⟨entry, hget, hlong⟩)
  · exact hlong hsource
  · simp at hmem
  · rw [hfirst] at hget
    obtain rfl := Option.some.inj hget
    exact hlong hpath

/-- A save of `2 ^ 32` wires that is interrupted behind the header is loaded as an empty list. -/
theorem saveCache_cut_wires :
    ∃ p, p <+: (saveCache (wires (2 ^ 32)) (some 1710000000) (some "/test/sim.fst")).items ∧
      p ≠ (saveCache (wires (2 ^ 32)) (some 1710000000) (some "/test/sim.fst")).items ∧
      tryLoadCache (some p) (some 1710000000) (some "/test/sim.fst") = .value [] := by
  have hsource : Short ((some "/test/sim.fst").getD "") := by
    unfold Short
    decide
  have hmod : (wires (2 ^ 32)).length % 2 ^ 32 = 0 := by rw [length_wires, Nat.mod_self]
  have hgoes : ¬StopsBy (wires (2 ^ 32)) (some "/test/sim.fst")
      ((wires (2 ^ 32)).length % 2 ^ 32) := by
    rw [hmod]
    exact not_stopsBy_wires _ (Nat.two_pow_pos 32) _ hsource
  obtain ⟨p, hp, hne, hload⟩ := exists_cut_loaded
    (length_wires (2 ^ 32)).ge hgoes
  rw [hmod] at hload
  exact ⟨p, hp, hne, hload⟩

end Verilua.Hierarchy
