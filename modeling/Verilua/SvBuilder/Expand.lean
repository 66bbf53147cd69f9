import Verilua.SvBuilder.Basic

/-!
# What the template engine makes of references

An expression without lines of Lua and without other `$(..)` is text with references. The rewriting
replaces the colon of every namespace by a dot and nothing else, and the engine then puts the
printed value of every reference in its place.
-/

namespace Verilua.SVBuilder

variable {ns t w rest : Text} {s : Scan}

/-! ### Expressions -/

/-- What stands between the brackets of a reference. -/
def Ref.written : Ref → Text
  | .var name => name
  | .seq name => seqNs ++ ':' :: name
  | .prop name => propNs ++ ':' :: name

/-- What is left there when the sequences have been rewritten. -/
def Ref.half : Ref → Text
  | .var name => name
  | .seq name => seqNs ++ '.' :: name
  | .prop name => propNs ++ ':' :: name

/-- The Lua expression of a reference. -/
def Ref.code : Ref → Text
  | .var name => name
  | .seq name => seqNs ++ '.' :: name
  | .prop name => propNs ++ '.' :: name

/-- A dollar and brackets. -/
def inline (code : Text) : Text := '$' :: '(' :: (code ++ [')'])

/-- The names are ones that Lua looks up in the environment. -/
def Ref.Valid : Ref → Prop
  | .var name => isLuaName name = true ∧ name ∉ templateLocals ∧ name ≠ seqNs ∧ name ≠ propNs
  | .seq name | .prop name => isLuaName name = true

/-- A `$(` stands in the text. -/
def hasRef : Text → Bool
  | [] => false
  | c :: cs => c == '$' && cs.head? == some '(' || hasRef cs

/-- A text, and references with the text behind each. -/
structure Expr where
  head : Text
  refs : List (Ref × Text)

namespace Expr

def spellRefs (f : Ref → Text) (refs : List (Ref × Text)) : Text :=
  refs.flatMap fun x => inline (f x.1) ++ x.2

/-- The text, with `f` between the brackets of the references. -/
def spellWith (f : Ref → Text) (e : Expr) : Text := e.head ++ spellRefs f e.refs

/-- The text as it is written. -/
def spell (e : Expr) : Text := e.spellWith Ref.written

structure Valid (e : Expr) : Prop where
  head : hasRef e.head = false
  refs : ∀ x ∈ e.refs, x.1.Valid ∧ hasRef x.2 = false

def printedRefs (print : Ref → Option Text) : List (Ref × Text) → Option Text
  | [] => some []
  | (r, t) :: refs => do
    let value ← print r
    let more ← printedRefs print refs
    return value ++ (t ++ more)

/-- The text, with every reference replaced by its printed value. -/
def printed (print : Ref → Option Text) (e : Expr) : Option Text :=
  (printedRefs print e.refs).map (e.head ++ ·)

end Expr

/-! ### Names -/

lemma mem_of_isLuaName {name : Text} (h : isLuaName name = true) {c : Char} (hc : c ∈ name) :
    c.isAlphanum = true ∨ c = '_' := by
  simp only [isLuaName, Bool.and_eq_true, List.all_eq_true, Bool.or_eq_true, beq_iff_eq] at h
  exact h.1.2 c hc

lemma not_mem_of_isLuaName {name : Text} (h : isLuaName name = true) {c : Char}
    (hc : (c.isAlphanum || c == '_') = false) : c ∉ name := by
  intro hmem
  simp only [Bool.or_eq_false_iff, beq_eq_false_iff_ne] at hc
  rcases mem_of_isLuaName h hmem with halnum | heq
  · rw [hc.1] at halnum
    cases halnum
  · exact hc.2 heq

lemma trim_of_all (h : ∀ c ∈ t, isSpace c = false) : trim t = t := by
  have hdrop : ∀ l : Text, (∀ c ∈ l, isSpace c = false) → l.dropWhile isSpace = l := by
    intro l hl
    cases l with
    | nil => rfl
    | cons c cs => exact List.dropWhile_cons_of_neg (by simp [hl c List.mem_cons_self])
  rw [trim, hdrop t h, hdrop _ fun c hc => h c (List.mem_reverse.mp hc), List.reverse_reverse]

lemma le_toNat_of_isDigit {c : Char} (h : c.isDigit = true) : 48 ≤ c.toNat ∧ c.toNat ≤ 57 := by
  change (decide ('0'.val ≤ c.val) && decide (c.val ≤ '9'.val)) = true at h
  rw [Bool.and_eq_true, decide_eq_true_eq, decide_eq_true_eq] at h
  exact h

lemma le_toNat_of_isAlpha {c : Char} (h : c.isAlpha = true) : 65 ≤ c.toNat := by
  change (decide ('A'.val ≤ c.val ∧ c.val ≤ 'Z'.val) ||
    (decide ('a'.val ≤ c.val) && decide (c.val ≤ 'z'.val))) = true at h
  rw [Bool.or_eq_true, Bool.and_eq_true, decide_eq_true_eq, decide_eq_true_eq] at h
  rcases h with hupper | hlower
  · exact hupper.1
  · exact le_trans (by decide) hlower.1

lemma le_toNat_of_isAlphanum {c : Char} (h : c.isAlphanum = true ∨ c = '_') : 48 ≤ c.toNat := by
  rcases h with h | rfl
  · rcases Bool.or_eq_true _ _ ▸ h with halpha | hdigit
    · exact le_trans (by decide) (le_toNat_of_isAlpha halpha)
    · exact (le_toNat_of_isDigit hdigit).1
  · decide

lemma isSpace_of_lt {c : Char} (h : 32 < c.toNat) : isSpace c = false := by
  have hne : c ≠ ' ' := by
    rintro rfl
    exact absurd h (by decide)
  have hlt : ¬ c.toNat ≤ 13 := by omega
  simp [isSpace, hne, hlt]

lemma isSpace_of_isLuaName {name : Text} (h : isLuaName name = true) :
    ∀ c ∈ name, isSpace c = false :=
  fun _ hc => isSpace_of_lt (le_trans (by decide) (le_toNat_of_isAlphanum (mem_of_isLuaName h hc)))

lemma refOf_code {r : Ref} (h : r.Valid) : refOf r.code = some r := by
  have hdot : ∀ (ns name : Text), isLuaName (ns ++ '.' :: name) = false := by
    intro ns name
    by_contra hname
    refine not_mem_of_isLuaName (c := '.') (Bool.not_eq_false _ ▸ hname) (by decide) ?_
    exact List.mem_append_right _ List.mem_cons_self
  have htrim : ∀ (ns : Text) {name : Text}, ns.all (!isSpace ·) = true → isLuaName name = true →
      trim (ns ++ '.' :: name) = ns ++ '.' :: name := by
    intro ns name hns hname
    apply trim_of_all
    intro c hc
    rcases List.mem_append.mp hc with hc | hc
    · exact Bool.not_eq_true' _ ▸ List.all_eq_true.mp hns c hc
    · rcases List.mem_cons.mp hc with rfl | hc
      · decide
      · exact isSpace_of_isLuaName hname c hc
  cases r with
  | var name =>
    obtain ⟨hname, hlocal, hseq, hprop⟩ := h
    simp only [refOf, Ref.code, trim_of_all (isSpace_of_isLuaName hname), hname, if_true]
    simp [hlocal, hseq, hprop]
  | seq name =>
    have hname : isLuaName name = true := h
    simp only [refOf, Ref.code, htrim seqNs (by decide) hname, hdot]
    rw [if_neg Bool.false_ne_true, if_pos]
    · rfl
    · exact ⟨by simp [seqNs], hname⟩
  | prop name =>
    have hname : isLuaName name = true := h
    simp only [refOf, Ref.code, htrim propNs (by decide) hname, hdot]
    rw [if_neg Bool.false_ne_true, if_neg, if_pos]
    · rfl
    · exact ⟨by simp [propNs], hname⟩
    · rintro ⟨hpre, -⟩
      simp [seqNs, propNs] at hpre

/-! ### The rewriting -/

lemma rewriteNs_of_not_mem (h : ':' ∉ w) (s : Scan) (rest : Text) :
    rewriteNs ns s (w ++ rest) = w ++ rewriteNs ns (w.foldl (Scan.next ns) s) rest := by
  induction w generalizing s with
  | nil => rfl
  | cons c w ih =>
    obtain ⟨hc, hw⟩ := not_or.mp (mt List.mem_cons.mpr h)
    rw [List.cons_append, rewriteNs, if_neg fun hcolon => hc hcolon.2.symm, ih hw]
    rfl

/-- Outside a reference, a dollar at the end apart. -/
def Scan.Free (s : Scan) : Prop := s = .outside ∨ s = .dollar

lemma rewriteNs_text (ns : Text) (hs : s.Free) (ht : hasRef t = false)
    (hstart : s = .dollar → t.head? ≠ some '(') :
    ∃ s' : Scan, s'.Free ∧ ∀ rest, rewriteNs ns s (t ++ rest) = t ++ rewriteNs ns s' rest := by
  induction t generalizing s with
  | nil => exact ⟨s, hs, fun rest => rfl⟩
  | cons c t ih =>
    simp only [hasRef, Bool.or_eq_false_iff, Bool.and_eq_false_iff, beq_eq_false_iff_ne] at ht
    obtain ⟨hc, ht⟩ := ht
    have hnext : s.next ns c = .start c := by
      rcases hs with rfl | rfl
      · rfl
      · have hne : c ≠ '(' := fun heq => hstart rfl (by rw [heq]; rfl)
        rw [Scan.next, if_neg hne]
    have hkeep : ¬ (s = .opened [] ∧ c = ':') := by
      rintro ⟨rfl, -⟩
      rcases hs with h | h <;> cases h
    have hfree : (Scan.start c).Free := by
      rw [Scan.start]
      split_ifs
      · exact .inr rfl
      · exact .inl rfl
    have hdollar : Scan.start c = .dollar → t.head? ≠ some '(' := by
      intro hstart
      rw [Scan.start] at hstart
      split_ifs at hstart with heq
      exact hc.resolve_left fun hne => hne heq
    obtain ⟨s', hs', hrun⟩ := ih hfree ht hdollar
    refine ⟨s', hs', fun rest => ?_⟩
    rw [List.cons_append, rewriteNs, if_neg hkeep, hnext, hrun, List.cons_append]

/-- Behind a bracket, as long as no dollar is read. -/
def Scan.Within (ns : Text) (s : Scan) : Prop := s = .outside ∨ ∃ r, r <:+ ns ∧ s = .opened r

lemma Scan.Within.next {c : Char} (hs : s.Within ns) (hc : c ≠ '$') : (s.next ns c).Within ns := by
  have hstart : Scan.start c = .outside := if_neg hc
  rcases hs with rfl | ⟨r, hr, rfl⟩
  · exact .inl hstart
  · cases r with
    | nil => exact .inl hstart
    | cons n r =>
      rw [Scan.next]
      split_ifs
      · exact .inr ⟨r, (List.suffix_cons n r).trans hr, rfl⟩
      · exact .inr ⟨ns, List.suffix_rfl, rfl⟩
      · exact .inl hstart

lemma Scan.Within.foldl (hs : s.Within ns) (hw : '$' ∉ w) :
    (w.foldl (Scan.next ns) s).Within ns := by
  induction w generalizing s with
  | nil => exact hs
  | cons c w ih =>
    obtain ⟨hc, hw⟩ := not_or.mp (mt List.mem_cons.mpr hw)
    exact ih (hs.next (Ne.symm hc)) hw

lemma Scan.Within.close (hs : s.Within ns) (hns : ')' ∉ ns) : s.next ns ')' = .outside := by
  rcases hs with rfl | ⟨r, hr, rfl⟩
  · rfl
  · cases r with
    | nil => rfl
    | cons n r =>
      have hn : ')' ≠ n := by
        rintro rfl
        exact hns (hr.subset List.mem_cons_self)
      rw [Scan.next, if_neg hn, if_neg fun h => absurd h.1 (by decide)]
      rfl

lemma rewriteNs_close (hns : ')' ∉ ns) (hs : s.Within ns) (hw : '$' ∉ w) (hcolon : ':' ∉ w)
    (rest : Text) :
    rewriteNs ns s (w ++ ')' :: rest) = w ++ ')' :: rewriteNs ns .outside rest := by
  rw [rewriteNs_of_not_mem hcolon, rewriteNs, if_neg (by simp), (hs.foldl hw).close hns]

lemma rewriteNs_inline {w' : Text} (hs : s.Free)
    (h : ∀ rest, rewriteNs ns (.opened ns) (w ++ ')' :: rest) =
      w' ++ ')' :: rewriteNs ns .outside rest) (rest : Text) :
    rewriteNs ns s (inline w ++ rest) = inline w' ++ rewriteNs ns .outside rest := by
  have hopen : ∀ rest, rewriteNs ns s ('$' :: '(' :: rest) =
      '$' :: '(' :: rewriteNs ns (.opened ns) rest := by
    intro rest
    rcases hs with rfl | rfl <;> rfl
  have hinline : ∀ w rest : Text, inline w ++ rest = '$' :: '(' :: (w ++ ')' :: rest) := by
    intro w rest
    simp [inline]
  rw [hinline, hopen, h, hinline]

lemma rewriteNs_name {name : Text} (hname : isLuaName name = true) (hns : ')' ∉ ns)
    (hs : s.Within ns) (rest : Text) :
    rewriteNs ns s (name ++ ')' :: rest) = name ++ ')' :: rewriteNs ns .outside rest :=
  rewriteNs_close hns hs (not_mem_of_isLuaName hname (by decide))
    (not_mem_of_isLuaName hname (by decide)) rest

lemma rewriteNs_written {r : Ref} (hr : r.Valid) (hs : s.Free) (rest : Text) :
    rewriteNs seqNs s (inline r.written ++ rest) =
      inline r.half ++ rewriteNs seqNs .outside rest := by
  refine rewriteNs_inline hs (fun rest => ?_) rest
  cases r with
  | var name => exact rewriteNs_name hr.1 (by decide) (.inr ⟨seqNs, List.suffix_rfl, rfl⟩) rest
  | seq name =>
    have hname := rewriteNs_name hr (by decide) (.inl rfl : Scan.outside.Within seqNs) rest
    exact congrArg (seqNs ++ '.' :: ·) hname
  | prop name =>
    have hname := rewriteNs_name hr (by decide) (.inl rfl : Scan.outside.Within seqNs) rest
    exact congrArg (propNs ++ ':' :: ·) hname

lemma rewriteNs_half {r : Ref} (hr : r.Valid) (hs : s.Free) (rest : Text) :
    rewriteNs propNs s (inline r.half ++ rest) =
      inline r.code ++ rewriteNs propNs .outside rest := by
  refine rewriteNs_inline hs (fun rest => ?_) rest
  cases r with
  | var name => exact rewriteNs_name hr.1 (by decide) (.inr ⟨propNs, List.suffix_rfl, rfl⟩) rest
  | seq name =>
    have hname := rewriteNs_name hr (by decide) (.inl rfl : Scan.outside.Within propNs) rest
    exact congrArg (seqNs ++ '.' :: ·) hname
  | prop name =>
    have hname := rewriteNs_name hr (by decide) (.inl rfl : Scan.outside.Within propNs) rest
    exact congrArg (propNs ++ '.' :: ·) hname

namespace Expr

variable {e : Expr} {refs : List (Ref × Text)} {f g : Ref → Text}

lemma spellRefs_cons (x : Ref × Text) (refs : List (Ref × Text)) :
    spellRefs f (x :: refs) = inline (f x.1) ++ (x.2 ++ spellRefs f refs) := by
  simp [spellRefs]

lemma head_spellRefs (f : Ref → Text) (refs : List (Ref × Text)) :
    (spellRefs f refs).head? ≠ some '(' := by
  cases refs with
  | nil => simp [spellRefs]
  | cons x refs => simp [spellRefs_cons, inline]

lemma rewriteNs_spellRefs (hrefs : ∀ x ∈ refs, x.1.Valid ∧ hasRef x.2 = false)
    (hpass : ∀ r : Ref, r.Valid → ∀ s : Scan, s.Free → ∀ rest,
      rewriteNs ns s (inline (f r) ++ rest) = inline (g r) ++ rewriteNs ns .outside rest)
    (hs : s.Free) : rewriteNs ns s (spellRefs f refs) = spellRefs g refs := by
  induction refs generalizing s with
  | nil => rfl
  | cons x refs ih =>
    obtain ⟨⟨hvalid, htext⟩, hrefs⟩ := List.forall_mem_cons.mp hrefs
    obtain ⟨s', hs', hrun⟩ := rewriteNs_text ns (.inl rfl) htext (by simp)
    rw [spellRefs_cons, spellRefs_cons, hpass x.1 hvalid s hs, hrun, ih hrefs hs']

lemma rewriteNs_spellWith (he : e.Valid)
    (hpass : ∀ r : Ref, r.Valid → ∀ s : Scan, s.Free → ∀ rest,
      rewriteNs ns s (inline (f r) ++ rest) = inline (g r) ++ rewriteNs ns .outside rest) :
    rewriteNs ns .outside (e.spellWith f) = e.spellWith g := by
  obtain ⟨s', hs', hrun⟩ := rewriteNs_text ns (.inl rfl) he.head (by simp)
  rw [spellWith, hrun, rewriteNs_spellRefs he.refs hpass hs']
  rfl

lemma rewriteNsRefs_spell (he : e.Valid) : rewriteNsRefs e.spell = e.spellWith Ref.code := by
  rw [rewriteNsRefs, spell, rewriteNs_spellWith he fun r hr s hs => rewriteNs_written hr hs,
    rewriteNs_spellWith he fun r hr s hs => rewriteNs_half hr hs]

end Expr

lemma hasHashLine_rewriteNs (start : Bool) (s : Scan) (t : Text) :
    hasHashLine start (rewriteNs ns s t) = hasHashLine start t := by
  induction t generalizing start s with
  | nil => rfl
  | cons c t ih =>
    rw [rewriteNs, hasHashLine, hasHashLine, ih]
    split_ifs with hcolon
    · rw [hcolon.2]
      cases start <;> rfl
    · rfl

/-! ### The expansion -/

section Expand

variable {print : Text → Option Text}

lemma expandFrom_text (ht : hasRef t = false) (hrest : rest.head? ≠ some '(') (n : Nat) :
    expandFrom print (t.length + n) (t ++ rest) = (expandFrom print n rest).map (t ++ ·) := by
  induction t with
  | nil => simp
  | cons c t ih =>
    simp only [hasRef, Bool.or_eq_false_iff, Bool.and_eq_false_iff, beq_eq_false_iff_ne] at ht
    obtain ⟨hc, ht⟩ := ht
    have hno : ¬ (c = '$' ∧ (t ++ rest).head? = some '(') := by
      rintro ⟨heq, hhead⟩
      cases t with
      | nil => exact hrest hhead
      | cons d t => exact hc.elim (fun hne => hne heq) fun hne => hne hhead
    rw [List.length_cons, Nat.succ_add, List.cons_append, expandFrom, if_neg hno, ih ht,
      Option.map_map]
    rfl

lemma balanced_close {code : Text} (hopen : '(' ∉ code) (hclose : ')' ∉ code) (rest : Text) :
    balanced 0 (code ++ ')' :: rest) = some (code, rest) := by
  induction code with
  | nil => rfl
  | cons c code ih =>
    obtain ⟨hc, hopen⟩ := not_or.mp (mt List.mem_cons.mpr hopen)
    obtain ⟨hc', hclose⟩ := not_or.mp (mt List.mem_cons.mpr hclose)
    rw [List.cons_append, balanced, if_neg fun h => hc' h.1.symm]
    simp only [if_neg (Ne.symm hc), if_neg (Ne.symm hc'), ih hopen hclose]
    rfl

lemma expandFrom_inline {code : Text} (hopen : '(' ∉ code) (hclose : ')' ∉ code) (n : Nat)
    (rest : Text) : expandFrom print (n + 1) (inline code ++ rest) = (do
      let text ← print code
      let more ← expandFrom print n rest
      return text ++ more) := by
  have hbalanced := balanced_close hopen hclose rest
  have hinline : inline code ++ rest = '$' :: '(' :: (code ++ ')' :: rest) := by simp [inline]
  rw [hinline, expandFrom]
  simp only [List.head?_cons, and_self, if_true, List.tail_cons, hbalanced]

lemma not_mem_code {r : Ref} (hr : r.Valid) : '(' ∉ r.code ∧ ')' ∉ r.code := by
  have hname : ∀ {name : Text}, isLuaName name = true → '(' ∉ name ∧ ')' ∉ name := fun h =>
    ⟨not_mem_of_isLuaName h (by decide), not_mem_of_isLuaName h (by decide)⟩
  cases r with
  | var name => exact hname hr.1
  | seq name | prop name =>
    obtain ⟨hopen, hclose⟩ := hname hr
    simp [Ref.code, seqNs, propNs, hopen, hclose]

lemma expandFrom_spellRefs {refs : List (Ref × Text)}
    (hrefs : ∀ x ∈ refs, x.1.Valid ∧ hasRef x.2 = false) {n : Nat}
    (hn : (Expr.spellRefs Ref.code refs).length ≤ n) :
    expandFrom print n (Expr.spellRefs Ref.code refs) =
      Expr.printedRefs (fun r => print r.code) refs := by
  induction refs generalizing n with
  | nil => cases n <;> rfl
  | cons x refs ih =>
    obtain ⟨⟨hvalid, htext⟩, hrefs⟩ := List.forall_mem_cons.mp hrefs
    obtain ⟨hopen, hclose⟩ := not_mem_code hvalid
    rw [Expr.spellRefs_cons] at hn ⊢
    simp only [List.length_append, inline, List.length_cons] at hn
    -- one step for the reference, and one for every character of the text
    obtain ⟨k, rfl⟩ : ∃ k, n = x.2.length + k + 1 := ⟨n - x.2.length - 1, by omega⟩
    rw [expandFrom_inline hopen hclose, expandFrom_text htext (Expr.head_spellRefs _ _),
      ih hrefs (by omega), Expr.printedRefs]
    cases print x.1.code with
    | none => rfl
    | some value => cases Expr.printedRefs (fun r => print r.code) refs <;> rfl

theorem expand_spellWith {e : Expr} (he : e.Valid) :
    expand print (e.spellWith Ref.code) = e.printed fun r => print r.code := by
  rw [expand, Expr.spellWith, List.length_append,
    expandFrom_text he.head (Expr.head_spellRefs _ _), expandFrom_spellRefs he.refs le_rfl]
  rfl

end Expand

namespace Builder

variable {b : Builder} {ext : Extern} {envs : Envs} {e : Expr}

theorem substitute_spell (he : e.Valid) (hengine : setsEngine envs = false)
    (hhash : hasHashLine true e.spell = false) :
    b.substitute ext envs (rewriteNsRefs e.spell) = e.printed (b.printRef envs) := by
  have hhash' : hasHashLine true (rewriteNsRefs e.spell) = false := by
    rw [rewriteNsRefs, hasHashLine_rewriteNs, hasHashLine_rewriteNs, hhash]
  rw [substitute, hengine, hhash', if_neg (by decide), e.rewriteNsRefs_spell he,
    expand_spellWith he]
  have hprint : ∀ r : Ref, r.Valid → b.printCode ext envs r.code = b.printRef envs r := by
    intro r hr
    rw [printCode, refOf_code hr]
  have hrefs : ∀ refs : List (Ref × Text), (∀ x ∈ refs, x.1.Valid ∧ hasRef x.2 = false) →
      Expr.printedRefs (fun r => b.printCode ext envs r.code) refs =
        Expr.printedRefs (b.printRef envs) refs := by
    intro refs hvalid
    induction refs with
    | nil => rfl
    | cons x refs ih =>
      obtain ⟨⟨hx, -⟩, hvalid⟩ := List.forall_mem_cons.mp hvalid
      simp only [Expr.printedRefs, hprint x.1 hx, ih hvalid]
  rw [Expr.printed, Expr.printed, hrefs e.refs he.refs]

end Builder

end Verilua.SVBuilder
