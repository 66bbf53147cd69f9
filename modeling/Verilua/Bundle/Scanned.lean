import Verilua.Bundle.Stripped

/-!
# Where the scan is right

In tokens with blanks between them, the pattern finds the literal calls of `require`, as long as the
word stands nowhere else in front of a string.
-/

namespace Verilua.Bundle

open Leftmost

/-- The word `require` stands in front of a string only where it is called. -/
structure Clear (t : Text) (ts : List Text) : Prop where
  /-- not in another token -/
  inside : t ≠ requireWord → ∀ u, requireWord ++ u <:+ t →
    ∃ c cs, lead u = c :: cs ∧ isQuote c = false
  /-- not put together from tokens -/
  across : ∀ u v, u ≠ [] → v ≠ [] → u ++ v = requireWord → u <:+ t → ¬ v <+: ts.flatten
  /-- the string is the name of a module -/
  bare : t = requireWord → ∀ q s ts', ts = (q :: s) :: ts' → isQuote q = true →
    ∃ x : Name, x ≠ [] ∧ (∀ c ∈ x, isNameChar c = true) ∧ s = x ++ [q]
  called : t = requireWord → ∀ q s ts', ts = ['('] :: (q :: s) :: ts' → isQuote q = true →
    (∃ x : Name, x ≠ [] ∧ (∀ c ∈ x, isNameChar c = true) ∧ s = x ++ [q]) ∧
      ts'.head? = some [')']

structure Scannable (src : Text) : Prop where
  fine : ∀ p ∈ lua.places () src, Fine p.2
  clear : ∀ t ts, t :: ts <:+ tokens src → Clear t ts

variable {u v rest : Text} {t : Text} {ts : List Text} {x : Name} {q : Char}

lemma length_requireWord : requireWord.length = 7 := rfl

/-! ### The pattern -/

lemma requireMatch_of_not (h : ¬ requireWord <+: u) : requireMatch u = none := by
  rw [requireMatch, if_neg]
  exact fun hprefix => h (List.isPrefixOf_iff_prefix.mp hprefix)

lemma requireMatch_append (u : Text) :
    requireMatch (requireWord ++ u) = quotedName (lead u) := by
  rw [requireMatch, if_pos (List.isPrefixOf_iff_prefix.mpr (List.prefix_append _ _))]
  exact congrArg (fun l => quotedName (lead l)) (List.drop_left' length_requireWord)

lemma optional_suffix (c : Char) (l : Text) : optional c l <:+ l := by
  cases l with
  | nil => exact List.suffix_rfl
  | cons d ds =>
    rw [optional]
    split_ifs
    · exact List.suffix_cons d ds
    · exact List.suffix_rfl

lemma lead_suffix (l : Text) : lead l <:+ l :=
  (List.dropWhile_suffix _).trans ((optional_suffix _ _).trans (List.dropWhile_suffix _))

lemma trail_suffix (l : Text) : trail l <:+ l :=
  (optional_suffix _ _).trans (List.dropWhile_suffix _)

lemma quotedName_suffix {l : Text} (h : quotedName l = some (x, rest)) : rest <:+ l := by
  cases l with
  | nil => cases h
  | cons q cs =>
    rw [quotedName] at h
    cases hname : cs.dropWhile isNameChar with
    | nil => rw [hname] at h; cases h
    | cons q' rest' =>
      simp only [hname] at h
      split_ifs at h
      obtain rfl : trail rest' = rest := congrArg Prod.snd (Option.some.inj h)
      have hsuffix : q' :: rest' <:+ cs := hname ▸ List.dropWhile_suffix _
      exact ((trail_suffix rest').trans (List.suffix_cons q' rest')).trans
        (hsuffix.trans (List.suffix_cons q cs))

lemma shortens_requireMatch : Matcher.Shortens requireMatch := by
  intro c cs x rest h
  rw [requireMatch] at h
  split_ifs at h
  exact (quotedName_suffix h).trans ((lead_suffix _).trans (List.drop_suffix 6 cs))

lemma not_isNameChar_of_isQuote (hq : isQuote q = true) : isNameChar q = false := by
  simp only [isQuote, Bool.or_eq_true, beq_iff_eq] at hq
  rcases hq with rfl | rfl <;> decide

lemma quotedName_quoted (hq : isQuote q = true) (hne : x ≠ []) (hx : ∀ c ∈ x, isNameChar c = true) :
    quotedName (q :: (x ++ [q]) ++ rest) = some (x, trail rest) := by
  have hnot : ¬ isNameChar q = true := by simp [not_isNameChar_of_isQuote hq]
  have htext : q :: (x ++ [q]) ++ rest = q :: (x ++ (q :: rest)) := by simp
  rw [htext, quotedName, List.dropWhile_append_of_pos hx, List.dropWhile_cons_of_neg hnot,
    List.takeWhile_append_of_pos hx, List.takeWhile_cons_of_neg hnot, List.append_nil]
  exact if_pos ⟨hq, hne, hq⟩

lemma quotedName_of_not (h : ∀ c cs, u = c :: cs → isQuote c = false) : quotedName u = none := by
  cases u with
  | nil => rfl
  | cons c cs =>
    have hc := h c cs rfl
    rw [quotedName]
    cases cs.dropWhile isNameChar with
    | nil => rfl
    | cons q' rest => simp [hc]

lemma lead_append {c : Char} {cs : Text} (h : lead u = c :: cs) (v : Text) :
    lead (u ++ v) = c :: cs ++ v := by
  have hdrop : ∀ {l l' : Text} {d : Char} {ds : Text}, l.dropWhile isSpace = d :: ds →
      (l ++ l').dropWhile isSpace = d :: ds ++ l' := by
    intro l l' d ds hl
    rw [List.dropWhile_append, hl]
    rfl
  rw [lead] at h ⊢
  cases hblank : u.dropWhile isSpace with
  | nil => rw [hblank] at h; cases h
  | cons d ds =>
    rw [hdrop hblank]
    rw [hblank, optional] at h
    rw [List.cons_append, optional]
    split_ifs at h ⊢
    · exact hdrop h
    · exact hdrop h

/-! ### Tokens -/

lemma quoted?_quoted (hq : isQuote q = true) (x : Name) : quoted? (q :: (x ++ [q])) = some x := by
  rw [quoted?, if_pos ⟨hq, List.getLast?_concat⟩, List.dropLast_concat]

lemma quoted?_of_not (hq : isQuote q = false) (cs : Text) : quoted? (q :: cs) = none := by
  rw [quoted?, if_neg]
  rintro ⟨h, -⟩
  rw [hq] at h
  cases h

lemma literals_of_not (h : t ≠ requireWord) : literals (t :: ts) = literals ts := by
  simp [literals, literalAt.eq_def, h]

lemma literalAt_bare {s : Text} (hs : s ≠ ['(']) : literalAt requireWord (s :: ts) = quoted? s := by
  cases ts with
  | nil => rfl
  | cons s' ts => exact if_neg hs

lemma literalAt_called {s : Text} : literalAt requireWord (['('] :: s :: ts) =
    if ts.head? = some [')'] then quoted? s else none := rfl

lemma Spaced.first (h : Spaced ts u) :
    ts = [] ∧ u.dropWhile isSpace = [] ∨
      ∃ t ts' rest, ts = t :: ts' ∧ IsToken t ∧ u.dropWhile isSpace = t ++ rest ∧
        Spaced ts' rest := by
  cases h with
  | nil hw => exact .inl ⟨rfl, List.dropWhile_eq_nil_iff.mpr hw⟩
  | @cons w t rest ts hw ht h =>
    refine .inr ⟨t, ts, rest, rfl, ht, ?_, h⟩
    obtain ⟨c, cs, rfl, hc⟩ := ht.head
    rw [List.dropWhile_append_of_pos hw, List.cons_append,
      List.dropWhile_cons_of_neg (by simp [hc])]

lemma optional_singleton (c : Char) (l : Text) : optional c ([c] ++ l) = l := if_pos rfl

lemma optional_of_ne {c d : Char} {cs : Text} (h : d ≠ c) : optional c (d :: cs) = d :: cs :=
  if_neg h

lemma Spaced.lead (h : Spaced ts u) :
    ts = [] ∧ lead u = [] ∨
      (∃ ts' rest, ts = ['('] :: ts' ∧ lead u = rest.dropWhile isSpace ∧ Spaced ts' rest) ∨
      ∃ c cs ts' rest, ts = (c :: cs) :: ts' ∧ c :: cs ≠ ['('] ∧
        lead u = c :: cs ++ rest ∧ Spaced ts' rest := by
  rcases h.first with ⟨rfl, hdrop⟩ | ⟨t, ts', rest, rfl, ht, hdrop, hrest⟩
  · exact .inl ⟨rfl, by rw [Bundle.lead, hdrop]; rfl⟩
  · refine .inr ?_
    by_cases hopen : t = ['(']
    · refine .inl ⟨ts', rest, by rw [hopen], ?_, hrest⟩
      rw [Bundle.lead, hdrop, hopen, optional_singleton]
    · obtain ⟨c, cs, rfl, hc⟩ := ht.head
      have hne : c ≠ '(' := by
        rintro rfl
        exact hopen (ht.opening rfl)
      refine .inr ⟨c, cs, ts', rest, rfl, hopen, ?_, hrest⟩
      rw [Bundle.lead, hdrop, List.cons_append, optional_of_ne hne,
        List.dropWhile_cons_of_neg (by simp [hc])]

lemma Spaced.trail (h : Spaced ts u) :
    ∃ ts', ts' <:+ ts ∧ Spaced ts' (trail u) ∧ literals ts' = literals ts := by
  have hnil : ∀ c ∈ ([] : Text), isSpace c = true := fun c hc => absurd hc List.not_mem_nil
  rcases h.first with ⟨rfl, hdrop⟩ | ⟨t, ts', rest, rfl, ht, hdrop, hrest⟩
  · refine ⟨[], List.suffix_rfl, ?_, rfl⟩
    rw [Bundle.trail, hdrop]
    exact .nil hnil
  · by_cases hclose : t = [')']
    · refine ⟨ts', List.suffix_cons t ts', ?_, ?_⟩
      · rw [Bundle.trail, hdrop, hclose, optional_singleton]
        exact hrest
      · rw [hclose]
        exact (literals_of_not (by decide)).symm
    · refine ⟨t :: ts', List.suffix_rfl, ?_, rfl⟩
      have hall := Spaced.cons hnil ht hrest
      obtain ⟨c, cs, rfl, hc⟩ := ht.head
      have hne : c ≠ ')' := by
        rintro rfl
        exact hclose (ht.closing rfl)
      rw [Bundle.trail, hdrop, List.cons_append, optional_of_ne hne]
      exact hall

lemma Spaced.prefix_flatten (h : Spaced ts u) (hv : v <+: u) (hword : ∀ c ∈ v, isSpace c = false) :
    v <+: ts.flatten := by
  induction h generalizing v with
  | nil hw =>
    cases v with
    | nil => exact List.nil_prefix
    | cons c v =>
      have hblank := hw c (hv.subset List.mem_cons_self)
      rw [hword c List.mem_cons_self] at hblank
      cases hblank
  | @cons w t rest ts hw _ _ ih =>
    cases v with
    | nil => exact List.nil_prefix
    | cons c v =>
      cases w with
      | cons d w =>
        obtain ⟨more, hmore⟩ := hv
        obtain ⟨rfl, -⟩ := List.cons.inj hmore
        have hblank := hw c List.mem_cons_self
        rw [hword c List.mem_cons_self] at hblank
        cases hblank
      | nil =>
        rw [List.nil_append] at hv
        rw [List.flatten_cons]
        rcases List.prefix_or_prefix_of_prefix hv (List.prefix_append t rest) with hshort | hlong
        · exact hshort.trans (List.prefix_append t _)
        · obtain ⟨more, hmore⟩ := hlong
          rw [← hmore, List.prefix_append_right_inj] at hv ⊢
          exact ih hv fun d hd => hword d (hmore ▸ List.mem_append_right t hd)

lemma requireMatch_drop (hclear : Clear t ts) (h : Spaced ts rest) {k : Nat} (hk : k < t.length)
    (hother : t ≠ requireWord ∨ 0 < k) : requireMatch (t.drop k ++ rest) = none := by
  have hsuffix : t.drop k <:+ t := List.drop_suffix k t
  have hne : t.drop k ≠ [] := fun hnil => absurd (List.drop_eq_nil_iff.mp hnil) (not_le.mpr hk)
  by_cases hword : requireWord <+: t.drop k ++ rest
  · rcases List.prefix_or_prefix_of_prefix hword (List.prefix_append _ rest) with hin | hout
    · obtain ⟨u, hu⟩ := hin
      have hlen := congrArg List.length hu
      rw [List.length_append, length_requireWord, List.length_drop] at hlen
      have hdifferent : t ≠ requireWord := by
        rintro rfl
        rw [length_requireWord] at hlen
        exact (hother.resolve_left fun hne => hne rfl).ne' (by omega)
      obtain ⟨c, cs, hlead, hc⟩ := hclear.inside hdifferent u (hu ▸ hsuffix)
      rw [← hu, List.append_assoc, requireMatch_append, lead_append hlead]
      exact quotedName_of_not fun d ds hcons => (List.cons.inj hcons).1 ▸ hc
    · obtain ⟨v, hv⟩ := hout
      rw [← hv, List.prefix_append_right_inj] at hword
      by_cases hnil : v = []
      · -- the word is the end of the token
        rw [hnil, List.append_nil] at hv
        have hdifferent : t ≠ requireWord := by
          rintro rfl
          have hlen := congrArg List.length hv
          rw [List.length_drop, length_requireWord] at hlen
          exact (hother.resolve_left fun hne => hne rfl).ne' (by omega)
        have hend : requireWord ++ [] <:+ t := by rwa [List.append_nil, ← hv]
        obtain ⟨c, cs, hlead, -⟩ := hclear.inside hdifferent [] hend
        cases hlead
      · have hletters : ∀ c ∈ v, isSpace c = false := by
          have hall : requireWord.any isSpace = false := by decide
          exact fun c hc => Bool.eq_false_iff.mpr
            (List.any_eq_false.mp hall c (hv ▸ List.mem_append_right _ hc))
        exact absurd (h.prefix_flatten hword hletters) (hclear.across _ v hne hnil hv hsuffix)
  · exact requireMatch_of_not hword

/-! ### What is found -/

lemma captures_token (hclear : Clear t ts) (h : Spaced ts rest) (hother : t ≠ requireWord) :
    captures requireMatch (t ++ rest) = captures requireMatch rest :=
  captures_append fun _ hk => requireMatch_drop hclear h hk (.inl hother)

lemma captures_word (hclear : Clear requireWord ts) (h : Spaced ts rest)
    (hnone : quotedName (lead rest) = none) :
    captures requireMatch (requireWord ++ rest) = captures requireMatch rest := by
  refine captures_append fun k hk => ?_
  rcases Nat.eq_zero_or_pos k with rfl | hpos
  · exact (requireMatch_append rest).trans hnone
  · exact requireMatch_drop hclear h hk (.inr hpos)

lemma captures_match (h : quotedName (lead u) = some (x, rest)) :
    captures requireMatch (requireWord ++ u) = x :: captures requireMatch rest :=
  captures_of_match shortens_requireMatch ((requireMatch_append u).trans h)
    (List.cons_ne_nil _ _)

lemma captures_blanks {w : Text} (hw : ∀ c ∈ w, isSpace c = true) :
    captures requireMatch (w ++ u) = captures requireMatch u := by
  refine captures_append fun k hk => requireMatch_of_not ?_
  rintro ⟨more, hmore⟩
  have hne : w.drop k ≠ [] := fun hnil => absurd (List.drop_eq_nil_iff.mp hnil) (not_le.mpr hk)
  obtain ⟨c, cs, hcons⟩ := List.exists_cons_of_ne_nil hne
  rw [hcons] at hmore
  have hblank := hw c (List.mem_of_mem_drop (hcons ▸ List.mem_cons_self))
  rw [← (List.cons.inj hmore).1] at hblank
  exact absurd hblank (by decide)

/-- A call of `require`, or a `require` without a string behind it. -/
lemma captures_require (hclear : Clear requireWord ts) (h : Spaced ts u)
    (ih : ∀ ts' u', ts' <:+ ts → Spaced ts' u' → captures requireMatch u' = literals ts') :
    captures requireMatch (requireWord ++ u) = literals (requireWord :: ts) := by
  have hother : quotedName (lead u) = none → literalAt requireWord ts = none →
      captures requireMatch (requireWord ++ u) = literals (requireWord :: ts) := by
    intro hname hliteral
    rw [captures_word hclear h hname, literals, hliteral, ih ts u List.suffix_rfl h]
    rfl
  -- behind the string the search goes on with the tokens that are left
  have hcall : ∀ x ts₁ rest, ts₁ <:+ ts → Spaced ts₁ rest → literals ts₁ = literals ts →
      quotedName (lead u) = some (x, trail rest) → literalAt requireWord ts = some x →
      captures requireMatch (requireWord ++ u) = literals (requireWord :: ts) := by
    intro x ts₁ rest hsuffix hrest hliterals hname hliteral
    obtain ⟨ts₂, hsuffix', hrest', hliterals'⟩ := hrest.trail
    rw [captures_match hname, ih ts₂ _ (hsuffix'.trans hsuffix) hrest', literals, hliteral,
      hliterals', hliterals]
    rfl
  have hquote : ∀ {q : Char} {l : Text}, isQuote q = true → q :: l ≠ requireWord := by
    rintro q l hq heq
    rw [(List.cons.inj heq).1] at hq
    exact absurd hq (by decide)
  have hplain : ∀ {q : Char} {cs l : Text}, isQuote q = false → quotedName (q :: cs ++ l) = none :=
    fun hq => quotedName_of_not fun d ds hcons => (List.cons.inj hcons).1 ▸ hq
  rcases h.lead with ⟨rfl, hlead⟩ | ⟨ts, rest, rfl, hlead, hrest⟩ |
    ⟨q, cs, ts, rest, rfl, hopen, hlead, hrest⟩
  · exact hother (by rw [hlead]; rfl) rfl
  · rcases hrest.first with ⟨rfl, hdrop⟩ | ⟨s, ts, rest', rfl, hs, hdrop, hrest'⟩
    · exact hother (by rw [hlead, hdrop]; rfl) rfl
    · obtain ⟨q, cs, rfl, -⟩ := hs.head
      rw [hdrop] at hlead
      cases hq : isQuote q with
      | false =>
        refine hother (by rw [hlead, hplain hq]) ?_
        rw [literalAt_called, quoted?_of_not hq, ite_self]
      | true =>
        obtain ⟨⟨x, hne, hx, rfl⟩, hclose⟩ := hclear.called rfl q cs ts rfl hq
        have hsuffix : ts <:+ ['('] :: (q :: (x ++ [q])) :: ts :=
          (List.suffix_cons _ ts).trans (List.suffix_cons _ _)
        refine hcall x ts rest' hsuffix hrest' ?_ ?_ ?_
        · rw [literals_of_not (by decide), literals_of_not (hquote hq)]
        · rw [hlead, quotedName_quoted hq hne hx]
        · rw [literalAt_called, if_pos hclose, quoted?_quoted hq]
  · cases hq : isQuote q with
    | false =>
      exact hother (by rw [hlead, hplain hq]) (by rw [literalAt_bare hopen, quoted?_of_not hq])
    | true =>
      obtain ⟨x, hne, hx, rfl⟩ := hclear.bare rfl q cs ts rfl hq
      refine hcall x ts rest (List.suffix_cons _ ts) hrest (literals_of_not (hquote hq)).symm ?_ ?_
      · rw [hlead, quotedName_quoted hq hne hx]
      · rw [literalAt_bare hopen, quoted?_quoted hq]

lemma captures_spaced (hclear : ∀ t ts', t :: ts' <:+ ts → Clear t ts') (h : Spaced ts u) :
    captures requireMatch u = literals ts := by
  induction hn : ts.length using Nat.strong_induction_on generalizing ts u with
  | _ n ih =>
    subst hn
    cases h with
    | nil hw =>
      have hblanks := captures_blanks (u := []) hw
      rwa [List.append_nil] at hblanks
    | @cons w t rest ts hw ht h =>
      rw [captures_blanks hw]
      have hclear' : ∀ {ts' : List Text}, ts' <:+ ts → ∀ t' ts'', t' :: ts'' <:+ ts' →
          Clear t' ts'' := fun hsuffix t' ts'' h =>
        hclear t' ts'' ((h.trans hsuffix).trans (List.suffix_cons t ts))
      have hfound : ∀ ts' u', ts' <:+ ts → Spaced ts' u' →
          captures requireMatch u' = literals ts' := fun ts' u' hsuffix hspaced =>
        ih ts'.length (Nat.lt_succ_of_le hsuffix.length_le) (hclear' hsuffix) hspaced rfl
      have hhead := hclear t ts List.suffix_rfl
      by_cases hword : t = requireWord
      · subst hword
        exact captures_require hhead h hfound
      · rw [captures_token hhead h hword, hfound ts rest List.suffix_rfl h, literals_of_not hword]

lemma mem_foldl_addName {names : List Name} (l : List Name) :
    x ∈ l.foldl addName names ↔ x ∈ names ∨ x ∈ l := by
  induction l generalizing names with
  | nil => simp
  | cons name l ih =>
    rw [List.foldl_cons, ih, addName]
    split_ifs with hmem
    · simp only [List.mem_cons]
      constructor
      · exact fun h => h.imp_right .inr
      · rintro (h | rfl | h)
        · exact .inl h
        · exact .inl (List.contains_iff_mem.mp hmem)
        · exact .inr h
    · simp [or_assoc]

/-- The scan finds the literal calls of `require`. -/
theorem mem_scanRequires {src : Text} (h : Scannable src) :
    x ∈ scanRequires src ↔ x ∈ luaRequires src := by
  have hspaced : Spaced (tokens src) (stripComments src) := spaced_stripComments () src h.fine
  rw [scanRequires, mem_foldl_addName, captures_spaced h.clear hspaced, luaRequires]
  simp

end Verilua.Bundle
