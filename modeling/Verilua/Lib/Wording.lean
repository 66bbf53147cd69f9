import Verilua.Lib.Lexer
import Mathlib.Data.List.TakeWhile
import Mathlib.Tactic.Abel
import Mathlib.Algebra.BigOperators.Group.List.Basic

/-!
# Words in a text, and the replacement of the first occurrence

A text is read as words, which are the maximal runs of certain characters, and as single marks;
blanks separate and are no tokens. A new layout that deletes no blank altogether keeps the tokens.
Replacing the first occurrence of a word in a text passes over the blanks and over the words that
the pattern is no part of, and changes a weight of the text by the weights of the two words.
-/

/-- The characters of words, and the blanks. -/
structure Wording (α : Type*) where
  wordy : α → Bool
  blank : α → Bool
  not_blank : ∀ c, wordy c = true → blank c = false

namespace Wording

variable {α : Type*} (W : Wording α) {cur l m w pat rep lead : List α} {c : α}

def flush : List α → List (List α)
  | [] => []
  | c :: cur => [c :: cur]

/-- The tokens of a text whose beginning `cur` of a word has been read. -/
def tokensFrom : List α → List α → List (List α)
  | cur, [] => flush cur
  | cur, c :: cs =>
    if W.wordy c then tokensFrom (cur ++ [c]) cs
    else if W.blank c then flush cur ++ tokensFrom [] cs
    else flush cur ++ [c] :: tokensFrom [] cs

def tokens (l : List α) : List (List α) := W.tokensFrom [] l

/-- A word ends before the text. -/
def Apart (l : List α) : Prop := ∀ c ∈ l.head?, W.wordy c = false

@[simp] lemma apart_nil : W.Apart [] := nofun

@[simp] lemma flatten_flush (cur : List α) : (flush cur).flatten = cur := by
  cases cur with
  | nil => rfl
  | cons c cur => simp [flush]

lemma flush_of_ne (h : cur ≠ []) : flush cur = [cur] := by
  cases cur with
  | nil => exact absurd rfl h
  | cons c cur => rfl

lemma wordy_cons (h : W.wordy c = true) :
    W.tokensFrom cur (c :: l) = W.tokensFrom (cur ++ [c]) l := by
  rw [tokensFrom, if_pos h]

lemma tokensFrom_of_apart (h : W.Apart l) : W.tokensFrom cur l = flush cur ++ W.tokens l := by
  cases l with
  | nil => simp [tokens, tokensFrom, flush]
  | cons c l =>
    have hc : ¬ W.wordy c = true := by simp [h c rfl]
    simp only [tokens, tokensFrom, if_neg hc]
    split_ifs <;> simp [flush]

lemma tokensFrom_append (h : W.Apart m) (l : List α) :
    W.tokensFrom cur (l ++ m) = W.tokensFrom cur l ++ W.tokens m := by
  induction l generalizing cur with
  | nil =>
    rw [List.nil_append, W.tokensFrom_of_apart h]
    rfl
  | cons c l ih =>
    rw [List.cons_append, tokensFrom, tokensFrom]
    split_ifs
    · exact ih
    · rw [ih, List.append_assoc]
    · rw [ih, List.append_assoc, List.cons_append]

lemma tokensFrom_word (hw : ∀ c ∈ w, W.wordy c = true) :
    W.tokensFrom cur (w ++ l) = W.tokensFrom (cur ++ w) l := by
  induction w generalizing cur with
  | nil => rw [List.nil_append, List.append_nil]
  | cons c w ih =>
    obtain ⟨hc, hw⟩ := List.forall_mem_cons.mp hw
    rw [List.cons_append, W.wordy_cons hc, ih hw, List.append_assoc, List.singleton_append]

lemma tokens_append (h : W.Apart m) (l : List α) : W.tokens (l ++ m) = W.tokens l ++ W.tokens m :=
  W.tokensFrom_append h l

lemma tokens_word (hne : w ≠ []) (hw : ∀ c ∈ w, W.wordy c = true) (hl : W.Apart l) :
    W.tokens (w ++ l) = w :: W.tokens l := by
  rw [tokens, W.tokensFrom_word hw, List.nil_append, W.tokensFrom_of_apart hl, flush_of_ne hne]
  rfl

lemma not_wordy (h : W.blank c = true) : W.wordy c = false := by
  by_contra hw
  have hblank := W.not_blank c (by simpa using hw)
  rw [h] at hblank
  cases hblank

lemma apart_of_blank (h : W.blank c = true) : W.Apart (c :: l) := by
  intro d hd
  cases hd
  exact W.not_wordy h

lemma apart_flatten {ls : List (List α)} (h : ∀ l ∈ ls, W.Apart l) : W.Apart ls.flatten := by
  induction ls with
  | nil => exact W.apart_nil
  | cons l ls ih =>
    obtain ⟨hl, hls⟩ := List.forall_mem_cons.mp h
    cases l with
    | nil => exact ih hls
    | cons c l => exact hl

lemma tokens_flatten {ls : List (List α)} (h : ∀ l ∈ ls, W.Apart l) :
    W.tokens ls.flatten = ls.flatMap W.tokens := by
  induction ls with
  | nil => rfl
  | cons l ls ih =>
    obtain ⟨-, hls⟩ := List.forall_mem_cons.mp h
    rw [List.flatten_cons, W.tokens_append (W.apart_flatten hls), ih hls, List.flatMap_cons]

lemma tokens_blank_cons (h : W.blank c = true) : W.tokens (c :: l) = W.tokens l := by
  rw [tokens, tokensFrom, if_neg (by simp [W.not_wordy h]), if_pos h]
  rfl

lemma tokens_lead (h : ∀ c ∈ lead, W.blank c = true) : W.tokens (lead ++ l) = W.tokens l := by
  induction lead with
  | nil => rfl
  | cons c lead ih =>
    obtain ⟨hc, hlead⟩ := List.forall_mem_cons.mp h
    rw [List.cons_append, W.tokens_blank_cons hc, ih hlead]

lemma tokens_of_blank (h : ∀ c ∈ lead, W.blank c = true) : W.tokens lead = [] := by
  have htokens := W.tokens_lead (l := []) h
  rwa [List.append_nil] at htokens

lemma tokens_trail (h : ∀ c ∈ lead, W.blank c = true) : W.tokens (l ++ lead) = W.tokens l := by
  cases lead with
  | nil => rw [List.append_nil]
  | cons c lead =>
    rw [W.tokens_append (W.apart_of_blank (h c List.mem_cons_self)), W.tokens_of_blank h,
      List.append_nil]

lemma flatten_tokensFrom (cur l : List α) :
    (W.tokensFrom cur l).flatten = cur ++ l.filter fun c => !W.blank c := by
  induction l generalizing cur with
  | nil => simp [tokensFrom]
  | cons c l ih =>
    rw [tokensFrom]
    split_ifs with hw hb
    · rw [ih, List.filter_cons_of_pos (by simp [W.not_blank c hw]), List.append_assoc,
        List.singleton_append]
    · rw [List.flatten_append, flatten_flush, ih, List.nil_append,
        List.filter_cons_of_neg (by simp [hb])]
    · rw [List.flatten_append, flatten_flush, List.flatten_cons, ih, List.nil_append,
        List.filter_cons_of_pos (by simp [hb]), List.singleton_append]

lemma flatten_tokens (l : List α) : (W.tokens l).flatten = l.filter fun c => !W.blank c := by
  rw [tokens, flatten_tokensFrom, List.nil_append]

lemma tokensFrom_squash (y : Layout W.blank) (hy : ∀ c, y.gone c = false) {run : Bool}
    (hrun : run = true → cur = []) : W.tokensFrom cur (y.squash run l) = W.tokensFrom cur l := by
  induction l generalizing run cur with
  | nil => rfl
  | cons c l ih =>
    rw [Layout.squash, if_neg (by simp [hy c])]
    split_ifs with hb htwice
    · rw [hrun htwice, ih fun _ => rfl]
      exact (W.tokens_blank_cons hb).symm
    · have hspace : W.tokensFrom cur (y.space :: y.squash true l) =
          flush cur ++ W.tokens (y.space :: y.squash true l) :=
        W.tokensFrom_of_apart (W.apart_of_blank y.blank_space)
      rw [hspace, W.tokens_blank_cons y.blank_space, tokens, ih fun _ => rfl,
        W.tokensFrom_of_apart (W.apart_of_blank hb), W.tokens_blank_cons hb]
      rfl
    · rw [tokensFrom, tokensFrom]
      have hword : W.tokensFrom (cur ++ [c]) (y.squash false l) = W.tokensFrom (cur ++ [c]) l :=
        ih (by simp)
      have hmark : W.tokensFrom [] (y.squash false l) = W.tokensFrom [] l := ih (by simp)
      rw [hword, hmark]

lemma tokens_squash (y : Layout W.blank) (hy : ∀ c, y.gone c = false) (l : List α) :
    W.tokens (y.squash false l) = W.tokens l := W.tokensFrom_squash y hy nofun

/-- A text has no token, or it begins with a word or with a mark behind its blanks. -/
lemma cases_head (l : List α) : W.tokens l = [] ∨
    (∃ lead w post, l = lead ++ (w ++ post) ∧ (∀ c ∈ lead, W.blank c = true) ∧ w ≠ [] ∧
      (∀ c ∈ w, W.wordy c = true) ∧ W.Apart post) ∨
    ∃ lead c post, l = lead ++ c :: post ∧ (∀ c ∈ lead, W.blank c = true) ∧ W.wordy c = false ∧
      W.blank c = false := by
  have hlead : ∀ c ∈ l.takeWhile W.blank, W.blank c = true := fun c hc => List.mem_takeWhile_imp hc
  cases hl : l.dropWhile W.blank with
  | nil =>
    refine .inl ?_
    rw [← List.takeWhile_append_dropWhile (p := W.blank) (l := l), hl, List.append_nil]
    exact W.tokens_of_blank hlead
  | cons c cs =>
    have hsplit : l = l.takeWhile W.blank ++ c :: cs := by
      rw [← hl, List.takeWhile_append_dropWhile]
    have hc : W.blank c = false := by
      have hhead := List.head?_dropWhile_not W.blank l
      rw [hl] at hhead
      simpa using hhead
    cases hw : W.wordy c with
    | false => exact .inr (.inr ⟨_, c, cs, hsplit, hlead, hw, hc⟩)
    | true =>
      refine .inr (.inl ⟨l.takeWhile W.blank, (c :: cs).takeWhile W.wordy,
        (c :: cs).dropWhile W.wordy, ?_, hlead, ?_, fun d hd => List.mem_takeWhile_imp hd, ?_⟩)
      · rw [List.takeWhile_append_dropWhile]
        exact hsplit
      · rw [List.takeWhile_cons_of_pos hw]
        exact List.cons_ne_nil _ _
      · intro d hd
        have hhead := List.head?_dropWhile_not W.wordy (c :: cs)
        rw [Option.mem_def.mp hd] at hhead
        simpa using hhead

/-! ### The first occurrence of a word -/

section ReplaceFirst

variable [DecidableEq α]

/-- Put `rep` in the place of the first occurrence of `pat`. -/
def replaceFirst (pat rep : List α) : List α → List α
  | [] => []
  | c :: cs => if pat <+: c :: cs then rep ++ (c :: cs).drop pat.length
    else c :: replaceFirst pat rep cs

lemma replaceFirst_of_not (h : ¬ pat <:+: l) : replaceFirst pat rep l = l := by
  induction l with
  | nil => rfl
  | cons c l ih =>
    have htail : ¬ pat <:+: l := fun hi => h (hi.trans (List.suffix_cons c l).isInfix)
    rw [replaceFirst, if_neg fun hp => h hp.isInfix, ih htail]

lemma replaceFirst_of_infix (hne : pat ≠ []) (h : pat <:+: l) (rep : List α) :
    ∃ pre post, l = pre ++ pat ++ post ∧ replaceFirst pat rep l = pre ++ rep ++ post := by
  induction l with
  | nil => exact absurd (List.infix_nil.mp h) hne
  | cons c l ih =>
    by_cases hp : pat <+: c :: l
    · refine ⟨[], (c :: l).drop pat.length, ?_, ?_⟩
      · rw [List.nil_append, List.prefix_iff_eq_append.mp hp]
      · rw [replaceFirst, if_pos hp, List.nil_append]
    · obtain ⟨pre, post, hl, hrep⟩ := ih ((List.infix_cons_iff.mp h).resolve_left hp)
      refine ⟨c :: pre, post, by rw [hl]; rfl, ?_⟩
      rw [replaceFirst, if_neg hp, hrep]
      rfl

lemma replaceFirst_append_self (hne : pat ≠ []) (l : List α) :
    replaceFirst pat rep (pat ++ l) = rep ++ l := by
  cases pat with
  | nil => exact absurd rfl hne
  | cons c pat =>
    have hp : c :: pat <+: c :: (pat ++ l) := List.prefix_append (c :: pat) l
    rw [List.cons_append, replaceFirst, if_pos hp]
    simp

lemma replaceFirst_append (h : ∀ k < lead.length, ¬ pat <+: lead.drop k ++ l) :
    replaceFirst pat rep (lead ++ l) = lead ++ replaceFirst pat rep l := by
  induction lead with
  | nil => rfl
  | cons c lead ih =>
    have hhead : ¬ pat <+: c :: (lead ++ l) := h 0 (by simp)
    rw [List.cons_append, replaceFirst, if_neg hhead, ih fun k hk => ?_]
    · rfl
    · exact h (k + 1) (by simpa using hk)

lemma replaceFirst_lead (hlead : ∀ c ∈ lead, W.blank c = true) (hne : pat ≠ [])
    (hpat : ∀ c ∈ pat, W.wordy c = true) :
    replaceFirst pat rep (lead ++ l) = lead ++ replaceFirst pat rep l := by
  refine replaceFirst_append fun k hk hp => ?_
  obtain ⟨d, pat', rfl⟩ := List.exists_cons_of_ne_nil hne
  rw [List.drop_eq_getElem_cons hk, List.cons_append, List.cons_prefix_cons] at hp
  have hblank := W.not_blank d (hpat d List.mem_cons_self)
  rw [hp.1, hlead _ (List.getElem_mem hk)] at hblank
  cases hblank

lemma replaceFirst_word (hno : ¬ pat <:+: w) (hpat : ∀ c ∈ pat, W.wordy c = true)
    (hl : W.Apart l) : replaceFirst pat rep (w ++ l) = w ++ replaceFirst pat rep l := by
  refine replaceFirst_append fun k hk hp => ?_
  obtain ⟨post, hpost⟩ := hp
  rcases List.append_eq_append_iff.mp hpost with ⟨rest, hw, -⟩ | ⟨rest, hpat', hl'⟩
  · have hin : pat <:+: w.drop k := hw ▸ (List.prefix_append pat rest).isInfix
    exact hno (hin.trans (List.drop_suffix k w).isInfix)
  · cases rest with
    | nil =>
      rw [List.append_nil] at hpat'
      exact hno (hpat' ▸ (List.drop_suffix k w).isInfix)
    | cons c rest =>
      have hwordy := hpat c (by simp [hpat'])
      rw [hl c (by rw [hl']; rfl)] at hwordy
      cases hwordy

lemma apart_replaceFirst (hne : pat ≠ []) (hpat : ∀ c ∈ pat, W.wordy c = true) (hl : W.Apart l) :
    W.Apart (replaceFirst pat rep l) := by
  cases l with
  | nil => exact nofun
  | cons c l =>
    have hhead : ¬ pat <+: c :: l := by
      intro hp
      obtain ⟨d, pat', rfl⟩ := List.exists_cons_of_ne_nil hne
      rw [List.cons_prefix_cons] at hp
      have hwordy := hpat d List.mem_cons_self
      rw [hp.1, hl c rfl] at hwordy
      cases hwordy
    rw [replaceFirst, if_neg hhead]
    exact hl

lemma sum_map_replaceFirst {M : Type*} [AddCommMonoid M] (hne : pat ≠ []) (h : pat <:+: l)
    (rep : List α) (f : α → M) :
    ((replaceFirst pat rep l).map f).sum + (pat.map f).sum =
      (l.map f).sum + (rep.map f).sum := by
  obtain ⟨pre, post, hl, hrep⟩ := replaceFirst_of_infix hne h rep
  rw [hrep, hl]
  simp only [List.map_append, List.sum_append]
  abel

lemma head_tokens_replaceFirst (hne : pat ≠ []) (hpat : ∀ c ∈ pat, W.wordy c = true)
    (h : ∀ t ∈ (W.tokens l).head?, ¬ pat <:+: t) (hsome : W.tokens l ≠ []) :
    (W.tokens (replaceFirst pat rep l)).head? = (W.tokens l).head? := by
  rcases W.cases_head l with hnil | ⟨lead, w, post, rfl, hlead, hw, hwordy, hpost⟩ |
    ⟨lead, c, post, rfl, hlead, hc, hblank⟩
  · exact absurd hnil hsome
  · have htokens : W.tokens (lead ++ (w ++ post)) = w :: W.tokens post := by
      rw [W.tokens_lead hlead, W.tokens_word hw hwordy hpost]
    rw [htokens] at h ⊢
    rw [W.replaceFirst_lead hlead hne hpat, W.replaceFirst_word (h w rfl) hpat hpost,
      W.tokens_lead hlead, W.tokens_word hw hwordy (W.apart_replaceFirst hne hpat hpost)]
    rfl
  · have hmark : ∀ m : List α, W.tokens (c :: m) = [c] :: W.tokens m := by
      intro m
      rw [tokens, tokensFrom, if_neg (by simp [hc]), if_neg (by simp [hblank])]
      rfl
    have hhead : ¬ pat <+: c :: post := by
      intro hp
      obtain ⟨d, pat', rfl⟩ := List.exists_cons_of_ne_nil hne
      rw [List.cons_prefix_cons] at hp
      have hd := hpat d List.mem_cons_self
      rw [hp.1, hc] at hd
      cases hd
    rw [W.replaceFirst_lead hlead hne hpat, W.tokens_lead hlead, W.tokens_lead hlead, hmark,
      replaceFirst, if_neg hhead, hmark]
    rfl

/-! ### Several words, one after the other -/

variable {pats : List (List α)}

/-- Put `rep` in the place of the first occurrence of each word of the list in turn. -/
def replaceWords (rep : List α) (pats : List (List α)) (l : List α) : List α :=
  pats.foldl (fun l pat => replaceFirst pat rep l) l

lemma replaceWords_cons :
    replaceWords rep (pat :: pats) l = replaceWords rep pats (replaceFirst pat rep l) := rfl

lemma replaceWords_of_not (h : ∀ pat ∈ pats, ¬ pat <:+: l) : replaceWords rep pats l = l := by
  induction pats with
  | nil => rfl
  | cons pat pats ih =>
    obtain ⟨hpat, hpats⟩ := List.forall_mem_cons.mp h
    rw [replaceWords_cons, replaceFirst_of_not hpat, ih hpats]

/-- A weight that every replacement adds to tells whether one is made. -/
lemma not_infix_or_sum_lt {f : α → ℤ} (hne : ∀ pat ∈ pats, pat ≠ [])
    (hlt : ∀ pat ∈ pats, (pat.map f).sum < (rep.map f).sum) (l : List α) :
    (∀ pat ∈ pats, ¬ pat <:+: l) ∨ (l.map f).sum < ((replaceWords rep pats l).map f).sum := by
  induction pats generalizing l with
  | nil => exact .inl nofun
  | cons pat pats ih =>
    obtain ⟨hpat, hpats⟩ := List.forall_mem_cons.mp hne
    obtain ⟨hlt, hlts⟩ := List.forall_mem_cons.mp hlt
    rw [replaceWords_cons]
    by_cases hin : pat <:+: l
    · have hadd := sum_map_replaceFirst hpat hin rep f
      rcases ih hpats hlts (replaceFirst pat rep l) with hnot | hmore
      · rw [replaceWords_of_not hnot]
        omega
      · omega
    · rw [replaceFirst_of_not hin]
      refine (ih hpats hlts l).imp (fun hnot => ?_) id
      exact List.forall_mem_cons.mpr ⟨hin, hnot⟩

/-- A character of `rep` that the outcome lacks tells that no replacement is made. -/
lemma not_infix_of_forall {p : α → Prop} (hrep : ∃ c ∈ rep, ¬ p c) (hne : ∀ pat ∈ pats, pat ≠ [])
    (h : ∀ c ∈ replaceWords rep pats l, p c) : ∀ pat ∈ pats, ¬ pat <:+: l := by
  induction pats generalizing l with
  | nil => exact nofun
  | cons pat pats ih =>
    obtain ⟨hpat, hpats⟩ := List.forall_mem_cons.mp hne
    rw [replaceWords_cons] at h
    have hnot := ih hpats h
    rw [replaceWords_of_not hnot] at h
    have hin : ¬ pat <:+: l := by
      intro hin
      obtain ⟨pre, post, -, hout⟩ := replaceFirst_of_infix hpat hin rep
      obtain ⟨c, hc, hpc⟩ := hrep
      exact hpc (h c (by simp [hout, hc]))
    rw [replaceFirst_of_not hin] at hnot
    exact List.forall_mem_cons.mpr ⟨hin, hnot⟩

lemma head_tokens_replaceWords {t : List α} (hne : ∀ pat ∈ pats, pat ≠ [])
    (hpat : ∀ pat ∈ pats, ∀ c ∈ pat, W.wordy c = true) (h : ∀ pat ∈ pats, ¬ pat <:+: t)
    (hhead : (W.tokens l).head? = some t) :
    (W.tokens (replaceWords rep pats l)).head? = some t := by
  induction pats generalizing l with
  | nil => exact hhead
  | cons pat pats ih =>
    obtain ⟨hne, hnes⟩ := List.forall_mem_cons.mp hne
    obtain ⟨hpat, hpats⟩ := List.forall_mem_cons.mp hpat
    obtain ⟨h, hs⟩ := List.forall_mem_cons.mp h
    have hsome : W.tokens l ≠ [] := by
      intro hnil
      rw [hnil] at hhead
      cases hhead
    have hnot : ∀ u ∈ (W.tokens l).head?, ¬ pat <:+: u := by
      intro u hu
      rw [hhead] at hu
      cases hu
      exact h
    refine ih hnes hpats hs ?_
    rw [W.head_tokens_replaceFirst hne hpat hnot hsome, hhead]

end ReplaceFirst

end Wording
