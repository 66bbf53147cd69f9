import Mathlib.Data.List.Basic
import Mathlib.Order.Nat

/-!
# Lexers, and texts in a new layout

A lexer reads the longest lexeme at every place of a text that is no blank. A text gets a new layout
when some of its blanks are deleted and every run of other ones becomes one blank. As long as the
comments stay the comments that they were, the tokens stay the same exactly if, at every place where
one of them is read, it is also read in the new layout.
-/

/-- What a lexeme is. The state tells what was read before; a comment leaves it as it was. -/
structure Lexer (σ α : Type*) where
  blank : α → Bool
  /-- How long the lexeme is that begins here, where 0 counts as 1. -/
  munch : σ → List α → Nat
  next : σ → List α → σ
  comment : List α → Bool
  next_comment : ∀ s ℓ, comment ℓ = true → next s ℓ = s

/-- A new layout: the blanks that are deleted, and the blank that stands for a run of other ones. -/
structure Layout {α : Type*} (blank : α → Bool) where
  gone : α → Bool
  space : α
  blank_of_gone : ∀ c, gone c = true → blank c = true
  blank_space : blank space = true
  gone_space : gone space = false

namespace Layout

variable {α : Type*} {blank : α → Bool} (y : Layout blank) {run : Bool} {l m : List α} {c : α}

/-- The text in the new layout. After a blank, which `run` says, no second one is written. -/
def squash : Bool → List α → List α
  | _, [] => []
  | run, c :: cs =>
    if y.gone c then squash run cs
    else if blank c then
      if run then squash true cs else y.space :: squash true cs
    else c :: squash false cs

/-- Whether a blank was the last that is written. -/
def runs : Bool → List α → Bool
  | run, [] => run
  | run, c :: cs => if y.gone c then runs run cs else runs (blank c) cs

@[simp] lemma squash_nil : y.squash run [] = [] := rfl

lemma squash_gone (h : y.gone c = true) : y.squash run (c :: l) = y.squash run l := by
  rw [squash, if_pos h]

lemma squash_blank (h : y.gone c = false) (hc : blank c = true) :
    y.squash run (c :: l) = if run then y.squash true l else y.space :: y.squash true l := by
  rw [squash, if_neg (by simp [h]), if_pos hc]

lemma gone_of_not_blank (hc : blank c = false) : y.gone c = false := by
  by_contra h
  have hblank := y.blank_of_gone c (by simpa using h)
  rw [hc] at hblank
  cases hblank

lemma squash_cons (hc : blank c = false) : y.squash run (c :: l) = c :: y.squash false l := by
  rw [squash, if_neg (by simp [y.gone_of_not_blank hc]), if_neg (by simp [hc])]

lemma squash_append (run : Bool) (l m : List α) :
    y.squash run (l ++ m) = y.squash run l ++ y.squash (y.runs run l) m := by
  induction l generalizing run with
  | nil => rfl
  | cons c l ih =>
    simp only [List.cons_append, squash, runs]
    split_ifs with hgone hblank
    · exact ih run
    · simp [ih, hblank]
    · simp [ih, hblank]
    · simp [ih, hblank]

lemma squash_of_not_blank {w : List α} (hne : w ≠ []) (hw : ∀ c ∈ w, blank c = false) :
    y.squash run (w ++ l) = w ++ y.squash false l := by
  induction w generalizing run with
  | nil => exact absurd rfl hne
  | cons c w ih =>
    obtain ⟨hc, hw⟩ := List.forall_mem_cons.mp hw
    rw [List.cons_append, squash_cons y hc]
    cases w with
    | nil => rfl
    | cons d w => exact congrArg (c :: ·) (ih (List.cons_ne_nil d w) hw)

lemma length_squash_le (run : Bool) (l : List α) : (y.squash run l).length ≤ l.length := by
  induction l generalizing run with
  | nil => exact le_rfl
  | cons c l ih =>
    simp only [squash]
    split_ifs
    · exact (ih run).trans (Nat.le_succ _)
    · exact (ih true).trans (Nat.le_succ _)
    · exact Nat.succ_le_succ (ih true)
    · exact Nat.succ_le_succ (ih false)

lemma squash_squash (run : Bool) (l : List α) : y.squash run (y.squash run l) = y.squash run l := by
  induction l generalizing run with
  | nil => rfl
  | cons c l ih =>
    simp only [squash]
    split_ifs with hgone hblank hrun
    · exact ih run
    · rw [hrun]
      exact ih true
    · rw [squash_blank y y.gone_space y.blank_space, if_neg hrun, ih true]
    · rw [squash_cons y (by simpa using hblank), ih false]

/-- The beginning of a text in the new layout is in the new layout. -/
lemma squash_of_prefix (h : m <+: y.squash run l) : y.squash run m = m := by
  obtain ⟨rest, hrest⟩ := h
  have hall := y.squash_squash run l
  rw [← hrest, squash_append] at hall
  have hlength := congrArg List.length hall
  simp only [List.length_append] at hlength
  have hle := y.length_squash_le run m
  have hle' := y.length_squash_le (y.runs run m) rest
  exact (List.append_inj hall (by omega)).1

lemma dropWhile_squash (run : Bool) (l : List α) :
    (y.squash run l).dropWhile blank = y.squash false (l.dropWhile blank) := by
  induction l generalizing run with
  | nil => rfl
  | cons c l ih =>
    cases hblank : blank c with
    | false =>
      rw [squash_cons y hblank, List.dropWhile_cons_of_neg (by simp [hblank]),
        List.dropWhile_cons_of_neg (by simp [hblank]), squash_cons y hblank]
    | true =>
      rw [List.dropWhile_cons_of_pos hblank]
      cases hgone : y.gone c with
      | true => rw [squash_gone y hgone, ih]
      | false =>
        rw [squash_blank y hgone hblank]
        split_ifs
        · exact ih true
        · rw [List.dropWhile_cons_of_pos y.blank_space, ih]

end Layout

namespace Lexer

variable {σ α : Type*} (L : Lexer σ α) {s : σ} {l m post : List α} {c : α} {cs : List α}

/-- The lexeme that begins here. -/
def first (s : σ) (l : List α) : List α := l.take (max 1 (L.munch s l))

/-- The state after the first lexeme, and the rest of the text. -/
def rest (s : σ) (l : List α) : σ × List α :=
  (L.next s (L.first s l), l.drop (L.first s l).length)

def placesFrom : Nat → σ → List α → List (σ × List α)
  | 0, _, _ => []
  | n + 1, s, l =>
    match l.dropWhile L.blank with
    | [] => []
    | c :: cs => (s, c :: cs) :: placesFrom n (L.rest s (c :: cs)).1 (L.rest s (c :: cs)).2

/-- The places where a lexeme begins: the state there, and the text from there on. -/
def places (s : σ) (l : List α) : List (σ × List α) := L.placesFrom l.length s l

def lexemes (s : σ) (l : List α) : List (List α) := (L.places s l).map fun p => L.first p.1 p.2

/-- The lexemes that are no comments. -/
def tokens (s : σ) (l : List α) : List (List α) := (L.lexemes s l).filter fun ℓ => !L.comment ℓ

/-- The state at the end of the text. -/
def after (s : σ) (l : List α) : σ := (L.lexemes s l).foldl L.next s

lemma first_append_rest (s : σ) (l : List α) : L.first s l ++ (L.rest s l).2 = l := by
  have hprefix : L.first s l <+: l := List.take_prefix _ _
  exact (List.prefix_iff_eq_append.mp hprefix)

lemma length_rest_lt (s : σ) (c : α) (cs : List α) : (L.rest s (c :: cs)).2.length ≤ cs.length := by
  simp only [rest, first, List.length_drop, List.length_take, List.length_cons]
  omega

lemma length_le_of_dropWhile (h : l.dropWhile L.blank = c :: cs) : cs.length < l.length := by
  have hle := (List.dropWhile_suffix (l := l) L.blank).length_le
  rw [h] at hle
  exact hle

lemma blank_of_dropWhile (h : l.dropWhile L.blank = c :: cs) : L.blank c = false := by
  have hhead := List.head_dropWhile_not L.blank (l := l) (by rw [h]; exact List.cons_ne_nil _ _)
  simpa [h] using hhead

lemma placesFrom_congr {n k : Nat} (hn : l.length ≤ n) (hk : l.length ≤ k) :
    L.placesFrom n s l = L.placesFrom k s l := by
  induction n generalizing k s l with
  | zero =>
    obtain rfl := List.eq_nil_of_length_eq_zero (Nat.le_zero.mp hn)
    cases k <;> rfl
  | succ n ih =>
    cases k with
    | zero =>
      obtain rfl := List.eq_nil_of_length_eq_zero (Nat.le_zero.mp hk)
      rfl
    | succ k =>
      simp only [placesFrom]
      cases h : l.dropWhile L.blank with
      | nil => rfl
      | cons c cs =>
        have hlt := L.length_le_of_dropWhile h
        have hrest := L.length_rest_lt s c cs
        exact congrArg _ (ih (by omega) (by omega))

lemma places_of_blank (h : l.dropWhile L.blank = []) : L.places s l = [] := by
  rw [places]
  cases l.length with
  | zero => rfl
  | succ n => simp only [placesFrom, h]

lemma places_of_lexeme (h : l.dropWhile L.blank = c :: cs) :
    L.places s l =
      (s, c :: cs) :: L.places (L.rest s (c :: cs)).1 (L.rest s (c :: cs)).2 := by
  have hlt := L.length_le_of_dropWhile h
  have hrest := L.length_rest_lt s c cs
  obtain ⟨n, hn⟩ := Nat.exists_eq_succ_of_ne_zero (Nat.ne_zero_of_lt hlt)
  rw [places, hn]
  simp only [placesFrom, h]
  exact congrArg _ (L.placesFrom_congr (by omega) le_rfl)

theorem induction {motive : σ → List α → Prop}
    (blank : ∀ s l, l.dropWhile L.blank = [] → motive s l)
    (lexeme : ∀ s l c cs, l.dropWhile L.blank = c :: cs →
      motive (L.rest s (c :: cs)).1 (L.rest s (c :: cs)).2 → motive s l)
    (s : σ) (l : List α) : motive s l := by
  induction hn : l.length using Nat.strong_induction_on generalizing s l with
  | _ n ih =>
    cases h : l.dropWhile L.blank with
    | nil => exact blank s l h
    | cons c cs =>
      have hlt := L.length_le_of_dropWhile h
      have hrest := L.length_rest_lt s c cs
      exact lexeme s l c cs h (ih _ (by omega) _ _ rfl)

lemma tokens_of_blank (h : l.dropWhile L.blank = []) : L.tokens s l = [] := by
  rw [tokens, lexemes, L.places_of_blank h]
  rfl

lemma tokens_of_comment (h : l.dropWhile L.blank = c :: cs)
    (hcomment : L.comment (L.first s (c :: cs)) = true) :
    L.tokens s l = L.tokens s (L.rest s (c :: cs)).2 := by
  rw [tokens, lexemes, L.places_of_lexeme h, List.map_cons, List.filter_cons_of_neg (by simpa)]
  rw [show (L.rest s (c :: cs)).1 = s from L.next_comment s _ hcomment]
  rfl

lemma tokens_of_token (h : l.dropWhile L.blank = c :: cs)
    (htoken : L.comment (L.first s (c :: cs)) = false) :
    L.tokens s l =
      L.first s (c :: cs) :: L.tokens (L.rest s (c :: cs)).1 (L.rest s (c :: cs)).2 := by
  rw [tokens, lexemes, L.places_of_lexeme h, List.map_cons, List.filter_cons_of_pos (by simpa)]
  rfl

lemma after_of_blank (h : l.dropWhile L.blank = []) : L.after s l = s := by
  rw [after, lexemes, L.places_of_blank h]
  rfl

lemma after_of_lexeme (h : l.dropWhile L.blank = c :: cs) :
    L.after s l = L.after (L.rest s (c :: cs)).1 (L.rest s (c :: cs)).2 := by
  rw [after, lexemes, L.places_of_lexeme h]
  rfl

lemma places_congr (h : l.dropWhile L.blank = m.dropWhile L.blank) :
    L.places s l = L.places s m := by
  cases hl : l.dropWhile L.blank with
  | nil => rw [L.places_of_blank hl, L.places_of_blank (h ▸ hl)]
  | cons c cs =>
    have hm : m.dropWhile L.blank = c :: cs := h ▸ hl
    rw [L.places_of_lexeme hl, L.places_of_lexeme hm]

lemma tokens_congr (h : l.dropWhile L.blank = m.dropWhile L.blank) :
    L.tokens s l = L.tokens s m := by
  rw [tokens, tokens, lexemes, lexemes, L.places_congr h]

/-! ### Texts put together from lexemes -/

lemma lexemes_of_blank (h : l.dropWhile L.blank = []) : L.lexemes s l = [] := by
  rw [lexemes, L.places_of_blank h]
  rfl

lemma lexemes_of_lexeme (h : l.dropWhile L.blank = c :: cs) :
    L.lexemes s l = L.first s (c :: cs) ::
      L.lexemes (L.rest s (c :: cs)).1 (L.rest s (c :: cs)).2 := by
  rw [lexemes, L.places_of_lexeme h, List.map_cons]
  rfl

lemma lexemes_append_of_blank {b : List α} (hb : ∀ c ∈ b, L.blank c = true) :
    L.lexemes s (b ++ l) = L.lexemes s l := by
  rw [lexemes, lexemes, L.places_congr (List.dropWhile_append_of_pos hb)]

/-- The lexemes, each with the blanks that follow it, in front of `z`. -/
def spell (ps : List (List α × List α)) (z : List α) : List α :=
  ps.foldr (fun p text => p.1 ++ (p.2 ++ text)) z

/-- Each of them is read where it stands. -/
def ReadsAs (s : σ) (z : List α) : List (List α × List α) → Prop
  | [] => True
  | p :: ps => L.first s (p.1 ++ (p.2 ++ spell ps z)) = p.1 ∧ ReadsAs s z ps

lemma spell_append (ps qs : List (List α × List α)) (z : List α) :
    spell (ps ++ qs) z = spell ps (spell qs z) := List.foldr_append

lemma readsAs_append {ps qs : List (List α × List α)} {z : List α} :
    L.ReadsAs s z (ps ++ qs) ↔ L.ReadsAs s (spell qs z) ps ∧ L.ReadsAs s z qs := by
  induction ps with
  | nil => simp [ReadsAs]
  | cons p ps ih => simp [ReadsAs, ih, spell_append, and_assoc]

/-- Lexemes that leave the state as it is are read exactly if each is read where it stands. -/
theorem lexemes_spell_iff {ps : List (List α × List α)}
    (hhead : ∀ p ∈ ps, ∃ c cs, p.1 = c :: cs ∧ L.blank c = false)
    (hstate : ∀ p ∈ ps, L.next s p.1 = s) (hblank : ∀ p ∈ ps, ∀ c ∈ p.2, L.blank c = true) :
    L.lexemes s (spell ps []) = ps.map Prod.fst ↔ L.ReadsAs s [] ps := by
  induction ps with
  | nil => exact iff_of_true (L.lexemes_of_blank rfl) trivial
  | cons p ps ih =>
    obtain ⟨⟨c, cs, hp, hc⟩, hhead⟩ := List.forall_mem_cons.mp hhead
    obtain ⟨hs, hstate⟩ := List.forall_mem_cons.mp hstate
    obtain ⟨hb, hblank⟩ := List.forall_mem_cons.mp hblank
    have htext : spell (p :: ps) [] = p.1 ++ (p.2 ++ spell ps []) := rfl
    have hdrop : (spell (p :: ps) []).dropWhile L.blank = c :: (cs ++ (p.2 ++ spell ps [])) := by
      rw [htext, hp]
      exact List.dropWhile_cons_of_neg (by simp [hc])
    rw [L.lexemes_of_lexeme hdrop, ← List.cons_append, ← hp, List.map_cons, List.cons.injEq, ReadsAs]
    refine and_congr_right fun hfirst => ?_
    rw [rest, hfirst, hs, List.drop_left, L.lexemes_append_of_blank hb]
    exact ih hhead hstate hblank

/-! ### In a new layout

The text stands in front of `post` when it gets the new layout, and `z` is appended afterwards. -/

variable (y : Layout L.blank) (post z : List α)

/-- The lexeme that begins at a place, in the new layout. -/
def anew (p : σ × List α) : List α := L.first p.1 (y.squash false (p.2 ++ post) ++ z)

/-- The comments of the text are comments in the new layout, and no others begin. -/
def KeepsComments (s : σ) (l : List α) : Prop :=
  ∀ p ∈ L.places s l, L.comment (L.anew y post z p) = L.comment (L.first p.1 p.2) ∧
    (L.comment (L.first p.1 p.2) = true →
      L.anew y post z p = y.squash false (L.first p.1 p.2))

/-- Every token of the text is also read in the new layout. -/
def Stable (s : σ) (l : List α) : Prop :=
  ∀ p ∈ L.places s l, L.comment (L.first p.1 p.2) = false →
    L.anew y post z p = L.first p.1 p.2

instance [DecidableEq α] : Decidable (L.KeepsComments y post z s l) :=
  inferInstanceAs (Decidable (∀ p ∈ L.places s l, _))

instance [DecidableEq α] : Decidable (L.Stable y post z s l) :=
  inferInstanceAs (Decidable (∀ p ∈ L.places s l, _))

variable {y post z}

/-- What is left after a lexeme that the new layout has as it has the rest of the text. -/
lemma rest_anew (h : L.anew y post z (s, l) = y.squash false (L.first s l)) :
    ∃ run, (L.rest s (y.squash false (l ++ post) ++ z)).2 =
      y.squash run ((L.rest s l).2 ++ post) ++ z := by
  have hlayout : y.squash false (l ++ post) ++ z = y.squash false (L.first s l) ++
      (y.squash (y.runs false (L.first s l)) ((L.rest s l).2 ++ post) ++ z) := by
    rw [← List.append_assoc, ← y.squash_append, ← List.append_assoc, L.first_append_rest]
  refine ⟨y.runs false (L.first s l), ?_⟩
  have hfirst : L.first s (y.squash false (l ++ post) ++ z) = y.squash false (L.first s l) := h
  rw [rest, hfirst, hlayout]
  exact List.drop_left

/-- A lexeme that is read in the new layout was in it before. -/
lemma squash_of_anew (hpost : post.dropWhile L.blank ≠ [])
    (h : L.anew y post z (s, l) = L.first s l) :
    y.squash false (L.first s l) = L.first s l := by
  have hprefix : L.first s l <+: y.squash false (l ++ post) ++ z := by
    rw [← h]
    exact List.take_prefix _ _
  rcases List.prefix_or_prefix_of_prefix hprefix (List.prefix_append _ z) with hshort | hlong
  · exact y.squash_of_prefix hshort
  · -- the lexeme would be longer than the text in front of `post`
    exfalso
    obtain ⟨more, hmore⟩ := hlong
    have hall := congrArg List.length (y.squash_append false (y.squash false (l ++ post)) more)
    have htext := congrArg List.length (y.squash_append false (L.first s l) (L.rest s l).2)
    have hsplit := congrArg List.length (y.squash_append false l post)
    rw [hmore, y.squash_squash] at hall
    rw [L.first_append_rest] at htext
    simp only [List.length_append] at hall htext hsplit
    have hne : 0 < (y.squash (y.runs false l) post).length := by
      apply List.length_pos_of_ne_nil
      intro hnil
      have hdrop := y.dropWhile_squash (y.runs false l) post
      rw [hnil] at hdrop
      obtain ⟨c, cs, hcons⟩ := List.exists_cons_of_ne_nil hpost
      rw [hcons, y.squash_cons (L.blank_of_dropWhile hcons)] at hdrop
      cases hdrop
    omega

theorem tokens_squash_iff {run : Bool} (hpost : post.dropWhile L.blank ≠ [])
    (hkept : L.KeepsComments y post z s l) :
    L.tokens s (y.squash run (l ++ post) ++ z) =
        L.tokens s l ++ L.tokens (L.after s l) (y.squash false post ++ z) ↔
      L.Stable y post z s l := by
  have hdrop : ∀ {run l c cs}, l.dropWhile L.blank = c :: cs →
      (y.squash run l ++ z).dropWhile L.blank = c :: (y.squash false cs ++ z) := by
    intro run l c cs h
    rw [List.dropWhile_append, y.dropWhile_squash, h, y.squash_cons (L.blank_of_dropWhile h)]
    rfl
  induction s, l using L.induction generalizing run with
  | blank s l h =>
    rw [L.tokens_of_blank h, L.after_of_blank h, List.nil_append]
    refine iff_of_true (L.tokens_congr ?_) ?_
    · obtain ⟨c, cs, hcons⟩ := List.exists_cons_of_ne_nil hpost
      have hall : (l ++ post).dropWhile L.blank = c :: cs := by
        rw [List.dropWhile_append, h]
        exact hcons
      rw [hdrop hall, hdrop hcons]
    · intro p hp
      rw [L.places_of_blank h] at hp
      cases hp
  | lexeme s l c cs h ih =>
    have hplaces := L.places_of_lexeme (s := s) h
    simp only [KeepsComments, Stable, hplaces, List.forall_mem_cons] at hkept ⊢
    obtain ⟨⟨hcomment, hsquash⟩, hkept⟩ := hkept
    -- the text in the new layout, from the place of the lexeme on
    have hnew : (y.squash run (l ++ post) ++ z).dropWhile L.blank =
        c :: (y.squash false (cs ++ post) ++ z) := by
      apply hdrop
      rw [List.dropWhile_append, h]
      rfl
    have hcons : y.squash false (c :: cs ++ post) ++ z = c :: (y.squash false (cs ++ post) ++ z) :=
      congrArg (· ++ z) (y.squash_cons (L.blank_of_dropWhile h))
    rw [L.after_of_lexeme h]
    cases hfirst : L.comment (L.first s (c :: cs)) with
    | true =>
      obtain ⟨run', hrest⟩ := L.rest_anew (hsquash hfirst)
      rw [hfirst, anew, hcons] at hcomment
      rw [hcons] at hrest
      have hstate : (L.rest s (c :: cs)).1 = s := L.next_comment s _ hfirst
      rw [hstate] at ih hkept ⊢
      rw [L.tokens_of_comment hnew hcomment, L.tokens_of_comment h hfirst, hrest]
      exact (ih hkept).trans (and_iff_right fun hnot => Bool.noConfusion hnot).symm
    | false =>
      rw [hfirst, anew, hcons] at hcomment
      rw [L.tokens_of_token hnew hcomment, L.tokens_of_token h hfirst, List.cons_append,
        List.cons.injEq]
      simp only [anew, hcons, forall_const]
      refine and_congr_right fun hsame => ?_
      have hkeep : L.anew y post z (s, c :: cs) = L.first s (c :: cs) := by
        rw [anew, hcons, hsame]
      obtain ⟨run', hrest⟩ := L.rest_anew (hkeep.trans (L.squash_of_anew hpost hkeep).symm)
      rw [hcons] at hrest
      have hstate : (L.rest s (c :: (y.squash false (cs ++ post) ++ z))).1 =
          (L.rest s (c :: cs)).1 := by
        rw [rest, rest, hsame]
      rw [hrest, hstate]
      exact ih hkept

end Lexer
