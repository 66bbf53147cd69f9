import Mathlib.Data.List.Count
import Verilua.Handles.Basic

/-!
# Placeholders in a text

A text with placeholders as a list of pieces. For keys that stand for themselves in a pattern the
substitutions go from pieces to pieces: a value without `%` is put in literally, and with one the
placeholder is left in, or a `%` is lost.
-/

namespace Verilua.Handles

open LuaPattern

/-- Plain text, or a key in braces. -/
inductive Piece
  | lit (t : Text)
  | key (k : Text)

namespace Piece

def text : Piece → Text
  | .lit t | .key t => t

def written : Piece → Text
  | .lit t => t
  | .key k => '{' :: k ++ ['}']

/-- None of the characters occurs in the text. -/
def Free (bad : List Char) (x : Piece) : Prop := ∀ c ∈ x.text, c ∉ bad

end Piece

def written (ps : List Piece) : Text := ps.flatMap Piece.written

def braces : List Char := ['{', '}']

def Piece.keys : Piece → List Text
  | .lit _ => []
  | .key k => [k]

/-- The keys of a text, in order. -/
def keys (ps : List Piece) : List Text := ps.flatMap Piece.keys

/-- A key that stands for itself in a pattern. -/
def Plain (k : Text) : Prop := ∀ c ∈ k, c ∉ special

instance (k : Text) : Decidable (Plain k) := List.decidableBAll _ _

instance (bad : List Char) (x : Piece) : Decidable (x.Free bad) := List.decidableBAll _ _

def valueOf (params : Params) (k : Text) : Text :=
  ((params.lookup k).map Value.tostring).getD []

@[simp] lemma written_nil : written [] = [] := rfl

@[simp] lemma written_cons (x : Piece) (ps : List Piece) :
    written (x :: ps) = x.written ++ written ps := rfl

lemma written_append (ps qs : List Piece) : written (ps ++ qs) = written ps ++ written qs :=
  List.flatMap_append

/-! ### Finding the placeholders -/

lemma placeholdersFrom_append {u : Text} (hu : ∀ c ∈ u, c ∉ braces) (rest : Text) :
    placeholdersFrom none (u ++ rest) = placeholdersFrom none rest := by
  induction u with
  | nil => rfl
  | cons c u ih =>
    have hc := hu c List.mem_cons_self
    have hopen : c ≠ '{' := fun h => hc (h ▸ by decide)
    have hclose : c ≠ '}' := fun h => hc (h ▸ by decide)
    rw [List.cons_append, placeholdersFrom, if_neg hopen, if_neg hclose]
    split_ifs
    · exact ih fun d hd => hu d (List.mem_cons_of_mem _ hd)
    · exact ih fun d hd => hu d (List.mem_cons_of_mem _ hd)

lemma placeholdersFrom_key {k : Text} (hk : ∀ c ∈ k, c ∉ braces) (hplain : Plain k)
    (opened rest : Text) :
    placeholdersFrom (some opened) (k ++ '}' :: rest) =
      (opened ++ k) :: placeholdersFrom none rest := by
  induction k generalizing opened with
  | nil => simp [placeholdersFrom]
  | cons c k ih =>
    have hc := hk c List.mem_cons_self
    have hspecial := hplain c List.mem_cons_self
    have hopen : c ≠ '{' := fun h => hc (h ▸ by decide)
    have hclose : c ≠ '}' := fun h => hc (h ▸ by decide)
    have hparen : ¬ (c = '(' ∨ c = ')') := by
      rintro (rfl | rfl) <;> exact hspecial (by decide)
    rw [List.cons_append, placeholdersFrom, if_neg hopen, if_neg hclose, if_neg hparen,
      Option.map_some, ih (fun d hd => hk d (List.mem_cons_of_mem _ hd))
        (fun d hd => hplain d (List.mem_cons_of_mem _ hd)), List.append_assoc]
    rfl

lemma placeholders_written {ps : List Piece} (hps : ∀ x ∈ ps, x.Free braces)
    (hplain : ∀ k ∈ keys ps, Plain k) : placeholders (written ps) = keys ps := by
  unfold placeholders
  induction ps with
  | nil => rfl
  | cons x ps ih =>
    have hx := hps x List.mem_cons_self
    have hrest : ∀ y ∈ ps, y.Free braces := fun y hy => hps y (List.mem_cons_of_mem _ hy)
    cases x with
    | lit t => exact (placeholdersFrom_append hx _).trans (ih hrest hplain)
    | key k =>
      have hkey := placeholdersFrom_key hx (hplain k List.mem_cons_self) [] (written ps)
      rw [List.nil_append, ih hrest fun j hj => hplain j (List.mem_cons_of_mem _ hj)] at hkey
      rw [written_cons, Piece.written, List.append_assoc, List.cons_append, placeholdersFrom,
        if_pos rfl]
      exact hkey

/-! ### Putting a value in -/

/-- What the value of `k` becomes as a replacement text. -/
def expandPieces (k : Text) : Text → Option (List Piece)
  | [] => some []
  | '%' :: [] => some [.lit ['\x00']]
  | '%' :: d :: ds =>
    if d.isDigit then
      if d = '0' ∨ d = '1' then (.key k :: ·) <$> expandPieces k ds else none
    else (.lit [d] :: ·) <$> expandPieces k ds
  | c :: cs => (.lit [c] :: ·) <$> expandPieces k cs

def putIn (params : Params) (k : Text) : Piece → Option (List Piece)
  | .lit t => some [.lit t]
  | .key j => if j = k then expandPieces k (valueOf params k) else some [.key j]

/-- One substitution. -/
def stepPieces (params : Params) (k : Text) : List Piece → Option (List Piece)
  | [] => some []
  | x :: ps => do return (← putIn params k x) ++ (← stepPieces params k ps)

/-- All substitutions. -/
def runPieces (params : Params) (ks : List Text) (ps : List Piece) : Option (List Piece) :=
  ks.foldlM (fun ps k => stepPieces params k ps) ps

lemma expand_eq (k v : Text) :
    expand ('{' :: k ++ ['}']) v = (expandPieces k v).map written := by
  induction v using expandPieces.induct with
  | case1 => rfl
  | case2 => rfl
  | case3 d ds hdigit hwhole ih =>
    rw [expand, expandPieces, if_pos hdigit, if_pos hdigit, if_pos hwhole, if_pos hwhole, ih]
    cases expandPieces k ds <;> rfl
  | case4 d ds hdigit hwhole =>
    rw [expand, expandPieces, if_pos hdigit, if_pos hdigit, if_neg hwhole, if_neg hwhole]
    rfl
  | case5 d ds hdigit ih =>
    rw [expand, expandPieces, if_neg hdigit, if_neg hdigit, ih]
    cases expandPieces k ds <;> rfl
  | case6 c cs hlast hescape ih =>
    rw [expand, expandPieces, ih]
    · cases expandPieces k cs <;> rfl
    · exact hlast
    · exact hescape
    · exact hlast
    · exact hescape

lemma eq_of_append_close {k j a b : Text} (hk : ∀ c ∈ k, c ∉ braces) (hj : ∀ c ∈ j, c ∉ braces)
    (h : k ++ '}' :: a = j ++ '}' :: b) : k = j := by
  induction k generalizing j with
  | nil =>
    cases j with
    | nil => rfl
    | cons d j => exact absurd ((List.cons.inj h).1 ▸ by decide) (hj d List.mem_cons_self)
  | cons c k ih =>
    cases j with
    | nil => exact absurd ((List.cons.inj h).1 ▸ by decide) (hk c List.mem_cons_self)
    | cons d j =>
      obtain ⟨hhead, htail⟩ := List.cons.inj h
      rw [hhead, ih (fun e he => hk e (List.mem_cons_of_mem _ he))
        (fun e he => hj e (List.mem_cons_of_mem _ he)) htail]

lemma Piece.key_written_ne_nil (k : Text) : (Piece.key k).written ≠ [] :=
  List.cons_ne_nil _ _

lemma Piece.written_eq_append (k : Text) (rest : Text) :
    (Piece.key k).written ++ rest = '{' :: (k ++ '}' :: rest) := by
  simp [Piece.written]

lemma gsubFrom_other {j k : Text} (hj : ∀ c ∈ j, c ∉ braces) (hk : ∀ c ∈ k, c ∉ braces)
    (hne : j ≠ k) (v rest : Text) (n : ℕ) :
    gsubFrom (lits (Piece.key k).written) v ((Piece.key j).written.length + n)
        ((Piece.key j).written ++ rest) =
      ((Piece.key j).written ++ ·) <$> gsubFrom (lits (Piece.key k).written) v n rest := by
  have hprefix : ¬ (Piece.key k).written <+: '{' :: (j ++ '}' :: rest) := by
    rintro ⟨t, ht⟩
    rw [Piece.written_eq_append] at ht
    exact hne (eq_of_append_close hk hj (List.cons.inj ht).2).symm
  have htail : ∀ c ∈ j ++ ['}'], (Piece.key k).written.head? ≠ some c := by
    intro c hc h
    obtain rfl : '{' = c := Option.some.inj h
    rcases List.mem_append.1 hc with hc | hc
    · exact hj _ hc (by decide)
    · exact absurd hc (by decide)
  have happend := gsubFrom_append (Piece.key_written_ne_nil k) htail v rest n
  have hlen : (Piece.key j).written.length + n = (j ++ ['}']).length + n + 1 := by
    simp only [Piece.written, List.length_cons, List.length_append, List.cons_append]
    omega
  rw [List.append_assoc, List.singleton_append] at happend
  rw [Piece.written_eq_append, hlen, gsubFrom_of_not_prefix hprefix, happend]
  cases gsubFrom (lits (Piece.key k).written) v n rest <;> simp [Piece.written]

lemma gsubFrom_written {k : Text} (hk : ∀ c ∈ k, c ∉ braces) (params : Params)
    {ps : List Piece} (hps : ∀ x ∈ ps, x.Free braces) (n : ℕ) :
    gsubFrom (lits (Piece.key k).written) (valueOf params k) ((written ps).length + (n + 1))
      (written ps) = (stepPieces params k ps).map written := by
  induction ps generalizing n with
  | nil =>
    have hnone : ¬ (Piece.key k).written <+: [] := by simp [Piece.written]
    rw [written_nil, List.length_nil, Nat.zero_add, gsubFrom.eq_def]
    simp only [matchItems_lits_fail hnone]
    rfl
  | cons x ps ih =>
    have hx : ∀ c ∈ x.text, c ∉ braces := hps x List.mem_cons_self
    have ih := ih fun y hy => hps y (List.mem_cons_of_mem _ hy)
    rw [written_cons, List.length_append, Nat.add_assoc, stepPieces]
    cases x with
    | lit t =>
      have htext : ∀ c ∈ t, (Piece.key k).written.head? ≠ some c := by
        intro c hc h
        obtain rfl : '{' = c := Option.some.inj h
        exact hx _ hc (by decide)
      have happend := gsubFrom_append (Piece.key_written_ne_nil k) htext (valueOf params k)
        (written ps) ((written ps).length + (n + 1))
      rw [ih] at happend
      refine happend.trans ?_
      cases stepPieces params k ps <;> rfl
    | key j =>
      by_cases hjk : j = k
      · subst hjk
        have hlen : (Piece.key j).written.length + ((written ps).length + (n + 1)) =
            (written ps).length + ((Piece.key j).written.length + n) + 1 := by omega
        have hpos : (Piece.key j).written.length + n =
            ((Piece.key j).written.length - 1 + n) + 1 := by
          simp only [Piece.written, List.cons_append, List.length_cons]
          omega
        rw [hlen, gsubFrom_lits (Piece.key_written_ne_nil j), hpos, ih,
          putIn, if_pos rfl]
        rw [show expand (Piece.key j).written (valueOf params j) = _ from expand_eq j _]
        cases expandPieces j (valueOf params j) with
        | none => rfl
        | some w =>
          cases stepPieces params j ps with
          | none => rfl
          | some r => exact congrArg some (written_append w r).symm
      · rw [gsubFrom_other (j := j) hx hk hjk, ih, putIn, if_neg hjk]
        cases stepPieces params k ps <;> rfl

lemma gsub_written {k : Text} (hk : ∀ c ∈ k, c ∉ braces) (hplain : Plain k) (params : Params)
    {ps : List Piece} (hps : ∀ x ∈ ps, x.Free braces) :
    gsub (written ps) ('{' :: k ++ ['}']) (valueOf params k) =
      (stepPieces params k ps).map written := by
  have hitems : items (Piece.key k).written = lits (Piece.key k).written := by
    refine items_of_plain (fun c hc => ?_) ?_
    · rcases List.mem_append.1 hc with hc | hc
      · rcases List.mem_cons.1 hc with rfl | hc
        · decide
        · exact hplain c hc
      · rw [List.mem_singleton.1 hc]
        decide
    · rw [Piece.written, List.getLast?_append]
      simp
  have h := gsubFrom_written hk params hps 0
  rw [gsub]
  exact (congrArg (fun is => gsubFrom is _ _ _) hitems).trans h

/-! ### All substitutions -/

section Free

variable {bad : List Char} {params : Params} {k : Text} {ps r w : List Piece}

/-- What holds of the key itself, of a null character and of the characters of the value holds of all
that the value becomes. -/
lemma forall_of_expandPieces {P : Piece → Prop} {v : Text} (hkey : P (.key k))
    (hnull : P (.lit ['\x00'])) (hv : ∀ c ∈ v, P (.lit [c])) (h : expandPieces k v = some w) :
    ∀ x ∈ w, P x := by
  induction v using expandPieces.induct generalizing w with
  | case1 =>
    obtain rfl := Option.some.inj h
    exact fun _ hx => absurd hx List.not_mem_nil
  | case2 =>
    obtain rfl := Option.some.inj h
    exact fun x hx => List.mem_singleton.1 hx ▸ hnull
  | case3 d ds hdigit hwhole ih =>
    rw [expandPieces, if_pos hdigit, if_pos hwhole] at h
    obtain ⟨w', hw', rfl⟩ := Option.map_eq_some_iff.1 h
    exact List.forall_mem_cons.2 ⟨hkey, ih (fun c hc => hv c (by simp [hc])) hw'⟩
  | case4 d ds hdigit hwhole =>
    rw [expandPieces, if_pos hdigit, if_neg hwhole] at h
    cases h
  | case5 d ds hdigit ih =>
    rw [expandPieces, if_neg hdigit] at h
    obtain ⟨w', hw', rfl⟩ := Option.map_eq_some_iff.1 h
    exact List.forall_mem_cons.2 ⟨hv d (by simp), ih (fun c hc => hv c (by simp [hc])) hw'⟩
  | case6 c cs hlast hescape ih =>
    rw [expandPieces] at h
    · obtain ⟨w', hw', rfl⟩ := Option.map_eq_some_iff.1 h
      exact List.forall_mem_cons.2 ⟨hv c (by simp), ih (fun d hd => hv d (by simp [hd])) hw'⟩
    · exact hlast
    · exact hescape

lemma stepPieces_cons_eq_some {x : Piece} (h : stepPieces params k (x :: ps) = some r) :
    ∃ w r', putIn params k x = some w ∧ stepPieces params k ps = some r' ∧ r = w ++ r' := by
  simp only [stepPieces, Option.bind_eq_bind, Option.bind_eq_some_iff] at h
  obtain ⟨w, hw, r', hr', h⟩ := h
  exact ⟨w, r', hw, hr', (Option.some.inj h).symm⟩

lemma free_of_stepPieces (hnull : '\x00' ∉ bad) (hv : ∀ c ∈ valueOf params k, c ∉ bad)
    (hps : ∀ x ∈ ps, x.Free bad) (h : stepPieces params k ps = some r) : ∀ x ∈ r, x.Free bad := by
  induction ps generalizing r with
  | nil =>
    obtain rfl := Option.some.inj h
    exact hps
  | cons x ps ih =>
    obtain ⟨w, r', hw, hr', rfl⟩ := stepPieces_cons_eq_some h
    have hx := hps x List.mem_cons_self
    refine List.forall_mem_append.2 ⟨?_, ih (fun y hy => hps y (List.mem_cons_of_mem _ hy)) hr'⟩
    cases x with
    | lit t =>
      obtain rfl := Option.some.inj hw
      simpa using hx
    | key j =>
      rw [putIn] at hw
      split_ifs at hw with hjk
      · subst hjk
        exact forall_of_expandPieces hx (by simpa [Piece.Free, Piece.text] using hnull)
          (fun c hc => by simpa [Piece.Free, Piece.text] using hv c hc) hw
      · obtain rfl := Option.some.inj hw
        simpa using hx

lemma free_of_runPieces (hnull : '\x00' ∉ bad) {ks : List Text}
    (hv : ∀ k ∈ ks, ∀ c ∈ valueOf params k, c ∉ bad) (hps : ∀ x ∈ ps, x.Free bad)
    (h : runPieces params ks ps = some r) : ∀ x ∈ r, x.Free bad := by
  induction ks generalizing ps with
  | nil => exact Option.some.inj h ▸ hps
  | cons k ks ih =>
    obtain ⟨ps', hstep, hrun⟩ := Option.bind_eq_some_iff.1 (List.foldlM_cons.symm.trans h)
    exact ih (fun j hj => hv j (List.mem_cons_of_mem _ hj))
      (free_of_stepPieces hnull (hv k List.mem_cons_self) hps hstep) hrun

end Free

section Run

variable {params : Params} {k : Text} {ks : List Text} {ps qs r w : List Piece}

lemma foldlM_substitute (hks : ∀ k ∈ ks, Plain k ∧ (∀ c ∈ k, c ∉ braces) ∧
      (∃ v, params.lookup k = some v) ∧ ∀ c ∈ valueOf params k, c ∉ braces)
    (hps : ∀ x ∈ ps, x.Free braces) :
    ks.foldlM (substitute params) (written ps) = (runPieces params ks ps).map written := by
  induction ks generalizing ps with
  | nil => rfl
  | cons k ks ih =>
    obtain ⟨hplain, hk, ⟨v, hlookup⟩, hv⟩ := hks k List.mem_cons_self
    have hvalue : v.tostring = valueOf params k := by rw [valueOf, hlookup]; rfl
    have hstep : substitute params (written ps) k = (stepPieces params k ps).map written := by
      rw [substitute, hlookup, Option.bind_eq_bind, Option.bind_some, hvalue]
      exact gsub_written hk hplain params hps
    rw [List.foldlM_cons, runPieces, List.foldlM_cons, hstep]
    cases hr : stepPieces params k ps with
    | none => rfl
    | some r =>
      exact ih (fun j hj => hks j (List.mem_cons_of_mem _ hj))
        (free_of_stepPieces (by decide) hv hps hr)

lemma stepPieces_append (params : Params) (k : Text) (ps qs : List Piece) :
    stepPieces params k (ps ++ qs) = do
      return (← stepPieces params k ps) ++ (← stepPieces params k qs) := by
  induction ps with
  | nil => cases h : stepPieces params k qs <;> simp [stepPieces, h]
  | cons x ps ih =>
    rw [List.cons_append, stepPieces, ih, stepPieces]
    cases putIn params k x <;> cases stepPieces params k ps <;>
      cases stepPieces params k qs <;> simp

lemma runPieces_cons (params : Params) (k : Text) (ks : List Text) (ps : List Piece) :
    runPieces params (k :: ks) ps = (stepPieces params k ps).bind (runPieces params ks) :=
  List.foldlM_cons

lemma runPieces_append (params : Params) (ks : List Text) (ps qs : List Piece) :
    runPieces params ks (ps ++ qs) = do
      return (← runPieces params ks ps) ++ (← runPieces params ks qs) := by
  induction ks generalizing ps qs with
  | nil => rfl
  | cons k ks ih =>
    rw [runPieces_cons, stepPieces_append, runPieces_cons, runPieces_cons]
    cases hp : stepPieces params k ps with
    | none => rfl
    | some p =>
      cases hq : stepPieces params k qs with
      | none => cases h : runPieces params ks p <;> simp [h]
      | some q => simpa using ih p q

/-- What becomes of one piece. -/
def final (params : Params) (ks : List Text) (x : Piece) : List Piece :=
  (runPieces params ks [x]).getD []

lemma runPieces_eq_flatMap (h : runPieces params ks ps = some r) :
    r = ps.flatMap (final params ks) ∧
      ∀ x ∈ ps, runPieces params ks [x] = some (final params ks x) := by
  induction ps generalizing r with
  | nil =>
    have hnil : runPieces params ks [] = some [] := by
      clear h
      induction ks with
      | nil => rfl
      | cons k ks ih => exact ih
    rw [hnil] at h
    exact ⟨(Option.some.inj h).symm, fun _ hx => absurd hx List.not_mem_nil⟩
  | cons x ps ih =>
    rw [← List.singleton_append, runPieces_append] at h
    simp only [Option.bind_eq_bind, Option.bind_eq_some_iff] at h
    obtain ⟨p, hp, q, hq, h⟩ := h
    obtain ⟨hflat, hall⟩ := ih hq
    have hx : final params ks x = p := by rw [final, hp]; rfl
    refine ⟨?_, List.forall_mem_cons.2 ⟨hp.trans (congrArg some hx.symm), hall⟩⟩
    rw [List.flatMap_cons, hx, ← hflat]
    exact (Option.some.inj h).symm

/-- No placeholder is left. -/
def Settled (ps : List Piece) : Prop := ∀ k, .key k ∉ ps

lemma stepPieces_of_settled (hps : Settled ps) (k : Text) : stepPieces params k ps = some ps := by
  induction ps with
  | nil => rfl
  | cons x ps ih =>
    have hrest : Settled ps := fun j hj => hps j (List.mem_cons_of_mem _ hj)
    cases x with
    | lit t => rw [stepPieces, ih hrest]; rfl
    | key j => exact absurd List.mem_cons_self (hps j)

lemma runPieces_of_settled (hps : Settled ps) (ks : List Text) :
    runPieces params ks ps = some ps := by
  induction ks with
  | nil => rfl
  | cons k ks ih => rw [runPieces_cons, stepPieces_of_settled hps, Option.bind_some, ih]

lemma final_lit (params : Params) (ks : List Text) (t : Text) :
    final params ks (.lit t) = [.lit t] := by
  rw [final, runPieces_of_settled fun k hk => by simp at hk]
  rfl

lemma eq_of_mem_expandPieces {v j : Text} (h : expandPieces k v = some w) (hj : .key j ∈ w) :
    j = k :=
  forall_of_expandPieces (P := fun x => ∀ j, x = .key j → j = k)
    (fun _ h => (Piece.key.inj h).symm) (fun _ h => Piece.noConfusion h)
    (fun _ _ _ h => Piece.noConfusion h) h _ hj j rfl

lemma exists_subset_of_stepPieces {x : Piece} (hx : x ∈ ps) (h : stepPieces params k ps = some r) :
    ∃ w, putIn params k x = some w ∧ w ⊆ r := by
  induction ps generalizing r with
  | nil => cases hx
  | cons y ps ih =>
    obtain ⟨w, r', hw, hr', rfl⟩ := stepPieces_cons_eq_some h
    rcases List.mem_cons.1 hx with rfl | hx
    · exact ⟨w, hw, List.subset_append_left _ _⟩
    · obtain ⟨w', hw', hsub⟩ := ih hx hr'
      exact ⟨w', hw', List.subset_append_of_subset_right _ hsub⟩

lemma key_mem_of_runPieces (hunsettled : ∀ w, expandPieces k (valueOf params k) = some w →
    ¬ Settled w) (hk : .key k ∈ ps) (h : runPieces params ks ps = some r) : .key k ∈ r := by
  induction ks generalizing ps with
  | nil => exact Option.some.inj h ▸ hk
  | cons j ks ih =>
    rw [runPieces_cons] at h
    obtain ⟨ps', hstep, hrun⟩ := Option.bind_eq_some_iff.1 h
    refine ih ?_ hrun
    obtain ⟨w, hw, hsub⟩ := exists_subset_of_stepPieces hk hstep
    rw [putIn] at hw
    split_ifs at hw with hkj
    · subst hkj
      have hnot := hunsettled w hw
      simp only [Settled, not_forall, not_not] at hnot
      obtain ⟨i, hi⟩ := hnot
      obtain rfl := eq_of_mem_expandPieces hw hi
      exact hsub hi
    · obtain rfl := Option.some.inj hw
      exact hsub List.mem_cons_self

lemma runPieces_key (hk : k ∈ ks) (h : runPieces params ks [.key k] = some r)
    (hr : Settled r) : expandPieces k (valueOf params k) = some r := by
  induction ks with
  | nil => cases hk
  | cons j ks ih =>
    rw [runPieces_cons] at h
    obtain ⟨ps', hstep, hrun⟩ := Option.bind_eq_some_iff.1 h
    obtain ⟨w, r', hw, hr', rfl⟩ := stepPieces_cons_eq_some hstep
    obtain rfl := Option.some.inj hr'
    rw [List.append_nil] at hrun
    by_cases hkj : k = j
    · subst hkj
      have hexpand : expandPieces k (valueOf params k) = some w := (if_pos rfl).symm.trans hw
      by_cases hsettled : Settled w
      · rw [runPieces_of_settled hsettled] at hrun
        rw [hexpand, hrun]
      · exfalso
        simp only [Settled, not_forall, not_not] at hsettled
        obtain ⟨i, hi⟩ := hsettled
        obtain rfl := eq_of_mem_expandPieces hexpand hi
        refine hr i (key_mem_of_runPieces (fun w' hw' hsettled => ?_) hi hrun)
        obtain rfl := Option.some.inj (hexpand.symm.trans hw')
        exact hsettled i hi
    · obtain rfl : [.key k] = w := Option.some.inj ((if_neg hkj).symm.trans hw)
      exact ih ((List.mem_cons.1 hk).resolve_left hkj) hrun

lemma runPieces_key_of_settled (hk : k ∈ ks) (hw : expandPieces k (valueOf params k) = some w)
    (hsettled : Settled w) : runPieces params ks [.key k] = some w := by
  induction ks with
  | nil => cases hk
  | cons j ks ih =>
    rw [runPieces_cons]
    by_cases hkj : k = j
    · subst hkj
      rw [stepPieces, putIn, if_pos rfl, hw]
      simpa [stepPieces] using runPieces_of_settled hsettled ks
    · rw [stepPieces, putIn, if_neg hkj]
      exact ih ((List.mem_cons.1 hk).resolve_left hkj)

/-! ### When the value is put in literally -/

/-- The literal text of a piece. -/
def Piece.literal (params : Params) : Piece → Text
  | .lit t => t
  | .key k => valueOf params k

def literal (params : Params) (ps : List Piece) : Text := ps.flatMap (Piece.literal params)

lemma expandPieces_of_plain {v : Text} (hv : '%' ∉ v) :
    ∃ w, expandPieces k v = some w ∧ Settled w ∧ written w = v := by
  induction v with
  | nil => exact ⟨[], rfl, fun _ => List.not_mem_nil, rfl⟩
  | cons c v ih =>
    obtain ⟨w, hw, hsettled, hwritten⟩ := ih fun h => hv (List.mem_cons_of_mem _ h)
    have hc : c ≠ '%' := fun h => hv (h ▸ List.mem_cons_self)
    refine ⟨.lit [c] :: w, ?_, fun k hk => hsettled k (by simpa using hk),
      by rw [written_cons, hwritten]; rfl⟩
    rw [expandPieces, hw]
    · rfl
    · exact fun h _ => hc h
    · exact fun _ _ h _ => hc h

lemma count_of_expandPieces {v : Text} (h : expandPieces k v = some w) (hsettled : Settled w) :
    (written w).count '%' + (if '%' ∈ v then 1 else 0) ≤ v.count '%' := by
  induction v using expandPieces.induct generalizing w with
  | case1 =>
    obtain rfl := Option.some.inj h
    simp
  | case2 =>
    obtain rfl := Option.some.inj h
    decide
  | case3 d ds hdigit hwhole ih =>
    rw [expandPieces, if_pos hdigit, if_pos hwhole] at h
    obtain ⟨w', -, rfl⟩ := Option.map_eq_some_iff.1 h
    exact absurd List.mem_cons_self (hsettled k)
  | case4 d ds hdigit hwhole =>
    rw [expandPieces, if_pos hdigit, if_neg hwhole] at h
    cases h
  | case5 d ds hdigit ih =>
    rw [expandPieces, if_neg hdigit] at h
    obtain ⟨w', hw', rfl⟩ := Option.map_eq_some_iff.1 h
    have ih := ih hw' fun j hj => hsettled j (List.mem_cons_of_mem _ hj)
    simp only [written_cons, Piece.written, List.count_append, List.count_cons, List.count_nil,
      List.mem_cons, true_or, if_true, beq_self_eq_true]
    omega
  | case6 c cs hlast hescape ih =>
    have hc : c ≠ '%' := by
      rintro rfl
      cases cs with
      | nil => exact hlast rfl rfl
      | cons d ds => exact hescape d ds rfl rfl
    rw [expandPieces] at h
    · obtain ⟨w', hw', rfl⟩ := Option.map_eq_some_iff.1 h
      have ih := ih hw' fun j hj => hsettled j (List.mem_cons_of_mem _ hj)
      simpa [written_cons, Piece.written, List.count_append, hc, Ne.symm hc] using ih
    · exact hlast
    · exact hescape

lemma count_final (hks : ∀ k ∈ keys ps, k ∈ ks)
    (hrun : ∀ x ∈ ps, runPieces params ks [x] = some (final params ks x))
    (hsettled : ∀ x ∈ ps, Settled (final params ks x)) :
    (written (ps.flatMap (final params ks))).count '%' +
        (keys ps).countP (fun k => '%' ∈ valueOf params k) ≤ (literal params ps).count '%' := by
  induction ps with
  | nil => simp [literal, keys]
  | cons x ps ih =>
    have hx := hrun x List.mem_cons_self
    rw [List.flatMap_cons, written_append, List.count_append, literal, List.flatMap_cons,
      List.count_append]
    cases x with
    | lit t =>
      have ih := ih hks (fun y hy => hrun y (List.mem_cons_of_mem _ hy))
        fun y hy => hsettled y (List.mem_cons_of_mem _ hy)
      rw [final_lit]
      simp only [written_cons, written_nil, List.append_nil, Piece.written, Piece.literal]
      exact (Nat.add_assoc _ _ _).trans_le (Nat.add_le_add_left ih _)
    | key k =>
      have ih := ih (fun j hj => hks j (List.mem_cons_of_mem _ hj))
        (fun y hy => hrun y (List.mem_cons_of_mem _ hy))
        fun y hy => hsettled y (List.mem_cons_of_mem _ hy)
      have hk := runPieces_key (hks k List.mem_cons_self) hx (hsettled _ List.mem_cons_self)
      have hcount := count_of_expandPieces hk (hsettled _ List.mem_cons_self)
      have hkeys : keys (.key k :: ps) = k :: keys ps := rfl
      rw [hkeys, List.countP_cons]
      simp only [decide_eq_true_eq, Piece.literal]
      rw [literal] at ih
      omega

lemma final_key_of_plain (hk : k ∈ ks) (hv : '%' ∉ valueOf params k) :
    written (final params ks (.key k)) = valueOf params k := by
  obtain ⟨w, hw, hsettled, hwritten⟩ := expandPieces_of_plain (k := k) hv
  rw [final, runPieces_key_of_settled hk hw hsettled]
  exact hwritten

/-- The text is the literal one exactly if no value has a `%`. -/
lemma written_final_eq_iff (hks : ∀ k ∈ keys ps, k ∈ ks)
    (hrun : ∀ x ∈ ps, runPieces params ks [x] = some (final params ks x))
    (hliteral : ∀ c ∈ literal params ps, c ∉ braces) :
    written (ps.flatMap (final params ks)) = literal params ps ↔
      ∀ k ∈ keys ps, '%' ∉ valueOf params k := by
  constructor
  · intro h
    have hsettled : ∀ x ∈ ps, Settled (final params ks x) := by
      intro x hx j hj
      refine hliteral '{' ?_ (by decide)
      rw [← h, written, List.mem_flatMap]
      exact ⟨.key j, List.mem_flatMap.2 ⟨x, hx, hj⟩, List.mem_cons_self⟩
    have hcount := count_final hks hrun hsettled
    rw [h] at hcount
    have hzero : (keys ps).countP (fun k => '%' ∈ valueOf params k) = 0 := by omega
    simpa using List.countP_eq_zero.1 hzero
  · intro h
    clear hrun hliteral
    induction ps with
    | nil => rfl
    | cons x ps ih =>
      rw [List.flatMap_cons, written_append, literal, List.flatMap_cons]
      cases x with
      | lit t =>
        rw [final_lit, written_cons, written_nil, List.append_nil]
        exact congrArg _ (ih hks h)
      | key k =>
        rw [final_key_of_plain (hks k List.mem_cons_self) (h k List.mem_cons_self)]
        exact congrArg _ (ih (fun j hj => hks j (List.mem_cons_of_mem _ hj))
          fun j hj => h j (List.mem_cons_of_mem _ hj))

lemma exists_stepPieces (h : ∃ w, expandPieces k (valueOf params k) = some w) (ps : List Piece) :
    ∃ r, stepPieces params k ps = some r := by
  obtain ⟨w, hw⟩ := h
  induction ps with
  | nil => exact ⟨[], rfl⟩
  | cons x ps ih =>
    obtain ⟨r, hr⟩ := ih
    cases x with
    | lit t => exact ⟨_, by rw [stepPieces, hr]; rfl⟩
    | key j =>
      rw [stepPieces, hr, putIn]
      split_ifs
      · rw [hw]
        exact ⟨_, rfl⟩
      · exact ⟨_, rfl⟩

lemma exists_runPieces (h : ∀ k ∈ ks, '%' ∉ valueOf params k) (ps : List Piece) :
    ∃ r, runPieces params ks ps = some r := by
  induction ks generalizing ps with
  | nil => exact ⟨ps, rfl⟩
  | cons k ks ih =>
    obtain ⟨w, hw, -⟩ := expandPieces_of_plain (k := k) (h k List.mem_cons_self)
    obtain ⟨r, hr⟩ := exists_stepPieces ⟨w, hw⟩ ps
    rw [runPieces_cons, hr]
    exact ih (fun j hj => h j (List.mem_cons_of_mem _ hj)) r

end Run

end Verilua.Handles
