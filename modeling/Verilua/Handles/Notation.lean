import Verilua.Handles.Pieces

/-!
# The notation of `abdl`

Entries `orig`, `orig => a/b`, each in brackets or not, with placeholders in the names. What `abdl`
builds from them are the entries with the values put in exactly if no value that is put in has a `%`
and no name is lost for being empty; the names that are made optional are those in the brackets as
they are written, before the values are put in.
-/

namespace Verilua.Handles

/-- The characters of the notation. -/
def delimiters : List Char := ['|', '=', '>', '/', '[', ']', '{', '}', ' ', '\n', '\t']

/-- Something, and if there are any, others that are joined behind an arrow. -/
def join {α : Type} (arrow slash orig : List α) (aliases : List (List α)) : List α :=
  if aliases.isEmpty then orig else orig ++ arrow ++ slash.intercalate aliases

/-- The names that a signal has. -/
def namesOf (orig : Text) (aliases : List Text) : List Text :=
  if aliases.isEmpty then [orig] else aliases

/-- An entry. The names have no character of the notation but for the placeholders. -/
structure Entry where
  orig : List Piece
  aliases : List (List Piece)
  bracketed : Bool
  free : ∀ p ∈ orig :: aliases, ∀ x ∈ p, x.Free delimiters
  nonempty : ∀ p ∈ orig :: aliases, written p ≠ []

namespace Entry

def pieces (e : Entry) : List Piece := join [.lit arrow] [.lit slash] e.orig e.aliases

def keys (e : Entry) : List Text := (e.orig :: e.aliases).flatMap Handles.keys

/-- The entry without the brackets. -/
def body (e : Entry) : Text := join arrow slash (written e.orig) (e.aliases.map written)

def written (e : Entry) : Text := if e.bracketed then '[' :: e.body ++ [']'] else e.body

/-- The names of the signal, in one form or the other. -/
def names (e : Entry) (form : List Piece → Text) : List Text :=
  namesOf (form e.orig) (e.aliases.map form)

end Entry

/-- A string or a number. -/
def Value.IsText : Value → Prop
  | .str _ | .num _ => True
  | _ => False

/-- The string is the entries with trivial characters and empty parts between them, and the
parameters are as they have to be. -/
structure Spelled (split : Text → Text → List Text) (str : Text) (params : Params)
    (entries : List Entry) : Prop where
  spelled : ((split str ['|']).map strip).filter (!·.isEmpty) = entries.map Entry.written
  bound : ∀ e ∈ entries, ∀ k ∈ e.keys, ∃ v, params.lookup k = some v ∧ v.IsText ∧
    ∀ c ∈ v.tostring, c ∉ delimiters
  hier : params.hier.isSome
  pre : (params.strField Params.prefixKey []).isSome
  name : (params.strField Params.nameKey Params.unknown).isSome
  optional : params.optionalSignals.isSome

/-- The bundle is built from the entries with the literal values, and a name is optional if it is in
brackets or listed. -/
def Builds (split : Text → Text → List Text) (str : Text) (params : Params) (heap : Heap)
    (entries : List Entry) : Prop :=
  ∃ call, (abdl split str params heap).1 = some call ∧ call.aliasTbl ≠ [] ∧
    call.signalsTbl = entries.map (fun e => literal params e.orig) ∧
    call.names = entries.map (fun e => e.names (literal params)) ∧
    ∀ e ∈ entries, ∀ a ∈ e.names (literal params),
      a ∈ call.optionalSignals ↔ e.bracketed ∨ a ∈ params.listed heap

/-- No name is lost in the splitting. -/
def Splittable (orig : Text) (aliases : List Text) : Prop :=
  (aliases = [] → orig ≠ []) ∧ (aliases = [[]] → orig = []) ∧ aliases ≠ [[], []]

instance (orig : Text) (aliases : List Text) : Decidable (Splittable orig aliases) :=
  inferInstanceAs (Decidable (_ ∧ _ ∧ _))

/-- The names of an entry as the substitutions leave it. -/
def readNames (split : Text → Text → List Text) (s : Text) : Option (Text × List Text) :=
  (aliasNameVec split s).map fun vec => (vec.headD [], AliasCall.namesOf vec)

/-- The values are put in as they are: for keys that stand for themselves in a pattern no value has
a `%`. Other keys are patterns, which happen to do it. -/
def PutsIn (split : Text → Text → List Text) (params : Params) (e : Entry) : Prop :=
  if ∀ k ∈ e.keys, Plain k then
    (∀ k ∈ e.keys, '%' ∉ valueOf params k) ∧
      Splittable (literal params e.orig) (e.aliases.map (literal params))
  else (interpolate params e.body).bind (readNames split) =
    some (literal params e.orig, e.names (literal params))

/-- The names that are written in brackets somewhere and those that are listed are, of each entry,
all or none that are not listed. -/
def MarksOptional (params : Params) (heap : Heap) (entries : List Entry) : Prop :=
  ∀ e ∈ entries, ∀ a ∈ e.names (literal params),
    ((∃ e' ∈ entries, e'.bracketed ∧ a ∈ e'.names written) ∨ a ∈ params.listed heap ↔
      e.bracketed ∨ a ∈ params.listed heap)

/-! ### Joining -/

section Join

variable {α β : Type} (f : α → List β)

lemma flatMap_intercalate (sep : List α) (ls : List (List α)) :
    (sep.intercalate ls).flatMap f =
      (sep.flatMap f).intercalate (ls.map fun l => l.flatMap f) := by
  induction ls with
  | nil => rfl
  | cons l ls ih =>
    cases ls with
    | nil => simp
    | cons l' ls =>
      rw [List.intercalate_cons_cons, List.flatMap_append, List.flatMap_append, ih]
      simp only [List.map_cons, List.intercalate_cons_cons]

lemma flatMap_join (a s o : List α) (ls : List (List α)) :
    (join a s o ls).flatMap f =
      join (a.flatMap f) (s.flatMap f) (o.flatMap f) (ls.map fun l => l.flatMap f) := by
  unfold join
  rw [List.isEmpty_map]
  split_ifs
  · rfl
  · rw [List.flatMap_append, List.flatMap_append, flatMap_intercalate]

end Join

variable {split : Text → Text → List Text} {params : Params} {heap : Heap} {e : Entry}

lemma Entry.body_eq (e : Entry) : e.body = Handles.written e.pieces :=
  (flatMap_join Piece.written [.lit arrow] [.lit slash] e.orig e.aliases).symm

lemma nil_intercalate {α : Type} (ls : List (List α)) : [].intercalate ls = ls.flatten := by
  induction ls with
  | nil => rfl
  | cons l ls ih =>
    cases ls with
    | nil => simp
    | cons l' ls => rw [List.intercalate_cons_cons, ih, List.append_nil, List.flatten_cons (l := l)]

lemma Entry.keys_pieces (e : Entry) : Handles.keys e.pieces = e.keys := by
  refine (flatMap_join Piece.keys [.lit arrow] [.lit slash] e.orig e.aliases).trans ?_
  have hnil : ∀ t : Text, [Piece.lit t].flatMap Piece.keys = [] := fun _ => rfl
  rw [hnil, hnil, join, nil_intercalate, List.isEmpty_map, Entry.keys, List.flatMap_cons]
  cases e.aliases with
  | nil => exact (List.append_nil _).symm
  | cons p ps =>
    rw [List.flatMap_def (l := p :: ps)]
    exact congrArg (· ++ _) (List.append_nil _)

/-! ### Splitting what is joined -/

/-- No character of a separator. -/
def SepFree (t : Text) : Prop := ∀ c ∈ t, c ∉ ['=', '>', '/']

lemma not_mem_arrow {t : Text} (h : SepFree t) : ∀ c ∈ t, c ∉ arrow := fun c hc hmem =>
  h c hc (List.mem_append_left ['/'] hmem)

lemma not_mem_slash {t : Text} (h : SepFree t) : ∀ c ∈ t, c ∉ slash := fun c hc hmem =>
  h c hc (List.mem_append_right ['=', '>'] hmem)

lemma not_mem_arrow_intercalate {as : List Text} (has : ∀ a ∈ as, SepFree a) :
    ∀ c ∈ slash.intercalate as, c ∉ arrow := by
  induction as with
  | nil => exact fun _ h => absurd h List.not_mem_nil
  | cons a as ih =>
    have ha := not_mem_arrow (has a List.mem_cons_self)
    cases as with
    | nil => simpa using ha
    | cons a' as =>
      have ih := ih fun b hb => has b (List.mem_cons_of_mem _ hb)
      rw [List.intercalate_cons_cons]
      exact List.forall_mem_append.2 ⟨List.forall_mem_append.2 ⟨ha, by simp [slash, arrow]⟩, ih⟩

lemma split_slash (hsplit : Splits split) {as : List Text} (has : ∀ a ∈ as, SepFree a)
    (hne : as ≠ []) (hone : as ≠ [[]]) (htwo : as ≠ [[], []]) :
    split (slash.intercalate as) slash = as :=
  hsplit.split_intercalate slash as (List.cons_ne_nil _ _) hne hone htwo
    fun a ha => not_mem_slash (has a ha)

lemma split_arrow (hsplit : Splits split) {o j : Text} (ho : SepFree o) (hj : ∀ c ∈ j, c ∉ arrow)
    (hne : o ≠ [] ∨ j ≠ []) : split (o ++ arrow ++ j) arrow = [o, j] := by
  have h := hsplit.split_intercalate arrow [o, j] (List.cons_ne_nil _ _) (by simp) (by simp)
    (fun h => by simp only [List.cons.injEq, and_true] at h; exact hne.elim (· h.1) (· h.2))
    (List.forall_mem_cons.2 ⟨not_mem_arrow ho, List.forall_mem_singleton.2 hj⟩)
  rwa [List.intercalate_cons_cons, List.intercalate_singleton] at h

lemma aliasNameVec_join (hsplit : Splits split) {o : Text} {as : List Text} (ho : SepFree o)
    (has : ∀ a ∈ as, SepFree a) :
    aliasNameVec split (join arrow slash o as) =
      if as = [] then if o = [] then none else some [o]
      else if as = [[]] then if o = [] then some [[]] else none
      else if as = [[], []] then some [o, []]
      else some (o :: as) := by
  have hj := not_mem_arrow_intercalate has
  unfold aliasNameVec
  split_ifs with hnil hempty hone hempty htwo
  · subst hnil hempty
    have h := hsplit.split_nil arrow
    rw [show join arrow slash [] [] = [] from rfl, h]
  · subst hnil
    have h := hsplit.split_intercalate arrow [o] (List.cons_ne_nil _ _) (by simp)
      (by simpa using hempty) (by simp) (List.forall_mem_singleton.2 (not_mem_arrow ho))
    rw [List.intercalate_singleton] at h
    rw [show join arrow slash o [] = o from rfl, h]
  · subst hone hempty
    have h := hsplit.split_self arrow (List.cons_ne_nil _ _)
    rw [show join arrow slash [] [[]] = arrow from rfl, h]
  · subst hone
    have h := split_arrow hsplit ho hj (.inl hempty)
    rw [show join arrow slash o [[]] = o ++ arrow ++ slash.intercalate [[]] from rfl,
      h]
    simp only
    rw [show slash.intercalate [[]] = [] from rfl, hsplit.split_nil]
  · subst htwo
    have h := split_arrow hsplit ho hj (.inr (List.cons_ne_nil _ _))
    rw [show join arrow slash o [[], []] = o ++ arrow ++ slash.intercalate [[], []] from rfl,
      h]
    simp only
    rw [show slash.intercalate [[], []] = slash from rfl,
      hsplit.split_self slash (List.cons_ne_nil _ _)]
  · have hsplitSlash := split_slash hsplit has hnil hone htwo
    have hne : slash.intercalate as ≠ [] := fun h => by
      rw [h, hsplit.split_nil] at hsplitSlash
      exact hnil hsplitSlash.symm
    have h := split_arrow hsplit ho hj (.inr hne)
    rw [join, if_neg (by simpa using hnil), h]
    simp only
    rw [hsplitSlash]
    obtain ⟨a, as, rfl⟩ := List.exists_cons_of_ne_nil hnil
    rfl

lemma readNames_join_iff (hsplit : Splits split) {o o' : Text} {as as' : List Text}
    (ho : SepFree o) (has : ∀ a ∈ as, SepFree a) (hlen : as.length = as'.length) :
    readNames split (join arrow slash o as) = some (o', namesOf o' as') ↔
      o = o' ∧ as = as' ∧ Splittable o' as' := by
  rw [readNames, aliasNameVec_join hsplit ho has]
  unfold Splittable
  split_ifs with hnil hempty hone hempty htwo
  · subst hnil hempty
    refine iff_of_false (by simp) ?_
    rintro ⟨rfl, rfl, h, -⟩
    exact h rfl rfl
  · subst hnil
    obtain rfl := List.length_eq_zero_iff.1 hlen.symm
    constructor
    · intro h
      obtain rfl : o = o' := congrArg Prod.fst (Option.some.inj h)
      exact ⟨rfl, rfl, fun _ => hempty, by simp, by simp⟩
    · rintro ⟨rfl, -, -⟩
      rfl
  · subst hone hempty
    obtain ⟨a, rfl⟩ := List.length_eq_one_iff.1 hlen.symm
    constructor
    · intro h
      obtain ⟨ho', ha⟩ := Prod.mk.inj (Option.some.inj h)
      exact ⟨ho', ha, by simp, fun _ => ho'.symm, by simp⟩
    · rintro ⟨rfl, h, -⟩
      exact congrArg (fun l => some ([], l)) h
  · subst hone
    refine iff_of_false (by simp) ?_
    rintro ⟨rfl, rfl, -, h, -⟩
    exact hempty (h rfl)
  · subst htwo
    obtain ⟨a, b, rfl⟩ := List.length_eq_two.1 hlen.symm
    refine iff_of_false (fun h => ?_) fun h => h.2.2.2.2 h.2.1.symm
    exact absurd (congrArg (fun x => x.2.length) (Option.some.inj h))
      (by simp [AliasCall.namesOf, namesOf])
  · obtain ⟨a, as, rfl⟩ := List.exists_cons_of_ne_nil hnil
    obtain ⟨a', as', rfl⟩ := List.exists_cons_of_length_eq_add_one hlen.symm
    constructor
    · intro h
      obtain ⟨ho', has'⟩ := Prod.mk.inj (Option.some.inj h)
      have has' : a :: as = a' :: as' := has'
      refine ⟨ho', has', ?_⟩
      rw [← has']
      exact ⟨fun h => absurd h hnil, fun h => absurd h hone, htwo⟩
    · rintro ⟨rfl, h, -⟩
      exact congrArg (fun l => some (o, l)) h

/-! ### One entry -/

lemma forall_mem_join {α : Type} {P : α → Prop} {a s o : List α} {ls : List (List α)}
    (ha : ∀ x ∈ a, P x) (hs : ∀ x ∈ s, P x) (hls : ∀ p ∈ o :: ls, ∀ x ∈ p, P x) :
    ∀ x ∈ join a s o ls, P x := by
  rw [List.forall_mem_cons] at hls
  obtain ⟨ho, hls⟩ := hls
  have hjoined : ∀ x ∈ s.intercalate ls, P x := by
    induction ls with
    | nil => exact fun _ h => absurd h List.not_mem_nil
    | cons l ls ih =>
      have hl := hls l List.mem_cons_self
      cases ls with
      | nil => simpa using hl
      | cons l' ls =>
        rw [List.intercalate_cons_cons]
        exact List.forall_mem_append.2 ⟨List.forall_mem_append.2 ⟨hl, hs⟩,
          ih fun p hp => hls p (List.mem_cons_of_mem _ hp)⟩
  unfold join
  split_ifs
  · exact ho
  · exact List.forall_mem_append.2 ⟨List.forall_mem_append.2 ⟨ho, ha⟩, hjoined⟩

lemma sepFree_written {ps : List Piece} (h : ∀ x ∈ ps, x.Free ['=', '>', '/']) :
    SepFree (written ps) := by
  intro c hc
  obtain ⟨x, hx, hc⟩ := List.mem_flatMap.1 hc
  cases x with
  | lit t => exact h _ hx c hc
  | key k =>
    rcases List.mem_append.1 hc with hc | hc
    · rcases List.mem_cons.1 hc with rfl | hc
      · decide
      · exact h _ hx c hc
    · rw [List.mem_singleton.1 hc]
      decide

/-- The keys of an entry are bound. -/
def BindsAll (params : Params) (e : Entry) : Prop :=
  ∀ k ∈ e.keys, (∃ v, params.lookup k = some v) ∧ ∀ c ∈ valueOf params k, c ∉ delimiters

lemma free_literal {ps : List Piece} (hps : ∀ x ∈ ps, x.Free delimiters)
    (hv : ∀ k ∈ keys ps, ∀ c ∈ valueOf params k, c ∉ delimiters) :
    ∀ c ∈ literal params ps, c ∉ delimiters := by
  intro c hc
  obtain ⟨x, hx, hc⟩ := List.mem_flatMap.1 hc
  cases x with
  | lit t => exact hps _ hx c hc
  | key k => exact hv k (List.mem_flatMap.2 ⟨_, hx, List.mem_singleton.2 rfl⟩) c hc

lemma Entry.free_pieces (e : Entry) {bad : List Char} (hbad : bad ⊆ delimiters)
    (harrow : ∀ c ∈ arrow, c ∉ bad) (hslash : ∀ c ∈ slash, c ∉ bad) :
    ∀ x ∈ e.pieces, x.Free bad :=
  forall_mem_join (List.forall_mem_singleton.2 harrow) (List.forall_mem_singleton.2 hslash)
    fun p hp x hx c hc hmem => e.free p hp x hx c hc (hbad hmem)

lemma Entry.free_braces (e : Entry) : ∀ x ∈ e.pieces, x.Free braces :=
  e.free_pieces (by simp [braces, delimiters]) (by simp [arrow, braces]) (by simp [slash, braces])

lemma mem_keys_iff {k : Text} {ps : List Piece} : k ∈ keys ps ↔ .key k ∈ ps := by
  constructor
  · intro hk
    obtain ⟨x, hx, hk⟩ := List.mem_flatMap.1 hk
    cases x with
    | lit t => cases hk
    | key j => exact List.mem_singleton.1 hk ▸ hx
  · exact fun hk => List.mem_flatMap.2 ⟨_, hk, List.mem_singleton.2 rfl⟩

lemma not_mem_braces {t : Text} (h : ∀ c ∈ t, c ∉ delimiters) : ∀ c ∈ t, c ∉ braces :=
  fun c hc hmem => h c hc ((by simp [braces, delimiters] : braces ⊆ delimiters) hmem)

lemma interpolate_body (hbinds : BindsAll params e) (hplain : ∀ k ∈ e.keys, Plain k) :
    interpolate params e.body = (runPieces params e.keys e.pieces).map written := by
  have hkeys := e.keys_pieces
  rw [interpolate, e.body_eq, placeholders_written e.free_braces (hkeys ▸ hplain), hkeys]
  refine foldlM_substitute (fun k hk => ⟨hplain k hk, ?_, (hbinds k hk).1, ?_⟩) e.free_braces
  · exact e.free_braces (.key k) (mem_keys_iff.1 (hkeys ▸ hk))
  · exact not_mem_braces (hbinds k hk).2

/-- The names that the substitutions leave are those with the literal values exactly if the values
are put in as they are. -/
lemma putsIn_iff (hsplit : Splits split) (hbinds : BindsAll params e) :
    PutsIn split params e ↔ (interpolate params e.body).bind (readNames split) =
      some (literal params e.orig, e.names (literal params)) := by
  unfold PutsIn
  split_ifs with hplain
  · have hkeysOf : ∀ p ∈ e.orig :: e.aliases, ∀ k ∈ keys p, k ∈ e.keys := fun p hp k hk =>
      List.mem_flatMap.2 ⟨p, hp, hk⟩
    rw [interpolate_body hbinds hplain]
    cases hrun : runPieces params e.keys e.pieces with
    | none =>
      refine iff_of_false (fun h => ?_) (by simp)
      have hkeys : ∀ k ∈ e.keys, '%' ∉ valueOf params k := h.1
      obtain ⟨r, hr⟩ := exists_runPieces hkeys e.pieces
      rw [hrun] at hr
      cases hr
    | some r =>
      obtain ⟨rfl, hall⟩ := runPieces_eq_flatMap hrun
      have hpiece : ∀ p ∈ e.orig :: e.aliases, ∀ x ∈ p,
          runPieces params e.keys [x] = some (final params e.keys x) := by
        intro p hp x hx
        cases x with
        | lit t =>
          rw [final_lit]
          exact runPieces_of_settled (fun k hk => by simp at hk) _
        | key k =>
          have hk := hkeysOf p hp k (mem_keys_iff.2 hx)
          rw [← e.keys_pieces] at hk
          exact hall _ (mem_keys_iff.1 hk)
      have hsep : ∀ p ∈ e.orig :: e.aliases,
          SepFree (written (p.flatMap (final params e.keys))) := by
        intro p hp
        refine sepFree_written fun y hy => ?_
        obtain ⟨x, hx, hy⟩ := List.mem_flatMap.1 hy
        have hfree : ∀ {t : Text}, (∀ c ∈ t, c ∉ delimiters) → ∀ c ∈ t, c ∉ ['=', '>', '/'] :=
          fun h c hc hmem =>
            h c hc ((by simp [delimiters] : ['=', '>', '/'] ⊆ delimiters) hmem)
        exact free_of_runPieces (by decide) (fun k hk => hfree (hbinds k hk).2)
          (List.forall_mem_singleton.2 (hfree (e.free p hp x hx))) (hpiece p hp x hx) y hy
      have htext : written (e.pieces.flatMap (final params e.keys)) =
          join arrow slash (written (e.orig.flatMap (final params e.keys)))
            (e.aliases.map fun p => written (p.flatMap (final params e.keys))) := by
        have hpieces := flatMap_join (final params e.keys) [.lit arrow] [.lit slash] e.orig e.aliases
        rw [List.flatMap_singleton, List.flatMap_singleton, final_lit, final_lit] at hpieces
        rw [Entry.pieces, hpieces]
        refine (flatMap_join Piece.written [.lit arrow] [.lit slash] _ _).trans ?_
        rw [List.map_map]
        rfl
      have hsame : ∀ p ∈ e.orig :: e.aliases,
          (written (p.flatMap (final params e.keys)) = literal params p ↔
            ∀ k ∈ keys p, '%' ∉ valueOf params k) := fun p hp =>
        written_final_eq_iff (hkeysOf p hp) (hpiece p hp) (not_mem_braces
          (free_literal (e.free p hp) fun k hk => (hbinds k (hkeysOf p hp k hk)).2))
      rw [Option.map_some, Option.bind_some, htext, Entry.names, readNames_join_iff hsplit
        (hsep _ List.mem_cons_self) (by simpa using fun p hp => hsep p (List.mem_cons_of_mem _ hp))
        (by simp), ← and_assoc]
      refine and_congr_left fun _ => ?_
      rw [hsame _ List.mem_cons_self, List.map_inj_left, Entry.keys, List.flatMap_cons,
        List.forall_mem_append]
      refine and_congr_right fun _ => ⟨fun h p hp => ?_, fun h k hk => ?_⟩
      · exact (hsame p (List.mem_cons_of_mem _ hp)).2 fun k hk =>
          h k (List.mem_flatMap.2 ⟨p, hp, hk⟩)
      · obtain ⟨p, hp, hk⟩ := List.mem_flatMap.1 hk
        exact (hsame p (List.mem_cons_of_mem _ hp)).1 (h p hp) k hk
  · rfl

/-! ### The string -/

lemma Entry.body_ne_nil (e : Entry) : e.body ≠ [] := by
  have ho := e.nonempty _ List.mem_cons_self
  unfold body join
  split_ifs
  · exact ho
  · simp [ho]

lemma Entry.not_mem_body (e : Entry) : '[' ∉ e.body := by
  rw [e.body_eq]
  intro hmem
  obtain ⟨x, hx, hc⟩ := List.mem_flatMap.1 hmem
  have hbad : ['['] ⊆ delimiters := by simp [delimiters]
  have hfree := e.free_pieces hbad (by simp [arrow]) (by simp [slash]) x hx
  cases x with
  | lit t => exact hfree _ hc (by decide)
  | key k =>
    rcases List.mem_append.1 hc with hc | hc
    · rcases List.mem_cons.1 hc with hc | hc
      · exact absurd hc (by decide)
      · exact hfree _ hc (by decide)
    · exact absurd hc (by decide)

lemma unbracket_written (e : Entry) : unbracket e.written = (e.body, e.bracketed) := by
  have hne := e.body_ne_nil
  unfold Entry.written
  cases e.bracketed with
  | true =>
    have hlen : 2 ≤ (e.body ++ [']']).length := by
      have := List.length_pos_iff.2 hne
      simp only [List.length_append, List.length_singleton]
      omega
    rw [if_pos rfl, unbracket, List.cons_append, optionalMatch,
      if_pos ⟨List.getLast?_concat, hlen⟩, List.dropLast_concat]
  | false =>
    have hnone : optionalMatch e.body = none := by
      obtain ⟨c, cs, hbody⟩ := List.exists_cons_of_ne_nil hne
      have hc : c ≠ '[' := fun h => e.not_mem_body (hbody ▸ h ▸ List.mem_cons_self)
      rw [hbody, optionalMatch]
      exact fun _ h => hc (List.cons.inj h).1
    rw [if_neg Bool.false_ne_true, unbracket, hnone]

lemma signalsOf_eq {str : Text} {entries : List Entry} (h : Spelled split str params entries) :
    signalsOf split str = entries.map fun e => (e.body, e.bracketed) := by
  rw [signalsOf, h.spelled, List.map_map]
  exact List.map_congr_left fun e _ => unbracket_written e

lemma Entry.sepFree (e : Entry) {p : List Piece} (hp : p ∈ e.orig :: e.aliases) :
    SepFree (Handles.written p) :=
  sepFree_written fun x hx c hc hmem => e.free p hp x hx c hc
    ((by simp [delimiters] : ['=', '>', '/'] ⊆ delimiters) hmem)

lemma autoNames_body (hsplit : Splits split) (e : Entry) :
    autoNames split e.body = e.names written := by
  have ho := e.sepFree List.mem_cons_self
  have hone := e.nonempty _ List.mem_cons_self
  have has : ∀ a ∈ e.aliases.map written, SepFree a ∧ a ≠ [] := by
    intro a ha
    obtain ⟨p, hp, rfl⟩ := List.mem_map.1 ha
    exact ⟨e.sepFree (List.mem_cons_of_mem _ hp), e.nonempty p (List.mem_cons_of_mem _ hp)⟩
  have hempty : ∀ l, [] :: l ≠ e.aliases.map written := fun l h =>
    (has [] (h ▸ List.mem_cons_self)).2 rfl
  rw [autoNames, Entry.body, Entry.names, namesOf, join]
  split_ifs with hnil
  · have h := hsplit.split_intercalate arrow [written e.orig] (List.cons_ne_nil _ _) (by simp)
      (by simpa using hone) (by simp) (List.forall_mem_singleton.2 (not_mem_arrow ho))
    rw [List.intercalate_singleton] at h
    rw [h]
  · rw [split_arrow hsplit ho (not_mem_arrow_intercalate fun a ha => (has a ha).1) (.inl hone)]
    exact split_slash hsplit (fun a ha => (has a ha).1) (by simpa using hnil)
      (hempty []).symm (hempty [[]]).symm

/-! ### The whole string -/

lemma mapM_mapM_iff {α β γ δ : Type} {f : α → Option β} {g : β → Option γ} {read : γ → δ}
    {expected : α → δ} {l : List α} :
    (∃ bs cs, l.mapM f = some bs ∧ bs.mapM g = some cs ∧ cs.map read = l.map expected) ↔
      ∀ a ∈ l, ((f a).bind g).map read = some (expected a) := by
  induction l with
  | nil => simp
  | cons a l ih =>
    rw [List.forall_mem_cons, ← ih]
    constructor
    · rintro ⟨bs, cs, hbs, hcs, hread⟩
      rw [List.mapM_cons] at hbs
      simp only [Option.bind_eq_bind, Option.bind_eq_some_iff] at hbs
      obtain ⟨b, hb, bs, hbs, h⟩ := hbs
      obtain rfl := Option.some.inj h
      rw [List.mapM_cons] at hcs
      simp only [Option.bind_eq_bind, Option.bind_eq_some_iff] at hcs
      obtain ⟨c, hc, cs, hcs, h⟩ := hcs
      obtain rfl := Option.some.inj h
      rw [List.map_cons, List.map_cons] at hread
      obtain ⟨hc', hread⟩ := List.cons.inj hread
      exact ⟨by rw [hb, Option.bind_some, hc, Option.map_some, hc'], bs, cs, hbs, hcs, hread⟩
    · rintro ⟨ha, bs, cs, hbs, hcs, hread⟩
      obtain ⟨c, hc, hc'⟩ := Option.map_eq_some_iff.1 ha
      obtain ⟨b, hb, hbc⟩ := Option.bind_eq_some_iff.1 hc
      exact ⟨b :: bs, c :: cs, by simp [List.mapM_cons, hb, hbs],
        by simp [List.mapM_cons, hbc, hcs], by rw [List.map_cons, List.map_cons, hc', hread]⟩

lemma map_pair_iff {α β γ δ : Type} {f : α → γ} {g : α → δ} {f' : β → γ} {g' : β → δ} {l : List α}
    {m : List β} : (l.map fun a => (f a, g a)) = (m.map fun b => (f' b, g' b)) ↔
      l.map f = m.map f' ∧ l.map g = m.map g' := by
  constructor
  · intro h
    have hfst := congrArg (List.map Prod.fst) h
    have hsnd := congrArg (List.map Prod.snd) h
    rw [List.map_map, List.map_map] at hfst hsnd
    exact ⟨hfst, hsnd⟩
  · rintro ⟨hf, hg⟩
    rw [← List.zip_map', ← List.zip_map', hf, hg]

/-- The names in brackets, as they are written, and those that are listed. -/
def optionalOf (params : Params) (heap : Heap) (entries : List Entry) : List Text :=
  params.listed heap ++ (entries.filter (·.bracketed)).flatMap (·.names written)

lemma merge_optional {α : Type} (auto : List Text) (call : List Text → α) {ref : Option ℕ}
    (href : params.optionalSignals = some ref) :
    ((⟨auto, ref, call⟩ : Pending α).merge heap).1 = call (params.listed heap ++ auto) := by
  unfold Params.listed Pending.merge
  rw [href]
  cases ref with
  | none => rfl
  | some ref => rfl

lemma autoNames_entries (hsplit : Splits split) (entries : List Entry) :
    ((entries.map fun e => (e.body, e.bracketed)).filter (·.2)).flatMap
        (fun signal => autoNames split signal.1) =
      (entries.filter (·.bracketed)).flatMap (·.names written) := by
  rw [List.filter_map, List.flatMap_map]
  exact congrArg (List.flatMap · _) (funext fun e => autoNames_body hsplit e)

lemma abdl_eq (hsplit : Splits split) {str : Text} {entries : List Entry}
    (h : Spelled split str params entries) (heap : Heap) : ∃ hier pre name,
    (abdl split str params heap).1 =
      (entries.mapM fun e => interpolate params e.body).bind fun texts =>
        (texts.mapM (aliasNameVec split)).map fun aliasTbl =>
          ⟨aliasTbl, pre, hier, name, optionalOf params heap entries⟩ := by
  obtain ⟨hier, hhier⟩ := Option.isSome_iff_exists.1 h.hier
  obtain ⟨pre, hpre⟩ := Option.isSome_iff_exists.1 h.pre
  obtain ⟨name, hname⟩ := Option.isSome_iff_exists.1 h.name
  obtain ⟨ref, href⟩ := Option.isSome_iff_exists.1 h.optional
  refine ⟨hier, pre, name, ?_⟩
  have hbodies : (entries.map fun e => (e.body, e.bracketed)).mapM
      (fun signal => interpolate params signal.1) =
        entries.mapM fun e => interpolate params e.body := List.mapM_map
  unfold abdl readAbdl
  simp only [signalsOf_eq h, hbodies, autoNames_entries hsplit, hhier, hpre, hname, href,
    Option.bind_eq_bind, Option.bind_some, Option.pure_def]
  cases entries.mapM fun e => interpolate params e.body with
  | none => rfl
  | some texts =>
    simp only [Option.bind_some]
    cases texts.mapM (aliasNameVec split) with
    | none => rfl
    | some aliasTbl => exact congrArg some (merge_optional _ _ href)

lemma mem_optionalOf_iff {entries : List Entry} {a : Text} :
    a ∈ optionalOf params heap entries ↔
      (∃ e ∈ entries, e.bracketed ∧ a ∈ e.names written) ∨ a ∈ params.listed heap := by
  rw [optionalOf, List.mem_append, or_comm, List.mem_flatMap]
  simp only [List.mem_filter, and_assoc]

lemma Spelled.bindsAll {str : Text} {entries : List Entry}
    (h : Spelled split str params entries) : ∀ e ∈ entries, BindsAll params e := by
  intro e he k hk
  obtain ⟨v, hv, -, hfree⟩ := h.bound e he k hk
  refine ⟨⟨v, hv⟩, ?_⟩
  rwa [valueOf, hv]

/-- The bundle is built from the entries with the literal values exactly if there is an entry, the
values are put in as they are, and a name is written in brackets exactly if it is to be optional. -/
theorem builds_iff (hsplit : Splits split) {str : Text} {entries : List Entry}
    (h : Spelled split str params entries) :
    Builds split str params heap entries ↔
      entries ≠ [] ∧ (∀ e ∈ entries, PutsIn split params e) ∧
        MarksOptional params heap entries := by
  obtain ⟨hier, pre, name, habdl⟩ := abdl_eq hsplit h heap
  have hputs : (∀ e ∈ entries, PutsIn split params e) ↔
      ∀ e ∈ entries, ((interpolate params e.body).bind (aliasNameVec split)).map
        (fun vec => (vec.headD [], AliasCall.namesOf vec)) =
          some (literal params e.orig, e.names (literal params)) :=
    forall₂_congr fun e he => by
      rw [putsIn_iff hsplit (h.bindsAll e he), Option.map_bind]
      rfl
  rw [hputs, ← mapM_mapM_iff]
  unfold Builds MarksOptional
  constructor
  · rintro ⟨call, hcall, hne, hsignals, hnames, hoptional⟩
    rw [habdl] at hcall
    obtain ⟨texts, htexts, hcall⟩ := Option.bind_eq_some_iff.1 hcall
    obtain ⟨aliasTbl, htbl, rfl⟩ := Option.map_eq_some_iff.1 hcall
    have hpairs := map_pair_iff.2 ⟨hsignals, hnames⟩
    refine ⟨?_, ⟨texts, aliasTbl, htexts, htbl, hpairs⟩, fun e he a ha => ?_⟩
    · rintro rfl
      exact hne (List.map_eq_nil_iff.1 hpairs)
    · rw [← mem_optionalOf_iff]
      exact hoptional e he a ha
  · rintro ⟨hne, ⟨texts, aliasTbl, htexts, htbl, hpairs⟩, hmarks⟩
    obtain ⟨hsignals, hnames⟩ := map_pair_iff.1 hpairs
    refine ⟨⟨aliasTbl, pre, hier, name, optionalOf params heap entries⟩, ?_, ?_, hsignals, hnames,
      fun e he a ha => ?_⟩
    · rw [habdl, htexts, Option.bind_some, htbl, Option.map_some]
    · rintro rfl
      exact hne (List.map_eq_nil_iff.1 hsignals.symm)
    · rw [mem_optionalOf_iff]
      exact hmarks e he a ha

/-- `"{p}x=>y|[z]"` -/
theorem builds_iff_value :
    Builds stringxSplit
      ['{', 'p', '}', 'x', '=', '>', 'y', '|', '[', 'z', ']']
      [(['p'], .str ['a', '.']), (Params.hierKey, .str ['t'])] (fun _ => [])
      [⟨[.key ['p'], .lit ['x']], [[.lit ['y']]], false, by decide, by decide⟩,
        ⟨[.lit ['z']], [], true, by decide, by decide⟩] := by
  refine (builds_iff splits_stringxSplit ⟨by decide, ?_, rfl, rfl, rfl, rfl⟩).2
    ⟨List.cons_ne_nil _ _, ?_, ?_⟩
  · rw [List.forall_mem_cons, List.forall_mem_singleton]
    refine ⟨List.forall_mem_singleton.2 ⟨_, rfl, trivial, by simp [Value.tostring, delimiters]⟩, ?_⟩
    exact fun _ h => absurd h List.not_mem_nil
  · rw [List.forall_mem_cons, List.forall_mem_singleton, PutsIn, if_pos (by decide), PutsIn,
      if_pos (by decide)]
    exact ⟨by decide, by decide⟩
  · refine List.forall_mem_cons.2 ⟨?_, List.forall_mem_singleton.2 ?_⟩
    · refine List.forall_mem_singleton.2 (or_congr_left (iff_of_false ?_ Bool.false_ne_true))
      rintro ⟨e', he', hbracketed, hmem⟩
      rcases List.mem_cons.1 he' with rfl | he'
      · exact Bool.false_ne_true hbracketed
      · rw [List.mem_singleton.1 he'] at hmem
        exact absurd hmem (by decide)
    · exact List.forall_mem_singleton.2 (or_congr_left (iff_of_true
        ⟨_, List.mem_cons_of_mem _ (List.mem_singleton.2 rfl), rfl, by decide⟩ rfl))

/-- `"[{p}]"` -/
theorem not_builds : ¬ ∀ (str : Text) (params : Params) (heap : Heap) (entries : List Entry),
    Spelled stringxSplit str params entries → Builds stringxSplit str params heap entries := by
  intro h
  obtain ⟨call, hcall, -, -, -, hoptional⟩ := h ['[', '{', 'p', '}', ']']
    [(['p'], .str ['a']), (Params.hierKey, .str ['t'])] (fun _ => [])
    [⟨[.key ['p']], [], true, by decide, by decide⟩]
    ⟨by decide, List.forall_mem_singleton.2
      (List.forall_mem_singleton.2 ⟨_, rfl, trivial, by simp [Value.tostring, delimiters]⟩), rfl, rfl, rfl, rfl⟩
  have hnames : some [['{', 'p', '}']] = some call.optionalSignals :=
    congrArg (Option.map AliasCall.optionalSignals) hcall
  have hmem := (hoptional _ List.mem_cons_self ['a'] (by decide)).2 (.inl rfl)
  rw [← Option.some.inj hnames] at hmem
  exact absurd hmem (by decide)

end Verilua.Handles
