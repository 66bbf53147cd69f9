import Verilua.Join.View
import Mathlib.Data.List.Count

/-!
# The places of a task on the waiting lists

A task that is suspended in `wait`, `join` or `join_any` has one place for each of the events that it
awaits, on the list of the event or in what a wake-up loop has taken of it. `aw` is what the tasks
await; the lemmas give what the operations on the lists do to the places.
-/

namespace Verilua.Join

variable {aw : TaskID → EventID → Bool} {kind : EventID → Option Kind} {v v' : View} {id : TaskID}
  {e : EventID} {es : List EventID}

/-- The task of a handle of `jfork` has come to its end. -/
def Finished (kind : EventID → Option Kind) (named : EventID → Bool) (e : EventID) : Prop :=
  kind e = some .eventHandleForJFork ∧ named e = false

/-- The tasks on the list of `e` and those that a loop has taken from it. -/
def View.places (v : View) (e : EventID) : List TaskID :=
  v.waiting e ++ (v.taken.filter fun p => p.1 = e).flatMap Prod.snd

/-- `e` is sent and no loop has come to the end of its list. -/
def View.Sent (v : View) (e : EventID) : Prop := e ∈ v.pending ∨ e ∈ v.taken.map Prod.fst

structure Tokens (aw : TaskID → EventID → Bool) (kind : EventID → Option Kind) (v : View) :
    Prop where
  /-- A task that does not await the event has been put on the list by a `join` that has found the
  handle finished. -/
  waits : ∀ e, ∀ id ∈ v.waiting e, aw id e = true ∨ Finished kind v.named e
  taken : ∀ p ∈ v.taken, ∀ id ∈ p.2, aw id p.1 = true
  once : ∀ id e, aw id e = true → (v.places e).count id = 1
  known : ∀ id e, aw id e = true → kind e ≠ none
  sent : ∀ e, v.Sent e → kind e ≠ none ∧
    (kind e = some .eventHandleForJFork → v.named e = false)
  due : ∀ e, Finished kind v.named e → ∀ id ∈ v.waiting e, aw id e = true →
    e ∈ v.pending.drop v.handled

/-! ### Moves on the view -/

lemma addWaiters (es : List EventID) (v : View) : es.foldl (View.addWaiter id) v =
    { v with
      waiting := fun e => v.waiting e ++ List.replicate (es.count e) id
      nextWaitNo := v.nextWaitNo + es.length } := by
  induction es generalizing v with
  | nil => simp
  | cons e es ih =>
    rw [List.foldl_cons, ih, View.addWaiter]
    ext1
    case waiting =>
      funext e'
      by_cases he : e' = e
      · subst he
        simp [List.replicate_succ]
      · simp [he, Ne.symm he]
    case nextWaitNo => exact (Nat.add_assoc ..).trans (by rw [Nat.add_comm 1]; rfl)
    all_goals rfl

lemma dropWaiters (hes : es.Nodup) (v : View) : es.foldl (View.dropWaiter id) v =
    { v with waiting := fun e =>
        if e ∈ es then ((v.waiting e).reverse.erase id).reverse else v.waiting e } := by
  induction es generalizing v with
  | nil => simp
  | cons e es ih =>
    obtain ⟨hnot, hes⟩ := List.nodup_cons.mp hes
    rw [List.foldl_cons, ih hes, View.dropWaiter]
    ext1
    case waiting =>
      funext e'
      by_cases he : e' = e
      · subst he
        simp [hnot]
      · simp [he]
    all_goals rfl

lemma count_reverse_erase (l : List TaskID) (id id' : TaskID) :
    (l.reverse.erase id).reverse.count id' = l.count id' - if id' = id then 1 else 0 := by
  by_cases hid : id' = id
  · subst hid
    simp
  · simp [hid, List.count_erase_of_ne hid]

namespace Tokens

/-- A task that does not await the event has no place for it, but on the list of a handle that is
finished. -/
lemma count_eq_zero (h : Tokens aw kind v) (haw : aw id e = false)
    (hnot : ¬ Finished kind v.named e) : (v.places e).count id = 0 := by
  refine List.count_eq_zero_of_not_mem fun hmem => ?_
  rcases List.mem_append.mp hmem with hmem | hmem
  · rcases h.waits e id hmem with htrue | hfin
    · simp [haw] at htrue
    · exact hnot hfin
  · obtain ⟨p, hp, hid⟩ := List.mem_flatMap.mp hmem
    obtain ⟨hp, he⟩ := List.mem_filter.mp hp
    have htrue := h.taken p hp id hid
    rw [of_decide_eq_true he, haw] at htrue
    cases htrue

lemma of_eq (h : Tokens aw kind v) (hwaiting : v'.waiting = v.waiting)
    (hpending : v'.pending = v.pending) (hhandled : v'.handled = v.handled)
    (htaken : v'.taken = v.taken)
    (hnamed : ∀ e, kind e = some .eventHandleForJFork → v'.named e = v.named e) :
    Tokens aw kind v' := by
  have hfin : ∀ e, Finished kind v'.named e ↔ Finished kind v.named e := by
    intro e
    refine and_congr_right fun hk => ?_
    rw [hnamed e hk]
  refine ⟨?_, ?_, ?_, h.known, ?_, ?_⟩
  · intro e id hid
    rw [hwaiting] at hid
    rw [hfin]
    exact h.waits e id hid
  · rw [htaken]
    exact h.taken
  · intro id e haw
    rw [View.places, hwaiting, htaken]
    exact h.once id e haw
  · intro e hsent
    rw [View.Sent, hpending, htaken] at hsent
    refine ⟨(h.sent e hsent).1, fun hk => ?_⟩
    rw [hnamed e hk]
    exact (h.sent e hsent).2 hk
  · intro e he id hid haw
    rw [hwaiting] at hid
    rw [hpending, hhandled]
    exact h.due e ((hfin e).mp he) id hid haw

lemma newEvent (h : Tokens aw kind v) (hnew : kind e = none) (k : Kind) :
    Tokens aw (Function.update kind e (some k)) (v.addEvent e) := by
  have hfin : ∀ e', e' ≠ e → Finished kind v.named e' →
      Finished (Function.update kind e (some k)) (v.addEvent e).named e' := by
    intro e' he hf
    simpa [Finished, View.addEvent, he] using hf
  have hfin' : ∀ e', Finished (Function.update kind e (some k)) (v.addEvent e).named e' →
      e' ≠ e ∧ Finished kind v.named e' := by
    intro e' hf
    by_cases he : e' = e
    · subst he
      simp [Finished, View.addEvent] at hf
    · exact ⟨he, by simpa [Finished, View.addEvent, he] using hf⟩
  have hne : ∀ id e', aw id e' = true → e' ≠ e := by
    rintro id e' haw rfl
    exact h.known id e' haw hnew
  refine ⟨?_, h.taken, ?_, ?_, ?_, ?_⟩
  · intro e' id hid
    by_cases he : e' = e
    · subst he
      simp [View.addEvent] at hid
    · simp only [View.addEvent, Function.update_of_ne he] at hid
      exact (h.waits e' id hid).imp_right (hfin e' he)
  · intro id e' haw
    have hwaiting : (v.addEvent e).waiting e' = v.waiting e' := by
      simp [View.addEvent, hne id e' haw]
    rw [View.places, hwaiting]
    exact h.once id e' haw
  · intro id e' haw
    rw [Function.update_of_ne (hne id e' haw)]
    exact h.known id e' haw
  · intro e' hsent
    have he : e' ≠ e := by
      rintro rfl
      exact (h.sent e' hsent).1 hnew
    simp only [View.addEvent, Function.update_of_ne he]
    exact h.sent e' hsent
  · intro e' hf id hid haw
    simp only [View.addEvent, Function.update_of_ne (hne id e' haw)] at hid
    exact h.due e' (hfin' e' hf).2 id hid haw

lemma send (h : Tokens aw kind v) (hkind : kind e ≠ none)
    (hfin : kind e = some .eventHandleForJFork → v.named e = false) :
    Tokens aw kind { v with pending := v.pending ++ [e] } := by
  refine ⟨h.waits, h.taken, h.once, h.known, ?_, ?_⟩
  · intro e' hsent
    rcases hsent with hmem | hmem
    · rcases List.mem_append.mp hmem with hmem | hmem
      · exact h.sent e' (.inl hmem)
      · rw [List.mem_singleton.mp hmem]
        exact ⟨hkind, hfin⟩
    · exact h.sent e' (.inr hmem)
  · intro e' hf id hid haw
    rw [List.drop_append]
    exact List.mem_append_left _ (h.due e' hf id hid haw)

lemma finish (h : Tokens aw kind v) (hkind : kind e = some .eventHandleForJFork)
    (hle : v.handled ≤ v.pending.length) (sends : Bool)
    (hsends : sends = false → v.waiting e = []) :
    Tokens aw kind { v with
      pending := if sends then v.pending ++ [e] else v.pending
      named := Function.update v.named e false } := by
  have hfin : ∀ e', Finished kind v.named e' →
      Finished kind (Function.update v.named e false) e' := by
    intro e' hf
    by_cases he : e' = e
    · subst he
      exact ⟨hkind, Function.update_self ..⟩
    · exact ⟨hf.1, by simpa [he] using hf.2⟩
  refine ⟨?_, h.taken, h.once, h.known, ?_, ?_⟩
  · intro e' id hid
    exact (h.waits e' id hid).imp_right (hfin e')
  · intro e' hsent
    by_cases he : e' = e
    · subst he
      exact ⟨by simp [hkind], fun _ => Function.update_self ..⟩
    · simp only [Function.update_of_ne he]
      refine h.sent e' ?_
      cases sends with
      | false => exact hsent
      | true => simpa [View.Sent, he] using hsent
  · intro e' hf id hid haw
    by_cases he : e' = e
    · subst he
      cases sends with
      | false => simp [hsends rfl] at hid
      | true => simp [List.drop_append_of_le_length hle]
    · have hdue := h.due e' ⟨hf.1, by simpa [Finished, he] using hf.2⟩ id hid haw
      cases sends with
      | false => exact hdue
      | true =>
        rw [if_pos rfl, List.drop_append]
        exact List.mem_append_left _ hdue

/-- A task that awaits nothing puts itself on lists, of which it awaits those that are not the lists
of finished handles. -/
lemma register (h : Tokens aw kind v) (hes : es.Nodup) (hout : ∀ e, aw id e = false)
    {A : EventID → Bool}
    (hin : ∀ e, A e = true → e ∈ es ∧ kind e ≠ none ∧ ¬ Finished kind v.named e)
    (hrest : ∀ e ∈ es, A e = true ∨ Finished kind v.named e) :
    Tokens (Function.update aw id A) kind (es.foldl (View.addWaiter id) v) := by
  rw [addWaiters]
  have hself : Function.update aw id A id = A := Function.update_self ..
  have hother : ∀ id', id' ≠ id → Function.update aw id A id' = aw id' := fun id' hne =>
    Function.update_of_ne hne ..
  refine ⟨?_, ?_, ?_, ?_, h.sent, ?_⟩
  · intro e id' hid
    rcases List.mem_append.mp hid with hold | hnew
    · by_cases heq : id' = id
      · subst heq
        rcases h.waits e id' hold with haw | hfin
        · simp [hout e] at haw
        · exact .inr hfin
      · rw [hother id' heq]
        exact h.waits e id' hold
    · obtain ⟨hcount, rfl⟩ := List.mem_replicate.mp hnew
      rw [hself]
      exact hrest e (List.count_pos_iff.mp (Nat.pos_of_ne_zero hcount))
  · intro p hp id' hid
    have haw := h.taken p hp id' hid
    have hne : id' ≠ id := by
      rintro rfl
      simp [hout] at haw
    rw [hother id' hne]
    exact haw
  · intro id' e haw
    have hcount : View.places { v with
        waiting := fun e => v.waiting e ++ List.replicate (es.count e) id
        nextWaitNo := v.nextWaitNo + es.length } e =
        v.waiting e ++ List.replicate (es.count e) id ++
          (v.taken.filter fun p => p.1 = e).flatMap Prod.snd := rfl
    rw [hcount, List.count_append, List.count_append, Nat.add_right_comm, ← List.count_append]
    by_cases heq : id' = id
    · subst heq
      rw [hself] at haw
      obtain ⟨hmem, -, hnot⟩ := hin e haw
      have hzero := h.count_eq_zero (hout e) hnot
      rw [View.places] at hzero
      rw [hzero, List.count_eq_one_of_mem hes hmem]
      simp
    · rw [hother id' heq] at haw
      have hone := h.once id' e haw
      rw [View.places] at hone
      rw [hone, List.count_replicate]
      simp [Ne.symm heq]
  · intro id' e haw
    by_cases heq : id' = id
    · subst heq
      rw [hself] at haw
      exact (hin e haw).2.1
    · rw [hother id' heq] at haw
      exact h.known id' e haw
  · intro e hf id' hid haw
    by_cases heq : id' = id
    · subst heq
      rw [hself] at haw
      exact absurd hf (hin e haw).2.2
    · rw [hother id' heq] at haw
      rcases List.mem_append.mp hid with hold | hnew
      · exact h.due e hf id' hold haw
      · exact absurd (List.mem_replicate.mp hnew).2 heq

/-! ### The wake-up loop -/

/-- The next task of the list that the loop has taken is resumed and awaits the event no longer. -/
lemma wake (h : Tokens aw kind v) {ids : List TaskID} {rest : List (EventID × List TaskID)}
    (htaken : v.taken = (e, id :: ids) :: rest) {A : EventID → Bool}
    (hA : ∀ e', A e' = true ↔ aw id e' = true ∧ e' ≠ e) :
    Tokens (Function.update aw id A) kind { v with taken := (e, ids) :: rest } := by
  have hself : Function.update aw id A id = A := Function.update_self ..
  have hother : ∀ id', id' ≠ id → Function.update aw id A id' = aw id' := fun id' hne =>
    Function.update_of_ne hne ..
  have hplaces : v.places e = v.waiting e ++ (id :: ids ++
      (rest.filter fun p => p.1 = e).flatMap Prod.snd) := by
    simp [View.places, htaken]
  have hplaces' : View.places { v with taken := (e, ids) :: rest } e = v.waiting e ++ (ids ++
      (rest.filter fun p => p.1 = e).flatMap Prod.snd) := by
    simp [View.places]
  have hrest : ∀ e', e' ≠ e → View.places { v with taken := (e, ids) :: rest } e' =
      v.places e' := by
    intro e' he
    simp [View.places, htaken, Ne.symm he]
  have hall : ∀ id' ∈ id :: ids, aw id' e = true := h.taken (e, id :: ids) (by simp [htaken])
  have hone : (v.places e).count id = 1 := h.once id e (hall id List.mem_cons_self)
  -- the place that the task had for `e` was its only one
  have hzero : (View.places { v with taken := (e, ids) :: rest } e).count id = 0 := by
    rw [hplaces, List.count_append, List.count_append, List.count_cons_self] at hone
    rw [hplaces', List.count_append, List.count_append]
    omega
  have hnot : id ∉ View.places { v with taken := (e, ids) :: rest } e :=
    List.count_eq_zero.mp hzero
  rw [hplaces'] at hnot
  simp only [List.mem_append, not_or] at hnot
  have haw : ∀ id' e', (id' = id → e' ≠ e) → aw id' e' = true →
      Function.update aw id A id' e' = true := by
    intro id' e' hne haw
    by_cases hid : id' = id
    · subst hid
      rw [hself, hA]
      exact ⟨haw, hne rfl⟩
    · rw [hother id' hid]
      exact haw
  have haw' : ∀ id' e', Function.update aw id A id' e' = true →
      aw id' e' = true ∧ (id' = id → e' ≠ e) := by
    intro id' e' haw
    by_cases hid : id' = id
    · subst hid
      rw [hself, hA] at haw
      exact ⟨haw.1, fun _ => haw.2⟩
    · rw [hother id' hid] at haw
      exact ⟨haw, fun heq => absurd heq hid⟩
  refine ⟨?_, ?_, ?_, fun id' e' h' => h.known id' e' (haw' id' e' h').1, ?_, ?_⟩
  · intro e' id' hid
    refine (h.waits e' id' hid).imp_left fun htrue => haw id' e' ?_ htrue
    rintro rfl rfl
    exact hnot.1 hid
  · intro p hp id' hid
    rcases List.mem_cons.mp hp with rfl | hp
    · refine haw id' e ?_ (hall id' (List.mem_cons_of_mem id hid))
      rintro rfl -
      exact hnot.2.1 hid
    · refine haw id' p.1 ?_ (h.taken p (by simp [htaken, hp]) id' hid)
      intro heq he
      subst heq
      exact hnot.2.2 (List.mem_flatMap.mpr ⟨p, List.mem_filter.mpr ⟨hp, decide_eq_true he⟩, hid⟩)
  · intro id' e' h'
    obtain ⟨htrue, hne⟩ := haw' id' e' h'
    have hone' := h.once id' e' htrue
    by_cases he : e' = e
    · subst he
      have hid : id ≠ id' := fun heq => hne heq.symm rfl
      rw [hplaces, List.count_append, List.count_append, List.count_cons_of_ne hid] at hone'
      rw [hplaces', List.count_append, List.count_append]
      exact hone'
    · rw [hrest e' he]
      exact hone'
  · intro e' hsent
    refine h.sent e' ?_
    simpa [View.Sent, htaken] using hsent
  · intro e' hf id' hid h'
    exact h.due e' hf id' hid (haw' id' e' h').1

lemma not_mem_dropped (h : Tokens aw kind v) (haw : aw id e = true)
    (htaken : ∀ p ∈ v.taken, id ∉ p.2) : id ∉ ((v.waiting e).reverse.erase id).reverse := by
  have hnot : id ∉ (v.taken.filter fun p => p.1 = e).flatMap Prod.snd := by
    intro hid
    obtain ⟨p, hp, hid⟩ := List.mem_flatMap.mp hid
    exact htaken p (List.mem_of_mem_filter hp) hid
  have hone := h.once id e haw
  rw [View.places, List.count_append, List.count_eq_zero.mpr hnot, Nat.add_zero] at hone
  apply List.count_eq_zero.mp
  rw [count_reverse_erase, hone, if_pos rfl]

lemma leave (h : Tokens aw kind v) (hes : es.Nodup) (haw : ∀ e, aw id e = true ↔ e ∈ es)
    (htaken : ∀ p ∈ v.taken, id ∉ p.2) :
    Tokens (Function.update aw id fun _ => false) kind (es.foldl (View.dropWaiter id) v) := by
  rw [dropWaiters hes]
  have hother : ∀ id', id' ≠ id → Function.update aw id (fun _ => false) id' = aw id' :=
    fun id' hne => Function.update_of_ne hne ..
  have haw' : ∀ id' e', Function.update aw id (fun _ => false) id' e' = true →
      id' ≠ id ∧ aw id' e' = true := by
    intro id' e' htrue
    by_cases hid : id' = id
    · subst hid
      simp at htrue
    · rw [hother id' hid] at htrue
      exact ⟨hid, htrue⟩
  have hmem : ∀ e' id', id' ∈ (if e' ∈ es then ((v.waiting e').reverse.erase id).reverse
      else v.waiting e') → id' ∈ v.waiting e' := by
    intro e' id' hid
    split_ifs at hid
    · exact List.mem_reverse.mp (List.mem_of_mem_erase (List.mem_reverse.mp hid))
    · exact hid
  refine ⟨?_, ?_, ?_, fun id' e' h' => h.known id' e' (haw' id' e' h').2, h.sent, ?_⟩
  · intro e' id' hid
    by_cases heq : id' = id
    · subst heq
      by_cases he : e' ∈ es
      · simp only [if_pos he] at hid
        exact absurd hid (h.not_mem_dropped ((haw e').mpr he) htaken)
      · rcases h.waits e' id' (hmem e' id' hid) with htrue | hfin
        · exact absurd ((haw e').mp htrue) he
        · exact .inr hfin
    · rw [hother id' heq]
      exact h.waits e' id' (hmem e' id' hid)
  · intro p hp id' hid
    have hne : id' ≠ id := by
      rintro rfl
      exact htaken p hp hid
    rw [hother id' hne]
    exact h.taken p hp id' hid
  · intro id' e' h'
    obtain ⟨hne, htrue⟩ := haw' id' e' h'
    have hone := h.once id' e' htrue
    have hcount : List.count id' (if e' ∈ es then ((v.waiting e').reverse.erase id).reverse
        else v.waiting e') = (v.waiting e').count id' := by
      split_ifs
      · rw [count_reverse_erase, if_neg hne, Nat.sub_zero]
      · rfl
    rw [View.places, List.count_append] at hone ⊢
    rw [← hone, ← hcount]
  · intro e' hf id' hid h'
    exact h.due e' hf id' (hmem e' id' hid) (haw' id' e' h').2

lemma next (h : Tokens aw kind v) {rest : List (EventID × List TaskID)}
    (htaken : v.taken = (e, []) :: rest) : Tokens aw kind { v with taken := rest } := by
  refine ⟨h.waits, ?_, ?_, h.known, ?_, h.due⟩
  · intro p hp
    exact h.taken p (by simp [htaken, hp])
  · intro id e' haw
    have hplaces : View.places { v with taken := rest } e' = v.places e' := by
      by_cases he : e = e' <;> simp [View.places, htaken, he]
    rw [hplaces]
    exact h.once id e' haw
  · intro e' hsent
    refine h.sent e' ?_
    rcases hsent with hmem | hmem
    · exact .inl hmem
    · exact .inr (by simp [htaken, List.mem_map.mp hmem])

lemma take (h : Tokens aw kind v) {n : Nat} (he : v.pending[n]? = some e) (hn : n ≤ v.handled)
    (hlist : ∀ id ∈ v.waiting e, aw id e = true) :
    Tokens aw kind { v with
      taken := (e, v.waiting e) :: v.taken
      waiting := Function.update v.waiting e []
      handled := max v.handled (n + 1) } := by
  refine ⟨?_, ?_, ?_, h.known, ?_, ?_⟩
  · intro e' id hid
    by_cases heq : e' = e
    · subst heq
      simp at hid
    · simp only [Function.update_of_ne heq] at hid
      exact h.waits e' id hid
  · intro p hp
    rcases List.mem_cons.mp hp with rfl | hp
    · exact hlist
    · exact h.taken p hp
  · intro id e' haw
    refine Eq.trans ?_ (h.once id e' haw)
    by_cases heq : e' = e
    · subst heq
      simp [View.places]
    · simp [View.places, heq, Ne.symm heq]
  · intro e' hsent
    refine h.sent e' ?_
    rcases hsent with hmem | hmem
    · exact .inl hmem
    · rcases List.mem_cons.mp hmem with rfl | hmem
      · exact .inl (List.mem_of_getElem? he)
      · exact .inr hmem
  · intro e' hf id hid haw
    have hne : e' ≠ e := by
      rintro rfl
      simp at hid
    simp only [Function.update_of_ne hne] at hid
    have hdue := h.due e' hf id hid haw
    rcases Nat.lt_or_ge n v.handled with hlt | hge
    · rwa [Nat.max_eq_left hlt]
    · have heq : n = v.handled := Nat.le_antisymm hn hge
      subst heq
      rw [Nat.max_eq_right (Nat.le_succ _)]
      obtain ⟨hlt, hget⟩ := List.getElem?_eq_some_iff.mp he
      rw [List.drop_eq_getElem_cons hlt, hget] at hdue
      exact (List.mem_cons.mp hdue).resolve_left hne

lemma close (h : Tokens aw kind v) (hall : v.pending.drop v.handled = []) (t : Option TaskID) :
    Tokens aw kind { v with pending := [], handled := 0, top := t } := by
  refine ⟨h.waits, h.taken, h.once, h.known, ?_, ?_⟩
  · intro e hsent
    refine h.sent e (.inr ?_)
    simpa [View.Sent] using hsent
  · intro e hf id hid haw
    have hdue := h.due e hf id hid haw
    rw [hall] at hdue
    cases hdue

end Tokens

end Verilua.Join
