import Verilua.Wave.Reading
import Verilua.Wave.Removed

/-!
# What a value callback is told

A callback is called once at each position where its signal changes, as long as the value can be
read and the change can be told, and the integer that is recovered from its text is the value.
-/

namespace Verilua.Wave

open TransitionSystem

/-- What an event gives a callback at an index. -/
def ValueEv.receipt (id idx : Nat) : ValueEv → Option (Option UInt32)
  | .invoked (.value id') idx' integer => if id' = id ∧ idx' = idx then some integer else none
  | _ => none

/-- The integers that a callback gets at an index. -/
def received (log : List ValueEv) (id idx : Nat) : List (Option UInt32) :=
  log.filterMap (ValueEv.receipt id idx)

/-- A callback is called once at the index if the signal has changed since the index before it, and
not at all if it has not; a 2-state value is told modulo 2 ^ 32. -/
structure Told (sig : Signal) (log : List ValueEv) (id idx : Nat) : Prop where
  same : sig.bits? idx = sig.bits? (idx - 1) → received log id idx = []
  changed : sig.bits? idx ≠ sig.bits? (idx - 1) → ∃ n, received log id idx = [some n] ∧
    ∀ bits, sig.bits? idx = some bits → bits.all Bit.isTwoState = true →
      n = UInt32.ofNat (Bit.number bits)

lemma received_eq_nil {log : List ValueEv} {id idx : Nat}
    (h : ∀ integer, .invoked (.value id) idx integer ∉ log) : received log id idx = [] := by
  rw [received, List.filterMap_eq_nil_iff]
  intro e he
  cases e with
  | invoked cb idx' integer =>
    cases cb with
    | value id' =>
      apply if_neg
      rintro ⟨rfl, rfl⟩
      exact h integer he
    | delay id' => rfl
  | _ => rfl

lemma received_cons {e : ValueEv} {id idx : Nat} (h : e.receipt id idx = none)
    (log : List ValueEv) : received (e :: log) id idx = received log id idx :=
  List.filterMap_cons_none h

lemma received_invoked (log : List ValueEv) (id idx : Nat) (integer : Option UInt32) :
    received (.invoked (.value id) idx integer :: log) id idx = integer :: received log id idx := by
  simp [received, ValueEv.receipt]

lemma Told.congr {sig : Signal} {log log' : List ValueEv} {id idx : Nat} (h : Told sig log id idx)
    (hreceived : received log' id idx = received log id idx) : Told sig log' id idx where
  same hbits := hreceived.trans (h.same hbits)
  changed hbits := by
    rw [hreceived]
    exact h.changed hbits

namespace ValueLoop

/-- Every index that the loop has left has had its value phase, every callback that is registered
and not removed is told of every later index, and no change terminates the program. -/
structure Notifies (wave : Waveform) (s : ValueLoop) : Prop where
  walked : ∀ idx, idx < s.loop.cursor → .walked idx ∈ s.log
  told : ∀ id handle i idx, .registered id handle i ∈ s.log → .removed (.value id) ∉ s.log →
    i < idx → .walked idx ∈ s.log → Told (wave.signal handle) s.log id idx
  stoi : s.crash ≠ some .stoi
  noValue : s.crash ≠ some .noValue

/-- The cursor does not jump, the signal can be read when a callback is registered and when the walk
comes to it, and if it has changed then, the change can be told. -/
def tells (wave : Waveform) (s : ValueLoop) : Act → Bool
  | .time (.setCursor _) => false
  | .register handle w => (wave.signal handle).readable w s.loop.cursor
  | .visit id w => (s.valueCbMap.lookup id).all fun info =>
      let sig := wave.signal info.handle
      sig.readable w s.loop.cursor &&
        (decide (sig.bits? s.loop.cursor = sig.bits? (s.loop.cursor - 1)) ||
          sig.tellable s.loop.cursor)
  | _ => true

/-! ### The invariant -/

/-- The index that a callback of the map has last seen: the one of the cursor when the walk of the
turn has come to it, and the one before until then. -/
def seenAt (s : ValueLoop) (id : Nat) : Nat :=
  if s.loop.phase = .values ∧ id ∉ s.walk.getD [] then s.loop.cursor else s.loop.cursor - 1

/-- The value phase of the index is over. -/
def Done (s : ValueLoop) (idx : Nat) : Prop :=
  idx < s.loop.cursor ∨ idx = s.loop.cursor ∧ s.loop.phase = .values ∧ s.walk = none

/-- Registrations wait in the queue with what they show at the cursor, and the callbacks of the map
have what they show at the index they have last seen; what they have been told ends there. -/
structure TellInv (wave : Waveform) (s : ValueLoop) : Prop where
  starting : s.loop.phase = .starting → s.loop.cursor = 0
  walking : s.walk.isSome → s.loop.phase = .values
  lt : ∀ id handle i, .registered id handle i ∈ s.log → id < s.vpiHandleAllocator
  unique : ∀ id handle handle' i i', .registered id handle i ∈ s.log →
    .registered id handle' i' ∈ s.log → handle = handle' ∧ i = i'
  queued : ∀ e ∈ s.willAppendValueCb, .registered e.1 e.2.handle s.loop.cursor ∈ s.log ∧
    e.2.seen = (wave.signal e.2.handle).shows s.loop.cursor
  mapped : ∀ e ∈ s.valueCbMap, (∃ i, .registered e.1 e.2.handle i ∈ s.log) ∧
    e.2.seen = (wave.signal e.2.handle).shows (s.seenAt e.1)
  known : ∀ id handle i, .registered id handle i ∈ s.log → .removed (.value id) ∉ s.log →
    id ∈ s.keys ∨ id ∈ s.willAppendValueCb.map Prod.fst ∧ i = s.loop.cursor
  leaving : ∀ id ∈ s.willRemoveValueCb, .removed (.value id) ∈ s.log
  done : ∀ idx, .walked idx ∈ s.log ↔ s.Done idx
  past : ∀ id idx integer, .invoked (.value id) idx integer ∈ s.log → idx ≤ s.seenAt id
  told : ∀ id handle i idx, .registered id handle i ∈ s.log → .removed (.value id) ∉ s.log →
    i < idx → idx ≤ s.seenAt id → Told (wave.signal handle) s.log id idx
  stoi : s.crash ≠ some .stoi
  noValue : s.crash ≠ some .noValue

variable {wave : Waveform} {s s' : ValueLoop} {a : Act}

lemma seenAt_le (s : ValueLoop) (id : Nat) : s.seenAt id ≤ s.loop.cursor := by
  rw [seenAt]
  split_ifs <;> omega

lemma TellInv.notifies (h : TellInv wave s) : Notifies wave s where
  walked idx hidx := (h.done idx).mpr (.inl hidx)
  told id handle i idx hreg hkept hi hwalked := by
    apply h.told id handle i idx hreg hkept hi
    rcases (h.done idx).mp hwalked with hlt | ⟨rfl, hphase, hwalk⟩
    · rw [seenAt]
      split_ifs <;> omega
    · rw [seenAt, if_pos ⟨hphase, by simp [hwalk]⟩]
  stoi := h.stoi
  noValue := h.noValue

lemma TellInv.init : TellInv wave init := by
  constructor <;> simp [ValueLoop.init, Loop.init, keys, Done]

/-! ### The log -/

/-- The events that say something of the value callbacks. -/
def concerns : ValueEv → Bool
  | .walked _ | .invoked (.delay _) _ _ => false
  | _ => true

lemma mem_iff_of_concerns {log log' : List ValueEv} (h : log'.filter concerns = log.filter concerns)
    {e : ValueEv} (he : concerns e = true) : e ∈ log' ↔ e ∈ log := by
  have hmem : ∀ log : List ValueEv, e ∈ log ↔ e ∈ log.filter concerns := by
    intro log
    rw [List.mem_filter, and_iff_left he]
  rw [hmem log', h, ← hmem log]

lemma received_filter (log : List ValueEv) (id idx : Nat) :
    received (log.filter concerns) id idx = received log id idx := by
  rw [received, List.filterMap_filter]
  apply List.filterMap_congr
  intro e _
  cases e with
  | invoked cb => cases cb <;> rfl
  | _ => rfl

lemma received_of_concerns {log log' : List ValueEv}
    (h : log'.filter concerns = log.filter concerns) (id idx : Nat) :
    received log' id idx = received log id idx := by
  rw [← received_filter log', h, received_filter]

/-! ### One step -/

lemma TellInv.of_same (h : TellInv wave s) (hmap : s'.valueCbMap = s.valueCbMap)
    (hqueue : s'.willAppendValueCb = s.willAppendValueCb)
    (hremove : s'.willRemoveValueCb = s.willRemoveValueCb)
    (halloc : s'.vpiHandleAllocator = s.vpiHandleAllocator)
    (hlog : s'.log.filter concerns = s.log.filter concerns)
    (hcursor : s'.loop.cursor = s.loop.cursor)
    (hstarting : s'.loop.phase = .starting → s.loop.phase = .starting)
    (hwalking : s'.walk.isSome → s'.loop.phase = .values)
    (hdone : ∀ idx, .walked idx ∈ s'.log ↔ s'.Done idx)
    (hseen : ∀ id ∈ s.keys, s'.seenAt id = s.seenAt id)
    (hmono : ∀ id, s.seenAt id ≤ s'.seenAt id)
    (hcrash : s'.crash ≠ some .stoi ∧ s'.crash ≠ some .noValue) : TellInv wave s' := by
  have hreg : ∀ {id handle i}, .registered id handle i ∈ s'.log ↔
      .registered id handle i ∈ s.log := mem_iff_of_concerns hlog rfl
  have hrem : ∀ {id}, .removed (.value id) ∈ s'.log ↔ .removed (.value id) ∈ s.log :=
    mem_iff_of_concerns hlog rfl
  have hkeys : s'.keys = s.keys := congrArg (List.map Prod.fst) hmap
  refine ⟨fun hphase => ?_, hwalking, fun id handle i hmem => ?_,
    fun id handle handle' i i' hmem hmem' => ?_, fun e he => ?_, fun e he => ?_,
    fun id handle i hmem hkept => ?_, fun id hid => ?_, hdone, fun id idx integer hmem => ?_,
    fun id handle i idx hmem hkept hi hidx => ?_, hcrash.1, hcrash.2⟩
  · rw [hcursor]
    exact h.starting (hstarting hphase)
  · rw [halloc]
    exact h.lt id handle i (hreg.mp hmem)
  · exact h.unique id handle handle' i i' (hreg.mp hmem) (hreg.mp hmem')
  · rw [hqueue] at he
    rw [hreg, hcursor]
    exact h.queued e he
  · rw [hmap] at he
    obtain ⟨⟨i, hmem⟩, hsaw⟩ := h.mapped e he
    refine ⟨⟨i, hreg.mpr hmem⟩, ?_⟩
    rw [hseen e.1 (List.mem_map_of_mem (f := Prod.fst) he)]
    exact hsaw
  · rw [hkeys, hqueue, hcursor]
    exact h.known id handle i (hreg.mp hmem) (fun hgone => hkept (hrem.mpr hgone))
  · rw [hremove] at hid
    exact hrem.mpr (h.leaving id hid)
  · rw [mem_iff_of_concerns hlog rfl] at hmem
    exact (h.past id idx integer hmem).trans (hmono id)
  · rw [hreg] at hmem
    have hkept' : .removed (.value id) ∉ s.log := fun hgone => hkept (hrem.mpr hgone)
    apply Told.congr _ (received_of_concerns hlog id idx)
    apply h.told id handle i idx hmem hkept' hi
    -- a callback that waits in the queue has no later index yet
    rcases h.known id handle i hmem hkept' with hkey | ⟨-, rfl⟩
    · exact (hseen id hkey) ▸ hidx
    · have := seenAt_le s' id
      omega

/-- The queue is merged into the map when the cursor is at the next index, or at the first one. -/
lemma TellInv.of_append (h : TellInv wave s) {l : Loop} (hwalk : s.walk = none)
    (hto : l.phase = .test) (hcursor : l.cursor - 1 = s.loop.cursor)
    (hseen : ∀ id, s.seenAt id = s.loop.cursor)
    (hdone : ∀ idx, s.Done idx ↔ idx < l.cursor) :
    TellInv wave { s.appendValueCb with loop := l } := by
  have hseen' : ∀ id, ({ s.appendValueCb with loop := l } : ValueLoop).seenAt id = s.seenAt id := by
    intro id
    rw [hseen id, ← hcursor]
    exact if_neg fun hvalues => by simp [hto] at hvalues
  refine ⟨fun hphase => ?_, fun hsome => ?_, h.lt, h.unique, fun e he => ?_, fun e he => ?_,
    fun id handle i hmem hkept => .inl ?_, h.leaving, fun idx => ?_, fun id idx integer hmem => ?_,
    fun id handle i idx hmem hkept hi hidx => ?_, h.stoi, h.noValue⟩
  · simp [hto] at hphase
  · simp [appendValueCb, hwalk] at hsome
  · simp [appendValueCb] at he
  · rw [hseen']
    rcases List.mem_append.mp he with he | he
    · exact h.mapped e he
    · obtain ⟨hmem, hsaw⟩ := h.queued e he
      rw [hseen]
      exact ⟨⟨_, hmem⟩, hsaw⟩
  · have hkeys : id ∈ s.appendValueCb.keys := by
      rw [keys_appendValueCb, List.mem_append]
      exact (h.known id handle i hmem hkept).imp_right And.left
    exact hkeys
  · refine (h.done idx).trans ((hdone idx).trans ⟨.inl, ?_⟩)
    rintro (hlt | ⟨-, hphase, -⟩)
    · exact hlt
    · simp [hto] at hphase
  · rw [hseen']
    exact h.past id idx integer hmem
  · rw [hseen'] at hidx
    exact h.told id handle i idx hmem hkept hi hidx

lemma TellInv.removeValueCb (h : TellInv wave s) : TellInv wave s.removeValueCb := by
  refine ⟨h.starting, h.walking, h.lt, h.unique, h.queued, fun e he => ?_,
    fun id handle i hmem hkept => ?_, fun id hid => ?_, h.done, h.past, h.told, h.stoi, h.noValue⟩
  · exact h.mapped e (List.mem_of_mem_filter he)
  · refine (h.known id handle i hmem hkept).imp_left fun hkey => ?_
    rw [keys_removeValueCb, List.mem_filter]
    exact ⟨hkey, decide_eq_true fun hid => hkept (h.leaving id hid)⟩
  · simp [ValueLoop.removeValueCb] at hid

lemma TellInv.register (h : TellInv wave s) {handle : Nat} {w : Window}
    (hread : (wave.signal handle).readable w s.loop.cursor = true) :
    TellInv wave (s.register wave handle w) := by
  simp only [ValueLoop.register, Signal.observe_eq hread]
  have hold : ∀ {id handle' i}, .registered id handle' i ∈ s.log → id ≠ s.vpiHandleAllocator :=
    fun hmem => (h.lt _ _ _ hmem).ne
  have hcases : ∀ {id handle' i}, ValueEv.registered id handle' i ∈
      .registered s.vpiHandleAllocator handle s.loop.cursor :: s.log →
      (id = s.vpiHandleAllocator ∧ handle' = handle ∧ i = s.loop.cursor) ∨
        .registered id handle' i ∈ s.log := by
    intro id handle' i hmem
    simpa using hmem
  refine ⟨h.starting, h.walking, fun id handle' i hmem => ?_,
    fun id handle' handle'' i i' hmem hmem' => ?_, fun e he => ?_, fun e he => ?_,
    fun id handle' i hmem hkept => ?_, fun id hid => List.mem_cons_of_mem _ (h.leaving id hid),
    fun idx => ?_, fun id idx integer hmem => ?_, fun id handle' i idx hmem hkept hi hidx => ?_,
    h.stoi, h.noValue⟩
  · rcases hcases hmem with ⟨rfl, -, -⟩ | hmem
    · exact Nat.lt_succ_self _
    · exact (h.lt id handle' i hmem).trans (Nat.lt_succ_self _)
  · rcases hcases hmem with ⟨rfl, rfl, rfl⟩ | hmem
    · rcases hcases hmem' with ⟨-, rfl, rfl⟩ | hmem'
      · exact ⟨rfl, rfl⟩
      · exact (hold hmem' rfl).elim
    · rcases hcases hmem' with ⟨rfl, -, -⟩ | hmem'
      · exact (hold hmem rfl).elim
      · exact h.unique id handle' handle'' i i' hmem hmem'
  · rcases List.mem_append.mp he with he | he
    · exact ⟨List.mem_cons_of_mem _ (h.queued e he).1, (h.queued e he).2⟩
    · obtain rfl := List.mem_singleton.mp he
      exact ⟨List.mem_cons_self, rfl⟩
  · obtain ⟨⟨i, hmem⟩, hsaw⟩ := h.mapped e he
    exact ⟨⟨i, List.mem_cons_of_mem _ hmem⟩, hsaw⟩
  · have hkept' : .removed (.value id) ∉ s.log := fun hgone => hkept (List.mem_cons_of_mem _ hgone)
    rw [List.map_append, List.mem_append]
    rcases hcases hmem with ⟨rfl, rfl, rfl⟩ | hmem
    · exact .inr ⟨.inr List.mem_cons_self, rfl⟩
    · exact (h.known id handle' i hmem hkept').imp_right (And.imp_left .inl)
  · exact (List.mem_cons.trans (or_iff_right (by simp))).trans (h.done idx)
  · exact h.past id idx integer (by simpa using hmem)
  · have hkept' : .removed (.value id) ∉ s.log := fun hgone => hkept (List.mem_cons_of_mem _ hgone)
    rcases hcases hmem with ⟨-, -, rfl⟩ | hmem
    · have hle : idx ≤ s.seenAt id := hidx
      have := seenAt_le s id
      omega
    · exact (h.told id handle' i idx hmem hkept' hi hidx).congr (received_cons rfl _)

lemma TellInv.remove (h : TellInv wave s) (id : Nat) : TellInv wave (s.remove id) := by
  have hmem_iff : ∀ {e : ValueEv}, e ≠ .removed (.value id) →
      (e ∈ (s.remove id).log ↔ e ∈ s.log) := by
    intro e hne
    simp [ValueLoop.remove, hne]
  have hkept_of : ∀ {id'}, .removed (.value id') ∉ (s.remove id).log →
      .removed (.value id') ∉ s.log := fun hkept hgone => hkept (List.mem_cons_of_mem _ hgone)
  have hreg : ∀ {id' handle i}, .registered id' handle i ∈ (s.remove id).log ↔
      .registered id' handle i ∈ s.log := hmem_iff (by simp)
  refine ⟨h.starting, h.walking, fun id' handle i hmem => h.lt id' handle i (hreg.mp hmem),
    fun id' handle handle' i i' hmem hmem' =>
      h.unique id' handle handle' i i' (hreg.mp hmem) (hreg.mp hmem'),
    fun e he => ⟨hreg.mpr (h.queued e he).1, (h.queued e he).2⟩, fun e he => ?_,
    fun id' handle i hmem hkept => h.known id' handle i (hreg.mp hmem) (hkept_of hkept),
    fun id' hid => ?_, fun idx => (hmem_iff (by simp)).trans (h.done idx),
    fun id' idx integer hmem => h.past id' idx integer ((hmem_iff (by simp)).mp hmem),
    fun id' handle i idx hmem hkept hi hidx => ?_, h.stoi, h.noValue⟩
  · obtain ⟨⟨i, hmem⟩, hsaw⟩ := h.mapped e he
    exact ⟨⟨i, hreg.mpr hmem⟩, hsaw⟩
  · simp only [ValueLoop.remove] at hid
    split_ifs at hid
    · rcases List.mem_append.mp hid with hid | hid
      · exact List.mem_cons_of_mem _ (h.leaving id' hid)
      · obtain rfl := List.mem_singleton.mp hid
        exact List.mem_cons_self
    · exact List.mem_cons_of_mem _ (h.leaving id' hid)
  · have htold := h.told id' handle i idx (hreg.mp hmem) (hkept_of hkept) hi hidx
    exact htold.congr (received_cons rfl _)

/-! ### The walk -/

lemma seenAt_of_mem {left : List Nat} {id : Nat} (hwalk : s.walk = some left) (hid : id ∈ left) :
    s.seenAt id = s.loop.cursor - 1 :=
  if_neg fun hvalues => hvalues.2 (by simpa [hwalk] using hid)

lemma seenAt_visited {left : List Nat} {id : Nat} (hphase : s.loop.phase = .values)
    (hwalk : s.walk = some left) (hloop : s'.loop = s.loop)
    (hleft : s'.walk = some (left.filter (· ≠ id))) (id' : Nat) :
    s'.seenAt id' = if id' = id then s.loop.cursor else s.seenAt id' := by
  rw [seenAt, seenAt, hloop, hleft, hwalk]
  split_ifs with hsame <;> simp_all

lemma TellInv.of_visit (h : TellInv wave s) {left : List Nat} {id handle : Nat}
    (hphase : s.loop.phase = .values) (hwalk : s.walk = some left) (hid : id ∈ left)
    (hreg : ∃ i, .registered id handle i ∈ s.log) (hloop : s'.loop = s.loop)
    (hleft : s'.walk = some (left.filter (· ≠ id)))
    (hqueue : s'.willAppendValueCb = s.willAppendValueCb)
    (hremove : s'.willRemoveValueCb = s.willRemoveValueCb)
    (halloc : s'.vpiHandleAllocator = s.vpiHandleAllocator) (hkeys : s'.keys = s.keys)
    (hmap : ∀ e ∈ s'.valueCbMap, e ∈ s.valueCbMap ∧ e.1 ≠ id ∨ (∃ info, (id, info) ∈ s.valueCbMap ∧
      e.1 = id ∧ e.2.handle = info.handle) ∧
        e.2.seen = (wave.signal e.2.handle).shows s.loop.cursor)
    (hlog : s'.log = s.log ∨ ∃ n, s'.log = .invoked (.value id) s.loop.cursor n :: s.log)
    (htold : 0 < s.loop.cursor → Told (wave.signal handle) s'.log id s.loop.cursor)
    (hcrash : s'.crash ≠ some .stoi ∧ s'.crash ≠ some .noValue) : TellInv wave s' := by
  have hmem : ∀ {e}, e ∈ s'.log → e ∈ s.log ∨ ∃ n, e = .invoked (.value id) s.loop.cursor n := by
    intro e he
    rcases hlog with hlog | ⟨n, hlog⟩
    · exact .inl (hlog ▸ he)
    · rw [hlog] at he
      exact (List.mem_cons.mp he).symm.imp_right fun heq => ⟨n, heq⟩
  have hmem' : ∀ {e}, e ∈ s.log → e ∈ s'.log := by
    intro e he
    rcases hlog with hlog | ⟨n, hlog⟩
    · exact hlog ▸ he
    · exact hlog ▸ List.mem_cons_of_mem _ he
  have hreg' : ∀ {id' handle' i}, .registered id' handle' i ∈ s'.log →
      .registered id' handle' i ∈ s.log := fun he => (hmem he).resolve_right (by simp)
  have hreceived : ∀ id' idx, ¬(id = id' ∧ s.loop.cursor = idx) →
      received s'.log id' idx = received s.log id' idx := by
    intro id' idx hne
    rcases hlog with hlog | ⟨n, hlog⟩
    · rw [hlog]
    · rw [hlog]
      have hreceipt : (ValueEv.invoked (.value id) s.loop.cursor n).receipt id' idx = none :=
        if_neg hne
      exact received_cons hreceipt _
  have hseen := seenAt_visited hphase hwalk hloop hleft
  have hkept : ∀ {id'}, .removed (.value id') ∉ s'.log → .removed (.value id') ∉ s.log :=
    fun hkept hgone => hkept (hmem' hgone)
  refine ⟨fun hstart => ?_, fun _ => hloop ▸ hphase, fun id' handle' i he => ?_,
    fun id' handle' handle'' i i' he he' =>
      h.unique id' handle' handle'' i i' (hreg' he) (hreg' he'), fun e he => ?_, fun e he => ?_,
    fun id' handle' i he hkept' => ?_, fun id' hid' => ?_, fun idx => ?_,
    fun id' idx integer he => ?_, fun id' handle' i idx he hkept' hi hidx => ?_, hcrash.1, hcrash.2⟩
  · rw [hloop, hphase] at hstart
    cases hstart
  · exact halloc ▸ h.lt id' handle' i (hreg' he)
  · rw [hqueue] at he
    rw [hloop]
    exact ⟨hmem' (h.queued e he).1, (h.queued e he).2⟩
  · rw [hseen e.1]
    rcases hmap e he with ⟨he, hne⟩ | ⟨⟨info, hinfo, heq, hhandle⟩, hsaw⟩
    · obtain ⟨⟨i, hr⟩, hsaw⟩ := h.mapped e he
      exact ⟨⟨i, hmem' hr⟩, (if_neg hne).symm ▸ hsaw⟩
    · obtain ⟨⟨i, hr⟩, -⟩ := h.mapped _ hinfo
      refine ⟨⟨i, hmem' ?_⟩, (if_pos heq).symm ▸ hsaw⟩
      rw [heq, hhandle]
      exact hr
  · rw [hkeys, hqueue, hloop]
    exact h.known id' handle' i (hreg' he) (hkept hkept')
  · exact hmem' (h.leaving id' (hremove ▸ hid'))
  · have hwalked : .walked idx ∈ s'.log ↔ .walked idx ∈ s.log :=
      ⟨fun he => (hmem he).resolve_right (by simp), hmem'⟩
    rw [hwalked, h.done idx, Done, Done, hloop, hwalk, hleft]
    simp
  · rw [hseen id']
    rcases hmem he with he | ⟨n, heq⟩
    · have hle := h.past id' idx integer he
      have := seenAt_le s id'
      split_ifs <;> omega
    · cases heq
      rw [if_pos rfl]
  · rw [hseen id'] at hidx
    by_cases hsame : id = id' ∧ s.loop.cursor = idx
    · obtain ⟨rfl, rfl⟩ := hsame
      obtain ⟨i', hr⟩ := hreg
      obtain ⟨rfl, -⟩ := h.unique id handle' handle i i' (hreg' he) hr
      exact htold (by omega)
    · apply Told.congr _ (hreceived id' idx hsame)
      apply h.told id' handle' i idx (hreg' he) (hkept hkept') hi
      split_ifs at hidx with heq
      · subst heq
        rw [seenAt_of_mem hwalk hid]
        have hne : s.loop.cursor ≠ idx := fun h' => hsame ⟨rfl, h'⟩
        omega
      · exact hidx

lemma TellInv.visit (h : TellInv wave s) {id : Nat} {w : Window} {left : List Nat}
    {info : ValueCbInfo} (hwalk : s.walk = some left)
    (hinfo : s.valueCbMap.lookup id = some info) (hid : id ∈ left)
    (hok : s.tells wave (.visit id w) = true) :
    TellInv wave (s.visit wave id info (left.filter (· ≠ id)) w) := by
  simp only [tells, hinfo, Option.all_some, Bool.and_eq_true, Bool.or_eq_true,
    decide_eq_true_eq] at hok
  obtain ⟨hread, htell⟩ := hok
  have hphase := h.walking (by simp [hwalk])
  have hentry := mem_of_lookup hinfo
  obtain ⟨⟨i, hreg⟩, hsaw⟩ := h.mapped _ hentry
  rw [seenAt_of_mem hwalk hid] at hsaw
  have hpast : 0 < s.loop.cursor → received s.log id s.loop.cursor = [] := by
    intro hpos
    apply received_eq_nil
    intro integer he
    have hle := h.past id _ integer he
    rw [seenAt_of_mem hwalk hid] at hle
    omega
  have hbackend : ∀ idx, ((wave.signal info.handle).found s.loop.cursor).backend =
      ((wave.signal info.handle).found idx).backend := fun idx => by
    rw [wave.backend_found, wave.backend_found]
  -- every entry of the handle has the signal that the walk reads
  have hhandle : ∀ e ∈ s.valueCbMap, e.1 = id → e.2.handle = info.handle ∧
      e.2.seen = info.seen := by
    intro e he heq
    obtain ⟨⟨i', hreg'⟩, hsaw'⟩ := h.mapped e he
    rw [heq] at hreg' hsaw'
    have hsame := (h.unique id e.2.handle info.handle i' i hreg' hreg).1
    rw [seenAt_of_mem hwalk hid, hsame] at hsaw'
    exact ⟨hsame, hsaw'.trans hsaw.symm⟩
  by_cases hbits : (wave.signal info.handle).bits? s.loop.cursor =
      (wave.signal info.handle).bits? (s.loop.cursor - 1)
  · have hshows := Signal.shows_congr (hbackend _) hbits
    have hvisit : s.visit wave id info (left.filter (· ≠ id)) w =
        { s with walk := some (left.filter (· ≠ id)), calling := false } := by
      simp only [ValueLoop.visit, Signal.observe_eq hread]
      exact if_pos (hshows.trans hsaw.symm)
    rw [hvisit]
    refine h.of_visit hphase hwalk hid ⟨i, hreg⟩ rfl rfl rfl rfl rfl rfl (fun e he => ?_) (.inl rfl)
      (fun hpos => ⟨fun _ => hpast hpos, fun hne => (hne hbits).elim⟩) ⟨h.stoi, h.noValue⟩
    by_cases heq : e.1 = id
    · obtain ⟨hsame, hseen⟩ := hhandle e he heq
      exact .inr ⟨⟨info, hentry, heq, hsame⟩, by rw [hseen, hsaw, hsame, hshows]⟩
    · exact .inl ⟨he, heq⟩
  · have htell := htell.resolve_left hbits
    have hshows := Signal.shows_ne (hbackend _) hread htell hbits
    obtain ⟨n, hinteger, hvalue⟩ := Signal.integer_shows htell (Signal.isSome_bits? hread hbits)
    have hvisit : s.visit wave id info (left.filter (· ≠ id)) w =
        { ({ s with walk := some (left.filter (· ≠ id)), calling := false }.setSeen id
            ((wave.signal info.handle).shows s.loop.cursor)).note
              (.invoked (.value id) s.loop.cursor (some n)) with calling := true } := by
      simp only [ValueLoop.visit, Signal.observe_eq hread, hinteger]
      exact if_neg fun heq => hshows (heq.trans hsaw)
    rw [hvisit]
    refine h.of_visit hphase hwalk hid ⟨i, hreg⟩ rfl rfl rfl rfl rfl (keys_setSeen id _)
      (fun e he => ?_) (.inr ⟨some n, rfl⟩) (fun hpos => ⟨fun heq => (hbits heq).elim, fun _ => ?_⟩)
      ⟨h.stoi, h.noValue⟩
    · obtain ⟨e', he', rfl⟩ := List.mem_map.mp he
      by_cases heq : e'.1 = id
      · simp only [if_pos heq]
        have hsame := (hhandle e' he' heq).1
        exact .inr ⟨⟨info, hentry, heq, hsame⟩, by rw [hsame]⟩
      · simp only [if_neg heq]
        exact .inl ⟨he', heq⟩
    · refine ⟨n, ?_, hvalue⟩
      exact (received_invoked _ _ _ _).trans (congrArg _ (hpast hpos))

/-! ### Runs -/

lemma TellInv.of_stays (h : TellInv wave s) {l : Loop} (hstay : Loop.Stays s.loop l)
    (hcursor : l.cursor = s.loop.cursor) : TellInv wave { s with loop := l } := by
  have hseen : ∀ id, ({ s with loop := l } : ValueLoop).seenAt id = s.seenAt id := by
    intro id
    simp only [seenAt, hstay.values, hcursor]
  refine h.of_same rfl rfl rfl rfl rfl hcursor hstay.starting.mp
    (fun hsome => hstay.values.mpr (h.walking hsome)) (fun idx => ?_) (fun id _ => hseen id)
    (fun id => (hseen id).ge) ⟨h.stoi, h.noValue⟩
  rw [Done, hstay.values, hcursor]
  exact h.done idx

lemma TellInv.step (h : TellInv wave s) (hok : s.tells wave a = true)
    (hstep : s.step wave a = some s') : TellInv wave s' := by
  obtain ⟨hcrash, hrule⟩ := Rule.of_step hstep
  cases hrule with
  | startLoop l hwalk hfrom hto hcursor =>
    have hzero := h.starting hfrom
    have hnot : s.loop.phase ≠ .values := by simp [hfrom]
    refine h.of_append hwalk hto (by omega) (fun id => ?_) (fun idx => ?_)
    · rw [seenAt, if_neg fun hvalues => hnot hvalues.1]
      omega
    · rw [Done, hcursor]
      exact or_iff_left fun hnow => hnot hnow.2.1
  | call l e hfrom hstay hcursor =>
    have hnote : TellInv wave (s.note (.invoked (.delay e.id) s.loop.cursor none)) :=
      h.of_same rfl rfl rfl rfl rfl rfl id h.walking
        (fun idx => (List.mem_cons.trans (or_iff_right (by simp))).trans (h.done idx))
        (fun _ _ => rfl) (fun _ => le_rfl) ⟨h.stoi, h.noValue⟩
    exact hnote.of_stays hstay hcursor
  | startWalk l hfrom hto hcursor =>
    have hnot : s.loop.phase ≠ .values := by simp [hfrom]
    have hbefore : ∀ id, s.seenAt id = s.loop.cursor - 1 := fun id =>
      if_neg fun hvalues => hnot hvalues.1
    refine h.of_same rfl rfl rfl rfl rfl hcursor (fun hstart => ?_) (fun _ => hto) (fun idx => ?_)
      (fun id hid => ?_) (fun id => ?_) ⟨h.stoi, h.noValue⟩
    · simp [hto] at hstart
    · rw [h.done idx, Done, Done, hcursor]
      simp [hnot]
    · rw [hbefore, ← hcursor]
      exact if_neg fun hvalues => hvalues.2 hid
    · rw [hbefore, seenAt]
      dsimp only
      split_ifs <;> omega
  | advance l hwalk hfrom hto hcursor =>
    have hbefore : l.cursor - 1 = s.loop.cursor := by omega
    refine h.removeValueCb.of_append hwalk hto hbefore (fun id => ?_) (fun idx => ?_)
    · exact if_pos ⟨hfrom, by simp [ValueLoop.removeValueCb, hwalk]⟩
    · have hlast : idx = s.loop.cursor ∧ s.loop.phase = .values ∧ s.walk = none ↔
          idx = s.loop.cursor := and_iff_left ⟨hfrom, hwalk⟩
      rw [hcursor, Nat.lt_succ_iff_lt_or_eq]
      exact or_congr Iff.rfl hlast
  | other a l hstay hcursor =>
    refine h.of_stays hstay (hcursor fun idx heq => ?_)
    rw [heq] at hok
    cases hok
  | register handle w => exact h.register hok
  | remove id hlive => exact h.remove id
  | removeNull =>
    exact h.of_same rfl rfl rfl rfl rfl rfl id h.walking h.done (fun _ _ => rfl)
      (fun _ => le_rfl) (by simp [fail])
  | visit id w left info hwalk hinfo hid => exact h.visit hwalk hinfo hid hok
  | walked hwalk =>
    have hphase := h.walking (by simp [hwalk])
    refine h.of_same rfl rfl rfl rfl rfl rfl id (fun hsome => by simp at hsome) (fun idx => ?_)
      (fun id _ => ?_) (fun id => ?_) ⟨h.stoi, h.noValue⟩
    · have hold : .walked idx ∈ s.log ↔ idx < s.loop.cursor := by
        rw [h.done idx, Done, hwalk]
        simp
      simp [note, Done, hold, hphase, or_comm]
    · simp [seenAt, note, hwalk]
    · simp [seenAt, note, hwalk]

/-- The rising bit, from its registration to the end of the second turn. -/
def toldOfEdge : List Act :=
  [.register 0 noWindow, .time .startLoop, .time .loopTest, .time .walked, .visit 0 noWindow,
    .walked, .time .advance, .time .loopTest, .time .walked, .visit 0 noWindow, .walked]

/-- A signal that goes from 0 to `bits` at the second index, dumped as FSDB. -/
def switching (bits : List Bit) : Waveform where
  table := Loop.tens
  backend := .fsdb
  signal := fun _ => ⟨bits.length,
    fun idx => .fsdb (if idx = 0 then List.replicate bits.length .zero else bits),
    fun idx => by by_cases h : idx = 0 <;> simp [h, Found.bitSize]⟩
  backend_found := fun _ _ => rfl

end ValueLoop

end Verilua.Wave
