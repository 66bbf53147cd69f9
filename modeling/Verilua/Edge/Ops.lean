import Verilua.Edge.Machine
import Mathlib.Data.List.Perm.Lattice

/-!
# What the operations on edge callbacks do

The registrations that `cbNextSimTime` makes are the pending ones that no kept chunk serves, and
the end of a callback takes one off the count of each of its tasks.
-/

namespace Verilua.Edge

variable {cfg : Config} {env env' : Env} {cb cb' : Callback} {r : Reg} {key : Key}

/-- The registrations that a callback serves. -/
def Callback.regs (cb : Callback) : List Reg := cb.tasks.map (Reg.mk cb.key)

@[simp] lemma Callback.mem_regs : r ∈ cb.regs ↔ cb.has r := by
  obtain ⟨key, t⟩ := r
  simp only [Callback.regs, Callback.has, List.mem_map, Reg.mk.injEq]
  constructor
  · rintro ⟨t', hmem, hkey, rfl⟩
    exact ⟨hkey, hmem⟩
  · rintro ⟨hkey, hmem⟩
    exact ⟨t, hmem, hkey, rfl⟩

/-! ### Registering and removing -/

/-- A registration is not pushed when the count says that the callback of the task is there. -/
def Config.countsOn (cfg : Config) (n : Nat) : Prop :=
  cfg.mergeCb = true ∧ cfg.chunkTask = false ∧ 0 < n

lemma registerEdgeCallback_callbacks :
    (env.registerEdgeCallback cfg r).callbacks = env.callbacks := by
  unfold Env.registerEdgeCallback
  dsimp only
  split_ifs <;> rfl

lemma registerEdgeCallback_pendingCbChunk :
    (env.registerEdgeCallback cfg r).pendingCbChunk = env.pendingCbChunk := by
  unfold Env.registerEdgeCallback
  dsimp only
  split_ifs <;> rfl

lemma registerEdgeCallback_cbCount (hmerge : cfg.mergeCb = true) :
    (env.registerEdgeCallback cfg r).cbCount =
      Function.update env.cbCount r (some ((env.cbCount r).getD 0 + 1)) := by
  unfold Env.registerEdgeCallback
  simp only [hmerge, if_true]
  split_ifs <;> rfl

lemma registerEdgeCallback_counted (h : cfg.countsOn ((env.cbCount r).getD 0)) :
    (env.registerEdgeCallback cfg r).pendingCbMap = env.pendingCbMap := by
  obtain ⟨hmerge, hchunk, hpos⟩ := h
  simp [Env.registerEdgeCallback, hmerge, hchunk, hpos]

lemma registerEdgeCallback_pushed (h : ¬ cfg.countsOn ((env.cbCount r).getD 0)) :
    (env.registerEdgeCallback cfg r).pendingCbMap = env.pendingCbMap ++ [r] := by
  have hpush :
      (cfg.mergeCb && !cfg.chunkTask && decide (1 < (env.cbCount r).getD 0 + 1)) = false := by
    simpa [Config.countsOn] using h
  unfold Env.registerEdgeCallback
  dsimp only
  rw [hpush]
  cases cfg.mergeCb <;> rfl

lemma mem_removeCallback :
    cb' ∈ (env.removeCallback cb).callbacks ↔ cb' ∈ env.callbacks ∧ cb'.id ≠ cb.id := by
  simp [Env.removeCallback]

/-! ### The end of a callback -/

lemma exists_succ_of_pos {count : Option Nat} (h : 0 < count.getD 0) :
    ∃ n, count = some (n + 1) := by
  cases count with
  | none => simp at h
  | some k =>
    cases k with
    | zero => simp at h
    | succ n => exact ⟨n, rfl⟩

lemma takeCounts_eq_some (key : Key) {ts : List TaskID} {count : Reg → Option Nat} (hnodup : ts.Nodup)
    (hpos : ∀ t ∈ ts, 0 < (count ⟨key, t⟩).getD 0) :
    ∃ count' finished, Env.takeCounts key ts count = some (count', finished) ∧
      (∀ r, (count' r).getD 0 = (count r).getD 0 - if r.key = key ∧ r.task ∈ ts then 1 else 0) ∧
      ∀ t, t ∈ finished ↔ t ∈ ts ∧ (count ⟨key, t⟩).getD 0 = 1 := by
  induction ts generalizing count with
  | nil => exact ⟨count, [], rfl, by simp, by simp⟩
  | cons t ts ih =>
    obtain ⟨hnew, hnodup⟩ := List.nodup_cons.mp hnodup
    obtain ⟨n, hn⟩ := exists_succ_of_pos (hpos t List.mem_cons_self)
    have hother : ∀ t' ∈ ts, Function.update count ⟨key, t⟩ (some n) ⟨key, t'⟩ = count ⟨key, t'⟩ := by
      intro t' ht'
      refine Function.update_of_ne ?_ _ _
      rintro heq
      cases heq
      exact hnew ht'
    have hpos' : ∀ t' ∈ ts, 0 < (Function.update count ⟨key, t⟩ (some n) ⟨key, t'⟩).getD 0 := by
      intro t' ht'
      rw [hother t' ht']
      exact hpos t' (List.mem_cons_of_mem _ ht')
    obtain ⟨count', finished, heq, hcount, hfinished⟩ := ih hnodup hpos'
    refine ⟨count', if n = 0 then t :: finished else finished, ?_, fun r => ?_, fun t' => ?_⟩
    · simp [Env.takeCounts, hn, heq]
    · rw [hcount r]
      by_cases hr : r = ⟨key, t⟩
      · subst hr
        simp [hn, hnew]
      · have hne : ¬ (r.key = key ∧ r.task = t) := fun ⟨hk, ht⟩ => hr (by cases r; simp_all)
        rw [Function.update_of_ne hr]
        congr 1
        simp only [List.mem_cons]
        grind
    · by_cases ht' : t' = t
      · subst ht'
        have := hfinished t'
        split_ifs with h0 <;> simp_all
      · have := hfinished t'
        split_ifs with h0
        all_goals
          simp only [List.mem_cons, ht', false_or, this]
          constructor <;> rintro ⟨hmem, hc⟩ <;> exact ⟨hmem, by simpa [hother t' hmem] using hc⟩

/-- What the end of a callback leaves. -/
inductive Finish (cfg : Config) (env : Env) (cb : Callback) : Env → Prop
  | plain (hmerge : cfg.mergeCb = false) : Finish cfg env cb (env.removeCallback cb)
  | keeps (count) (hmerge : cfg.mergeCb = true)
      (hcount : ∀ r, (count r).getD 0 = (env.cbCount r).getD 0 - if cb.has r then 1 else 0)
      (hmore : ∀ r, cb.has r → (env.cbCount r).getD 0 ≠ 1) :
      Finish cfg env cb { env with
        cbCount := count
        pendingCbChunk :=
          if cfg.chunkTask && !env.pendingCbChunk.any fun cb' => decide (cb'.id = cb.id) then
            env.pendingCbChunk ++ [cb]
          else env.pendingCbChunk }
  | removes (count) (hmerge : cfg.mergeCb = true)
      (hcount : ∀ r, (count r).getD 0 = (env.cbCount r).getD 0 - if cb.has r then 1 else 0)
      (hlast : ∃ r, cb.has r ∧ (env.cbCount r).getD 0 = 1) :
      Finish cfg env cb (Env.removeCallback { env with
        cbCount := count
        pendingCbChunk :=
          if cfg.chunkTask then env.pendingCbChunk.filter fun cb' => decide (cb'.id ≠ cb.id)
          else env.pendingCbChunk } cb)

lemma Finish.of_finishMerged (hmerge : cfg.mergeCb = true) (hchunk : cfg.chunkTask = false)
    {t : TaskID} (htasks : cb.tasks = [t]) (hpos : 0 < (env.cbCount ⟨cb.key, t⟩).getD 0) :
    ∃ env', env.finishMerged cb = some env' ∧ Finish cfg env cb env' := by
  obtain ⟨n, hn⟩ := exists_succ_of_pos hpos
  have hhas : ∀ r, cb.has r ↔ r = ⟨cb.key, t⟩ := by
    rintro ⟨key, t'⟩
    simp [Callback.has, htasks, eq_comm]
  have hcount : ∀ r, (Function.update env.cbCount ⟨cb.key, t⟩ (some n) r).getD 0 =
      (env.cbCount r).getD 0 - if cb.has r then 1 else 0 := by
    intro r
    by_cases hr : r = ⟨cb.key, t⟩
    · subst hr
      simp [hhas, hn]
    · simp [hhas, hr]
  simp only [Env.finishMerged, htasks, hn]
  by_cases h0 : n = 0
  · refine ⟨_, rfl, ?_⟩
    have hremoves : Finish cfg env cb _ := .removes _ hmerge hcount
      ⟨_, (hhas _).mpr rfl, by simp [hn, h0]⟩
    simpa [hchunk, h0] using hremoves
  · refine ⟨_, rfl, ?_⟩
    have hkeeps : Finish cfg env cb _ := .keeps _ hmerge hcount fun r hr => by
      simp [(hhas r).mp hr, hn, h0]
    simpa [hchunk, h0] using hkeeps

lemma Finish.of_finishChunk (hmerge : cfg.mergeCb = true) (hchunk : cfg.chunkTask = true)
    (hnodup : cb.tasks.Nodup) (hpos : ∀ r, cb.has r → 0 < (env.cbCount r).getD 0) :
    ∃ env', env.finishChunk cb = some env' ∧ Finish cfg env cb env' := by
  obtain ⟨count, finished, heq, hcount, hfinished⟩ :=
    takeCounts_eq_some cb.key hnodup fun t ht => hpos ⟨cb.key, t⟩ ⟨rfl, ht⟩
  have hhas : ∀ r : Reg, (r.key = cb.key ∧ r.task ∈ cb.tasks) ↔ cb.has r := fun r =>
    and_congr_left' eq_comm
  simp only [hhas] at hcount
  simp only [Env.finishChunk, heq, Option.map_some]
  by_cases hnone : finished = []
  · refine ⟨_, rfl, ?_⟩
    have hkeeps : Finish cfg env cb _ := .keeps count hmerge hcount fun r ⟨hkey, hr⟩ h1 => by
      have hmem := (hfinished r.task).mpr ⟨hr, by rw [hkey]; exact h1⟩
      simp [hnone] at hmem
    cases hany : env.pendingCbChunk.any fun cb' => decide (cb'.id = cb.id) <;>
      simpa [hchunk, hnone, hany] using hkeeps
  · obtain ⟨t, ht⟩ := List.exists_mem_of_ne_nil _ hnone
    obtain ⟨hmem, h1⟩ := (hfinished t).mp ht
    refine ⟨_, rfl, ?_⟩
    have hremoves := Finish.removes
      (fun r => if r.key = cb.key ∧ r.task ∈ finished then none else count r) hmerge (fun r => by
        split_ifs with hr hcb hcb
        · obtain ⟨hkey, hr⟩ := hr
          obtain ⟨-, h1⟩ := (hfinished _).mp hr
          rw [← hkey] at h1
          simp [h1]
        · obtain ⟨hkey, hr⟩ := hr
          exact absurd ⟨hkey.symm, ((hfinished _).mp hr).1⟩ hcb
        · simpa [hcb] using hcount r
        · simpa [hcb] using hcount r) ⟨⟨cb.key, t⟩, ⟨rfl, hmem⟩, h1⟩
    simpa [hchunk, hnone] using hremoves

theorem Finish.of_finish (hnodup : cb.tasks.Nodup)
    (hsingle : cfg.chunkTask = false → ∃ t, cb.tasks = [t])
    (hpos : cfg.mergeCb = true → ∀ r, cb.has r → 0 < (env.cbCount r).getD 0) :
    ∃ env', env.finish cfg cb = some env' ∧ Finish cfg env cb env' := by
  cases hmerge : cfg.mergeCb with
  | false => exact ⟨_, by simp [Env.finish, hmerge], .plain hmerge⟩
  | true =>
    cases hchunk : cfg.chunkTask with
    | false =>
      obtain ⟨t, ht⟩ := hsingle hchunk
      have hpos := hpos hmerge ⟨cb.key, t⟩ ⟨rfl, by simp [ht]⟩
      simpa [Env.finish, hmerge, hchunk] using Finish.of_finishMerged hmerge hchunk ht hpos
    | true =>
      simpa [Env.finish, hmerge, hchunk] using
        Finish.of_finishChunk hmerge hchunk hnodup (hpos hmerge)

/-! ### The next simulation time -/

/-- A kept chunk serves the pending registrations when all of its own are among them. -/
def Callback.serves (cb : Callback) (pending : List Reg) : Prop := ∀ r, cb.has r → r ∈ pending

/-- No registration is served twice. -/
def Apart (cb cb' : Callback) : Prop := cb.regs.Disjoint cb'.regs

instance : Std.Symm Apart := ⟨fun _ _ h => h.symm⟩

lemma mem_processCbChunk {pending : List Reg} :
    r ∈ Env.processCbChunk pending cb ↔ r ∈ pending ∧ ¬ (cb.serves pending ∧ cb.has r) := by
  have hserves : (cb.tasks.all fun t => decide (⟨cb.key, t⟩ ∈ pending)) = true ↔
      cb.serves pending := by
    simp only [List.all_eq_true, decide_eq_true_eq, Callback.serves]
    constructor
    · rintro h ⟨key, t⟩ ⟨rfl, ht⟩
      exact h t ht
    · intro h t ht
      exact h ⟨cb.key, t⟩ ⟨rfl, ht⟩
  unfold Env.processCbChunk
  split_ifs with h
  · simp [hserves.mp h]
  · simp [mt hserves.mpr h]

lemma mem_foldl_processCbChunk {order : List Callback} {pending : List Reg}
    (hapart : order.Pairwise Apart) :
    r ∈ order.foldl Env.processCbChunk pending ↔
      r ∈ pending ∧ ∀ cb ∈ order, cb.serves pending → ¬ cb.has r := by
  induction order generalizing pending with
  | nil => simp
  | cons cb order ih =>
    obtain ⟨hcb, hapart⟩ := List.pairwise_cons.mp hapart
    have hserves : ∀ cb' ∈ order,
        (cb'.serves (Env.processCbChunk pending cb) ↔ cb'.serves pending) := by
      intro cb' hmem
      refine forall₂_congr fun r hr => mem_processCbChunk.trans (and_iff_left ?_)
      rintro ⟨-, hr'⟩
      exact hcb cb' hmem (Callback.mem_regs.mpr hr') (Callback.mem_regs.mpr hr)
    rw [List.foldl_cons, ih hapart, mem_processCbChunk, List.forall_mem_cons, and_assoc, not_and]
    refine and_congr_right fun _ => and_congr_right fun _ => ?_
    exact forall₂_congr fun cb' hmem => imp_congr_left (hserves cb' hmem)

lemma nodup_foldl_processCbChunk {order : List Callback} {pending : List Reg}
    (h : pending.Nodup) : (order.foldl Env.processCbChunk pending).Nodup := by
  induction order generalizing pending with
  | nil => exact h
  | cons cb order ih =>
    refine ih ?_
    unfold Env.processCbChunk
    split_ifs
    · exact h.filter _
    · exact h

lemma chunksOf_flatten {α : Type} {n fuel : Nat} (hn : 0 < n) {l : List α}
    (hfuel : l.length ≤ fuel) : (Env.chunksOf n fuel l).flatten = l := by
  induction fuel generalizing l with
  | zero => simp [Env.chunksOf, List.length_eq_zero_iff.mp (Nat.le_zero.mp hfuel)]
  | succ fuel ih =>
    cases l with
    | nil => rfl
    | cons x xs =>
      have hlen : ((x :: xs).drop n).length ≤ fuel := by
        simp only [List.length_drop, List.length_cons] at hfuel ⊢
        omega
      rw [Env.chunksOf, List.flatten_cons, ih hlen, List.take_append_drop]

lemma ne_nil_of_mem_chunksOf {α : Type} {n fuel : Nat} (hn : 0 < n) {l c : List α}
    (h : c ∈ Env.chunksOf n fuel l) : c ≠ [] := by
  induction fuel generalizing l with
  | zero => simp [Env.chunksOf] at h
  | succ fuel ih =>
    cases l with
    | nil => simp [Env.chunksOf] at h
    | cons x xs =>
      rw [Env.chunksOf, List.mem_cons] at h
      rcases h with rfl | h
      · simp [List.take_eq_nil_iff, hn.ne']
      · exact ih h

/-- The registrations of a group. -/
def regsOf (g : Key × List TaskID) : List Reg := g.2.map (Reg.mk g.1)

lemma map_tasksOf (pending : List Reg) (key : Key) :
    (Env.tasksOf pending key).map (Reg.mk key) = pending.filter fun r => decide (r.key = key) := by
  rw [Env.tasksOf, List.map_map]
  refine (List.map_congr_left fun r hr => ?_).trans (List.map_id _)
  have hkey : r.key = key := by simpa using (List.mem_filter.mp hr).2
  simp [← hkey]

lemma chunks_regsOf (pending : List Reg) (key : Key) :
    ((Env.chunksOf 16 (Env.tasksOf pending key).length (Env.tasksOf pending key)).map
        fun ts => (key, ts)).flatMap regsOf = pending.filter fun r => decide (r.key = key) := by
  rw [List.flatMap_map, ← map_tasksOf]
  have hflat := chunksOf_flatten (by decide : 0 < 16) (le_refl (Env.tasksOf pending key).length)
  conv_rhs => rw [← hflat, List.map_flatten]
  rfl

lemma groups_perm (cfg : Config) {pending : List Reg} (hnodup : pending.Nodup) :
    ((Env.groups cfg pending).flatMap regsOf).Perm pending := by
  unfold Env.groups
  split_ifs with hchunk
  · rw [List.flatMap_assoc]
    simp only [chunks_regsOf]
    have hdisjoint : (pending.map Reg.key).dedup.Pairwise fun k k' =>
        (pending.filter fun r => decide (r.key = k)).Disjoint
          (pending.filter fun r => decide (r.key = k')) := by
      refine (List.nodup_dedup _).imp @fun k k' hne r hr hr' => hne ?_
      have hk : r.key = k := by simpa using (List.mem_filter.mp hr).2
      have hk' : r.key = k' := by simpa using (List.mem_filter.mp hr').2
      exact hk.symm.trans hk'
    have hgroups := List.nodup_flatMap.mpr ⟨fun k _ => hnodup.filter _, hdisjoint⟩
    refine (List.perm_ext_iff_of_nodup hgroups hnodup).mpr fun r => ?_
    simp only [List.mem_flatMap, List.mem_dedup, List.mem_map, List.mem_filter, decide_eq_true_eq]
    constructor
    · rintro ⟨k, -, hr, -⟩
      exact hr
    · intro hr
      exact ⟨r.key, ⟨r, hr, rfl⟩, hr, rfl⟩
  · rw [List.flatMap_map]
    simp [regsOf]

lemma groups_tasks {pending : List Reg} {g : Key × List TaskID}
    (hg : g ∈ Env.groups cfg pending) :
    g.2 ≠ [] ∧ (cfg.chunkTask = false → ∃ t, g.2 = [t]) := by
  unfold Env.groups at hg
  split_ifs at hg with hchunk
  · obtain ⟨key, -, hg⟩ := List.mem_flatMap.mp hg
    obtain ⟨ts, hts, rfl⟩ := List.mem_map.mp hg
    exact ⟨ne_nil_of_mem_chunksOf (by decide) hts, by simp [hchunk]⟩
  · obtain ⟨r, -, rfl⟩ := List.mem_map.mp hg
    exact ⟨by simp, fun _ => ⟨_, rfl⟩⟩

lemma nodup_unserved (cfg : Config) (h : env.pendingCbMap.Nodup) (order : List Callback) :
    (env.unserved cfg order).Nodup := by
  unfold Env.unserved
  split_ifs
  · exact nodup_foldl_processCbChunk h
  · exact h

lemma zipWith_callbacks {ids : List EdgeCallbackID} {gs : List (Key × List TaskID)}
    (hlen : ids.length = gs.length) :
    (List.zipWith (fun id g => Callback.mk id g.1 g.2) ids gs).map Callback.id = ids ∧
      (List.zipWith (fun id g => Callback.mk id g.1 g.2) ids gs).map
        (fun cb => (cb.key, cb.tasks)) = gs := by
  induction ids generalizing gs with
  | nil => simp [List.length_eq_zero_iff.mp hlen.symm]
  | cons id ids ih =>
    cases gs with
    | nil => simp at hlen
    | cons g gs =>
      obtain ⟨hids, hgs⟩ := ih (Nat.succ.inj hlen)
      exact ⟨by simp [hids], by simp [hgs]⟩

theorem nextSimTime_eq_some {order : List Callback} {ids : List EdgeCallbackID}
    (hnodup : env.pendingCbMap.Nodup) (h : env.nextSimTime cfg order ids = some env') :
    ∃ new, env' = { env with callbacks := env.callbacks ++ new, pendingCbMap := [] } ∧
      order.Perm env.pendingCbChunk ∧ ((env.callbacks ++ new).map Callback.id).Nodup ∧
      (new.flatMap Callback.regs).Perm (env.unserved cfg order) ∧
      ∀ cb ∈ new, cb.tasks ≠ [] ∧ (cfg.chunkTask = false → ∃ t, cb.tasks = [t]) := by
  unfold Env.nextSimTime at h
  dsimp only at h
  split_ifs at h with hok
  cases h
  obtain ⟨horder, hlen, hids⟩ := hok
  obtain ⟨hmap, hgroups⟩ := zipWith_callbacks hlen
  refine ⟨_, rfl, horder, by rwa [List.map_append, hmap], ?_, fun cb hcb => ?_⟩
  · have hperm := groups_perm cfg (nodup_unserved cfg hnodup order)
    rw [← hgroups, List.flatMap_map] at hperm
    exact hperm
  · have hmem := List.mem_map_of_mem (f := fun cb => (cb.key, cb.tasks)) hcb
    rw [hgroups] at hmem
    exact groups_tasks hmem

end Verilua.Edge
