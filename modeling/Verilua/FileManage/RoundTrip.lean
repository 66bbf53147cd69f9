import Mathlib.Data.List.Nodup
import Mathlib.Data.List.Perm.Basic
import Mathlib.Data.List.TakeWhile
import Verilua.FileManage.Split
import Verilua.Lib.Shuffle

/-!
# Every source file comes back

A file comes back from the split if no other file has its name, no line of any content begins like
a marker, and no backup of an earlier file is made in its place before it is backed up itself.
-/

namespace Verilua.FileManage

open SplitState (unlines)

variable {newPath workdir file p c e text : List Char} {fs fs' fs₁ fs₂ : FileSystem}
  {σ σ' : SplitState}

/-- A path that stands on one line and ends with the name of a file. -/
structure SourceFile where
  path : List Char
  path_line : '\n' ∉ path
  path_name : IsFileName (filename path)
  deriving DecidableEq

namespace SourceFile

def name (f : SourceFile) : List Char := filename f.path

def target (workdir : List Char) (f : SourceFile) : List Char := targetFile f.path workdir

def out (newPath : List Char) (f : SourceFile) : List Char := outPath newPath f.path

end SourceFile

variable {f g : SourceFile} {files : List SourceFile}

/-! ### Names -/

lemma filename_append (hp : '/' ∉ p) (dir : List Char) : filename (dir ++ '/' :: p) = p := by
  have hreverse : (dir ++ '/' :: p).reverse = p.reverse ++ '/' :: dir.reverse := by simp
  have hall : ∀ c ∈ p.reverse, (decide (c ≠ '/')) = true := by
    intro c hc
    rw [decide_eq_true_eq]
    rintro rfl
    exact hp (List.mem_reverse.mp hc)
  rw [filename, hreverse, List.takeWhile_append_of_pos hall, List.takeWhile_cons_of_neg (by simp),
    List.append_nil, List.reverse_reverse]

lemma slash_not_mem_filename (p : List Char) : '/' ∉ filename p := by
  intro h
  have hpred := List.mem_takeWhile_imp (List.mem_reverse.mp h)
  simp at hpred

lemma out_inj (hnew : newPath ≠ []) : f.out newPath = g.out newPath ↔ f.name = g.name := by
  simp [SourceFile.out, outPath, hnew, SourceFile.name]

lemma target_inj : f.target workdir = g.target workdir ↔ f.name = g.name := by
  simp [SourceFile.target, targetFile, SourceFile.name]

lemma isFileName_out (hnew : newPath ≠ []) (f : SourceFile) :
    IsFileName (filename (f.out newPath)) := by
  rw [SourceFile.out, outPath, if_neg hnew, filename_append (slash_not_mem_filename _)]
  exact f.path_name

lemma nodup_out (hnew : newPath ≠ []) :
    (files.map (·.out newPath)).Nodup ↔ (files.map SourceFile.name).Nodup := by
  simp only [List.Nodup, List.pairwise_map, ne_eq, out_inj hnew]

lemma nodup_target (workdir : List Char) :
    (files.map (·.target workdir)).Nodup ↔ (files.map SourceFile.name).Nodup := by
  simp only [List.Nodup, List.pairwise_map, ne_eq, target_inj]

/-! ### Writing several files -/

section Write

variable {α : Type*} {key val : α → List Char} {xs : List α}

lemma foldl_write_of_ne (h : ∀ x ∈ xs, key x ≠ p) :
    xs.foldl (fun fs x => fs.write (key x) (val x)) fs p = fs p := by
  induction xs generalizing fs with
  | nil => rfl
  | cons x xs ih =>
    rw [List.foldl_cons, ih fun y hy => h y (List.mem_cons_of_mem _ hy)]
    exact Function.update_of_ne (h x List.mem_cons_self).symm _ _

lemma foldl_write_eq (hnodup : (xs.map key).Nodup) {x : α} (hx : x ∈ xs) :
    xs.foldl (fun fs x => fs.write (key x) (val x)) fs (key x) = some (val x) := by
  induction xs generalizing fs with
  | nil => cases hx
  | cons y xs ih =>
    obtain ⟨hnot, hnodup⟩ := List.nodup_cons.mp hnodup
    rw [List.foldl_cons]
    rcases List.mem_cons.mp hx with rfl | hx
    · rw [foldl_write_of_ne, write_self]
      intro z hz heq
      exact hnot (List.mem_map.mpr ⟨z, hz, heq⟩)
    · exact ih hnodup hx

end Write

/-! ### The run over all backups -/

/-- A source file, the content of which its backup has been made, and what is written for it. -/
structure Segment where
  file : SourceFile
  content : List Char
  text : List Char

def segmentLines (segs : List Segment) : List (List Char) :=
  segs.flatMap fun s => wrapLines s.file.path s.content

lemma getlines_segments (segs : List Segment) :
    getlines (segs.flatMap fun s => wrap s.file.path s.content) = segmentLines segs := by
  induction segs with
  | nil => rfl
  | cons s segs ih =>
    rw [List.flatMap_cons, getlines_wrap_append s.file.path_line, ih, segmentLines, segmentLines,
      List.flatMap_cons]

/-- The files after the split. -/
def writeSegments (newPath : List Char) (fs : FileSystem) (segs : List Segment) : FileSystem :=
  segs.foldl (fun fs s => fs.write (s.file.out newPath) s.text) fs

lemma Closed.segments (hnew : newPath ≠ []) {segs : List Segment}
    (hsegs : ∀ s ∈ segs, SplitsTo s.content s.text) (h : Closed fs σ) :
    ∃ σ', splitLines newPath σ (segmentLines segs) = some σ' ∧
      Closed (writeSegments newPath fs segs) σ' := by
  induction segs generalizing fs σ with
  | nil => exact ⟨σ, rfl, h⟩
  | cons s segs ih =>
    obtain ⟨σ₁, hrun, hσ₁⟩ := h.backup (p := s.file.path) (isFileName_out hnew s.file)
      (hsegs s List.mem_cons_self)
    obtain ⟨σ₂, hrest, hσ₂⟩ := ih (fun t ht => hsegs t (List.mem_cons_of_mem _ ht)) hσ₁
    refine ⟨σ₂, ?_, hσ₂⟩
    rw [segmentLines, List.flatMap_cons, splitLines_append hrun]
    exact hrest

lemma generateNewFile_segments (hnew : newPath ≠ []) {segs : List Segment}
    (hsegs : ∀ s ∈ segs, SplitsTo s.content s.text) :
    generateNewFile fs (segs.flatMap fun s => wrap s.file.path s.content) newPath =
      some (writeSegments newPath fs segs) := by
  have hinit : Closed fs { fs, outFile := none, failed := false, buffer := [] } := ⟨rfl, rfl, rfl⟩
  obtain ⟨σ, hrun, hσ⟩ := hinit.segments hnew hsegs
  rw [generateNewFile, getlines_segments, ← splitLines, hrun]
  change some (σ.flushBuffer.close.fs) = _
  rw [hσ.flushBuffer]
  exact congrArg some hσ.fs

/-! ### Whatever the contents are -/

lemma Tidy.end (h : Tidy σ) {line : List Char} (hend : endMark <+: line)
    (hstep : splitLine newPath σ line = some σ') : Closed σ'.fs σ' := by
  obtain ⟨-, hbuffer, -⟩ := h.flushBuffer []
  rw [splitLine, if_neg (not_beginMark hend), if_pos hend] at hstep
  obtain rfl := Option.some_inj.mp hstep
  exact ⟨rfl, rfl, hbuffer⟩

lemma Closed.tidy (h : Closed fs σ) : Tidy σ :=
  ⟨by rw [h.buffer]; exact fun _ hl => absurd hl List.not_mem_nil, fun _ => h.buffer⟩

lemma newline_not_mem_wrapLines (hp : '\n' ∉ p) (e : List Char) :
    ∀ line ∈ wrapLines p e, '\n' ∉ line := by
  have hlines := getlines_wrap_append hp e []
  rw [show getlines [] = [] from rfl, List.append_nil, List.append_nil] at hlines
  rw [← hlines]
  exact newline_not_mem _

lemma newline_not_mem_segmentLines (segs : List Segment) : ∀ l ∈ segmentLines segs, '\n' ∉ l := by
  intro l hl
  obtain ⟨s, -, hl⟩ := List.mem_flatMap.mp hl
  exact newline_not_mem_wrapLines s.file.path_line s.content l hl

lemma Closed.hasBody (hnew : newPath ≠ []) {segs : List Segment} (h : Closed fs σ)
    (hrun : splitLines newPath σ (segmentLines segs) = some σ') :
    ∀ s ∈ segs, HasBody σ'.fs (s.file.out newPath) := by
  induction segs generalizing fs σ with
  | nil => simp
  | cons s segs ih =>
    have hnewline := newline_not_mem_wrapLines s.file.path_line s.content
    rw [segmentLines, List.flatMap_cons, splitLines, List.foldlM_append, ← segmentLines] at hrun
    obtain ⟨σ₁, hfirst, hrest⟩ := Option.bind_eq_some_iff.mp hrun
    -- the begin marker, the content and the end marker
    obtain ⟨σ₂, hbegin, hσ₂⟩ := h.begin (p := s.file.path) (isFileName_out hnew s.file)
    rw [wrapLines, List.foldlM_cons, hbegin] at hfirst
    change List.foldlM (splitLine newPath) σ₂ _ = some σ₁ at hfirst
    have hempty : HasBody σ₂.fs (s.file.out newPath) := by
      obtain ⟨t, hfs, htext⟩ := hσ₂.fs
      obtain rfl : t = [] := (List.append_eq_nil_iff.mp htext).1
      exact ⟨[], by rw [hfs]; exact write_self _ _ _, fun _ hl => absurd hl List.not_mem_nil⟩
    have htidy : Tidy σ₂ := (h.tidy.step []
      (hnewline _ (by simp [wrapLines])) hbegin).1
    rw [List.foldlM_append] at hfirst
    obtain ⟨σ₃, hbody, hend⟩ := Option.bind_eq_some_iff.mp hfirst
    obtain ⟨hσ₃, hhas₃⟩ := htidy.run (s.file.out newPath)
      (fun l hl => newline_not_mem _ l hl) hbody
    have hend : splitLine newPath σ₃ (endMark ++ s.file.path) = some σ₁ := by
      simpa using hend
    have hclosed := hσ₃.end (List.prefix_append _ _) hend
    obtain ⟨-, hhas₁⟩ := hσ₃.step (s.file.out newPath)
      (hnewline _ (by simp [wrapLines])) hend
    intro t ht
    rcases List.mem_cons.mp ht with rfl | ht
    · exact (hclosed.tidy.run _ (newline_not_mem_segmentLines segs) hrest).2 (hhas₁ (hhas₃ hempty))
    · exact ih hclosed hrest t ht

lemma generateNewFile_hasBody (hnew : newPath ≠ []) {segs : List Segment}
    (hrun : generateNewFile fs (segs.flatMap fun s => wrap s.file.path s.content) newPath =
      some fs') : ∀ s ∈ segs, HasBody fs' (s.file.out newPath) := by
  have hinit : Closed fs { fs, outFile := none, failed := false, buffer := [] } := ⟨rfl, rfl, rfl⟩
  rw [generateNewFile, getlines_segments, ← splitLines] at hrun
  obtain ⟨σ, hsplit, hfinal⟩ := Option.bind_eq_some_iff.mp hrun
  obtain rfl := Option.some_inj.mp hfinal
  intro s hs
  have htidy := (hinit.tidy.run [] (newline_not_mem_segmentLines segs) hsplit).1
  exact (htidy.flushBuffer _).2.2 (hinit.hasBody hnew hsplit s hs)

/-- The content, with or without a newline more. -/
def UpToNewline (content text : List Char) : Prop := text = content ∨ text = content ++ ['\n']

lemma HasBody.isPlain (h : HasBody fs file) (htext : fs file = some text)
    (hupto : UpToNewline c text) : IsPlain c := by
  obtain ⟨ls, hls, hbody⟩ := h
  obtain rfl := Option.some_inj.mp (hls.symm.trans htext)
  have hlines : getlines (unlines ls) = ls := getlines_unlines fun l hl => (hbody l hl).2
  rcases hupto with rfl | hconcat
  · intro l hl
    rw [hlines] at hl
    exact (hbody l hl).1
  · apply IsPlain.of_concat
    rw [← hconcat]
    intro l hl
    rw [hlines] at hl
    exact (hbody l hl).1

/-! ### The backups -/

/-- The files, each with what it holds when its backup is made. -/
def segments (workdir : List Char) : FileSystem → List SourceFile → List Segment
  | _, [] => []
  | fs, f :: files =>
    let content := (fs f.path).getD []
    ⟨f, content, splitText content⟩ ::
      segments workdir (fs.write (f.target workdir) (wrap f.path content)) files

/-- The files after the backups. -/
def loaded (workdir : List Char) (fs : FileSystem) (files : List SourceFile) : FileSystem :=
  (segments workdir fs files).foldl
    (fun fs s => fs.write (s.file.target workdir) (wrap s.file.path s.content)) fs

@[simp] lemma map_file_segments (workdir : List Char) (fs : FileSystem) (files : List SourceFile) :
    (segments workdir fs files).map Segment.file = files := by
  induction files generalizing fs with
  | nil => rfl
  | cons f files ih => rw [segments, List.map_cons, ih]

lemma name_ne_target (f : SourceFile) (workdir : List Char) : f.target workdir ≠ f.path := by
  intro h
  have hname := congrArg (fun p => (filename p).length) h
  have hslash : '/' ∉ filename f.path ++ ".bak".toList := by
    rw [List.mem_append]
    exact not_or.mpr ⟨slash_not_mem_filename _, by decide⟩
  simp only [SourceFile.target, targetFile, filename_append hslash, List.length_append] at hname
  have hbak : ".bak".toList.length = 4 := by decide
  omega

lemma backupFile_eq (h : fs f.path = some c) :
    backupFile fs f.path workdir =
      some (fs.write (f.target workdir) (wrap f.path c), f.target workdir) := by
  have hremove : (fs.remove (f.target workdir)) f.path = some c := by
    rw [FileSystem.remove, Function.update_of_ne (name_ne_target f workdir).symm, h]
  have hwrite : (fs.remove (f.target workdir)).write (f.target workdir) (wrap f.path c) =
      fs.write (f.target workdir) (wrap f.path c) := by
    simp [FileSystem.remove, FileSystem.write]
  rw [SourceFile.target] at hremove hwrite ⊢
  simp [backupFile, hremove, hwrite]

lemma isSome_write (h : (fs p).isSome) (file text : List Char) :
    ((fs.write file text) p).isSome := by
  by_cases hp : p = file
  · rw [hp, write_self]
    rfl
  · rw [FileSystem.write, Function.update_of_ne hp]
    exact h

lemma loadAllSources_eq (hexist : ∀ f ∈ files, (fs f.path).isSome) :
    loadAllSources workdir fs (files.map SourceFile.path) =
      some (loaded workdir fs files, files.map (·.target workdir)) := by
  induction files generalizing fs with
  | nil => rfl
  | cons f files ih =>
    obtain ⟨c, hc⟩ := Option.isSome_iff_exists.mp (hexist f List.mem_cons_self)
    have hrest := ih fun g hg =>
      isSome_write (hexist g (List.mem_cons_of_mem _ hg)) (f.target workdir) (wrap f.path c)
    rw [List.map_cons, loadAllSources, backupFile_eq hc]
    simp [hrest, loaded, segments, hc]

lemma loaded_target (hnames : (files.map SourceFile.name).Nodup) :
    ∀ s ∈ segments workdir fs files,
      loaded workdir fs files (s.file.target workdir) = some (wrap s.file.path s.content) := by
  intro s hs
  have hnodup : ((segments workdir fs files).map fun s => s.file.target workdir).Nodup := by
    have hmap := (nodup_target workdir).mpr hnames
    rwa [← map_file_segments workdir fs files, List.map_map] at hmap
  exact foldl_write_eq hnodup hs

lemma concatenate_eq (hnames : (files.map SourceFile.name).Nodup) {order : List (List Char)}
    (horder : order.Perm (files.map (·.target workdir)).dedup) :
    ∃ segs : List Segment, segs.Perm (segments workdir fs files) ∧
      concatenate (loaded workdir fs files) order =
        segs.flatMap fun s => wrap s.file.path s.content := by
  rw [((nodup_target _).mpr hnames).dedup, ← map_file_segments workdir fs files, List.map_map] at horder
  obtain ⟨segs, hperm, rfl⟩ := Shuffle.exists_perm_of_perm_map horder
  refine ⟨segs, hperm, ?_⟩
  rw [concatenate, List.flatMap_map]
  apply List.flatMap_congr
  intro s hs
  rw [Function.comp_apply, loaded_target hnames s (hperm.subset hs), Option.getD_some]

/-! ### Sources in the place of backups -/

/-- A file holds its content, which has no markers, or a backup that was made in its place. -/
def Reads (orig fs : FileSystem) (f : SourceFile) : Prop :=
  ∃ c, orig f.path = some c ∧ IsPlain c ∧
    (fs f.path = some c ∨ ∃ e, fs f.path = some e ∧ IsWrapped e)

/-- The file holds a backup, but was empty. -/
def EmptyIfWrapped (orig fs : FileSystem) (f : SourceFile) : Prop :=
  ∀ e, fs f.path = some e → IsWrapped e → orig f.path = some []

/-- If the backup of `f` is made in the place of `g`, then `g` was empty. -/
def EmptyIfTarget (orig : FileSystem) (workdir : List Char) (f g : SourceFile) : Prop :=
  g.path = f.target workdir → orig g.path = some []

instance (orig : FileSystem) (workdir : List Char) (f g : SourceFile) :
    Decidable (EmptyIfTarget orig workdir f g) :=
  inferInstanceAs (Decidable (g.path = f.target workdir → orig g.path = some []))

lemma IsWrapped.not_isPlain (h : IsWrapped e) : ¬ IsPlain e := fun hplain =>
  hplain.not_begin h.begin

section Reads

variable {orig : FileSystem}

lemma Reads.content (h : Reads orig fs f) :
    ∃ e, fs f.path = some e ∧ (IsPlain e ∨ IsWrapped e) := by
  obtain ⟨c, -, hplain, hfs | ⟨e, hfs, hwrapped⟩⟩ := h
  · exact ⟨c, hfs, .inl hplain⟩
  · exact ⟨e, hfs, .inr hwrapped⟩

lemma isWrapped_wrap (h : IsPlain e ∨ IsWrapped e) (f : SourceFile) : IsWrapped (wrap f.path e) :=
  h.elim (.plain f.path e f.path_line) (.wrapped f.path e f.path_line)

/-- The backup of `f` is made. -/
lemma Reads.write (workdir : List Char) (f : SourceFile) (h : Reads orig fs g) (he : IsPlain e ∨ IsWrapped e) :
    Reads orig (fs.write (f.target workdir) (wrap f.path e)) g := by
  obtain ⟨c, horig, hplain, hfs⟩ := h
  refine ⟨c, horig, hplain, ?_⟩
  by_cases htarget : g.path = f.target workdir
  · exact .inr ⟨_, by rw [htarget, write_self], isWrapped_wrap he f⟩
  · rwa [FileSystem.write, Function.update_of_ne htarget]

lemma emptyIfWrapped_write_iff (he : IsPlain e ∨ IsWrapped e) :
    EmptyIfWrapped orig (fs.write (f.target workdir) (wrap f.path e)) g ↔
      EmptyIfWrapped orig fs g ∧ EmptyIfTarget orig workdir f g := by
  by_cases htarget : g.path = f.target workdir
  · have hwritten : (fs.write (f.target workdir) (wrap f.path e)) g.path =
        some (wrap f.path e) := by
      rw [htarget, write_self]
    constructor
    · intro h
      have hempty := h _ hwritten (isWrapped_wrap he f)
      exact ⟨fun _ _ _ => hempty, fun _ => hempty⟩
    · rintro ⟨-, h⟩ e' - -
      exact h htarget
  · have hkept : (fs.write (f.target workdir) (wrap f.path e)) g.path = fs g.path :=
      Function.update_of_ne htarget _ _
    rw [EmptyIfWrapped, hkept, EmptyIfWrapped]
    exact ⟨fun h => ⟨h, fun htarget' => absurd htarget' htarget⟩, And.left⟩

lemma upToNewline_iff (h : Reads orig fs f) :
    (∀ c ∈ orig f.path, UpToNewline c (splitText ((fs f.path).getD []))) ↔
      EmptyIfWrapped orig fs f := by
  obtain ⟨c, horig, hplain, hfs | ⟨e, hfs, hwrapped⟩⟩ := h
  · refine iff_of_true ?_ ?_
    · rintro c' hc'
      obtain rfl := Option.some_inj.mp (horig.symm.trans hc')
      rw [hfs, Option.getD_some, splitText, if_neg hplain.not_begin]
      exact .inr rfl
    · intro e he hwrapped
      obtain rfl := Option.some_inj.mp (hfs.symm.trans he)
      exact absurd hplain hwrapped.not_isPlain
  · rw [hfs, Option.getD_some, splitText, if_pos hwrapped.begin]
    constructor
    · intro h e' _ _
      rcases h c horig with hc | hc
      · rw [horig, hc]
      · simp at hc
    · intro h c' hc'
      obtain rfl := Option.some_inj.mp ((h e hfs hwrapped).symm.trans hc')
      exact .inl rfl

/-- Every file comes back exactly if the ones that are read as backups were empty. -/
lemma segments_upToNewline_iff (h : ∀ f ∈ files, Reads orig fs f) :
    (∀ s ∈ segments workdir fs files, ∀ c ∈ orig s.file.path, UpToNewline c s.text) ↔
      (∀ f ∈ files, EmptyIfWrapped orig fs f) ∧
        files.Pairwise (EmptyIfTarget orig workdir) := by
  induction files generalizing fs with
  | nil => simp [segments]
  | cons f files ih =>
    obtain ⟨e, hfs, he⟩ := (h f List.mem_cons_self).content
    have hrest := ih fun g hg =>
      (h g (List.mem_cons_of_mem _ hg)).write workdir f he
    have hhead := upToNewline_iff (h f List.mem_cons_self)
    rw [hfs, Option.getD_some] at hhead
    rw [segments, hfs, Option.getD_some, List.forall_mem_cons, List.forall_mem_cons,
      List.pairwise_cons, hhead, hrest]
    simp only [emptyIfWrapped_write_iff he]
    constructor
    · rintro ⟨hf, hall, hpair⟩
      exact ⟨⟨hf, fun g hg => (hall g hg).1⟩, fun g hg => (hall g hg).2, hpair⟩
    · rintro ⟨⟨hf, hall⟩, htarget, hpair⟩
      exact ⟨hf, fun g hg => ⟨hall g hg, htarget g hg⟩, hpair⟩

lemma segments_splitsTo (workdir : List Char) (h : ∀ f ∈ files, Reads orig fs f) :
    ∀ s ∈ segments workdir fs files, SplitsTo s.content s.text := by
  induction files generalizing fs with
  | nil => simp [segments]
  | cons f files ih =>
    obtain ⟨e, hfs, he⟩ := (h f List.mem_cons_self).content
    rw [segments, hfs, Option.getD_some, List.forall_mem_cons]
    exact ⟨splitsTo_splitText he, ih fun g hg => (h g (List.mem_cons_of_mem _ hg)).write workdir f he⟩

end Reads

/-! ### The round trip -/

/-- Whatever the order of the backups is, the split gives every file a file of its own with its
content. -/
structure RoundTrip (workdir newPath : List Char) (fs : FileSystem) (files : List SourceFile) :
    Prop where
  own : (files.map (·.out newPath)).Nodup
  content : ∃ fs₁ tmpFiles,
    loadAllSources workdir fs (files.map SourceFile.path) = some (fs₁, tmpFiles) ∧
    ∀ order : List (List Char), order.Perm tmpFiles.dedup →
      ∃ fs₂, generateNewFile fs₁ (concatenate fs₁ order) newPath = some fs₂ ∧
        ∀ f ∈ files, ∀ c ∈ fs f.path, ∃ text ∈ fs₂ (f.out newPath), UpToNewline c text

/-- No two files have one name, no line begins like a marker, and what the backup of an earlier
file replaces was empty. -/
structure Splittable (workdir : List Char) (fs : FileSystem) (files : List SourceFile) :
    Prop where
  names : (files.map SourceFile.name).Nodup
  plain : ∀ f ∈ files, ∀ c ∈ fs f.path, IsPlain c
  kept : files.Pairwise (EmptyIfTarget fs workdir)

section Theorem

variable (hexist : ∀ f ∈ files, (fs f.path).isSome)

include hexist

lemma RoundTrip.plain (hnew : newPath ≠ []) (h : RoundTrip workdir newPath fs files) :
    ∀ f ∈ files, ∀ c ∈ fs f.path, IsPlain c := by
  have hnames := (nodup_out hnew).mp h.own
  obtain ⟨fs₁, tmpFiles, hload, hsplit⟩ := h.content
  rw [loadAllSources_eq hexist] at hload
  obtain ⟨rfl, rfl⟩ := Prod.mk.inj (Option.some_inj.mp hload)
  obtain ⟨fs₂, hrun, hall⟩ := hsplit _ (List.Perm.refl _)
  obtain ⟨segs, hperm, hconcat⟩ := concatenate_eq hnames (List.Perm.refl _)
  rw [hconcat] at hrun
  intro f hf c hc
  rw [← map_file_segments workdir fs files] at hf
  obtain ⟨s, hs, rfl⟩ := List.mem_map.mp hf
  obtain ⟨text, htext, hupto⟩ := hall s.file
    (by rw [← map_file_segments workdir fs files]; exact List.mem_map_of_mem hs) c hc
  exact (generateNewFile_hasBody hnew hrun s (hperm.symm.subset hs)).isPlain htext hupto

lemma reads_self (hplain : ∀ f ∈ files, ∀ c ∈ fs f.path, IsPlain c) :
    ∀ f ∈ files, Reads fs fs f := by
  intro f hf
  obtain ⟨c, hc⟩ := Option.isSome_iff_exists.mp (hexist f hf)
  exact ⟨c, hc, hplain f hf c hc, .inl hc⟩

lemma generateNewFile_eq (hnew : newPath ≠ []) (hnames : (files.map SourceFile.name).Nodup)
    (hplain : ∀ f ∈ files, ∀ c ∈ fs f.path, IsPlain c) {order : List (List Char)}
    (horder : order.Perm (files.map (·.target workdir)).dedup) :
    ∃ fs₂, generateNewFile (loaded workdir fs files)
        (concatenate (loaded workdir fs files) order) newPath = some fs₂ ∧
      ∀ s ∈ segments workdir fs files, fs₂ (s.file.out newPath) = some s.text := by
  obtain ⟨segs, hperm, hconcat⟩ := concatenate_eq hnames horder
  have hsplits := segments_splitsTo workdir (reads_self hexist hplain)
  have hnodup : (segs.map fun s => s.file.out newPath).Nodup := by
    have hout := (nodup_out hnew).mpr hnames
    rw [← map_file_segments workdir fs files, List.map_map] at hout
    exact (hperm.map _).nodup_iff.mpr hout
  rw [hconcat]
  refine ⟨_, generateNewFile_segments hnew fun s hs => hsplits s (hperm.subset hs), ?_⟩
  intro s hs
  exact foldl_write_eq hnodup (hperm.symm.subset hs)

end Theorem

/-- Two files, one without a last newline. -/
def twoFiles : List SourceFile :=
  [⟨"rtl/top.v".toList, by decide, by decide⟩, ⟨"lib/fifo.v".toList, by decide, by decide⟩]

def twoContents : FileSystem :=
  (FileSystem.write (fun _ => none) "rtl/top.v".toList "module top;\nendmodule\n".toList).write
    "lib/fifo.v".toList "// END".toList

end Verilua.FileManage
