import EmberClasses.Proofs.BatchRuns

/-! What a run does to the files on the disk. If the paths lead to different files, each file
becomes what converting it alone makes of it, whatever becomes of the others and in whatever order
they come. -/

namespace EmberClasses

/-- Two paths lead to one file. -/
def Disk.OneFile (d : Disk) (p q : Path) : Prop :=
  ∃ place content access, d.resolve p = .ok place ∧ d.resolve q = .ok place ∧
    d.item? place = some (.file content access)

theorem Disk.OneFile.symm {d : Disk} {p q : Path} (h : d.OneFile p q) : d.OneFile q p := by
  obtain ⟨place, content, access, hp, hq, hitem⟩ := h
  exact ⟨place, content, access, hq, hp, hitem⟩

structure Disk.SameFile (d d' : Disk) (path : Path) : Prop where
  alike : d.Alike d'
  item : ∀ place, d.resolve path = .ok place → d'.item? place = d.item? place

theorem Disk.SameFile.symm {d d' : Disk} {path : Path} (h : d.SameFile d' path) :
    d'.SameFile d path :=
  ⟨h.alike.symm, fun place hplace => (h.item place ((h.alike.resolve path).symm.trans hplace)).symm⟩

theorem Disk.Alike.sameFile {d d' : Disk} (h : d.Alike d') {path : Path}
    (hfile : ∀ place content access, d.resolve path = .ok place →
      d.item? place = some (.file content access) → d'.item? place = d.item? place) :
    d.SameFile d' path := by
  refine ⟨h, fun place hplace => ?_⟩
  cases hitem : d.item? place with
  | none => exact (h.item?_eq_none place).mpr hitem
  | some i =>
    cases i with
    | dir => exact (h.item?_eq_dir place).mpr hitem
    | file content access => exact (hfile place content access hplace hitem).trans hitem

/-- The log file, if there is one, is there, and none of the paths leads to it. -/
structure Logger.Aside (l : Logger) (d : Disk) (paths : List Path) : Prop where
  opened : l.Opened d
  apart : ∀ place, l.target = .file place → ∀ p ∈ paths, d.resolve p ≠ .ok place

namespace Batch

/-- The paths lead to different files. -/
def FilesApart (d : Disk) (paths : List Path) : Prop := paths.Pairwise fun p q => ¬ d.OneFile p q

variable {c : Settings} {d d' : Disk} {path : Path}

section SameFile

variable (h : d.SameFile d' path)

include h

theorem convertFile_congr : convertFile c d' path = convertFile c d path := by
  unfold convertFile
  rw [h.alike.read h.item]

theorem attempt_congr : attempt c d' path = attempt c d path := by
  unfold attempt
  rw [convertFile_congr h]
  cases hconvert : convertFile c d path with
  | error e => rfl
  | ok report =>
    obtain ⟨-, place, content, access, hplace, hitem⟩ := convertFile_eq_ok hconvert
    have hplace' := (h.alike.resolve path).trans hplace
    have hitem' := (h.item place hplace).trans hitem
    rcases save_cases hconvert hplace hitem with ⟨text, -, hsave⟩ | ⟨-, hsave | hsave⟩ <;>
      simp only [bind, Except.bind, hsave d ⟨hplace, hitem⟩, hsave d' ⟨hplace', hitem'⟩]

theorem Rewrites.congr {text : List Char} (ht : Rewrites c d path text) :
    Rewrites c d' path text := by
  obtain ⟨-, report, hconvert, -⟩ := id ht
  obtain ⟨-, place, content, access, hplace, hitem⟩ := convertFile_eq_ok hconvert
  rw [rewrites_iff hconvert hplace hitem] at ht
  exact (rewrites_iff ((convertFile_congr h).trans hconvert) ((h.alike.resolve path).trans hplace)
    ((h.item place hplace).trans hitem)).mpr ht

end SameFile

/-- A file of its own is not touched by what is done to another one. -/
theorem Confined.sameFile {other : Path} (h : Confined c [path] d d')
    (hfile : ¬ d.OneFile path other)
    (hlog : ∀ place, c.logger.target = .file place → d.resolve other ≠ .ok place) :
    d.SameFile d' other := by
  refine h.alike.sameFile fun place content access hplace hitem => ?_
  refine h.kept place (fun htarget => hlog place htarget hplace) fun p hp text _ hp' => ?_
  rw [List.mem_singleton.mp hp] at hp'
  exact hfile ⟨place, content, access, hp', hplace, hitem⟩

theorem Confined.cons {paths : List Path} {d₁ : Disk} (h₁ : Confined c [path] d d₁)
    (h : Confined c paths d₁ d') (hfiles : ∀ p ∈ paths, ¬ d.OneFile path p)
    (hlog : c.logger.Aside d (path :: paths)) : Confined c (path :: paths) d d' := by
  have hsame (p : Path) (hp : p ∈ paths) : d.SameFile d₁ p :=
    h₁.sameFile (hfiles p hp) fun place htarget =>
      hlog.apart place htarget p (List.mem_cons_of_mem path hp)
  refine ⟨h₁.alike.trans h.alike, fun q hq hnot => ?_,
    fun p hp text q content access ht hp' hitem => ?_⟩
  · have hfirst : d₁.item? q = d.item? q :=
      h₁.kept q hq fun p hp => hnot p (List.mem_singleton.mp hp ▸ List.mem_cons_self)
    rw [← hfirst]
    refine h.kept q hq fun p hp text ht => ?_
    rw [h₁.alike.resolve]
    exact hnot p (List.mem_cons_of_mem path hp) text (ht.congr (hsame p hp).symm)
  · rcases List.mem_cons.mp hp with rfl | hp
    · rw [← h₁.rewritten p (List.mem_singleton_self p) text q content access ht hp' hitem]
      refine h.kept q (fun htarget => hlog.apart q htarget p List.mem_cons_self hp') ?_
      intro p' hmem text' _ hq'
      rw [h₁.alike.resolve] at hq'
      exact hfiles p' hmem ⟨q, content, access, hp', hq', hitem⟩
    · refine h.rewritten p hp text q content access (ht.congr (hsame p hp)) ?_ ?_
      · rw [h₁.alike.resolve, hp']
      · rw [(hsame p hp).item q hp', hitem]

theorem filesApart_of_nodup {paths : List Path} (h : (paths.map d.resolve).Nodup) :
    FilesApart d paths := by
  refine (List.pairwise_map.mp h).imp fun hne => ?_
  rintro ⟨place, -, -, hp, hq, -⟩
  exact hne (hp.trans hq.symm)

theorem FilesApart.congr {paths : List Path} (h : FilesApart d paths) (hd : d.Alike d') :
    FilesApart d' paths := by
  refine List.Pairwise.imp (fun {p q} hpq => ?_) h
  rintro ⟨place, content, access, hp, hq, hitem⟩
  obtain ⟨content', hitem'⟩ := hd.symm.file hitem
  rw [hd.resolve] at hp hq
  exact hpq ⟨place, content', access, hp, hq, hitem'⟩

/-- Every file of a run counts as it would alone, and gets the text that it would get alone. -/
theorem visits_confined (paths : List Path) (s : Session) (hfiles : FilesApart s.disk paths)
    (hlog : c.logger.Aside s.disk paths) :
    (visits c paths s).map (·.result) = paths.map (attempt c s.disk) ∧
      Confined c paths s.disk (afterAll c paths s).disk := by
  induction paths generalizing s with
  | nil => exact ⟨rfl, .refl _, fun q _ _ => rfl, by simp⟩
  | cons path paths ih =>
    obtain ⟨hpath, hrest⟩ := List.pairwise_cons.mp hfiles
    obtain ⟨hresult, hfirst⟩ := visit_confined hlog.opened fun place htarget =>
      hlog.apart place htarget path List.mem_cons_self
    have hlog' : c.logger.Aside (after c path s).disk paths := by
      refine ⟨hlog.opened.alike hfirst.alike, fun place htarget p hp => ?_⟩
      rw [hfirst.alike.resolve]
      exact hlog.apart place htarget p (List.mem_cons_of_mem path hp)
    obtain ⟨hresults, hconfined⟩ := ih (after c path s) (FilesApart.congr hrest hfirst.alike) hlog'
    refine ⟨?_, hfirst.cons hconfined hpath hlog⟩
    rw [visits, List.map_cons, List.map_cons, hresult, hresults]
    congr 1
    refine List.map_congr_left fun p hp => attempt_congr ?_
    exact hfirst.sameFile (hpath p hp) fun place htarget =>
      hlog.apart place htarget p (List.mem_cons_of_mem path hp)

/-- What stands anywhere but in the log is settled by the files alone, not by their order. -/
theorem Confined.unique {paths paths' : List Path} {d'' : Disk} (h : Confined c paths d d')
    (h' : Confined c paths' d d'') (hmem : ∀ p, p ∈ paths' ↔ p ∈ paths) {q : List String}
    (hq : c.logger.target ≠ .file q) : d''.item? q = d'.item? q := by
  by_cases hsome : ∃ p ∈ paths, ∃ text, Rewrites c d p text ∧ d.resolve p = .ok q
  · obtain ⟨p, hp, text, htext, hplace⟩ := hsome
    obtain ⟨-, report, hreport, -⟩ := id htext
    obtain ⟨-, place, content, access, hplace', hitem⟩ := convertFile_eq_ok hreport
    cases hplace.symm.trans hplace'
    rw [h.rewritten p hp text q content access htext hplace hitem,
      h'.rewritten p ((hmem p).mpr hp) text q content access htext hplace hitem]
  · have hnot : ∀ p ∈ paths, ∀ text, Rewrites c d p text → d.resolve p ≠ .ok q :=
      fun p hp text htext hplace => hsome ⟨p, hp, text, htext, hplace⟩
    rw [h.kept q hq hnot, h'.kept q hq fun p hp => hnot p ((hmem p).mp hp)]

theorem attempt_of_rewrites {text : List Char} (h : Rewrites c d path text) :
    ∃ outcome, attempt c d path = .ok outcome := by
  obtain ⟨-, report, hconvert, -⟩ := id h
  obtain ⟨-, place, content, access, hplace, hitem⟩ := convertFile_eq_ok hconvert
  rcases save_cases hconvert hplace hitem with ⟨text', -, hsave⟩ | ⟨hnone, -⟩
  · refine ⟨report.outcome, ?_⟩
    simp only [attempt, hconvert, bind, Except.bind, hsave d ⟨hplace, hitem⟩, pure, Except.pure]
  · exact absurd h (hnone text)

theorem Confined.kept_of_error {paths : List Path} (h : Confined c paths d d')
    (hfiles : FilesApart d paths) (hlog : c.logger.Aside d paths) {p : Path} (hp : p ∈ paths)
    {e : Error} (he : attempt c d p = .error e) : d.SameFile d' p := by
  refine h.alike.sameFile fun q content access hq hitem => ?_
  refine h.kept q (fun htarget => hlog.apart q htarget p hp hq) fun p' hp' text ht hq' => ?_
  -- Whatever is rewritten at the place was reached by the path itself, which was not rewritten.
  by_cases heq : p' = p
  · obtain ⟨outcome, houtcome⟩ := attempt_of_rewrites ht
    rw [heq, he] at houtcome
    cases houtcome
  · have hsymm : Std.Symm fun p q : Path => ¬ d.OneFile p q := ⟨fun _ _ h h' => h h'.symm⟩
    exact hfiles.forall hp' hp heq ⟨q, content, access, hq', hq, hitem⟩

/-- A run over paths that lead to different files counts each of them once, by what becomes of it
alone, and changes on the disk, apart from the log, just the files that converting them alone gives
a new text that can be written: a dry run changes none, files that count as errors stay as they are,
and another order of the paths gives the same counts and the same contents. -/
theorem run_over_different_files (c : Settings) (paths : List Path) (s : Session)
    (hfiles : FilesApart s.disk paths) (hlog : c.logger.Aside s.disk paths) :
    (run c paths s).1.total = paths.length ∧
      (run c paths s).1 = Summary.tally (paths.map (attempt c s.disk)) ∧
      Confined c paths s.disk (run c paths s).2.disk ∧
      (c.dryRun = true → ∀ q, c.logger.target ≠ .file q →
        (run c paths s).2.disk.item? q = s.disk.item? q) ∧
      (∀ p ∈ paths, ∀ e, attempt c s.disk p = .error e →
        s.disk.SameFile (run c paths s).2.disk p) ∧
      ∀ paths', paths'.Perm paths →
        (run c paths' s).1 = (run c paths s).1 ∧
          ∀ q, c.logger.target ≠ .file q →
            (run c paths' s).2.disk.item? q = (run c paths s).2.disk.item? q := by
  obtain ⟨hresults, hconfined⟩ := visits_confined paths s hfiles hlog
  rw [run_eq_visits, hresults]
  refine ⟨?_, rfl, hconfined, fun hdry q hq => ?_, fun p hp e he => ?_, fun paths' hperm => ?_⟩
  · rw [Summary.total_tally, List.length_map]
  · refine hconfined.kept q hq fun p _ text ht => ?_
    rw [ht.1] at hdry
    cases hdry
  · exact hconfined.kept_of_error hfiles hlog hp he
  · have hsymm : ∀ {p q : Path}, ¬ s.disk.OneFile p q → ¬ s.disk.OneFile q p :=
      fun h h' => h h'.symm
    have hfiles' : FilesApart s.disk paths' := (hperm.pairwise_iff hsymm).mpr hfiles
    have hlog' : c.logger.Aside s.disk paths' :=
      ⟨hlog.opened, fun place htarget p hp => hlog.apart place htarget p (hperm.mem_iff.mp hp)⟩
    obtain ⟨hresults', hconfined'⟩ := visits_confined paths' s hfiles' hlog'
    rw [run_eq_visits, hresults']
    exact ⟨Summary.tally_perm (hperm.map _),
      fun q hq => hconfined.unique hconfined' (fun p => hperm.mem_iff) hq⟩

theorem convertFile_of_run {place : List String} {text : List Char} {access : Access}
    {report : Report} (hplace : d.resolve path = .ok place)
    (hitem : d.item? place = some (.file (String.ofList text).toUTF8 access))
    (hread : access.read = true)
    (hrun : Conversion.run c.options c.telemetry path text = .ok report) :
    convertFile c d path = .ok report := by
  have htext : d.read path = .ok (String.ofList text) := by
    rw [Disk.read_eq hplace, hitem]
    dsimp only
    rw [if_pos hread, Disk.fromUTF8?_toUTF8]
  unfold convertFile
  rw [htext]
  dsimp only [Except.mapError, bind, Except.bind]
  rw [String.toList_ofList, hrun]

theorem target_memory_ne (q : List String) : Logger.memory.target ≠ .file q := by
  simp [Logger.memory]

theorem aside_memory (d : Disk) (paths : List Path) : Logger.memory.Aside d paths :=
  ⟨fun q htarget => absurd htarget (target_memory_ne q),
    fun q htarget => absurd htarget (target_memory_ne q)⟩

section ThreeFiles

def threeFilesText : List Char := "export default B.extend();".toList

/-- A file that can be converted, one that can not be written and one that can not be read. -/
def threeFiles : Disk where
  root :=
    let content := (String.ofList threeFilesText).toUTF8
    .dir [("a.js", .file content), ("b.js", .file content ⟨true, false⟩),
      ("c.js", .file content ⟨false, true⟩)]
  current := []

def threeFilesSettings : Settings where
  options := { classicDecorator := false }
  telemetry := ⟨[(⟨"/a"⟩, {}), (⟨"/b"⟩, {}), (⟨"/c"⟩, {})]⟩
  logger := .memory
  dryRun := false

theorem run_over_three_files :
    let paths : List Path := [⟨"/a.js"⟩, ⟨"/b.js"⟩, ⟨"/c.js"⟩]
    let s : Session := { disk := threeFiles }
    FilesApart threeFiles paths ∧ Logger.memory.Aside threeFiles paths ∧
      (run threeFilesSettings paths s).1.total = 3 ∧
      (run threeFilesSettings paths s).2.disk.item? ["a.js"] =
        some (.file "export default class A extends B \x7b\x7d".toUTF8 {}) ∧
      (∀ name ∈ ["b.js", "c.js"],
        (run threeFilesSettings paths s).2.disk.item? [name] = threeFiles.item? [name]) ∧
      (run threeFilesSettings paths.reverse s).1 = (run threeFilesSettings paths s).1 := by
  intro paths s
  have ha : threeFiles.resolve ⟨"/a.js"⟩ = .ok ["a.js"] := by decide +kernel
  have hb : threeFiles.resolve ⟨"/b.js"⟩ = .ok ["b.js"] := by decide +kernel
  have hc : threeFiles.resolve ⟨"/c.js"⟩ = .ok ["c.js"] := by decide +kernel
  have hfiles : FilesApart threeFiles paths := by
    apply filesApart_of_nodup
    simp [paths, ha, hb, hc]
  have hlog := aside_memory threeFiles paths
  obtain ⟨htotal, -, hconfined, -, herror, horder⟩ :=
    run_over_different_files threeFilesSettings paths s hfiles hlog
  have htext : ((Conversion.run threeFilesSettings.options threeFilesSettings.telemetry ⟨"/a.js"⟩
      threeFilesText).toOption.any fun report => decide (report.output =
        some "export default class A extends B \x7b\x7d".toList)) = true := by
    decide +kernel
  simp only [Option.any_eq_true, Except.toOption_eq_some_iff, decide_eq_true_eq] at htext
  obtain ⟨report, hrun, houtput⟩ := htext
  have hitem : threeFiles.item? ["a.js"] =
      some (.file (String.ofList threeFilesText).toUTF8 {}) := rfl
  have hconvert : convertFile threeFilesSettings threeFiles ⟨"/a.js"⟩ = .ok report :=
    convertFile_of_run ha hitem rfl hrun
  have hnew := hconfined.rewritten ⟨"/a.js"⟩ (by simp [paths]) _ _ _ _
    ((rewrites_iff hconvert ha hitem).mpr ⟨rfl, houtput, rfl⟩) ha hitem
  have hlocked : ∀ text, ¬ Rewrites threeFilesSettings threeFiles ⟨"/b.js"⟩ text := by
    intro text ht
    obtain ⟨-, report, hreport, -⟩ := id ht
    have hwrite := ((rewrites_iff hreport hb rfl).mp ht).2.2
    cases hwrite
  have hsealed : attempt threeFilesSettings threeFiles ⟨"/c.js"⟩ = .error (.disk .denied) := by
    have hread : threeFiles.read ⟨"/c.js"⟩ = .error .denied := Disk.read_eq hc
    rw [attempt, convertFile, hread]
    rfl
  refine ⟨hfiles, hlog, htotal, hnew, ?_, (horder _ paths.reverse_perm).1⟩
  simp only [List.mem_cons, List.not_mem_nil, or_false, forall_eq_or_imp, forall_eq]
  refine ⟨hconfined.kept _ (target_memory_ne _) ?_, ?_⟩
  · simp only [paths, List.mem_cons, List.not_mem_nil, or_false, forall_eq_or_imp, forall_eq]
    refine ⟨fun text _ h => ?_, fun text ht => absurd ht (hlocked text), fun text _ h => ?_⟩
    · exact absurd (ha.symm.trans h) (by decide)
    · exact absurd (hc.symm.trans h) (by decide)
  · exact (herror ⟨"/c.js"⟩ (by simp [paths]) _ hsealed).item ["c.js"] hc

end ThreeFiles

section TwoPaths

/-- A file and a directory, which gives the file a second path. -/
def twoPaths : Disk where
  root := .dir [("a.js", .file (String.ofList threeFilesText).toUTF8), ("b", .dir [])]
  current := []

def twoPathsSettings : Settings where
  options := { classicDecorator := false }
  telemetry := ⟨[(⟨"/a"⟩, { type := some "Component" }), (⟨"/b/../a"⟩, { type := some "Service" })]⟩
  logger := .memory
  dryRun := false

/-- The first of two paths to the file decides on its text, if that leaves nothing to be done. -/
private theorem item_of_two_paths {p q : Path} (text : List Char)
    (hp : twoPaths.resolve p = .ok ["a.js"]) (hq : twoPaths.resolve q = .ok ["a.js"])
    (hfirst : ((Conversion.run twoPathsSettings.options twoPathsSettings.telemetry p
      threeFilesText).toOption.any fun report => decide (report.output = some text)) = true)
    (hsecond : ((Conversion.run twoPathsSettings.options twoPathsSettings.telemetry q
      text).toOption.any fun report => decide (report.output = none)) = true) :
    (run twoPathsSettings [p, q] { disk := twoPaths }).2.disk.item? ["a.js"] =
      some (.file (String.ofList text).toUTF8 {}) := by
  simp only [Option.any_eq_true, Except.toOption_eq_some_iff, decide_eq_true_eq] at hfirst hsecond
  obtain ⟨report, hrun, houtput⟩ := hfirst
  obtain ⟨report', hrun', houtput'⟩ := hsecond
  have hitem : twoPaths.item? ["a.js"] =
      some (.file (String.ofList threeFilesText).toUTF8 {}) := rfl
  have hnew : Rewrites twoPathsSettings twoPaths p text :=
    (rewrites_iff (convertFile_of_run hp hitem rfl hrun) hp hitem).mpr ⟨rfl, houtput, rfl⟩
  have hone : Confined twoPathsSettings [p] twoPaths
      (after twoPathsSettings p { disk := twoPaths }).disk :=
    (visit_confined (c := twoPathsSettings) (s := { disk := twoPaths })
      (aside_memory twoPaths [p]).opened fun q hq => absurd hq (target_memory_ne q)).2
  generalize hs : after twoPathsSettings p { disk := twoPaths } = s at hone
  have hitem₁ := hone.rewritten p (by simp) text _ _ _ hnew hp hitem
  have hq₁ := (hone.alike.resolve q).trans hq
  have htwo : Confined twoPathsSettings [q] s.disk (after twoPathsSettings q s).disk :=
    (visit_confined (c := twoPathsSettings) (s := s)
      (aside_memory s.disk [q]).opened fun q hq => absurd hq (target_memory_ne q)).2
  rw [run_eq_visits]
  change (after twoPathsSettings q (after twoPathsSettings p _)).disk.item? _ = _
  rw [hs, htwo.kept _ (target_memory_ne _), hitem₁]
  intro p' hp' text' ht
  rw [List.mem_singleton.mp hp'] at ht
  have hconvert := convertFile_of_run hq₁ hitem₁ rfl hrun'
  have hout := ((rewrites_iff hconvert hq₁ hitem₁).mp ht).2.1
  rw [houtput'] at hout
  cases hout

/-- Different paths may lead to one file, and then its text depends on their order. -/
theorem order_matters_for_one_file :
    let p : Path := ⟨"/a.js"⟩
    let q : Path := ⟨"/b/../a.js"⟩
    [p, q].Nodup ∧ ¬ p.same q ∧
      (run twoPathsSettings [p, q] { disk := twoPaths }).2.disk.item? ["a.js"] =
        some (.file "export default class A extends B \x7b\x7d".toUTF8 {}) ∧
      (run twoPathsSettings [q, p] { disk := twoPaths }).2.disk.item? ["a.js"] =
        some (.file "export default class AService extends B \x7b\x7d".toUTF8 {}) ∧
      (run twoPathsSettings [p, q] { disk := twoPaths }).2.disk.item? ["a.js"] ≠
        (run twoPathsSettings [q, p] { disk := twoPaths }).2.disk.item? ["a.js"] := by
  intro p q
  have hp : twoPaths.resolve p = .ok ["a.js"] := by decide +kernel
  have hq : twoPaths.resolve q = .ok ["a.js"] := by decide +kernel
  have hpq := item_of_two_paths "export default class A extends B \x7b\x7d".toList hp hq
    (by decide +kernel) (by decide +kernel)
  have hqp := item_of_two_paths "export default class AService extends B \x7b\x7d".toList
    hq hp (by decide +kernel) (by decide +kernel)
  refine ⟨by decide, by decide, hpq, hqp, ?_⟩
  rw [hpq, hqp]
  intro heq
  have hcontent := (Item.file.inj (Option.some.inj heq)).1
  simp only [String.toUTF8_eq_toByteArray, String.toByteArray_inj] at hcontent
  exact absurd hcontent (by decide)

end TwoPaths

end Batch

end EmberClasses
