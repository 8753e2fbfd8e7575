import EmberClasses.Proofs.BatchFiles

/-! What the log of a run tells. Every file that counts as an error leaves an error in the log. The
success of a file is logged before its new text is saved, so the log tells which files count as
successes exactly if nothing that was converted failed to be saved. -/

namespace EmberClasses

namespace Logger

def logged (l : Logger) (records : List LogRecord) (content : ByteArray) : ByteArray :=
  records.foldl (fun held r => if l.isEnabled r.level then held ++ r.line.toUTF8 else held) content

theorem logged_append (l : Logger) (rs rs' : List LogRecord) (content : ByteArray) :
    l.logged (rs ++ rs') content = l.logged rs' (l.logged rs content) := List.foldl_append

section LogFile

variable {l : Logger} {place : List String} (htarget : l.target = .file place)

include htarget

theorem item_write_log {s : Session} {content : ByteArray} {access : Access}
    (hitem : s.disk.item? place = some (.file content access)) (r : LogRecord) :
    (l.write r s).disk.item? place = some (.file (l.logged [r] content) access) := by
  have hcontent : s.disk.contentAt place = content := by
    unfold Disk.contentAt
    rw [Disk.item?_eq_file.mp hitem]
  unfold write
  cases henabled : l.isEnabled r.level with
  | false => simpa [logged, henabled] using hitem
  | true =>
    simp only [Bool.not_true, Bool.false_eq_true, if_false, htarget, logged, List.foldl_cons,
      List.foldl_nil, henabled, if_true]
    rw [← hcontent]
    exact (Disk.item?_writeAt hitem _ place).trans (if_pos rfl)

theorem item_writeAll_log {s : Session} {content : ByteArray} {access : Access}
    (hitem : s.disk.item? place = some (.file content access)) (rs : List LogRecord) :
    (l.writeAll rs s).disk.item? place = some (.file (l.logged rs content) access) := by
  induction rs generalizing s content with
  | nil => exact hitem
  | cons r rs ih => exact ih (item_write_log htarget hitem r)

end LogFile

end Logger

namespace Report

/-- The success of a file is told where a definition was replaced, and nothing else is told at that
level. -/
theorem info_mem_records {r : Report} {message : String} :
    ⟨.info, message⟩ ∈ r.records ↔
      r.outcome = .success ∧ message = "[" ++ r.path.text ++ "]: SUCCESS" := by
  have hfailures : (⟨.info, message⟩ : LogRecord) ∉ r.failures.map (failureRecord r.path) := by
    simp [failureRecord]
  unfold records
  cases r.outcome with
  | success => simp [hfailures]
  | failure => simpa using hfailures
  | unchanged => simpa using hfailures
  | skipped reason => simp

theorem error_not_mem_records (r : Report) (message : String) : ⟨.error, message⟩ ∉ r.records := by
  unfold records
  cases r.outcome <;> simp [failureRecord]

end Report

namespace Batch

def successRecord (path : Path) : LogRecord := ⟨.info, "[" ++ path.text ++ "]: SUCCESS"⟩

namespace Visit

def Succeeded (v : Visit) : Prop := v.result = .ok .success

def Errored (v : Visit) : Prop := ∃ e, v.result = .error e

/-- The file was converted, but its new text could not be saved. -/
def Unsaved (v : Visit) : Prop :=
  v.Errored ∧ ∃ report, v.converted = .ok report ∧ report.outcome = .success

end Visit

variable {c : Settings} {path : Path} {s : Session}

theorem records_visit : (visit c path s).records =
    reportRecords (visit c path s).converted ++ errorRecords path (visit c path s).result := rfl

theorem records_of_convert {report : Report} (hconvert : convertFile c s.disk path = .ok report) :
    (visit c path s).records = report.records ++ errorRecords path (visit c path s).result := by
  simp only [visit, hconvert, reportRecords]

theorem item_after_log {place : List String} (htarget : c.logger.target = .file place)
    {content : ByteArray} {access : Access}
    (hitem : s.disk.item? place = some (.file content access))
    (hapart : s.disk.resolve path ≠ .ok place) :
    (after c path s).disk.item? place =
      some (.file (c.logger.logged (visit c path s).records content) access) := by
  cases hconvert : convertFile c s.disk path with
  | error e =>
    have hafter : after c path s = c.logger.writeAll (visit c path s).records s := by
      simp [after, next, visit, runFile, hconvert, logError, errorRecord, Logger.writeAll,
        reportRecords, errorRecords]
    rw [hafter]
    exact Logger.item_writeAll_log htarget hitem _
  | ok report =>
    have hvisit := visit_of_convert hconvert
    have hrecords := records_of_convert hconvert
    have hlogged := Logger.item_writeAll_log htarget hitem report.records
    cases hsave : save c report (c.logger.writeAll report.records s).disk with
    | error e =>
      rw [hsave, Prod.mk.injEq] at hvisit
      rw [hvisit.1] at hrecords
      rw [hvisit.2, hrecords, Logger.logged_append]
      exact Logger.item_write_log htarget hlogged _
    | ok d =>
      rw [hsave, Prod.mk.injEq] at hvisit
      rw [hvisit.1] at hrecords
      rw [hvisit.2, hrecords, errorRecords, List.append_nil, ← hlogged]
      change d.item? place = _
      -- What is saved goes to the place that the path led to before anything was logged.
      have hopened := Logger.Opened.of_item htarget hitem
      obtain ⟨halike, hsame⟩ := Logger.disk_writeAll hopened report.records
      obtain ⟨hpath, own, content', access', hown, hfile⟩ := convertFile_eq_ok hconvert
      have hne : place ≠ own := fun heq => hapart (heq ▸ hown)
      have hother : c.logger.target ≠ .file own := fun htarget' => by
        cases htarget.symm.trans htarget'
        exact hne rfl
      exact item_of_save hpath ((halike.resolve path).trans hown)
        ((hsame own hother).trans hfile) hsave hne

theorem item_afterAll_log {place : List String} (htarget : c.logger.target = .file place)
    {content : ByteArray} {access : Access} (paths : List Path)
    (hitem : s.disk.item? place = some (.file content access))
    (hapart : ∀ p ∈ paths, s.disk.resolve p ≠ .ok place) :
    (afterAll c paths s).disk.item? place =
      some (.file (c.logger.logged ((visits c paths s).flatMap (·.records)) content) access) := by
  induction paths generalizing s content with
  | nil => exact hitem
  | cons path paths ih =>
    have hopened := Logger.Opened.of_item htarget hitem
    have hpath := hapart path List.mem_cons_self
    obtain ⟨-, hconfined⟩ := visit_confined (c := c) (s := s) hopened fun place' htarget' => by
      cases htarget.symm.trans htarget'
      exact hpath
    rw [visits, List.flatMap_cons, Logger.logged_append]
    refine ih (item_after_log htarget hitem hpath) fun p hp => ?_
    rw [hconfined.alike.resolve]
    exact hapart p (List.mem_cons_of_mem path hp)

theorem mem_errorRecords {path : Path} {result : Except Error Outcome} {r : LogRecord} :
    r ∈ errorRecords path result ↔ ∃ e, result = .error e ∧ r = errorRecord path e := by
  cases result <;> simp [errorRecords]

/-- The success of a file is logged if the file was converted. -/
theorem successRecord_mem_visit : successRecord path ∈ (visit c path s).records ↔
    ∃ report, (visit c path s).converted = .ok report ∧ report.outcome = .success := by
  have herror : successRecord path ∉ errorRecords path (visit c path s).result := by
    rw [mem_errorRecords]
    rintro ⟨e, -, he⟩
    cases congrArg LogRecord.level he
  rw [records_visit, List.mem_append, or_iff_left herror]
  cases hconvert : (visit c path s).converted with
  | error e => simp [reportRecords]
  | ok report =>
    rw [reportRecords, successRecord, Report.info_mem_records, (convertFile_eq_ok hconvert).1]
    simp

theorem errorRecord_mem_visit :
    (∃ e, errorRecord path e ∈ (visit c path s).records) ↔ (visit c path s).Errored := by
  have hreport (e : Error) : errorRecord path e ∉ reportRecords (visit c path s).converted := by
    cases (visit c path s).converted with
    | error e' => simp [reportRecords]
    | ok report => exact Report.error_not_mem_records report _
  rw [records_visit]
  constructor
  · rintro ⟨e, he⟩
    obtain ⟨e', hresult, -⟩ :=
      mem_errorRecords.mp ((List.mem_append.mp he).resolve_left (hreport e))
    exact ⟨e', hresult⟩
  · rintro ⟨e, he⟩
    exact ⟨e, List.mem_append_right _ (mem_errorRecords.mpr ⟨e, he, rfl⟩)⟩

/-- A file that does not count as an error was converted, and counts as what the conversion says. -/
theorem converted_of_result {outcome : Outcome} (h : (visit c path s).result = .ok outcome) :
    ∃ report, (visit c path s).converted = .ok report ∧ report.outcome = outcome := by
  cases hconvert : convertFile c s.disk path with
  | error e => simp [visit, runFile, hconvert] at h
  | ok report =>
    have hvisit := congrArg Prod.fst (visit_of_convert hconvert)
    dsimp only at hvisit
    rw [h] at hvisit
    cases hsave : save c report (c.logger.writeAll report.records s).disk <;> rw [hsave] at hvisit
    · cases hvisit
    · exact ⟨report, hconvert, (Except.ok.inj hvisit).symm⟩

/-- Saving makes the difference between being converted and counting as a success. -/
theorem succeeded_iff : (visit c path s).Succeeded ↔
    (∃ report, (visit c path s).converted = .ok report ∧ report.outcome = .success) ∧
      ¬ (visit c path s).Unsaved := by
  constructor
  · intro h
    refine ⟨converted_of_result h, ?_⟩
    rintro ⟨⟨e, he⟩, -⟩
    cases h.symm.trans he
  · rintro ⟨⟨report, hreport, hsuccess⟩, hsaved⟩
    cases hresult : (visit c path s).result with
    | error e => exact absurd ⟨⟨e, hresult⟩, report, hreport, hsuccess⟩ hsaved
    | ok outcome =>
      obtain ⟨report', hreport', houtcome⟩ := converted_of_result hresult
      cases hreport.symm.trans hreport'
      rw [Visit.Succeeded, hresult, ← houtcome, hsuccess]

theorem mem_visits {v : Visit} {paths : List Path} (h : v ∈ visits c paths s) :
    ∃ path ∈ paths, ∃ s', v = visit c path s' := by
  induction paths generalizing s with
  | nil => cases h
  | cons path paths ih =>
    rcases List.mem_cons.mp h with rfl | h
    · exact ⟨path, List.mem_cons_self, s, rfl⟩
    · obtain ⟨p, hp, s', rfl⟩ := ih h
      exact ⟨p, List.mem_cons_of_mem path hp, s', rfl⟩

/-- In every run, what each logger holds in the end are the records of all files in order, an error
is among those of a file exactly if the file counts as an error, and success is told of just the
files that count as successes if and only if each file that was converted could be saved. -/
theorem log_agrees_iff_all_saved (c : Settings) (paths : List Path) (s : Session) :
    let vs := visits c paths s
    let records := vs.flatMap (·.records)
    vs.map (·.path) = paths ∧
      (run c paths s).1 = Summary.tally (vs.map (·.result)) ∧
      (run c paths s).2.streams = (c.logger.writeAll records s).streams ∧
      (c.logger = .memory → (run c paths s).2.kept = s.kept ++ records) ∧
      (∀ place content access, c.logger.target = .file place →
        s.disk.item? place = some (.file content access) →
        (∀ p ∈ paths, s.disk.resolve p ≠ .ok place) →
        (run c paths s).2.disk.item? place =
          some (.file (c.logger.logged records content) access)) ∧
      (∀ v ∈ vs, (∃ e, errorRecord v.path e ∈ v.records) ↔ v.Errored) ∧
      ((∀ v ∈ vs, successRecord v.path ∈ v.records ↔ v.Succeeded) ↔ ∀ v ∈ vs, ¬ v.Unsaved) := by
  intro vs records
  have hstreams := streams_afterAll (c := c) paths s
  rw [run_eq_visits]
  refine ⟨paths_visits paths s, rfl, hstreams, fun hmemory => ?_, ?_, ?_, ?_⟩
  · have hkept := congrArg Prod.fst hstreams
    rw [hmemory] at hkept
    exact hkept.trans (Logger.kept_writeAll_memory records s)
  · intro place content access htarget hitem hapart
    exact item_afterAll_log htarget paths hitem hapart
  · intro v hv
    obtain ⟨path, -, s', rfl⟩ := mem_visits hv
    exact errorRecord_mem_visit
  · constructor
    · intro h v hv hunsaved
      obtain ⟨path, -, s', rfl⟩ := mem_visits hv
      exact (succeeded_iff.mp ((h _ hv).mp (successRecord_mem_visit.mpr hunsaved.2))).2 hunsaved
    · intro h v hv
      obtain ⟨path, -, s', rfl⟩ := mem_visits hv
      exact successRecord_mem_visit.trans (succeeded_iff.trans (and_iff_left (h _ hv))).symm

/-- A file that can be read but not written counts as an error, and both its success and the error
are logged. -/
theorem success_logged_before_failed_save :
    let result := run threeFilesSettings [⟨"/b.js"⟩] { disk := threeFiles }
    result.2.kept = [⟨.info, "[/b.js]: SUCCESS"⟩,
        ⟨.error, "[/b.js]: FAILURE \nError: Permission denied (os error 13)"⟩] ∧
      result.1 = { errored := 1 } := by
  intro result
  have hb : threeFiles.resolve ⟨"/b.js"⟩ = .ok ["b.js"] := by decide +kernel
  have hitem : threeFiles.item? ["b.js"] =
      some (.file (String.ofList threeFilesText).toUTF8 ⟨true, false⟩) := rfl
  have hreport : ((Conversion.run threeFilesSettings.options threeFilesSettings.telemetry ⟨"/b.js"⟩
      threeFilesText).toOption.any fun report => decide (report.output.isSome ∧
        report.records = [⟨.info, "[/b.js]: SUCCESS"⟩])) = true := by
    decide +kernel
  simp only [Option.any_eq_true, Except.toOption_eq_some_iff, decide_eq_true_eq] at hreport
  obtain ⟨report, hrun, houtput, hrecords⟩ := hreport
  obtain ⟨text, htext⟩ := Option.isSome_iff_exists.mp houtput
  have hconvert := convertFile_of_run (c := threeFilesSettings) hb hitem rfl hrun
  have hvisit := visit_of_convert (s := { disk := threeFiles }) hconvert
  have hsave : save threeFilesSettings report
      (threeFilesSettings.logger.writeAll report.records { disk := threeFiles }).disk =
        .error (.disk .denied) := by
    rw [hrecords]
    change save threeFilesSettings report threeFiles = _
    rw [save_eq (convertFile_eq_ok hconvert).1 hb hitem, htext]
    rfl
  rw [hsave, Prod.mk.injEq, hrecords] at hvisit
  have hall := run_eq_visits (c := threeFilesSettings) [⟨"/b.js"⟩] { disk := threeFiles }
  simp only [visits, List.map_cons, List.map_nil, hvisit.1, afterAll, List.foldl_cons,
    List.foldl_nil, hvisit.2] at hall
  rw [show result = _ from hall]
  exact ⟨rfl, rfl⟩

end Batch

end EmberClasses
