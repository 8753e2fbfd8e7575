import EmberClasses.Batch
import EmberClasses.Proofs.DiskItems
import EmberClasses.Proofs.FileConversion

/-! A run over many files, file by file. What one file changes depends on that file alone, so a run
over different files does to each of them what converting it alone would have done, in any order. -/

namespace EmberClasses

def Session.streams (s : Session) : List LogRecord × String × String := (s.kept, s.out, s.err)

namespace Logger

def writeAll (l : Logger) (records : List LogRecord) (s : Session) : Session :=
  records.foldl (fun s r => l.write r s) s

theorem writeAll_append (l : Logger) (rs rs' : List LogRecord) (s : Session) :
    l.writeAll (rs ++ rs') s = l.writeAll rs' (l.writeAll rs s) := List.foldl_append

/-- Where a record goes does not depend on the disk. -/
theorem streams_write {s t : Session} (h : s.streams = t.streams) (l : Logger) (r : LogRecord) :
    (l.write r s).streams = (l.write r t).streams := by
  simp only [Session.streams, Prod.mk.injEq] at h ⊢
  obtain ⟨hkept, hout, herr⟩ := h
  unfold write
  split
  · exact ⟨hkept, hout, herr⟩
  · split
    · exact ⟨hkept, hout, herr⟩
    · simp [hkept, hout, herr]
    · split <;> simp [hkept, hout, herr]
    · exact ⟨hkept, hout, herr⟩

theorem streams_writeAll {s t : Session} (h : s.streams = t.streams) (l : Logger)
    (rs : List LogRecord) : (l.writeAll rs s).streams = (l.writeAll rs t).streams := by
  induction rs generalizing s t with
  | nil => exact h
  | cons r rs ih => exact ih (streams_write h l r)

theorem kept_writeAll_memory (rs : List LogRecord) (s : Session) :
    (memory.writeAll rs s).kept = s.kept ++ rs := by
  induction rs generalizing s with
  | nil => simp [writeAll]
  | cons r rs ih =>
    have hstep : (memory.write r s).kept = s.kept ++ [r] := by
      cases hr : r.level <;> simp [write, memory, isEnabled, LogLevel.rank, hr]
    change (memory.writeAll rs (memory.write r s)).kept = _
    rw [ih, hstep, List.append_assoc]
    rfl

def Opened (l : Logger) (d : Disk) : Prop :=
  ∀ place, l.target = .file place → ∃ content access,
    d.item? place = some (.file content access)

theorem Opened.of_item {l : Logger} {d : Disk} {place : List String} {content : ByteArray}
    {access : Access} (htarget : l.target = .file place)
    (hitem : d.item? place = some (.file content access)) : l.Opened d := by
  intro place' htarget'
  cases htarget.symm.trans htarget'
  exact ⟨content, access, hitem⟩

theorem Opened.alike {l : Logger} {d d' : Disk} (h : l.Opened d) (hd : d.Alike d') :
    l.Opened d' := by
  intro place htarget
  obtain ⟨content, access, hitem⟩ := h place htarget
  obtain ⟨content', hitem'⟩ := hd.file hitem
  exact ⟨content', access, hitem'⟩

/-- Opening a log gives a logger whose file is there. -/
theorem opened_of_openTarget {s s' : Session} {target : String} {l : Logger}
    (h : openTarget s target = .ok (l, s')) : l.Opened s'.disk := by
  intro place htarget
  unfold openTarget at h
  split at h
  · cases h; cases htarget
  · split at h
    · cases h; cases htarget
    · obtain ⟨opened, -, hopen⟩ := Except.bind_eq_ok (Except.ok_of_mapError h)
      cases hopen
      cases htarget
      exact ⟨_, _, Disk.item?_writeAt_self s.disk place _⟩

/-- A record changes nothing on the disk but the log file. -/
theorem disk_write {l : Logger} {s : Session} (h : l.Opened s.disk) (r : LogRecord) :
    s.disk.Alike (l.write r s).disk ∧
      ∀ q, l.target ≠ .file q → (l.write r s).disk.item? q = s.disk.item? q := by
  unfold write
  split
  · exact ⟨.refl _, fun q _ => rfl⟩
  · split
    · exact ⟨.refl _, fun q _ => rfl⟩
    · exact ⟨.refl _, fun q _ => rfl⟩
    · split <;> exact ⟨.refl _, fun q _ => rfl⟩
    · rename_i place htarget
      obtain ⟨content, access, hitem⟩ := h place htarget
      refine ⟨Disk.alike_writeAt hitem _, fun q hq => ?_⟩
      have hne : q ≠ place := fun heq => hq (heq ▸ htarget)
      exact (Disk.item?_writeAt hitem _ q).trans (if_neg hne)

theorem disk_writeAll {l : Logger} {s : Session} (h : l.Opened s.disk) (rs : List LogRecord) :
    s.disk.Alike (l.writeAll rs s).disk ∧
      ∀ q, l.target ≠ .file q → (l.writeAll rs s).disk.item? q = s.disk.item? q := by
  induction rs generalizing s with
  | nil => exact ⟨.refl _, fun q _ => rfl⟩
  | cons r rs ih =>
    obtain ⟨halike, hsame⟩ := disk_write h r
    obtain ⟨halike', hsame'⟩ := ih (h.alike halike)
    exact ⟨halike.trans halike', fun q hq => (hsame' q hq).trans (hsame q hq)⟩

end Logger

namespace Batch

def errorRecord (path : Path) (e : Error) : LogRecord :=
  ⟨.error, "[" ++ path.text ++ "]: FAILURE \nError: " ++ e.message⟩

def Summary.count (s : Summary) : Except Error Outcome → Summary
  | .ok outcome => s.add outcome
  | .error _ => { s with errored := s.errored + 1 }

def Summary.tally (results : List (Except Error Outcome)) : Summary :=
  results.foldl Summary.count {}

theorem Summary.total_count (s : Summary) (result : Except Error Outcome) :
    (s.count result).total = s.total + 1 := by
  cases result with
  | error e => simp only [count, total]; omega
  | ok outcome => cases outcome <;> simp only [count, add, total] <;> omega

theorem Summary.total_tally (results : List (Except Error Outcome)) :
    (tally results).total = results.length := by
  have hfold : ∀ s : Summary, (results.foldl count s).total = s.total + results.length := by
    induction results with
    | nil => intro s; rfl
    | cons r rs ih =>
      intro s
      rw [List.foldl_cons, ih, total_count, List.length_cons]
      omega
  exact (hfold {}).trans (Nat.zero_add _)

theorem Summary.count_comm (s : Summary) (r r' : Except Error Outcome) :
    (s.count r).count r' = (s.count r').count r := by
  cases r with
  | error e =>
    cases r' with
    | error e' => rfl
    | ok outcome => cases outcome <;> rfl
  | ok outcome =>
    cases r' with
    | error e' => cases outcome <;> rfl
    | ok outcome' => cases outcome <;> cases outcome' <;> rfl

/-- Counts do not depend on the order of the files. -/
theorem Summary.tally_perm {rs rs' : List (Except Error Outcome)} (h : rs.Perm rs') :
    tally rs = tally rs' :=
  h.foldl_eq' (fun _ _ _ _ s => count_comm s _ _) {}

variable (c : Settings)

def attempt (d : Disk) (path : Path) : Except Error Outcome := do
  let report ← convertFile c d path
  let _ ← save c report d
  return report.outcome

/-- Converting a file alone gives it a new text, and the text can be written. -/
def Rewrites (d : Disk) (path : Path) (text : List Char) : Prop :=
  c.dryRun = false ∧ ∃ report, convertFile c d path = .ok report ∧ report.output = some text ∧
    ∃ d', d.write path (String.ofList text) = .ok d'

/-- One file of a run: what converting it gave, what was handed to the logger meanwhile, and what
it counts as. -/
structure Visit where
  path : Path
  converted : Except Error Report
  records : List LogRecord
  result : Except Error Outcome

def reportRecords : Except Error Report → List LogRecord
  | .ok report => report.records
  | .error _ => []

def errorRecords (path : Path) : Except Error Outcome → List LogRecord
  | .ok _ => []
  | .error e => [errorRecord path e]

def visit (path : Path) (s : Session) : Visit :=
  let converted := convertFile c s.disk path
  let result := (runFile c path s).1
  { path, converted, records := reportRecords converted ++ errorRecords path result, result }

def after (path : Path) (s : Session) : Session := (next c ({}, s) path).2

def visits : List Path → Session → List Visit
  | [], _ => []
  | path :: paths, s => visit c path s :: visits paths (after c path s)

def afterAll (paths : List Path) (s : Session) : Session :=
  paths.foldl (fun s path => after c path s) s

variable {c}

theorem next_eq (summary : Summary) (s : Session) (path : Path) :
    next c (summary, s) path = (summary.count (visit c path s).result, after c path s) := by
  unfold after next visit
  dsimp only
  rcases runFile c path s with ⟨result, s'⟩
  cases result <;> rfl

theorem run_eq_visits (paths : List Path) (s : Session) :
    run c paths s = (Summary.tally ((visits c paths s).map (·.result)), afterAll c paths s) := by
  have hfold : ∀ (paths : List Path) (s : Session) (summary : Summary),
      paths.foldl (next c) (summary, s) =
        (((visits c paths s).map (·.result)).foldl Summary.count summary, afterAll c paths s) := by
    intro paths
    induction paths with
    | nil => intro s summary; rfl
    | cons path paths ih =>
      intro s summary
      rw [List.foldl_cons, next_eq, ih]
      rfl
  exact hfold paths s {}

/-- The streams are as if the records of all files had been written in a row. -/
theorem streams_after (path : Path) (s : Session) :
    (after c path s).streams = (c.logger.writeAll (visit c path s).records s).streams := by
  unfold after next visit runFile
  dsimp only
  cases convertFile c s.disk path with
  | error e => rfl
  | ok report =>
    dsimp only
    rw [Logger.writeAll_append]
    cases save c report (logReport c.logger report s).disk with
    | error e => rfl
    | ok d => rfl

theorem streams_afterAll (paths : List Path) (s : Session) :
    (afterAll c paths s).streams =
      (c.logger.writeAll ((visits c paths s).flatMap (·.records)) s).streams := by
  induction paths generalizing s with
  | nil => rfl
  | cons path paths ih =>
    rw [visits, List.flatMap_cons, Logger.writeAll_append]
    exact (ih (after c path s)).trans (Logger.streams_writeAll (streams_after path s) _ _)

section OneFile

variable {d : Disk} {path : Path} {report : Report} {place : List String} {content : ByteArray}
  {access : Access}

/-- A file that was converted is there, and the report is about it. -/
theorem convertFile_eq_ok (h : convertFile c d path = .ok report) :
    report.path = path ∧ ∃ place content access, d.resolve path = .ok place ∧
      d.item? place = some (.file content access) := by
  obtain ⟨text, hread, hrun⟩ := Except.bind_eq_ok h
  obtain ⟨place, content, access, hplace, hitem, -⟩ :=
    Disk.read_eq_ok (Except.ok_of_mapError hread)
  exact ⟨Conversion.path_of_run (Except.ok_of_mapError hrun), place, content, access, hplace,
    hitem⟩

theorem save_eq (hpath : report.path = path) (hplace : d.resolve path = .ok place)
    (hitem : d.item? place = some (.file content access)) :
    save c report d =
      match report.output with
      | none => .ok d
      | some text =>
        if c.dryRun then .ok d
        else if access.write then .ok (d.writeAt place (String.ofList text).toUTF8)
        else .error (.disk .denied) := by
  unfold save
  cases report.output with
  | none => rfl
  | some text =>
    dsimp only
    rw [hpath, Disk.write_eq hplace hitem]
    cases access.write <;> rfl

theorem item_of_save (hpath : report.path = path) (hplace : d.resolve path = .ok place)
    (hitem : d.item? place = some (.file content access)) {d' : Disk}
    (hsave : save c report d = .ok d') {q : List String} (hq : q ≠ place) :
    d'.item? q = d.item? q := by
  rw [save_eq hpath hplace hitem] at hsave
  split at hsave
  · cases hsave
    rfl
  · split at hsave
    · cases hsave
      rfl
    · split at hsave
      · cases hsave
        exact (Disk.item?_writeAt hitem _ q).trans (if_neg hq)
      · cases hsave

theorem rewrites_iff (hconvert : convertFile c d path = .ok report)
    (hplace : d.resolve path = .ok place)
    (hitem : d.item? place = some (.file content access)) {text : List Char} :
    Rewrites c d path text ↔
      c.dryRun = false ∧ report.output = some text ∧ access.write = true := by
  have hwrite := Disk.write_eq hplace hitem (String.ofList text)
  constructor
  · rintro ⟨hdry, report', hconvert', htext, d', hd'⟩
    cases hconvert.symm.trans hconvert'
    refine ⟨hdry, htext, ?_⟩
    by_contra hdenied
    rw [hwrite, if_neg hdenied] at hd'
    cases hd'
  · rintro ⟨hdry, htext, hallowed⟩
    exact ⟨hdry, report, hconvert, htext, _, hwrite.trans (if_pos hallowed)⟩

theorem Rewrites.unique {text text' : List Char} (h : Rewrites c d path text)
    (h' : Rewrites c d path text') : text = text' := by
  obtain ⟨-, report, hreport, htext, -⟩ := h
  obtain ⟨-, report', hreport', htext', -⟩ := h'
  cases hreport.symm.trans hreport'
  exact Option.some.inj (htext.symm.trans htext')

/-- On every disk where the file is the same, saving its report does the same. -/
theorem save_cases (hconvert : convertFile c d path = .ok report)
    (hplace : d.resolve path = .ok place)
    (hitem : d.item? place = some (.file content access)) :
    let Same (d' : Disk) : Prop :=
      d'.resolve path = .ok place ∧ d'.item? place = some (.file content access)
    (∃ text, Rewrites c d path text ∧
      ∀ d', Same d' → save c report d' = .ok (d'.writeAt place (String.ofList text).toUTF8)) ∨
    (∀ text, ¬ Rewrites c d path text) ∧
      ((∀ d', Same d' → save c report d' = .ok d') ∨
        ∀ d', Same d' → save c report d' = .error (.disk .denied)) := by
  intro Same
  have hpath := (convertFile_eq_ok hconvert).1
  have hrewrites (text : List Char) : Rewrites c d path text ↔ _ :=
    rewrites_iff hconvert hplace hitem
  have hsave (d' : Disk) (h : Same d') := save_eq (c := c) hpath h.1 h.2
  cases houtput : report.output with
  | none =>
    refine .inr ⟨fun text h => ?_, .inl fun d' h => by rw [hsave d' h, houtput]⟩
    rw [hrewrites, houtput] at h
    cases h.2.1
  | some text =>
    simp only [houtput] at hsave hrewrites
    by_cases hdry : c.dryRun = true
    · exact .inr ⟨fun text h => by simp [h.1] at hdry,
        .inl fun d' h => by rw [hsave d' h, if_pos hdry]⟩
    · by_cases hwrite : access.write = true
      · exact .inl ⟨text, (hrewrites text).mpr ⟨by simpa using hdry, rfl, hwrite⟩,
          fun d' h => by rw [hsave d' h, if_neg hdry, if_pos hwrite]⟩
      · exact .inr ⟨fun text h => hwrite ((hrewrites text).mp h).2.2,
          .inr fun d' h => by rw [hsave d' h, if_neg hdry, if_neg hwrite]⟩

end OneFile

theorem paths_visits (paths : List Path) (s : Session) :
    (visits c paths s).map (·.path) = paths := by
  induction paths generalizing s with
  | nil => rfl
  | cons path paths ih => rw [visits, List.map_cons, ih]; rfl

/-- Apart from the log, all that is changed on the disk are files that converting alone gives a new
text, and they get that text. -/
structure Confined (c : Settings) (paths : List Path) (d d' : Disk) : Prop where
  alike : d.Alike d'
  kept : ∀ q, c.logger.target ≠ .file q →
    (∀ p ∈ paths, ∀ text, Rewrites c d p text → d.resolve p ≠ .ok q) → d'.item? q = d.item? q
  rewritten : ∀ p ∈ paths, ∀ text q content access, Rewrites c d p text →
    d.resolve p = .ok q → d.item? q = some (.file content access) →
    d'.item? q = some (.file (String.ofList text).toUTF8 access)

theorem Confined.of_unwritten {path : Path} {d d' : Disk} (halike : d.Alike d')
    (hsame : ∀ q, c.logger.target ≠ .file q → d'.item? q = d.item? q)
    (hnone : ∀ text, ¬ Rewrites c d path text) : Confined c [path] d d' := by
  refine ⟨halike, fun q hq _ => hsame q hq, fun p hp text q content access h => ?_⟩
  rw [List.mem_singleton.mp hp] at h
  exact absurd h (hnone text)

theorem visit_of_convert {s : Session} {path : Path} {report : Report}
    (hconvert : convertFile c s.disk path = .ok report) :
    ((visit c path s).result, after c path s) =
      match save c report (c.logger.writeAll report.records s).disk with
      | .error e =>
        (.error e, c.logger.write (errorRecord path e) (c.logger.writeAll report.records s))
      | .ok d => (.ok report.outcome, { c.logger.writeAll report.records s with disk := d }) := by
  unfold after next visit runFile
  dsimp only
  rw [hconvert]
  dsimp only
  change (_, _) = match save c report (logReport c.logger report s).disk with
    | .error e => _
    | .ok d => _
  cases save c report (logReport c.logger report s).disk <;> rfl

theorem visit_confined {s : Session} {path : Path} (hopened : c.logger.Opened s.disk)
    (hapart : ∀ place, c.logger.target = .file place → s.disk.resolve path ≠ .ok place) :
    (visit c path s).result = attempt c s.disk path ∧
      Confined c [path] s.disk (after c path s).disk := by
  cases hconvert : convertFile c s.disk path with
  | error e =>
    have hresult : (visit c path s).result = .error e := by
      simp [visit, runFile, hconvert]
    have hafter : after c path s = c.logger.write (errorRecord path e) s := by
      simp [after, next, runFile, hconvert, logError, errorRecord]
    obtain ⟨halike, hsame⟩ := Logger.disk_write hopened (errorRecord path e)
    rw [hresult, hafter]
    refine ⟨by rw [attempt, hconvert]; rfl, .of_unwritten halike hsame ?_⟩
    rintro text ⟨-, report, hreport, -⟩
    cases hconvert.symm.trans hreport
  | ok report =>
    obtain ⟨-, place, content, access, hplace, hitem⟩ := convertFile_eq_ok hconvert
    have hvisit := visit_of_convert hconvert
    obtain ⟨halike, hsame⟩ := Logger.disk_writeAll hopened report.records
    generalize c.logger.writeAll report.records s = s₁ at hvisit halike hsame
    -- The log is another file, so the file is still what it was when its report is saved.
    have hother : c.logger.target ≠ .file place := fun htarget => hapart place htarget hplace
    have hplace₁ := (halike.resolve path).trans hplace
    have hitem₁ := (hsame place hother).trans hitem
    have hattempt : attempt c s.disk path = (save c report s.disk).map fun _ => report.outcome := by
      rw [attempt, hconvert]
      change (save c report s.disk >>= fun _ => _) = _
      cases save c report s.disk <;> rfl
    rcases save_cases hconvert hplace hitem with
      ⟨text, htext, hsave⟩ | ⟨hnone, hsave | hsave⟩ <;>
      rw [hsave s₁.disk ⟨hplace₁, hitem₁⟩, Prod.mk.injEq] at hvisit <;>
      rw [hvisit.1, hvisit.2, hattempt, hsave s.disk ⟨hplace, hitem⟩] <;>
      refine ⟨rfl, ?_⟩
    · have hwritten := Disk.item?_writeAt hitem₁ (String.ofList text).toUTF8
      refine ⟨halike.trans (Disk.alike_writeAt hitem₁ _), fun q hq hnot => ?_,
        fun p hp text' q content' access' h hq hitem' => ?_⟩
      · have hne : q ≠ place :=
          fun heq => hnot path (List.mem_singleton_self path) text htext (heq ▸ hplace)
        exact (hwritten q).trans ((if_neg hne).trans (hsame q hq))
      · rw [List.mem_singleton.mp hp] at h hq
        cases hplace.symm.trans hq
        cases hitem.symm.trans hitem'
        rw [h.unique htext]
        exact (hwritten place).trans (if_pos rfl)
    · exact .of_unwritten halike hsame hnone
    · obtain ⟨hlogged, hlast⟩ :=
        Logger.disk_write (hopened.alike halike) (errorRecord path (.disk .denied))
      exact .of_unwritten (halike.trans hlogged)
        (fun q hq => (hlast q hq).trans (hsame q hq)) hnone

end Batch

end EmberClasses
