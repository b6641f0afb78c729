import MlogAsm.Command.Run
import MlogAsm.Proofs.Language
import MlogAsm.Proofs.SurveyLines
import MlogAsm.Proofs.Utf8

/-!
# Files stay whole

A run of the command reads one file and writes at most one. It writes only when the whole program is
in order, so a file is left as it was or holds a complete program. This is told of any file system
in which opening a file for writing fails without effect or replaces what that file holds, and a
`FileStore` is one.
-/

namespace MlogAsm.Command

/-- Files that a run can reach. A path that is opened leads to a file or is refused. -/
structure FileSystem (σ : Type) where
  access : FileAccess (StateM σ)
  File : Type
  /-- What a file holds, if it is there. -/
  content : σ → File → Option (List UInt8)
  /-- The file that a path leads to when it is opened for reading. -/
  source : σ → String → Except AccessError File
  /-- The file that a path leads to when it is opened for writing. -/
  target : σ → String → Except AccessError File
  read_of_error {s : σ} {path : String} {e : AccessError} (h : source s path = .error e) :
    (access.read path).run s = (.error e, s)
  read_of_ok {s : σ} {path : String} {f : File} (h : source s path = .ok f) :
    ∃ bytes, content s f = some bytes ∧ (access.read path).run s = (.ok bytes, s)
  write_of_error {s : σ} {path : String} {e : AccessError} (h : target s path = .error e)
    (bytes : List UInt8) : (access.write path bytes).run s = (.error e, s)
  write_of_ok {s : σ} {path : String} {f : File} (h : target s path = .ok f)
    (bytes : List UInt8) :
    ∃ t, (access.write path bytes).run s = (.ok (), t) ∧ content t f = some bytes ∧
      ∀ g, g ≠ f → content t g = content s g

namespace FileStore

/-- What the file at a place holds. -/
def content (store : FileStore) (place : Location) : Option (List UInt8) :=
  match store.node? place with
  | some (.file bytes) => some bytes
  | _ => none

/-- Where a path leads that is opened for reading. -/
def source (store : FileStore) (path : String) : Except AccessError Location := do
  let path ← Path.parse path
  let (dir, last) ← store.walk path
  if path.trailingSlash || last = "." || last = ".." then
    let _ ← store.enter dir last
    throw .isDirectory
  else
    match ← store.find dir last with
    | none => throw .notFound
    | some .directory => throw .isDirectory
    | some (.file _) => return dir.child last

/-- Where a path leads that is opened for writing. -/
def target (store : FileStore) (path : String) : Except AccessError Location := do
  let path ← Path.parse path
  let (dir, last) ← store.walk path
  if path.trailingSlash || last = "." || last = ".." then throw .isDirectory
  else
    match ← store.find dir last with
    | some .directory => throw .isDirectory
    | _ => return dir.child last

section Places

variable {store : FileStore} {path : String}

private theorem find_eq_ok {dir : Location} {name : String} {node : Option Node}
    (h : store.find dir name = .ok node) : store.node? (dir.child name) = node := by
  unfold find at h
  split at h
  · exact Except.ok.inj h
  · cases h

/-- Reading follows a path and gives what stands there. -/
private theorem read_cases (store : FileStore) (path : String) :
    (∃ e, store.source path = .error e ∧ store.read path = .error e) ∨
      ∃ place bytes, store.source path = .ok place ∧ store.content place = some bytes ∧
        store.read path = .ok bytes := by
  unfold read source
  cases Path.parse path with
  | error e => exact .inl ⟨e, rfl, rfl⟩
  | ok path =>
    simp only [bind, Except.bind]
    cases store.walk path with
    | error e => exact .inl ⟨e, rfl, rfl⟩
    | ok way =>
      dsimp only
      split
      · cases store.enter way.1 way.2 with
        | error e => exact .inl ⟨e, rfl, rfl⟩
        | ok dir => exact .inl ⟨.isDirectory, rfl, rfl⟩
      · cases hf : store.find way.1 way.2 with
        | error e => exact .inl ⟨e, rfl, rfl⟩
        | ok node =>
          rcases node with _ | (bytes | _)
          · exact .inl ⟨.notFound, rfl, rfl⟩
          · refine .inr ⟨way.1.child way.2, bytes, rfl, ?_, rfl⟩
            rw [content, find_eq_ok hf]
          · exact .inl ⟨.isDirectory, rfl, rfl⟩

/-- Writing follows a path and puts a file there. -/
private theorem write_eq (store : FileStore) (path : String) (bytes : List UInt8) :
    store.write path bytes =
      (store.target path).map fun place ↦ store.insert place (.file bytes) := by
  unfold write target
  cases Path.parse path with
  | error e => rfl
  | ok path =>
    simp only [bind, Except.bind]
    cases store.walk path with
    | error e => rfl
    | ok way =>
      dsimp only
      split
      · rfl
      · cases store.find way.1 way.2 with
        | error e => rfl
        | ok node => rcases node with _ | (_ | _) <;> rfl

/-- A place for a file is below a directory. -/
private theorem names_of_target {place : Location} (h : store.target path = .ok place) :
    place.names ≠ [] := by
  unfold target at h
  cases hp : Path.parse path with
  | error e =>
    rw [hp] at h
    cases h
  | ok path =>
    rw [hp] at h
    simp only [bind, Except.bind] at h
    split at h
    · cases h
    · split at h
      · cases h
      · split at h
        · cases h
        · split at h
          · cases h
          · cases h
            simp [Location.child]

private theorem node?_insert {place : Location} (hp : place.names ≠ []) (node : Node)
    (other : Location) :
    (store.insert place node).node? other =
      if other = place then some node else store.node? other := by
  unfold node? insert
  by_cases ho : other = place
  · subst ho
    simp [hp]
  · have hne : (other == place) = false := beq_eq_false_iff_ne.mpr ho
    simp only [List.lookup_cons, hne, if_neg ho]
    rw [lookup_filter_fst (· != place), if_pos (bne_iff_ne.mpr ho)]

private theorem content_insert {place : Location} (hp : place.names ≠ []) (bytes : List UInt8)
    (other : Location) :
    (store.insert place (.file bytes)).content other =
      if other = place then some bytes else store.content other := by
  unfold content
  rw [node?_insert hp]
  by_cases ho : other = place
  · rw [if_pos ho, if_pos ho]
  · rw [if_neg ho, if_neg ho]

private theorem run_write_of_error {e : AccessError} (h : store.target path = .error e)
    (bytes : List UInt8) : (access.write path bytes).run store = (.error e, store) := by
  have hw : store.write path bytes = .error e := by rw [write_eq, h]; rfl
  simp only [access, StateT.run_bind, StateT.run_get, pure_bind, hw, StateT.run_pure]
  rfl

private theorem run_write_of_ok {place : Location} (h : store.target path = .ok place)
    (bytes : List UInt8) :
    (access.write path bytes).run store = (.ok (), store.insert place (.file bytes)) := by
  have hw : store.write path bytes = .ok (store.insert place (.file bytes)) := by
    rw [write_eq, h]
    rfl
  simp only [access, StateT.run_bind, StateT.run_get, pure_bind, hw, StateT.run_pure]
  rfl

end Places

/-- The files of a store. -/
def fileSystem : FileSystem FileStore where
  access := access
  File := Location
  content := content
  source := source
  target := target
  read_of_error {s path e} h := by
    rcases s.read_cases path with ⟨e', hs, hr⟩ | ⟨place, bytes, hs, _⟩
    · rw [h] at hs
      cases hs
      exact congrArg (·, s) hr
    · rw [h] at hs
      cases hs
  read_of_ok {s path f} h := by
    rcases s.read_cases path with ⟨e, hs, _⟩ | ⟨place, bytes, hs, hc, hr⟩
    · rw [h] at hs
      cases hs
    · rw [h] at hs
      cases hs
      exact ⟨bytes, hc, congrArg (·, s) hr⟩
  write_of_error {s path e} h bytes := run_write_of_error h bytes
  write_of_ok {s path f} h bytes := by
    refine ⟨_, run_write_of_ok h bytes, ?_, fun g hg ↦ ?_⟩
    · rw [content_insert (names_of_target h), if_pos rfl]
    · rw [content_insert (names_of_target h), if_neg hg]

end FileStore

/-- A command line that asks to assemble, with paths that a file system can be asked for. -/
structure Call where
  words : List String
  /-- A terminal shows the diagnostics. -/
  colored : Bool
  input : String
  output : String
  debugComments : Bool
  ofWords_eq : Request.ofWords words = .ok (.assemble ⟨some input, some output, debugComments⟩)
  nul_not_mem_input : '\x00' ∉ input.toList
  nul_not_mem_output : '\x00' ∉ output.toList

private theorem openable_eq_ok {path : String} (h : '\x00' ∉ path.toList) :
    openable (some path) = .ok path := by
  have hn : ¬ path.toList.contains '\x00' = true := by simpa using h
  exact if_neg hn

private theorem assemble_eq_ok_iff {path : String} {debug : Bool}
    {contents : Except AccessError (List UInt8)} {l : Listing} :
    assemble path debug contents = .ok l ↔
      ∃ text a, decodeInput contents = .ok text ∧ Assembly.ofText text = .ok a ∧
        l = a.listing debug := by
  unfold assemble
  cases decodeInput contents with
  | error e => simp
  | ok text =>
    simp only [Listing.ofText_eq]
    cases h : Assembly.ofText text <;> simp [h, Except.map, eq_comm]

private theorem severity_of_assemble {path : String} {debug : Bool}
    {contents : Except AccessError (List UInt8)} {d : Diagnostic}
    (h : assemble path debug contents = .error d) : d.severity = .error := by
  unfold assemble at h
  split at h
  · cases h
    rfl
  · split at h
    · cases h
      rfl
    · cases h

/-- Diagnostics as they are printed, one after the other. -/
def printedAll (colored : Bool) (ds : List Diagnostic) : String :=
  String.join (ds.map (printed colored))

private theorem printedAll_concat (colored : Bool) (ds : List Diagnostic) (d : Diagnostic) :
    printedAll colored (ds ++ [d]) = printedAll colored ds ++ printed colored d := by
  simp [printedAll, String.join_append, String.join_cons]

private theorem warnings_eq_printedAll (path : String) (colored : Bool) (symbols : Symbols) :
    warnings path colored symbols =
      printedAll colored (symbols.warnings.map (Redeclaration.diagnostic path)) := by
  rw [printedAll, List.map_map]
  rfl

/-- The warnings are about the redeclarations in the text. -/
private theorem warnings_of_ofText {text : String} {a : Assembly} (h : Assembly.ofText text = .ok a)
    (path : String) (colored : Bool) :
    warnings path colored a.symbols = printedAll colored
      ((Element.redeclared [] (elements text)).map (Redeclaration.diagnostic path)) := by
  have hsurvey := (Assembly.ofTextWith_eq_ok_iff.mp h).1
  rw [warnings_eq_printedAll, Symbols.warnings_of_survey hsurvey]

/-- A run of the command, from the files before it to the files after it. -/
structure Step (σ : Type) where
  call : Call
  before : σ
  report : Report
  after : σ

namespace FileSystem

variable {σ : Type} (fs : FileSystem σ)

/-- A path leads to a file that holds a text: its bytes are those of a text in UTF-8, of which the
line ends are unified. -/
def HoldsText (s : σ) (path : String) (text : String) : Prop :=
  ∃ f raw, fs.source s path = .ok f ∧ fs.content s f = some (Text.Utf8.encode raw) ∧
    text = .ofList (Text.unifyLineEnds raw.toList)

/-- Runs the command. -/
def run (call : Call) (s : σ) : Step σ :=
  let ran := (Command.run fs.access call.colored call.words).run s
  ⟨call, s, ran.1, ran.2⟩

variable {fs} {call : Call} {s : σ}

/-- A file holds one text at most. -/
theorem HoldsText.unique {path text text' : String} (h : fs.HoldsText s path text)
    (h' : fs.HoldsText s path text') : text = text' := by
  obtain ⟨f, raw, hf, hc, rfl⟩ := h
  obtain ⟨f', raw', hf', hc', rfl⟩ := h'
  rw [hf] at hf'
  cases hf'
  rw [hc] at hc'
  have hraw := Text.Utf8.decode_eq_ok_iff.mpr (Option.some.inj hc')
  rw [Text.Utf8.decode_eq_ok_iff.mpr rfl] at hraw
  rw [Except.ok.inj hraw]

/-- What reading gives is decoded exactly when the file holds a text. -/
theorem decodeInput_eq_ok_iff {path text : String} :
    decodeInput ((fs.access.read path).run s).1 = .ok text ↔ fs.HoldsText s path text := by
  constructor
  · intro h
    cases hs : fs.source s path with
    | error e =>
      rw [fs.read_of_error hs] at h
      cases h
    | ok f =>
      obtain ⟨bytes, hc, hr⟩ := fs.read_of_ok hs
      rw [hr, decodeInput] at h
      cases hd : Text.Utf8.decode bytes with
      | error e =>
        simp only [hd] at h
        cases h
      | ok raw =>
        simp only [hd] at h
        rw [← Text.Utf8.decode_eq_ok_iff.mp hd] at hc
        exact ⟨f, raw, hs, hc, (Except.ok.inj h).symm⟩
  · rintro ⟨f, raw, hs, hc, rfl⟩
    obtain ⟨bytes, hc', hr⟩ := fs.read_of_ok hs
    rw [hc] at hc'
    cases hc'
    rw [hr, decodeInput, Text.Utf8.decode_eq_ok_iff.mpr rfl]

variable (fs call s) in
/-- The ways a run can go. -/
inductive Ran : Report → σ → Prop where
  /-- There is no program in the input. -/
  | refused {d : Diagnostic} (hd : d.severity = .error)
      (h : ∀ text, fs.HoldsText s call.input text → ∀ a, Assembly.ofText text ≠ .ok a) :
      Ran ⟨.exit 1, "", printed call.colored d⟩ s
  /-- The program is printed. -/
  | shown {text : String} {a : Assembly} (ht : fs.HoldsText s call.input text)
      (ha : Assembly.ofText text = .ok a) (ho : call.output = standardOutput) :
      Ran ⟨.exit 0, a.text call.debugComments ++ "\n", warnings call.input call.colored a.symbols⟩ s
  /-- The output cannot be opened. -/
  | unwritable {text : String} {a : Assembly} {e : AccessError}
      (ht : fs.HoldsText s call.input text) (ha : Assembly.ofText text = .ok a)
      (ho : call.output ≠ standardOutput) (hw : fs.target s call.output = .error e) :
      Ran ⟨.exit 1, "", warnings call.input call.colored a.symbols ++
        printed call.colored (writeFailure call.output e)⟩ s
  /-- The program is in the output file. -/
  | saved {text : String} {a : Assembly} {f : fs.File} {t : σ}
      (ht : fs.HoldsText s call.input text) (ha : Assembly.ofText text = .ok a)
      (ho : call.output ≠ standardOutput) (hw : fs.target s call.output = .ok f)
      (hf : fs.content t f = some (Text.Utf8.encode (a.text call.debugComments)))
      (hg : ∀ g, g ≠ f → fs.content t g = fs.content s g) :
      Ran ⟨.exit 0, "Saved to " ++ call.output ++ "\n",
        warnings call.input call.colored a.symbols⟩ t

section Steps

variable {contents : Except AccessError (List UInt8)} {a : Assembly}

private theorem run_words : Command.run fs.access call.colored call.words =
    Options.run fs.access call.colored ⟨some call.input, some call.output, call.debugComments⟩ := by
  unfold Command.run
  rw [call.ofWords_eq]

private theorem run_of_assemble_error (hr : (fs.access.read call.input).run s = (contents, s))
    {d : Diagnostic} (ha : assemble call.input call.debugComments contents = .error d) :
    (Command.run fs.access call.colored call.words).run s =
      (⟨.exit 1, "", printed call.colored d⟩, s) := by
  rw [run_words]
  simp only [Options.run, openable_eq_ok call.nul_not_mem_input, StateT.run_bind, hr]
  change StateT.run _ s = _
  rw [ha]
  rfl

private theorem run_of_standardOutput (hr : (fs.access.read call.input).run s = (contents, s))
    (ha : assemble call.input call.debugComments contents = .ok (a.listing call.debugComments))
    (ho : call.output = standardOutput) :
    (Command.run fs.access call.colored call.words).run s =
      (⟨.exit 0, a.text call.debugComments ++ "\n",
        warnings call.input call.colored a.symbols⟩, s) := by
  rw [run_words]
  simp only [Options.run, openable_eq_ok call.nul_not_mem_input, StateT.run_bind, hr]
  change StateT.run _ s = _
  rw [ha, ho]
  rfl

/-- The last step of a run is what writing answers. -/
private theorem run_of_write (hr : (fs.access.read call.input).run s = (contents, s))
    (ha : assemble call.input call.debugComments contents = .ok (a.listing call.debugComments))
    (ho : call.output ≠ standardOutput) {answer : Except AccessError Unit} {t : σ}
    (hw : (fs.access.write call.output (Text.Utf8.encode (a.text call.debugComments))).run s =
      (answer, t)) :
    (Command.run fs.access call.colored call.words).run s =
      (answer.casesOn
        (fun e ↦ ⟨.exit 1, "", warnings call.input call.colored a.symbols ++
          printed call.colored (writeFailure call.output e)⟩)
        (fun _ ↦ ⟨.exit 0, "Saved to " ++ call.output ++ "\n",
          warnings call.input call.colored a.symbols⟩), t) := by
  have ho' : ¬ some call.output = some standardOutput := fun h ↦ ho (Option.some.inj h)
  rw [run_words]
  simp only [Options.run, openable_eq_ok call.nul_not_mem_input,
    openable_eq_ok call.nul_not_mem_output, StateT.run_bind, hr]
  change StateT.run _ s = _
  rw [ha]
  have htext : (a.listing call.debugComments).text = a.text call.debugComments := rfl
  simp only [if_neg ho', htext, StateT.run_bind, hw]
  cases answer <;> rfl

end Steps

private theorem exists_run_read (fs : FileSystem σ) (path : String) (s : σ) :
    ∃ contents, (fs.access.read path).run s = (contents, s) := by
  cases h : fs.source s path with
  | error e => exact ⟨_, fs.read_of_error h⟩
  | ok f =>
    obtain ⟨bytes, _, hr⟩ := fs.read_of_ok h
    exact ⟨_, hr⟩

private theorem ran (fs : FileSystem σ) (call : Call) (s : σ) :
    fs.Ran call s (fs.run call s).report (fs.run call s).after := by
  obtain ⟨contents, hr⟩ := fs.exists_run_read call.input s
  have htext (text : String) :
      decodeInput contents = .ok text ↔ fs.HoldsText s call.input text := by
    rw [← decodeInput_eq_ok_iff, hr]
  unfold run
  cases ha : assemble call.input call.debugComments contents with
  | error d =>
    rw [run_of_assemble_error hr ha]
    refine .refused (severity_of_assemble ha) fun text ht a hofText ↦ ?_
    rw [assemble_eq_ok_iff.mpr ⟨text, a, (htext text).mpr ht, hofText, rfl⟩] at ha
    cases ha
  | ok l =>
    obtain ⟨text, a, hd, hofText, rfl⟩ := assemble_eq_ok_iff.mp ha
    have ht := (htext text).mp hd
    by_cases ho : call.output = standardOutput
    · rw [run_of_standardOutput hr ha ho]
      exact .shown ht hofText ho
    · cases hw : fs.target s call.output with
      | error e =>
        rw [run_of_write hr ha ho (fs.write_of_error hw _)]
        exact .unwritable ht hofText ho hw
      | ok f =>
        obtain ⟨t, hwrite, hf, hg⟩ := fs.write_of_ok hw
          (Text.Utf8.encode (a.text call.debugComments))
        rw [run_of_write hr ha ho hwrite]
        exact .saved ht hofText ho hw hf hg

/-- A run leaves a file as it was or puts a program into it. -/
private theorem Ran.content_cases {report : Report} {t : σ} (h : fs.Ran call s report t)
    (f : fs.File) :
    fs.content t f = fs.content s f ∨
      report.status = .exit 0 ∧ fs.target s call.output = .ok f ∧
        ∃ text a, fs.HoldsText s call.input text ∧ Assembly.ofText text = .ok a ∧
          fs.content t f = some (Text.Utf8.encode (a.text call.debugComments)) := by
  cases h with
  | refused | shown | unwritable => exact .inl rfl
  | @saved text a g t ht ha ho hw hf hg =>
    by_cases he : f = g
    · subst he
      exact .inr ⟨rfl, hw, text, a, ht, ha, hf⟩
    · exact .inl (hg f he)

/-- Runs the command several times, each time with the files that the run before has left. -/
def runAll (fs : FileSystem σ) (s : σ) : List Call → List (Step σ)
  | [] => []
  | call :: calls => fs.run call s :: runAll fs (fs.run call s).after calls

/-- The files that some runs leave. -/
def filesAfter (fs : FileSystem σ) (s : σ) (calls : List Call) : σ :=
  calls.foldl (fun s call ↦ (fs.run call s).after) s

private theorem eq_run_of_mem_runAll {step : Step σ} {calls : List Call}
    (h : step ∈ fs.runAll s calls) :
    step = fs.run step.call step.before := by
  induction calls generalizing s with
  | nil => cases h
  | cons call calls ih =>
    rcases List.mem_cons.mp h with rfl | h
    · rfl
    · exact ih h

/-- A file that runs leave is as it was, or one of them has put a program into it. -/
theorem content_filesAfter (fs : FileSystem σ) (s : σ) (calls : List Call) (f : fs.File) :
    fs.content (fs.filesAfter s calls) f = fs.content s f ∨
      ∃ step ∈ fs.runAll s calls, step.report.status = .exit 0 ∧
        fs.target step.before step.call.output = .ok f ∧
        ∃ text a, fs.HoldsText step.before step.call.input text ∧ Assembly.ofText text = .ok a ∧
          fs.content (fs.filesAfter s calls) f =
            some (Text.Utf8.encode (a.text step.call.debugComments)) := by
  induction calls generalizing s with
  | nil => exact .inl rfl
  | cons call calls ih =>
    rcases ih (fs.run call s).after with h | ⟨step, hs, h⟩
    · rcases (fs.ran call s).content_cases f with hsame | ⟨hstatus, htarget, text, a, ht, ha, hc⟩
      · exact .inl (h.trans hsame)
      · refine .inr ⟨fs.run call s, List.mem_cons_self, hstatus, htarget, text, a, ht, ha, ?_⟩
        exact h.trans hc
    · exact .inr ⟨step, List.mem_cons_of_mem _ hs, h⟩

/-- What a run may do. -/
structure Safe (fs : FileSystem σ) (step : Step σ) : Prop where
  /-- A run succeeds if the input holds a program and there is somewhere to put it. -/
  status_iff : step.report.status = .exit 0 ↔
    (∃ text a, fs.HoldsText step.before step.call.input text ∧ Assembly.ofText text = .ok a) ∧
      (step.call.output = standardOutput ∨ ∃ f, fs.target step.before step.call.output = .ok f)
  /-- A run that fails changes nothing, and the last thing it says is the error. -/
  failed : step.report.status ≠ .exit 0 →
    step.report.status = .exit 1 ∧ step.after = step.before ∧ step.report.stdout = "" ∧
      ∃ (rs : List Redeclaration) (d : Diagnostic), d.severity = .error ∧
        (rs = [] ∨ ∃ text, fs.HoldsText step.before step.call.input text ∧
          rs = Element.redeclared [] (elements text)) ∧
        step.report.stderr = printedAll step.call.colored
          (rs.map (Redeclaration.diagnostic step.call.input) ++ [d])
  /-- A run that succeeds warns of each redeclaration, and prints the program or puts it into the
  output file, whatever was in there. -/
  succeeded : step.report.status = .exit 0 →
    ∀ text a, fs.HoldsText step.before step.call.input text → Assembly.ofText text = .ok a →
      step.report.stderr = printedAll step.call.colored
        ((Element.redeclared [] (elements text)).map
          (Redeclaration.diagnostic step.call.input)) ∧
      (step.call.output = standardOutput → step.after = step.before ∧
        step.report.stdout = a.text step.call.debugComments ++ "\n") ∧
      (step.call.output ≠ standardOutput → ∃ f, fs.target step.before step.call.output = .ok f ∧
        fs.content step.after f = some (Text.Utf8.encode (a.text step.call.debugComments)) ∧
        ∀ g, g ≠ f → fs.content step.after g = fs.content step.before g)

private theorem Ran.safe {report : Report} {t : σ} (h : fs.Ran call s report t) :
    fs.Safe ⟨call, s, report, t⟩ := by
  cases h with
  | @refused d hd h =>
    refine ⟨⟨nofun, ?_⟩, fun _ ↦ ⟨rfl, rfl, rfl, [], d, hd, .inl rfl, ?_⟩, nofun⟩
    · rintro ⟨⟨text, a, ht, ha⟩, _⟩
      exact absurd ha (h text ht a)
    · exact (printedAll_concat call.colored [] d).symm
  | @shown text a ht ha ho =>
    refine ⟨⟨fun _ ↦ ⟨⟨text, a, ht, ha⟩, .inl ho⟩, fun _ ↦ rfl⟩, fun hs ↦ absurd rfl hs, ?_⟩
    intro _ text' a' ht' ha'
    cases ht.unique ht'
    rw [ha] at ha'
    cases ha'
    exact ⟨warnings_of_ofText ha _ _, fun _ ↦ ⟨rfl, rfl⟩, fun hne ↦ absurd ho hne⟩
  | @unwritable text a e ht ha ho hw =>
    refine ⟨⟨nofun, ?_⟩, fun _ ↦ ⟨rfl, rfl, rfl, _, writeFailure call.output e, rfl,
      .inr ⟨text, ht, rfl⟩, ?_⟩, nofun⟩
    · rintro ⟨_, hstd | ⟨f, hf⟩⟩
      · exact absurd hstd ho
      · rw [hw] at hf
        cases hf
    · rw [printedAll_concat, ← warnings_of_ofText ha]
  | @saved text a f t ht ha ho hw hf hg =>
    refine ⟨⟨fun _ ↦ ⟨⟨text, a, ht, ha⟩, .inr ⟨f, hw⟩⟩, fun _ ↦ rfl⟩, fun hs ↦ absurd rfl hs, ?_⟩
    intro _ text' a' ht' ha'
    cases ht.unique ht'
    rw [ha] at ha'
    cases ha'
    exact ⟨warnings_of_ofText ha _ _, fun hstd ↦ absurd hstd ho, fun _ ↦ ⟨f, hw, hf, hg⟩⟩

private theorem safe_run (fs : FileSystem σ) (call : Call) (s : σ) : fs.Safe (fs.run call s) :=
  (fs.ran call s).safe

end FileSystem

/-- Runs of the command never damage files. Each of them succeeds or changes nothing, and after all
of them a file is as it was before, or it holds the whole program that one of them has put there. -/
theorem command_never_damages_files {σ : Type} (fs : FileSystem σ) (s : σ) (calls : List Call) :
    (∀ step ∈ fs.runAll s calls, fs.Safe step) ∧
    ∀ f, fs.content (fs.filesAfter s calls) f = fs.content s f ∨
      ∃ step ∈ fs.runAll s calls, step.report.status = .exit 0 ∧
        fs.target step.before step.call.output = .ok f ∧
        ∃ text a, fs.HoldsText step.before step.call.input text ∧ Assembly.ofText text = .ok a ∧
          fs.content (fs.filesAfter s calls) f =
            some (Text.Utf8.encode (a.text step.call.debugComments)) := by
  refine ⟨fun step h ↦ ?_, fs.content_filesAfter s calls⟩
  rw [FileSystem.eq_run_of_mem_runAll h]
  exact fs.safe_run step.call step.before

/-- A call that puts a program where it was read. -/
def Call.inPlace : Call where
  words := ["-i", "p", "-o", "p"]
  colored := false
  input := "p"
  output := "p"
  debugComments := false
  ofWords_eq := by decide +kernel
  nul_not_mem_input := by decide
  nul_not_mem_output := by decide

/-- A store with one file. -/
def FileStore.single (text : String) : FileStore :=
  ⟨[(Location.working.child "p", .file (Text.Utf8.encode text))]⟩

/-- The output may be the input: the program that was read is replaced as a whole. -/
theorem command_never_damages_files_in_place :
    let step := FileStore.fileSystem.run .inPlace (.single "x:\nx:\njump x always\n")
    step.report.status = .exit 0 ∧
      step.report.stderr = "p:2: warning: label x redeclared; the later one wins\n" ∧
      step.after.content (Location.working.child "p") =
        some (Text.Utf8.encode "jump 0 always\n") := by
  intro step
  have hsafe := (command_never_damages_files FileStore.fileSystem
    (.single "x:\nx:\njump x always\n") [.inPlace]).1 step List.mem_cons_self
  have hsource : (FileStore.single "x:\nx:\njump x always\n").source "p" =
      .ok (Location.working.child "p") := by decide +kernel
  have htarget : (FileStore.single "x:\nx:\njump x always\n").target "p" =
      .ok (Location.working.child "p") := by decide +kernel
  have hunified : Text.unifyLineEnds "x:\nx:\njump x always\n".toList =
      "x:\nx:\njump x always\n".toList :=
    Text.unifyLineEnds_of_not_mem (by decide)
  have htext : FileStore.fileSystem.HoldsText step.before step.call.input
      "x:\nx:\njump x always\n" := by
    refine ⟨_, _, hsource, rfl, ?_⟩
    rw [hunified, String.ofList_toList]
  have hassembled : (Assembly.ofText "x:\nx:\njump x always\n").map (Assembly.text false) =
      .ok "jump 0 always\n" := by decide +kernel
  obtain ⟨a, ha, hcode⟩ := exists_of_map_eq_ok hassembled
  have hstatus := hsafe.status_iff.mpr ⟨⟨_, a, htext, ha⟩, .inr ⟨_, htarget⟩⟩
  obtain ⟨hstderr, _, hsaved⟩ := hsafe.succeeded hstatus _ a htext ha
  obtain ⟨f, hf, hcontent, _⟩ := hsaved (by decide)
  refine ⟨hstatus, hstderr.trans (by decide +kernel), ?_⟩
  cases htarget.symm.trans hf
  exact hcontent.trans (congrArg (some <| Text.Utf8.encode ·) hcode)

end MlogAsm.Command
