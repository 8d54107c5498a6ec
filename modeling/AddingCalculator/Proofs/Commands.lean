import AddingCalculator.CommandLine.Request
import AddingCalculator.Proofs.Execution
import AddingCalculator.Proofs.Files

namespace AddingCalculator

namespace Program

structure TabulatedBy (p : Program) (entries : List (Char × DataType)) : Prop where
  increasing : entries.Pairwise fun x y => x.1 < y.1
  mem : ∀ name type, (name, type) ∈ entries ↔ ∃ x ∈ p.declarations, x.target.letter = name ∧ x.type = type

theorem tabulatedBy_entries {p : Program} {a : Analysis} (h : p.store.analyse = .ok a) : p.TabulatedBy a.table.entries := by
  obtain ⟨hf, -, -, t, hpasses⟩ := passes_of_analyse h
  refine ⟨a.table.types.sorted, fun name type => ?_⟩
  rw [SymbolTable.entries, SortedMap.mem_entries_iff, hpasses.types, typeOf?_eq_some hf]

end Program

namespace CommandLine

theorem toUTF8_of_fromUTF8? {bytes : ByteArray} {text : String} (h : String.fromUTF8? bytes = some text) :
    text.toUTF8 = bytes := by
  unfold String.fromUTF8? at h
  split at h
  · cases h
    rfl
  · cases h

def NoText (content : Except FileError ByteArray) (e : FileError) : Prop :=
  content = .error e ∨ e = .notText ∧ ∃ bytes, content = .ok bytes ∧ ∀ text : String, text.toUTF8 ≠ bytes

theorem decode_text (text : String) : decode (.ok text.toUTF8) = .ok text := by
  have hvalid : String.fromUTF8? text.toUTF8 = some text := dif_pos text.isValidUTF8
  simp only [decode, hvalid]

theorem NoText.decode {content : Except FileError ByteArray} {e : FileError} (h : NoText content e) :
    decode content = .error (.file e) := by
  rcases h with rfl | ⟨rfl, bytes, rfl, h⟩
  · rfl
  · have hnone : String.fromUTF8? bytes = none :=
      dif_neg fun hvalid => h (String.fromUTF8 bytes hvalid) rfl
    simp only [CommandLine.decode, hnone]

theorem analyseFile_text (text : String) : analyseFile (.ok text.toUTF8) = parse text >>= Store.analyse := by
  unfold analyseFile
  rw [decode_text]
  rfl

theorem NoText.analyseFile {content : Except FileError ByteArray} {e : FileError} (h : NoText content e) :
    analyseFile content = .error (.file e) := by
  unfold CommandLine.analyseFile
  rw [h.decode]
  rfl

theorem compile_eq_analyseFile (source : String) :
    compile source = analyseFile (.ok source.toUTF8) >>= fun a => a.store.code := by
  rw [analyseFile_text, bind_assoc]
  rfl

structure Report.Fails (report : Report) (e : Diagnostic) : Prop where
  exit : report.exit = 1
  stdout : report.stdout = ""
  stderr : ∃ noted, report.stderr = noted ++ "Error: " ++ e.message ++ "\n"

theorem Report.fails_failure (e : Diagnostic) (noted : String) : (failure e "" noted).Fails e :=
  ⟨rfl, rfl, noted, rfl⟩

open FileSystem (Written WritesWhole)

variable {σ : Type} [FileSystem σ] {s : σ} {log : Log}

namespace CompileRequest

def delivery (r : CompileRequest) (code : Code) : String :=
  String.intercalate r.separator (code.map Instruction.text) ++ "\n"

def shown (r : CompileRequest) (a : Analysis) : String :=
  if r.showTree then treeHeading ++ a.store.display else ""

variable {r : CompileRequest}

theorem run_eq (htarget : r.target = "dc") :
    r.run log = .read r.input fun content =>
      match analyseFile content with
      | .error e => .done (.failure e "" (log.around ""))
      | .ok a =>
        match a.store.code with
        | .error e => .done (.failure e "" (log.around (r.shown a)))
        | .ok code => r.deliver (r.delivery code) (log.around (r.shown a)) := by
  have hname : Target.ofName r.target = .ok .dc := by
    rw [htarget]
    rfl
  unfold run
  rw [hname]
  rfl

theorem runOn_of_analyse_error (htarget : r.target = "dc") {e : Diagnostic}
    (h : analyseFile (FileSystem.read s r.input) = .error e) :
    (r.run log).runOn s = (.failure e "" (log.around ""), s) := by
  rw [run_eq htarget, Interaction.runOn, h]
  rfl

theorem runOn_of_code_error (htarget : r.target = "dc") {a : Analysis} {e : Diagnostic}
    (h : analyseFile (FileSystem.read s r.input) = .ok a) (hcode : a.store.code = .error e) :
    (r.run log).runOn s = (.failure e "" (log.around (r.shown a)), s) := by
  rw [run_eq htarget, Interaction.runOn, h]
  dsimp only
  rw [hcode]
  rfl

theorem runOn_of_code (htarget : r.target = "dc") {a : Analysis} {code : Code}
    (h : analyseFile (FileSystem.read s r.input) = .ok a) (hcode : a.store.code = .ok code) :
    (r.run log).runOn s = (r.deliver (r.delivery code) (log.around (r.shown a))).runOn s := by
  rw [run_eq htarget, Interaction.runOn, h]
  dsimp only
  rw [hcode]

def Refuses (r : CompileRequest) (s : σ) (e : Diagnostic) : Prop :=
  (∃ f, e = .file f ∧ NoText (FileSystem.read s r.input) f) ∨
    ∃ source : String, FileSystem.read s r.input = .ok source.toUTF8 ∧ compile source = .error e

def Yields (r : CompileRequest) (s : σ) (code : Code) : Prop :=
  ∃ source : String, FileSystem.read s r.input = .ok source.toUTF8 ∧ compile source = .ok code

theorem refuses_or_yields (r : CompileRequest) (s : σ) : (∃ e, r.Refuses s e) ∨ ∃ code, r.Yields s code := by
  cases hread : FileSystem.read s r.input with
  | error f => exact .inl ⟨.file f, .inl ⟨f, rfl, .inl hread⟩⟩
  | ok bytes =>
    by_cases htext : ∃ source : String, source.toUTF8 = bytes
    · obtain ⟨source, rfl⟩ := htext
      cases hcode : compile source with
      | error e => exact .inl ⟨e, .inr ⟨source, hread, hcode⟩⟩
      | ok code => exact .inr ⟨code, source, hread, hcode⟩
    · exact .inl ⟨.file .notText, .inl ⟨.notText, rfl, .inr ⟨rfl, bytes, hread, not_exists.mp htext⟩⟩⟩

theorem Refuses.runOn {e : Diagnostic} (h : r.Refuses s e) (htarget : r.target = "dc") :
    ∃ noted, (r.run log).runOn s = (.failure e "" noted, s) := by
  rcases h with ⟨f, rfl, h⟩ | ⟨source, hread, h⟩
  · exact ⟨_, runOn_of_analyse_error htarget h.analyseFile⟩
  · rw [compile_eq_analyseFile, ← hread] at h
    rcases bind_eq_error.mp h with h | ⟨a, ha, hcode⟩
    · exact ⟨_, runOn_of_analyse_error htarget h⟩
    · exact ⟨_, runOn_of_code_error htarget ha hcode⟩

theorem Yields.runOn {code : Code} (h : r.Yields s code) (htarget : r.target = "dc") :
    ∃ noted, (r.run log).runOn s = (r.deliver (r.delivery code) noted).runOn s := by
  obtain ⟨source, hread, h⟩ := h
  rw [compile_eq_analyseFile, ← hread] at h
  obtain ⟨a, ha, hcode⟩ := bind_eq_ok.mp h
  exact ⟨_, runOn_of_code htarget ha hcode⟩

theorem runOn_deliver_write {path : String} (houtput : r.output = some path) {text noted : String} {w : σ}
    (h : FileSystem.write s path text = (.ok (), w)) : (r.deliver text noted).runOn s = (⟨0, "", noted⟩, w) := by
  rw [deliver, houtput]
  dsimp only
  rw [Interaction.runOn, h]
  rfl

theorem runOn_deliver_error {path : String} (houtput : r.output = some path) {text noted : String} {e : FileError} {w : σ}
    (h : FileSystem.write s path text = (.error e, w)) :
    (r.deliver text noted).runOn s = (.failure (.file e) "" noted, w) := by
  rw [deliver, houtput]
  dsimp only
  rw [Interaction.runOn, h]
  rfl

/-- What a request leaves behind in place of `s`. If it fails, for whatever reason, the files stay as they are. -/
structure Delivers (r : CompileRequest) (s : σ) (report : Report) (after : σ) : Prop where
  refused : ∀ e, r.Refuses s e → report.Fails e ∧ after = s
  printed : ∀ code, r.Yields s code → r.output = none → report.exit = 0 ∧ report.stdout = r.delivery code ∧ after = s
  written : ∀ code path, r.Yields s code → r.output = some path → (FileSystem.write s path (r.delivery code)).1 = .ok () →
    report.exit = 0 ∧ report.stdout = "" ∧ Written s path (r.delivery code) after
  unopened : ∀ code path e, r.Yields s code → r.output = some path →
    (FileSystem.write s path (r.delivery code)).1 = .error e → report.Fails (.file e) ∧ after = s

theorem runOn_delivers (htarget : r.target = "dc") (hwhole : ∀ path ∈ r.output, WritesWhole s path) :
    r.Delivers s ((r.run log).runOn s).1 ((r.run log).runOn s).2 := by
  constructor
  · intro e h
    obtain ⟨noted, hrun⟩ := h.runOn htarget
    rw [hrun]
    exact ⟨Report.fails_failure _ _, rfl⟩
  · intro code h houtput
    obtain ⟨noted, hrun⟩ := h.runOn htarget
    rw [hrun, deliver, houtput]
    exact ⟨rfl, rfl, rfl⟩
  · intro code path h houtput hresult
    obtain ⟨noted, hrun⟩ := h.runOn htarget
    have hwrite : FileSystem.write s path (r.delivery code) = (.ok (), _) := Prod.ext hresult rfl
    rw [hrun, runOn_deliver_write houtput hwrite]
    exact ⟨rfl, rfl, (hwhole path houtput).completed _ _ hwrite⟩
  · intro code path e h houtput hresult
    obtain ⟨noted, hrun⟩ := h.runOn htarget
    have hwrite : FileSystem.write s path (r.delivery code) = (.error e, _) := Prod.ext hresult rfl
    rw [hrun, runOn_deliver_error houtput hwrite]
    exact ⟨Report.fails_failure _ _, (hwhole path houtput).unopened _ _ _ hwrite⟩

end CompileRequest

theorem compile_command_delivers (s : σ) (r : CompileRequest) (log : Log) (htarget : r.target = "dc")
    (hwhole : ∀ path ∈ r.output, WritesWhole s path) :
    ((∃ e, r.Refuses s e) ∨ ∃ code, r.Yields s code) ∧
      r.Delivers s (((Request.compile r).run log).runOn s).1 (((Request.compile r).run log).runOn s).2 :=
  ⟨r.refuses_or_yields s, CompileRequest.runOn_delivers htarget hwhole⟩

def sourceDirectory : Directory :=
  ⟨SortedMap.empty.insert "mixed" Program.mixedSource.toUTF8⟩

theorem sourceDirectory_names : sourceDirectory.Names "./mixed" "mixed" := by
  unfold Directory.Names
  decide +kernel

theorem sourceDirectory_writesWhole : WritesWhole sourceDirectory "./mixed" := by
  apply Directory.writesWhole
  rw [sourceDirectory_names]
  decide +kernel

-- The code is written over the program, which another path leads to.
def overwriting : CompileRequest :=
  ⟨"mixed", "dc", some "./mixed", true, ", "⟩

def recording : Log := ⟨"INFO compiling\n", "INFO written\n"⟩

theorem compile_command_delivers_overwriting : ∃ code, compile Program.mixedSource = .ok code ∧
    (((Request.compile overwriting).run recording).runOn sourceDirectory).1.exit = 0 ∧
    (((Request.compile overwriting).run recording).runOn sourceDirectory).1.stdout = "" ∧
    Written sourceDirectory "./mixed" (overwriting.delivery code)
      (((Request.compile overwriting).run recording).runOn sourceDirectory).2 := by
  obtain ⟨code, hcode, -⟩ := exists_of_toOption Program.compile_mixedSource
  have hwhole : ∀ path ∈ overwriting.output, WritesWhole sourceDirectory path := by
    rintro _ ⟨⟩
    exact sourceDirectory_writesWhole
  have hwrite : (FileSystem.write sourceDirectory "./mixed" (overwriting.delivery code)).1 = .ok () :=
    congrArg Prod.fst (sourceDirectory_names.write_eq _)
  obtain ⟨-, hdelivers⟩ := compile_command_delivers sourceDirectory overwriting recording rfl hwhole
  exact ⟨code, hcode, hdelivers.written code "./mixed" ⟨_, rfl, hcode⟩ rfl hwrite⟩

theorem decode_eq_ok {content : Except FileError ByteArray} {text : String} (h : decode content = .ok text) :
    content = .ok text.toUTF8 := by
  unfold decode at h
  split at h
  · cases h
  · split at h
    · rename_i bytes text' hbytes
      cases h
      rw [toUTF8_of_fromUTF8? hbytes]
    · cases h

theorem analyseFile_eq_ok {content : Except FileError ByteArray} {a : Analysis} (h : analyseFile content = .ok a) :
    ∃ source ts p, content = .ok source.toUTF8 ∧ Token.scan source = .ok ts ∧ Program.ofTokens ts = .ok p ∧
      p.store.analyse = .ok a := by
  obtain ⟨source, hsource, h⟩ := bind_eq_ok.mp h
  obtain ⟨s, hs, ha⟩ := bind_eq_ok.mp h
  obtain ⟨ts, p, hts, hp, rfl⟩ := parse_eq_ok.mp hs
  exact ⟨source, ts, p, decode_eq_ok hsource, hts, hp, ha⟩

theorem checkFile_of_error {content : Except FileError ByteArray} {e : Diagnostic} (h : analyseFile content = .error e) :
    checkFile log content = .failure e "" (log.around "") := by
  unfold checkFile
  rw [h]

theorem checkFile_of_ok {content : Except FileError ByteArray} {a : Analysis} (h : analyseFile content = .ok a) :
    checkFile log content = ⟨0, a.table.text, log.around ""⟩ := by
  unfold checkFile
  rw [h]

/-- A check of a text and its compilation succeed together and fail with the same line, behind what each has logged,
and the check lists what the text declares. -/
theorem check_predicts_compile (s : σ) (r : CompileRequest) (log log' : Log) (htarget : r.target = "dc")
    (houtput : r.output = none) :
    let checked := (((Request.check r.input).run log).runOn s).1
    let compiled := (((Request.compile r).run log').runOn s).1
    (checked.exit = 0 ↔ compiled.exit = 0) ∧
      (checked.exit ≠ 0 → ∃ e : Diagnostic, checked.stderr = log.around "" ++ "Error: " ++ e.message ++ "\n" ∧
        compiled.stderr = log'.around "" ++ "Error: " ++ e.message ++ "\n") ∧
      (checked.exit = 0 → ∃ source ts p entries, FileSystem.read s r.input = .ok source.toUTF8 ∧
        Token.scan source = .ok ts ∧ Grammar.Derives (ts ++ [Program.closingToken ts]) p ∧ p.TabulatedBy entries ∧
        checked.stdout = "<Symbol Table: " ++ toString entries.length ++ " entries>\n" ++
          String.join (entries.map fun x => "  " ++ String.singleton x.1 ++ " " ++ x.2.text ++ "\n")) := by
  have hcheck : (((Request.check r.input).run log).runOn s).1 = checkFile log (FileSystem.read s r.input) := rfl
  rw [hcheck, Request.run]
  cases h : analyseFile (FileSystem.read s r.input) with
  | error e =>
    rw [checkFile_of_error h, CompileRequest.runOn_of_analyse_error htarget h]
    exact ⟨Iff.rfl, fun _ => ⟨e, rfl, rfl⟩, nofun⟩
  | ok a =>
    obtain ⟨source, ts, p, hread, hts, hp, ha⟩ := analyseFile_eq_ok h
    obtain ⟨-, -, -, t, hpasses⟩ := Program.passes_of_analyse ha
    obtain ⟨code, hcode⟩ := hpasses.code_eq_ok
    rw [checkFile_of_ok h, CompileRequest.runOn_of_code htarget h hcode, CompileRequest.deliver, houtput]
    exact ⟨Iff.rfl, fun hexit => absurd rfl hexit, fun _ => ⟨source, ts, p, a.table.entries, hread, hts,
      Program.ofTokens_iff_derives.mp hp, Program.tabulatedBy_entries ha, rfl⟩⟩

def printing : CompileRequest :=
  { overwriting with output := none }

def missing : CompileRequest :=
  { printing with input := "missing" }

theorem check_predicts_compile_printing :
    (((Request.check "mixed").run recording).runOn sourceDirectory).1.stdout =
        "<Symbol Table: 2 entries>\n  a FLOAT\n  b INT\n" ∧
      (((Request.compile printing).run .silent).runOn sourceDirectory).1.exit = 0 ∧
      ∃ e : Diagnostic, (((Request.check "missing").run recording).runOn sourceDirectory).1.stderr =
          "INFO compiling\n" ++ "INFO written\n" ++ "Error: " ++ e.message ++ "\n" ∧
        (((Request.compile missing).run .silent).runOn sourceDirectory).1.stderr = "Error: " ++ e.message ++ "\n" := by
  have hanalyse : (parse Program.mixedSource >>= Store.analyse).toOption.map (·.table.text) =
      some "<Symbol Table: 2 entries>\n  a FLOAT\n  b INT\n" := by
    decide +kernel
  obtain ⟨a, ha, htext⟩ := exists_of_toOption hanalyse
  have hchecked : (((Request.check "mixed").run recording).runOn sourceDirectory).1 = ⟨0, a.table.text, recording.around ""⟩ :=
    checkFile_of_ok ((analyseFile_text _).trans ha)
  obtain ⟨hexit, -, -⟩ := check_predicts_compile sourceDirectory printing recording .silent rfl rfl
  obtain ⟨-, hfails, -⟩ := check_predicts_compile sourceDirectory missing recording .silent rfl rfl
  refine ⟨?_, hexit.mp ?_, hfails ?_⟩
  · rw [hchecked, htext]
  · exact congrArg Report.exit hchecked
  · decide +kernel

end CommandLine

end AddingCalculator
