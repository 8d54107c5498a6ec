import AddingCalculator.Proofs.Commands

/-!
# Code as one text

The calculator reads words, and an instruction may be several of them. Joined by blanks, whatever blanks and however
many, the instructions of a program have the same words as one by one, so the text that a command delivers runs as
the code does.
-/

namespace AddingCalculator

theorem words_blanks_append {gap : List Char} (h : ∀ c ∈ gap, isBlank c = true) (cs : List Char) :
    words (gap ++ cs) = words cs := by
  induction gap with
  | nil => rfl
  | cons c gap ih =>
    obtain ⟨hc, hgap⟩ := List.forall_mem_cons.mp h
    have hcons := words_append [] (gap ++ cs) hc
    rw [List.nil_append] at hcons
    rw [List.cons_append, hcons, ih hgap]
    rfl

theorem words_append_blanks {gap : List Char} (hne : gap ≠ []) (h : ∀ c ∈ gap, isBlank c = true) (cs ds : List Char) :
    words (cs ++ gap ++ ds) = words cs ++ words ds := by
  obtain ⟨c, gap, rfl⟩ := List.exists_cons_of_ne_nil hne
  obtain ⟨hc, hgap⟩ := List.forall_mem_cons.mp h
  rw [List.append_assoc, List.cons_append, words_append _ _ hc, words_blanks_append hgap]

theorem words_intercalate {gap : List Char} (hne : gap ≠ []) (h : ∀ c ∈ gap, isBlank c = true) (lines : List (List Char)) :
    words (gap.intercalate lines) = lines.flatMap words := by
  induction lines with
  | nil => rfl
  | cons line lines ih =>
    cases lines with
    | nil => simp
    | cons next lines =>
      rw [List.intercalate_cons_cons, words_append_blanks hne h, ih]
      rfl

namespace CommandLine

open FileSystem (Written WritesWhole)

theorem words_render {separator : String} (hne : separator ≠ "") (h : ∀ c ∈ separator.toList, isBlank c = true) (code : Code) :
    words (render separator code).toList = (code.map Instruction.text).flatMap fun line => words line.toList := by
  have hgap : separator.toList ≠ [] := fun hnil => hne (String.toList_inj.mp hnil)
  have hbreak : ("\n" : String).toList = '\n' :: [] := rfl
  rw [render, String.toList_append, hbreak, words_append _ _ rfl, String.toList_intercalate, words_intercalate hgap h,
    List.flatMap_map]
  exact List.append_nil _

theorem run_render {α : Type} [Arithmetic α] {separator : String} (hne : separator ≠ "")
    (h : ∀ c ∈ separator.toList, isBlank c = true) (code : Code) :
    (Machine.run [render separator code] : Except Fault (Machine α)) = Machine.run (code.map Instruction.text) := by
  rw [Machine.run, List.flatMap_singleton, words_render hne h, Machine.run]

theorem joined_code_runs (source separator : String) (code : Code) (h : compile source = .ok code) (hne : separator ≠ "")
    (hblank : ∀ c ∈ separator.toList, isBlank c = true) :
    (Machine.run [render separator code] : Except Fault (Machine Binary64)) = Machine.run (code.map Instruction.text) ∧
      ∀ (σ : Type) [FileSystem σ] (s : σ) (r : CompileRequest) (log : Log), r.target = "dc" → r.separator = separator →
        FileSystem.read s r.input = .ok source.toUTF8 →
        (r.output = none → (((Request.compile r).run log).runOn s).1.stdout = render separator code) ∧
          ∀ path, r.output = some path → WritesWhole s path → (FileSystem.write s path (render separator code)).1 = .ok () →
            Written s path (render separator code) (((Request.compile r).run log).runOn s).2 := by
  refine ⟨run_render hne hblank code, ?_⟩
  rintro σ _ s r log htarget rfl hread
  constructor
  · intro houtput
    have hdelivers : r.Delivers s ((r.run log).runOn s).1 ((r.run log).runOn s).2 :=
      CompileRequest.runOn_delivers htarget (by simp [houtput])
    exact (hdelivers.printed code ⟨source, hread, h⟩ houtput).2.1
  · intro path houtput hwhole hwrite
    have hdelivers : r.Delivers s ((r.run log).runOn s).1 ((r.run log).runOn s).2 :=
      CompileRequest.runOn_delivers htarget (by simpa [houtput] using hwhole)
    exact (hdelivers.written code path ⟨source, hread, h⟩ houtput hwrite).2.2

-- Three blanks, one of which is not of one byte.
def wideSeparator : String := "\t\u3000 "

def spaced (r : CompileRequest) : CompileRequest :=
  { r with separator := wideSeparator }

theorem joined_code_runs_wideSeparator : ∃ code, compile Program.mixedSource = .ok code ∧
    (∀ c ∈ wideSeparator.toList, isBlank c = true) ∧
    (Machine.run [render wideSeparator code] : Except Fault (Machine Binary64)) = Machine.run (code.map Instruction.text) ∧
    (((Request.compile (spaced printing)).run recording).runOn sourceDirectory).1.stdout = render wideSeparator code ∧
    Written sourceDirectory "./mixed" (render wideSeparator code)
      (((Request.compile (spaced overwriting)).run recording).runOn sourceDirectory).2 := by
  obtain ⟨code, hcode, -⟩ := exists_of_toOption Program.compile_mixedSource
  have hall : wideSeparator.toList.all isBlank = true := by decide +kernel
  have hblank := List.all_eq_true.mp hall
  have hwrite : (FileSystem.write sourceDirectory "./mixed" (render wideSeparator code)).1 = .ok () :=
    congrArg Prod.fst (sourceDirectory_names.write_eq _)
  obtain ⟨hruns, hdelivers⟩ := joined_code_runs _ _ code hcode (by decide) hblank
  refine ⟨code, hcode, hblank, hruns, ?_, ?_⟩
  · exact (hdelivers Directory sourceDirectory (spaced printing) recording rfl rfl rfl).1 rfl
  · exact (hdelivers Directory sourceDirectory (spaced overwriting) recording rfl rfl rfl).2 "./mixed" rfl
      sourceDirectory_writesWhole hwrite

end CommandLine

end AddingCalculator
