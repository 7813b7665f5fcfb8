import Lindenmayer.CommandLine.Run

/-! How the command line ends. Nothing is printed and no file is touched before all that can fail is
done, so that it prints the names, prints a word or writes one file, or else has done nothing. -/
namespace Lindenmayer.CommandLine
variable {δ : Type} [FileStore δ]

namespace Arguments

/-- The presets that are worked on: those that are always there, or those of a file that is read and
decoded. -/
inductive Loads (a : Arguments) (files : δ) : Keyed Preset → Prop where
  | builtin : a.presets? = none → Loads a files Preset.builtin
  | file {path text : String} {presets : Keyed Preset} :
      a.presets? = some path → FileStore.read files path = .ok text →
      Preset.load text = .ok presets → Loads a files presets

/-- The preset that is named, the system that it builds, and the word produced for it. -/
structure Produces (a : Arguments) (presets : Keyed Preset) (fresh : ChaCha) (name : String)
    (p : Preset) (s : System) (w : Word) : Prop where
  named : a.name? = some name
  preset : presets.find? (Word.ofString name) = some p
  system : p.system.build = .ok s
  word : ∃ rest, s.produce (a.plan p) (a.source fresh) = .ok (w, rest)

/-- The run that draws a word of a preset. -/
def drawing (a : Arguments) (p : Preset) (s : System) (w : Word) (decorations : List Decoration) :
    Run Canvas :=
  s.interpreter.run (decorations.map Decoration.hook) (a.plan p).pose w p.style.canvas

/-- What is done when nothing fails, as the text that is printed and the files afterwards. The names of
the presets are printed, or the word that is produced, or nothing, and then one file is written: the
picture of the run of the whole word. -/
inductive Does (a : Arguments) (presets : Keyed Preset) (fresh : ChaCha) (files : δ) :
    String → δ → Prop where
  | names : a.list = true →
      Does a presets fresh files (String.join (presets.map fun e => e.1.text ++ "\n")) files
  | word {name : String} {p : Preset} {s : System} {w : Word} :
      a.list = false → a.print = true → a.Produces presets fresh name p s w →
      Does a presets fresh files (w.text ++ "\n") files
  | file {name : String} {p : Preset} {s : System} {w : Word} {decorations : List Decoration}
      {cursor : Cursor} {after : δ} :
      a.list = false → a.print = false → a.Produces presets fresh name p s w →
      p.draw.build = .ok decorations → (a.drawing p s w decorations).result = .ok cursor →
      FileStore.write files (join (a.output?.getD ".") (name ++ ".svg"))
        (Svg.render p.style.layout (a.drawing p s w decorations).turtle.surface.picture) =
          .ok after →
      Does a presets fresh files "" after

end Arguments

/-- What becomes of a response on a store of files. -/
def Response.settle (files : δ) : Response → Outcome × δ
  | .done outcome => (outcome, files)
  | .write path text warnings =>
    match FileStore.write files path text with
    | .error reason => (written path warnings (.error reason), files)
    | .ok files => (written path warnings (.ok ()), files)

theorem execute_work {args : List String} {a : Arguments}
    (h : Arguments.parse? args = some (.work a)) (fresh : ChaCha) (files : δ) :
    execute args fresh files =
      (a.respond (FileStore.read files (a.presets?.getD "")) fresh).settle files := by
  unfold execute
  rw [h]
  rfl

/-- The run has failed, has printed nothing and has left the files as they were. -/
def Fruitless (files : δ) (result : Outcome × δ) : Prop :=
  result.1.code ≠ 0 ∧ result.1.stdout = "" ∧ result.2 = files

theorem fruitless_failure (files : δ) (warnings line : String) :
    Fruitless files ((failure warnings line).settle files) :=
  ⟨Nat.one_ne_zero, rfl, rfl⟩

namespace Arguments
variable {a : Arguments} {presets : Keyed Preset} {fresh : ChaCha} {files after : δ} {text : String}

/-- A drawing is that of the word that is produced. -/
private theorem draw_of_produce {p : Preset} {s : System} {w : Word} {rest : ChaCha}
    (h : s.produce (a.plan p) (a.source fresh) = .ok (w, rest)) (decorations : List Decoration) :
    s.draw (a.plan p) (decorations.map Decoration.hook) p.style.canvas (a.source fresh) =
      ((a.drawing p s w decorations).result, (a.drawing p s w decorations).turtle.surface) := by
  simp only [System.draw, h, drawing]

/-- The work on a preset that is there is done, or it was fruitless. -/
private theorem does_present {name : String} {p : Preset} (hl : a.list = false)
    (hn : a.name? = some name) (hp : presets.find? (Word.ofString name) = some p) :
    let result := (a.present name p fresh).settle files
    Fruitless files result ∨
      result.1.code = 0 ∧ a.Does presets fresh files result.1.stdout result.2 := by
  have hfail (warnings : String) (f : Fault) : Fruitless files ((faulty warnings f).settle files) :=
    fruitless_failure files warnings _
  cases hs : p.system.build with
  | error f =>
    simp only [present, hs]
    exact .inl (hfail _ f)
  | ok s =>
    cases hprint : a.print with
    | true =>
      cases hw : s.produce (a.plan p) (a.source fresh) with
      | error f =>
        simp only [present, hs, hprint, if_true, hw]
        exact .inl (hfail _ f)
      | ok produced =>
        simp only [present, hs, hprint, if_true, hw]
        exact .inr ⟨rfl, .word hl hprint ⟨hn, hp, hs, produced.2, hw⟩⟩
    | false =>
      cases hd : p.draw.build with
      | error f =>
        simp only [present, hs, hprint, Bool.false_eq_true, if_false, hd]
        exact .inl (hfail _ f)
      | ok decorations =>
        cases hw : s.produce (a.plan p) (a.source fresh) with
        | error f =>
          simp only [present, hs, hprint, Bool.false_eq_true, if_false, hd, System.draw, hw]
          exact .inl (hfail _ f)
        | ok produced =>
          obtain ⟨w, rest⟩ := produced
          simp only [present, hs, hprint, Bool.false_eq_true, if_false, hd, draw_of_produce hw]
          cases hr : (a.drawing p s w decorations).result with
          | error f => exact .inl (hfail _ f)
          | ok cursor =>
            simp only [Response.settle]
            split
            · exact .inl ⟨Nat.one_ne_zero, rfl, rfl⟩
            · exact .inr ⟨rfl, .file hl hprint ⟨hn, hp, hs, rest, hw⟩ hd hr ‹_›⟩

/-- The work on presets is done, or it was fruitless. -/
private theorem does_choose :
    let result := (a.choose presets fresh).settle files
    Fruitless files result ∨
      result.1.code = 0 ∧ a.Does presets fresh files result.1.stdout result.2 := by
  unfold choose
  cases hl : a.list with
  | true => exact .inr ⟨rfl, .names hl⟩
  | false =>
    cases hn : a.name? with
    | none => exact .inl (fruitless_failure files _ _)
    | some name =>
      simp only [Bool.false_eq_true, if_false]
      cases hp : presets.find? (Word.ofString name) with
      | none => exact .inl (fruitless_failure files _ _)
      | some p => exact does_present hl hn hp

/-- What is to be done is what becomes of the work on presets. -/
private theorem Does.settle_choose (h : a.Does presets fresh files text after) :
    ∃ stderr, (a.choose presets fresh).settle files = (⟨0, text, stderr⟩, after) := by
  cases h with
  | names hl =>
    simp only [choose, hl, if_true]
    exact ⟨"", rfl⟩
  | word hl hprint h =>
    obtain ⟨rest, hw⟩ := h.word
    simp only [choose, hl, Bool.false_eq_true, if_false, h.named, h.preset, present, h.system, hprint,
      if_true, hw]
    exact ⟨_, rfl⟩
  | file hl hprint h hd hr hwrite =>
    obtain ⟨rest, hw⟩ := h.word
    simp only [choose, hl, Bool.false_eq_true, if_false, h.named, h.preset, present, h.system, hprint,
      hd, draw_of_produce hw, hr, Response.settle, hwrite]
    exact ⟨_, rfl⟩

/-- The response is about the presets that are worked on. -/
private theorem Loads.respond_eq (h : a.Loads files presets) :
    a.respond (FileStore.read files (a.presets?.getD "")) fresh = a.choose presets fresh := by
  cases h with
  | builtin hn => simp only [respond, hn]
  | file hpath hread hload => simp only [respond, hpath, Option.getD_some, hread, hload]

/-- Without presets to work on the response is a failure. -/
private theorem exists_loads_or_fails (a : Arguments) (fresh : ChaCha) (files : δ) :
    (∃ presets, a.Loads files presets) ∨
      ∃ line, a.respond (FileStore.read files (a.presets?.getD "")) fresh = failure "" line := by
  cases hpath : a.presets? with
  | none => exact .inl ⟨_, .builtin hpath⟩
  | some path =>
    cases hread : FileStore.read files path with
    | error reason =>
      exact .inr ⟨_, by simp only [respond, hpath, Option.getD_some, hread]; rfl⟩
    | ok text =>
      cases hload : Preset.load text with
      | error f =>
        exact .inr ⟨_, by simp only [respond, hpath, Option.getD_some, hread, hload]; rfl⟩
      | ok presets => exact .inl ⟨presets, .file hpath hread hload⟩

end Arguments

/-- The command line does all or nothing. Take any arguments but those that ask for help or the version,
any source of random words, and any store of files. A run that leaves with a failure has printed nothing on the
standard output, and the files are as they were. A run leaves with 0, a text printed and the files in
some state exactly when the arguments are understood, the presets are read and decoded, and this is what
the arguments ask for: the names of the presets and no other files, the word that is produced and no
other files, or no text and one file written with the picture of the run of the whole word. -/
theorem execute_all_or_nothing {args : List String}
    (h : ∀ n, Arguments.parse? args ≠ some (.notice n)) (fresh : ChaCha) (files : δ) :
    let result := execute args fresh files
    (result.1.code ≠ 0 → result.1.stdout = "" ∧ result.2 = files) ∧
      ∀ text after, result.1.code = 0 ∧ result.1.stdout = text ∧ result.2 = after ↔
        ∃ a presets, Arguments.parse? args = some (.work a) ∧ a.Loads files presets ∧
          a.Does presets fresh files text after := by
  intro result
  have hcases : Fruitless files result ∨ ∃ a presets, Arguments.parse? args = some (.work a) ∧
      a.Loads files presets ∧ result.1.code = 0 ∧
        a.Does presets fresh files result.1.stdout result.2 := by
    match hargs : Arguments.parse? args with
    | none =>
      refine .inl ⟨?_, ?_, ?_⟩ <;> simp [result, execute, hargs, refused]
    | some (.notice n) => exact absurd hargs (h n)
    | some (.work a) =>
      have hresult : result = _ := execute_work hargs fresh files
      obtain ⟨presets, hl⟩ | ⟨line, hf⟩ := a.exists_loads_or_fails fresh files
      · rw [hl.respond_eq] at hresult
        rw [hresult]
        exact Arguments.does_choose.imp_right fun hd => ⟨a, presets, rfl, hl, hd⟩
      · rw [hf] at hresult
        rw [hresult]
        exact .inl (fruitless_failure files _ _)
  refine ⟨fun hc => ?_, fun text after => ⟨?_, ?_⟩⟩
  · obtain ⟨-, hnothing⟩ | ⟨a, presets, -, -, hzero, -⟩ := hcases
    · exact hnothing
    · exact absurd hzero hc
  · rintro ⟨hzero, rfl, rfl⟩
    obtain ⟨hc, -⟩ | ⟨a, presets, hargs, hl, -, hd⟩ := hcases
    · exact absurd hzero hc
    · exact ⟨a, presets, hargs, hl, hd⟩
  · rintro ⟨a, presets, hargs, hl, hd⟩
    obtain ⟨stderr, hs⟩ := hd.settle_choose
    have hresult : result = (⟨0, text, stderr⟩, after) := by
      rw [← hs, ← hl.respond_eq]
      exact execute_work hargs fresh files
    rw [hresult]
    exact ⟨rfl, rfl, rfl⟩

/-- A file of two presets: one can be drawn, and one takes back a state that was not saved. -/
theorem execute_all_or_nothing_underflow :
    let text := "\x7b\"bad\":[[\"F]F\",\x7b\x7d,90],[0]],\"dot\":[[\"F\",\x7b\x7d,90],[0]]\x7d"
    let disk : Disk := ⟨[(["mine.json"], text)], [], []⟩
    let args (name : String) := [name, "--presets", "mine.json"]
    let result (name : String) := execute (args name) (.ofSeed 7) disk
    (∀ name ∈ ["dot", "bad"], ∀ n, Arguments.parse? (args name) ≠ some (.notice n)) ∧
      ((result "bad").1.code ≠ 0 ∧ (result "bad").1.stdout = "" ∧ (result "bad").2 = disk) ∧
      (result "dot").2.files.map (·.1) = [["dot.svg"], ["mine.json"]] ∧
      ∃ (a : Arguments) (presets : Keyed Preset), a.Loads disk presets ∧
        a.Does presets (.ofSeed 7) disk "" (result "dot").2 := by
  intro text disk args result
  have hargs : ∀ name ∈ ["dot", "bad"], ∀ n, Arguments.parse? (args name) ≠ some (.notice n) := by
    rintro name hname (_ | _) <;> revert name <;> decide +kernel
  have hbad : (result "bad").1.code ≠ 0 := by decide +kernel
  have hdot : (result "dot").1.code = 0 ∧ (result "dot").1.stdout = "" ∧
      (result "dot").2.files.map (·.1) = [["dot.svg"], ["mine.json"]] := by decide +kernel
  obtain ⟨a, presets, -, hl, hd⟩ := ((execute_all_or_nothing (hargs "dot" (by simp)) (.ofSeed 7)
    disk).2 "" (result "dot").2).mp ⟨hdot.1, hdot.2.1, rfl⟩
  exact ⟨hargs, ⟨hbad, (execute_all_or_nothing (hargs "bad" (by simp)) (.ofSeed 7) disk).1 hbad⟩,
    hdot.2.2, a, presets, hl, hd⟩

end Lindenmayer.CommandLine
