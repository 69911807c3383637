import Formulary.Main
import Formulary.Proofs.Octets
import Formulary.Proofs.Sessions
import Mathlib.Data.List.Forall2

/-! Runs of the command line over a text. All statements of the text are shown, or a fault and nothing
else; a file that holds the text is read as the text is, and a file that holds no text at all is the one
thing that nothing reports. -/
namespace Formulary

/-! Arguments. -/

namespace Argument

theorem ofText_plain {text : String} (plain : text.toList.head? ≠ some '-') :
    ofText text = .ok (.plain text) := by
  unfold ofText
  cases same : text.toList with
  | nil => rfl
  | cons c cs =>
    rw [same] at plain
    dsimp only
    split <;> simp_all

theorem ofTexts_cons (read : ofText text = .ok argument) (other : text ≠ "--")
    (later : ofTexts texts = .ok arguments) : ofTexts (text :: texts) = .ok (argument :: arguments) := by
  rw [ofTexts, if_neg other, read, later]
  rfl

end Argument

/-- The option for outlines, written any number of times. -/
def trees (n : Nat) : List String := List.replicate n "--tree"

def treeOptions (n : Nat) : List Argument := List.replicate n (.option .tree false none)

theorem Argument.ofTexts_trees (later : ofTexts texts = .ok arguments) (n : Nat) :
    ofTexts (trees n ++ texts) = .ok (treeOptions n ++ arguments) := by
  induction n with
  | zero => exact later
  | succ n ih => exact ofTexts_cons rfl (by decide) ih

namespace Progress

/-- A script name that is found stays found. -/
def Keeps (script script' : Script) : Prop :=
  script'.name? = script.name? ∧ (script = .pending → script' = .pending)

theorem pass_eq (p : Progress) : ∃ script, Keeps p.script script ∧ p.pass = { p with script } := by
  obtain ⟨script, expression, tree, verbose, extras⟩ := p
  cases script with
  | pending => exact ⟨_, ⟨rfl, id⟩, rfl⟩
  | last name => exact ⟨.earlier name, ⟨rfl, nofun⟩, rfl⟩
  | earlier name => exact ⟨_, ⟨rfl, id⟩, rfl⟩

theorem run_trees (p : Progress) (n : Nat) (rest : List Argument) : ∃ script, Keeps p.script script ∧
    p.run (treeOptions n ++ rest) = { p with script, tree := p.tree || decide (0 < n) }.run rest := by
  induction n generalizing p with
  | zero => exact ⟨p.script, ⟨rfl, id⟩, by simp [treeOptions]⟩
  | succ n ih =>
    obtain ⟨script, kept, passed⟩ := p.pass_eq
    obtain ⟨script', kept', same⟩ := ih { p.pass with tree := true }
    rw [passed] at kept' same
    refine ⟨script', ⟨kept'.1.trans kept.1, fun none => kept'.2 (kept.2 none)⟩, ?_⟩
    have step : p.run (treeOptions (n + 1) ++ rest) =
        { p.pass with tree := true }.run (treeOptions n ++ rest) := rfl
    rw [step, passed, same]
    simp

/-- All arguments have been taken when the outlines have been asked for. -/
theorem run_last_trees (p : Progress) (n : Nat) (none : p.extras = []) : ∃ script,
    Keeps p.script script ∧ p.run (treeOptions n) =
      .ok ⟨{ p with script }.source, p.tree || decide (0 < n), p.verbose⟩ := by
  obtain ⟨script, kept, same⟩ := p.run_trees n []
  rw [List.append_nil] at same
  refine ⟨script, kept, same.trans ?_⟩
  rw [run, finish, if_pos (by simp [none])]
  rfl

end Progress

theorem Argument.ofTexts_last_trees (n : Nat) : ofTexts (trees n) = .ok (treeOptions n) := by
  have none : ofTexts [] = .ok [] := rfl
  simpa using ofTexts_trees none n

theorem Progress.run_first_trees (n : Nat) (rest : List Argument) :
    start.run (treeOptions n ++ rest) = { start with tree := decide (0 < n) }.run rest := by
  obtain ⟨script, kept, same⟩ := start.run_trees n rest
  obtain rfl := kept.2 rfl
  simpa [start] using same

namespace Options

/-- A text on the command line, with or without outlines. -/
theorem ofArguments_text {text : String} (plain : text.toList.head? ≠ some '-') (n m : Nat) :
    ofArguments (trees n ++ "-e" :: text :: trees m) = .ok ⟨.text text, decide (0 < n + m), false⟩ := by
  have other : text ≠ "--" := by
    rintro rfl
    exact plain rfl
  have option : Argument.ofText "-e" = .ok (.option .expression true none) := rfl
  have value := Argument.ofTexts_cons (Argument.ofText_plain plain) other (Argument.ofTexts_last_trees m)
  have arguments := Argument.ofTexts_trees (Argument.ofTexts_cons option (by decide) value) n
  let p : Progress := { Progress.start with expression := some (some text), tree := decide (0 < n) }
  obtain ⟨script, -, last⟩ := p.run_last_trees m rfl
  rw [ofArguments, arguments]
  refine (Progress.run_first_trees n _).trans (last.trans ?_)
  simp [p, Progress.start, Progress.source]

/-- A file, with or without outlines. -/
theorem ofArguments_file {path : String} (plain : Argument.ofText path = .ok (.plain path))
    (filled : path ≠ "") (n m : Nat) :
    ofArguments (trees n ++ path :: trees m) = .ok ⟨.file path, decide (0 < n + m), false⟩ := by
  have other : path ≠ "--" := by
    rintro rfl
    cases plain
  have value := Argument.ofTexts_cons plain other (Argument.ofTexts_last_trees m)
  have arguments := Argument.ofTexts_trees value n
  let p : Progress := { Progress.start with script := .last path, tree := decide (0 < n) }
  obtain ⟨script, kept, last⟩ := p.run_last_trees m rfl
  have name : script.name? = some path := kept.1
  rw [ofArguments, arguments]
  refine (Progress.run_first_trees n _).trans (last.trans ?_)
  simp [p, Progress.start, Progress.source, name, filled]

end Options

/-! Texts. -/

/-- How a run over a text ends. Each statement is shown with a newline behind it. -/
inductive Concludes (tree : Bool) (text : List Char) : Outcome → Prop where
  | read : parseSheet text = .ok sheet → List.Forall₂ (ShownAs tree) sheet shown →
      Concludes tree text (.exited 0 (String.join (shown.map (· ++ "\n"))) "")
  | refused : parseSheet text = .error r → ReportedAs text r report →
      Concludes tree text (.exited 1 "" report)

namespace CommandLine

theorem runText_concludes {setup : Setup} (quiet : 20 < setup.threshold) (text : List Char) :
    Concludes setup.tree text (runText setup text) := by
  unfold runText
  cases read : parseSheet text with
  | ok sheet =>
    simp only [writeLog_quiet quiet]
    have shown : List.Forall₂ (ShownAs setup.tree) sheet
        (sheet.map fun s => showNode setup.tree s.toNode) := by
      rw [List.forall₂_map_right_iff]
      exact List.forall₂_same.mpr fun s _ => shownAs_showNode setup.tree s
    have conclusion := Concludes.read read shown
    rwa [List.map_map] at conclusion
  | error r =>
    simp only [writeLog_quiet quiet, String.empty_append]
    have refused : Refuses .sheet text r := read
    exact .refused read refused.reportedAs

variable {env : Environment} {read : String → Except ReadFault (List Nat)} {argv lines : List String}

/-- A run that logs warnings only. -/
def Setup.warnings (env : Environment) (tree : Bool) : Setup := ⟨.ofEnvironment env, 30, tree⟩

theorem Setup.warnings_quiet (env : Environment) (tree : Bool) : 20 < (warnings env tree).threshold :=
  show 20 < 30 by decide

theorem thresholdNamed_warning : thresholdNamed "WARNING" = .ok 30 := by
  decide +kernel

section

variable (unset : ∀ name ∈ variableNames, env name = none)

include unset

theorem Setup.make_warnings (source : Source) (tree : Bool) :
    Setup.make env ⟨source, tree, false⟩ = .ok (.warnings env tree) := by
  have level : env "TEXCALC_LOG_LEVEL" = none := unset _ (by decide)
  rw [Setup.make, level]
  exact congrArg (Except.map _) thresholdNamed_warning

theorem run_text (options : Options.ofArguments argv = .ok ⟨.text text, tree, false⟩) :
    run env read argv lines = runText (.warnings env tree) text.toList := by
  simp only [run, options, Setup.make_warnings unset]

theorem run_file (options : Options.ofArguments argv = .ok ⟨.file path, tree, false⟩) :
    run env read argv lines = runFile (.warnings env tree) path (read path) := by
  simp only [run, options, Setup.make_warnings unset]

end

/-- A file is read as the text that its octets are, the ends of lines made one newline each. -/
theorem runFile_octets (setup : Setup) (path text : String) :
    runFile setup path (.ok (octetsOf text)) = runText setup (unifyLines text.toList) := by
  simp only [runFile, decodeUtf8_octetsOf]

end CommandLine

open CommandLine in
/-- A text on the command line is shown as a whole or not at all, and a file that holds the text is read
as the text is. -/
theorem run_is_all_or_nothing {env : Environment} (unset : ∀ name ∈ variableNames, env name = none)
    (read : String → Except ReadFault (List Nat)) (lines : List String) {text : String}
    (plain : text.toList.head? ≠ some '-') (n m : Nat) :
    Concludes (decide (0 < n + m)) text.toList (run env read (trees n ++ "-e" :: text :: trees m) lines) ∧
      ∀ path, Argument.ofText path = .ok (.plain path) → path ≠ "" → '\r' ∉ text.toList →
        read path = .ok (octetsOf text) → run env read (trees n ++ path :: trees m) lines =
          run env read (trees n ++ "-e" :: text :: trees m) lines := by
  have direct : run env read (trees n ++ "-e" :: text :: trees m) lines = runText _ text.toList :=
    run_text unset (Options.ofArguments_text plain n m)
  refine ⟨?_, fun path file filled oneEnd holds => ?_⟩
  · rw [direct]
    exact runText_concludes (Setup.warnings_quiet env _) _
  · rw [run_file unset (Options.ofArguments_file file filled n m), holds, runFile_octets,
      unifyLines_eq_self oneEnd, direct]

open CommandLine in
theorem run_is_all_or_nothing_on_two_lines :
    Concludes true "x\ny=2".toList (run (fun _ => none) (fun _ => .ok (octetsOf "x\ny=2"))
        (trees 0 ++ "-e" :: "x\ny=2" :: trees 1) []) ∧
      run (fun _ => none) (fun _ => .ok (octetsOf "x\ny=2")) (trees 0 ++ "sheet.tex" :: trees 1) [] =
        run (fun _ => none) (fun _ => .ok (octetsOf "x\ny=2")) (trees 0 ++ "-e" :: "x\ny=2" :: trees 1) [] := by
  have unset : ∀ name ∈ variableNames, (fun _ => none : Environment) name = none := fun _ _ => rfl
  have plain : "x\ny=2".toList.head? ≠ some '-' := by decide
  have held := run_is_all_or_nothing unset (fun _ => .ok (octetsOf "x\ny=2")) [] plain 0 1
  exact ⟨held.1, held.2 "sheet.tex" rfl (by decide) (by decide) rfl⟩

/-- The statement before the fault is not shown. -/
example : CommandLine.run (fun _ => none) (fun _ => .error .missing) ["-e", "x\ny="] [] =
    .exited 1 "" ("Parse error: unexpected newline at line 2, column 3; expected '(', '\\sum_', " ++
      "'\\vec', function call, identifier, number, symbol; found newline\ny=\n  ^\n") := by
  decide +kernel

/-! Files. -/

open CommandLine in
/-- A run over a file shows the text or reports its fault if the file holds a text, whatever the text is.
If its octets are none of a text, and only then, the run is cut short. -/
theorem file_run_aborts_iff {env : Environment} (unset : ∀ name ∈ variableNames, env name = none)
    {read : String → Except ReadFault (List Nat)} (lines : List String) {path : String}
    {octets : List Nat} (file : Argument.ofText path = .ok (.plain path)) (filled : path ≠ "")
    (holds : read path = .ok octets) :
    (∀ text : String, octets = octetsOf text →
        Concludes false (unifyLines text.toList) (run env read [path] lines)) ∧
      ((∀ text : String, octets ≠ octetsOf text) ↔
        ∃ m, decodeUtf8 octets = .error m ∧ run env read [path] lines = .aborted (.malformed m)) := by
  have outcome : run env read [path] lines = runFile (.warnings env false) path (.ok octets) := by
    rw [← holds]
    exact run_file unset (Options.ofArguments_file file filled 0 0)
  rw [outcome]
  refine ⟨?_, fun none => ?_, ?_⟩
  · rintro text rfl
    rw [runFile_octets]
    exact runText_concludes (Setup.warnings_quiet env false) _
  · cases decoded : decodeUtf8 octets with
    | ok text => exact absurd ((decodeUtf8_eq_ok_iff octets text).mp decoded) (none _)
    | error m =>
      refine ⟨m, rfl, ?_⟩
      simp only [runFile, decoded]
  · rintro ⟨m, malformed, -⟩ text rfl
    rw [decodeUtf8_octetsOf] at malformed
    cases malformed

open CommandLine in
/-- In a file of one octet that no character has. -/
theorem file_run_aborts_at_ff :
    (∀ text : String, [0xff] = octetsOf text → Concludes false (unifyLines text.toList)
        (run (fun _ => none) (fun _ => .ok [0xff]) ["sheet.tex"] [])) ∧
      ((∀ text : String, [0xff] ≠ octetsOf text) ↔ ∃ m, decodeUtf8 [0xff] = .error m ∧
        run (fun _ => none) (fun _ => .ok [0xff]) ["sheet.tex"] [] = .aborted (.malformed m)) :=
  file_run_aborts_iff (fun _ _ => rfl) [] rfl (by decide) rfl

open CommandLine in
/-- Not every file is shown or reported. -/
theorem file_run_not_always_reported :
    ¬ ∀ (env : Environment) (read : String → Except ReadFault (List Nat)) (lines : List String)
      (path : String) (octets : List Nat), (∀ name ∈ variableNames, env name = none) →
        Argument.ofText path = .ok (.plain path) → path ≠ "" → read path = .ok octets →
          ∃ output errors, run env read [path] lines = .exited 0 output errors ∨
            run env read [path] lines = .exited 1 output errors ∧ errors ≠ "" := by
  intro claim
  obtain ⟨output, errors, ended⟩ := claim (fun _ => none) (fun _ => .ok [0xff]) [] "sheet.tex" [0xff]
    (fun _ _ => rfl) rfl (by decide) rfl
  have cut : run (fun _ => none) (fun _ => .ok [0xff]) ["sheet.tex"] [] =
      .aborted (.malformed ⟨.start, 0xff, 0, 1⟩) := by decide +kernel
  rw [cut] at ended
  rcases ended with shown | ⟨reported, -⟩
  · cases shown
  · cases reported

end Formulary
