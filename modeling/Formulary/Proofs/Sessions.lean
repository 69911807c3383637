import Formulary.CommandLine
import Formulary.Proofs.Display
import Mathlib.Data.List.TakeWhile

/-! Sessions line by line. A line is answered by what it says alone, so that a session can be cut between
any two lines; and once a line asks to leave, nothing behind it is read. -/
namespace Formulary

/-! Logs. -/

theorem Level.weight_le (l : Level) : l.weight ≤ 20 := by
  cases l <;> decide

/-- No record reaches the threshold for warnings. -/
theorem writeLog_quiet {threshold : Nat} (quiet : 20 < threshold) (records : List Record) :
    writeLog threshold records = "" := by
  have none : records.filter (fun r => threshold ≤ r.level.weight) = [] := by
    refine List.filter_eq_nil_iff.mpr fun r _ => ?_
    have reached := r.level.weight_le
    rw [decide_eq_true_eq]
    omega
  rw [writeLog, none]
  rfl

def Reply.channels (r : Reply) : String × String := (r.output, r.errors)

namespace Session

/-! Lines. -/

def Leaves (line : String) : Prop :=
  trim line.toList = "exit".toList ∨ trim line.toList = "quit".toList

instance : DecidablePred Leaves := fun line =>
  inferInstanceAs (Decidable (trim line.toList = "exit".toList ∨ trim line.toList = "quit".toList))

/-- The lines before the first that asks to leave. -/
def kept (lines : List String) : List String := lines.takeWhile fun line => ¬Leaves line

/-- What a line is answered with on each channel, wherever it stands. -/
def answer (tree : Bool) (line : String) : String × String :=
  match request line with
  | .statement text => (Reply.ofText tree text).channels
  | .nothing | .leave => ("", "")

end Session
end Formulary
