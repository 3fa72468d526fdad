/-
  Rddl/CommandLine.lean
  =====================
  **The command line as a function**: from the text of a file to what is printed.
-/
import Rddl.Reading
import Rddl.Report
import Rddl.Text.Quoted

namespace Rddl.CommandLine

/-- The report on the outcome of a reading; without a model there is nothing to report on. -/
def report (verbose : Bool) : Verdict → List String × Option Fault
  | .model m => (Report.model m verbose).run
  | .nothing => ([], some (Datum.absent.lacks "domain"))
  | .fault cause => ([], some cause)

/-- What is printed for the text of a file, with the fault that ended it, if any. -/
def output (verbose : Bool) (text : String) : String × Option Fault :=
  let reading := Reading.ofText 1 (String.ofList (Text.unifyLineEnds text.toList))
  let log := Message.render { verbose } reading.log
  let (lines, fault?) := report verbose reading.verdict
  (log ++ String.join (lines.map (· ++ "\n")), fault?)

end Rddl.CommandLine
