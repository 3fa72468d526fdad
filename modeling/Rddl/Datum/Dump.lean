/-
  Rddl/Datum/Dump.lean
  ====================
  **The dump of a datum**: one line without blanks that shows its whole structure.
-/
import Rddl.Datum
import Rddl.Binary64.Shortest
import Rddl.Text.Quoted

namespace Rddl.Datum

def integerText (n : Int) : String := toString n

def truthText (b : Bool) : String := if b then "True" else "False"

mutual

def dump : Datum → String
  | .text s => Text.dumped s
  | .integer n => integerText n
  | .real x => x.text
  | .truth b => truthText b
  | .absent => "None"
  | .tuple ds => "(" ++ ",".intercalate (dumpAll ds) ++ ")"
  | .list ds => "[" ++ ",".intercalate (dumpAll ds) ++ "]"
  | .expression t => "E" ++ t.dump
  | .pvariable name kind range params default level =>
    "PVariable(" ++ ",".intercalate
      [name.dump, kind.dump, range.dump, params.dump, default.dump, level.dump] ++ ")"
  | .cpf target body => "CPF(" ++ ",".intercalate [target.dump, body.dump] ++ ")"

def dumpAll : List Datum → List String
  | [] => []
  | d :: ds => d.dump :: dumpAll ds

end

end Rddl.Datum
