import Conform.Command.Basic
import Conform.Text.Escaped

/-! Settings as a text to look at, one on each line. -/

namespace Conform.GenerateSettings

def indented (depth : Nat) (s : String) : String := "".pushn ' ' (4 * depth) ++ s ++ "\n"

def shownFlag (b : Bool) : String := if b then "true" else "false"

def shown (verbosity : Nat) (s : GenerateSettings) : String :=
  indented 0 "CommandLineInterface \x7b" ++
  indented 1 ("verbose: " ++ toString verbosity ++ ",") ++
  indented 1 "cmd: Generate(" ++
  indented 2 "GenerateOut \x7b" ++
  indented 3 "config_settings: ConfigSettings \x7b" ++
  indented 4 ("config: " ++ Text.escaped s.config ++ ",") ++
  indented 3 "\x7d," ++
  (match s.out with
    | none => indented 3 "out: None,"
    | some out =>
      indented 3 "out: Some(" ++ indented 4 (Text.escaped out ++ ",") ++ indented 3 "),") ++
  indented 3 ("lf: " ++ shownFlag (s.lineEnding = .lf) ++ ",") ++
  indented 3 ("no_op: " ++ shownFlag s.noOp ++ ",") ++
  indented 2 "\x7d," ++
  indented 1 ")," ++
  indented 0 "\x7d"

end Conform.GenerateSettings
