/-!
# Usage and help

The texts that the command line prints about itself.
-/

namespace CallReach.CommandLine

/-- The name of the program. -/
def programName : String := "ir-reachables"

/-- The version of the program. -/
def versionText : String := programName ++ " 0.1.0\n"

/-- The usage. -/
def usage : String :=
  "usage: ir-reachables [-h] [-e ENTRY] [-f \x7btext,json,dot\x7d] [--config FILE]\n" ++
  "                     [--no-callgraph] [--no-callbacks] [--color | --no-color]\n" ++
  "                     [-o FILE] [-v] [--version]\n" ++
  "                     model\n"

/-- The help, which starts with the usage. -/
def helpText : String :=
  usage ++
  "\n" ++
  "List the functions reachable from an entry point, including through function\n" ++
  "pointers and callbacks.\n" ++
  "\n" ++
  "positional arguments:\n" ++
  "  model                 Program model file (S-expression).\n" ++
  "\n" ++
  "options:\n" ++
  "  -h, --help            show this help message and exit\n" ++
  "  -e ENTRY, --entry ENTRY\n" ++
  "                        Entry function (default: main).\n" ++
  "  -f \x7btext,json,dot\x7d, --format \x7btext,json,dot\x7d\n" ++
  "                        Report format (default: text).\n" ++
  "  --config FILE         JSON configuration file.\n" ++
  "  --no-callgraph        Scan call sites instead of walking a call graph.\n" ++
  "  --no-callbacks        Ignore function values passed as arguments (unsound).\n" ++
  "  --color\n" ++
  "  --no-color\n" ++
  "  -o FILE, --output FILE\n" ++
  "                        Output file (\"-\" or omit for stdout).\n" ++
  "  -v, --verbose         Increase log verbosity (-v INFO, -vv DEBUG).\n" ++
  "  --version             show program's version number and exit\n"

end CallReach.CommandLine
