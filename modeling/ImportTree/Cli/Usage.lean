import ImportTree.Cli.Arguments

/-!
# Usage

What the program says where its arguments end it.
-/
namespace ImportTree.Cli

def usage : String :=
  "Resolve HTML imports into a merged tree of element and module metadata\n\n" ++
  "Usage: metatree [OPTIONS] <COMMAND>\n\n" ++
  "Commands:\n" ++
  "  tree <DOCUMENT>       Show the merged metadata tree\n" ++
  "  deps <DOCUMENT>       List transitive imports in breadth-first order\n" ++
  "  help [COMMAND]        Print this message\n\n" ++
  "Options:\n" ++
  "  -v, --verbose         Enable debug logging\n" ++
  "  -q, --quiet           Only log errors\n" ++
  "  -c, --config <FILE>   Path to a configuration file\n" ++
  "  -h, --help            Print help\n" ++
  "  -V, --version         Print version\n\n" ++
  "Options of commands:\n" ++
  "      --no-imports      Do not follow imports or external scripts\n" ++
  "      --attach-scripts  Attach script bodies to element and module records\n" ++
  "  -f, --format <NAME>   Output format: tree, json or text\n" ++
  "  -d, --depth <DEPTH>   Maximum depth of a tree\n"

def Ending.text : Ending → String
  | .help => usage
  | .version => "metatree 0.1.0\n"
  | .nothing => usage
  | .missingCommand => "error: a command is required\n"
  | .unknownCommand => "error: unrecognized command\n"
  | .missingDocument => "error: a document is required\n"
  | .unknownArgument => "error: unexpected argument\n"
  | .missingValue => "error: an option or document lacks its value\n"
  | .invalidValue => "error: the depth is no number\n"
  | .unwantedValue => "error: an option takes no value\n"
  | .conflict => "error: an option is given twice, or options exclude each other\n"

end ImportTree.Cli
