import MesonLens.Check.Arguments

/-!
# `MesonLens.Check.Help`: what the commands are for

The texts that the command line shows when help is asked for.
-/

set_option autoImplicit false

namespace MesonLens

namespace Topic

/-- Lines of a text. -/
def lines (texts : List String) : String := String.join (texts.map (· ++ "\n"))

/-- The text about a topic. -/
def text : Topic → String
  | commands =>
    lines
      ["Check Meson build files without an editor", "",
        "Usage: mesonlsp-check <COMMAND>", "",
        "Commands:",
        "  check  Print the diagnostics of every build file reachable from DIR",
        "  types  Print the inferred types of the expression at a 1-based position",
        "  help   Print this message or the help of the given subcommand(s)", "",
        "Options:",
        "  -h, --help     Print help",
        "  -V, --version  Print version"]
  | check =>
    lines
      ["Print the diagnostics of every build file reachable from DIR", "",
        "Usage: mesonlsp-check check [OPTIONS] [DIR]", "",
        "Arguments:",
        "  [DIR]  Project root, the directory holding the top-level meson.build [default: .]", "",
        "Options:",
        "      --json  Emit a JSON report instead of one line per diagnostic",
        "  -h, --help  Print help"]
  | types =>
    lines
      ["Print the inferred types of the expression at a 1-based position", "",
        "Usage: mesonlsp-check types <FILE> <LINE> <COLUMN>", "",
        "Arguments:",
        "  <FILE>    ", "  <LINE>    ", "  <COLUMN>  ", "",
        "Options:",
        "  -h, --help  Print help"]
  | help =>
    lines
      ["Print this message or the help of the given subcommand(s)", "",
        "Usage: mesonlsp-check help [COMMAND]...", "",
        "Arguments:",
        "  [COMMAND]...  Print help for the subcommand(s)"]

end Topic

end MesonLens
