import SuiteRunner.CommandLine.Arguments

/-!
# Help

The texts that are printed on request: what `clap` makes of `Cli` and `Commands`.
-/

namespace SuiteRunner

/-- The name and the version of the program. -/
def versionText : String := "cutest 0.1.0\n"

namespace Topic

/-- How a command is called. -/
def usage : Topic → String
  | program => "cutest <COMMAND>"
  | command .run => "cutest run [OPTIONS]"
  | command .list => "cutest list [OPTIONS]"
  | help => "cutest help [COMMAND]..."

/-- The sections of a help text: a heading and its lines. -/
def sections : Topic → List (String × List String)
  | program =>
    [("Commands",
      [ "  run   Run every test file and print a tally",
        "  list  List discovered test files and whether they are ignored",
        "  help  Print this message or the help of the given subcommand(s)"]),
     ("Options",
      [ "  -h, --help     Print help",
        "  -V, --version  Print version"])]
  | command .run =>
    [("Options",
      [ "      --config <CONFIG>          Configuration file [default: cutest.toml]",
        "      --suite <SUITE>            Test suite directory (overrides `suite_dir`)",
        "      --exe <EXE>                Executable under test (overrides `executable`)",
        "      --timeout-ms <TIMEOUT_MS>  Per-test budget in milliseconds (overrides `timeout_ms`)",
        "  -h, --help                     Print help"])]
  | command .list =>
    [("Options",
      [ "      --config <CONFIG>  Configuration file [default: cutest.toml]",
        "      --suite <SUITE>    Test suite directory (overrides `suite_dir`)",
        "  -h, --help             Print help"])]
  | help =>
    [("Arguments", ["  [COMMAND]...  Print help for the subcommand(s)"])]

/-- The help text on a topic. -/
def text (t : Topic) : String :=
  let lines :=
    [t.about, "", s!"Usage: {t.usage}"] ++
      t.sections.flatMap fun (heading, ls) => "" :: s!"{heading}:" :: ls
  String.join (lines.map (· ++ "\n"))

end Topic

end SuiteRunner
