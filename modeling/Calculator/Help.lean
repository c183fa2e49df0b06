import Calculator.Builtin

/-!
# Help texts

What the program says about itself: its name and version, the help for its command line and the
help for its interactive mode.
-/

namespace Calculator.Help

def version : String := "0.1.0"

def versionLine : String := "formula " ++ version

/-- The name of the program with its version and purpose. -/
def titleLine : String := versionLine ++ " - infix expressions evaluated through RPN"

/-- The greeting of the interactive mode. -/
def banner : List String := [titleLine, "  Type 'exit' or Ctrl-D to quit, '.help' for usage"]

def functions : List String :=
  ["", "FUNCTIONS:"] ++ Builtin.all.map (fun b => "    " ++ b.usage) ++ [""]

/-- The help for the command line. -/
def commandLine : List String :=
  [ titleLine,
    "",
    "USAGE:",
    "    formula                     Start interactive REPL",
    "    formula -c <expr>           Evaluate a single expression",
    "    formula <script>            Evaluate a script, one expression per line",
    "    formula --help              Show this help message",
    "    formula --version           Show version",
    "",
    "OPTIONS:",
    "    --strict                    Reject malformed names and unbalanced parentheses",
    "    --json                      Print results and errors as JSON",
    "    --trace                     Log every evaluation step to stderr",
    "    --no-rc                     Do not load the rc file",
    "",
    "STARTUP:",
    "    ~/.formularc                Evaluated before anything else (FORMULA_RC overrides)",
    "    FORMULA_STRICT=1            Same as --strict",
    "    RUST_LOG=formula=debug      Log pipeline stages to stderr",
    "",
    "SYNTAX:",
    "    2 + 3 * 4                   Arithmetic: + - * / and ^ (right-associative)",
    "    1 < 2   3 > 2   2 = 2       Comparisons produce true/false",
    "    $PI  $E                     Variable reference",
    "    SET(#NAME, expr)            Bind NAME, returns the value" ] ++
  functions ++
  [ "EXAMPLES:",
    "    formula -c \"54 + SQRT(49) * 8\"",
    "    formula -c \"IF(54 < 3, 6, 9) + 20\"",
    "" ]

/-- The help for the interactive mode. -/
def interactive : List String :=
  ["Enter an expression to evaluate it, e.g. 54 + SQRT(49) * 8"] ++ functions ++
  [ "REPL COMMANDS:",
    "    .help, .h               Show this help",
    "    .env, .e                List variable bindings",
    "    .reset, .r              Restore the default constants, drop user bindings",
    "    .rpn <expr>             Show the postfix form of an expression",
    "    exit, quit              Exit the REPL" ]

end Calculator.Help
