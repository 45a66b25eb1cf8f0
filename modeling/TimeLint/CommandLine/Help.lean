import TimeLint.CommandLine.Parse

/-!
What the program says about its own use.
-/

namespace TimeLint.CommandLine

def program : String := "timecop-check"

/-- Options in braces with commas between them. -/
def choice (options : List String) : String := "\x7b" ++ ",".intercalate options ++ "\x7d"

def commandChoice : String := choice (Command.all.map (·.name))

def formatChoice : String := choice (Report.Format.all.map (·.code))

def Command.summary : Command → String
  | check => "Report Timecop usage"
  | fix => "Autocorrect Timecop usage in place and report the rest"

def Level.name : Level → String
  | none => program
  | some c => program ++ " " ++ c.name

def usage (level : Level) : String :=
  let rest := match level with
    | none => " [-h] [-v] " ++ commandChoice ++ " ..."
    | some _ => " [-h] [--format " ++ formatChoice ++ "] [root]"
  "usage: " ++ Level.name level ++ rest

/-- The text with blanks up to a width. -/
def pad (width : Nat) (s : String) : String := s ++ String.ofList (List.replicate (width - s.length) ' ')

def details : Level → List String
  | none =>
    ["positional arguments:", "  " ++ commandChoice]
      ++ Command.all.map (fun c => pad 17 ("    " ++ c.name) ++ c.summary)
      ++ ["", "options:",
        pad 17 "  -h, --help" ++ "show this help message and exit",
        pad 17 "  -v, --verbose" ++ "Enable debug logging"]
  | some _ =>
    ["positional arguments:",
     pad 24 "  root" ++ "Directory to scan for Ruby files (default: .)",
     "", "options:",
     pad 24 "  -h, --help" ++ "show this help message and exit",
     "  --format " ++ formatChoice,
     pad 24 "" ++ "Report format (default: config format, else text)"]

/-- Lines, each ended by a newline. -/
def unlines (lines : List String) : String := String.join (lines.map (· ++ "\n"))

def help (level : Level) : String := unlines ([usage level, ""] ++ details level)

def refusal (level : Level) (problem : Problem) : String :=
  unlines [usage level, Level.name level ++ ": error: " ++ problem.message]

end TimeLint.CommandLine
