/-
# Settings

The options of the command line, how they are spelled, and how the command line
describes itself. A setting either takes a value or is a switch.
-/

import Resolvent.Text.Layout

namespace Resolvent.CommandLine

/-- What an option of the command line sets. -/
inductive Setting
  | help | load | program | query | maxAnswers | maxSteps | dot | list | history | verbose
  deriving DecidableEq

namespace Setting

/-- All spellings of all settings, in the order in which they are described. -/
def spellings : List (String × Setting) :=
  [("-h", .help), ("--help", .help), ("--load", .load), ("--program", .program),
    ("--query", .query), ("--max-answers", .maxAnswers), ("--max-steps", .maxSteps),
    ("--dot", .dot), ("--list", .list), ("--history", .history), ("--verbose", .verbose)]

/-- The setting with exactly this spelling. -/
def spelled? (text : String) : Option Setting :=
  (spellings.find? (·.1 = text)).map (·.2)

/-- What a setting is called in messages: all its spellings. -/
def title (s : Setting) : String :=
  Text.separated "/" ((spellings.filter (·.2 = s)).map (·.1))

/-- Whether a setting takes a value. -/
def takesValue : Setting → Bool
  | .help | .list | .history | .verbose => false
  | .load | .program | .query | .maxAnswers | .maxSteps | .dot => true

end Setting

/-- How the program is called. -/
def usage : String :=
  Text.lines [
    "usage: hornlog [-h] [--load FILE] [--program \x7bpeano,family,lists\x7d]",
    "               [--query QUERY] [--max-answers MAX_ANSWERS]",
    "               [--max-steps MAX_STEPS] [--dot DOT] [--list] [--history]",
    "               [--verbose]"]

/-- What the program says about itself. -/
def help : String :=
  usage ++ Text.lines [
    "",
    "Horn-clause query engine",
    "",
    "options:",
    "  -h, --help            show this help message and exit",
    "  --load FILE           Load a program file (repeatable)",
    "  --program \x7bpeano,family,lists\x7d",
    "                        Preload a built-in program",
    "  --query QUERY         Run one query and exit instead of starting the REPL",
    "  --max-answers MAX_ANSWERS",
    "                        Answers to print for --query (default 10, env",
    "                        HORNLOG_MAX_ANSWERS)",
    "  --max-steps MAX_STEPS",
    "                        Give up a --query after this many expansions",
    "  --dot DOT             Export predicate graph to file",
    "  --list                Print the loaded clauses",
    "  --history             Print the search log of --query",
    "  --verbose             Trace every expansion"]

end Resolvent.CommandLine
