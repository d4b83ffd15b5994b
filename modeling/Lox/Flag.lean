/-!
# Flags

The switches for looking into a run.
-/

namespace Lox

inductive Flag where
  | dumpTokens
  | dumpTree
  /-- Stop before parsing. -/
  | noParse
  /-- Stop before executing. -/
  | noExecute
  /-- Dump tokens in their short form. -/
  | shortTokens
  /-- Report faults without an excerpt. -/
  | reducedErrors
  /-- Report the calls in progress with a fault. -/
  | backtrace
  /-- Report every statement and call before it is executed. -/
  | trace
  deriving DecidableEq, Repr

namespace Flag

def all : List Flag :=
  [.dumpTokens, .dumpTree, .noParse, .noExecute, .shortTokens, .reducedErrors, .backtrace, .trace]

def name : Flag → String
  | .dumpTokens => "DUMP_TOKENS"
  | .dumpTree => "DUMP_AST"
  | .noParse => "NO_PARSE"
  | .noExecute => "NO_INTERPRET"
  | .shortTokens => "JAVA_STYLE_TOKENS"
  | .reducedErrors => "REDUCED_ERROR_REPORTING"
  | .backtrace => "BACKTRACE"
  | .trace => "TRACE_EXECUTION"

def ofName? (name : String) : Option Flag :=
  all.find? (·.name == name)

end Flag

abbrev Flags := List Flag

/-- The flags that are set, each once, in their fixed order. -/
def Flags.listing (flags : Flags) : List Flag :=
  Flag.all.filter (flags.contains ·)

end Lox
