import Lox.Session
import Lox.Text.Digit

/-!
# The command line

The arguments of the command say what is to be run: a text given with `-c`, a file, or what is
typed at a prompt.  Flags are set with `--dbg`.  A text or a file name that is empty counts as not
given, and a text goes before a file.
-/

namespace Lox

inductive Subject where
  | text (source : String)
  | file (name : String)
  | prompt
  deriving DecidableEq, Repr

inductive Request where
  | run (flags : Flags) (subject : Subject)
  | help
  /-- The arguments make no sense. -/
  | usageError
  /-- The arguments make sense, but some flag has no name. -/
  | namelessFlag
  deriving DecidableEq, Repr

namespace CommandLine

inductive Valued where
  | text
  | flag
  deriving DecidableEq, Repr

/-- What an argument looks like on its own. -/
inductive Argument where
  | plain (value : String)
  /-- An option, with the value that is part of the same argument if there is one. -/
  | option (name : Valued) (value : Option String)
  /-- Help is asked for; `awaitsText` tells whether `-c` is joined to it without a value. -/
  | help (awaitsText : Bool)
  | unknown
  /-- Help is asked for with something joined to it that is no option. -/
  | misused
  /-- Two dashes, after which no argument is an option. -/
  | divider
  deriving DecidableEq, Repr

/-- Whether the characters after a number end the argument; a line feed may close it. -/
def endsNumeral (chars : List Char) : Bool :=
  chars == [] || chars == ['\n']

/-- Digits of any script, or a point among digits with at least one digit after it. -/
def isNumeral (chars : List Char) : Bool :=
  match chars.dropWhile Text.isDecimalDigit with
  | '.' :: fraction =>
    fraction.head?.any Text.isDecimalDigit && endsNumeral (fraction.dropWhile Text.isDecimalDigit)
  | rest => chars.head?.any Text.isDecimalDigit && endsNumeral rest

/-- What is joined to `-h`: the letters of further options, of which `-c` takes all that follows as
its value. -/
def afterHelp : List Char → Argument
  | [] => .help false
  | 'h' :: more => afterHelp more
  | 'c' :: value => .help value.isEmpty
  | _ => .misused

/-- An argument that begins with a dash and is no option as a whole: the value may be joined to the
option, and options of one letter to each other.  What looks like a negative number or contains a
blank is no option. -/
def joined (chars : List Char) : Argument :=
  match chars with
  | '-' :: 'c' :: value => .option .text (some (String.ofList value))
  | '-' :: 'h' :: more => afterHelp more
  | _ =>
    if isNumeral (chars.drop 1) || chars.contains ' ' then .plain (String.ofList chars)
    else .unknown

/-- An argument that begins with a dash and is no option as a whole: the value may follow the option
after an equals sign.  Options joined to `-h` may do so as well, but there has to be one. -/
def assigned (chars : List Char) : Argument :=
  match String.ofList (chars.takeWhile (· != '=')), chars.dropWhile (· != '=') with
  | "--dbg", _ :: value => .option .flag (some (String.ofList value))
  | "-c", _ :: value => .option .text (some (String.ofList value))
  | "--help", _ :: _ => .misused
  | "-h", [_] => .misused
  | "-h", _ :: more => afterHelp more
  | _, _ => joined chars

def classify (argument : String) : Argument :=
  if argument == "--" then .divider
  else if argument == "-c" then .option .text none
  else if argument == "--dbg" then .option .flag none
  else if argument == "-h" || argument == "--help" then .help false
  else if argument == "-" || argument.toList.head? != some '-' then .plain argument
  else assigned argument.toList

structure Given where
  text : Option String := none
  file : Option String := none
  flags : Flags := []
  /-- Whether some flag has no name. -/
  nameless : Bool := false
  /-- Whether some argument is left over. -/
  surplus : Bool := false

namespace Given

/-- Faults may always be followed by a backtrace. -/
def request (given : Given) : Request :=
  if given.surplus then .usageError
  else if given.nameless then .namelessFlag
  else
    .run (.backtrace :: given.flags)
      (match given.text.filter (· != ""), given.file.filter (· != "") with
        | some text, _ => .text text
        | none, some file => .file file
        | none, none => .prompt)

/-- An option without a value, which is what two dashes joined to it stand for: a text given before
is taken back. -/
def withoutValue (given : Given) : Valued → Given
  | .text => { given with text := none }
  | .flag => { given with nameless := true }

/-- The value of an option is taken; only the names of flags are values of `--dbg`. -/
def option (given : Given) (name : Valued) (value : String) : Option Given :=
  if value == "--" then some (given.withoutValue name)
  else
    match name with
    | .text => some { given with text := some value }
    | .flag => (Flag.ofName? value).map fun flag ↦ { given with flags := given.flags ++ [flag] }

/-- A file name is taken, unless there is one. -/
def plain (given : Given) (value : String) : Given :=
  if given.file.isSome then { given with surplus := true } else { given with file := some value }

/-- The arguments after a divider; `adjacent` tells whether it follows the file name directly,
where it may stand though the file is known. -/
def rest (given : Given) (adjacent : Bool) (arguments : List String) : Given :=
  let surplus := given.file.isSome && !adjacent
  arguments.foldl plain { given with surplus := given.surplus || surplus }

end Given

/-- Reads arguments one after the other.  `adjacent` tells whether the one before was the file
name. -/
def read (given : Given) (adjacent : Bool) : List String → Request
  | [] => given.request
  | argument :: arguments =>
    match classify argument with
    | .plain value => read (given.plain value) given.file.isNone arguments
    | .help false => .help
    | .help true =>
      match arguments.head?.map classify with
      | some (.plain _) => .help
      | _ => .usageError
    | .misused => .usageError
    | .unknown => read { given with surplus := true } false arguments
    | .divider => (given.rest adjacent arguments).request
    | .option name (some value) =>
      match given.option name value with
      | some given => read given false arguments
      | none => .usageError
    | .option name none =>
      match arguments with
      | [] => .usageError
      | value :: arguments =>
        match classify value with
        | .plain value =>
          match given.option name value with
          | some given => read given false arguments
          | none => .usageError
        | _ => .usageError

def request (arguments : List String) : Request :=
  read {} false arguments

def usageCode : Nat := 2

end CommandLine

namespace Session

def promptMark : String := ">>> "

def awaitLine (session : Session) : Session :=
  session.onConsole fun console ↦ { console with out := console.out ++ promptMark }

def leavePrompt (session : Session) : Session :=
  session.onConsole (·.print "")

/-- Runs lines one after the other as they are typed at the prompt, until there are no more. -/
def prompt (settings : Settings) (steps : Nat) (session : Session) :
    List String → Except Escape Unit × Session
  | [] => (.ok (), session.awaitLine.leavePrompt)
  | line :: lines =>
    match session.awaitLine.run settings steps line true with
    | (.ok _, session) => prompt settings steps session lines
    | (.error escape, session) => (.error escape, session)

end Session

end Lox
