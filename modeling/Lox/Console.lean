/-!
# Consoles

Where a run writes: what the program prints goes to one stream, what is said about the program to
another.  Both keep everything written until it is taken away.
-/

namespace Lox

structure Console where
  /-- Whether emphasis is shown by colours. -/
  coloured : Bool := false
  out : String := ""
  err : String := ""

inductive Emphasis where
  | fault
  | trace

def Emphasis.colour : Emphasis → String
  | .fault => "31"
  | .trace => "36"

namespace Console

def print (console : Console) (line : String) : Console :=
  { console with out := console.out ++ line ++ "\n" }

def report (console : Console) (line : String) : Console :=
  { console with err := console.err ++ line ++ "\n" }

/-- A text as it is written with emphasis. -/
def emphasise (console : Console) (emphasis : Emphasis) (text : String) : String :=
  if console.coloured then
    "\x1b[1m\x1b[" ++ emphasis.colour ++ "m" ++ text ++ "\x1b[0m"
  else text

def trace (console : Console) (step : String) : Console :=
  console.report (console.emphasise .trace "trace" ++ " " ++ step)

def headingWidth : Nat := 20

/-- A text in the middle of a row of tildes; the right side gets one more if it does not come out
even. -/
def centred (text : String) : String :=
  let room := headingWidth - text.length
  let tildes (count : Nat) := String.ofList (List.replicate count '~')
  tildes (room / 2) ++ text ++ tildes (room - room / 2)

def openDump (console : Console) (name : String) : Console :=
  console.print (centred (name ++ " Dump"))

/-- Writes some lines between a heading and a closing row. -/
def dump (console : Console) (name : String) (lines : List String) : Console :=
  ((console.openDump name).print ("\n".intercalate lines)).print (centred "")

def cleared (console : Console) : Console :=
  { console with out := "", err := "" }

end Console

end Lox
