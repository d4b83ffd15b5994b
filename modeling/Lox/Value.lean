import Lox.Tree

/-!
# Values

What expressions evaluate to: atoms, functions of the program, and functions of the machine.
A function of the program remembers the scope in which it was declared.
-/

namespace Lox

/-- Scopes are numbered in the order in which they are opened. -/
abbrev ScopeId := Nat

/-- A function together with the scope it was declared in.  Every execution of a declaration makes
a new function, told apart from all others by `id`. -/
structure Closure where
  id : Nat
  name : String
  params : List String
  body : List Stmt
  scope : ScopeId

inductive Native where
  | clock
  deriving DecidableEq, Repr

namespace Native

def all : List Native := [.clock]

def name : Native → String
  | .clock => "clock"

def arity : Native → Nat
  | .clock => 0

end Native

inductive Value where
  | atom (value : Atom)
  | closure (function : Closure)
  | native (function : Native)

namespace Value

/-- The text a program prints for a value. -/
def display : Value → String
  | .atom a => a.display
  | .closure f => "<fn " ++ f.name ++ ">"
  | .native _ => "<native fn>"

/-- A value as a prompt shows it: texts stand in quotation marks. -/
def source : Value → String
  | .atom a => a.source
  | f => f.display

/-- A function with its parameters; other values as a prompt shows them. -/
def signature : Value → String
  | .closure f => "<function " ++ f.name ++ "(" ++ ", ".intercalate f.params ++ ")>"
  | .native f => "<native function " ++ f.name ++ ">"
  | .atom a => a.source

def truthy : Value → Bool
  | .atom a => a.truthy
  | _ => true

/-- The name of a function and the number of its arguments. -/
def callable? : Value → Option (String × Nat)
  | .atom _ => none
  | .closure f => some (f.name, f.params.length)
  | .native f => some (f.name, f.arity)

/-- Atoms are compared by what they are, functions by identity. -/
def equal : Value → Value → Bool
  | .atom a, .atom b => a.equal b
  | .closure f, .closure g => f.id == g.id
  | .native f, .native g => f == g
  | _, _ => false

end Value

inductive AtomSort where
  | nil | bool | number | text
  deriving DecidableEq, Repr

def Atom.sort : Atom → AtomSort
  | .nil => .nil
  | .bool _ => .bool
  | .number _ => .number
  | .text _ => .text

/-- Whether some sort among `sorts` is that of every value. -/
def Value.shareSort (sorts : List AtomSort) (values : List Value) : Bool :=
  sorts.any fun sort ↦ values.all fun
    | .atom a => a.sort == sort
    | _ => false

end Lox
