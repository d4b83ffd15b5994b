import Lox.Machine

/-!
# Operators

What operators do with the values of their operands.  There is no conversion between sorts.

The operations themselves look at nothing: on values they are not made for they break down, and so
does the table of operations when it is asked for one that it does not have.  So the operands are
looked at first.
-/

namespace Lox

/-- What the host makes of its operands. -/
abbrev Operation := Value → Value → Except Fault Atom

namespace Operation

def onNumbers (f : Float → Float → Except Fault Atom) : Operation
  | .atom (.number x), .atom (.number y) => f x y
  | _, _ => .error .wrongOperands

/-- The sum of numbers; texts are put one behind the other. -/
def add : Operation
  | .atom (.number x), .atom (.number y) => .ok (.number (x + y))
  | .atom (.text s), .atom (.text t) => .ok (.text (s ++ t))
  | _, _ => .error .wrongOperands

def divide (x y : Float) : Except Fault Atom :=
  if y == 0 then .error .zeroDivision else .ok (.number (x / y))

def ofKind? : Kind → Option Operation
  | .plus => some add
  | .minus => some (onNumbers fun x y ↦ .ok (.number (x - y)))
  | .star => some (onNumbers fun x y ↦ .ok (.number (x * y)))
  | .slash => some (onNumbers divide)
  | .equalEqual => some fun left right ↦ .ok (.bool (left.equal right))
  | .bangEqual => some fun left right ↦ .ok (.bool (!left.equal right))
  | .greater => some (onNumbers fun x y ↦ .ok (.bool (y < x)))
  | .greaterEqual => some (onNumbers fun x y ↦ .ok (.bool (y ≤ x)))
  | .less => some (onNumbers fun x y ↦ .ok (.bool (x < y)))
  | .lessEqual => some (onNumbers fun x y ↦ .ok (.bool (x ≤ y)))
  | _ => none

def negate : Value → Except Fault Atom
  | .atom (.number x) => .ok (.number (-x))
  | _ => .error .wrongOperands

end Operation

def Value.isZero : Value → Bool
  | .atom (.number x) => x == 0
  | _ => false

namespace Eval

def isBinary (kind : Kind) : Bool :=
  (Operation.ofKind? kind).isSome

/-- What is wrong with the operands of an operator, if anything is. -/
def operandFault? (kind : Kind) (left right : Value) : Option RuntimeCause :=
  match kind with
  | .plus => if Value.shareSort [.number, .text] [left, right] then none else some .operandsUnlike
  | .equalEqual | .bangEqual => none
  | _ =>
    if !Value.shareSort [.number] [left, right] then some .operandsNotNumbers
    else if kind = .slash && right.isZero then some .divisionByZero
    else none

def ofHost : Except Fault Atom → Eval Value
  | .ok a => pure (.atom a)
  | .error fault => throw (.faulted fault)

def binary (operator : Token) (left right : Value) : Eval Value :=
  if isBinary operator.kind then
    match operandFault? operator.kind left right with
    | some cause => fail cause operator
    | none =>
      match Operation.ofKind? operator.kind with
      | some operation => ofHost (operation left right)
      | none => throw (.faulted .missingEntry)
  else throw (.faulted .unknownOperator)

def unary (operator : Token) (operand : Value) : Eval Value :=
  match operator.kind with
  | .bang => pure (.atom (.bool (!operand.truthy)))
  | .minus =>
    if Value.shareSort [.number] [operand] then ofHost (Operation.negate operand)
    else fail .operandNotNumber operator
  | _ => throw (.faulted .unknownOperator)

end Eval

end Lox
