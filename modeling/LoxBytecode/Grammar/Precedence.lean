/-!
# Precedence

Eleven levels of binding power, from nothing to the parts that cannot be taken
apart.  Only two of them belong to operators of this language; the others keep
the places of the operators that expressions may get.
-/

namespace LoxBytecode

/-- How tightly an operator binds its operands. -/
inductive Precedence where
  | none
  | assignment
  | or
  | and
  | equality
  | comparison
  | term
  | factor
  | unary
  | call
  | primary
  deriving DecidableEq, Repr

namespace Precedence

def all : List Precedence :=
  [none, assignment, or, and, equality, comparison, term, factor, unary, call, primary]

/-- The place of a level, counted from zero. -/
def rank : Precedence → Nat
  | none => 0
  | assignment => 1
  | or => 2
  | and => 3
  | equality => 4
  | comparison => 5
  | term => 6
  | factor => 7
  | unary => 8
  | call => 9
  | primary => 10

def next : Precedence → Precedence
  | none => assignment
  | assignment => or
  | or => and
  | and => equality
  | equality => comparison
  | comparison => term
  | term => factor
  | factor => unary
  | unary => call
  | call => primary
  | primary => primary

end Precedence

end LoxBytecode
