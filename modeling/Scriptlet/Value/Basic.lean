import Scriptlet.Tree.Basic

/-!
Values of running programs.

A list holds values, and a function holds its parameters, its body and the scope it was defined in.
A function has a number of its own: two functions are the same only if one definition, carried out
once, made them.  A function of the host is known by a name and runs code of the host's own.
-/

namespace Scriptlet

abbrev ScopeId := Nat

/-- What a host function runs: the clock, or code that a host brings along. -/
inductive HostCode where
  | clock
  | custom (id : Nat)
  deriving DecidableEq, Repr, Inhabited

structure HostFunction where
  name : String
  arity : Nat
  code : HostCode
  deriving DecidableEq, Repr, Inhabited

structure Closure where
  id : Nat
  name : String
  params : List Token
  body : List Stmt
  scope : ScopeId
  deriving Repr, Inhabited

inductive Value where
  | nil
  | bool (b : Bool)
  | int (n : Int64)
  | float (x : Float)
  | str (s : String)
  | list (items : List Value)
  | host (f : HostFunction)
  | closure (f : Closure)
  deriving Repr, Inhabited

namespace Value

def ofLiteral : Literal → Value
  | .nil => .nil
  | .bool b => .bool b
  | .int n => .int n
  | .float x => .float x
  | .str s => .str s

def isTruthy : Value → Bool
  | .nil | .bool false => false
  | _ => true

def typeName : Value → String
  | .nil => "nil"
  | .bool _ => "boolean"
  | .int _ => "integer"
  | .float _ => "float"
  | .str _ => "string"
  | .list _ => "list"
  | .host _ | .closure _ => "function"

def floatOfInt (n : Int64) : Float :=
  Float.ofInt n.toInt

mutual

/-- Equality of the language: numbers by value, lists item by item, host functions by name,
functions by identity. -/
def equals : Value → Value → Bool
  | .nil, .nil => true
  | .bool a, .bool b => a = b
  | .int a, .int b => a = b
  | .float a, .float b => a == b
  | .int a, .float b => floatOfInt a == b
  | .float a, .int b => floatOfInt b == a
  | .str a, .str b => a = b
  | .list a, .list b => equalItems a b
  | .host a, .host b => a.name = b.name
  | .closure a, .closure b => a.id = b.id
  | _, _ => false

def equalItems : List Value → List Value → Bool
  | [], [] => true
  | a :: as, b :: bs => equals a b && equalItems as bs
  | _, _ => false

end

end Value

end Scriptlet
