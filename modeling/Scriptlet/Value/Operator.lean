import Scriptlet.Value.Failure

/-!
Operators on values.

Integer results are exact or an error: they have to fit a signed word of sixty-four bits.  An
integer meets a float as a float.  Results that need more than the largest possible block of memory
are refused before they are built.
-/

namespace Scriptlet

inductive BinaryOp where
  | add
  | sub
  | mul
  | div
  | rem
  | pow
  | eq
  | ne
  | lt
  | le
  | gt
  | ge
  deriving DecidableEq, Repr, Inhabited

inductive UnaryOp where
  | neg
  | not
  deriving DecidableEq, Repr, Inhabited

namespace BinaryOp

def ofKind? : Kind → Option BinaryOp
  | .plus => some .add
  | .minus => some .sub
  | .star => some .mul
  | .slash => some .div
  | .percent => some .rem
  | .starStar => some .pow
  | .equalEqual => some .eq
  | .bangEqual => some .ne
  | .less => some .lt
  | .lessEqual => some .le
  | .greater => some .gt
  | .greaterEqual => some .ge
  | _ => none

def ofCompound? : Kind → Option BinaryOp
  | .plusEqual => some .add
  | .minusEqual => some .sub
  | .starEqual => some .mul
  | .slashEqual => some .div
  | .percentEqual => some .rem
  | _ => none

def symbol : BinaryOp → String
  | .add => "+"
  | .sub => "-"
  | .mul => "*"
  | .div => "/"
  | .rem => "%"
  | .pow => "**"
  | .eq => "=="
  | .ne => "!="
  | .lt => "<"
  | .le => "<="
  | .gt => ">"
  | .ge => ">="

end BinaryOp

def UnaryOp.ofKind? : Kind → Option UnaryOp
  | .minus => some .neg
  | .bang | .kwNot => some .not
  | _ => none

namespace Value

def maxBytes : Nat := Nat.pow 2 63 - 1

def itemBytes : Nat := 24

def sized (n : Nat) : Except Failure Nat :=
  if n < UInt64.size then .ok n else .error .outOfMemory

/-- Memory is asked for before anything is put in it. -/
def reserve (bytes : Nat) : Except Failure Unit :=
  if maxBytes < bytes then .error .outOfMemory else .ok ()

/-- A size that does not fit a word could not be held either. -/
theorem sized_reserve {α : Type} {k : Nat} (hk : 0 < k) (n : Nat) (result : Except Failure α) :
    (do
      let size ← sized n
      reserve (k * size)
      result) = if maxBytes < k * n then .error .outOfMemory else result := by
  have hle := Nat.le_mul_of_pos_left n hk
  unfold sized
  by_cases hn : n < UInt64.size
  · rw [if_pos hn]
    change (reserve (k * n) >>= fun _ => result) = _
    unfold reserve
    split <;> rfl
  · have hlong : maxBytes < k * n := by
      have hmax : maxBytes < UInt64.size := by decide
      omega
    rw [if_neg hn, if_pos hlong]
    rfl

/-! ## Integers -/

def inWord (z : Int) : Bool :=
  Int64.minValue.toInt ≤ z && z ≤ Int64.maxValue.toInt

def ofInt? (z : Int) : Option Value :=
  if inWord z then some (.int (Int64.ofInt z)) else none

def exact (op : BinaryOp) (z : Int) : Except Failure Value :=
  match ofInt? z with
  | some v => .ok v
  | none => .error (.integerOverflow op.symbol)

/-- A power that fits a word, if there is one.  From the exponent 64 on only the powers of 0, 1 and
-1 fit, and these depend on no more than the exponent's parity. -/
def power? (base : Int) (exponent : Nat) : Option Int :=
  if base.natAbs ≤ 1 then
    some (base.pow (if exponent = 0 then 0 else 2 - exponent % 2))
  else if exponent < 64 && inWord (base.pow exponent) then some (base.pow exponent)
  else none

def intPower (base exponent : Int) : Except Failure Value :=
  if UInt32.size ≤ exponent.natAbs then .error (.integerOverflow BinaryOp.pow.symbol)
  else
    match power? base exponent.natAbs with
    | none => .error (.integerOverflow BinaryOp.pow.symbol)
    | some p => .ok (if exponent < 0 then .str ("1/" ++ toString p) else .int (Int64.ofInt p))

def intBinary (op : BinaryOp) (a b : Int) : Except Failure Value :=
  match op with
  | .add => exact op (a + b)
  | .sub => exact op (a - b)
  | .mul => exact op (a * b)
  | .div => if b = 0 then .error .divisionByZero else exact op (a.tdiv b)
  | .rem =>
      if b = 0 then .error .divisionByZero
      else if inWord (a.tdiv b) then exact op (a.tmod b)
      else .error (.integerOverflow op.symbol)
  | .pow => intPower a b
  | .eq => .ok (.bool (a = b))
  | .ne => .ok (.bool (a ≠ b))
  | .lt => .ok (.bool (a < b))
  | .le => .ok (.bool (a ≤ b))
  | .gt => .ok (.bool (a > b))
  | .ge => .ok (.bool (a ≥ b))

/-! ## Floats -/

def floatBinary (op : BinaryOp) (a b : Float) : Value :=
  match op with
  | .add => .float (a + b)
  | .sub => .float (a - b)
  | .mul => .float (a * b)
  | .div => .float (a / b)
  | .rem => .float (Decimal.remainder a b)
  | .pow => .float (a.pow b)
  | .eq => .bool (a == b)
  | .ne => .bool (!(a == b))
  | .lt => .bool (a < b)
  | .le => .bool (a ≤ b)
  | .gt => .bool (b < a)
  | .ge => .bool (b ≤ a)

/-! ## Texts -/

def textBinary? (op : BinaryOp) (a b : String) : Option Value :=
  match op with
  | .add => some (.str (a ++ b))
  | .lt => some (.bool (a < b))
  | .le => some (.bool (!(b < a)))
  | .gt => some (.bool (b < a))
  | .ge => some (.bool (!(a < b)))
  | _ => none

def repeated (s : String) (count : Nat) : String :=
  if s.isEmpty then "" else String.join (List.replicate count s)

def replicate (s : String) (count : Int) : Except Failure Value := do
  if count < 0 then .error .negativeArgument
  else
    let total ← sized (s.utf8ByteSize * count.toNat)
    reserve total
    return .str (repeated s count.toNat)

/-! ## All values -/

def mismatch (op : BinaryOp) (a b : Value) : Failure :=
  .typeMismatch op.symbol a.inspect b.inspect

def ordered (op : BinaryOp) (a b : Value) : Except Failure Value :=
  match a, b with
  | .int m, .int n => intBinary op m.toInt n.toInt
  | .float x, .float y => .ok (floatBinary op x y)
  | .int m, .float y => .ok (floatBinary op (floatOfInt m) y)
  | .float x, .int n => .ok (floatBinary op x (floatOfInt n))
  | .str s, .str t =>
      match textBinary? op s t with
      | some v => .ok v
      | none => .error (mismatch op a b)
  | .str s, .int n => if op = .mul then replicate s n.toInt else .error (mismatch op a b)
  | _, _ => .error (mismatch op a b)

def binary (op : BinaryOp) (a b : Value) : Except Failure Value :=
  match op with
  | .eq => .ok (.bool (equals a b))
  | .ne => .ok (.bool (!(equals a b)))
  | op => ordered op a b

def unary (op : UnaryOp) (v : Value) : Except Failure Value :=
  match op, v with
  | .not, v => .ok (.bool (!v.isTruthy))
  | .neg, .int n =>
      match ofInt? (-n.toInt) with
      | some v => .ok v
      | none => .error (.integerOverflow "-")
  | .neg, .float x => .ok (.float (-x))
  | .neg, _ => .error (.operandNotNumber "-")

/-! ## Ranges -/

def rangeLength (first last : Int) (inclusive : Bool) : Nat :=
  (last - first + (if inclusive then 1 else 0)).toNat

theorem toInt_next {first last : Int64} (h : first < last) :
    (first + 1).toInt = first.toInt + 1 := by
  have hlt := Int64.lt_iff_toInt_lt.mp h
  have hlast := Int64.toInt_lt last
  have hfirst := Int64.le_toInt first
  rw [Int64.toInt_add, Int64.toInt_one]
  exact Int.bmod_eq_of_le (by omega) (by omega)

/-- Behind the items come the integers from `first` on, but not `last`. -/
def fillBelow (items : Array Value) (first last : Int64) : Array Value :=
  if first < last then fillBelow (items.push (.int first)) (first + 1) last else items
termination_by (last.toInt - first.toInt).toNat
decreasing_by
  next h =>
    have hlt := Int64.lt_iff_toInt_lt.mp h
    rw [toInt_next h]
    omega

/-- Behind the items come the integers from `first` on with `last`, after which none is counted. -/
def fillUpTo (items : Array Value) (first last : Int64) : Array Value :=
  if first < last then fillUpTo (items.push (.int first)) (first + 1) last
  else if first = last then items.push (.int first)
  else items
termination_by (last.toInt - first.toInt).toNat
decreasing_by
  next h =>
    have hlt := Int64.lt_iff_toInt_lt.mp h
    rw [toInt_next h]
    omega

/-- The integers from `first` to `last` in order; bounds that are no integers give `nil`.  How many
there are is worked out before the list is filled, and nothing counts along when it is. -/
def range (first last : Value) (inclusive : Bool) : Except Failure Value :=
  match first, last with
  | .int a, .int b => do
      let length ← sized (rangeLength a.toInt b.toInt inclusive)
      reserve (itemBytes * length)
      return .list (if inclusive then fillUpTo #[] a b else fillBelow #[] a b).toList
  | _, _ => .ok .nil

end Value

end Scriptlet
