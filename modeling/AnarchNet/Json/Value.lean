import AnarchNet.Lib.Path
import Mathlib.Algebra.Group.Int.Defs
import Mathlib.Algebra.Group.Nat.Defs

/-!
# JSON values

The values of `boost::json`, with the accessors that the daemon uses. An object is a list of
pairs in which the first pair of a name counts. The non-const `operator[]` appends a null value
under a missing name; reading such a field is reading null, and nothing else of the appended pair
is ever seen, so a field is modelled as what is read.
-/

namespace AnarchNet.Json

open FileSystem

/-- `Value`. A real number is kept as its literal. -/
inductive Value where
  | obj (fields : List (Bytes × Value))
  | array (items : List Value)
  | str (text : Bytes)
  | bool (flag : Bool)
  | int (number : Int)
  | real (literal : Bytes)
  | null
  | uint (number : Nat)

/-- `Value_type`. -/
inductive ValueType where
  | objType
  | arrayType
  | strType
  | boolType
  | intType
  | realType
  | nullType
  deriving DecidableEq

namespace Value

/-- `type`: an unsigned number has the type of a signed one. -/
def type : Value → ValueType
  | obj _ => .objType
  | array _ => .arrayType
  | str _ => .strType
  | bool _ => .boolType
  | int _ => .intType
  | real _ => .realType
  | null => .nullType
  | uint _ => .intType

/-- `is_null`. -/
def isNull (value : Value) : Bool := value.type = .nullType

/-- `get_str`; a value of another type throws. -/
def getStr : Value → Option Bytes
  | str text => some text
  | _ => none

/-- `get_obj`; a value of another type throws. -/
def getObj : Value → Option (List (Bytes × Value))
  | obj fields => some fields
  | _ => none

/-- `get_bool`; a value of another type throws. -/
def getBool : Value → Option Bool
  | bool flag => some flag
  | _ => none

/-- `get_int`: the number in 64 bits, cut to an `int`; a value of another type throws. -/
def getInt : Value → Option Int
  | int number => some (Int.bmod number (2 ^ 32))
  | uint number => some (Int.bmod number (2 ^ 32))
  | _ => none

/-- `operator[]` with a name; a value that is not an object throws. -/
def field (value : Value) (name : Bytes) : Option Value :=
  value.getObj.map fun fields => (fields.lookup name).getD null

/-- `contains`; a value that is not an object throws. -/
def contains (value : Value) (name : Bytes) : Option Bool :=
  value.getObj.map fun fields => (fields.lookup name).isSome

end Value

end AnarchNet.Json
