/-!
# Bound values

A `Value` is what a statement sends beside its text, one for each placeholder. `ToValue` is
the class of types whose elements can be bound; it fixes that an unsigned integer is `uint`
only where no signed one of 64 bits equals it.
-/

namespace ClauseTree

inductive Value where
  | null
  | bool (b : Bool)
  | int (n : Int64)
  /-- An integer that is too great for `int`. -/
  | uint (n : UInt64)
  | float (x : Float)
  | text (s : String)
  | blob (bytes : List UInt8)
  /-- The value was never supplied. It still takes its placeholder. -/
  | undefined
  deriving BEq, Inhabited, Repr

namespace Value

def isUndefined : Value → Bool
  | .undefined => true
  | _ => false

/-- The value of a natural number below `2 ^ 64`. -/
def ofNat (n : Nat) : Value :=
  if n < Nat.pow 2 63 then .int (Int64.ofNat n) else .uint (UInt64.ofNat n)

/-- The value of an integer from `-2 ^ 63` to `2 ^ 64 - 1`. -/
def ofInt : Int → Value
  | .ofNat n => ofNat n
  | n => .int (Int64.ofInt n)

end Value

/-- The types whose elements can be bound. -/
class ToValue (α : Type) where
  /-- The value that is bound for an element. -/
  toValue : α → Value

export ToValue (toValue)

instance : ToValue Value := ⟨id⟩
instance : ToValue Bool := ⟨.bool⟩
instance : ToValue Int64 := ⟨.int⟩
instance : ToValue Int32 := ⟨fun n => .int n.toInt64⟩
instance : ToValue UInt32 := ⟨fun n => .int n.toUInt64.toInt64⟩
instance : ToValue UInt64 := ⟨fun n => .ofNat n.toNat⟩
instance : ToValue Float := ⟨.float⟩
instance : ToValue String := ⟨.text⟩
instance : ToValue (List UInt8) := ⟨.blob⟩

/-- A missing element is the null of the database, which is a value like any other. -/
instance {α : Type} [ToValue α] : ToValue (Option α) := ⟨fun x => x.elim .null toValue⟩

end ClauseTree
