namespace Cythonizer.Json.Value

/-- A number as a multiple of a power of ten: `digits` with the last `scale` ones behind the point.
-/
structure Number where
  digits : Int
  scale : Nat
  deriving DecidableEq, Repr

def Number.ofNat (n : Nat) : Number := { digits := n, scale := 0 }

mutual

inductive Value
  | null
  | boolean (value : Bool)
  | number (value : Number)
  | string (text : String)
  | array (elements : List Value)
  | object (fields : List Field)

inductive Field
  | field (name : String) (value : Value)

end

def Field.name : Field → String
  | .field name _ => name

def Field.value : Field → Value
  | .field _ value => value

/-- The value of the last field of a name. -/
def Value.get? (name : String) : Value → Option Value
  | .object fields => (fields.reverse.find? fun f => f.name = name).map Field.value
  | _ => none

def object (fields : List (String × Value)) : Value :=
  .object (fields.map fun f => .field f.1 f.2)

def ofOption {α : Type} (f : α → Value) : Option α → Value
  | some a => f a
  | none => .null

def ofNat (n : Nat) : Value :=
  .number (.ofNat n)

def Value.string? : Value → Option String
  | .string text => some text
  | _ => none

def Value.boolean? : Value → Option Bool
  | .boolean value => some value
  | _ => none

def Value.nat? : Value → Option Nat
  | .number { digits := .ofNat n, scale := 0 } => some n
  | _ => none

def Value.elements? : Value → Option (List Value)
  | .array elements => some elements
  | _ => none

def Value.fields? : Value → Option (List Field)
  | .object fields => some fields
  | _ => none

end Cythonizer.Json.Value
