namespace Cythonizer.Toml.Values

mutual

inductive Value
  | string (text : String)
  | integer (value : Int)
  /-- A number with a point or an exponent, as it is written. -/
  | float (text : String)
  | boolean (value : Bool)
  /-- A date, a time of day or both, as it is written. -/
  | dateTime (text : String)
  | array (elements : List Value)
  | table (fields : List Field)

inductive Field
  | field (name : String) (value : Value)

end

def Field.name : Field → String
  | .field name _ => name

def Field.value : Field → Value
  | .field _ value => value

def get? (fields : List Field) (name : String) : Option Value :=
  (fields.find? fun f => f.name = name).map Field.value

end Cythonizer.Toml.Values
