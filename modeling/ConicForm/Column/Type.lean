/-!
# Types of columns

## Main definitions

* `VariableType`: the values a column may take
* `VariableType.code`: its letter in tables and messages
-/

namespace ConicForm

/-- The values that a column may take apart from its bounds. -/
inductive VariableType where
  | continuous
  | binary
  | integer
  deriving DecidableEq, Repr, Inhabited

namespace VariableType

/-- The letter of a type. -/
def code : VariableType → Char
  | continuous => 'C'
  | binary => 'B'
  | integer => 'I'

/-- The text of a type, as in messages. -/
def text (t : VariableType) : String := t.code.toString

end VariableType

end ConicForm
