import TimeLake.Library.Json

/-!
Reading a JSON value by names. What is not there is `null`, and a name that an object has
twice stands for the later one.
-/

namespace TimeLake.Library.Json

variable {ν : Type}

def field (name : String) : Json ν → Json ν
  | .obj members => (members.reverse.lookup name).getD .null
  | _ => .null

def asStr : Json ν → Option String
  | .str s => some s
  | _ => none

def asArray : Json ν → List (Json ν)
  | .arr items => items
  | _ => []

end TimeLake.Library.Json
