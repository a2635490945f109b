import JsonShape.Value

/-! Type expressions of Go, as far as declarations of shapes need them. -/
namespace JsonShape.Declaration

structure Field (α : Type) where
  goName : String
  jsonName : String
  type : α
  omitEmpty : Bool
  /-- The default of the property, which a comment shows. -/
  default? : Option Value

inductive GoType where
  | ident (name package : String)
  | slice (element : GoType)
  | map (element : GoType)
  | pointer (element : GoType)
  | struct (fields : List (Field GoType))
  | absent

instance : Inhabited GoType := ⟨.absent⟩

namespace GoType

def any : GoType := ident "any" ""

def isNilable : GoType → Bool
  | slice _ | map _ | pointer _ => true
  | ident name _ => name == "any"
  | _ => false

mutual
def packages : GoType → List String
  | ident _ package => if package == "" then [] else [package]
  | slice element | map element | pointer element => element.packages
  | struct fields => fieldPackages fields
  | absent => []

def fieldPackages : List (Field GoType) → List String
  | [] => []
  | ⟨_, _, type, _, _⟩ :: rest => type.packages ++ fieldPackages rest
end

end GoType

structure Decl where
  name : String
  type : GoType
  comment : String

end JsonShape.Declaration
