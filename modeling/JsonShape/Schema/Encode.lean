import JsonShape.Schema.Location
import JsonShape.Value.Document

/-! Writing schemas as documents. Keywords stand in a fixed order; empty lists and maps are left
out like absent ones. -/
namespace JsonShape.Schema
open Json

def textMember (name text : String) : List (String × String) :=
  if text == "" then [] else [(name, quote text)]

def groupMember {α : Type} (name : String) (write : List α → String) :
    Option (List α) → List (String × String)
  | none | some [] => []
  | some items => [(name, write items)]

def valueMember (name : String) (v? : Option Value) : List (String × String) :=
  v?.toList.map fun v => (name, v.document?.getD "null")

def typeMember (t : TypeSet) : List (String × String) :=
  if t.isAbsent then [] else [("type", t.text)]

def plainMembers (k : Keywords Schema) : List (String × String) :=
  textMember "$id" k.id ++ textMember "$schema" k.dialect ++ textMember "$ref" k.ref ++
    textMember "title" k.title ++ textMember "description" k.description ++ typeMember k.type ++
    textMember "format" k.format ++
    groupMember "enum" (fun vs => writeList (vs.map fun v => v.document?.getD "null")) k.enum? ++
    valueMember "const" k.const? ++ valueMember "default" k.default?

mutual
def text : Schema → String
  | .node ⟨boolean?, id, dialect, ref, title, description, type, format, enum?, const?,
      default?, properties?,
      required?, additionalProperties?, items?, defs?, definitions?, anyOf?, oneOf?, allOf?⟩ =>
    match boolean? with
    | some b => if b then "true" else "false"
    | none =>
      let plain := plainMembers
          { id, dialect, ref, title, description, type, format, enum?, const?, default? }
      let object := mapMember "properties" properties? ++
        groupMember "required" (fun names => writeList (names.map quote)) required? ++
        subMember "additionalProperties" additionalProperties? ++ subMember "items" items?
      let definitions := mapMember "$defs" defs? ++ mapMember "definitions" definitions?
      let combinators := listMember "anyOf" anyOf? ++ listMember "oneOf" oneOf? ++
          listMember "allOf" allOf?
      writeMembers (plain ++ object ++ definitions ++ combinators)

def subText : Option Schema → String
  | none => "null"
  | some s => s.text

def subMember (name : String) : Option Schema → List (String × String)
  | none => []
  | some s => [(name, s.text)]

def mapMember (name : String) : Option (List (String × Option Schema)) → List (String × String)
  | none => []
  | some entries => if entries.isEmpty then [] else [(name, writeObject (entryTexts entries))]

def entryTexts : List (String × Option Schema) → List (String × String)
  | [] => []
  | (key, s) :: rest => (key, subText s) :: entryTexts rest

def listMember (name : String) : Option (List (Option Schema)) → List (String × String)
  | none => []
  | some items => if items.isEmpty then [] else [(name, writeList (itemTexts items))]

def itemTexts : List (Option Schema) → List String
  | [] => []
  | s :: rest => subText s :: itemTexts rest
end

end JsonShape.Schema
