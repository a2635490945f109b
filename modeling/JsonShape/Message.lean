import JsonShape.Issue
import JsonShape.Value.Display

/-! Messages of issues in several languages. -/
namespace JsonShape

abbrev Wording := Code → List (String × String) → String

inductive Language where
  | english
  | japanese
  deriving DecidableEq

namespace Language

def ofTag (tag : String) : Language := if tag == "ja" then japanese else english

def detailed (message : String) (data : List (String × String)) (key : String) : String :=
  let detail := (Entries.get? data key).getD ""
  if detail == "" then message else message ++ ": " ++ detail

def wording : Language → Wording
  | english, code, data =>
    match code with
    | .unresolvedRef => detailed "unresolved reference" data "ref"
    | .unsupportedCombinator => "unsupported combinator"
    | .invalidType => detailed "invalid type, expected" data "expected"
    | .required => detailed "required property missing" data "property"
    | .invalidLiteral => detailed "value does not match literal" data "expected"
    | .noMatch => "value matches no alternative"
    | .invalidFormat => "invalid format"
    | .duplicateKey => detailed "duplicate key" data "key"
    | .parseError => "parse error"
    | .truncated => "truncated"
    | .other name => name
  | japanese, code, data =>
    match code with
    | .unresolvedRef => detailed "参照を解決できません" data "ref"
    | .unsupportedCombinator => "サポートされていない組み合わせです"
    | .invalidType => detailed "型が不正です" data "expected"
    | .required => detailed "必須プロパティが不足しています" data "property"
    | .invalidLiteral => detailed "値が一致しません" data "expected"
    | .noMatch => "どの候補にも一致しません"
    | .invalidFormat => "形式が不正です"
    | .duplicateKey => detailed "キーが重複しています" data "key"
    | .parseError => "解析エラー"
    | .truncated => "打ち切られました"
    | .other name => name

end Language

def Issue.localized (issue : Issue) (wording : Wording) : String :=
  wording issue.code (issue.params.map fun (key, value) => (key, value.display))

end JsonShape
