import JsonShape.Bytes.Base64
import JsonShape.Issue

/-! Leaves: single values that look one way in a program and another on the wire. -/
namespace JsonShape.Wire

/-- The forms of a leaf: a moment, a calendar day, bytes, or no difference at all. -/
inductive Leaf where
  | moment | day | base64 | identity
  deriving DecidableEq

def invalid (message hint : String) : Issue :=
  { path := "/", code := .invalidFormat, message, hint, cause? := some message }

def Leaf.decode (leaf : Leaf) (text : String) : Except Issue Value :=
  match leaf with
  | moment =>
    match Time.Moment.ofRfc3339? text with
    | some t => .ok (.time t)
    | none => .error (invalid "invalid RFC3339 time" "date-time")
  | day =>
    match Time.Moment.ofDateText? text with
    | some t => .ok (.time t)
    | none => .error (invalid "invalid full-date" "date")
  | base64 =>
    match Bytes.Base64.decode? text with
    | some bs => .ok (.bytes bs)
    | none => .error (invalid "invalid base64" "binary")
  | identity => .ok (.string text)

def Leaf.encodeTime (leaf : Leaf) (t : Time.Moment) : String :=
  match leaf with
  | day => t.dateText
  | _ => t.toUtc.rfc3339

def Leaf.encode (leaf : Leaf) (v : Value) : Value :=
  match leaf, v with
  | moment, .time t | day, .time t => .string (leaf.encodeTime t)
  | base64, .bytes bs => .string (Bytes.Base64.encode bs)
  | _, v => v

end JsonShape.Wire
