import ScriptMachine.Document.Token

/-!
# Reading documents

A document is read from the tokens of its text.  Nothing but white space may follow it, and the
bytes of the text must be UTF-8.
-/

namespace ScriptMachine

namespace Document

open Token

mutual

/-- The document at the beginning of a list of tokens, and what follows it. -/
def read? : Nat → List Token → Option (Document × List Token)
  | 0, _ => none
  | fuel + 1, tokens =>
    match tokens with
    | .leaf d :: rest => some (d, rest)
    | .text s :: rest => some (text s, rest)
    | .mark '[' :: .mark ']' :: rest => some (list [], rest)
    | .mark '[' :: rest => (readItems? fuel rest).map fun (items, rest) => (list items, rest)
    | .mark '\x7b' :: .mark '\x7d' :: rest => some (object [], rest)
    | .mark '\x7b' :: rest =>
      (readFields? fuel rest).map fun (fields, rest) => (ofFields fields, rest)
    | _ => none

/-- The items of a list up to its closing bracket. -/
def readItems? : Nat → List Token → Option (List Document × List Token)
  | 0, _ => none
  | fuel + 1, tokens => do
    let (item, rest) ← read? fuel tokens
    match rest with
    | .mark ']' :: rest => return ([item], rest)
    | .mark ',' :: rest =>
      let (items, rest) ← readItems? fuel rest
      return (item :: items, rest)
    | _ => none

/-- The fields of an object up to its closing bracket. -/
def readFields? : Nat → List Token → Option (List (Bytes × Document) × List Token)
  | 0, _ => none
  | fuel + 1, tokens =>
    match tokens with
    | .text key :: .mark ':' :: rest => do
      let (value, rest) ← read? fuel rest
      match rest with
      | .mark '\x7d' :: rest => return ([(key, value)], rest)
      | .mark ',' :: rest =>
        let (fields, rest) ← readFields? fuel rest
        return ((key, value) :: fields, rest)
      | _ => none
    | _ => none

end

/-- Whether bytes are UTF-8. -/
def isUnicode (s : Bytes) : Bool := (String.fromUTF8? ⟨s.toArray⟩).isSome

/-- The document that a text stands for.  Reading a token or a bracket's contents takes at most two
steps a token, which bounds the fuel. -/
def ofText? (s : Bytes) : Option Document := do
  guard (isUnicode s)
  let tokens ← scan? s.length.succ s
  match ← read? (2 * tokens.length + 1) tokens with
  | (d, []) => return d
  | _ => none

end Document

end ScriptMachine
