import ScriptMachine.Document.Basic
import ScriptMachine.Number.Shortest

/-!
# Writing documents

A document is written on one line, or with a line for every item and field, each nested level being
indented.  Numbers that are not finite are written as nothing at all.
-/

namespace ScriptMachine

namespace Document

/-! ## Leaves -/

/-- Doubles are positional from 10^-4 up to 10^15, and a whole one ends in `.0`. -/
def numberFormat : Number.DecimalFormat := ⟨-4, 15, 2, .ofString ".0"⟩

/-- The text of a double. -/
def numberText (x : Float) : Bytes :=
  (Number.exactText? numberFormat x).getD (.ofString "null")

/-- The escape of a byte in a string: control characters, the quotation mark and the backslash
have one. -/
def escapeText (b : UInt8) : Bytes :=
  match b.toNat with
  | 0x22 => .ofString "\\\""
  | 0x5c => .ofString "\\\\"
  | 0x08 => .ofString "\\b"
  | 0x0c => .ofString "\\f"
  | 0x0a => .ofString "\\n"
  | 0x0d => .ofString "\\r"
  | 0x09 => .ofString "\\t"
  | n => if n < 0x20 then .ofString "\\u00" ++ Bytes.hexOfByte b else [b]

/-- The text of a string. -/
def stringText (s : Bytes) : Bytes := 0x22 :: (s.flatMap escapeText ++ [0x22])

/-! ## Trees -/

/-- Where the parts of a document are put. -/
structure Layout where
  /-- Count of spaces for a level of nesting; none for a document on one line. -/
  indent : Option Nat := none
  /-- The level of nesting. -/
  level : Nat := 0

namespace Layout

/-- The layout one level deeper. -/
def inner (layout : Layout) : Layout := { layout with level := layout.level + 1 }

/-- The break before a part, nothing in a document on one line. -/
def lineBreak (layout : Layout) : Bytes :=
  match layout.indent with
  | none => []
  | some n => 0x0a :: List.replicate (n * layout.level) 0x20

/-- What stands between a key and its value. -/
def colon (layout : Layout) : Bytes :=
  if layout.indent.isSome then .ofString ": " else .ofString ":"

/-- Parts between brackets, with commas between them. -/
def enclose (layout : Layout) («open» close : Char) (parts : List Bytes) : Bytes :=
  match parts with
  | [] => [Bytes.ofChar «open», Bytes.ofChar close]
  | _ =>
    Bytes.ofChar «open» ::
      (Bytes.join [0x2c] (parts.map (layout.inner.lineBreak ++ ·)) ++ layout.lineBreak ++
        [Bytes.ofChar close])

end Layout

mutual

/-- The text of a document. -/
def write (layout : Layout) : Document → Bytes
  | null => .ofString "null"
  | boolean true => .ofString "true"
  | boolean false => .ofString "false"
  | integer n => .ofInt n
  | number x => numberText x
  | text s => stringText s
  | list items => layout.enclose '[' ']' (writeItems layout.inner items)
  | object fields => layout.enclose '\x7b' '\x7d' (writeFields layout.inner fields)

/-- The texts of documents. -/
def writeItems (layout : Layout) : List Document → List Bytes
  | [] => []
  | item :: items => write layout item :: writeItems layout items

/-- The texts of fields. -/
def writeFields (layout : Layout) : List (Bytes × Document) → List Bytes
  | [] => []
  | (key, value) :: fields =>
    Bytes.concat [stringText key, layout.colon, write layout value] :: writeFields layout fields

end

/-- The text of a document on one line. -/
def toText (d : Document) : Bytes := d.write {}

/-- The text of a document with two spaces for a level of nesting. -/
def toIndentedText (d : Document) : Bytes := d.write { indent := some 2 }

end Document

end ScriptMachine
