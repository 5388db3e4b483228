/-! # Octets

Text whose encoding is not known yet is a list of **octets**: characters below 256, one for every
byte. Programs put out octets; only what is told on as a line has to be text. -/

namespace StepFlow.Text

/-- A list of characters below 256, one for every byte. -/
abbrev Octets := List Char

namespace Octets

/-- The octets of some bytes. -/
def ofBytes (bytes : ByteArray) : Octets := bytes.toList.map fun b => Char.ofNat b.toNat

/-- The octets of a text. -/
def ofString (s : String) : Octets := ofBytes s.toUTF8

/-- The bytes of octets. -/
def toBytes (o : Octets) : ByteArray :=
  o.foldl (fun bytes c => bytes.push (UInt8.ofNat c.toNat)) .empty

/-- The text that octets encode, if they do. -/
def toString? (o : Octets) : Option String := String.fromUTF8? o.toBytes

/-- The text that octets encode; octets that encode none stand for themselves. -/
def text (o : Octets) : String := o.toString?.getD (String.ofList o)

/-- Whether octets come before others, or are the same, octet by octet. -/
def isAtMost : Octets → Octets → Bool
  | [], _ => true
  | _ :: _, [] => false
  | a :: o, b :: p => a.toNat < b.toNat || (a == b && isAtMost o p)

/-- Splits octets at every line end; what follows the last one is a line too unless it is empty. -/
def lines (o : Octets) : List Octets :=
  let (last, done) := o.foldl (fun (acc : Octets × List Octets) c =>
    if c = '\n' then ([], acc.1.reverse :: acc.2) else (c :: acc.1, acc.2)) ([], [])
  (if last.isEmpty then done else last.reverse :: done).reverse

end Octets

end StepFlow.Text
