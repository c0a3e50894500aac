import StackFlow.Text
import StackFlow.Yaml.Node
import StackFlow.Yaml.ReadError

/-!
# The value of a scalar in a document

A tag decides how the text of a scalar is taken. Without one the style does: only a plain scalar
stands for something else than its text.
-/

namespace StackFlow.Yaml

/-- The text of octets in UTF-8; an octet that is part of no character shows as a replacement
character. -/
def textOfOctets (bs : List UInt8) : String :=
  (String.fromUTF8? ⟨bs.toArray⟩).getD
    (String.ofList (bs.map fun b => if b < 128 then Char.ofNat b.toNat else '\ufffd'))

namespace Scalar

/-- The tags of the values that a text may have the form of. -/
def formTags : List String := ["!!null", "!!bool", "!!int", "!!float", "!!timestamp"]

/-- The value of a text that must have the form for a tag; a signed integer of 64 bits is a floating
point number, too. -/
def ofForm (tag text : String) : Except Problem Scalar :=
  let value := Scalar.resolve (tag = "!!timestamp") text
  if tag = value.tag then .ok value
  else
    match value with
    | .int i =>
      match Number.Binary64.ofDecimal? (i < 0) i.natAbs 0 with
      | some x =>
        if tag = "!!float" && i < Number.signedBound then .ok (.float x)
        else .error (.wrongTag value.tag text tag)
      | none => .error (.wrongTag value.tag text tag)
    | _ => .error (.wrongTag value.tag text tag)

/-- What a scalar stands for, by its tag, its text and its style. -/
def ofNode (tag? : Option String) (text : String) (style : ScalarStyle) : Except Problem Scalar :=
  match tag? with
  | none => .ok (if style = .plain && text ≠ "<<" then .resolve true text else .text text)
  | some tag =>
    if tag = "!!binary" then
      match Text.base64Decode text.toList with
      | some bs => .ok (.text (textOfOctets bs))
      | none => .error .badBinary
    else if formTags.contains tag then ofForm tag text
    else .ok (.text text)

end Scalar

end StackFlow.Yaml
