import LinkCommittee.Json.Reader

/-!
# Records in JSON

A record is an object that names its fields, in any order and each at most once, or an
array that lists all of them in their order.  Whether other names are passed over or
refused is up to the record.
-/

namespace LinkCommittee

namespace JsonValue

/-- The text that a string spells. -/
def text? : JsonValue → Option (List Char)
  | string parts => StringPart.text? parts
  | _ => none

/-- The number below `bound` that is spelled by digits alone. -/
def natBelow? (bound : Nat) : JsonValue → Option Nat
  | number literal => (Decimal.read? literal).bind fun n =>
    if n.toNat < bound then some n.toNat else none
  | _ => none

/-- The 64-bit number that is spelled by digits alone. -/
def uint64? (value : JsonValue) : Option UInt64 := (value.natBelow? UInt64.size).map UInt64.ofNat

/-- The items of an array that has exactly `count` of them. -/
def items? (count : Nat) : JsonValue → Option (List JsonValue)
  | array items => if items.length = count then some items else none
  | _ => none

/-- The value of the only member of a name, if there is one; two are refused. -/
def only? (members : List (Option (List Char) × JsonValue)) (name : String) :
    Option (Option JsonValue) :=
  match members.filter fun (other, _) => other == some name.toList with
  | [] => some none
  | [(_, value)] => some (some value)
  | _ => none

/-- The values of the fields of a record; `closed` refuses members with other names. -/
def record? (names : List String) (closed : Bool) : JsonValue → Option (List (Option JsonValue))
  | array items => if items.length = names.length then some (items.map some) else none
  | object members => do
    let members := members.map fun (name, value) => (StringPart.text? name, value)
    guard (members.all fun (name, _) => match name with
      | none => false
      | some name => !closed || names.any fun known => known.toList == name)
    names.mapM (only? members)
  | _ => none

end JsonValue

end LinkCommittee
