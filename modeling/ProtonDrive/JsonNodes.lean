import Mathlib.Data.Rat.Defs
import Mathlib.Algebra.Order.Ring.Int

/-!
# JSON nodes as json-glib reads them

Parsed JSON and the member getters of json-glib. A getter never fails: on a missing object, a
missing member or a member of another type it complains to the log and returns null, zero or
false, here `none`, `0` or `false`.
-/

namespace ProtonDrive.JsonNodes

inductive JsonNode
  | null
  | boolean (b : Bool)
  | int (i : ℤ)
  | double (q : ℚ)
  | string (s : String)
  | array (elements : List JsonNode)
  | object (members : List (String × JsonNode))

abbrev JsonObject := List (String × JsonNode)

/-- A pointer to an object, which may be null. -/
abbrev ObjectRef := Option JsonObject

def member (obj : ObjectRef) (name : String) : Option JsonNode :=
  obj.bind fun members => members.lookup name

def hasMember (obj : ObjectRef) (name : String) : Bool := (member obj name).isSome

def getObjectMember (obj : ObjectRef) (name : String) : ObjectRef :=
  match member obj name with
  | some (.object members) => some members
  | _ => none

def getArrayMember (obj : ObjectRef) (name : String) : Option (List JsonNode) :=
  match member obj name with
  | some (.array elements) => some elements
  | _ => none

def getStringMember (obj : ObjectRef) (name : String) : Option String :=
  match member obj name with
  | some (.string s) => some s
  | _ => none

/-- Numbers are truncated and booleans count as zero and one. -/
def getIntMember (obj : ObjectRef) (name : String) : ℤ :=
  match member obj name with
  | some (.int i) => i
  | some (.double q) => q.num.tdiv q.den
  | some (.boolean b) => if b then 1 else 0
  | _ => 0

def getBooleanMember (obj : ObjectRef) (name : String) : Bool :=
  match member obj name with
  | some (.boolean b) => b
  | some (.int i) => i ≠ 0
  | some (.double q) => q ≠ 0
  | _ => false

def JsonNode.getObject : JsonNode → ObjectRef
  | .object members => some members
  | _ => none

@[simp] theorem member_nil (name : String) : member (some []) name = none := rfl

@[simp] theorem member_cons (key name : String) (node : JsonNode) (members : JsonObject) :
    member (some ((key, node) :: members)) name =
      if name = key then some node else member (some members) name := by
  simp only [member, Option.bind_some, List.lookup_cons]
  by_cases h : name = key
  · simp [h]
  · simp [h, beq_false_of_ne h]

end ProtonDrive.JsonNodes
