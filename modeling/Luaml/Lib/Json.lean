import Luaml.Lib.Map
import Luaml.Lib.Num
import Luaml.Lib.Ordered
import Luaml.Lib.Text

namespace Serde

open Rust

inductive JsonNumber
  | posInt (n : UInt64)
  | negInt (n : Int64)
  | float (f : F64)
  deriving DecidableEq

namespace JsonNumber

def ofI64 (n : Int64) : JsonNumber := if n < 0 then .negInt n else .posInt n.toUInt64

def fromF64 (f : F64) : Option JsonNumber := if f.isFinite then some (.float f) else none

def asI64 : JsonNumber → Option Int64
  | .posInt n => if n ≤ Int64.maxValue.toUInt64 then some n.toInt64 else none
  | .negInt n => some n
  | .float _ => none

def asU64 : JsonNumber → Option UInt64
  | .posInt n => some n
  | .negInt _ | .float _ => none

def asF64 : JsonNumber → Option F64
  | .posInt n => some (F64.ofInt n.toNat)
  | .negInt n => some (F64.ofInt n.toInt)
  | .float f => some f

@[simp] theorem asI64_ofI64 (n : Int64) : (ofI64 n).asI64 = some n := by
  by_cases hneg : n < 0
  · rw [ofI64, if_pos hneg, asI64]
  · have hle : n.toUInt64 ≤ Int64.maxValue.toUInt64 :=
      Int64.toUInt64_le (Int64.not_lt.mp hneg) (Int64.le_maxValue n)
    rw [ofI64, if_neg hneg, asI64, if_pos hle, Int64.toInt64_toUInt64]

theorem asF64_isSome (n : JsonNumber) : n.asF64.isSome := by cases n <;> rfl

def Finite : JsonNumber → Prop
  | .float f => f.isFinite
  | _ => True

end JsonNumber

inductive JsonValue
  | null
  | bool (b : Bool)
  | number (n : JsonNumber)
  | string (s : Str)
  | array (items : List JsonValue)
  | object (members : List (Str × JsonValue))
  deriving Inhabited

namespace JsonValue

def get : JsonValue → Str → Option JsonValue
  | .object members, key => Map.get members key
  | _, _ => none

def isNull : JsonValue → Bool
  | .null => true
  | _ => false

def asU64 : JsonValue → Option UInt64
  | .number n => n.asU64
  | _ => none

def asI64 : JsonValue → Option Int64
  | .number n => n.asI64
  | _ => none

def asStr : JsonValue → Option Str
  | .string s => some s
  | _ => none

def asArray : JsonValue → Option (List JsonValue)
  | .array items => some items
  | _ => none

mutual
def Every (P : List JsonValue → Prop) (Q : List (Str × JsonValue) → Prop) : JsonValue → Prop
  | .array items => P items ∧ EveryItem P Q items
  | .object members => Q members ∧ EveryMember P Q members
  | _ => True

def EveryItem (P : List JsonValue → Prop) (Q : List (Str × JsonValue) → Prop) :
    List JsonValue → Prop
  | [] => True
  | item :: items => Every P Q item ∧ EveryItem P Q items

def EveryMember (P : List JsonValue → Prop) (Q : List (Str × JsonValue) → Prop) :
    List (Str × JsonValue) → Prop
  | [] => True
  | (_, v) :: members => Every P Q v ∧ EveryMember P Q members
end

variable {P : List JsonValue → Prop} {Q : List (Str × JsonValue) → Prop}

theorem everyItem_iff {items : List JsonValue} :
    EveryItem P Q items ↔ ∀ v ∈ items, Every P Q v := by
  induction items with
  | nil => simp [EveryItem]
  | cons item items ih => rw [EveryItem, ih, List.forall_mem_cons]

theorem everyMember_iff {members : List (Str × JsonValue)} :
    EveryMember P Q members ↔ ∀ e ∈ members, Every P Q e.2 := by
  induction members with
  | nil => simp [EveryMember]
  | cons e members ih => rw [EveryMember, ih, List.forall_mem_cons]

abbrev Ascends : JsonValue → Prop := Every (fun _ => True) (BTreeMap.Ascending Str.cmp)

/-- A value as it is in memory: the members of every object ascend by key, and an array is no longer
than a vector can be. -/
abbrev Sound : JsonValue → Prop :=
  Every (fun items => items.length < 2 ^ 63) (BTreeMap.Ascending Str.cmp)

abbrev SoundItems : List JsonValue → Prop :=
  EveryItem (fun items => items.length < 2 ^ 63) (BTreeMap.Ascending Str.cmp)

abbrev SoundMembers : List (Str × JsonValue) → Prop :=
  EveryMember (fun items => items.length < 2 ^ 63) (BTreeMap.Ascending Str.cmp)

mutual
def Finite : JsonValue → Prop
  | .number n => n.Finite
  | .array items => FiniteItems items
  | .object members => FiniteMembers members
  | _ => True

def FiniteItems : List JsonValue → Prop
  | [] => True
  | item :: items => Finite item ∧ FiniteItems items

def FiniteMembers : List (Str × JsonValue) → Prop
  | [] => True
  | (_, v) :: members => Finite v ∧ FiniteMembers members
end

end JsonValue

end Serde
