import Luaml.Lib.Map
import Luaml.Lib.Num

namespace Luaml

open Rust

inductive FieldValue
  | enum (name : Str)
  | string (text : Str)
  | number (n : Int64)
  | float (f : F64)
  | bool (b : Bool)
  | list (items : List FieldValue)
  | map (entries : List (Str × FieldValue))
  | null

abbrev FieldMap := List (Str × FieldValue)

abbrev FieldBindings := List (Str × FieldValue)

mutual
def FieldValue.decEq : (v w : FieldValue) → Decidable (v = w)
  | .enum s, .enum t | .string s, .string t =>
    if h : s = t then isTrue (by rw [h]) else isFalse (by simp [h])
  | .number m, .number n => if h : m = n then isTrue (by rw [h]) else isFalse (by simp [h])
  | .float f, .float g => if h : f = g then isTrue (by rw [h]) else isFalse (by simp [h])
  | .bool a, .bool b => if h : a = b then isTrue (by rw [h]) else isFalse (by simp [h])
  | .list vs, .list ws =>
    match FieldValue.decEqList vs ws with
    | isTrue h => isTrue (by rw [h])
    | isFalse h => isFalse (by simp [h])
  | .map m, .map m' =>
    match FieldValue.decEqEntries m m' with
    | isTrue h => isTrue (by rw [h])
    | isFalse h => isFalse (by simp [h])
  | .null, .null => isTrue rfl
  | .enum _, .string _ | .enum _, .number _ | .enum _, .float _ | .enum _, .bool _
  | .enum _, .list _ | .enum _, .map _ | .enum _, .null
  | .string _, .enum _ | .string _, .number _ | .string _, .float _ | .string _, .bool _
  | .string _, .list _ | .string _, .map _ | .string _, .null
  | .number _, .enum _ | .number _, .string _ | .number _, .float _ | .number _, .bool _
  | .number _, .list _ | .number _, .map _ | .number _, .null
  | .float _, .enum _ | .float _, .string _ | .float _, .number _ | .float _, .bool _
  | .float _, .list _ | .float _, .map _ | .float _, .null
  | .bool _, .enum _ | .bool _, .string _ | .bool _, .number _ | .bool _, .float _
  | .bool _, .list _ | .bool _, .map _ | .bool _, .null
  | .list _, .enum _ | .list _, .string _ | .list _, .number _ | .list _, .float _
  | .list _, .bool _ | .list _, .map _ | .list _, .null
  | .map _, .enum _ | .map _, .string _ | .map _, .number _ | .map _, .float _
  | .map _, .bool _ | .map _, .list _ | .map _, .null
  | .null, .enum _ | .null, .string _ | .null, .number _ | .null, .float _
  | .null, .bool _ | .null, .list _ | .null, .map _ => isFalse (by simp)

def FieldValue.decEqList : (vs ws : List FieldValue) → Decidable (vs = ws)
  | [], [] => isTrue rfl
  | [], _ :: _ | _ :: _, [] => isFalse (by simp)
  | v :: vs, w :: ws =>
    match FieldValue.decEq v w, FieldValue.decEqList vs ws with
    | isTrue h, isTrue h' => isTrue (by rw [h, h'])
    | isFalse h, _ => isFalse (by simp [h])
    | _, isFalse h => isFalse (by simp [h])

def FieldValue.decEqEntries : (m m' : List (Str × FieldValue)) → Decidable (m = m')
  | [], [] => isTrue rfl
  | [], _ :: _ | _ :: _, [] => isFalse (by simp)
  | (k, v) :: m, (l, w) :: m' =>
    if hk : k = l then
      match FieldValue.decEq v w, FieldValue.decEqEntries m m' with
      | isTrue h, isTrue h' => isTrue (by rw [hk, h, h'])
      | isFalse h, _ => isFalse (by simp [h])
      | _, isFalse h => isFalse (by simp [h])
    else isFalse (by simp [hk])
end

instance : DecidableEq FieldValue := FieldValue.decEq

mutual
/-- `a == b`: the floats in it are compared as numbers and its maps whatever their order. -/
def FieldValue.eq : FieldValue → FieldValue → Bool
  | .enum s, .enum t | .string s, .string t => s == t
  | .number m, .number n => m == n
  | .float f, .float g => f.eq g
  | .bool a, .bool b => a == b
  | .list vs, .list ws => FieldValue.eqList vs ws
  | .map m, .map m' => m.length == m'.length && FieldValue.eqEntries m m'
  | .null, .null => true
  | _, _ => false

def FieldValue.eqList : List FieldValue → List FieldValue → Bool
  | [], [] => true
  | v :: vs, w :: ws => FieldValue.eq v w && FieldValue.eqList vs ws
  | _, _ => false

def FieldValue.eqEntries : FieldMap → FieldMap → Bool
  | [], _ => true
  | (k, v) :: m, m' =>
    (match Map.get m' k with
      | some w => FieldValue.eq v w
      | none => false) && FieldValue.eqEntries m m'
end

structure PatternParseError where
  message : Str
  input : Str
  deriving DecidableEq

def parseErr (message input : Str) : PatternParseError := ⟨message, input⟩

inductive LuamlError
  | parse (message sourceName : Str)
  | pattern (error : PatternParseError)
  | guard (message : Str)
  | lua (message : Str)
  | api (namespace_ method message : Str)
  | io (message : Str)
  deriving DecidableEq

end Luaml
