import Luaml.Pattern

namespace Luaml.Pattern

open Rust Str

/-- The reserved enum that matches any enum, and a missing field in `match_fields`. -/
def globalEnum : Str := "global".toList

def isGlobalEnum : Pattern → Bool
  | .enum name => name == globalEnum
  | _ => false

mutual
def matchFieldValue : Pattern → FieldValue → Option FieldBindings
  | .wildcard, _ => some []
  | .enum expected, value =>
    match value with
    | .enum actual => if expected = globalEnum ∨ expected = actual then some [] else none
    | _ => none
  | .stringLiteral expected, value => if value = .string expected then some [] else none
  | .numberLiteral expected, value => if value = .number expected then some [] else none
  | .boolLiteral expected, value => if value = .bool expected then some [] else none
  | .variable name, value => some [(name, value)]
  | .pin _, _ => none
  | .list p, .list array => matchList p array
  | .list _, _ => none
  | .map fields, .map entries => matchMap fields entries []
  | .map _, _ => none

def matchList : ListPattern → List FieldValue → Option FieldBindings
  | .empty, array => if array.isEmpty then some [] else none
  | .headTail _ _, [] => none
  | .headTail head tail, headVal :: tailVals =>
    match matchFieldValue head headVal, matchFieldValue tail (.list tailVals) with
    | some bindings, some tailBindings => some (Map.extend bindings tailBindings)
    | _, _ => none
  | .elements patterns, array =>
    if array.length ≠ patterns.length then none else matchElements patterns array []

def matchElements : List Pattern → List FieldValue → FieldBindings → Option FieldBindings
  | pat :: pats, val :: vals, bindings =>
    match matchFieldValue pat val with
    | some sub => matchElements pats vals (Map.extend bindings sub)
    | none => none
  | _, _, bindings => some bindings

def matchMap : List (Str × Pattern) → List (Str × FieldValue) → FieldBindings →
    Option FieldBindings
  | [], _, bindings => some bindings
  | (key, pat) :: fields, entries, bindings =>
    match Map.get entries key with
    | none => none
    | some val =>
      match matchFieldValue pat val with
      | some sub => matchMap fields entries (Map.extend bindings sub)
      | none => none
end

def matchFieldValueWithContext (pattern : Pattern) (value : FieldValue)
    (context : FieldBindings) : Option FieldBindings :=
  match pattern with
  | .pin name =>
    match Map.get context name with
    | some expected => if expected.eq value then some [] else none
    | none => none
  | _ => matchFieldValue pattern value

def matchFieldsFrom (input : FieldMap) : List (Str × Pattern) → FieldBindings →
    Option FieldBindings
  | [], allBindings => some allBindings
  | (key, pattern) :: fields, allBindings =>
    match Map.get input key with
    | some value =>
      match matchFieldValue pattern value with
      | some bindings => matchFieldsFrom input fields (Map.extend allBindings bindings)
      | none => none
    | none => if isGlobalEnum pattern then matchFieldsFrom input fields allBindings else none

def matchFields (patternFields : List (Str × Pattern)) (input : FieldMap) :
    Option FieldBindings :=
  matchFieldsFrom input patternFields []

end Luaml.Pattern
