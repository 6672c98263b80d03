import Luaml.Api
import Luaml.Lua
import Luaml.Registry

/-! Executing a clause: the environment that is set up for its body. -/

namespace Luaml

open Rust Lua

section

variable {H : Type} (vm : Vm H)

mutual
def fieldValueToLua : FieldValue → LuaM H LuaValue
  | .enum s => pure (.string s)
  | .string s => pure (.string s)
  | .number n => pure (.integer n)
  | .float f => pure (.number f)
  | .bool b => pure (.boolean b)
  | .null => pure .nil
  | .list items => do
    let table ← createTable
    setItems table 1 items
    pure (.table table)
  | .map map => do
    let table ← createTable
    setEntries table map
    pure (.table table)

def setItems (table : Ref) (i : Int64) : List FieldValue → LuaM H Unit
  | [] => pure ()
  | item :: items => do
    let value ← fieldValueToLua item
    Lua.set vm table (.integer i) value
    setItems table (i + 1) items

def setEntries (table : Ref) : List (Str × FieldValue) → LuaM H Unit
  | [] => pure ()
  | (key, val) :: map => do
    let value ← fieldValueToLua val
    Lua.set vm table (.string key) value
    setEntries table map
end

/-- The fields of a clause whose pattern is a literal. -/
def clausePolicyToFieldmap (clause : Clause) : FieldMap :=
  clause.policy.fields.foldl (fun map (key, pattern) =>
    match pattern with
    | .enum s => Map.insert map key (.enum s)
    | .stringLiteral s => Map.insert map key (.string s)
    | .numberLiteral n => Map.insert map key (.number n)
    | .boolLiteral b => Map.insert map key (.bool b)
    | _ => map) []

/-- The binding is for this clause. -/
def selects (pattern : List (Str × Pattern)) (clause : Clause) : Bool :=
  pattern.isEmpty || (Pattern.matchFields pattern (clausePolicyToFieldmap clause)).isSome

/-- The way along a dotted path, to the table that gets the last part. -/
def installAt (install : Ref → Str → LuaM H Unit) : List Str → Ref → LuaM H Unit
  | [], _ => pure ()
  | [part], current => install current part
  | part :: parts, current => do
    match ← Lua.get vm current (.string part) with
    | .table t => installAt install parts t
    | _ =>
      let t ← createTable
      Lua.set vm current (.string part) (.table t)
      installAt install parts t

def installNamespaceTable (env : Ref) (ns : Str) (table : Ref) : LuaM H Unit :=
  installAt vm (fun current part => Lua.set vm current (.string part) (.table table))
    (ns.splitOn '.') env

def createApiProxy (ns : Str) (handler : H) : LuaM H Ref := do
  let table ← createTable
  let mt ← createTable
  let index ← createFunction (.apiIndex ns handler)
  Lua.set vm mt (.string "__index".toList) (.function index)
  setMetatable table mt
  pure table

def injectApiNamespace (env : Ref) (ns : Str) (handler : H) : LuaM H Unit :=
  installAt vm (fun current part => do
    let proxy ← createApiProxy vm ns handler
    Lua.set vm current (.string part) (.table proxy)) (ns.splitOn '.') env

def injectApis (env : Ref) (clause : Clause) : List (ApiBindingEntry H) → LuaM H Unit
  | [] => pure ()
  | entry :: entries => do
    if selects entry.spec.pattern clause then
      injectApiNamespace vm env entry.spec.ns entry.spec.handler
    injectApis env clause entries

structure LocalApiBindingSpec (H : Type) where
  ns : Str
  pattern : List (Str × Pattern)
  builder : LuaM H Ref

def installLocals (env : Ref) (clause : Clause) : List (LocalApiBindingSpec H) → LuaM H Unit
  | [] => pure ()
  | spec :: specs => do
    if selects spec.pattern clause then
      let table ← spec.builder
      installNamespaceTable vm env spec.ns table
    installLocals env clause specs

/-- `execute_clause` up to the body: the environment. -/
def setUp (globals : Ref) (clause : Clause) (bindings : FieldBindings)
    (apiBindings : List (ApiBindingEntry H)) (localApiBindings : List (LocalApiBindingSpec H)) :
    LuaM H Ref := do
  let env ← createTable
  let mt ← createTable
  Lua.set vm mt (.string "__index".toList) (.table globals)
  Lua.set vm mt (.string "__newindex".toList) (.table globals)
  setMetatable env mt
  setEntries vm env bindings
  injectApis vm env clause apiBindings
  installLocals vm env clause localApiBindings
  let luamlNs ← createTable
  let dispatchFn ← createFunction .dispatch
  Lua.set vm luamlNs (.string "dispatch".toList) (.function dispatchFn)
  let enumFn ← createFunction .enum
  Lua.set vm luamlNs (.string "enum".toList) (.function enumFn)
  Lua.set vm env (.string "luaml".toList) (.table luamlNs)
  pure env

/-- `body` is what the Lua source does in an environment, and the events that it emits. -/
def executeClause (body : Str → Ref → LuaM H (List FieldMap)) (globals : Ref) (clause : Clause)
    (bindings : FieldBindings) (apiBindings : List (ApiBindingEntry H))
    (localApiBindings : List (LocalApiBindingSpec H)) : LuaM H (List FieldMap) := do
  let env ← setUp vm globals clause bindings apiBindings localApiBindings
  body ("(function()\n".toList ++ clause.behavior.luaSource ++ "\nend)()".toList) env

end

structure ApiEngine (H : Type) where
  apis : ApiBindings H
  heap : Heap H

inductive Op (H : Type)
  | registerApi (spec : ApiBindingSpec H)
  | unregisterApi (id : Nat)
  | replaceApi (id : Nat) (spec : ApiBindingSpec H)
  | execute (clause : Clause) (bindings : FieldBindings)

namespace ApiEngine

variable {H : Type} (vm : Vm H) (body : Str → Ref → LuaM H (List FieldMap)) (globals : Ref)

def apply (engine : ApiEngine H) : Op H → ApiEngine H
  | .registerApi spec => { engine with apis := (engine.apis.registerApi spec).2 }
  | .unregisterApi id => { engine with apis := (engine.apis.unregisterApi id).2 }
  | .replaceApi id spec => { engine with apis := (engine.apis.replaceApi id spec).2 }
  | .execute clause bindings =>
    { engine with heap :=
      (executeClause vm body globals clause bindings engine.apis.entries [] engine.heap).2 }

structure Execution (H : Type) where
  engine : ApiEngine H
  clause : Clause
  bindings : FieldBindings

def executions (engine : ApiEngine H) : List (Op H) → List (Execution H)
  | [] => []
  | .execute clause bindings :: ops =>
    ⟨engine, clause, bindings⟩ ::
      executions (engine.apply vm body globals (.execute clause bindings)) ops
  | op :: ops => executions (engine.apply vm body globals op) ops

end ApiEngine

end Luaml
