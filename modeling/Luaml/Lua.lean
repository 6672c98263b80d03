import Luaml.Types

/-! The Lua heap as the host gets at it: tables with their metatables, and functions. -/

namespace Luaml.Lua

open Rust

abbrev Ref := Nat

def utf8 (s : Str) : List UInt8 := s.flatMap String.utf8EncodeChar

abbrev NotUtf8 := { bytes : List UInt8 // ∀ s, utf8 s ≠ bytes }

inductive LuaValue
  | nil
  | boolean (b : Bool)
  | integer (n : Int64)
  | number (f : F64)
  | string (s : Str)
  | bytes (b : NotUtf8)
  | luaEnum (name : Str)
  | table (r : Ref)
  | function (r : Ref)
  | userdata (r : Ref)
  deriving DecidableEq

def LuaValue.typeName : LuaValue → Str
  | .nil => "nil".toList
  | .boolean _ => "boolean".toList
  | .integer _ => "integer".toList
  | .number _ => "number".toList
  | .string _ | .bytes _ => "string".toList
  | .luaEnum _ | .userdata _ => "userdata".toList
  | .table _ => "table".toList
  | .function _ => "function".toList

/-- The functions that the executor creates for a handler of type `H` and for the `luaml`
namespace, and all others with the values that they capture. -/
inductive Function (H : Type)
  | apiIndex (ns : Str) (handler : H)
  | apiMethod (ns method : Str) (handler : H)
  | dispatch
  | enum
  | other (captured : List LuaValue)
  deriving DecidableEq

inductive Object (H : Type)
  | table (entries : List (LuaValue × LuaValue)) (metatable : Option Ref)
  | function (f : Function H)
  | userdata (captured : List LuaValue)
  deriving DecidableEq

abbrev Heap (H : Type) := List (Object H)

/-- What the host does with the heap, up to the first error. -/
def LuaM (H α : Type) := Heap H → Except Str α × Heap H

namespace LuaM

variable {H α β : Type}

def bind (x : LuaM H α) (f : α → LuaM H β) : LuaM H β := fun h =>
  match x h with
  | (.ok a, h) => f a h
  | (.error e, h) => (.error e, h)

instance : Monad (LuaM H) where
  pure a := fun h => (.ok a, h)
  bind := bind

def throw (message : Str) : LuaM H α := fun h => (.error message, h)

end LuaM

/-- What the virtual machine does when it calls a function that is not an `apiIndex`, and when it
indexes a value that is not a table; and the metatables that it has for such values. -/
structure Vm (H : Type) where
  metatables : List Ref
  call : Ref → List LuaValue → LuaM H LuaValue
  index : LuaValue → LuaValue → LuaM H LuaValue
  newindex : LuaValue → LuaValue → LuaValue → LuaM H Unit

variable {H : Type}

def alloc (o : Object H) : LuaM H Ref := fun h => (.ok h.length, h ++ [o])

def createTable : LuaM H Ref := alloc (.table [] none)

def createFunction (f : Function H) : LuaM H Ref := alloc (.function f)

def setMetatable (t metatable : Ref) : LuaM H Unit := fun h =>
  match h[t]? with
  | some (.table entries _) => (.ok (), h.set t (.table entries (some metatable)))
  | _ => (.ok (), h)

def rawGet (entries : List (LuaValue × LuaValue)) (key : LuaValue) : LuaValue :=
  (Map.get entries key).getD .nil

def rawSet (entries : List (LuaValue × LuaValue)) (key value : LuaValue) :
    List (LuaValue × LuaValue) :=
  if value = .nil then entries.filter fun e => e.1 ≠ key else Map.insert entries key value

def metamethod (h : Heap H) (metatable : Option Ref) (name : Str) : LuaValue :=
  match metatable.bind (h[·]?) with
  | some (.table entries _) => rawGet entries (.string name)
  | _ => .nil

/-- The function that a proxy has for `__index` makes a function for the method. -/
def call (vm : Vm H) (f : Ref) (args : List LuaValue) : LuaM H LuaValue := fun h =>
  match h[f]?, args with
  | some (.function (.apiIndex ns handler)), [_, .string method] =>
    (.ok (.function h.length), h ++ [.function (.apiMethod ns method handler)])
  | _, _ => vm.call f args h

def getStep (vm : Vm H) (key : LuaValue) (go : LuaValue → LuaM H LuaValue) (v : LuaValue) :
    LuaM H LuaValue := fun h =>
  match v with
  | .table t =>
    match h[t]? with
    | some (.table entries metatable) =>
      if rawGet entries key ≠ .nil then (.ok (rawGet entries key), h)
      else
        match metamethod h metatable "__index".toList with
        | .nil => (.ok .nil, h)
        | .function f => call vm f [v, key] h
        | next => go next h
    | _ => vm.index v key h
  | _ => vm.index v key h

/-- `lua_gettable`, with a bound on the length of the chain. -/
def getWithin (vm : Vm H) (key : LuaValue) : Nat → LuaValue → LuaM H LuaValue
  | 0, _ => .throw "'__index' chain too long; possibly a loop".toList
  | n + 1, v => getStep vm key (getWithin vm key n) v

def setStep (vm : Vm H) (key value : LuaValue) (go : LuaValue → LuaM H Unit) (v : LuaValue) :
    LuaM H Unit := fun h =>
  match v with
  | .table t =>
    match h[t]? with
    | some (.table entries metatable) =>
      let assigned := (.ok (), h.set t (.table (rawSet entries key value) metatable))
      if rawGet entries key ≠ .nil then assigned
      else
        match metamethod h metatable "__newindex".toList with
        | .nil => assigned
        | .function f => LuaM.bind (call vm f [v, key, value]) (fun _ => pure ()) h
        | next => go next h
    | _ => vm.newindex v key value h
  | _ => vm.newindex v key value h

/-- `lua_settable`, with a bound on the length of the chain. -/
def setWithin (vm : Vm H) (key value : LuaValue) : Nat → LuaValue → LuaM H Unit
  | 0, _ => .throw "'__newindex' chain too long; possibly a loop".toList
  | n + 1, v => setStep vm key value (setWithin vm key value n) v

def maxTagLoop : Nat := 2000

def get (vm : Vm H) (t : Ref) (key : LuaValue) : LuaM H LuaValue :=
  getWithin vm key maxTagLoop (.table t)

def set (vm : Vm H) (t : Ref) (key value : LuaValue) : LuaM H Unit :=
  setWithin vm key value maxTagLoop (.table t)

end Luaml.Lua
