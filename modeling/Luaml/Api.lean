import Luaml.Pattern

/-! API namespaces: what the host binds to them, and for which clauses. -/

namespace Luaml

open Rust

structure ApiError where
  message : Str
  deriving DecidableEq

structure ApiBindingSpec (H : Type) where
  ns : Str
  pattern : List (Str × Pattern)
  handler : H

structure ApiBindingEntry (H : Type) where
  id : Nat
  spec : ApiBindingSpec H

/-- An id is a `u64` in the source, and agrees with it as long as it is below `2 ^ 64`. -/
structure ApiBindings (H : Type) where
  entries : List (ApiBindingEntry H)
  nextId : Nat

namespace ApiBindings

variable {H : Type}

def empty : ApiBindings H := ⟨[], 0⟩

def registerApi (apis : ApiBindings H) (spec : ApiBindingSpec H) : Nat × ApiBindings H :=
  (apis.nextId, ⟨apis.entries ++ [⟨apis.nextId, spec⟩], apis.nextId + 1⟩)

def unregisterApi (apis : ApiBindings H) (id : Nat) : Bool × ApiBindings H :=
  let entries := apis.entries.filter fun e => e.id ≠ id
  (entries.length != apis.entries.length, { apis with entries := entries })

def replaceEntry (id : Nat) (spec : ApiBindingSpec H) :
    List (ApiBindingEntry H) → Bool × List (ApiBindingEntry H)
  | [] => (false, [])
  | e :: es =>
    if e.id = id then (true, ⟨e.id, spec⟩ :: es)
    else
      let (replaced, es) := replaceEntry id spec es
      (replaced, e :: es)

def replaceApi (apis : ApiBindings H) (id : Nat) (spec : ApiBindingSpec H) :
    Bool × ApiBindings H :=
  let (replaced, entries) := replaceEntry id spec apis.entries
  (replaced, { apis with entries := entries })

end ApiBindings

end Luaml
