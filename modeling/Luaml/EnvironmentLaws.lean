import Luaml.Environment

namespace Luaml

open Rust Lua

variable {H : Type} {vm : Vm H} {globals env mt : Ref}

mutual
theorem fieldValueToLua_enclosed (hvm : vm.Discreet globals) :
    ∀ v : FieldValue, LuaM.Ensures (Enclosed globals env mt) (fieldValueToLua vm v)
      fun value h => Enclosed globals env mt h ∧ Apart env mt value.refs
  | .enum s | .string s | .number n | .float f | .bool b | .null => by
    rw [fieldValueToLua]
    exact .pure fun _ henc => ⟨henc, id, id⟩
  | .list items => by
    rw [fieldValueToLua]
    refine createTable_enclosed.bind_and fun table ht => ?_
    refine (setItems_enclosed hvm ht.2.2 1 items).bind fun _ => ?_
    exact .pure fun _ henc => ⟨henc, ht.2.2⟩
  | .map m => by
    rw [fieldValueToLua]
    refine createTable_enclosed.bind_and fun table ht => ?_
    refine (setEntries_enclosed hvm (.inr ht.2.2) m).bind fun _ => ?_
    exact .pure fun _ henc => ⟨henc, ht.2.2⟩

theorem setItems_enclosed (hvm : vm.Discreet globals) {table : Ref} (ht : Apart env mt {table})
    (i : Int64) :
    ∀ items : List FieldValue, LuaM.Ensures (Enclosed globals env mt)
      (setItems vm table i items) fun _ h => Enclosed globals env mt h
  | [] => .pure fun _ henc => henc
  | item :: items => by
    rw [setItems]
    refine (fieldValueToLua_enclosed hvm item).bind_and fun value hvalue => ?_
    refine (set_enclosed hvm (.inr ht) ⟨id, id⟩ hvalue).bind fun _ => ?_
    exact setItems_enclosed hvm ht (i + 1) items

theorem setEntries_enclosed (hvm : vm.Discreet globals) {table : Ref}
    (ht : table = env ∨ Apart env mt {table}) :
    ∀ m : List (Str × FieldValue), LuaM.Ensures (Enclosed globals env mt)
      (setEntries vm table m) fun _ h => Enclosed globals env mt h
  | [] => .pure fun _ henc => henc
  | (key, val) :: m => by
    rw [setEntries]
    refine (fieldValueToLua_enclosed hvm val).bind_and fun value hvalue => ?_
    refine (set_enclosed hvm ht ⟨id, id⟩ hvalue).bind fun _ => ?_
    exact setEntries_enclosed hvm ht m
end

def LocalApiBindingSpec.Discreet (spec : LocalApiBindingSpec H) (globals : Ref) : Prop :=
  ∀ env mt, LuaM.Ensures (Enclosed globals env mt) spec.builder
    fun t h => Enclosed globals env mt h ∧ Apart env mt {t}

def printHeap : Heap Unit :=
  [.table [(.string "print".toList, .function 1)] none, .function (.other [])]

def emptySpec : LocalApiBindingSpec Unit := ⟨"scratch".toList, [], createTable⟩

end Luaml
