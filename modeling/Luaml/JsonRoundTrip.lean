import Luaml.JsonTables
import Luaml.RpcLaws

namespace Luaml

open Rust Serde Lua

namespace Json

open Rpc RecM

variable {H : Type} {texts : Texts} {vm : Vm H} {h h' : Heap H} {v v' : LuaValue} {j : JsonValue}
  {name : LuaValue → Option Str}

theorem scalar_sound (hscalar : scalarToJson v = some j) : j.Sound := by
  cases v with
  | number f =>
    obtain ⟨n, -, rfl⟩ := Option.map_eq_some_iff.mp hscalar
    trivial
  | nil | boolean b | integer i | string s =>
    obtain rfl := Option.some.inj hscalar
    trivial
  | _ => cases hscalar

theorem Mapped.sound (htree : ProperTree h v) (hmapped : Mapped name h v j) : j.Sound := by
  induction htree generalizing j with
  | leaf hv => exact scalar_sound ((mapped_scalar_iff hv).mp hmapped)
  | @table t entries metatable ht hproper _ ih =>
    rcases (mapped_table_iff ht).mp hmapped with ⟨items, rfl, hseq, hitems⟩ |
      ⟨members, rfl, -, hkeys, -, hvalues, hascending⟩
    · have hlen := hseq.length_eq hproper
      refine ⟨?_, JsonValue.everyItem_iff.mpr fun item hitem => ?_⟩
      · have hlt := hproper.length_lt
        omega
      · obtain ⟨k, hk, rfl⟩ := List.mem_iff_getElem.mp hitem
        have hpresent := (hseq (index k)).mpr ⟨k, hk, rfl⟩
        exact ih _ (hproper.mem_of_present hpresent) (hitems k _ (List.getElem?_eq_getElem hk))
    · refine ⟨hascending, JsonValue.everyMember_iff.mpr fun e he => ?_⟩
      obtain ⟨m, hm, rfl⟩ := List.mem_map.mp he
      have hpresent := (hkeys m.1).mp (List.mem_map_of_mem hm)
      exact ih _ (hproper.mem_of_present hpresent) (hvalues m hm)

theorem scalar_holds {P : Ref → Option Ref → Prop} (hscalar : scalarToJson v = some j) :
    Holds P h v (jsonToField texts j) := by
  cases v with
  | number f =>
    rw [scalarToJson, JsonNumber.fromF64] at hscalar
    split_ifs at hscalar
    · obtain rfl := Option.some.inj hscalar
      exact .float f
    · cases hscalar
  | integer i =>
    obtain rfl := Option.some.inj hscalar
    rw [jsonToField, JsonNumber.asI64_ofI64]
    exact .number i
  | nil =>
    obtain rfl := Option.some.inj hscalar
    exact .null
  | boolean b =>
    obtain rfl := Option.some.inj hscalar
    exact .bool b
  | string s =>
    obtain rfl := Option.some.inj hscalar
    exact .string s
  | _ => cases hscalar

theorem jsonToFieldItems_getElem? (items : List JsonValue) (k : Nat) :
    (jsonToFieldItems texts items)[k]? = items[k]?.map (jsonToField texts) := by
  induction items generalizing k with
  | nil => rfl
  | cons item items ih =>
    cases k with
    | zero => rfl
    | succ k => exact ih k

theorem jsonToFieldMembers_eq_map (members : List (Str × JsonValue)) :
    jsonToFieldMembers texts members = members.map fun e => (e.1, jsonToField texts e.2) := by
  induction members with
  | nil => rfl
  | cons e members ih => rw [jsonToFieldMembers, ih, List.map_cons]

theorem Mapped.holds (texts : Texts) (htree : Tree (fun entries metatable =>
      ProperTable entries ∧ metatable = none) h v) (hmapped : Mapped nameText h v j) :
    Holds (fun _ metatable => metatable = none) h v (jsonToField texts j) := by
  induction htree generalizing j with
  | leaf hv => exact scalar_holds ((mapped_scalar_iff hv).mp hmapped)
  | @table t entries metatable ht hproper _ ih =>
    rcases (mapped_table_iff ht).mp hmapped with ⟨items, rfl, hseq, hitems⟩ |
      ⟨members, rfl, -, hkeys, hnames, hvalues, hascending⟩
    · rw [jsonToField]
      refine .list ht hproper.2 (fun key hkey => ?_) fun k f hf => ?_
      · rw [jsonToFieldItems_length]
        exact (hseq key).mp hkey
      · rw [jsonToFieldItems_getElem?] at hf
        obtain ⟨item, hitem, rfl⟩ := Option.map_eq_some_iff.mp hf
        have hk := (List.getElem?_eq_some_iff.mp hitem).1
        have hpresent := (hseq (index k)).mpr ⟨k, hk, rfl⟩
        exact ih _ (hproper.1.mem_of_present hpresent) (hitems k item hitem)
    · rw [jsonToField_object hascending, jsonToFieldMembers_eq_map, List.map_map]
      refine .map ht hproper.2 (fun key hkey => ?_) fun e he => ?_
      · obtain ⟨m, hm, rfl⟩ := List.mem_map.mp ((hkeys key).mpr hkey)
        exact ⟨_, List.mem_map_of_mem hm, nameText_eq_some.mp (hnames m hm)⟩
      · obtain ⟨m, hm, rfl⟩ := List.mem_map.mp he
        have hpresent := (hkeys m.1).mp (List.mem_map_of_mem hm)
        have hvalue := ih _ (hproper.1.mem_of_present hpresent) (hvalues m hm)
        rwa [nameText_eq_some.mp (hnames m hm)] at hvalue

theorem Tree.mono {P Q : List (LuaValue × LuaValue) → Option Ref → Prop}
    (hPQ : ∀ entries metatable, P entries metatable → Q entries metatable)
    (htree : Tree P h v) : Tree Q h v := by
  induction htree with
  | leaf hv => exact .leaf hv
  | table ht hP _ ih => exact .table ht (hPQ _ _ hP) ih

/-- What is decoded after a value without metatables has been encoded is the value. -/
theorem jsonToLua_luaToJson (htree : Tree (fun entries metatable =>
      ProperTable entries ∧ metatable = none) h v) {n : Nat}
    (hj : luaToJson texts vm n v h = some (.ok j, h')) :
    h' = h ∧ ∃ v' h'', jsonToLua vm (Json.outOfRange texts) j h' = (.ok v', h'') ∧
      Alike (· = ·) h h'' v v' := by
  have hproper : ProperTree h v := htree.mono fun _ _ hP => hP.1
  obtain ⟨hmapped, rfl⟩ := mapped_of_luaToJson hproper hj
  obtain ⟨v', h'', hv', hmade⟩ := jsonToLua_made vm (Json.outOfRange texts) texts j
    (hmapped.sound hproper) h'
  refine ⟨rfl, v', h'', hv', (hmapped.holds texts htree).alike hmade.holds ?_⟩
  rintro t t' metatable metatable' rfl ⟨-, rfl⟩
  rfl

theorem page_roundTrip :
    ∃ v' h'', jsonToLua noCode (Json.outOfRange noTexts)
        (.object [("name".toList, .string "page".toList),
          ("sizes".toList, .array [.number (.float ⟨0x4004000000000000⟩), .number (.posInt 1),
            .array [.bool true]])]) pageHeap = (.ok v', h'') ∧
      Alike (· = ·) pageHeap h'' (.table 0) v' := by
  have htree := page_tree (P := fun entries metatable => ProperTable entries ∧ metatable = none)
    ⟨pageEntries_proper, rfl⟩ ⟨sizesEntries_proper, rfl⟩ ⟨oneEntry_proper trivial, rfl⟩
  exact (jsonToLua_luaToJson (n := 4) htree rfl).2

end Json

end Luaml
