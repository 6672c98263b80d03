import Luaml.Contents
import Luaml.EnvironmentLaws
import Luaml.InjectionOrder

namespace Luaml

open Rust Lua

variable {H : Type} {vm : Vm H} {globals store env mt gm : Ref} {names : List Str}
  {entries stored : List (LuaValue × LuaValue)} {h h' : Heap H}

/-- The globals send what is set under the names to another table, and look there for it. -/
structure Sends (globals gm store : Ref) (entries : List (LuaValue × LuaValue)) (names : List Str)
    (h : Heap H) : Prop where
  globals_eq : h[globals]? = some (.table entries (some gm))
  own : ∀ name ∈ names, rawGet entries (.string name) = .nil
  index : metamethod h (some gm) "__index".toList = .table store
  newindex : metamethod h (some gm) "__newindex".toList = .table store
  store_ne : store ≠ gm

structure Sheltered (globals gm store env mt : Ref) (entries : List (LuaValue × LuaValue))
    (names : List Str) (h : Heap H) : Prop extends Sends globals gm store entries names h where
  env_eq : h[env]? = some (.table [] (some mt))
  mt_eq : h[mt]? = some (.table (forwarding globals) none)
  mt_ne : store ≠ mt

theorem metamethod_lt {name : Str} {m : Ref} (hm : metamethod h (some m) name ≠ .nil) :
    m < h.length := by
  by_contra hge
  apply hm
  rw [metamethod, Option.bind_some, List.getElem?_eq_none (Nat.le_of_not_lt hge)]

theorem Sends.of_same (hsends : Sends globals gm store entries names h)
    (hsame : ∀ r, r < h.length → r ≠ store → h'[r]? = h[r]?)
    (hstore : h[store]? = some (.table stored none)) : Sends globals gm store entries names h' := by
  have hgm : gm < h.length := metamethod_lt (by rw [hsends.index]; exact LuaValue.noConfusion)
  have hglobals : globals ≠ store := by
    rintro rfl
    rw [hsends.globals_eq] at hstore
    cases hstore
  have hmeta (name : Str) : metamethod h' (some gm) name = metamethod h (some gm) name := by
    rw [metamethod, metamethod, Option.bind_some, Option.bind_some,
      hsame gm hgm hsends.store_ne.symm]
  refine ⟨?_, hsends.own, by rw [hmeta, hsends.index], by rw [hmeta, hsends.newindex],
    hsends.store_ne⟩
  rw [hsame globals (List.getElem?_eq_some_iff.mp hsends.globals_eq).1 hglobals, hsends.globals_eq]

namespace Sheltered

theorem of_same (hs : Sheltered globals gm store env mt entries names h)
    (hsame : ∀ r, r < h.length → r ≠ store → h'[r]? = h[r]?)
    (hstore : h[store]? = some (.table stored none)) :
    Sheltered globals gm store env mt entries names h' := by
  have henv : env ≠ store := by
    rintro rfl
    rw [hs.env_eq] at hstore
    cases hstore
  refine ⟨hs.toSends.of_same hsame hstore, ?_, ?_, hs.mt_ne⟩
  · rw [hsame env (List.getElem?_eq_some_iff.mp hs.env_eq).1 henv, hs.env_eq]
  · rw [hsame mt (List.getElem?_eq_some_iff.mp hs.mt_eq).1 hs.mt_ne.symm, hs.mt_eq]

theorem above (hs : Sheltered globals gm store env mt entries names h)
    (hold : ∀ r, r < h.length → h'[r]? = h[r]?) (hstore : h[store]? = some (.table stored none)) :
    Sheltered globals gm store env mt entries names h' :=
  hs.of_same (fun r hr _ => hold r hr) hstore

theorem set_env (vm : Vm H) (hs : Sheltered globals gm store env mt entries names h)
    (hstore : h[store]? = some (.table stored none)) {name : Str} (hname : name ∈ names)
    (value : LuaValue) :
    Lua.set vm env (.string name) value h = Lua.set vm store (.string name) value h := by
  rw [set_eq hstore (fun _ => rfl), Lua.set, maxTagLoop, setWithin_forward hs.env_eq hs.mt_eq,
    setWithin, setStep]
  simp only [hs.globals_eq, hs.own name hname, hs.newindex, ne_eq, not_true_eq_false, if_false]
  exact setWithin_eq hstore (fun _ => rfl) value _

theorem put (vm : Vm H) (hs : Sheltered globals gm store env mt entries names h)
    (hstore : h[store]? = some (.table stored none)) {name : Str} (hname : name ∈ names)
    (hle : h.length ≤ h'.length) (hold : ∀ r, r < h.length → h'[r]? = h[r]?) (value : LuaValue) :
    ∃ h'', Lua.set vm env (.string name) value h' = (.ok (), h'') ∧
      Grown h h'' store (rawSet stored (.string name) value) := by
  have hlt := (List.getElem?_eq_some_iff.mp hstore).1
  have hstore' : h'[store]? = some (.table stored none) := by rw [hold store hlt, hstore]
  obtain ⟨hset, hgrown⟩ := set_grown hle hold hstore (.string name) value
  exact ⟨_, by rw [(hs.above hold hstore).set_env vm hstore' hname, hset], hgrown⟩

/-- Values have been put in the store under some names, and it has kept all others. -/
structure Puts (store : Ref) (names : List Str) (stored stored' : List (LuaValue × LuaValue))
    (h h' : Heap H) : Prop extends Grown h h' store stored' where
  kept : ∀ name, name ∉ names → rawGet stored' (.string name) = rawGet stored (.string name)

theorem Puts.trans {names' : List Str} {stored' stored'' : List (LuaValue × LuaValue)}
    {h'' : Heap H} (hputs : Puts store names stored stored' h h')
    (hputs' : Puts store names' stored' stored'' h' h'') :
    Puts store (names ++ names') stored stored'' h h'' := by
  refine ⟨hputs.toGrown.trans hputs'.toGrown, fun name hname => ?_⟩
  rw [List.mem_append, not_or] at hname
  rw [hputs'.kept name hname.2, hputs.kept name hname.1]

end Sheltered

end Luaml
