import Luaml.Lua

namespace Luaml.Lua

open Rust

variable {H α β γ : Type} {vm : Vm H} {h h' : Heap H} {t : Ref}
  {entries : List (LuaValue × LuaValue)} {metatable : Option Ref}

theorem LuaM.ok_inj {a b : α}
    (heq : ((.ok a, h) : Except Str α × Heap H) = (.ok b, h')) : a = b ∧ h = h' :=
  ⟨Except.ok.inj (Prod.mk.inj heq).1, (Prod.mk.inj heq).2⟩

theorem LuaM.pure_bind (a : α) (f : α → LuaM H β) : (pure a : LuaM H α) >>= f = f a := rfl

theorem LuaM.bind_pure (x : LuaM H α) : x >>= pure = x := by
  funext h
  change LuaM.bind x pure h = x h
  rw [LuaM.bind]
  split
  · rename_i heq
    exact heq.symm
  · rename_i heq
    exact heq.symm

theorem LuaM.bind_assoc (x : LuaM H α) (f : α → LuaM H β) (g : β → LuaM H γ) :
    x >>= f >>= g = x >>= fun a => f a >>= g := by
  funext h
  change LuaM.bind (LuaM.bind x f) g h = LuaM.bind x (fun a => LuaM.bind (f a) g) h
  simp only [LuaM.bind]
  cases x h with
  | mk r h' => cases r <;> rfl

instance : LawfulMonad (LuaM H) :=
  LawfulMonad.mk' _ LuaM.bind_pure LuaM.pure_bind LuaM.bind_assoc

theorem LuaM.bind_of_ok {x : LuaM H α} {a : α} (hx : x h = (.ok a, h')) (f : α → LuaM H β) :
    (x >>= f) h = f a h' := by
  change LuaM.bind x f h = f a h'
  rw [LuaM.bind, hx]

theorem LuaM.bind_of_error {x : LuaM H α} {e : Str} (hx : x h = (.error e, h'))
    (f : α → LuaM H β) : (x >>= f) h = (.error e, h') := by
  change LuaM.bind x f h = (.error e, h')
  rw [LuaM.bind, hx]

/-- Where the computation succeeds on a heap with `P`, its result and the heap after it have `Q`. -/
def LuaM.Ensures (P : Heap H → Prop) (x : LuaM H α) (Q : α → Heap H → Prop) : Prop :=
  ∀ h, P h → ∀ a h', x h = (.ok a, h') → Q a h'

section Ensures

variable {P : Heap H → Prop} {Q : α → Heap H → Prop}

theorem LuaM.Ensures.pure {a : α} (h : ∀ g, P g → Q a g) :
    LuaM.Ensures P (Pure.pure a : LuaM H α) Q := by
  intro g hg b g' heq
  obtain ⟨rfl, rfl⟩ := LuaM.ok_inj heq
  exact h g hg

theorem LuaM.Ensures.throw (message : Str) : LuaM.Ensures P (LuaM.throw message : LuaM H α) Q := by
  intro g _ a g' heq
  cases (Prod.mk.inj heq).1

theorem LuaM.Ensures.bind {x : LuaM H α} {f : α → LuaM H β} {R : β → Heap H → Prop}
    (hx : LuaM.Ensures P x Q) (hf : ∀ a, LuaM.Ensures (Q a) (f a) R) :
    LuaM.Ensures P (x >>= f) R := by
  intro h hP b h'' heq
  change LuaM.bind x f h = (.ok b, h'') at heq
  unfold LuaM.bind at heq
  split at heq
  · rename_i a h' hok
    exact hf a h' (hx h hP a h' hok) b h'' heq
  · cases (Prod.mk.inj heq).1

theorem LuaM.Ensures.bind_and {x : LuaM H α} {f : α → LuaM H β} {p : α → Prop}
    {R : β → Heap H → Prop} (hx : LuaM.Ensures P x fun a h => P h ∧ p a)
    (hf : ∀ a, p a → LuaM.Ensures P (f a) R) : LuaM.Ensures P (x >>= f) R :=
  hx.bind fun a h ha => hf a ha.2 h ha.1

end Ensures

theorem createTable_eq (h : Heap H) :
    createTable h = (.ok h.length, h ++ [.table [] none]) := rfl

theorem createFunction_eq (f : Function H) (h : Heap H) :
    createFunction f h = (.ok h.length, h ++ [.function f]) := rfl

theorem setMetatable_eq (ht : h[t]? = some (.table entries metatable)) (metatable' : Ref) :
    setMetatable t metatable' h = (.ok (), h.set t (.table entries (some metatable'))) := by
  rw [setMetatable]
  simp only [ht]

theorem table_unique {entries' : List (LuaValue × LuaValue)} {metatable' : Option Ref}
    (ht : h[t]? = some (.table entries metatable))
    (ht' : h[t]? = some (.table entries' metatable')) :
    entries = entries' ∧ metatable = metatable' :=
  Object.table.inj (Option.some.inj (ht.symm.trans ht'))

theorem mem_of_rawGet {key : LuaValue} (hkey : rawGet entries key ≠ .nil) :
    ∃ v, (key, v) ∈ entries := by
  cases hget : Map.get entries key with
  | none => exact absurd (by rw [rawGet, hget]; rfl) hkey
  | some v => exact ⟨v, Map.mem_of_get hget⟩

theorem rawGet_rawSet (entries : List (LuaValue × LuaValue)) (key value key' : LuaValue) :
    rawGet (rawSet entries key value) key' = if key = key' then value else rawGet entries key' := by
  by_cases hvalue : value = .nil
  · rw [rawSet, if_pos hvalue, rawGet, Map.get_filter_ne, hvalue]
    split_ifs <;> rfl
  · rw [rawSet, if_neg hvalue, rawGet, Map.get_insert]
    split_ifs <;> rfl

theorem rawSet_of_new {key value : LuaValue} (hvalue : value ≠ .nil)
    (hkey : key ∉ entries.map Prod.fst) : rawSet entries key value = entries ++ [(key, value)] := by
  rw [rawSet, if_neg hvalue, Map.insert_of_notMem hkey]

theorem rawSet_nil_of_new {key : LuaValue} (hkey : key ∉ entries.map Prod.fst) :
    rawSet entries key .nil = entries := by
  rw [rawSet, if_pos rfl, List.filter_eq_self]
  intro e he
  have hne : e.1 ≠ key := by
    rintro rfl
    exact hkey (List.mem_map_of_mem he)
  simpa using hne

@[simp] theorem metamethod_none (h : Heap H) (name : Str) : metamethod h none name = .nil := rfl

theorem metamethod_some {m : Ref} (hm : h[m]? = some (.table entries metatable)) (name : Str) :
    metamethod h (some m) name = rawGet entries (.string name) := by
  rw [metamethod, Option.bind_some, hm]

theorem getWithin_eq (ht : h[t]? = some (.table entries metatable)) {key : LuaValue}
    (hindex : rawGet entries key = .nil → metamethod h metatable "__index".toList = .nil)
    (n : Nat) :
    getWithin vm key (n + 1) (.table t) h = (.ok (rawGet entries key), h) := by
  rw [getWithin, getStep]
  simp only [ht]
  by_cases hkey : rawGet entries key = .nil
  · simp only [hkey, hindex hkey, ne_eq, not_true_eq_false, if_false]
  · simp only [hkey, ne_eq, not_false_eq_true, if_true]

theorem get_eq (ht : h[t]? = some (.table entries metatable)) {key : LuaValue}
    (hindex : rawGet entries key = .nil → metamethod h metatable "__index".toList = .nil) :
    Lua.get vm t key h = (.ok (rawGet entries key), h) :=
  getWithin_eq ht hindex _

theorem setWithin_eq (ht : h[t]? = some (.table entries metatable)) {key : LuaValue}
    (hnewindex : rawGet entries key = .nil → metamethod h metatable "__newindex".toList = .nil)
    (value : LuaValue) (n : Nat) :
    setWithin vm key value (n + 1) (.table t) h =
      (.ok (), h.set t (.table (rawSet entries key value) metatable)) := by
  rw [setWithin, setStep]
  simp only [ht]
  by_cases hkey : rawGet entries key = .nil
  · simp only [hkey, hnewindex hkey, ne_eq, not_true_eq_false, if_false]
  · simp only [hkey, ne_eq, not_false_eq_true, if_true]

theorem set_eq (ht : h[t]? = some (.table entries metatable)) {key : LuaValue}
    (hnewindex : rawGet entries key = .nil → metamethod h metatable "__newindex".toList = .nil)
    (value : LuaValue) :
    Lua.set vm t key value h =
      (.ok (), h.set t (.table (rawSet entries key value) metatable)) :=
  setWithin_eq ht hnewindex value _

abbrev index (k : Nat) : LuaValue := .integer (1 + Int64.ofNat k)

theorem ofNat_inj {j k : Nat} (hj : j < 2 ^ 63) (hk : k < 2 ^ 63) :
    Int64.ofNat j = Int64.ofNat k ↔ j = k := by
  rw [← Int64.toInt_inj, Int64.toInt_ofNat_of_lt hj, Int64.toInt_ofNat_of_lt hk]
  omega

theorem succ_index (i : Int64) (k : Nat) : i + Int64.ofNat k + 1 = i + Int64.ofNat (k + 1) := by
  rw [Int64.ofNat_add k 1, Int64.add_assoc]
  rfl

theorem next_index (i : Int64) (k : Nat) : i + Int64.ofNat (k + 1) = i + 1 + Int64.ofNat k := by
  rw [Nat.add_comm, Int64.ofNat_add 1 k, ← Int64.add_assoc]
  rfl

theorem index_toInt {k : Nat} (hk : k + 1 < 2 ^ 63) : (1 + Int64.ofNat k).toInt = k + 1 := by
  have hadd : 1 + Int64.ofNat k = Int64.ofNat (1 + k) := (Int64.ofNat_add 1 k).symm
  rw [hadd, Int64.toInt_ofNat_of_lt (by omega)]
  omega

theorem index_inj {j k : Nat} (hj : j < 2 ^ 63) (hk : k < 2 ^ 63) (heq : index j = index k) :
    j = k := by
  have hofNat := (Int64.add_right_inj 1).mp (LuaValue.integer.inj heq)
  exact (ofNat_inj hj hk).mp hofNat

end Luaml.Lua
