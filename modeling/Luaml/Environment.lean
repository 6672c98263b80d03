import Luaml.ExecutorLaws
import Luaml.LuaLaws

namespace Luaml

open Rust Lua

variable {H : Type}

namespace Lua

def Apart (env mt : Ref) (R : Set Nat) : Prop := env ∉ R ∧ mt ∉ R

theorem Apart.mono {env mt : Ref} {R R' : Set Nat} (h : Apart env mt R') (hR : R ⊆ R') :
    Apart env mt R :=
  ⟨fun hr => h.1 (hR hr), fun hr => h.2 (hR hr)⟩

def forwarding (globals : Ref) : List (LuaValue × LuaValue) :=
  [(.string "__index".toList, .table globals), (.string "__newindex".toList, .table globals)]

section

variable {vm : Vm H} {globals env mt : Ref} {h : Heap H}

theorem getWithin_forward (henv : h[env]? = some (.table [] (some mt)))
    (hmt : h[mt]? = some (.table (forwarding globals) none)) (key : LuaValue) (n : Nat) :
    getWithin vm key (n + 1) (.table env) h = getWithin vm key n (.table globals) h := by
  have hforward : Lua.metamethod h (some mt) "__index".toList = .table globals := by
    rw [metamethod_some hmt]
    rfl
  have hnil : Lua.rawGet [] key = .nil := rfl
  rw [getWithin, getStep]
  simp only [henv, hnil, hforward, ne_eq, not_true_eq_false, if_false]

theorem setWithin_forward (henv : h[env]? = some (.table [] (some mt)))
    (hmt : h[mt]? = some (.table (forwarding globals) none)) (key value : LuaValue) (n : Nat) :
    setWithin vm key value (n + 1) (.table env) h =
      setWithin vm key value n (.table globals) h := by
  have hforward : Lua.metamethod h (some mt) "__newindex".toList = .table globals := by
    rw [metamethod_some hmt]
    rfl
  have hnil : Lua.rawGet [] key = .nil := rfl
  rw [setWithin, setStep]
  simp only [henv, hnil, hforward, ne_eq, not_true_eq_false, if_false]

end

/-- The environment leads to the globals, which have no metatable, and nothing leads to the
environment. -/
structure Enclosed (globals env mt : Ref) (h : Heap H) : Prop where
  env_eq : h[env]? = some (.table [] (some mt))
  mt_eq : h[mt]? = some (.table (forwarding globals) none)
  globals_eq : ∃ entries, h[globals]? = some (.table entries none)
  hidden : ∀ r o, h[r]? = some o → r ≠ env → Apart env mt o.refs

/-- A virtual machine whose code gets at no environment that nothing leads to, and that gives the
globals no metatable. -/
structure Vm.Discreet (vm : Vm H) (globals : Ref) : Prop where
  call : ∀ env mt f args, Apart env mt {f} → (∀ v ∈ args, Apart env mt v.refs) →
    LuaM.Ensures (Enclosed globals env mt) (vm.call f args)
      fun v h => Enclosed globals env mt h ∧ Apart env mt v.refs
  index : ∀ env mt v key, Apart env mt v.refs → Apart env mt key.refs →
    LuaM.Ensures (Enclosed globals env mt) (vm.index v key)
      fun v h => Enclosed globals env mt h ∧ Apart env mt v.refs
  newindex : ∀ env mt v key value, Apart env mt v.refs → Apart env mt key.refs →
    Apart env mt value.refs → LuaM.Ensures (Enclosed globals env mt) (vm.newindex v key value)
      fun _ h => Enclosed globals env mt h

section

variable {globals env mt : Ref} {h : Heap H}

theorem Enclosed.env_ne_mt (henc : Enclosed globals env mt h) : env ≠ mt := by
  rintro rfl
  have heq := henc.env_eq.symm.trans henc.mt_eq
  cases heq

theorem Enclosed.globals_apart (henc : Enclosed globals env mt h) : Apart env mt {globals} :=
  (henc.hidden mt _ henc.mt_eq henc.env_ne_mt.symm).mono fun _ hr =>
    .inl ⟨_, List.mem_cons_self .., .inr hr⟩

theorem Enclosed.lt (henc : Enclosed globals env mt h) :
    globals < h.length ∧ env < h.length ∧ mt < h.length := by
  obtain ⟨entries, hglobals⟩ := henc.globals_eq
  exact ⟨(List.getElem?_eq_some_iff.mp hglobals).1, (List.getElem?_eq_some_iff.mp henc.env_eq).1,
    (List.getElem?_eq_some_iff.mp henc.mt_eq).1⟩

theorem Enclosed.apart_length (henc : Enclosed globals env mt h) : Apart env mt {h.length} :=
  ⟨Nat.ne_of_lt henc.lt.2.1, Nat.ne_of_lt henc.lt.2.2⟩

theorem Enclosed.push (henc : Enclosed globals env mt h) {o : Object H}
    (ho : Apart env mt o.refs) : Enclosed globals env mt (h ++ [o]) where
  env_eq := by rw [List.getElem?_append_left henc.lt.2.1, henc.env_eq]
  mt_eq := by rw [List.getElem?_append_left henc.lt.2.2, henc.mt_eq]
  globals_eq := by
    rw [List.getElem?_append_left henc.lt.1]
    exact henc.globals_eq
  hidden r o' ho' hne := by
    rcases Nat.lt_or_ge r h.length with hlt | hge
    · rw [List.getElem?_append_left hlt] at ho'
      exact henc.hidden r o' ho' hne
    · rw [List.getElem?_append_right hge] at ho'
      obtain rfl := List.mem_singleton.mp (List.mem_of_getElem? ho')
      exact ho

theorem Enclosed.set (henc : Enclosed globals env mt h) {t : Ref} {o : Object H}
    (ht : Apart env mt {t}) (ho : Apart env mt o.refs)
    (hglobals : t = globals → ∃ entries, o = .table entries none) :
    Enclosed globals env mt (h.set t o) where
  env_eq := by rw [List.getElem?_set_ne (Ne.symm ht.1), henc.env_eq]
  mt_eq := by rw [List.getElem?_set_ne (Ne.symm ht.2), henc.mt_eq]
  globals_eq := by
    by_cases heq : t = globals
    · obtain ⟨entries, rfl⟩ := hglobals heq
      exact ⟨entries, by rw [heq, List.getElem?_set_self henc.lt.1]⟩
    · rw [List.getElem?_set_ne heq]
      exact henc.globals_eq
  hidden r o' ho' hne := by
    by_cases heq : t = r
    · subst heq
      have hlt := (List.getElem?_eq_some_iff.mp ho').1
      rw [List.length_set] at hlt
      rw [List.getElem?_set_self hlt] at ho'
      obtain rfl := Option.some.inj ho'
      exact ho
    · rw [List.getElem?_set_ne heq] at ho'
      exact henc.hidden r o' ho' hne

end

section

variable {vm : Vm H} {globals env mt : Ref} {h : Heap H}

theorem Enclosed.rawGet (henc : Enclosed globals env mt h) {t : Ref} (ht : Apart env mt {t})
    {entries : List (LuaValue × LuaValue)} {metatable : Option Ref}
    (heq : h[t]? = some (.table entries metatable)) (key : LuaValue) :
    Apart env mt (Lua.rawGet entries key).refs :=
  (henc.hidden t _ heq (Ne.symm ht.1)).mono fun _ hr => .inl (rawGet_refs entries key hr)

theorem Enclosed.metamethod (henc : Enclosed globals env mt h) {t : Ref} (ht : Apart env mt {t})
    {entries : List (LuaValue × LuaValue)} {metatable : Option Ref}
    (heq : h[t]? = some (.table entries metatable)) (name : Str) :
    Apart env mt (Lua.metamethod h metatable name).refs := by
  unfold Lua.metamethod
  split
  · rename_i entries' _ hmeta
    obtain ⟨m, rfl, hm⟩ := Option.bind_eq_some_iff.mp hmeta
    have hapart := (henc.hidden t _ heq (Ne.symm ht.1)).mono (R := {m}) fun _ hr => .inr (hr ▸ rfl)
    exact henc.rawGet hapart hm _
  · exact ⟨id, id⟩

theorem Enclosed.assign (henc : Enclosed globals env mt h) {t : Ref} (ht : Apart env mt {t})
    {entries : List (LuaValue × LuaValue)} {metatable : Option Ref}
    (heq : h[t]? = some (.table entries metatable)) {key value : LuaValue}
    (hkey : Apart env mt key.refs) (hvalue : Apart env mt value.refs) :
    Enclosed globals env mt (h.set t (.table (rawSet entries key value) metatable)) := by
  have hrefs := henc.hidden t _ heq (Ne.symm ht.1)
  -- What the table refers to now, it did before, or the key or the value does.
  have hnew : ∀ r ∈ (Object.table (H := H) (rawSet entries key value) metatable).refs,
      r ∈ (Object.table (H := H) entries metatable).refs ∨ r ∈ key.refs ∨ r ∈ value.refs := by
    rintro r (⟨e, he, hr⟩ | hr)
    · rcases rawSet_refs entries key value e he with he | rfl
      · exact .inl (.inl ⟨e, he, hr⟩)
      · exact .inr hr
    · exact .inl (.inr hr)
  refine henc.set ht ⟨fun hr => ?_, fun hr => ?_⟩ ?_
  · exact (hnew env hr).elim hrefs.1 fun hr => hr.elim hkey.1 hvalue.1
  · exact (hnew mt hr).elim hrefs.2 fun hr => hr.elim hkey.2 hvalue.2
  · rintro rfl
    obtain ⟨entries', hglobals⟩ := henc.globals_eq
    rw [heq] at hglobals
    cases hglobals
    exact ⟨_, rfl⟩

theorem call_enclosed (hvm : vm.Discreet globals) {f : Ref} {args : List LuaValue}
    (hf : Apart env mt {f}) (hargs : ∀ v ∈ args, Apart env mt v.refs) :
    LuaM.Ensures (Enclosed globals env mt) (Lua.call vm f args)
      fun v h => Enclosed globals env mt h ∧ Apart env mt v.refs := by
  intro h henc v h' heq
  unfold Lua.call at heq
  split at heq
  · obtain ⟨rfl, rfl⟩ := LuaM.ok_inj heq
    exact ⟨henc.push ⟨id, id⟩, henc.apart_length⟩
  · exact hvm.call env mt f _ hf hargs h henc v h' heq

theorem setWithin_enclosed (hvm : vm.Discreet globals) {key value v : LuaValue} (n : Nat)
    (hkey : Apart env mt key.refs) (hvalue : Apart env mt value.refs)
    (hv : Apart env mt v.refs) :
    LuaM.Ensures (Enclosed globals env mt) (setWithin vm key value n v)
      fun _ h => Enclosed globals env mt h := by
  induction n generalizing v with
  | zero => exact .throw _
  | succ n ih =>
    intro h henc u h' heq
    rw [setWithin] at heq
    unfold setStep at heq
    split at heq
    · rename_i t
      split at heq
      · rename_i entries metatable ht
        have hset := henc.assign hv ht hkey hvalue
        dsimp only at heq
        split at heq
        · obtain ⟨-, rfl⟩ := Prod.mk.inj heq
          exact hset
        · have hmeta := henc.metamethod hv ht "__newindex".toList
          split at heq
          · obtain ⟨-, rfl⟩ := Prod.mk.inj heq
            exact hset
          · rename_i f hf
            rw [hf] at hmeta
            have hthen : LuaM.Ensures (Enclosed globals env mt)
                (Lua.call vm f [.table t, key, value] >>= fun _ => pure ())
                fun _ h => Enclosed globals env mt h :=
              (call_enclosed hvm hmeta (by simp [hv, hkey, hvalue])).bind fun _ =>
                .pure fun _ hg => hg.1
            exact hthen h henc u h' heq
          · exact ih hmeta h henc u h' heq
      · exact hvm.newindex env mt _ key value hv hkey hvalue h henc u h' heq
    · exact hvm.newindex env mt _ key value hv hkey hvalue h henc u h' heq

theorem Enclosed.set_env (henc : Enclosed globals env mt h)
    {entries : List (LuaValue × LuaValue)} (hglobals : h[globals]? = some (.table entries none))
    (key value : LuaValue) :
    Lua.set vm env key value h =
      (.ok (), h.set globals (.table (rawSet entries key value) none)) := by
  rw [Lua.set, maxTagLoop, setWithin_forward henc.env_eq henc.mt_eq]
  exact setWithin_eq hglobals (fun _ => rfl) value _

theorem set_enclosed (hvm : vm.Discreet globals) {t : Ref} (ht : t = env ∨ Apart env mt {t})
    {key value : LuaValue} (hkey : Apart env mt key.refs) (hvalue : Apart env mt value.refs) :
    LuaM.Ensures (Enclosed globals env mt) (Lua.set vm t key value)
      fun _ h => Enclosed globals env mt h := by
  rcases ht with rfl | ht
  · intro h henc u h' heq
    obtain ⟨entries, hglobals⟩ := henc.globals_eq
    rw [henc.set_env hglobals] at heq
    obtain ⟨-, rfl⟩ := Prod.mk.inj heq
    exact henc.assign henc.globals_apart hglobals hkey hvalue
  · exact setWithin_enclosed hvm _ hkey hvalue ht

theorem alloc_enclosed {o : Object H} (ho : Apart env mt o.refs) :
    LuaM.Ensures (Enclosed globals env mt) (alloc o)
      fun r h => Enclosed globals env mt h ∧ r ≠ globals ∧ mt < r ∧ Apart env mt {r} := by
  intro h henc r h' heq
  obtain ⟨rfl, rfl⟩ := LuaM.ok_inj heq
  exact ⟨henc.push ho, henc.lt.1.ne', henc.lt.2.2, henc.apart_length⟩

theorem createTable_enclosed :
    LuaM.Ensures (Enclosed globals env mt) (createTable : LuaM H Ref)
      fun r h => Enclosed globals env mt h ∧ r ≠ globals ∧ mt < r ∧ Apart env mt {r} :=
  alloc_enclosed (by simp [Apart, Object.refs])

end

end Lua

end Luaml
