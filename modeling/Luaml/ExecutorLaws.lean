import Luaml.Executor
import Luaml.Lib.Capability

namespace Luaml

open Rust Lua Capability

variable {H : Type}

namespace Lua

def LuaValue.refs : LuaValue → Set Nat
  | .table r | .function r | .userdata r => {r}
  | _ => ∅

def Function.refs : Function H → Set Nat
  | .other captured => {r | ∃ v ∈ captured, r ∈ v.refs}
  | _ => ∅

def Function.grants : Function H → Set (Str × H)
  | .apiIndex ns handler | .apiMethod ns _ handler => {(ns, handler)}
  | _ => ∅

def Object.refs : Object H → Set Nat
  | .table entries metatable =>
    {r | (∃ e ∈ entries, r ∈ e.1.refs ∨ r ∈ e.2.refs) ∨ metatable = some r}
  | .function f => f.refs
  | .userdata captured => {r | ∃ v ∈ captured, r ∈ v.refs}

def Object.grants : Object H → Set (Str × H)
  | .function f => f.grants
  | _ => ∅

def shape (H : Type) : Shape (Object H) (Str × H) := ⟨Object.refs, Object.grants⟩

abbrev Within (A : Set (Str × H)) (h : Heap H) (R : Set Nat) : Prop := Confined (shape H) A h R

def Vm.roots (vm : Vm H) (R : Set Nat) : Set Nat := R ∪ {r | r ∈ vm.metatables}

def Vm.reachable (vm : Vm H) (h : Heap H) (env : Ref) : Set (Str × H) :=
  {x | ∃ a ∈ vm.roots {env}, ∃ r o, Reaches (shape H) h a r ∧ h[r]? = some o ∧ x ∈ o.grants}

/-- After a computation no handlers but those of `A` are within reach of `R` and of the result. -/
def After {α : Type} (A : Set (Str × H)) (R : Set Nat) (out : α → Set Nat) :
    Except Str α × Heap H → Prop
  | (.ok a, h) => Within A h (R ∪ out a)
  | (.error _, h) => Within A h R

/-- The computation does not give what is within reach of `R` any handlers but those of `A`. -/
def Safe {α : Type} (vm : Vm H) (A : Set (Str × H)) (x : LuaM H α) (R : Set Nat)
    (out : α → Set Nat) : Prop :=
  ∀ h, Within A h (vm.roots R) → After A (vm.roots R) out (x h)

variable {vm : Vm H} {A : Set (Str × H)} {R R' : Set Nat} {α β : Type}

theorem Vm.roots_union (R X : Set Nat) : vm.roots (R ∪ X) = vm.roots R ∪ X :=
  Set.union_right_comm R X _

theorem Vm.subset_roots : R ⊆ vm.roots R := Set.subset_union_left

theorem After.mono {out : α → Set Nat} {out' : α → Set Nat} {r : Except Str α × Heap H}
    (h : After A R' out r) (hR : R ⊆ R') (hout : ∀ a, out' a ⊆ R' ∪ out a) :
    After A R out' r := by
  match r with
  | (.ok a, heap) =>
    exact Confined.mono h (Set.union_subset (hR.trans Set.subset_union_left) (hout a))
  | (.error e, heap) => exact Confined.mono h hR

theorem After.left {out : α → Set Nat} {r : Except Str α × Heap H} (h : After A R out r) :
    Within A r.2 R := by
  match r with
  | (.ok a, heap) => exact Confined.mono h Set.subset_union_left
  | (.error e, heap) => exact h

theorem Safe.pure {a : α} {out : α → Set Nat} (h : out a ⊆ R) :
    Safe vm A (Pure.pure a : LuaM H α) R out :=
  fun _ hR => hR.mono (Set.union_subset (Set.Subset.refl _) (h.trans Vm.subset_roots))

theorem Safe.throw (message : Str) (out : α → Set Nat) :
    Safe vm A (LuaM.throw message : LuaM H α) R out := fun _ hR => hR

theorem Safe.bind {x : LuaM H α} {f : α → LuaM H β} {out : α → Set Nat} {out' : β → Set Nat}
    (hx : Safe vm A x R out) (hf : ∀ a, Safe vm A (f a) (R ∪ out a) out') :
    Safe vm A (x >>= f) R out' := by
  intro h hR
  have hafter := hx h hR
  change After A (vm.roots R) out' (LuaM.bind x f h)
  unfold LuaM.bind
  match x h, hafter with
  | (.ok a, h'), hafter =>
    have hthen := hf a h'
    rw [Vm.roots_union] at hthen
    apply (hthen hafter).mono Set.subset_union_left
    intro b
    exact Set.subset_union_right
  | (.error e, h'), hafter => exact hafter

theorem Safe.seq {x : LuaM H Unit} {f : Unit → LuaM H β} {out : β → Set Nat}
    (hx : Safe vm A x R fun _ => ∅) (hf : Safe vm A (f ()) R out) : Safe vm A (x >>= f) R out := by
  apply hx.bind
  intro _
  rwa [Set.union_empty]

theorem Safe.within {x : LuaM H α} {out : α → Set Nat} {X : Set Nat} {h : Heap H}
    (hx : Safe vm A x (R ∪ X) out) (hR : Within A h (vm.roots R)) (hX : Within A h X) :
    After A (vm.roots R) out (x h) := by
  have hafter := hx h
  rw [Vm.roots_union] at hafter
  exact (hafter (hR.union hX)).mono Set.subset_union_left fun a => Set.subset_union_right

theorem alloc_safe {o : Object H} (hgrants : o.grants ⊆ A) (hrefs : o.refs ⊆ R) :
    Safe vm A (alloc o) R fun r => {r} := by
  intro h hR
  have hpush : Within A (h ++ [o]) (insert h.length (vm.roots R)) :=
    Confined.push hR hgrants (hrefs.trans Vm.subset_roots)
  rwa [← Set.union_singleton] at hpush

theorem createTable_safe : Safe vm A (createTable : LuaM H Ref) R fun r => {r} :=
  alloc_safe (Set.empty_subset A) (by simp [Object.refs])

theorem setMetatable_safe {t metatable : Ref} (ht : t ∈ R) (hmeta : metatable ∈ R) :
    Safe vm A (setMetatable t metatable : LuaM H Unit) R fun _ => ∅ := by
  intro h hR
  unfold setMetatable
  split
  · rename_i entries old heq
    have hset : Within A (h.set t (.table entries (some metatable))) (vm.roots R) := by
      refine Confined.set hR (.inl ht) heq ?_ ?_
      · exact Set.empty_subset A
      · rintro r (hentry | hr)
        · exact .inl (.inl hentry)
        · obtain rfl := Option.some.inj hr
          exact .inr (.inl hmeta)
    exact hset.mono (by simp)
  · exact hR.mono (by simp)

theorem rawGet_refs (entries : List (LuaValue × LuaValue)) (key : LuaValue) :
    (rawGet entries key).refs ⊆ {r | ∃ e ∈ entries, r ∈ e.1.refs ∨ r ∈ e.2.refs} := by
  intro r hr
  induction entries with
  | nil => simp [rawGet, Map.get, LuaValue.refs] at hr
  | cons e entries ih =>
    rw [rawGet, Map.get] at hr
    split at hr
    · exact ⟨e, List.mem_cons_self .., .inr hr⟩
    · obtain ⟨e', he', hr'⟩ := ih hr
      exact ⟨e', List.mem_cons_of_mem _ he', hr'⟩

theorem insert_refs (entries : List (LuaValue × LuaValue)) (key value : LuaValue) :
    ∀ e ∈ Map.insert entries key value, e ∈ entries ∨ e = (key, value) := by
  induction entries with
  | nil => simp [Map.insert]
  | cons e entries ih =>
    rw [Map.insert]
    split
    · rename_i heq
      intro e' he'
      rcases List.mem_cons.mp he' with rfl | he'
      · exact .inr (by rw [heq])
      · exact .inl (List.mem_cons_of_mem _ he')
    · intro e' he'
      rcases List.mem_cons.mp he' with rfl | he'
      · exact .inl (List.mem_cons_self ..)
      · exact (ih e' he').imp_left (List.mem_cons_of_mem _)

theorem rawSet_refs (entries : List (LuaValue × LuaValue)) (key value : LuaValue) :
    ∀ e ∈ rawSet entries key value, e ∈ entries ∨ e = (key, value) := by
  unfold rawSet
  split
  · exact fun e he => .inl (List.mem_of_mem_filter he)
  · exact insert_refs entries key value

structure Vm.Safe (vm : Vm H) : Prop where
  call : ∀ A R f args, f ∈ R → (∀ v ∈ args, v.refs ⊆ R) →
    Lua.Safe vm A (vm.call f args) R LuaValue.refs
  index : ∀ A R v key, v.refs ⊆ R → key.refs ⊆ R → Lua.Safe vm A (vm.index v key) R LuaValue.refs
  newindex : ∀ A R v key value, v.refs ⊆ R → key.refs ⊆ R → value.refs ⊆ R →
    Lua.Safe vm A (vm.newindex v key value) R fun _ => ∅

theorem metamethod_within {h : Heap H} {t : Ref} {entries : List (LuaValue × LuaValue)}
    {metatable : Option Ref} (hR : Within A h R) (ht : t ∈ R)
    (heq : h[t]? = some (.table entries metatable)) (name : Str) :
    Within A h (metamethod h metatable name).refs := by
  unfold metamethod
  split
  · rename_i entries' _ hmeta
    obtain ⟨m, rfl, hm⟩ := Option.bind_eq_some_iff.mp hmeta
    have hrefs : Within A h {m} := (Confined.refs hR ht heq).mono (by
      rintro r rfl
      exact .inr rfl)
    refine (Confined.refs hrefs rfl hm).mono fun r hr => ?_
    exact .inl (rawGet_refs entries' _ hr)
  · exact fun a ha => ha.elim

theorem call_safe (hvm : vm.Safe) {f : Ref} {args : List LuaValue} (hf : f ∈ R)
    (hargs : ∀ v ∈ args, v.refs ⊆ R) : Safe vm A (Lua.call vm f args) R LuaValue.refs := by
  intro h hR
  unfold Lua.call
  split
  · rename_i ns handler x method heq
    have hgrants : {(ns, handler)} ⊆ A := Confined.grants hR (.inl hf) heq
    exact alloc_safe (o := .function (.apiMethod ns method handler)) hgrants
      (Set.empty_subset R) h hR
  · exact hvm.call A R f _ hf hargs h hR

theorem callFound_safe (hvm : vm.Safe) {f : Ref} {args : List LuaValue}
    (hargs : ∀ v ∈ args, v.refs ⊆ R) :
    Safe vm A (Lua.call vm f args) (R ∪ (LuaValue.function f).refs) LuaValue.refs :=
  call_safe hvm (.inr rfl) fun v hv => (hargs v hv).trans Set.subset_union_left

theorem getStep_safe (hvm : vm.Safe) {key v : LuaValue} {go : LuaValue → LuaM H LuaValue}
    (hgo : ∀ R next, key.refs ⊆ R → next.refs ⊆ R → Safe vm A (go next) R LuaValue.refs)
    (hkey : key.refs ⊆ R) (hv : v.refs ⊆ R) : Safe vm A (getStep vm key go v) R LuaValue.refs := by
  intro h hR
  unfold getStep
  split
  · rename_i t
    have ht : t ∈ R := hv rfl
    split
    · rename_i entries metatable heq
      split
      · refine Confined.union hR ((Confined.refs hR (.inl ht) heq).mono fun r hr => ?_)
        exact .inl (rawGet_refs entries key hr)
      · have hmeta := metamethod_within hR (.inl ht) heq "__index".toList
        split
        · exact hR.mono (by simp [LuaValue.refs])
        · rename_i f hf
          rw [hf] at hmeta
          have hargs : ∀ v ∈ [.table t, key], v.refs ⊆ R := by simp [hv, hkey]
          exact (callFound_safe hvm hargs).within hR hmeta
        · exact (hgo _ _ (hkey.trans Set.subset_union_left) Set.subset_union_right).within hR hmeta
    · exact hvm.index A R _ key hv hkey h hR
  · exact hvm.index A R _ key hv hkey h hR

theorem getWithin_safe (hvm : vm.Safe) {key v : LuaValue} (n : Nat) (hkey : key.refs ⊆ R)
    (hv : v.refs ⊆ R) : Safe vm A (getWithin vm key n v) R LuaValue.refs := by
  induction n generalizing v R with
  | zero => exact Safe.throw _ _
  | succ n ih => exact getStep_safe hvm (fun R next hkey hnext => ih hkey hnext) hkey hv

theorem setStep_safe (hvm : vm.Safe) {key value v : LuaValue} {go : LuaValue → LuaM H Unit}
    (hgo : ∀ R next, key.refs ⊆ R → value.refs ⊆ R → next.refs ⊆ R →
      Safe vm A (go next) R fun _ => ∅)
    (hkey : key.refs ⊆ R) (hvalue : value.refs ⊆ R) (hv : v.refs ⊆ R) :
    Safe vm A (setStep vm key value go v) R fun _ => ∅ := by
  intro h hR
  unfold setStep
  split
  · rename_i t
    have ht : t ∈ R := hv rfl
    split
    · rename_i entries metatable heq
      have hset : Within A (h.set t (.table (rawSet entries key value) metatable))
          (vm.roots R) := by
        refine Confined.set hR (.inl ht) heq ?_ ?_
        · exact Set.empty_subset A
        · rintro r (⟨e, he, hr⟩ | hr)
          · rcases rawSet_refs entries key value e he with he | rfl
            · exact .inl (.inl ⟨e, he, hr⟩)
            · exact .inr (.inl (hr.elim (fun h => hkey h) fun h => hvalue h))
          · exact .inl (.inr hr)
      have hassigned := hset.mono (Set.union_subset (Set.Subset.refl _) (Set.empty_subset _))
      dsimp only
      split
      · exact hassigned
      · have hmeta := metamethod_within hR (.inl ht) heq "__newindex".toList
        split
        · exact hassigned
        · rename_i f hf
          rw [hf] at hmeta
          have hargs : ∀ v ∈ [.table t, key, value], v.refs ⊆ R := by simp [hv, hkey, hvalue]
          have hthen : Safe vm A (LuaM.bind (Lua.call vm f [.table t, key, value]) fun _ => pure ())
              (R ∪ (LuaValue.function f).refs) fun _ => ∅ :=
            (callFound_safe hvm hargs).bind fun _ => Safe.pure (Set.empty_subset _)
          exact hthen.within hR hmeta
        · exact (hgo _ _ (hkey.trans Set.subset_union_left) (hvalue.trans Set.subset_union_left)
            Set.subset_union_right).within hR hmeta
    · exact hvm.newindex A R _ key value hv hkey hvalue h hR
  · exact hvm.newindex A R _ key value hv hkey hvalue h hR

theorem setWithin_safe (hvm : vm.Safe) {key value v : LuaValue} (n : Nat) (hkey : key.refs ⊆ R)
    (hvalue : value.refs ⊆ R) (hv : v.refs ⊆ R) :
    Safe vm A (setWithin vm key value n v) R fun _ => ∅ := by
  induction n generalizing v R with
  | zero => exact Safe.throw _ _
  | succ n ih =>
    exact setStep_safe hvm (fun R next hkey hvalue hnext => ih hkey hvalue hnext) hkey hvalue hv

theorem get_safe (hvm : vm.Safe) {t : Ref} (ht : t ∈ R) (name : Str) :
    Safe vm A (Lua.get vm t (.string name)) R LuaValue.refs :=
  getWithin_safe hvm _ (Set.empty_subset R) (Set.singleton_subset_iff.mpr ht)

theorem set_safe (hvm : vm.Safe) {t : Ref} {key value : LuaValue} (ht : t ∈ R)
    (hkey : key.refs ⊆ R) (hvalue : value.refs ⊆ R) :
    Safe vm A (Lua.set vm t key value) R fun _ => ∅ :=
  setWithin_safe hvm _ hkey hvalue (Set.singleton_subset_iff.mpr ht)

end Lua

open Lua

variable {A : Set (Str × H)} {R : Set Nat} {vm : Vm H}

mutual
theorem fieldValueToLua_safe (hvm : vm.Safe) (R : Set Nat) :
    ∀ v : FieldValue, Safe vm A (fieldValueToLua vm v) R LuaValue.refs
  | .enum s | .string s | .number n | .float f | .bool b | .null => by
    rw [fieldValueToLua]
    exact Safe.pure (Set.empty_subset R)
  | .list items => by
    rw [fieldValueToLua]
    refine createTable_safe.bind fun table => ?_
    refine (setItems_safe hvm _ 1 items (.inr rfl)).seq ?_
    exact Safe.pure Set.subset_union_right
  | .map m => by
    rw [fieldValueToLua]
    refine createTable_safe.bind fun table => ?_
    refine (setEntries_safe hvm _ m (.inr rfl)).seq ?_
    exact Safe.pure Set.subset_union_right

theorem setItems_safe (hvm : vm.Safe) (R : Set Nat) {table : Ref} (i : Int64) :
    ∀ items : List FieldValue, table ∈ R → Safe vm A (setItems vm table i items) R fun _ => ∅
  | [], _ => Safe.pure (Set.empty_subset R)
  | item :: items, ht => by
    rw [setItems]
    refine (fieldValueToLua_safe hvm R item).bind fun value => ?_
    refine (set_safe hvm (.inl ht) (Set.empty_subset _) Set.subset_union_right).seq ?_
    exact setItems_safe hvm _ (i + 1) items (.inl ht)

theorem setEntries_safe (hvm : vm.Safe) (R : Set Nat) {table : Ref} :
    ∀ m : List (Str × FieldValue), table ∈ R → Safe vm A (setEntries vm table m) R fun _ => ∅
  | [], _ => Safe.pure (Set.empty_subset R)
  | (key, val) :: m, ht => by
    rw [setEntries]
    refine (fieldValueToLua_safe hvm R val).bind fun value => ?_
    refine (set_safe hvm (.inl ht) (Set.empty_subset _) Set.subset_union_right).seq ?_
    exact setEntries_safe hvm _ m (.inl ht)
end

theorem installAt_safe (hvm : vm.Safe) {install : Ref → Str → LuaM H Unit}
    (hinstall : ∀ R current part, current ∈ R → Safe vm A (install current part) R fun _ => ∅)
    (R : Set Nat) (parts : List Str) (current : Ref) (hcurrent : current ∈ R) :
    Safe vm A (installAt vm install parts current) R fun _ => ∅ := by
  induction parts generalizing R current with
  | nil => exact Safe.pure (Set.empty_subset R)
  | cons part parts ih =>
    cases parts with
    | nil => exact hinstall R current part hcurrent
    | cons part' parts =>
      simp only [installAt]
      refine (get_safe hvm hcurrent part).bind fun next => ?_
      split
      · exact ih _ _ (.inr rfl)
      · refine createTable_safe.bind fun t => ?_
        refine (set_safe hvm (.inl (.inl hcurrent)) (Set.empty_subset _)
          Set.subset_union_right).seq ?_
        exact ih _ _ (.inr rfl)

theorem createApiProxy_safe (hvm : vm.Safe) {ns : Str} {handler : H} (hA : (ns, handler) ∈ A)
    (R : Set Nat) : Safe vm A (createApiProxy vm ns handler) R fun r => {r} := by
  refine createTable_safe.bind fun table => ?_
  refine createTable_safe.bind fun mt => ?_
  refine (alloc_safe (Set.singleton_subset_iff.mpr hA) (Set.empty_subset _)).bind fun index => ?_
  refine (set_safe hvm (.inl (.inr rfl)) (Set.empty_subset _) Set.subset_union_right).seq ?_
  refine (setMetatable_safe (.inl (.inl (.inr rfl))) (.inl (.inr rfl))).seq ?_
  exact Safe.pure (Set.singleton_subset_iff.mpr (.inl (.inl (.inr rfl))))

theorem injectApis_safe (hvm : vm.Safe) {env : Ref} {clause : Clause}
    (entries : List (ApiBindingEntry H))
    (hA : ∀ entry ∈ entries, selects entry.spec.pattern clause →
      (entry.spec.ns, entry.spec.handler) ∈ A)
    (R : Set Nat) (henv : env ∈ R) : Safe vm A (injectApis vm env clause entries) R fun _ => ∅ := by
  induction entries with
  | nil => exact Safe.pure (Set.empty_subset R)
  | cons entry entries ih =>
    rw [injectApis]
    have hrest := ih fun e he => hA e (List.mem_cons_of_mem _ he)
    split
    · rename_i hselects
      have hentry := hA entry (List.mem_cons_self ..) hselects
      refine Safe.seq (installAt_safe hvm ?_ R _ env henv) hrest
      intro R current part hcurrent
      refine (createApiProxy_safe hvm hentry R).bind fun proxy => ?_
      exact set_safe hvm (.inl hcurrent) (Set.empty_subset _) Set.subset_union_right
    · exact hrest

theorem setUp_safe (hvm : vm.Safe) {globals : Ref} {clause : Clause} (bindings : FieldBindings)
    (entries : List (ApiBindingEntry H))
    (hA : ∀ entry ∈ entries, selects entry.spec.pattern clause →
      (entry.spec.ns, entry.spec.handler) ∈ A) :
    Safe vm A (setUp vm globals clause bindings entries []) {globals} fun env => {env} := by
  refine createTable_safe.bind fun env => ?_
  refine createTable_safe.bind fun mt => ?_
  have hglobals : {globals} ⊆ ({globals} ∪ {env} ∪ {mt} : Set Nat) :=
    Set.subset_union_left.trans Set.subset_union_left
  refine (set_safe hvm (.inr rfl) (Set.empty_subset _) hglobals).seq ?_
  refine (set_safe hvm (.inr rfl) (Set.empty_subset _) hglobals).seq ?_
  refine (setMetatable_safe (.inl (.inr rfl)) (.inr rfl)).seq ?_
  refine (setEntries_safe hvm _ bindings (.inl (.inr rfl))).seq ?_
  refine (injectApis_safe hvm entries hA _ (.inl (.inr rfl))).seq ?_
  refine Safe.seq (Safe.pure (Set.empty_subset _)) ?_
  refine createTable_safe.bind fun luamlNs => ?_
  refine (alloc_safe (Set.empty_subset A) (Set.empty_subset _)).bind fun dispatchFn => ?_
  refine (set_safe hvm (.inl (.inr rfl)) (Set.empty_subset _) Set.subset_union_right).seq ?_
  refine (alloc_safe (Set.empty_subset A) (Set.empty_subset _)).bind fun enumFn => ?_
  refine (set_safe hvm (.inl (.inl (.inr rfl))) (Set.empty_subset _)
    Set.subset_union_right).seq ?_
  refine (set_safe hvm (.inl (.inl (.inl (.inl (.inr rfl))))) (Set.empty_subset _)
    (Set.singleton_subset_iff.mpr (.inl (.inl (.inr rfl))))).seq ?_
  exact Safe.pure (Set.singleton_subset_iff.mpr (.inl (.inl (.inl (.inl (.inr rfl))))))

theorem setUp_reachable (hvm : vm.Safe) {globals : Ref} {clause : Clause}
    (bindings : FieldBindings) (entries : List (ApiBindingEntry H))
    (hA : ∀ entry ∈ entries, selects entry.spec.pattern clause →
      (entry.spec.ns, entry.spec.handler) ∈ A) {heap heap' : Heap H} {env : Ref}
    (hleft : Within A heap (vm.roots {globals}))
    (h : setUp vm globals clause bindings entries [] heap = (.ok env, heap')) :
    vm.reachable heap' env ⊆ A := by
  have hafter := setUp_safe hvm bindings entries hA heap hleft
  rw [h] at hafter
  have henv : Within A heap' (vm.roots {env}) := by
    apply Confined.mono hafter
    rintro a (ha | ha)
    · exact .inr ha
    · exact .inl (.inr ha)
  rintro x ⟨a, ha, r, o, hr, ho, hx⟩
  exact henv a ha r hr o ho hx

namespace ApiEngine

def InScope (engine : ApiEngine H) (clause : Clause) : Set (Str × H) :=
  {x | ∃ entry ∈ engine.apis.entries, selects entry.spec.pattern clause ∧
    (entry.spec.ns, entry.spec.handler) = x}

theorem mem_inScope (engine : ApiEngine H) {clause : Clause} :
    ∀ entry ∈ engine.apis.entries, selects entry.spec.pattern clause →
      (entry.spec.ns, entry.spec.handler) ∈ engine.InScope clause :=
  fun entry hentry hselects => ⟨entry, hentry, hselects, rfl⟩

variable {body : Str → Ref → LuaM H (List FieldMap)} {globals : Ref}

theorem setUp_inScope (hvm : vm.Safe) {engine : ApiEngine H} {clause : Clause}
    (bindings : FieldBindings)
    (hleft : Within (engine.InScope clause) engine.heap (vm.roots {globals}))
    {env : Ref} {heap : Heap H}
    (h : setUp vm globals clause bindings engine.apis.entries [] engine.heap = (.ok env, heap)) :
    vm.reachable heap env ⊆ engine.InScope clause :=
  setUp_reachable hvm bindings engine.apis.entries engine.mem_inScope hleft h

/-- A run whose executions find no handlers out of scope within reach of the globals: no body gets
at a handler out of scope. -/
theorem executions_inScope (hvm : vm.Safe) (engine : ApiEngine H) (ops : List (Op H))
    (hleft : ∀ x ∈ engine.executions vm body globals ops,
      Within (x.engine.InScope x.clause) x.engine.heap (vm.roots {globals})) :
    ∀ x ∈ engine.executions vm body globals ops, ∀ env heap,
      setUp vm globals x.clause x.bindings x.engine.apis.entries [] x.engine.heap =
        (.ok env, heap) →
      ∀ ns handler, (ns, handler) ∈ vm.reachable heap env →
        ∃ entry ∈ x.engine.apis.entries, entry.spec.ns = ns ∧ entry.spec.handler = handler ∧
          selects entry.spec.pattern x.clause := by
  intro x hx env heap hsetUp ns handler hreachable
  have hscope := setUp_inScope hvm x.bindings (hleft x hx) hsetUp
  obtain ⟨entry, hentry, hselects, heq⟩ := hscope hreachable
  obtain ⟨rfl, rfl⟩ := Prod.mk.inj heq
  exact ⟨entry, hentry, rfl, rfl, hselects⟩

theorem executeClause_inScope (hvm : vm.Safe)
    (hbody : ∀ A R source env, env ∈ R → Safe vm A (body source env) R fun _ => ∅)
    {engine : ApiEngine H} {clause : Clause} (bindings : FieldBindings)
    (hleft : Within (engine.InScope clause) engine.heap (vm.roots {globals})) :
    Within (engine.InScope clause)
      (engine.apply vm body globals (.execute clause bindings)).heap (vm.roots {globals}) := by
  have hexecute : Safe vm (engine.InScope clause)
      (executeClause vm body globals clause bindings engine.apis.entries []) {globals}
      fun _ => ∅ := by
    apply (setUp_safe hvm bindings engine.apis.entries engine.mem_inScope).bind
    intro env
    exact hbody _ _ _ env (.inr rfl)
  exact (hexecute engine.heap hleft).left

theorem executions_left (hvm : vm.Safe)
    (hbody : ∀ A R source env, env ∈ R → Safe vm A (body source env) R fun _ => ∅)
    {engine : ApiEngine H} {ops : List (Op H)} {A : Set (Str × H)}
    (hglobals : Within A engine.heap (vm.roots {globals}))
    (hA : ∀ x ∈ engine.executions vm body globals ops, A ⊆ x.engine.InScope x.clause)
    (hkept : (engine.executions vm body globals ops).Pairwise fun x y =>
      x.engine.InScope x.clause ⊆ y.engine.InScope y.clause) :
    ∀ x ∈ engine.executions vm body globals ops,
      Within (x.engine.InScope x.clause) x.engine.heap (vm.roots {globals}) := by
  induction ops generalizing engine A with
  | nil =>
    intro x hx
    cases hx
  | cons op ops ih =>
    cases op with
    | execute clause bindings =>
      rw [executions, List.pairwise_cons] at hkept
      rw [executions, List.forall_mem_cons] at hA
      have hscope : Within (engine.InScope clause) engine.heap (vm.roots {globals}) :=
        fun a ha b hb o ho => (hglobals a ha b hb o ho).trans hA.1
      rw [executions, List.forall_mem_cons]
      refine ⟨hscope, ?_⟩
      apply ih _ hkept.1 hkept.2
      exact executeClause_inScope hvm hbody bindings hscope
    | registerApi spec => exact ih hglobals hA hkept
    | unregisterApi id => exact ih hglobals hA hkept
    | replaceApi id spec => exact ih hglobals hA hkept

end ApiEngine

/-- A virtual machine without code. -/
def noCode : Vm Unit where
  metatables := []
  call _ _ := .throw "attempt to call a nil value".toList
  index _ _ := .throw "attempt to index a nil value".toList
  newindex _ _ _ := .throw "attempt to index a nil value".toList

theorem noCode_safe : noCode.Safe where
  call _ _ _ _ _ _ := Safe.throw _ _
  index _ _ _ _ _ _ := Safe.throw _ _
  newindex _ _ _ _ _ _ _ _ := Safe.throw _ _

def surfaceClause (surface : String) : Clause :=
  ⟨⟨[("surface".toList, .enum surface.toList)]⟩, none, ⟨[]⟩, [], []⟩

def clientSpec : ApiBindingSpec Unit :=
  ⟨"client".toList, [("surface".toList, .enum "tui".toList)], ()⟩

def freshEngine : ApiEngine Unit := ⟨.empty, [.table [] none]⟩

def idle : Str → Ref → LuaM Unit (List FieldMap) := fun _ _ => pure []

theorem globals_within (A : Set (Str × Unit)) :
    Within A freshEngine.heap (noCode.roots {0}) := by
  rintro a ha b hb o ho
  cases b with
  | zero =>
    obtain rfl := Option.some.inj ho
    exact Set.empty_subset A
  | succ b => cases ho

def registered : ApiEngine Unit := freshEngine.apply noCode idle 0 (.registerApi clientSpec)

/-- The heap with the environment of the first clause, which is 1.  The globals have `luaml` for the
table of that name. -/
def clientHeap (luaml : Ref) : Heap Unit :=
  let string (s : String) : LuaValue := .string s.toList
  [.table [(string "client", .table 3), (string "luaml", .table luaml)] none,
    .table [] (some 2),
    .table [(string "__index", .table 0), (string "__newindex", .table 0)] none,
    .table [] (some 4),
    .table [(string "__index", .function 5)] none,
    .function (.apiIndex "client".toList ()),
    .table [(string "dispatch", .function 7), (string "enum", .function 8)] none,
    .function .dispatch,
    .function .enum]

theorem registered_setUp :
    setUp noCode 0 (surfaceClause "tui") [] registered.apis.entries [] registered.heap =
      (.ok 1, clientHeap 6) := by
  decide +kernel

theorem clientHeap_reachable {luaml env mt : Ref} {more : Heap Unit}
    (henv : Refers (shape Unit) (clientHeap luaml ++ more) env mt)
    (hindex : Refers (shape Unit) (clientHeap luaml ++ more) mt 0) :
    ("client".toList, ()) ∈ noCode.reachable (clientHeap luaml ++ more) env := by
  have hclient : Refers (shape Unit) (clientHeap luaml ++ more) 0 3 :=
    ⟨_, rfl, .inl ⟨_, List.mem_cons_self .., .inr rfl⟩⟩
  have hproxy : Refers (shape Unit) (clientHeap luaml ++ more) 3 4 := ⟨_, rfl, .inr rfl⟩
  have hcall : Refers (shape Unit) (clientHeap luaml ++ more) 4 5 :=
    ⟨_, rfl, .inl ⟨_, List.mem_cons_self .., .inr rfl⟩⟩
  have hreaches : Reaches (shape Unit) (clientHeap luaml ++ more) env 5 :=
    .head henv (.head hindex (.head hclient (.head hproxy (.single hcall))))
  exact ⟨env, .inl rfl, 5, _, hreaches, rfl, rfl⟩

theorem freshEngine_inScope :
    ∃ entry ∈ registered.apis.entries, entry.spec.ns = "client".toList ∧ entry.spec.handler = () ∧
      selects entry.spec.pattern (surfaceClause "tui") := by
  have hx : ⟨registered, surfaceClause "tui", []⟩ ∈ freshEngine.executions noCode idle 0
      [.registerApi clientSpec, .execute (surfaceClause "tui") []] := .head _
  have hreachable : ("client".toList, ()) ∈ noCode.reachable (clientHeap 6 ++ []) 1 := by
    apply clientHeap_reachable
    · exact ⟨_, rfl, .inr rfl⟩
    · exact ⟨_, rfl, .inl ⟨_, List.mem_cons_self .., .inr rfl⟩⟩
  apply ApiEngine.executions_inScope noCode_safe _ _ _ _ hx 1 _ registered_setUp _ _ hreachable
  · intro x hx
    obtain rfl := List.mem_singleton.mp hx
    exact globals_within _

def leftoverOps : List (Op Unit) :=
  [.registerApi clientSpec, .execute (surfaceClause "tui") [], .execute (surfaceClause "runner") []]

def leftover : ApiEngine Unit :=
  registered.apply noCode idle 0 (.execute (surfaceClause "tui") [])

def leftoverHeap : Heap Unit :=
  let string (s : String) : LuaValue := .string s.toList
  clientHeap 11 ++ [.table [] (some 10),
    .table [(string "__index", .table 0), (string "__newindex", .table 0)] none,
    .table [(string "dispatch", .function 12), (string "enum", .function 13)] none,
    .function .dispatch,
    .function .enum]

theorem leftover_setUp :
    setUp noCode 0 (surfaceClause "runner") [] leftover.apis.entries [] leftover.heap =
      (.ok 9, leftoverHeap) := by
  decide +kernel

theorem leftoverHeap_reachable : ("client".toList, ()) ∈ noCode.reachable leftoverHeap 9 := by
  apply clientHeap_reachable
  · exact ⟨_, rfl, .inr rfl⟩
  · exact ⟨_, rfl, .inl ⟨_, List.mem_cons_self .., .inr rfl⟩⟩

/-- The clause of another surface gets the namespace too, when it comes second. -/
theorem leftover_namespace :
    ¬ ∀ ops, ∀ x ∈ freshEngine.executions noCode idle 0 ops, ∀ env heap,
      setUp noCode 0 x.clause x.bindings x.engine.apis.entries [] x.engine.heap =
        (.ok env, heap) →
      ∀ ns handler, (ns, handler) ∈ noCode.reachable heap env →
        ∃ entry ∈ x.engine.apis.entries, entry.spec.ns = ns ∧ entry.spec.handler = handler ∧
          selects entry.spec.pattern x.clause := by
  intro h
  have hx : ⟨leftover, surfaceClause "runner", []⟩ ∈
      freshEngine.executions noCode idle 0 leftoverOps := .tail _ (.head _)
  obtain ⟨entry, hentry, -, -, hselects⟩ :=
    h _ _ hx 9 leftoverHeap leftover_setUp _ _ leftoverHeap_reachable
  obtain rfl := List.mem_singleton.mp hentry
  revert hselects
  decide +kernel

end Luaml
