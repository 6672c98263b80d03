import Luaml.Namespaces

namespace Luaml

open Rust Walk Lua

variable {H : Type} {vm : Vm H}

section

variable {h : Heap H} {t g : Ref} {name : Str}

theorem child_eq_some {entries : List (LuaValue × LuaValue)} {metatable : Option Ref}
    (ht : h[t]? = some (.table entries metatable)) (r : Ref) :
    rawGet entries (.string name) = .table r ↔ child h t name = some r := by
  rw [child, ht]
  dsimp only
  split
  · rename_i r' heq
    rw [heq, LuaValue.table.injEq, Option.some.injEq]
  · rename_i hne
    exact ⟨fun heq => (hne r heq).elim, by simp⟩

theorem getWithin_plain (hplain : Plain h t) (name : Str) (n : Nat) :
    ∃ v l, getWithin vm (.string name) (n + 1) (.table t) h = (.ok v, h ++ l) ∧
      ∀ r, v = .table r ↔ child h t name = some r := by
  obtain ⟨entries, metatable, ht, hpassive⟩ := hplain
  have hraw (hindex : rawGet entries (.string name) = .nil →
      metamethod h metatable "__index".toList = .nil) :
      ∃ v l, getWithin vm (.string name) (n + 1) (.table t) h = (.ok v, h ++ l) ∧
        ∀ r, v = .table r ↔ child h t name = some r :=
    ⟨_, [], by rw [getWithin_eq ht hindex, List.append_nil], child_eq_some ht⟩
  by_cases hnil : rawGet entries (.string name) = .nil
  · cases metatable with
    | none => exact hraw fun _ => rfl
    | some m =>
      obtain ⟨mentries, mmeta, hm, -, hindex | ⟨f, ns, handler, hindex, hf⟩⟩ := hpassive m rfl
      · exact hraw fun _ => by rw [metamethod_some hm, hindex]
      · have hmeta : metamethod h (some m) "__index".toList = .function f := by
          rw [metamethod_some hm, hindex]
        refine ⟨.function h.length, [.function (.apiMethod ns name handler)], ?_, ?_⟩
        · rw [getWithin, getStep]
          simp only [ht, hnil, hmeta, ne_eq, not_true_eq_false, if_false]
          rw [Lua.call]
          simp only [hf]
        · intro r
          rw [← child_eq_some ht, hnil]
          simp
  · exact hraw fun heq => absurd heq hnil

theorem setWithin_plain {entries : List (LuaValue × LuaValue)} {metatable : Option Ref}
    (hplain : Plain h t) (ht : h[t]? = some (.table entries metatable)) (key value : LuaValue)
    (n : Nat) :
    setWithin vm key value (n + 1) (.table t) h =
      (.ok (), h.set t (.table (rawSet entries key value) metatable)) := by
  refine setWithin_eq ht (fun _ => ?_) value n
  obtain ⟨entries', metatable', ht', hpassive⟩ := hplain
  obtain ⟨-, rfl⟩ := table_unique ht ht'
  cases metatable with
  | none => rfl
  | some m =>
    obtain ⟨mentries, mmeta, hm, hnewindex, -⟩ := hpassive m rfl
    rw [metamethod_some hm, hnewindex]

end

/-- The environment leads to the globals, and the ways neither to it nor to its metatable. -/
structure Orderly (globals env mt : Ref) (R : Set (Ref × List Str)) (h : Heap H) : Prop
    extends Forest R h where
  env_eq : h[env]? = some (.table [] (some mt))
  mt_eq : h[mt]? = some (.table (forwarding globals) none)
  hidden : ¬ Leads (child h) R env ∧ ¬ Leads (child h) R mt

def Stands (globals env c t : Ref) : Prop := c = t ∨ c = env ∧ t = globals

section

variable {globals env mt c g x : Ref} {R S : Set (Ref × List Str)} {h h' : Heap H}
  {T : Set (List Str)} {p : List Str} {name : Str}

theorem Orderly.extend (hord : Orderly globals env mt R h) (l : Heap H) :
    Orderly globals env mt R (h ++ l) where
  toForest := hord.toForest.extend l
  env_eq := by
    rw [List.getElem?_append_left (List.getElem?_eq_some_iff.mp hord.env_eq).1, hord.env_eq]
  mt_eq := by
    rw [List.getElem?_append_left (List.getElem?_eq_some_iff.mp hord.mt_eq).1, hord.mt_eq]
  hidden := by
    rw [hord.leads_extend l, hord.leads_extend l]
    exact hord.hidden

theorem Orderly.union {l : Heap H} (hord : Orderly globals env mt R h)
    (hnew : Forest S (h ++ l))
    (hbound : ∀ r, Leads (child (h ++ l)) S r →
      h.length ≤ r ∧ ∀ m, metatableOf (h ++ l) r = some m → h.length ≤ m) :
    Orderly globals env mt (R ∪ S) (h ++ l) where
  toForest := hord.toForest.union hnew hbound
  env_eq := (hord.extend l).env_eq
  mt_eq := (hord.extend l).mt_eq
  hidden := by
    have hout {r : Ref} (hr : r < h.length) (hlead : ¬ Leads (child (h ++ l)) R r) :
        ¬ Leads (child (h ++ l)) (R ∪ S) r := by
      rintro ⟨way, hway | hway, hwalk⟩
      · exact hlead ⟨way, hway, hwalk⟩
      · exact absurd hr (hbound r ⟨way, hway, hwalk⟩).1.not_gt
    exact ⟨hout (List.getElem?_eq_some_iff.mp hord.env_eq).1 (hord.extend l).hidden.1,
      hout (List.getElem?_eq_some_iff.mp hord.mt_eq).1 (hord.extend l).hidden.2⟩

theorem Orderly.get (vm : Vm H) (hord : Orderly globals env mt R h) (hg : Leads (child h) R g)
    (hc : Stands globals env c g) (name : Str) :
    ∃ v l, Lua.get vm c (.string name) h = (.ok v, h ++ l) ∧
      ∀ r, v = .table r ↔ child h g name = some r := by
  rcases hc with rfl | ⟨rfl, rfl⟩
  · exact getWithin_plain (hord.plain c hg) name _
  · rw [Lua.get, maxTagLoop, getWithin_forward hord.env_eq hord.mt_eq]
    exact getWithin_plain (hord.plain g hg) name _

theorem Orderly.set (hord : Orderly globals env mt R h) (hlead : Leads (child h) R g)
    (hc : Stands globals env c g) {entries : List (LuaValue × LuaValue)} {metatable : Option Ref}
    (hg : h[g]? = some (.table entries metatable)) (key value : LuaValue) :
    Lua.set vm c key value h = (.ok (), h.set g (.table (rawSet entries key value) metatable)) := by
  rcases hc with rfl | ⟨rfl, rfl⟩
  · exact setWithin_plain (hord.plain c hlead) hg key value _
  · rw [Lua.set, maxTagLoop, setWithin_forward hord.env_eq hord.mt_eq]
    exact setWithin_plain (hord.plain g hlead) hg key value _

theorem Orderly.put (vm : Vm H)
    (hord : Orderly globals env mt (R ∪ ways x (below R globals (p ++ [name]))) h)
    (hclosed : ∀ way ∈ R, Along R way.1 way.2) (hx : ∀ q, (x, q) ∉ R) (hp : (globals, p) ∈ R)
    (hg : walk (child h) globals p = some g) (hc : Stands globals env c g) :
    ∃ h', Lua.set vm c (.string name) (.table x) h = (.ok (), h') ∧ h'.length = h.length ∧
      (∀ r, r ≠ g → h'[r]? = h[r]?) ∧ child h' = relink (child h) g name x ∧
      Orderly globals env mt R h' := by
  have hlead : Leads (child h) (R ∪ ways x (below R globals (p ++ [name]))) g := ⟨_, .inl hp, hg⟩
  obtain ⟨entries, metatable, heq, -⟩ := hord.plain g hlead
  have hother (r : Ref) (hr : r ≠ g) :
      (h.set g (.table (rawSet entries (.string name) (.table x)) metatable))[r]? = h[r]? :=
    List.getElem?_set_ne (Ne.symm hr)
  refine ⟨_, hord.set hlead hc heq _ _, List.length_set, hother, child_set heq name, ?_⟩
  refine ⟨hord.toForest.set hclosed hx hp hg heq, ?_, ?_, ?_, ?_⟩
  · rw [hother env (fun heq => hord.hidden.1 (heq ▸ hlead)), hord.env_eq]
  · rw [hother mt (fun heq => hord.hidden.2 (heq ▸ hlead)), hord.mt_eq]
  · exact fun hr => hord.hidden.1 (hord.leads_set hclosed hx hp hg heq hr)
  · exact fun hr => hord.hidden.2 (hord.leads_set hclosed hx hp hg heq hr)

/-- All that names led to they lead to, and nothing else that stands below the bound. -/
structure Grows (R : Set (Ref × List Str)) (globals : Ref) (lo : Nat) (h h' : Heap H) : Prop where
  length_le : h.length ≤ h'.length
  kept : ∀ q, Along R globals q → ∀ r, walk (child h) globals q = some r →
    walk (child h') globals q = some r
  back : ∀ q, Along R globals q → ∀ r, r < lo → walk (child h') globals q = some r →
    walk (child h) globals q = some r

structure Placed (R : Set (Ref × List Str)) (globals : Ref) (lo : Nat) (q : List Str) (x : Ref)
    (h h' : Heap H) : Prop where
  length_le : h.length ≤ h'.length
  own : walk (child h') globals q = some x
  kept : ∀ q', Along R globals q' → ¬ q <+: q' → ∀ r, walk (child h) globals q' = some r →
    walk (child h') globals q' = some r
  back : ∀ q', Along R globals q' → ∀ r, r < lo → walk (child h') globals q' = some r →
    ¬ q <+: q' ∧ walk (child h) globals q' = some r

theorem Orderly.grows (hord : Orderly globals env mt R h) (lo : Nat) (l : Heap H) :
    Grows R globals lo h (h ++ l) where
  length_le := by simp
  kept q hq r hr := by rwa [hord.walk_extend l hq]
  back q hq r _ hr := by rwa [hord.walk_extend l hq] at hr

theorem Grows.trans {lo : Nat} {h'' : Heap H} (hgrows : Grows R globals lo h h')
    (hgrows' : Grows R globals lo h' h'') : Grows R globals lo h h'' where
  length_le := hgrows.length_le.trans hgrows'.length_le
  kept q hq r hr := hgrows'.kept q hq r (hgrows.kept q hq r hr)
  back q hq r hlt hr := hgrows.back q hq r hlt (hgrows'.back q hq r hlt hr)

theorem Grows.placed {lo : Nat} {q : List Str} {h'' : Heap H} (hgrows : Grows R globals lo h h')
    (hplaced : Placed R globals lo q x h' h'') : Placed R globals lo q x h h'' where
  length_le := hgrows.length_le.trans hplaced.length_le
  own := hplaced.own
  kept q' hq' hnot r hr := hplaced.kept q' hq' hnot r (hgrows.kept q' hq' r hr)
  back q' hq' r hlt hr := by
    obtain ⟨hnot, hr⟩ := hplaced.back q' hq' r hlt hr
    exact ⟨hnot, hgrows.back q' hq' r hlt hr⟩

theorem Orderly.placed (lo : Nat)
    (hord : Orderly globals env mt (R ∪ ways x (below R globals (p ++ [name]))) h)
    (hclosed : ∀ way ∈ R, Along R way.1 way.2) (hx : ∀ q, (x, q) ∉ R) (hp : (globals, p) ∈ R)
    (hg : walk (child h) globals p = some g)
    (hnew : ∀ s, Along (ways x (below R globals (p ++ [name]))) x s → ∀ r,
      walk (child h) x s = some r → lo ≤ r)
    (hlen : h'.length = h.length) (hchild : child h' = relink (child h) g name x) :
    Placed R globals lo (p ++ [name]) x h h' := by
  have hgraft : Graft (child h) R globals p name x := ⟨hord.unshared, hx⟩
  have hR : R ⊆ R ∪ ways x (below R globals (p ++ [name])) := Set.subset_union_left
  have hne : x ≠ globals := fun heq => hx p (heq ▸ hp)
  refine ⟨hlen.ge, ?_, ?_, ?_⟩ <;> rw [hchild]
  · have hempty : Along (R ∪ ways x (below R globals (p ++ [name]))) x [] := by
      intro q k hq
      simp at hq
    have hbelow : walk (relink (child h) g name x) globals (p ++ [name] ++ []) = some x :=
      walk_relink_below hord.unshared (hR hp) ((hclosed _ hp).mono hR) hg hne hempty
    rwa [List.append_nil] at hbelow
  · intro q hq hnot r hr
    rcases hgraft.walk_cases hp (hclosed _ hp) hg hq with ⟨s, -, rfl, -⟩ | ⟨-, heq⟩
    · exact absurd (List.prefix_append _ _) hnot
    · rw [heq, hr]
  · intro q hq r hlt hr
    rcases hgraft.walk_cases hp (hclosed _ hp) hg hq with ⟨s, -, rfl, heq⟩ | ⟨hnot, heq⟩
    · rw [heq] at hr
      exact absurd hlt (hnew s hq.below r hr).not_gt
    · exact ⟨hnot rfl, heq ▸ hr⟩

theorem Grows.mono {lo : Nat} (hgrows : Grows S globals lo h h') (hR : R ⊆ S) :
    Grows R globals lo h h' where
  length_le := hgrows.length_le
  kept q hq := hgrows.kept q (hq.mono hR)
  back q hq := hgrows.back q (hq.mono hR)

theorem Placed.grows {lo : Nat} {q : List Str} (hplaced : Placed R globals lo q x h h')
    (hnone : walk (child h) globals q = none) : Grows R globals lo h h' where
  length_le := hplaced.length_le
  kept q' hq' r hr := by
    refine hplaced.kept q' hq' ?_ r hr
    rintro ⟨s, rfl⟩
    rw [walk_append, hnone] at hr
    cases hr
  back q' hq' r hlt hr := (hplaced.back q' hq' r hlt hr).2

theorem below_closed (hclosed : ∀ way ∈ R, Along R way.1 way.2) (q : List Str) (x : Ref) :
    ∀ s ∈ below R globals q, Along (ways x (below R globals q)) x s :=
  fun _ hs => (hclosed _ hs).below

theorem child_new_table (h : Heap H) (name : Str) :
    child (h ++ [.table [] none]) h.length name = none := by
  have hself : (h ++ [Object.table [] none])[h.length]? = some (.table [] none) := by simp
  rw [child, hself]
  rfl

theorem metatableOf_new_table (h : Heap H) :
    metatableOf (h ++ [.table [] none]) h.length = none := by
  have hself : (h ++ [Object.table [] none])[h.length]? = some (.table [] none) := by simp
  rw [metatableOf, hself]

theorem forest_new_table (h : Heap H)
    (hclosed : ∀ s ∈ T, Along (ways h.length T) h.length s) :
    Forest (ways h.length T) (h ++ [.table [] none]) ∧
      ∀ r, Leads (child (h ++ [.table [] none])) (ways h.length T) r → r = h.length := by
  have hplain : Plain (h ++ [.table [] none]) h.length := ⟨[], none, by simp, by simp⟩
  exact forest_of_leaf hplain (child_new_table h) (by simp [metatableOf_new_table]) hclosed

theorem Orderly.new_table (hord : Orderly globals env mt R h) (q : List Str) :
    Orderly globals env mt (R ∪ ways h.length (below R globals q)) (h ++ [.table [] none]) := by
  obtain ⟨hforest, hleads⟩ := forest_new_table h (below_closed hord.closed q h.length)
  refine hord.union hforest fun r hr => ?_
  rw [hleads r hr, metatableOf_new_table]
  exact ⟨Nat.le_refl _, by simp⟩

end

end Luaml
