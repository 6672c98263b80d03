import Luaml.InjectionLaws

namespace Luaml

open Rust Walk Lua

variable {H : Type}

def injectNamespaces (vm : Vm H) (env : Ref) (clause : Clause)
    (apiBindings : List (ApiBindingEntry H)) (localApiBindings : List (LocalApiBindingSpec H)) :
    LuaM H Unit := do
  injectApis vm env clause apiBindings
  installLocals vm env clause localApiBindings

section

variable {vm : Vm H} {globals env mt x : Ref} {R : Set (Ref × List Str)} {clause : Clause}

/-- Names have been given new tables, and no name below one of them leads to what it led to. -/
structure Passed (R : Set (Ref × List Str)) (globals : Ref) (names : List Str) (h h' : Heap H) :
    Prop where
  length_le : h.length ≤ h'.length
  kept : ∀ q, Along R globals q → (∀ ns ∈ names, ¬ ns.splitOn '.' <+: q) → ∀ r,
    walk (child h) globals q = some r → walk (child h') globals q = some r
  back : ∀ q, Along R globals q → ∀ r, r < h.length → walk (child h') globals q = some r →
    (∀ ns ∈ names, ¬ ns.splitOn '.' <+: q) ∧ walk (child h) globals q = some r

theorem Passed.nil (h : Heap H) : Passed R globals [] h h :=
  ⟨Nat.le_refl _, fun _ _ _ _ hr => hr, fun _ _ _ _ hr => ⟨by simp, hr⟩⟩

theorem Passed.trans {names names' : List Str} {h h' h'' : Heap H}
    (hpassed : Passed R globals names h h') (hpassed' : Passed R globals names' h' h'') :
    Passed R globals (names ++ names') h h'' where
  length_le := hpassed.length_le.trans hpassed'.length_le
  kept q hq hnot r hr := by
    rw [List.forall_mem_append] at hnot
    exact hpassed'.kept q hq hnot.2 r (hpassed.kept q hq hnot.1 r hr)
  back q hq r hlt hr := by
    obtain ⟨hnot', hr⟩ := hpassed'.back q hq r (hlt.trans_le hpassed.length_le) hr
    obtain ⟨hnot, hr⟩ := hpassed.back q hq r hlt hr
    exact ⟨List.forall_mem_append.mpr ⟨hnot, hnot'⟩, hr⟩

theorem Placed.passed {ns : Str} {h h' : Heap H}
    (hplaced : Placed R globals h.length (ns.splitOn '.') x h h') :
    Passed R globals [ns] h h' where
  length_le := hplaced.length_le
  kept q hq hnot := hplaced.kept q hq (hnot ns (List.mem_singleton_self ns))
  back q hq r hlt hr := by
    obtain ⟨hnot, hr⟩ := hplaced.back q hq r hlt hr
    exact ⟨by simpa using hnot, hr⟩

theorem injectApis_cons {entry : ApiBindingEntry H} (hselects : selects entry.spec.pattern clause)
    {h h' : Heap H}
    (hinject : injectApiNamespace vm env entry.spec.ns entry.spec.handler h = (.ok (), h'))
    (entries : List (ApiBindingEntry H)) :
    injectApis vm env clause (entry :: entries) h = injectApis vm env clause entries h' := by
  rw [injectApis, if_pos hselects, LuaM.bind_of_ok hinject]

theorem installLocals_cons {spec : LocalApiBindingSpec H} (hselects : selects spec.pattern clause)
    {h h' h'' : Heap H} {t : Ref} (hbuild : spec.builder h = (.ok t, h'))
    (hinstall : installNamespaceTable vm env spec.ns t h' = (.ok (), h''))
    (specs : List (LocalApiBindingSpec H)) :
    installLocals vm env clause (spec :: specs) h = installLocals vm env clause specs h'' := by
  rw [installLocals, if_pos hselects, LuaM.bind_of_ok hbuild, LuaM.bind_of_ok hinstall]

theorem injectApis_passed (vm : Vm H) (entries : List (ApiBindingEntry H))
    (hselects : ∀ entry ∈ entries, selects entry.spec.pattern clause)
    (hns : ∀ entry ∈ entries, Along R globals (entry.spec.ns.splitOn '.')) {h : Heap H}
    (hord : Orderly globals env mt R h) :
    ∃ h', injectApis vm env clause entries h = (.ok (), h') ∧ Orderly globals env mt R h' ∧
      Passed R globals (entries.map fun entry => entry.spec.ns) h h' := by
  induction entries generalizing h with
  | nil => exact ⟨h, rfl, hord, .nil h⟩
  | cons entry entries ih =>
    rw [List.forall_mem_cons] at hselects hns
    obtain ⟨y, h', hinject, hord', hplaced, -⟩ :=
      injectApiNamespace_placed vm hord hns.1 entry.spec.handler
    obtain ⟨h'', hrest, hord'', hpassed⟩ := ih hselects.2 hns.2 hord'
    refine ⟨h'', ?_, hord'', hplaced.passed.trans hpassed⟩
    rw [injectApis_cons hselects.1 hinject, hrest]

theorem installLocals_passed (vm : Vm H) (specs : List (LocalApiBindingSpec H))
    (hselects : ∀ spec ∈ specs, selects spec.pattern clause)
    (hns : ∀ spec ∈ specs, Along R globals (spec.ns.splitOn '.'))
    (hbuilds : ∀ spec ∈ specs, Builds (below R globals (spec.ns.splitOn '.')) spec.builder)
    {h : Heap H} (hord : Orderly globals env mt R h) :
    ∃ h', installLocals vm env clause specs h = (.ok (), h') ∧ Orderly globals env mt R h' ∧
      Passed R globals (specs.map fun spec => spec.ns) h h' := by
  induction specs generalizing h with
  | nil => exact ⟨h, rfl, hord, .nil h⟩
  | cons spec specs ih =>
    rw [List.forall_mem_cons] at hselects hns hbuilds
    obtain ⟨t, h₁, hbuild, hbuilt⟩ := hbuilds.1 h
    obtain ⟨h', hinstall, -, hord', hplaced⟩ := installNamespaceTable_placed vm hord hns.1 hbuilt
    obtain ⟨h'', hrest, hord'', hpassed⟩ := ih hselects.2 hns.2 hbuilds.2 hord'
    refine ⟨h'', ?_, hord'', hplaced.passed.trans hpassed⟩
    rw [installLocals_cons hselects.1 hbuild hinstall, hrest]

theorem injectApis_split (vm : Vm H) {pre post : List (ApiBindingEntry H)}
    {entry : ApiBindingEntry H}
    (hselects : ∀ e ∈ pre ++ entry :: post, selects e.spec.pattern clause)
    (hns : ∀ e ∈ pre ++ entry :: post, Along R globals (e.spec.ns.splitOn '.')) {h : Heap H}
    (hord : Orderly globals env mt R h) :
    ∃ g g' h' y, injectApis vm env clause pre h = (.ok (), g) ∧
      injectApiNamespace vm env entry.spec.ns entry.spec.handler g = (.ok (), g') ∧
      g.length ≤ y ∧ IsProxy g' y entry.spec.ns entry.spec.handler ∧
      walk (child g') globals (entry.spec.ns.splitOn '.') = some y ∧
      injectApis vm env clause (pre ++ entry :: post) h = (.ok (), h') ∧
      Orderly globals env mt R h' ∧
      Passed R globals (post.map fun entry => entry.spec.ns) g' h' := by
  induction pre generalizing h with
  | nil =>
    rw [List.nil_append, List.forall_mem_cons] at hselects hns
    obtain ⟨y, g', hinject, hord', hplaced, hy, hproxy⟩ :=
      injectApiNamespace_placed vm hord hns.1 entry.spec.handler
    obtain ⟨h', hrest, hord'', hpassed⟩ := injectApis_passed vm post hselects.2 hns.2 hord'
    refine ⟨h, g', h', y, rfl, hinject, hy, hproxy, hplaced.own, ?_, hord'', hpassed⟩
    rw [List.nil_append, injectApis_cons hselects.1 hinject, hrest]
  | cons e pre ih =>
    rw [List.cons_append, List.forall_mem_cons] at hselects hns
    obtain ⟨-, h₁, hinject, hord₁, -⟩ := injectApiNamespace_placed vm hord hns.1 e.spec.handler
    obtain ⟨g, g', h', y, hpre, hentry, hy, hproxy, hwalk, hall, hord', hpassed⟩ :=
      ih hselects.2 hns.2 hord₁
    refine ⟨g, g', h', y, ?_, hentry, hy, hproxy, hwalk, ?_, hord', hpassed⟩
    · rw [injectApis_cons hselects.1 hinject, hpre]
    · rw [List.cons_append, injectApis_cons hselects.1 hinject, hall]

theorem installLocals_split (vm : Vm H) {pre post : List (LocalApiBindingSpec H)}
    {spec : LocalApiBindingSpec H}
    (hselects : ∀ s ∈ pre ++ spec :: post, selects s.pattern clause)
    (hns : ∀ s ∈ pre ++ spec :: post, Along R globals (s.ns.splitOn '.'))
    (hbuilds : ∀ s ∈ pre ++ spec :: post, Builds (below R globals (s.ns.splitOn '.')) s.builder)
    {h : Heap H} (hord : Orderly globals env mt R h) :
    ∃ g g₁ g' h' t, installLocals vm env clause pre h = (.ok (), g) ∧
      spec.builder g = (.ok t, g₁) ∧ t < g'.length ∧
      walk (child g') globals (spec.ns.splitOn '.') = some t ∧
      installLocals vm env clause (pre ++ spec :: post) h = (.ok (), h') ∧
      Orderly globals env mt R h' ∧ Passed R globals (post.map fun spec => spec.ns) g' h' := by
  induction pre generalizing h with
  | nil =>
    rw [List.nil_append, List.forall_mem_cons] at hselects hns hbuilds
    obtain ⟨t, g₁, hbuild, hbuilt⟩ := hbuilds.1 h
    obtain ⟨g', hinstall, hlt, hord', hplaced⟩ :=
      installNamespaceTable_placed vm hord hns.1 hbuilt
    obtain ⟨h', hrest, hord'', hpassed⟩ :=
      installLocals_passed vm post hselects.2 hns.2 hbuilds.2 hord'
    refine ⟨h, g₁, g', h', t, rfl, hbuild, hlt, hplaced.own, ?_, hord'', hpassed⟩
    rw [List.nil_append, installLocals_cons hselects.1 hbuild hinstall, hrest]
  | cons s pre ih =>
    rw [List.cons_append, List.forall_mem_cons] at hselects hns hbuilds
    obtain ⟨t, h₁, hbuild, hbuilt⟩ := hbuilds.1 h
    obtain ⟨h₂, hinstall, -, hord₂, -⟩ := installNamespaceTable_placed vm hord hns.1 hbuilt
    obtain ⟨g, g₁, g', h', t', hpre, hspec, hlt, hwalk, hall, hord', hpassed⟩ :=
      ih hselects.2 hns.2 hbuilds.2 hord₂
    refine ⟨g, g₁, g', h', t', ?_, hspec, hlt, hwalk, ?_, hord', hpassed⟩
    · rw [installLocals_cons hselects.1 hbuild hinstall, hpre]
    · rw [List.cons_append, installLocals_cons hselects.1 hbuild hinstall, hall]

def resolve (vm : Vm H) : List Str → Ref → LuaM H (Option Ref)
  | [], t => pure (some t)
  | part :: parts, t => do
    match ← Lua.get vm t (.string part) with
    | .table t => resolve vm parts t
    | _ => pure none

def ResolvesTo (vm : Vm H) (env : Ref) (ns : Str) (h : Heap H) (t : Ref) : Prop :=
  (resolve vm (ns.splitOn '.') env h).1 = .ok (some t)

theorem resolve_step (vm : Vm H) {c g : Ref} {h : Heap H} (hord : Orderly globals env mt R h)
    (hg : Leads (child h) R g) (hc : Stands globals env c g) (part : Str) (parts : List Str) :
    (∃ t l, child h g part = some t ∧
      resolve vm (part :: parts) c h = resolve vm parts t (h ++ l)) ∨
      child h g part = none ∧ (resolve vm (part :: parts) c h).1 = .ok none := by
  obtain ⟨v, l, hget, hv⟩ := hord.get vm hg hc part
  rw [resolve, LuaM.bind_of_ok hget]
  split
  · rename_i t
    exact .inl ⟨t, l, (hv t).mp rfl, rfl⟩
  · rename_i hne
    refine .inr ⟨?_, rfl⟩
    rw [Option.eq_none_iff_forall_ne_some]
    exact fun t ht => hne t ((hv t).mpr ht)

theorem resolve_eq (part : Str) (parts p : List Str) {c g : Ref} {h : Heap H}
    (hord : Orderly globals env mt R h) (hq : Along R globals (p ++ part :: parts))
    (hg : walk (child h) globals p = some g) (hc : Stands globals env c g) :
    (resolve vm (part :: parts) c h).1 = .ok (walk (child h) g (part :: parts)) := by
  have hp : (globals, p) ∈ R := hq p part ⟨parts, by simp⟩
  induction parts generalizing part p c g h with
  | nil =>
    obtain ⟨t, l, ht, heq⟩ | ⟨hnone, heq⟩ := resolve_step vm hord ⟨_, hp, hg⟩ hc part []
    · rw [heq, walk, ht]
      rfl
    · rw [heq, walk, hnone]
      rfl
  | cons part' parts ih =>
    obtain ⟨t, l, ht, heq⟩ | ⟨hnone, heq⟩ :=
      resolve_step vm hord ⟨_, hp, hg⟩ hc part (part' :: parts)
    · have hto : walk (child h) globals (p ++ [part]) = some t := by
        rw [walk_concat, hg, Option.bind_some, ht]
      rw [List.append_cons] at hq
      have hname : (globals, p ++ [part]) ∈ R := hq _ part' ⟨parts, by simp⟩
      have hsame := hord.walk_extend l hq
      have hto' : walk (child (h ++ l)) globals (p ++ [part]) = some t := by
        rw [hord.walk_extend l (hord.closed _ hname), hto]
      rw [walk_append _ _ (p ++ [part]), walk_append _ _ (p ++ [part]), hto, hto',
        Option.bind_some, Option.bind_some] at hsame
      have hfirst :
          walk (child h) g (part :: part' :: parts) = walk (child h) t (part' :: parts) := by
        rw [walk, ht, Option.bind_some]
      rw [heq, ih part' (p ++ [part]) (hord.extend l) hq hto' (.inl rfl) hname, hsame, hfirst]
    · rw [heq, walk, hnone]
      rfl

theorem resolvesTo_iff {ns : Str} {h : Heap H} (hord : Orderly globals env mt R h)
    (hns : Along R globals (ns.splitOn '.')) (t : Ref) :
    ResolvesTo vm env ns h t ↔ walk (child h) globals (ns.splitOn '.') = some t := by
  obtain ⟨part, parts, hparts⟩ := List.exists_cons_of_ne_nil (List.splitOn_ne_nil '.' ns)
  rw [ResolvesTo, hparts]
  rw [hparts] at hns
  rw [resolve_eq part parts [] hord hns rfl (.inr ⟨rfl, rfl⟩), Except.ok.injEq]

end

end Luaml
