import Luaml.EnvironmentLaws
import Luaml.InjectionOrder

namespace Luaml

open Rust Walk Lua

variable {H : Type}

def namespaces (apiBindings : List (ApiBindingEntry H))
    (localApiBindings : List (LocalApiBindingSpec H)) : List Str :=
  apiBindings.map (fun entry => entry.spec.ns) ++ localApiBindings.map fun spec => spec.ns

def towards (globals : Ref) (names : List Str) : Set (Ref × List Str) :=
  {way | way.1 = globals ∧ ∃ ns ∈ names, ∃ part, way.2 ++ [part] <+: ns.splitOn '.'}

/-- The loops succeed, and after them every namespace resolves to the proxy or the table that was
made for it. -/
def NamespacesResolve (vm : Vm H) (env : Ref) (clause : Clause)
    (apiBindings : List (ApiBindingEntry H)) (localApiBindings : List (LocalApiBindingSpec H))
    (h : Heap H) : Prop :=
  ∃ h', injectNamespaces vm env clause apiBindings localApiBindings h = (.ok (), h') ∧
    (∀ pre entry post, apiBindings = pre ++ entry :: post →
      ∃ g g' t, injectNamespaces vm env clause pre [] h = (.ok (), g) ∧
        injectApiNamespace vm env entry.spec.ns entry.spec.handler g = (.ok (), g') ∧
        g.length ≤ t ∧ IsProxy g' t entry.spec.ns entry.spec.handler ∧
        ResolvesTo vm env entry.spec.ns h' t) ∧
    ∀ pre spec post, localApiBindings = pre ++ spec :: post →
      ∃ g g' t, injectNamespaces vm env clause apiBindings pre h = (.ok (), g) ∧
        spec.builder g = (.ok t, g') ∧ ResolvesTo vm env spec.ns h' t

theorem pairwise_iff_split {α : Type} {r : α → α → Prop} (l : List α) :
    l.Pairwise r ↔ ∀ pre a post, l = pre ++ a :: post → ∀ b ∈ post, r a b := by
  constructor
  · rintro hl pre a post rfl
    exact (List.pairwise_cons.mp (List.pairwise_append.mp hl).2.1).1
  · intro hsplit
    induction l with
    | nil => exact .nil
    | cons a l ih =>
      refine .cons (hsplit [] a l rfl) (ih fun pre b post hl => hsplit (a :: pre) b post ?_)
      rw [hl, List.cons_append]

theorem pairwise_namespaces_iff {r : Str → Str → Prop} (apiBindings : List (ApiBindingEntry H))
    (localApiBindings : List (LocalApiBindingSpec H)) :
    (namespaces apiBindings localApiBindings).Pairwise r ↔
      (∀ pre entry post, apiBindings = pre ++ entry :: post →
        ∀ ns ∈ namespaces post localApiBindings, r entry.spec.ns ns) ∧
      ∀ pre spec post, localApiBindings = pre ++ spec :: post →
        ∀ ns ∈ post.map fun spec => spec.ns, r spec.ns ns := by
  constructor
  · rw [pairwise_iff_split]
    intro hsplit
    refine ⟨?_, ?_⟩
    · rintro pre entry post rfl
      exact hsplit (pre.map fun entry => entry.spec.ns) entry.spec.ns _ (by simp [namespaces])
    · rintro pre spec post rfl
      exact hsplit (namespaces apiBindings pre) spec.ns _ (by simp [namespaces])
  · rintro ⟨hapis, hlocals⟩
    refine List.pairwise_append.mpr ⟨?_, ?_, ?_⟩
    · rw [List.pairwise_map, pairwise_iff_split]
      intro pre entry post hsplit e he
      exact hapis pre entry post hsplit _ (List.mem_append_left _ (List.mem_map_of_mem he))
    · rw [List.pairwise_map, pairwise_iff_split]
      intro pre spec post hsplit s hs
      exact hlocals pre spec post hsplit _ (List.mem_map_of_mem hs)
    · intro ns hns ns' hns'
      obtain ⟨entry, hentry, rfl⟩ := List.mem_map.mp hns
      obtain ⟨pre, post, hsplit⟩ := List.append_of_mem hentry
      exact hapis pre entry post hsplit ns' (List.mem_append_right _ hns')

section

variable {vm : Vm H} {globals env mt : Ref} {clause : Clause} {h : Heap H}
  {apiBindings : List (ApiBindingEntry H)} {localApiBindings : List (LocalApiBindingSpec H)}

theorem along_towards {names : List Str} {ns : Str} (hns : ns ∈ names) :
    Along (towards globals names) globals (ns.splitOn '.') :=
  fun _ part hp => ⟨rfl, ns, hns, part, hp⟩

theorem injectNamespaces_api (vm : Vm H) {R : Set (Ref × List Str)}
    {pre post : List (ApiBindingEntry H)} {entry : ApiBindingEntry H}
    (hapis : ∀ e ∈ pre ++ entry :: post, selects e.spec.pattern clause)
    (hapiAlong : ∀ e ∈ pre ++ entry :: post, Along R globals (e.spec.ns.splitOn '.'))
    (hlocals : ∀ spec ∈ localApiBindings, selects spec.pattern clause)
    (hlocalAlong : ∀ spec ∈ localApiBindings, Along R globals (spec.ns.splitOn '.'))
    (hbuilds : ∀ spec ∈ localApiBindings,
      Builds (below R globals (spec.ns.splitOn '.')) spec.builder)
    (hord : Orderly globals env mt R h) :
    ∃ g g' h' y, injectNamespaces vm env clause pre [] h = (.ok (), g) ∧
      injectApiNamespace vm env entry.spec.ns entry.spec.handler g = (.ok (), g') ∧
      g.length ≤ y ∧ IsProxy g' y entry.spec.ns entry.spec.handler ∧
      walk (child g') globals (entry.spec.ns.splitOn '.') = some y ∧
      injectNamespaces vm env clause (pre ++ entry :: post) localApiBindings h = (.ok (), h') ∧
      Orderly globals env mt R h' ∧ Passed R globals (namespaces post localApiBindings) g' h' := by
  obtain ⟨g, g', h₁, y, hpre, hentry, hy, hproxy, hwalk, hall, hord₁, hpassed⟩ :=
    injectApis_split vm hapis hapiAlong hord
  obtain ⟨h', hrest, hord', hpassed'⟩ :=
    installLocals_passed vm localApiBindings hlocals hlocalAlong hbuilds hord₁
  refine ⟨g, g', h', y, ?_, hentry, hy, hproxy, hwalk, ?_, hord', hpassed.trans hpassed'⟩
  · rw [injectNamespaces, LuaM.bind_of_ok hpre]
    rfl
  · rw [injectNamespaces, LuaM.bind_of_ok hall, hrest]

theorem injectNamespaces_local (vm : Vm H) {R : Set (Ref × List Str)}
    {pre post : List (LocalApiBindingSpec H)} {spec : LocalApiBindingSpec H}
    (hapis : ∀ entry ∈ apiBindings, selects entry.spec.pattern clause)
    (hapiAlong : ∀ entry ∈ apiBindings, Along R globals (entry.spec.ns.splitOn '.'))
    (hlocals : ∀ s ∈ pre ++ spec :: post, selects s.pattern clause)
    (hlocalAlong : ∀ s ∈ pre ++ spec :: post, Along R globals (s.ns.splitOn '.'))
    (hbuilds : ∀ s ∈ pre ++ spec :: post, Builds (below R globals (s.ns.splitOn '.')) s.builder)
    (hord : Orderly globals env mt R h) :
    ∃ g g₁ g' h' t, injectNamespaces vm env clause apiBindings pre h = (.ok (), g) ∧
      spec.builder g = (.ok t, g₁) ∧ t < g'.length ∧
      walk (child g') globals (spec.ns.splitOn '.') = some t ∧
      injectNamespaces vm env clause apiBindings (pre ++ spec :: post) h = (.ok (), h') ∧
      Orderly globals env mt R h' ∧ Passed R globals (post.map fun spec => spec.ns) g' h' := by
  obtain ⟨h₁, hinject, hord₁, -⟩ := injectApis_passed vm apiBindings hapis hapiAlong hord
  obtain ⟨g, g₁, g', h', t, hpre, hspec, hlt, hwalk, hall, hord', hpassed⟩ :=
    installLocals_split vm hlocals hlocalAlong hbuilds hord₁
  refine ⟨g, g₁, g', h', t, ?_, hspec, hlt, hwalk, ?_, hord', hpassed⟩
  · rw [injectNamespaces, LuaM.bind_of_ok hinject, hpre]
  · rw [injectNamespaces, LuaM.bind_of_ok hinject, hall]

theorem IsProxy.lt {t : Ref} {ns : Str} {handler : H} (hproxy : IsProxy h t ns handler) :
    t < h.length := by
  obtain ⟨entries, m, mentries, mmeta, f, ht, -⟩ := hproxy
  exact (List.getElem?_eq_some_iff.mp ht).1

/-- Every namespace resolves to its own table just when none is injected after one that it is a
prefix of. -/
theorem namespacesResolve_iff
    (hord : Orderly globals env mt (towards globals (namespaces apiBindings localApiBindings)) h)
    (hapis : ∀ entry ∈ apiBindings, selects entry.spec.pattern clause)
    (hlocals : ∀ spec ∈ localApiBindings, selects spec.pattern clause)
    (hbuilds : ∀ spec ∈ localApiBindings, Builds
      (below (towards globals (namespaces apiBindings localApiBindings)) globals
        (spec.ns.splitOn '.')) spec.builder) :
    NamespacesResolve vm env clause apiBindings localApiBindings h ↔
      (namespaces apiBindings localApiBindings).Pairwise fun earlier later =>
        ¬ later.splitOn '.' <+: earlier.splitOn '.' := by
  have hapiAlong : ∀ entry ∈ apiBindings,
      Along (towards globals (namespaces apiBindings localApiBindings)) globals
        (entry.spec.ns.splitOn '.') := fun entry hentry =>
    along_towards (List.mem_append_left _ (List.mem_map_of_mem hentry))
  have hlocalAlong : ∀ spec ∈ localApiBindings,
      Along (towards globals (namespaces apiBindings localApiBindings)) globals
        (spec.ns.splitOn '.') := fun spec hspec =>
    along_towards (List.mem_append_right _ (List.mem_map_of_mem hspec))
  generalize towards globals (namespaces apiBindings localApiBindings) = R at *
  rw [pairwise_namespaces_iff]
  constructor
  · rintro ⟨h', hinject, happlied, hinstalled⟩
    refine ⟨?_, ?_⟩
    · rintro pre entry post rfl
      obtain ⟨g, g', h'', y, hpre, hentry, -, -, -, hall, hord', hpassed⟩ :=
        injectNamespaces_api vm hapis hapiAlong hlocals hlocalAlong hbuilds hord
      obtain ⟨g₁, g₁', t, hpre', hentry', -, hproxy, hresolves⟩ := happlied pre entry post rfl
      obtain ⟨-, rfl⟩ := Prod.mk.inj (hpre.symm.trans hpre')
      obtain ⟨-, rfl⟩ := Prod.mk.inj (hentry.symm.trans hentry')
      obtain ⟨-, rfl⟩ := Prod.mk.inj (hall.symm.trans hinject)
      rw [resolvesTo_iff hord' (hapiAlong entry (by simp))] at hresolves
      exact (hpassed.back _ (hapiAlong entry (by simp)) t hproxy.lt hresolves).1
    · rintro pre spec post rfl
      obtain ⟨g, g₁, g', h'', t, hpre, hspec, hlt, -, hall, hord', hpassed⟩ :=
        injectNamespaces_local vm hapis hapiAlong hlocals hlocalAlong hbuilds hord
      obtain ⟨g₂, g₃, t', hpre', hspec', hresolves⟩ := hinstalled pre spec post rfl
      obtain ⟨-, rfl⟩ := Prod.mk.inj (hpre.symm.trans hpre')
      obtain ⟨rfl, -⟩ := LuaM.ok_inj (hspec.symm.trans hspec')
      obtain ⟨-, rfl⟩ := Prod.mk.inj (hall.symm.trans hinject)
      rw [resolvesTo_iff hord' (hlocalAlong spec (by simp))] at hresolves
      exact (hpassed.back _ (hlocalAlong spec (by simp)) t hlt hresolves).1
  · rintro ⟨hapiLater, hlocalLater⟩
    obtain ⟨h₁, hinject, hord₁, -⟩ := injectApis_passed vm apiBindings hapis hapiAlong hord
    obtain ⟨h', hinstall, hord', -⟩ :=
      installLocals_passed vm localApiBindings hlocals hlocalAlong hbuilds hord₁
    have hloops : injectNamespaces vm env clause apiBindings localApiBindings h = (.ok (), h') := by
      rw [injectNamespaces, LuaM.bind_of_ok hinject, hinstall]
    refine ⟨h', hloops, ?_, ?_⟩
    · rintro pre entry post rfl
      obtain ⟨g, g', h'', y, hpre, hentry, hy, hproxy, hwalk, hall, -, hpassed⟩ :=
        injectNamespaces_api vm hapis hapiAlong hlocals hlocalAlong hbuilds hord
      obtain ⟨-, rfl⟩ := Prod.mk.inj (hall.symm.trans hloops)
      refine ⟨g, g', y, hpre, hentry, hy, hproxy, ?_⟩
      rw [resolvesTo_iff hord' (hapiAlong entry (by simp))]
      exact hpassed.kept _ (hapiAlong entry (by simp)) (hapiLater pre entry post rfl) y hwalk
    · rintro pre spec post rfl
      obtain ⟨g, g₁, g', h'', t, hpre, hspec, -, hwalk, hall, -, hpassed⟩ :=
        injectNamespaces_local vm hapis hapiAlong hlocals hlocalAlong hbuilds hord
      obtain ⟨-, rfl⟩ := Prod.mk.inj (hall.symm.trans hloops)
      refine ⟨g, g₁, t, hpre, hspec, ?_⟩
      rw [resolvesTo_iff hord' (hlocalAlong spec (by simp))]
      exact hpassed.kept _ (hlocalAlong spec (by simp)) (hlocalLater pre spec post rfl) t hwalk

end

theorem towards_closed (globals : Ref) (names : List Str) :
    ∀ way ∈ towards globals names, Along (towards globals names) way.1 way.2 := by
  rintro ⟨t, p⟩ ⟨ht, ns, hns, part, hp⟩ q part' hq
  exact ⟨ht, ns, hns, part', (hq.trans (List.prefix_append p [part])).trans hp⟩

theorem orderly_of_forest {R : Set (Ref × List Str)} {h : Heap H} (hforest : Forest R h)
    (globals : Ref) : Orderly globals h.length (h.length + 1) R
      (h ++ [.table [] (some (h.length + 1)), .table (forwarding globals) none]) where
  toForest := hforest.extend _
  env_eq := by simp
  mt_eq := by simp
  hidden := by
    rw [hforest.leads_extend, hforest.leads_extend]
    refine ⟨fun hr => (hforest.lt hr).1.false, fun hr => ?_⟩
    exact absurd (hforest.lt hr).1 (Nat.le_succ _).not_gt

theorem forest_of_unused {globals : Ref} {h : Heap H} {entries : List (LuaValue × LuaValue)}
    (hglobals : h[globals]? = some (.table entries none)) {names : List Str}
    (hunused : ∀ ns ∈ names, ∀ part, [part] <+: ns.splitOn '.' → child h globals part = none) :
    Forest (towards globals names) h := by
  have hwalk (way : Ref × List Str) (hway : way ∈ towards globals names) (u : Ref)
      (hu : walk (child h) way.1 way.2 = some u) : way = (globals, []) ∧ u = globals := by
    obtain ⟨t, p⟩ := way
    obtain ⟨rfl : t = globals, ns, hns, part, hp⟩ := hway
    cases p with
    | nil => exact ⟨rfl, (Option.some.inj hu).symm⟩
    | cons name p =>
      have hname : [name] <+: ns.splitOn '.' := List.IsPrefix.trans (by simp) hp
      simp [walk, hunused ns hns name hname] at hu
  have hleads (u : Ref) (hu : Leads (child h) (towards globals names) u) : u = globals := by
    obtain ⟨way, hway, hu⟩ := hu
    exact (hwalk way hway u hu).2
  have hmeta : metatableOf h globals = none := by rw [metatableOf, hglobals]
  refine ⟨towards_closed globals names, ?_, ?_, ?_⟩
  · intro way hway way' hway' u hu hu'
    rw [(hwalk way hway u hu).1, (hwalk way' hway' u hu').1]
  · intro r hr
    rw [hleads r hr]
    exact ⟨entries, none, hglobals, by simp⟩
  · intro r hr m hm
    rw [hleads r hr, hmeta] at hm
    cases hm

theorem createTable_builds {S : Set (List Str)}
    (hclosed : ∀ x : Ref, ∀ s ∈ S, Along (ways x S) x s) : Builds S (createTable : LuaM H Ref) := by
  intro h
  obtain ⟨hforest, hleads⟩ := forest_new_table h (hclosed h.length)
  refine ⟨h.length, _, createTable_eq h, ⟨_, rfl⟩, by simp, hforest, fun s r hr => ?_, ?_⟩
  · exact (walk_of_leaf (child_new_table h) hr).2.ge
  · intro r hr m hm
    rw [hleads r hr, metatableOf_new_table] at hm
    cases hm

def universalApi (id : Nat) (ns : String) : ApiBindingEntry Unit := ⟨id, ⟨ns.toList, [], ()⟩⟩

def printEnvironment : Heap Unit :=
  printHeap ++ [.table [] (some 3), .table (forwarding 0) none]

theorem print_unused (part : Str) : child printHeap 0 part = none := by
  have hself : printHeap[0]? = some (.table [(.string "print".toList, .function 1)] none) := rfl
  rw [child, hself]
  by_cases hpart : "print".toList = part
  · subst hpart
    rfl
  · have hnil : rawGet [(.string "print".toList, .function 1)] (.string part) = .nil := by
      rw [rawGet, Map.get, if_neg fun heq => hpart (LuaValue.string.inj heq)]
      rfl
    simp only [hnil]

theorem tools_resolve :
    NamespacesResolve noCode 2 (surfaceClause "tui")
      [universalApi 0 "tools", universalApi 1 "tools.fs.read"] [emptySpec] printEnvironment := by
  have hbuilds (R : Set (Ref × List Str)) (hclosed : ∀ way ∈ R, Along R way.1 way.2)
      (q : List Str) : Builds (below R 0 q) emptySpec.builder :=
    createTable_builds (below_closed hclosed q)
  have hord (names : List Str) : Orderly 0 2 3 (towards 0 names) printEnvironment :=
    orderly_of_forest (forest_of_unused rfl fun _ _ part _ => print_unused part) 0
  refine (namespacesResolve_iff (hord _) (by decide) (by decide) ?_).mpr (by decide)
  rw [List.forall_mem_singleton]
  exact hbuilds _ (towards_closed 0 _) _

/-- A namespace that comes after one below it takes its place. -/
theorem tools_not_resolve :
    ¬ NamespacesResolve noCode 2 (surfaceClause "tui")
      [universalApi 0 "tools.fs", universalApi 1 "tools"] [] printEnvironment := by
  rintro ⟨h', hinject, happlied, -⟩
  obtain ⟨g, g', t, -, -, -, -, hresolves⟩ := happlied [] _ _ rfl
  have hnone : (resolve noCode ("tools.fs".toList.splitOn '.') 2
      (injectNamespaces noCode 2 (surfaceClause "tui")
        [universalApi 0 "tools.fs", universalApi 1 "tools"] [] printEnvironment).2).1 =
        .ok none := by
    decide +kernel
  rw [hinject] at hnone
  cases hnone.symm.trans hresolves

end Luaml
