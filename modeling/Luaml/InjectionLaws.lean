import Luaml.Injection

namespace Luaml

open Rust Walk Lua

variable {H : Type} {vm : Vm H} {globals env mt x : Ref} {R : Set (Ref × List Str)}
  {T : Set (List Str)} {lo : Nat}

/-- The injection is at the table that the names `p` lead to, with a table that it has yet to put
where the whole name leads. -/
structure Reached (globals env mt : Ref) (R : Set (Ref × List Str)) (x : Ref) (T : Set (List Str))
    (lo : Nat) (p : List Str) (c : Ref) (h : Heap H) : Prop where
  orderly : Orderly globals env mt (R ∪ ways x T) h
  le_length : lo ≤ h.length
  stands : ∃ g, walk (child h) globals p = some g ∧ Stands globals env c g
  new : ∀ s, Along (ways x T) x s → ∀ r, walk (child h) x s = some r → lo ≤ r

theorem Reached.step (vm : Vm H) {p : List Str} {c : Ref} {h : Heap H}
    (hat : Reached globals env mt R x T lo p c h) (hx : x ≠ globals) {name : Str}
    (hp : (globals, p) ∈ R) (hname : (globals, p ++ [name]) ∈ R) :
    ∃ h' t, (∀ install part parts, installAt vm install (name :: part :: parts) c h =
        installAt vm install (part :: parts) t h') ∧
      Reached globals env mt R x T lo (p ++ [name]) t h' ∧ Grows R globals lo h h' := by
  obtain ⟨hord, hlo, ⟨g, hg, hc⟩, hnew⟩ := hat
  have hR : R ⊆ R ∪ ways x T := Set.subset_union_left
  obtain ⟨v, l, hget, hv⟩ := hord.get vm ⟨_, hR hp, hg⟩ hc name
  have halong : Along (R ∪ ways x T) globals (p ++ [name]) := hord.closed _ (hR hname)
  have hextend (s : List Str) (hs : Along (ways x T) x s) :
      walk (child (h ++ l)) x s = walk (child h) x s :=
    hord.walk_extend l (hs.mono Set.subset_union_right)
  cases hchild : child h g name with
  | some t =>
    obtain rfl := (hv t).mpr hchild
    have hto : walk (child (h ++ l)) globals (p ++ [name]) = some t := by
      rw [hord.walk_extend l halong, walk_concat, hg, Option.bind_some, hchild]
    refine ⟨h ++ l, t, fun install part parts => ?_, ⟨hord.extend l, ?_, ⟨t, hto, .inl rfl⟩, ?_⟩,
      (hord.grows lo l).mono hR⟩
    · simp only [installAt]
      rw [LuaM.bind_of_ok hget]
    · exact hlo.trans (by simp)
    · intro s hs r hr
      exact hnew s hs r (hextend s hs ▸ hr)
  | none =>
    have hord' := hord.extend l
    have hlt : lo ≤ (h ++ l).length := hlo.trans (by simp)
    have hmake := hord'.new_table (p ++ [name])
    have hg' : walk (child (h ++ l ++ [.table [] none])) globals p = some g := by
      have hfirst := hord.closed _ (hR hp)
      rw [hord'.walk_extend _ hfirst, hord.walk_extend l hfirst, hg]
    have hnone : walk (child (h ++ l ++ [.table [] none])) globals (p ++ [name]) = none := by
      rw [hord'.walk_extend _ halong, hord.walk_extend l halong, walk_concat, hg, Option.bind_some,
        hchild]
    have hroot (q : List Str) : ((h ++ l).length, q) ∉ R ∪ ways x T :=
      fun hq => (hord'.root_lt hq).false
    have hempty (s : List Str) (r : Ref)
        (hr : walk (child (h ++ l ++ [.table [] none])) (h ++ l).length s = some r) : lo ≤ r := by
      rw [(walk_of_leaf (child_new_table _) hr).2]
      exact hlt
    obtain ⟨h', hset, hlen, -, hrelink, hafter⟩ :=
      hmake.put vm hord.closed hroot (hR hp) hg' hc
    have hplaced := hmake.placed lo hord.closed hroot (hR hp) hg' (fun s _ => hempty s) hlen hrelink
    have hgrows := ((hord.grows lo l).trans (hord'.grows lo _)).trans (hplaced.grows hnone)
    refine ⟨h', _, fun install part parts => ?_, ⟨hafter, ?_, ⟨_, hplaced.own, .inl rfl⟩, ?_⟩,
      hgrows.mono hR⟩
    · simp only [installAt]
      rw [LuaM.bind_of_ok hget]
      split
      · rename_i t
        have hsome := (hv t).mp rfl
        rw [hchild] at hsome
        cases hsome
      · rw [LuaM.bind_of_ok (createTable_eq _), LuaM.bind_of_ok hset]
    · rw [hlen]
      exact hlt.trans (by simp)
    · intro s hs r hr
      have hs' : Along (R ∪ ways x T) x s := hs.mono Set.subset_union_right
      rw [hrelink, walk_relink_of_not hmake.unshared (.inl (hR hp)) hg'
        (hs'.mono Set.subset_union_left) fun heq => absurd heq hx, hord'.walk_extend _ hs',
        hextend s hs] at hr
      exact hnew s hs r hr

theorem installAt_placed (vm : Vm H) {install : Ref → Str → LuaM H Unit} {full : List Str}
    {made : Ref → Heap H → Prop} (hx : x ≠ globals) (hfull : Along R globals full)
    (hinstall : ∀ p name c h, p ++ [name] = full → (globals, p) ∈ R →
      Reached globals env mt R x T lo p c h → ∃ y h', install c name h = (.ok (), h') ∧
        Orderly globals env mt R h' ∧ Placed R globals lo full y h h' ∧ made y h')
    (part : Str) (parts p : List Str) (heq : p ++ part :: parts = full) (c : Ref) (h : Heap H)
    (hat : Reached globals env mt R x T lo p c h) :
    ∃ y h', installAt vm install (part :: parts) c h = (.ok (), h') ∧
      Orderly globals env mt R h' ∧ Placed R globals lo full y h h' ∧ made y h' := by
  have hp : (globals, p) ∈ R := hfull p part ⟨parts, by simp [← heq]⟩
  induction parts generalizing part p c h with
  | nil => exact hinstall p part c h heq hp hat
  | cons part' parts ih =>
    rw [List.append_cons] at heq
    have hname : (globals, p ++ [part]) ∈ R := hfull _ part' ⟨parts, by simp [← heq]⟩
    obtain ⟨h', t, hstep, hat', hgrows⟩ := hat.step vm hx hp hname
    obtain ⟨y, h'', hrest, hord, hplaced, hmade⟩ := ih part' (p ++ [part]) heq t h' hat' hname
    exact ⟨y, h'', by rw [hstep, hrest], hord, hgrows.placed hplaced, hmade⟩

def IsProxy (h : Heap H) (t : Ref) (ns : Str) (handler : H) : Prop :=
  ∃ entries m mentries mmeta f, h[t]? = some (.table entries (some m)) ∧
    h[m]? = some (.table mentries mmeta) ∧
    rawGet mentries (.string "__index".toList) = .function f ∧
    h[f]? = some (.function (.apiIndex ns handler))

def proxyObjects (n : Ref) (ns : Str) (handler : H) : Heap H :=
  [.table [] (some (n + 1)), .table [(.string "__index".toList, .function (n + 2))] none,
    .function (.apiIndex ns handler)]

theorem createApiProxy_eq (ns : Str) (handler : H) (h : Heap H) :
    createApiProxy vm ns handler h = (.ok h.length, h ++ proxyObjects h.length ns handler) := by
  have hthree : h ++ [.table [] none] ++ [.table [] none] ++ [.function (.apiIndex ns handler)] =
      h ++ [Object.table [] none, .table [] none, .function (.apiIndex ns handler)] := by simp
  have hone (o : Object H) : (h ++ [o]).length = h.length + 1 := by simp
  have htwo (o o' : Object H) : (h ++ [o] ++ [o']).length = h.length + 2 := by simp
  have hmt (o o' : Object H) :
      (h ++ [o, .table [] none, o'])[h.length + 1]? = some (.table [] none) := by simp
  have htable (o o' : Object H) :
      (h ++ [.table [] none, o, o'])[h.length]? = some (.table [] none) := by simp
  have hset (o o' o'' o₁ : Object H) :
      (h ++ [o, o', o'']).set (h.length + 1) o₁ = h ++ [o, o₁, o''] := by simp
  have hset' (o o' o'' o₁ : Object H) :
      (h ++ [o, o', o'']).set h.length o₁ = h ++ [o₁, o', o''] := by simp
  rw [createApiProxy, LuaM.bind_of_ok (createTable_eq h), LuaM.bind_of_ok (createTable_eq _),
    LuaM.bind_of_ok (createFunction_eq _ _), hthree, htwo, hone,
    LuaM.bind_of_ok (set_eq (hmt _ _) (fun _ => rfl) _), hset,
    LuaM.bind_of_ok (setMetatable_eq (htable _ _) _), hset']
  rfl

theorem isProxy_of_same {h h' : Heap H} {ns : Str} {handler : H}
    (hsame : ∀ r, h.length ≤ r → h'[r]? = (h ++ proxyObjects h.length ns handler)[r]?) :
    IsProxy h' h.length ns handler := by
  refine ⟨[], h.length + 1, [(.string "__index".toList, .function (h.length + 2))], none,
    h.length + 2, ?_, ?_, rfl, ?_⟩
  · rw [hsame _ (Nat.le_refl _)]
    simp [proxyObjects]
  · rw [hsame _ (Nat.le_add_right _ 1)]
    simp [proxyObjects]
  · rw [hsame _ (Nat.le_add_right _ 2)]
    simp [proxyObjects]

theorem child_new_proxy (h : Heap H) (ns : Str) (handler : H) (name : Str) :
    child (h ++ proxyObjects h.length ns handler) h.length name = none := by
  have hself : (h ++ proxyObjects h.length ns handler)[h.length]? =
      some (.table [] (some (h.length + 1))) := by simp [proxyObjects]
  rw [child, hself]
  rfl

theorem Orderly.new_proxy {h : Heap H} (hord : Orderly globals env mt R h) (q : List Str) (ns : Str)
    (handler : H) : Orderly globals env mt (R ∪ ways h.length (below R globals q))
      (h ++ proxyObjects h.length ns handler) := by
  have hself : (h ++ proxyObjects h.length ns handler)[h.length]? =
      some (.table [] (some (h.length + 1))) := by simp [proxyObjects]
  have hmt : (h ++ proxyObjects h.length ns handler)[h.length + 1]? =
      some (.table [(.string "__index".toList, .function (h.length + 2))] none) := by
    simp [proxyObjects]
  have hf : (h ++ proxyObjects h.length ns handler)[h.length + 2]? =
      some (.function (.apiIndex ns handler)) := by simp [proxyObjects]
  have hplain : Plain (h ++ proxyObjects h.length ns handler) h.length := by
    refine ⟨[], _, hself, fun m hm => ?_⟩
    obtain rfl := Option.some.inj hm
    exact ⟨_, none, hmt, rfl, .inr ⟨_, ns, handler, rfl, hf⟩⟩
  have hmeta : metatableOf (h ++ proxyObjects h.length ns handler) h.length =
      some (h.length + 1) := by rw [metatableOf, hself]
  obtain ⟨hforest, hleads⟩ := forest_of_leaf hplain (child_new_proxy h ns handler) (by simp [hmeta])
    (below_closed hord.closed q h.length)
  refine hord.union hforest fun r hr => ?_
  rw [hleads r hr, hmeta]
  exact ⟨Nat.le_refl _, fun m hm => by obtain rfl := Option.some.inj hm; exact Nat.le_succ _⟩

theorem along_empty {c : Ref} {s : List Str} (hs : Along (ways c ∅) c s) : s = [] := by
  cases s with
  | nil => rfl
  | cons part s => exact absurd (hs [] part (by simp)).2 (Set.notMem_empty _)

theorem injectApiNamespace_placed (vm : Vm H) {h : Heap H} (hord : Orderly globals env mt R h)
    {ns : Str} (hns : Along R globals (ns.splitOn '.')) (handler : H) :
    ∃ y h', injectApiNamespace vm env ns handler h = (.ok (), h') ∧
      Orderly globals env mt R h' ∧ Placed R globals h.length (ns.splitOn '.') y h h' ∧
      h.length ≤ y ∧ IsProxy h' y ns handler := by
  obtain ⟨part, parts, hparts⟩ := List.exists_cons_of_ne_nil (List.splitOn_ne_nil '.' ns)
  rw [injectApiNamespace, hparts]
  rw [hparts] at hns
  have hnone : ways h.length (∅ : Set (List Str)) = ∅ := by simp [ways]
  have hroot : (globals, []) ∈ R := hns [] part (by simp)
  have hx : h.length ≠ globals := (hord.root_lt hroot).ne'
  have hat : Reached globals env mt R h.length ∅ h.length [] env h := by
    refine ⟨by rwa [hnone, Set.union_empty], Nat.le_refl _, ⟨globals, rfl, .inr ⟨rfl, rfl⟩⟩, ?_⟩
    intro s hs r hr
    rw [along_empty hs] at hr
    exact (Option.some.inj hr).le
  refine installAt_placed vm hx hns (fun p name c h₀ heq hp hat => ?_) part parts [] rfl env h hat
  obtain ⟨hord₀, hlo, ⟨g, hg, hc⟩, -⟩ := hat
  rw [hnone, Set.union_empty] at hord₀
  have hord₁ := hord₀.new_proxy (p ++ [name]) ns handler
  have hg₁ : walk (child (h₀ ++ proxyObjects h₀.length ns handler)) globals p = some g := by
    rw [hord₀.walk_extend _ (hord₀.closed _ hp), hg]
  have hroot₀ (q : List Str) : (h₀.length, q) ∉ R := fun hq => (hord₀.root_lt hq).false
  have hnew (s : List Str) (r : Ref)
      (hr : walk (child (h₀ ++ proxyObjects h₀.length ns handler)) h₀.length s = some r) :
      h.length ≤ r := by
    rw [(walk_of_leaf (child_new_proxy h₀ ns handler) hr).2]
    exact hlo
  obtain ⟨h', hset, hlen, hsame, hrelink, hord'⟩ := hord₁.put vm hord₀.closed hroot₀ hp hg₁ hc
  have hplaced := hord₁.placed h.length hord₀.closed hroot₀ hp hg₁ (fun s _ => hnew s) hlen hrelink
  refine ⟨h₀.length, h', ?_, hord', ?_, hlo, isProxy_of_same fun r hr => hsame r ?_⟩
  · rw [LuaM.bind_of_ok (createApiProxy_eq ns handler h₀), hset]
  · rw [← heq]
    exact (hord₀.grows _ _).placed hplaced
  · exact ((hord₀.plain g ⟨_, hp, hg⟩).lt.trans_le hr).ne'

/-- A builder has left what there was as it was, and made a table that leads to new tables only.
Along the ways that namespaces will take from it these are plain and not shared. -/
structure Built (S : Set (List Str)) (h : Heap H) (t : Ref) (h' : Heap H) : Prop where
  old : ∃ l, h' = h ++ l
  lt : t < h'.length
  forest : Forest (ways t S) h'
  new : ∀ s r, walk (child h') t s = some r → h.length ≤ r
  metatables : ∀ r, Leads (child h') (ways t S) r → ∀ m, metatableOf h' r = some m → h.length ≤ m

def Builds (S : Set (List Str)) (builder : LuaM H Ref) : Prop :=
  ∀ h, ∃ t h', builder h = (.ok t, h') ∧ Built S h t h'

theorem installNamespaceTable_placed (vm : Vm H) {h h' : Heap H}
    (hord : Orderly globals env mt R h) {ns : Str} (hns : Along R globals (ns.splitOn '.'))
    {t : Ref} (hbuilt : Built (below R globals (ns.splitOn '.')) h t h') :
    ∃ h'', installNamespaceTable vm env ns t h' = (.ok (), h'') ∧ t < h''.length ∧
      Orderly globals env mt R h'' ∧ Placed R globals h.length (ns.splitOn '.') t h h'' := by
  obtain ⟨⟨l, rfl⟩, hlt, hforest, hnew, hmetatables⟩ := hbuilt
  have hbound (r : Ref)
      (hr : Leads (child (h ++ l)) (ways t (below R globals (ns.splitOn '.'))) r) :
      h.length ≤ r ∧ ∀ m, metatableOf (h ++ l) r = some m → h.length ≤ m := by
    refine ⟨?_, hmetatables r hr⟩
    obtain ⟨way, ⟨hway, -⟩, hr⟩ := hr
    exact hnew way.2 r (hway ▸ hr)
  have hord₁ := hord.union hforest hbound
  have hroot (q : List Str) : (t, q) ∉ R := fun hq =>
    absurd (hord.root_lt hq) (hnew [] t rfl).not_gt
  obtain ⟨part, parts, hparts⟩ := List.exists_cons_of_ne_nil (List.splitOn_ne_nil '.' ns)
  have hglobals : (globals, []) ∈ R := hns [] part (by simp [hparts])
  have hx : t ≠ globals := fun heq => hroot [] (heq ▸ hglobals)
  have hat : Reached globals env mt R t (below R globals (ns.splitOn '.')) h.length [] env
      (h ++ l) :=
    ⟨hord₁, by simp, ⟨globals, rfl, .inr ⟨rfl, rfl⟩⟩, fun s _ => hnew s⟩
  have hinstall : ∀ p name c h₀, p ++ [name] = ns.splitOn '.' → (globals, p) ∈ R →
      Reached globals env mt R t (below R globals (ns.splitOn '.')) h.length p c h₀ →
      ∃ y h', Lua.set vm c (.string name) (.table t) h₀ = (.ok (), h') ∧
        Orderly globals env mt R h' ∧ Placed R globals h.length (ns.splitOn '.') y h₀ h' ∧
        y = t := by
    intro p name c h₀ heq hp ⟨hord₀, hlo, ⟨g, hg, hc⟩, hnew₀⟩
    rw [← heq] at hord₀ hnew₀ ⊢
    obtain ⟨h', hset, hlen, -, hrelink, hord'⟩ := hord₀.put vm hord.closed hroot hp hg hc
    have hplaced := hord₀.placed h.length hord.closed hroot hp hg hnew₀ hlen hrelink
    exact ⟨t, h', hset, hord', hplaced, rfl⟩
  obtain ⟨y, h'', heq, hord', hplaced, rfl⟩ :=
    installAt_placed vm hx hns hinstall part parts [] hparts.symm env (h ++ l) hat
  refine ⟨h'', ?_, hlt.trans_le hplaced.length_le, hord', (hord.grows _ l).placed hplaced⟩
  rw [installNamespaceTable, hparts, heq]

end Luaml
