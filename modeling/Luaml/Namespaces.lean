import Luaml.Environment
import Luaml.Lib.Walk

namespace Luaml

open Rust Walk

variable {H : Type}

namespace Lua

def child (h : Heap H) (t : Ref) (name : Str) : Option Ref :=
  match h[t]? with
  | some (.table entries _) =>
    match rawGet entries (.string name) with
    | .table r => some r
    | _ => none
  | _ => none

def metatableOf (h : Heap H) (t : Ref) : Option Ref :=
  match h[t]? with
  | some (.table _ metatable) => metatable
  | _ => none

/-- What a metatable may have in it: for `__index` what a proxy has, and no `__newindex`. -/
def Passive (h : Heap H) (m : Ref) : Prop :=
  ∃ entries metatable, h[m]? = some (.table entries metatable) ∧
    rawGet entries (.string "__newindex".toList) = .nil ∧
    (rawGet entries (.string "__index".toList) = .nil ∨ ∃ f ns handler,
      rawGet entries (.string "__index".toList) = .function f ∧
        h[f]? = some (.function (.apiIndex ns handler)))

/-- A table that gets and sets what it has itself. -/
def Plain (h : Heap H) (t : Ref) : Prop :=
  ∃ entries metatable, h[t]? = some (.table entries metatable) ∧
    ∀ m, metatable = some m → Passive h m

/-- The ways lead to plain tables, no two to one, and to no metatable of these. -/
structure Forest (R : Set (Ref × List Str)) (h : Heap H) : Prop where
  closed : ∀ way ∈ R, Along R way.1 way.2
  unshared : Unshared (child h) R
  plain : ∀ r, Leads (child h) R r → Plain h r
  apart : ∀ r, Leads (child h) R r → ∀ m, metatableOf h r = some m → ¬ Leads (child h) R m

section

variable {h h' : Heap H} {R S : Set (Ref × List Str)} {t m r : Ref} {name : Str}

theorem child_of_same (hsame : h'[t]? = h[t]?) : child h' t = child h t := by
  funext name
  rw [child, child, hsame]

theorem metatableOf_of_same (hsame : h'[t]? = h[t]?) : metatableOf h' t = metatableOf h t := by
  rw [metatableOf, metatableOf, hsame]

theorem Plain.lt (hplain : Plain h t) : t < h.length := by
  obtain ⟨entries, metatable, ht, -⟩ := hplain
  exact (List.getElem?_eq_some_iff.mp ht).1

theorem Plain.passive (hplain : Plain h t) (hm : metatableOf h t = some m) : Passive h m := by
  obtain ⟨entries, metatable, ht, hpassive⟩ := hplain
  rw [metatableOf, ht] at hm
  exact hpassive m hm

theorem Passive.lt (hpassive : Passive h m) : m < h.length := by
  obtain ⟨entries, metatable, hm, -⟩ := hpassive
  exact (List.getElem?_eq_some_iff.mp hm).1

theorem Passive.extend (hpassive : Passive h m) (l : Heap H) : Passive (h ++ l) m := by
  obtain ⟨entries, metatable, hm, hnewindex, hindex⟩ := hpassive
  have hold {r : Ref} {o : Object H} (hr : h[r]? = some o) : (h ++ l)[r]? = some o := by
    rw [List.getElem?_append_left (List.getElem?_eq_some_iff.mp hr).1, hr]
  refine ⟨entries, metatable, hold hm, hnewindex, hindex.imp_right ?_⟩
  rintro ⟨f, ns, handler, hindex, hf⟩
  exact ⟨f, ns, handler, hindex, hold hf⟩

theorem Plain.extend (hplain : Plain h t) (l : Heap H) : Plain (h ++ l) t := by
  have hlt := hplain.lt
  obtain ⟨entries, metatable, ht, hpassive⟩ := hplain
  exact ⟨entries, metatable, by rw [List.getElem?_append_left hlt, ht],
    fun m hm => (hpassive m hm).extend l⟩

theorem Forest.walk_extend (hforest : Forest R h) (l : Heap H) {q : List Str}
    (hq : Along R t q) : walk (child (h ++ l)) t q = walk (child h) t q := by
  refine walk_congr fun p k hp u hu => ?_
  have hlt := (hforest.plain u ⟨_, hq p k hp, hu⟩).lt
  rw [child_of_same (List.getElem?_append_left hlt)]

theorem Forest.leads_extend (hforest : Forest R h) (l : Heap H) :
    Leads (child (h ++ l)) R r ↔ Leads (child h) R r := by
  refine exists_congr fun way => and_congr_right fun hway => ?_
  rw [hforest.walk_extend l (hforest.closed way hway)]

theorem Forest.extend (hforest : Forest R h) (l : Heap H) : Forest R (h ++ l) where
  closed := hforest.closed
  unshared way hway way' hway' u hu hu' := by
    rw [hforest.walk_extend l (hforest.closed _ hway)] at hu
    rw [hforest.walk_extend l (hforest.closed _ hway')] at hu'
    exact hforest.unshared way hway way' hway' u hu hu'
  plain r hr := (hforest.plain r ((hforest.leads_extend l).mp hr)).extend l
  apart r hr m hm := by
    rw [hforest.leads_extend l] at hr ⊢
    have hlt := (hforest.plain r hr).lt
    rw [metatableOf_of_same (List.getElem?_append_left hlt)] at hm
    exact hforest.apart r hr m hm

theorem Forest.root_lt (hforest : Forest R h) {q : List Str} (hq : (t, q) ∈ R) :
    t < h.length := by
  have hroot : (t, []) ∈ R := by
    cases q with
    | nil => exact hq
    | cons k q => exact hforest.closed _ hq [] k (by simp)
  exact (hforest.plain t ⟨_, hroot, rfl⟩).lt

theorem Forest.lt (hforest : Forest R h) (hr : Leads (child h) R r) :
    r < h.length ∧ ∀ m, metatableOf h r = some m → m < h.length :=
  ⟨(hforest.plain r hr).lt, fun _ hm => ((hforest.plain r hr).passive hm).lt⟩

theorem Forest.mono (hforest : Forest S h) (hR : R ⊆ S)
    (hclosed : ∀ way ∈ R, Along R way.1 way.2) : Forest R h where
  closed := hclosed
  unshared way hway way' hway' := hforest.unshared way (hR hway) way' (hR hway')
  plain r hr := hforest.plain r (hr.mono hR)
  apart r hr m hm hlead := hforest.apart r (hr.mono hR) m hm (hlead.mono hR)

theorem Forest.union {l : Heap H} (hforest : Forest R h) (hnew : Forest S (h ++ l))
    (hbound : ∀ r, Leads (child (h ++ l)) S r →
      h.length ≤ r ∧ ∀ m, metatableOf (h ++ l) r = some m → h.length ≤ m) :
    Forest (R ∪ S) (h ++ l) := by
  have hold := hforest.extend l
  have hbelow (r : Ref) (hr : Leads (child (h ++ l)) R r) :
      r < h.length ∧ ∀ m, metatableOf (h ++ l) r = some m → m < h.length := by
    rw [hforest.leads_extend l] at hr
    rw [metatableOf_of_same (List.getElem?_append_left (hforest.lt hr).1)]
    exact hforest.lt hr
  have hleads {r : Ref} (hr : Leads (child (h ++ l)) (R ∪ S) r) :
      Leads (child (h ++ l)) R r ∨ Leads (child (h ++ l)) S r := by
    obtain ⟨way, hway | hway, hr⟩ := hr
    · exact .inl ⟨way, hway, hr⟩
    · exact .inr ⟨way, hway, hr⟩
  refine ⟨?_, ?_, ?_, ?_⟩
  · rintro way (hway | hway)
    · exact (hold.closed way hway).mono Set.subset_union_left
    · exact (hnew.closed way hway).mono Set.subset_union_right
  · rintro way (hway | hway) way' (hway' | hway') u hu hu'
    · exact hold.unshared way hway way' hway' u hu hu'
    · exact absurd (hbelow u ⟨_, hway, hu⟩).1 (hbound u ⟨_, hway', hu'⟩).1.not_gt
    · exact absurd (hbelow u ⟨_, hway', hu'⟩).1 (hbound u ⟨_, hway, hu⟩).1.not_gt
    · exact hnew.unshared way hway way' hway' u hu hu'
  · intro r hr
    exact (hleads hr).elim (hold.plain r) (hnew.plain r)
  · intro r hr m hm hlead
    rcases hleads hr with hr | hr <;> rcases hleads hlead with hlead | hlead
    · exact hold.apart r hr m hm hlead
    · exact absurd ((hbelow r hr).2 m hm) (hbound m hlead).1.not_gt
    · exact absurd (hbelow m hlead).1 ((hbound r hr).2 m hm).not_gt
    · exact hnew.apart r hr m hm hlead

theorem walk_of_leaf {x u : Ref} (hleaf : ∀ name, child h x name = none) {s : List Str}
    (hu : walk (child h) x s = some u) : s = [] ∧ u = x := by
  cases s with
  | nil => exact ⟨rfl, (Option.some.inj hu).symm⟩
  | cons name s => simp [walk, hleaf] at hu

theorem forest_of_leaf {x : Ref} {S : Set (List Str)} (hplain : Plain h x)
    (hleaf : ∀ name, child h x name = none) (hmeta : metatableOf h x ≠ some x)
    (hclosed : ∀ s ∈ S, Along (ways x S) x s) :
    Forest (ways x S) h ∧ ∀ r, Leads (child h) (ways x S) r → r = x := by
  have hleads (r : Ref) (hr : Leads (child h) (ways x S) r) : r = x := by
    obtain ⟨⟨t, s⟩, ⟨rfl, -⟩, hr⟩ := hr
    exact (walk_of_leaf hleaf hr).2
  refine ⟨⟨?_, ?_, ?_, ?_⟩, hleads⟩
  · rintro ⟨t, s⟩ ⟨rfl, hs⟩
    exact hclosed s hs
  · rintro ⟨t, s⟩ ⟨ht, -⟩ ⟨t', s'⟩ ⟨ht', -⟩ u hu hu'
    obtain rfl : t = x := ht
    obtain rfl : t' = t := ht'
    have hs : s = [] := (walk_of_leaf hleaf hu).1
    have hs' : s' = [] := (walk_of_leaf hleaf hu').1
    rw [hs, hs']
  · intro r hr
    rwa [hleads r hr]
  · intro r hr m hm hlead
    rw [hleads r hr, hleads m hlead] at hm
    exact hmeta hm

theorem child_set {g x : Ref} {entries : List (LuaValue × LuaValue)} {metatable : Option Ref}
    (hg : h[g]? = some (.table entries metatable)) (name : Str) :
    child (h.set g (.table (rawSet entries (.string name) (.table x)) metatable)) =
      relink (child h) g name x := by
  have hlt := (List.getElem?_eq_some_iff.mp hg).1
  funext u l
  by_cases hu : u = g
  · subst hu
    rw [child, List.getElem?_set_self hlt, relink]
    simp only [rawGet_rawSet, LuaValue.string.injEq, true_and]
    by_cases hl : name = l
    · simp [hl]
    · simp only [hl, if_false, Ne.symm hl, child, hg]
  · rw [child_of_same (List.getElem?_set_ne (Ne.symm hu)), relink, if_neg fun heq => hu heq.1]

theorem metatableOf_set {g : Ref} {entries entries' : List (LuaValue × LuaValue)}
    {metatable : Option Ref} (hg : h[g]? = some (.table entries metatable)) (r : Ref) :
    metatableOf (h.set g (.table entries' metatable)) r = metatableOf h r := by
  have hlt := (List.getElem?_eq_some_iff.mp hg).1
  by_cases hr : g = r
  · subst hr
    rw [metatableOf, List.getElem?_set_self hlt, metatableOf, hg]
  · exact metatableOf_of_same (List.getElem?_set_ne hr)

theorem Plain.set {g : Ref} {entries entries' : List (LuaValue × LuaValue)}
    {metatable : Option Ref} (hg : h[g]? = some (.table entries metatable)) (hplain : Plain h r)
    (hmeta : metatableOf h r ≠ some g) : Plain (h.set g (.table entries' metatable)) r := by
  have hlt := (List.getElem?_eq_some_iff.mp hg).1
  have hpassive (m : Ref) (hm : metatableOf h r = some m) :
      Passive (h.set g (.table entries' metatable)) m := by
    obtain ⟨mentries, mmeta, hm', hnewindex, hindex⟩ := hplain.passive hm
    have hgm : g ≠ m := fun heq => hmeta (heq ▸ hm)
    refine ⟨mentries, mmeta, by rw [List.getElem?_set_ne hgm, hm'], hnewindex, ?_⟩
    refine hindex.imp_right ?_
    rintro ⟨f, ns, handler, hindex, hf⟩
    have hgf : g ≠ f := by
      rintro rfl
      rw [hg] at hf
      cases hf
    exact ⟨f, ns, handler, hindex, by rw [List.getElem?_set_ne hgf, hf]⟩
  obtain ⟨rentries, rmeta, hr, -⟩ := id hplain
  rw [metatableOf, hr] at hpassive
  by_cases hgr : g = r
  · subst hgr
    obtain ⟨-, rfl⟩ := table_unique hg hr
    exact ⟨entries', metatable, List.getElem?_set_self hlt, hpassive⟩
  · exact ⟨rentries, rmeta, by rw [List.getElem?_set_ne hgr, hr], hpassive⟩

theorem Forest.leads_set {p : List Str} {g x : Ref} {entries : List (LuaValue × LuaValue)}
    {metatable : Option Ref} (hforest : Forest (R ∪ ways x (below R t (p ++ [name]))) h)
    (hclosed : ∀ way ∈ R, Along R way.1 way.2) (hx : ∀ q, (x, q) ∉ R) (htp : (t, p) ∈ R)
    (hwalk : walk (child h) t p = some g) (hg : h[g]? = some (.table entries metatable))
    (hr : Leads
      (child (h.set g (.table (rawSet entries (.string name) (.table x)) metatable))) R r) :
    Leads (child h) (R ∪ ways x (below R t (p ++ [name]))) r := by
  rw [child_set hg] at hr
  exact Graft.leads ⟨hforest.unshared, hx⟩ hclosed htp hwalk hr

theorem Forest.set {p : List Str} {g x : Ref} {entries : List (LuaValue × LuaValue)}
    {metatable : Option Ref} (hforest : Forest (R ∪ ways x (below R t (p ++ [name]))) h)
    (hclosed : ∀ way ∈ R, Along R way.1 way.2) (hx : ∀ q, (x, q) ∉ R) (htp : (t, p) ∈ R)
    (hwalk : walk (child h) t p = some g) (hg : h[g]? = some (.table entries metatable)) :
    Forest R (h.set g (.table (rawSet entries (.string name) (.table x)) metatable)) where
  closed := hclosed
  unshared := by
    rw [child_set hg]
    exact Graft.unshared ⟨hforest.unshared, hx⟩ hclosed htp hwalk
  plain r hr := by
    have hlead := hforest.leads_set hclosed hx htp hwalk hg hr
    refine (hforest.plain r hlead).set hg fun hm => ?_
    exact hforest.apart r hlead g hm ⟨_, .inl htp, hwalk⟩
  apart r hr m hm hlead := by
    rw [metatableOf_set hg] at hm
    exact hforest.apart r (hforest.leads_set hclosed hx htp hwalk hg hr) m hm
      (hforest.leads_set hclosed hx htp hwalk hg hlead)

end

end Lua

end Luaml
