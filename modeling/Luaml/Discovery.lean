import Luaml.PatternMatchLaws
import Luaml.Registry

namespace Luaml

open Rust Str

mutual
def FieldValue.Keyed : FieldValue → Prop
  | .list vs => FieldValue.KeyedList vs
  | .map m => (m.map Prod.fst).Nodup ∧ FieldValue.KeyedEntries m
  | _ => True

def FieldValue.KeyedList : List FieldValue → Prop
  | [] => True
  | v :: vs => FieldValue.Keyed v ∧ FieldValue.KeyedList vs

def FieldValue.KeyedEntries : FieldMap → Prop
  | [] => True
  | (_, v) :: m => FieldValue.Keyed v ∧ FieldValue.KeyedEntries m
end

def FieldMap.Keyed (m : FieldMap) : Prop := FieldValue.Keyed (.map m)

theorem FieldMap.keyed_iff (m : FieldMap) :
    FieldMap.Keyed m ↔ (m.map Prod.fst).Nodup ∧ ∀ e ∈ m, FieldValue.Keyed e.2 := by
  have hentries : FieldValue.KeyedEntries m ↔ ∀ e ∈ m, FieldValue.Keyed e.2 := by
    induction m with
    | nil => simp [FieldValue.KeyedEntries]
    | cons e m ih => rw [FieldValue.KeyedEntries, ih, List.forall_mem_cons]
  rw [Keyed, FieldValue.Keyed, hentries]

namespace Pattern

def IsTail : Pattern → Prop
  | .variable _ | .wildcard | .list _ => True
  | _ => False

mutual
/-- No pin, no key twice in a map, and a variable, a wildcard or a list for every tail. -/
def Regular : Pattern → Prop
  | .pin _ => False
  | .list p => RegularList p
  | .map fields => (fields.map Prod.fst).Nodup ∧ RegularFields fields
  | .wildcard | .enum _ | .stringLiteral _ | .numberLiteral _ | .boolLiteral _ | .variable _ =>
    True

def RegularList : ListPattern → Prop
  | .empty => True
  | .headTail head tail => Regular head ∧ IsTail tail ∧ Regular tail
  | .elements ps => RegularElements ps

def RegularElements : List Pattern → Prop
  | [] => True
  | p :: ps => Regular p ∧ RegularElements ps

def RegularFields : List (Str × Pattern) → Prop
  | [] => True
  | (_, p) :: fields => Regular p ∧ RegularFields fields
end

mutual
def exemplar : Pattern → FieldValue
  | .wildcard | .variable _ | .pin _ => .null
  | .enum name => .enum name
  | .stringLiteral text => .string text
  | .numberLiteral n => .number n
  | .boolLiteral b => .bool b
  | .list p => .list (exemplarItems p)
  | .map fields => .map (exemplarEntries fields)

def exemplarItems : ListPattern → List FieldValue
  | .empty => []
  | .headTail head tail => exemplar head :: exemplarTail tail
  | .elements ps => exemplarElements ps

def exemplarTail : Pattern → List FieldValue
  | .list p => exemplarItems p
  | _ => []

def exemplarElements : List Pattern → List FieldValue
  | [] => []
  | p :: ps => exemplar p :: exemplarElements ps

def exemplarEntries : List (Str × Pattern) → FieldMap
  | [] => []
  | (key, p) :: fields => (key, exemplar p) :: exemplarEntries fields
end

theorem exemplarEntries_eq (fields : List (Str × Pattern)) :
    exemplarEntries fields = fields.map fun f => (f.1, exemplar f.2) := by
  induction fields with
  | nil => rfl
  | cons f fields ih => rw [exemplarEntries, ih, List.map_cons]

theorem exemplarEntries_keys (fields : List (Str × Pattern)) :
    (exemplarEntries fields).map Prod.fst = fields.map Prod.fst := by
  rw [exemplarEntries_eq, List.map_map]
  rfl

theorem regularFields_iff (fields : List (Str × Pattern)) :
    RegularFields fields ↔ ∀ f ∈ fields, Regular f.2 := by
  induction fields with
  | nil => simp [RegularFields]
  | cons f fields ih => rw [RegularFields, ih, List.forall_mem_cons]

mutual
theorem exemplar_matches (p : Pattern) (h : Regular p) :
    (matchFieldValue p (exemplar p)).isSome := by
  cases p with
  | pin name => simp [Regular] at h
  | list p =>
    rw [exemplar, matchFieldValue]
    exact exemplarItems_matches p (by simpa [Regular] using h)
  | map fields =>
    obtain ⟨hkeys, hfields⟩ : (fields.map Prod.fst).Nodup ∧ RegularFields fields := by
      simpa [Regular] using h
    rw [exemplar, matchFieldValue, matchMap_isSome]
    intro f hf
    refine ⟨exemplar f.2, ?_, exemplarFields_match fields hfields f hf⟩
    apply Map.get_of_mem
    · rwa [exemplarEntries_keys]
    · rw [exemplarEntries_eq]
      exact List.mem_map.mpr ⟨f, hf, rfl⟩
  | _ => simp [exemplar, matchFieldValue]

theorem exemplarItems_matches (p : ListPattern) (h : RegularList p) :
    (matchList p (exemplarItems p)).isSome := by
  cases p with
  | empty => simp [exemplarItems, matchList]
  | headTail head tail =>
    obtain ⟨hhead, htail, hregular⟩ : Regular head ∧ IsTail tail ∧ Regular tail := by
      simpa [RegularList] using h
    rw [exemplarItems, matchList_headTail_isSome]
    refine ⟨exemplar_matches head hhead, ?_⟩
    cases tail with
    | list p =>
      have hp := exemplarItems_matches p (by simpa [Regular] using hregular)
      simpa [exemplarTail, matchFieldValue] using hp
    | wildcard => simp [matchFieldValue]
    | «variable» name => simp [matchFieldValue]
    | _ => simp [IsTail] at htail
  | elements ps =>
    have hps := exemplarElements_match ps (by simpa [RegularList] using h)
    rw [exemplarItems, matchList, if_neg (by simpa using hps.length_eq.symm)]
    exact matchElements_isSome _ _ _ hps

theorem exemplarElements_match (ps : List Pattern) (h : RegularElements ps) :
    List.Forall₂ (fun p v => (matchFieldValue p v).isSome) ps (exemplarElements ps) := by
  cases ps with
  | nil => exact .nil
  | cons p ps =>
    obtain ⟨hp, hps⟩ : Regular p ∧ RegularElements ps := by simpa [RegularElements] using h
    exact .cons (exemplar_matches p hp) (exemplarElements_match ps hps)

theorem exemplarFields_match (fields : List (Str × Pattern)) (h : RegularFields fields) :
    ∀ f ∈ fields, (matchFieldValue f.2 (exemplar f.2)).isSome := by
  cases fields with
  | nil => simp
  | cons f fields =>
    obtain ⟨key, p⟩ := f
    obtain ⟨hp, hfields⟩ : Regular p ∧ RegularFields fields := by simpa [RegularFields] using h
    exact List.forall_mem_cons.mpr
      ⟨exemplar_matches p hp, exemplarFields_match fields hfields⟩
end

mutual
theorem exemplar_keyed (p : Pattern) (h : Regular p) : (exemplar p).Keyed := by
  cases p with
  | list p => exact exemplarItems_keyed p (by simpa [Regular] using h)
  | map fields =>
    obtain ⟨hkeys, hfields⟩ : (fields.map Prod.fst).Nodup ∧ RegularFields fields := by
      simpa [Regular] using h
    rw [exemplar, FieldValue.Keyed, exemplarEntries_keys]
    exact ⟨hkeys, exemplarEntries_keyed fields hfields⟩
  | _ => simp [exemplar, FieldValue.Keyed]

theorem exemplarItems_keyed (p : ListPattern) (h : RegularList p) :
    FieldValue.KeyedList (exemplarItems p) := by
  cases p with
  | empty => trivial
  | headTail head tail =>
    obtain ⟨hhead, -, htail⟩ : Regular head ∧ IsTail tail ∧ Regular tail := by
      simpa [RegularList] using h
    refine ⟨exemplar_keyed head hhead, ?_⟩
    cases tail with
    | list p => exact exemplarItems_keyed p (by simpa [Regular] using htail)
    | _ => trivial
  | elements ps => exact exemplarElements_keyed ps (by simpa [RegularList] using h)

theorem exemplarElements_keyed (ps : List Pattern) (h : RegularElements ps) :
    FieldValue.KeyedList (exemplarElements ps) := by
  cases ps with
  | nil => trivial
  | cons p ps =>
    obtain ⟨hp, hps⟩ : Regular p ∧ RegularElements ps := by simpa [RegularElements] using h
    exact ⟨exemplar_keyed p hp, exemplarElements_keyed ps hps⟩

theorem exemplarEntries_keyed (fields : List (Str × Pattern)) (h : RegularFields fields) :
    FieldValue.KeyedEntries (exemplarEntries fields) := by
  cases fields with
  | nil => trivial
  | cons f fields =>
    obtain ⟨key, p⟩ := f
    obtain ⟨hp, hfields⟩ : Regular p ∧ RegularFields fields := by simpa [RegularFields] using h
    exact ⟨exemplar_keyed p hp, exemplarEntries_keyed fields hfields⟩
end

def completed (query : FieldMap) (fields : List (Str × Pattern)) : FieldMap :=
  query ++ exemplarEntries (Map.without (query.map Prod.fst) fields)

theorem completed_keyed {query : FieldMap} {fields : List (Str × Pattern)}
    (hquery : FieldMap.Keyed query) (h : Regular (.map fields)) :
    FieldMap.Keyed (completed query fields) := by
  obtain ⟨hkeys, hfields⟩ : (fields.map Prod.fst).Nodup ∧ RegularFields fields := by
    simpa [Regular] using h
  rw [FieldMap.keyed_iff] at hquery ⊢
  obtain ⟨hquery, hvalues⟩ := hquery
  have hsub : (Map.without (query.map Prod.fst) fields).Sublist fields := List.filter_sublist
  rw [completed]
  constructor
  · rw [List.map_append, exemplarEntries_keys, List.nodup_append]
    refine ⟨hquery, (hsub.map Prod.fst).nodup hkeys, ?_⟩
    rintro k hk _ hk' rfl
    obtain ⟨f, hf, rfl⟩ := List.mem_map.mp hk'
    exact absurd hk (by simpa using (List.mem_filter.mp hf).2)
  · rw [List.forall_mem_append]
    refine ⟨hvalues, ?_⟩
    rw [exemplarEntries_eq, List.forall_mem_map]
    exact fun f hf => exemplar_keyed f.2 ((regularFields_iff fields).mp hfields f (hsub.mem hf))

theorem get_completed_of_query {query : FieldMap} {k : Str} {v : FieldValue}
    (h : Map.get query k = some v) (fields : List (Str × Pattern)) :
    Map.get (completed query fields) k = some v := by
  rw [completed, Map.get_append, h, Option.some_or]

theorem get_completed_of_field {query : FieldMap} {fields : List (Str × Pattern)}
    (h : Regular (.map fields)) {f : Str × Pattern} (hf : f ∈ fields)
    (hquery : Map.get query f.1 = none) :
    Map.get (completed query fields) f.1 = some (exemplar f.2) := by
  obtain ⟨hkeys, -⟩ : (fields.map Prod.fst).Nodup ∧ RegularFields fields := by
    simpa [Regular] using h
  have hsub : (Map.without (query.map Prod.fst) fields).Sublist fields := List.filter_sublist
  rw [completed, Map.get_append, hquery, Option.none_or]
  apply Map.get_of_mem
  · rw [exemplarEntries_keys]
    exact (hsub.map Prod.fst).nodup hkeys
  · rw [exemplarEntries_eq]
    refine List.mem_map.mpr ⟨f, List.mem_filter.mpr ⟨hf, ?_⟩, rfl⟩
    simpa using Map.get_eq_none.mp hquery

end Pattern

open Pattern ScriptRegistry

theorem mem_querySubset {reg : ScriptRegistry} {query : FieldMap} {script : Script} {i : Nat}
    {clause : Clause} (hscript : script ∈ reg.scripts)
    (hclause : script.clauses[i]? = some clause) :
    ⟨script, i, clause⟩ ∈ reg.querySubset query ↔ subsetMatches query clause.policy.fields := by
  rw [querySubset, List.mem_flatMap]
  constructor
  · rintro ⟨script', -, hmem⟩
    obtain ⟨⟨clause', i'⟩, -, hsome⟩ := List.mem_filterMap.mp hmem
    dsimp only at hsome
    split_ifs at hsome with hmatches
    obtain ⟨-, -, rfl⟩ := QueryResult.mk.inj (Option.some.inj hsome)
    exact hmatches
  · intro hmatches
    refine ⟨script, hscript, List.mem_filterMap.mpr ⟨(clause, i), ?_, if_pos hmatches⟩⟩
    exact List.mem_zipIdx_iff_getElem?.mpr hclause

theorem subsetMatches_iff {query : FieldMap} {fields : List (Str × Pattern)}
    (hkeys : (fields.map Prod.fst).Nodup) :
    subsetMatches query fields ↔
      ∀ e ∈ query, ∃ p, (e.1, p) ∈ fields ∧ (matchFieldValue p e.2).isSome := by
  rw [subsetMatches, List.all_eq_true]
  apply forall₂_congr
  rintro ⟨k, v⟩ -
  dsimp only
  generalize hfind : List.find? _ fields = found
  cases found with
  | none =>
    have hnone := List.find?_eq_none.mp hfind
    simp only [Bool.false_eq_true, false_iff]
    rintro ⟨p, hp, -⟩
    exact hnone _ hp (by simp)
  | some f =>
    obtain ⟨l, p⟩ := f
    obtain rfl : l = k := by simpa using List.find?_some hfind
    have hp := List.mem_of_find?_eq_some hfind
    dsimp only
    constructor
    · exact fun hvalue => ⟨p, hp, hvalue⟩
    · rintro ⟨p', hp', hvalue⟩
      have hsame := (Map.get_of_mem hkeys hp).symm.trans (Map.get_of_mem hkeys hp')
      rwa [Option.some.inj hsame]

/-- A clause is found exactly when it has the queried fields and some event with them matches. -/
theorem querySubset_iff {reg : ScriptRegistry} {query : FieldMap} {script : Script} {i : Nat}
    {clause : Clause} (hquery : FieldMap.Keyed query) (hscript : script ∈ reg.scripts)
    (hclause : script.clauses[i]? = some clause) (hpolicy : Regular (.map clause.policy.fields)) :
    ⟨script, i, clause⟩ ∈ reg.querySubset query ↔
      (∀ k ∈ query.map Prod.fst, k ∈ clause.policy.fields.map Prod.fst) ∧
        ∃ event, FieldMap.Keyed event ∧
          (∀ k v, Map.get query k = some v → Map.get event k = some v) ∧
            (matchFields clause.policy.fields event).isSome := by
  obtain ⟨hkeys, hfields⟩ : (clause.policy.fields.map Prod.fst).Nodup ∧
      RegularFields clause.policy.fields := by simpa [Regular] using hpolicy
  have hunique := ((FieldMap.keyed_iff query).mp hquery).1
  rw [mem_querySubset hscript hclause, subsetMatches_iff hkeys]
  constructor
  · intro hfound
    constructor
    · intro k hk
      obtain ⟨e, he, rfl⟩ := List.mem_map.mp hk
      obtain ⟨p, hp, -⟩ := hfound e he
      exact List.mem_map.mpr ⟨_, hp, rfl⟩
    · refine ⟨completed query clause.policy.fields, completed_keyed hquery hpolicy,
        fun k v hget => get_completed_of_query hget _, ?_⟩
      rw [matchFields_isSome]
      intro f hf
      rw [FieldMatches]
      cases hget : Map.get query f.1 with
      | none =>
        rw [get_completed_of_field hpolicy hf hget]
        exact exemplarFields_match _ hfields f hf
      | some v =>
        obtain ⟨p, hp, hvalue⟩ := hfound _ (Map.mem_of_get hget)
        have hsame := (Map.get_of_mem hkeys hp).symm.trans (Map.get_of_mem hkeys hf)
        rw [get_completed_of_query hget, ← Option.some.inj hsame]
        exact hvalue
  · rintro ⟨hdeclared, event, -, hextends, hmatches⟩ ⟨k, v⟩ he
    obtain ⟨f, hf, hk⟩ := List.mem_map.mp (hdeclared k (List.mem_map.mpr ⟨_, he, rfl⟩))
    have hfield := (matchFields_isSome _ _).mp hmatches f hf
    rw [FieldMatches, hk, hextends k v (Map.get_of_mem hunique he)] at hfield
    exact ⟨f.2, by rw [← hk]; exact hf, hfield⟩

def listener : Clause :=
  ⟨⟨[("surface".toList, .enum globalEnum), ("items".toList, .list (.headTail .wildcard
    (.variable "rest".toList)))]⟩, none, ⟨[]⟩, [], []⟩

theorem querySubset_listener :
    ⟨⟨⟨[]⟩, none, [listener]⟩, 0, listener⟩ ∈ querySubset ⟨[⟨⟨[]⟩, none, [listener]⟩]⟩
        [("surface".toList, .enum "tui".toList)] ↔
      (∀ k ∈ ["surface".toList], k ∈ listener.policy.fields.map Prod.fst) ∧
        ∃ event, FieldMap.Keyed event ∧
          (∀ k v, Map.get [("surface".toList, .enum "tui".toList)] k = some v →
            Map.get event k = some v) ∧
            (matchFields listener.policy.fields event).isSome :=
  querySubset_iff (by simp [FieldMap.Keyed, FieldValue.Keyed, FieldValue.KeyedEntries])
    (List.mem_singleton_self _) rfl
    (by simp [listener, Regular, RegularFields, RegularList, IsTail])

end Luaml
