import Luaml.Reload

namespace Luaml

open Rust

namespace ScriptRegistry

/-- The path is registered once: for `old`, after the scripts of `pre` and before those of
`post`. -/
structure Placed (reg : ScriptRegistry) (path : PathBuf) (pre : List Script) (old : Script)
    (post : List Script) : Prop where
  scripts : reg.scripts = pre ++ old :: post
  same : old.sourcePath.same path
  before : ∀ s ∈ pre, ¬s.sourcePath.same path
  after : ∀ s ∈ post, ¬s.sourcePath.same path

def matchesOf (scripts : List Script) (event : FieldMap) : List ClauseMatch :=
  scripts.filterMap (matchFirstClause · event)

/-- `script` stands in `reg'` where `old` did in `reg`, so that an event is matched in that order,
and nothing has changed if it is `old` again. -/
structure KeepsPlace (reg reg' : ScriptRegistry) (pre : List Script) (old : Script)
    (post : List Script) (script : Script) : Prop where
  place : reg'.scripts = pre ++ script :: post
  order : ∀ event, reg'.matchClauses event =
    matchesOf pre event ++ (matchFirstClause script event).toList ++ matchesOf post event
  own : script = old → reg' = reg

variable {reg : ScriptRegistry} {path : PathBuf} {pre post : List Script} {old script : Script}

theorem Placed.unregister (h : reg.Placed path pre old post) :
    reg.unregister path = (true, ⟨pre ++ post⟩) := by
  have hkept : ∀ scripts : List Script, (∀ s ∈ scripts, ¬s.sourcePath.same path) →
      (scripts.filter fun s => !s.sourcePath.same path) = scripts := by
    intro scripts hscripts
    rw [List.filter_eq_self]
    simpa using hscripts
  have hfilter : (reg.scripts.filter fun s => !s.sourcePath.same path) = pre ++ post := by
    rw [h.scripts, List.filter_append, List.filter_cons_of_neg (by simp [h.same]),
      hkept pre h.before, hkept post h.after]
  rw [ScriptRegistry.unregister, hfilter, h.scripts]
  simp

theorem Placed.replace (h : reg.Placed path pre old post) {text : Str}
    (hparse : Parser.parseLuaml path text = .ok script) :
    reg.replace path text = (.ok true, ⟨pre ++ post ++ [script]⟩) := by
  rw [replace_of_ok hparse, h.unregister]

theorem keepsPlace_of_scripts {reg' : ScriptRegistry} (h : reg.Placed path pre old post)
    (hplace : reg'.scripts = pre ++ script :: post) : KeepsPlace reg reg' pre old post script where
  place := hplace
  order event := by
    rw [matchClauses, hplace, List.filterMap_append, List.filterMap_cons]
    cases matchFirstClause script event <;> simp [matchesOf]
  own hown := congrArg ScriptRegistry.mk (by rw [hplace, hown, h.scripts])

theorem keepsPlace_iff (h : reg.Placed path pre old post) (hpath : script.sourcePath.same path) :
    KeepsPlace reg ⟨pre ++ post ++ [script]⟩ pre old post script ↔ post = [] := by
  constructor
  · intro hkeeps
    have hplace := hkeeps.place
    rw [List.append_assoc] at hplace
    cases post with
    | nil => rfl
    | cons s post =>
      obtain ⟨rfl, -⟩ := List.cons.inj (List.append_cancel_left hplace)
      exact absurd hpath (h.after s (by simp))
  · rintro rfl
    exact keepsPlace_of_scripts h (by simp)

end ScriptRegistry

open ScriptRegistry

/-- A script that is replaced keeps its place exactly when no script stands after it: for `replace`,
and for `replace_file` on a file with that text. -/
theorem replace_keepsPlace_iff {reg : ScriptRegistry} {path : PathBuf} {pre post : List Script}
    {old script : Script} {text : Str} (h : reg.Placed path pre old post)
    (hparse : Parser.parseLuaml path text = .ok script) :
    ∃ reg', reg.replace path text = (.ok true, reg') ∧
      (∀ (host : Host) (engine : LuamlEngine), engine.registry = reg →
        host.readToString path = .ok text →
          engine.replaceFile host path = (.ok true, { engine with registry := reg' })) ∧
      (KeepsPlace reg reg' pre old post script ↔ post = []) := by
  have hreplace := h.replace hparse
  refine ⟨_, hreplace, ?_, ?_⟩
  · rintro host engine rfl htext
    simp only [LuamlEngine.replaceFile, htext, hreplace]
  · obtain ⟨_, _, _, _, haccepted⟩ := Parser.parseLuaml_eq_ok.mp hparse
    apply keepsPlace_iff h
    rw [haccepted.sourcePath_eq]
    simp [PathBuf.same]

def plainScript (path : String) : Script :=
  ⟨⟨path.toList⟩, none, [⟨⟨[("k".toList, .wildcard)]⟩, none, ⟨[]⟩, [], []⟩]⟩

theorem parse_plainText :
    Parser.parseLuaml ⟨"a".toList⟩ ScriptWatcher.plainText = .ok (plainScript "a") := by
  rfl

def aBeforeB : ScriptRegistry := ⟨[plainScript "a", plainScript "b"]⟩

theorem aBeforeB_placed :
    aBeforeB.Placed ⟨"a".toList⟩ [] (plainScript "a") [plainScript "b"] where
  scripts := rfl
  same := by decide
  before := by simp
  after := by decide

theorem aBeforeB_keepsPlace :
    ∃ reg', aBeforeB.replace ⟨"a".toList⟩ ScriptWatcher.plainText = (.ok true, reg') ∧
      (∀ (host : Host) (engine : LuamlEngine), engine.registry = aBeforeB →
        host.readToString ⟨"a".toList⟩ = .ok ScriptWatcher.plainText →
          engine.replaceFile host ⟨"a".toList⟩ = (.ok true, { engine with registry := reg' })) ∧
      (KeepsPlace aBeforeB reg' [] (plainScript "a") [plainScript "b"] (plainScript "a") ↔
        [plainScript "b"] = []) :=
  replace_keepsPlace_iff aBeforeB_placed parse_plainText

/-- A script that is replaced with its own text goes behind the other. -/
theorem replaced_script_moves :
    ¬∀ (reg : ScriptRegistry) (path : PathBuf) (pre : List Script) (old : Script)
      (post : List Script) (text : Str) (script : Script), reg.Placed path pre old post →
        Parser.parseLuaml path text = .ok script →
          KeepsPlace reg (reg.replace path text).2 pre old post script := by
  intro h
  have hkeeps := h aBeforeB _ _ _ _ _ _ aBeforeB_placed parse_plainText
  rw [aBeforeB_placed.replace parse_plainText] at hkeeps
  have hfirst := congrArg (fun reg : ScriptRegistry => reg.scripts.map (·.sourcePath.text))
    (hkeeps.own rfl)
  exact absurd hfirst (by decide)

end Luaml
