import Luaml.Registry
import Mathlib.Data.Finset.Basic
import Mathlib.Data.List.Sort

namespace Luaml

open Rust Str

inductive ClauseErrKind
  | guard | body | cascadeDepth | cascadeCycle | cascadeBudget
  deriving DecidableEq

structure ClauseError where
  kind : ClauseErrKind
  message : Str
  deriving DecidableEq

structure ClauseSuccess where
  emitted : List FieldMap

structure ClauseOutcome where
  scriptPath : PathBuf
  clause : Clause
  bindings : FieldBindings
  result : Except ClauseError ClauseSuccess

def syntheticClause : Clause := ⟨⟨[]⟩, none, ⟨[]⟩, [], []⟩

def syntheticCascadeOutcome (kind : ClauseErrKind) (message : Str) : ClauseOutcome :=
  ⟨⟨[]⟩, syntheticClause, [], .error ⟨kind, message⟩⟩

def ClauseOutcome.errKind (o : ClauseOutcome) : Option ClauseErrKind :=
  match o.result with
  | .error e => some e.kind
  | .ok _ => none

def ClauseOutcome.synthetic (o : ClauseOutcome) : Bool :=
  match o.errKind with
  | some .cascadeDepth | some .cascadeCycle | some .cascadeBudget => true
  | _ => false

abbrev FieldValueSig := FieldValue

abbrev EventSig := List (Str × FieldValueSig)

def sortByKey (pairs : List (Str × FieldValueSig)) : List (Str × FieldValueSig) :=
  pairs.insertionSort fun a b => Str.le a.1 b.1

mutual
def fromValue : FieldValue → FieldValueSig
  | .list items => .list (fromItems items)
  | .map entries => .map (sortByKey (fromEntries entries))
  | .enum s => .enum s
  | .string s => .string s
  | .number n => .number n
  | .float f => .float f
  | .bool b => .bool b
  | .null => .null

def fromItems : List FieldValue → List FieldValueSig
  | [] => []
  | v :: vs => fromValue v :: fromItems vs

def fromEntries : List (Str × FieldValue) → List (Str × FieldValueSig)
  | [] => []
  | (k, v) :: m => (k, fromValue v) :: fromEntries m
end

def eventSignature (event : FieldMap) : EventSig := sortByKey (fromEntries event)

structure CascadeConfig where
  maxDepth : UInt32
  budget : UInt32

def CascadeConfig.default : CascadeConfig := ⟨32, 256⟩

/-- The counters are a `u64` in the source, and agree with it as long as they are below `2 ^ 64`. -/
structure EngineStats where
  dispatches : Nat
  matched : Nat
  cascadeDepthMax : UInt32
  cascadesEmitted : Nat
  lastErrorPerScript : List (List Component × ClauseError)

def EngineStats.zero : EngineStats := ⟨0, 0, 0, 0, []⟩

def EngineStats.noteError (stats : EngineStats) (path : PathBuf) (e : ClauseError) : EngineStats :=
  { stats with lastErrorPerScript := Map.insert stats.lastErrorPerScript path.components e }

structure LuamlEngine where
  registry : ScriptRegistry
  roots : List PathBuf
  cascadeConfig : CascadeConfig
  stats : EngineStats

namespace LuamlEngine

def registerDirs (host : Host) : List PathBuf → Nat → ScriptRegistry →
    Res LuamlError Nat × ScriptRegistry
  | [], total, reg => (.ok total, reg)
  | root :: roots, total, reg =>
    match reg.registerDir host root with
    | (.ok count, reg) => registerDirs host roots (total + count) reg
    | failed => failed

def reloadRoots (host : Host) (engine : LuamlEngine) : Res LuamlError Nat × LuamlEngine :=
  let (result, reg) := registerDirs host engine.roots 0 engine.registry.clear
  (result, { engine with registry := reg })

def addRoot (host : Host) (engine : LuamlEngine) (root : PathBuf) :
    Res LuamlError Nat × LuamlEngine :=
  if engine.roots.any (PathBuf.same · root) then (.ok 0, engine)
  else
    match engine.registry.registerDir host root with
    | (.ok count, reg) =>
      (.ok count, { engine with registry := reg, roots := engine.roots ++ [root] })
    | (failed, reg) => (failed, { engine with registry := reg })

def replaceFile (host : Host) (engine : LuamlEngine) (path : PathBuf) :
    Res LuamlError Bool × LuamlEngine :=
  match host.readToString path with
  | .ok text =>
    let (result, reg) := engine.registry.replace path text
    (result, { engine with registry := reg })
  | .err e => (.err e, engine)
  | .panic c => (.panic c, engine)

def query (engine : LuamlEngine) (event : FieldMap) : List ClauseMatch :=
  engine.registry.matchClauses event

end LuamlEngine

structure CascadeContext where
  config : CascadeConfig
  visited : Finset EventSig
  budgetRemaining : UInt32

def CascadeContext.new (config : CascadeConfig) : CascadeContext := ⟨config, ∅, config.budget⟩

/-- A call of `dispatch_inner` that has ended: the events of the calls around it, its arguments,
the context as it found it and as it left it, and the outcomes pushed meanwhile. -/
structure Call where
  stack : List FieldMap
  event : FieldMap
  depth : UInt32
  entry : CascadeContext
  exit : CascadeContext
  pushed : List (UInt32 × ClauseOutcome)

/-- The state of a dispatch.  What the code does not keep is the depth of the call that pushed an
outcome, beside the outcome, and the record of the calls that have ended. -/
structure Run (σ : Type) where
  world : σ
  stats : EngineStats
  ctx : CascadeContext
  outcomes : List (UInt32 × ClauseOutcome)
  calls : List Call

/-- What executing the body of a match does to the world (the Lua state and all that it reaches),
and the events it emits or its error. -/
abbrev Exec (σ : Type) := σ → ClauseMatch → σ × Except Str (List FieldMap)

namespace Run

variable {σ : Type}

def push (run : Run σ) (depth : UInt32) (outcome : ClauseOutcome) : Run σ :=
  { run with outcomes := run.outcomes ++ [(depth, outcome)] }

def noteDepth (run : Run σ) (depth : UInt32) : Run σ :=
  { run with stats :=
    { run.stats with cascadeDepthMax := max run.stats.cascadeDepthMax depth } }

def markVisited (run : Run σ) (sig : EventSig) : Run σ :=
  { run with ctx := { run.ctx with visited := insert sig run.ctx.visited } }

def unmarkVisited (run : Run σ) (sig : EventSig) : Run σ :=
  { run with ctx := { run.ctx with visited := run.ctx.visited.erase sig } }

def noteMatched (run : Run σ) (n : Nat) : Run σ :=
  { run with stats := { run.stats with matched := run.stats.matched + n } }

/-- An emission is taken up with this much of the budget left after it. -/
def takeUp (run : Run σ) (budgetRemaining : UInt32) : Run σ :=
  { run with
    ctx := { run.ctx with budgetRemaining := budgetRemaining }
    stats := { run.stats with cascadesEmitted := run.stats.cascadesEmitted + 1 } }

def executeMatched (exec : Exec σ) (run : Run σ) (m : ClauseMatch) :
    ClauseOutcome × List FieldMap × Run σ :=
  match exec run.world m with
  | (world, .ok emissions) =>
    (⟨m.script.sourcePath, m.clause, m.bindings, .ok ⟨emissions⟩⟩, emissions,
      { run with world := world })
  | (world, .error message) =>
    let e : ClauseError := ⟨.body, message⟩
    (⟨m.script.sourcePath, m.clause, m.bindings, .error e⟩, [],
      { run with world := world, stats := run.stats.noteError m.script.sourcePath e })

/-- The loop over the emissions of a match; `false` if the call returns from inside it. -/
def emissionLoop (inner : UInt32 → FieldMap → Run σ → Res Empty (Run σ)) (depth : UInt32)
    (sig : EventSig) : List FieldMap → Run σ → Res Empty (Run σ × Bool)
  | [], run => .ok (run, true)
  | emission :: emissions, run =>
    if run.ctx.budgetRemaining = 0 then do
      let next ← checkedAdd depth 1
      let run := run.push depth (syntheticCascadeOutcome .cascadeBudget
        ("cascade budget ".toList ++ (Nat.repr run.ctx.config.budget.toNat).toList
          ++ " exhausted at depth ".toList ++ (Nat.repr next.toNat).toList))
      .ok (run.unmarkVisited sig, false)
    else do
      let budgetRemaining ← checkedSub run.ctx.budgetRemaining 1
      let next ← checkedAdd depth 1
      let run ← inner next emission (run.takeUp budgetRemaining)
      emissionLoop inner depth sig emissions run

def matchLoop (exec : Exec σ) (inner : UInt32 → FieldMap → Run σ → Res Empty (Run σ))
    (depth : UInt32) (sig : EventSig) : List ClauseMatch → Run σ → Res Empty (Run σ)
  | [], run => .ok (run.unmarkVisited sig)
  | m :: ms, run => do
    let (outcome, emissions, run) := executeMatched exec run m
    let (run, goOn) ← emissionLoop inner depth sig emissions (run.push depth outcome)
    if goOn then matchLoop exec inner depth sig ms run else .ok run

/-- `dispatch_inner`, with `inner` for its recursive call. -/
def dispatchBody (reg : ScriptRegistry) (exec : Exec σ)
    (inner : UInt32 → FieldMap → Run σ → Res Empty (Run σ)) (depth : UInt32) (event : FieldMap)
    (run : Run σ) : Res Empty (Run σ) :=
  let run := run.noteDepth depth
  if run.ctx.config.maxDepth ≤ depth then
    .ok (run.push depth (syntheticCascadeOutcome .cascadeDepth
      ("cascade depth ".toList ++ (Nat.repr depth.toNat).toList
        ++ " exceeded configured max_depth ".toList
        ++ (Nat.repr run.ctx.config.maxDepth.toNat).toList)))
  else
    let sig := eventSignature event
    if sig ∈ run.ctx.visited then
      .ok (run.push depth (syntheticCascadeOutcome .cascadeCycle
        ("cascade cycle detected at depth ".toList ++ (Nat.repr depth.toNat).toList
          ++ " (repeated event)".toList)))
    else
      let run := run.markVisited sig
      let ms := reg.matchClauses event
      matchLoop exec inner depth sig ms (run.noteMatched ms.length)

/-- `dispatch_inner` inside the calls on the events of `stack`, with a bound on the depth of the
recursion. -/
def dispatchWithin (reg : ScriptRegistry) (exec : Exec σ) :
    Nat → List FieldMap → UInt32 → FieldMap → Run σ → Res Empty (Run σ)
  | 0, _, _, _, _ => .panic .recursion
  | n + 1, stack, depth, event, run => do
    let run' ← dispatchBody reg exec (dispatchWithin reg exec n (event :: stack)) depth event run
    .ok { run' with calls := run'.calls ++
      [⟨stack, event, depth, run.ctx, run'.ctx, run'.outcomes.drop run.outcomes.length⟩] }

end Run

def LuamlEngine.start {σ : Type} (engine : LuamlEngine) (world : σ) : Run σ where
  world := world
  stats := { engine.stats with dispatches := engine.stats.dispatches + 1 }
  ctx := CascadeContext.new engine.cascadeConfig
  outcomes := []
  calls := []

/-- `LuamlEngine::dispatch`, once the changes that a watcher has queued are applied. -/
def LuamlEngine.dispatch {σ : Type} (engine : LuamlEngine) (exec : Exec σ) (world : σ)
    (event : FieldMap) : Res Empty (Run σ) :=
  Run.dispatchWithin engine.registry exec (engine.cascadeConfig.maxDepth.toNat + 1) [] 0 event
    (engine.start world)

end Luaml
