import Luaml.Completion
import Luaml.ServiceLaws

namespace Luaml

theorem ScriptRegistry.script_mem {reg : ScriptRegistry} {event : FieldMap} {m : ClauseMatch}
    (h : m ∈ reg.matchClauses event) : m.script ∈ reg.scripts := by
  obtain ⟨script, hscript, hm⟩ := List.mem_filterMap.mp h
  obtain ⟨clause, -, hclause⟩ := List.exists_of_findSome?_eq_some hm
  split at hclause
  · cases hclause
  · split at hclause
    · obtain rfl := Option.some.inj hclause
      exact hscript
    · cases hclause

namespace Service

open Rust Str

variable {J W : Type} (serde : Serde J) (bodies : Bodies W)

def NamesCompleted {σ : Type} (reg : ScriptRegistry) (run : Run σ) (entry : DispatchMatch) : Prop :=
  ∃ c ∈ run.calls, ∃ m ∈ reg.matchClauses c.event, m.script ∈ reg.scripts ∧
    entry = ⟨m.script.sourcePath.text, m.bindings⟩ ∧
      ∃ o ∈ run.outcomes, o.2.source = m.source ∧ o.2.errKind = none

/-- A dispatch with an outcome that is an error has an error for its response, and what the response
lists has completed. -/
def TellsApart (conn : Connection W) (request : Request J) (response : Response Reply) : Prop :=
  ∀ event run, eventParam serde request = .ok event →
    conn.engine.dispatch (execute serde bodies conn.apiBindings.entries) (conn.lua, conn.handler)
      event = .ok run →
      ((∃ o ∈ run.outcomes, o.2.errKind ≠ none) → response.error.isSome) ∧
        ∀ ms, response.result = some (.dispatch ms) →
          ∀ entry ∈ ms, NamesCompleted conn.engine.registry run entry

theorem namesCompleted_of_clean {σ : Type} {reg : ScriptRegistry} {run : Run σ}
    (htraced : run.Traced reg []) (hclean : run.Clean) {o : UInt32 × ClauseOutcome}
    (ho : o ∈ run.outcomes) : NamesCompleted reg run ⟨o.2.scriptPath.text, o.2.bindings⟩ := by
  have hnone := hclean o ho
  obtain ⟨event, hevent, m, hm, hsource⟩ := htraced o ho (by simp [ClauseOutcome.synthetic, hnone])
  rw [List.nil_append] at hevent
  obtain ⟨c, hc, rfl⟩ := List.mem_map.mp hevent
  refine ⟨c, hc, m, hm, ScriptRegistry.script_mem hm, ?_, o, ho, hsource, hnone⟩
  simp only [ClauseOutcome.source, ClauseMatch.source, Prod.mk.injEq] at hsource
  rw [hsource.1, hsource.2.2]

/-- The response tells failures apart from successes exactly when there is none: the request is no
dispatch of an event, or the unlimited execution stays within the limits and its bodies complete. -/
theorem handleDispatch_tellsApart_iff (conn : Connection W) (request : Request J) :
    ∃ response conn', handleDispatch serde bodies conn request = .ok (response, conn') ∧
      (TellsApart serde bodies conn request response ↔
        ∀ event, eventParam serde request = .ok event →
          conn.engine.Completes (execute serde bodies conn.apiBindings.entries)
            (conn.lua, conn.handler) event) := by
  cases hparam : eventParam serde request with
  | error e =>
    refine ⟨_, _, by rw [handleDispatch, hparam], ?_⟩
    simp [TellsApart, hparam]
  | ok event =>
    obtain ⟨run, hrun, htraced, hclean⟩ := conn.engine.dispatch_clean_iff
      (execute serde bodies conn.apiBindings.entries) (conn.lua, conn.handler) event
    refine ⟨_, _, by rw [handleDispatch, hparam]; simp only [hrun, Res.ok_bind]; rfl, ?_⟩
    constructor
    · rintro htells _ rfl'
      obtain rfl := Except.ok.inj rfl'
      rw [← hclean]
      intro o ho
      by_contra herr
      have hsome := (htells event run hparam hrun).1 ⟨o, ho, herr⟩
      simp [Response.ok] at hsome
    · intro hcompletes event' run' hevent' hrun'
      obtain rfl := Except.ok.inj (hparam.symm.trans hevent')
      obtain rfl := Res.ok.inj (hrun.symm.trans hrun')
      have hall := hclean.mpr (hcompletes event rfl)
      refine ⟨?_, ?_⟩
      · rintro ⟨o, ho, herr⟩
        exact absurd (hall o ho) herr
      · rintro ms hms entry hentry
        obtain rfl := Reply.dispatch.inj (Option.some.inj hms)
        obtain ⟨o, ho, rfl⟩ := List.mem_map.mp hentry
        exact namesCompleted_of_clean htraced hall ho

def unbound : Connection Unit :=
  ⟨{ newEngine with registry :=
      ⟨[⟨⟨"a.luaml".toList⟩, none, [⟨⟨[]⟩, none, ⟨"client.save()".toList⟩, [], []⟩]⟩]⟩ },
    .empty, (), .new []⟩

def unboundRequest : Request Str := .new "dispatch".toList dispatchJson 3

/-- The response lists the script, whose body has failed. -/
theorem failed_body_listed :
    ¬∀ (serde : Serde Str) (bodies : Bodies Unit) (conn : Connection Unit) (request : Request Str)
      (response : Response Reply) (conn' : Connection Unit),
      handleDispatch serde bodies conn request = .ok (response, conn') →
        TellsApart serde bodies conn request response := by
  intro h
  have hresponse : (handleDispatch sessionSerde sessionBodies unbound unboundRequest).toOption.map
      (fun r => r.1.error.isSome) = some false := by decide +kernel
  have hfailed : (unbound.engine.dispatch (execute sessionSerde sessionBodies
      unbound.apiBindings.entries) (unbound.lua, unbound.handler) []).toOption.map
        (fun run => run.outcomes.any fun o => o.2.errKind ≠ none) = some true := by decide +kernel
  obtain ⟨⟨response, conn'⟩, hok, hnone⟩ := Option.map_eq_some_iff.mp hresponse
  obtain ⟨run, hrun, herr⟩ := Option.map_eq_some_iff.mp hfailed
  obtain ⟨o, ho, herr⟩ := List.any_eq_true.mp herr
  have hsome := (h _ _ _ _ _ _ (Res.toOption_eq_some.mp hok) [] run rfl
    (Res.toOption_eq_some.mp hrun)).1 ⟨o, ho, of_decide_eq_true herr⟩
  exact absurd (hnone.symm.trans hsome) (by decide)

end Service

end Luaml
