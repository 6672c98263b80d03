import Luaml.LifecycleLaws
import Luaml.SessionLaws
import Luaml.Worlds

namespace Luaml

open Rust Res

namespace Service

variable {J W : Type}

abbrev Surroundings (W : Type) := ApiBindings Unit × W × RemoteApiHandler

def Connection.life (conn : Connection W) : Life (Surroundings W) :=
  ⟨conn.engine, none, conn.apiBindings, conn.lua, conn.handler⟩

section

variable (serde : Serde J) (bodies : Bodies W)

def executeAmong : Exec (Surroundings W) := fun (apiBindings, world) m =>
  (execute serde bodies apiBindings.entries world m).map (apiBindings, ·) id

def Request.action (request : Request J) : Option (Action (Surroundings W)) :=
  if request.method = "register".toList then
    (serde.registerParams request.params).toOption.map fun params =>
      .register ⟨params.sourcePath⟩ params.text
  else if request.method = "dispatch".toList then
    (eventParam serde request).toOption.map .dispatch
  else none

end

inductive Aside : Action (Surroundings W) → Prop
  | intro (f : ApiBindings Unit → RemoteApiHandler → ApiBindings Unit × RemoteApiHandler) :
    Aside (.alter fun (apiBindings, lua, handler) =>
      ((f apiBindings handler).1, lua, (f apiBindings handler).2))

/-- The calls in their order, and other actions between them that touch neither the engine nor the
Lua state. -/
inductive Amid : List (Action (Surroundings W)) → List (Action (Surroundings W)) → Prop
  | nil : Amid [] []
  | call {action : Action (Surroundings W)} {calls actions : List (Action (Surroundings W))} :
    Amid calls actions → Amid (action :: calls) (action :: actions)
  | aside {action : Action (Surroundings W)} {calls actions : List (Action (Surroundings W))} :
    Aside action → Amid calls actions → Amid calls (action :: actions)

theorem Amid.append {calls calls' actions actions' : List (Action (Surroundings W))}
    (h : Amid calls actions) (h' : Amid calls' actions') :
    Amid (calls ++ calls') (actions ++ actions') := by
  induction h with
  | nil => exact h'
  | call _ ih => exact .call ih
  | aside haside _ ih => exact .aside haside ih

variable {serde : Serde J} {bodies : Bodies W} {conn conn' conn'' : Connection W}
  {request : Request J} {r : Response Reply}

def Lives (serde : Serde J) (bodies : Bodies W) (host : Host) (conn : Connection W)
    (requests : List (Request J)) (conn' : Connection W) : Prop :=
  ∃ actions, Amid (requests.filterMap (Request.action serde)) actions ∧
    Life.run (executeAmong serde bodies) (actions.map (host, ·)) conn.life = some conn'.life

variable {host : Host}

theorem Lives.trans {requests requests' : List (Request J)}
    (h : Lives serde bodies host conn requests conn')
    (h' : Lives serde bodies host conn' requests' conn'') :
    Lives serde bodies host conn (requests ++ requests') conn'' := by
  obtain ⟨actions, hamid, hrun⟩ := h
  obtain ⟨actions', hamid', hrun'⟩ := h'
  refine ⟨actions ++ actions', ?_, ?_⟩
  · rw [List.filterMap_append]
    exact hamid.append hamid'
  · rw [List.map_append, Life.run_append, hrun]
    exact hrun'

theorem Lives.aside {requests : List (Request J)}
    (hnone : requests.filterMap (Request.action (W := W) serde) = [])
    (hengine : conn'.engine = conn.engine) (hlua : conn'.lua = conn.lua) :
    Lives serde bodies host conn requests conn' := by
  refine ⟨[.alter fun (_, lua, _) => (conn'.apiBindings, lua, conn'.handler)], ?_, ?_⟩
  · rw [hnone]
    exact .aside (.intro fun _ _ => (conn'.apiBindings, conn'.handler)) .nil
  · change some (Life.mk conn.engine none (conn'.apiBindings, conn.lua, conn'.handler)) = _
    rw [← hengine, ← hlua]
    rfl

theorem Lives.call {action : Action (Surroundings W)}
    (haction : Request.action serde request = some action)
    (hstep : Life.step (executeAmong serde bodies) host conn.life action = some conn'.life) :
    Lives serde bodies host conn [request] conn' := by
  refine ⟨[action], ?_, ?_⟩
  · rw [List.filterMap_cons_some haction]
    exact .call .nil
  · rw [List.map_singleton, Life.run, hstep]
    rfl

theorem Request.action_of_ne (hregister : request.method ≠ "register".toList)
    (hdispatch : request.method ≠ "dispatch".toList) :
    Request.action (W := W) serde request = none := by
  rw [Request.action, if_neg hregister, if_neg hdispatch]

theorem handleRegister_lives (hmethod : request.method = "register".toList)
    (h : handleRegister serde conn request = .ok (r, conn')) :
    Lives serde bodies host conn [request] conn' := by
  have haction : Request.action (W := W) serde request =
      (serde.registerParams request.params).toOption.map fun params =>
        .register ⟨params.sourcePath⟩ params.text := by
    rw [Request.action, if_pos hmethod]
  unfold handleRegister at h
  split at h
  · rename_i hparams
    obtain ⟨rfl, rfl⟩ := Prod.mk.inj (Res.ok.inj h)
    refine .aside ?_ rfl rfl
    rw [hparams] at haction
    rw [List.filterMap_cons_none haction, List.filterMap_nil]
  · rename_i params hparams
    rw [hparams] at haction
    have hstep : ∀ result reg,
        conn.engine.registry.registerText ⟨params.sourcePath⟩ params.text = (result, reg) →
          left (result, reg) = some reg →
            Life.step (executeAmong serde bodies) host conn.life
                (.register ⟨params.sourcePath⟩ params.text) =
              some { conn.life with engine := { conn.engine with registry := reg } } := by
      intro result reg hregister hleft
      change (left (conn.engine.registry.registerText _ _)).map conn.life.withRegistry = _
      rw [hregister, hleft]
      rfl
    split at h
    · rename_i hregister
      obtain ⟨rfl, rfl⟩ := Prod.mk.inj (Res.ok.inj h)
      exact .call haction (hstep _ _ hregister rfl)
    · rename_i hregister
      obtain ⟨rfl, rfl⟩ := Prod.mk.inj (Res.ok.inj h)
      exact .call haction (hstep _ _ hregister rfl)
    · cases h

theorem dispatch_among {apiBindings : ApiBindings Unit} {engine : LuamlEngine}
    {world : W × RemoteApiHandler} {event : FieldMap} {run : Run (W × RemoteApiHandler)}
    (h : engine.dispatch (execute serde bodies apiBindings.entries) world event = .ok run) :
    engine.dispatch (executeAmong serde bodies) (apiBindings, world) event =
      .ok (run.within (apiBindings, run.world)) := by
  have heach : Run.PlaysEach (fun (_ : Unit) world (_ : List Unit) s => s = (apiBindings, world))
      (execute serde bodies apiBindings.entries) (executeAmong serde bodies) := by
    refine fun world m => ⟨[], ?_⟩
    rintro i rest _ rfl
    exact ⟨rfl, rfl⟩
  obtain ⟨as, has⟩ := engine.dispatch_plays heach h
  obtain ⟨_, hdispatch, rfl⟩ := has () [] _ rfl
  exact hdispatch

theorem handleDispatch_lives (hmethod : request.method = "dispatch".toList)
    (h : handleDispatch serde bodies conn request = .ok (r, conn')) :
    Lives serde bodies host conn [request] conn' := by
  have haction : Request.action (W := W) serde request =
      (eventParam serde request).toOption.map .dispatch := by
    rw [Request.action, hmethod, if_neg (by decide), if_pos rfl]
  unfold handleDispatch at h
  split at h
  · rename_i hevent
    obtain ⟨rfl, rfl⟩ := Prod.mk.inj (Res.ok.inj h)
    refine .aside ?_ rfl rfl
    rw [hevent] at haction
    rw [List.filterMap_cons_none haction, List.filterMap_nil]
  · rename_i event hevent
    obtain ⟨run, hrun, h⟩ := bind_eq_ok.mp h
    obtain ⟨rfl, rfl⟩ := Prod.mk.inj (Res.ok.inj h)
    rw [hevent] at haction
    refine .call haction ?_
    have hdispatch := dispatch_among hrun
    simp only [Life.step, Life.drain, Connection.life, Option.bind_eq_bind, Option.bind_some,
      hdispatch]
    rfl

theorem handleRegisterApi_aside (h : handleRegisterApi serde conn request = (r, conn')) :
    conn'.engine = conn.engine ∧ conn'.lua = conn.lua := by
  unfold handleRegisterApi at h
  split at h
  · cases h
    exact ⟨rfl, rfl⟩
  · split at h
    · cases h
      exact ⟨rfl, rfl⟩
    · cases h
      exact ⟨rfl, rfl⟩

theorem processRequest_lives (h : processRequest serde bodies conn request = .ok (r, conn')) :
    Lives serde bodies host conn [request] conn' := by
  rw [processRequest] at h
  split at h
  · rename_i hmethod
    exact handleRegister_lives hmethod h
  rename_i hregister
  have hother (hdispatch : request.method ≠ "dispatch".toList) :
      [request].filterMap (Request.action (W := W) serde) = [] :=
    List.filterMap_cons_none (Request.action_of_ne hregister hdispatch)
  split at h
  · rename_i hmethod
    have hdispatch : request.method ≠ "dispatch".toList := by
      rw [hmethod]
      decide
    obtain ⟨hengine, hlua⟩ := handleRegisterApi_aside (Res.ok.inj h)
    exact .aside (hother hdispatch) hengine hlua
  split at h
  · rename_i hmethod
    exact handleDispatch_lives hmethod h
  rename_i hdispatch
  split at h
  · cases h
    exact .aside (hother hdispatch) rfl rfl
  split at h
  · cases h
    exact .aside (hother hdispatch) rfl rfl
  · cases h
    exact .aside (hother hdispatch) rfl rfl

theorem Lives.before {requests : List (Request J)}
    (h : Lives serde bodies host conn' requests conn'') (hengine : conn'.engine = conn.engine)
    (hlua : conn'.lua = conn.lua) : Lives serde bodies host conn requests conn'' :=
  have haside : Lives serde bodies host conn [] conn' := .aside rfl hengine hlua
  haside.trans h

theorem Served.lives (host : Host) {events : List Event}
    (h : Served serde bodies conn events conn') :
    Lives serde bodies host conn (requestsIn serde events) conn' := by
  induction h with
  | ended hunread => exact .aside rfl rfl rfl
  | failed => exact .aside rfl rfl rfl
  | blank hblank _ ih =>
    rw [requestsIn_received, requestOf, if_pos hblank]
    exact ih.before rfl rfl
  | @invalid _ _ _ _ _ text _ _ _ _ hinvalid _ ih =>
    have hnone : requestOf serde (.ok text) = none := by simp [requestOf, hinvalid, Except.toOption]
    rw [requestsIn_received, requestsIn_response, hnone]
    exact ih.before rfl rfl
  | exchange hrequest hprocess hexchange hcalls _ ih =>
    rw [requestsIn_received, requestsIn_append, hexchange.after.2, requestsIn_response, hrequest]
    have hlives := (processRequest_lives hprocess).trans (ih.before rfl rfl)
    exact hlives.before rfl rfl

theorem dispatchCount_amid {calls actions : List (Action (Surroundings W))}
    (h : Amid calls actions) (host : Host) :
    Life.dispatchCount (actions.map (host, ·)) = Life.dispatchCount (calls.map (host, ·)) := by
  induction h with
  | nil => rfl
  | @call action _ _ _ ih => cases action <;> simp [Life.dispatchCount, ih]
  | aside haside _ ih =>
    cases haside
    exact ih

/-- The engine of a session has been through the calls that its requests come to, in their order,
with nothing between them that touches it or the Lua state.  So what holds of any engine holds of
it, and it has counted the dispatches that it was asked for. -/
theorem handleStream_lives (serde : Serde J) (bodies : Bodies W) (host : Host) (lua : W)
    (reader : List (Except Str Str)) (conn : Connection W)
    (h : handleStream serde bodies .new lua reader = .ok conn) :
    ∃ actions,
      Amid ((requestsIn serde conn.handler.log).filterMap (Request.action serde)) actions ∧
      Life.run (executeAmong serde bodies) (actions.map (host, ·))
          (.start (.empty, lua, .new reader)) = some conn.life ∧
        conn.life.Sound (Life.AddedUnder (Life.history (executeAmong serde bodies)
          (actions.map (host, ·)) (.start (.empty, lua, .new reader)))) ∧
        conn.engine.stats.dispatches = Life.dispatchCount
          (((requestsIn serde conn.handler.log).filterMap (Request.action (W := W) serde)).map
            (host, ·)) := by
  obtain ⟨events, hserved⟩ := serve_served bodies _ h
  obtain rfl : conn.handler.log = events := hserved.log
  obtain ⟨actions, hamid, hrun⟩ := hserved.lives host
  have hlife : Life.run (executeAmong serde bodies) (actions.map (host, ·))
      (.start (.empty, lua, .new reader)) = some conn.life := hrun
  refine ⟨actions, hamid, hlife, ?_, ?_⟩
  · exact Life.run_sound hlife (fun r hr s hs => ⟨r, hr, s, hs, rfl⟩) (Life.start_sound _)
  · have hcount := Life.run_dispatches hlife
    rw [dispatchCount_amid hamid] at hcount
    simpa [Life.start, LuamlEngine.new, EngineStats.zero, Connection.life] using hcount

theorem inTurn_lives : ∃ conn,
    handleStream sessionSerde sessionBodies .new () inTurn = .ok conn ∧
      ∃ actions,
        Amid ((requestsIn sessionSerde conn.handler.log).filterMap (Request.action sessionSerde))
          actions ∧
        Life.run (executeAmong sessionSerde sessionBodies)
            (actions.map (ScriptWatcher.oneScript ScriptWatcher.plainText, ·))
            (.start (.empty, (), .new inTurn)) = some conn.life := by
  have hok : (handleStream sessionSerde sessionBodies .new () inTurn).toOption.isSome := by
    decide +kernel
  obtain ⟨conn, hconn⟩ := Option.isSome_iff_exists.mp hok
  have hconn' := Res.toOption_eq_some.mp hconn
  obtain ⟨actions, hamid, hrun, -⟩ := handleStream_lives sessionSerde sessionBodies
    (ScriptWatcher.oneScript ScriptWatcher.plainText) () inTurn conn hconn'
  exact ⟨conn, hconn', actions, hamid, hrun⟩

end Service

end Luaml
