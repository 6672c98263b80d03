import Luaml.LifecycleLaws

namespace Luaml

open Rust Res ScriptRegistry

deriving instance DecidableEq for FileChange

namespace Life

variable {σ : Type} {exec : Exec σ} {host : Host} {life life' : Life σ}

def Queues : Action σ → Prop
  | .watch (.ok ()) | .unwatch | .dispatch _ | .send _ => True
  | _ => False

/-- The same calls, and the same changes sent between two looks at the queue, though at other times
and in other batches. -/
inductive Reschedules : List (Host × Action σ) → List (Host × Action σ) → Prop
  | refl (turns : List (Host × Action σ)) : Reschedules turns turns
  | symm {turns turns' : List (Host × Action σ)} :
    Reschedules turns turns' → Reschedules turns' turns
  | trans {turns turns' turns'' : List (Host × Action σ)} :
    Reschedules turns turns' → Reschedules turns' turns'' → Reschedules turns turns''
  | cons (turn : Host × Action σ) {turns turns' : List (Host × Action σ)} :
    Reschedules turns turns' → Reschedules (turn :: turns) (turn :: turns')
  | later (batch : List FileChange) (host host' : Host) {action : Action σ}
    (turns : List (Host × Action σ)) : ¬Queues action →
    Reschedules ((host, .send batch) :: (host', action) :: turns)
      ((host', action) :: (host, .send batch) :: turns)
  | merge (batch batch' : List FileChange) (host host' : Host) (turns : List (Host × Action σ)) :
    Reschedules ((host, .send batch) :: (host', .send batch') :: turns)
      ((host', .send (batch ++ batch')) :: turns)

theorem step_unlooked (queue : Option (List FileChange)) {action : Action σ}
    (haction : ¬Queues action) (life : Life σ) :
    step exec host { life with queue := queue } action =
      (step exec host life action).map fun life => { life with queue := queue } := by
  cases action with
  | register sourcePath text | registerFile path | registerDir dir | registerRoots roots
  | addRoot root | reloadRoots | replaceFile path =>
    rw [step, step, Option.map_map]
    rfl
  | unregister sourcePath | clear | setCascadeConfig config | alter f => rfl
  | watch answer =>
    cases answer with
    | error e => rfl
    | ok u => exact absurd trivial haction
  | unwatch | dispatch event | send batch' => exact absurd trivial haction

theorem step_queue {action : Action σ} (haction : ¬Queues action)
    (h : step exec host life action = some life') : life'.queue = life.queue := by
  have hsame : step exec host life action =
      (step exec host life action).map fun life' => { life' with queue := life.queue } :=
    step_unlooked life.queue haction life
  rw [h, Option.map_some] at hsame
  have hqueue := congrArg queue (Option.some.inj hsame)
  exact hqueue

theorem step_map_queue (f : List FileChange → List FileChange) {action : Action σ}
    (haction : ¬Queues action) (life : Life σ) :
    step exec host { life with queue := life.queue.map f } action =
      (step exec host life action).map fun life => { life with queue := life.queue.map f } := by
  rw [step_unlooked _ haction]
  cases h : step exec host life action with
  | none => rfl
  | some life' => simp only [Option.map_some, step_queue haction h]

theorem run_merge (batch batch' : List FileChange) (host host' : Host)
    (turns : List (Host × Action σ)) (life : Life σ) :
    run exec ((host, .send batch) :: (host', .send batch') :: turns) life =
      run exec ((host', .send (batch ++ batch')) :: turns) life := by
  have hqueue : (life.queue.map (· ++ batch)).map (· ++ batch') =
      life.queue.map (· ++ (batch ++ batch')) := by
    rw [Option.map_map]
    congr 1
    funext changes
    exact List.append_assoc _ _ _
  simp only [run, step, Option.bind_eq_bind, Option.bind_some, hqueue]

/-- It does not matter when the thread of the watcher gets to send, nor how it cuts what it sends
into batches, as long as the engine has not looked at the queue meanwhile. -/
theorem run_reschedules {turns turns' : List (Host × Action σ)} (h : Reschedules turns turns')
    (life : Life σ) : run exec turns life = run exec turns' life := by
  induction h generalizing life with
  | refl turns => rfl
  | symm _ ih => exact (ih life).symm
  | trans _ _ ih ih' => exact (ih life).trans (ih' life)
  | cons turn _ ih =>
    obtain ⟨host, action⟩ := turn
    exact congrArg _ (funext ih)
  | later batch host host' turns haction =>
    simp only [run, Option.bind_eq_bind]
    rw [step, Option.bind_some, step_map_queue _ haction, Option.bind_map]
    rfl
  | merge batch batch' host host' turns => exact run_merge batch batch' host host' turns life

end Life

namespace ScriptRegistry

variable {host : Host}

theorem applyChange_isSome (host : Host) (reg reg' : ScriptRegistry) (change : FileChange) :
    (left (ScriptWatcher.applyChange host reg change)).isSome =
      (left (ScriptWatcher.applyChange host reg' change)).isSome := by
  cases change with
  | remove path => rfl
  | createOrModify path =>
    rw [ScriptWatcher.applyChange, ScriptWatcher.applyChange]
    cases host.readToString path with
    | err e | panic c => rfl
    | ok text =>
      cases hparse : Parser.parseLuaml path text with
      | ok script => simp [replace_of_ok hparse, left]
      | err e => simp [replace_of_err hparse, left]
      | panic c => simp [replace_of_panic hparse, left]

theorem left_applyPending_append (host : Host) (changes changes' : List FileChange)
    (reg : ScriptRegistry) :
    left (ScriptWatcher.applyPending host (changes ++ changes') reg) =
      (left (ScriptWatcher.applyPending host changes reg)).bind fun reg =>
        left (ScriptWatcher.applyPending host changes' reg) := by
  induction changes generalizing reg with
  | nil => rfl
  | cons change changes ih =>
    rw [List.cons_append, left_applyPending_cons, left_applyPending_cons, Option.bind_assoc]
    exact congrArg _ (funext ih)

theorem applyPending_isSome (host : Host) (changes : List FileChange) (reg reg' : ScriptRegistry) :
    (left (ScriptWatcher.applyPending host changes reg)).isSome =
      (left (ScriptWatcher.applyPending host changes reg')).isSome := by
  induction changes generalizing reg reg' with
  | nil => rfl
  | cons change changes ih =>
    rw [left_applyPending_cons, left_applyPending_cons]
    have hfirst := applyChange_isSome host reg reg' change
    cases hreg : left (ScriptWatcher.applyChange host reg change) with
    | none =>
      rw [hreg] at hfirst
      rw [Option.isNone_iff_eq_none.mp (Option.isSome_eq_false_iff.mp hfirst.symm)]
    | some reg₁ =>
      rw [hreg] at hfirst
      obtain ⟨reg₂, hreg₂⟩ := Option.isSome_iff_exists.mp hfirst.symm
      rw [hreg₂]
      exact ih reg₁ reg₂

theorem changing_drops {change : FileChange} {script : Script}
    (h : script ∈ (changing host change).adds) : (changing host change).keeps script = false := by
  cases change with
  | remove path => exact absurd h List.not_mem_nil
  | createOrModify path =>
    rw [changing] at h ⊢
    cases hread : host.readToString path with
    | err e | panic c => simp [hread, Revision.nothing] at h
    | ok text =>
      simp only [hread] at h ⊢
      cases hparse : Parser.parseLuaml path text with
      | err e | panic c =>
        simp [hparse, loading, Revision.andThen, Revision.act, without, Revision.keeping,
          Revision.nothing] at h
      | ok s =>
        simp only [hparse, loading, Revision.andThen, without, Revision.keeping,
          Revision.adding, Revision.act, List.filter_nil, List.nil_append,
          List.mem_singleton] at h ⊢
        obtain ⟨_, _, _, _, haccepted⟩ := Parser.parseLuaml_eq_ok.mp hparse
        rw [h, haccepted.sourcePath_eq]
        simp [PathBuf.same]

theorem changingAll_drops {changes : List FileChange} {script : Script}
    (h : script ∈ (changingAll host changes).adds) :
    (changingAll host changes).keeps script = false := by
  induction changes with
  | nil => exact absurd h List.not_mem_nil
  | cons change changes ih =>
    rw [changingAll, Revision.andThen, Bool.and_eq_false_iff]
    rcases Revision.mem_adds_andThen h with h | h
    · exact .inl (changing_drops h)
    · exact .inr (ih h)

theorem changingAll_append (before after : List FileChange) (xs : List Script) :
    (changingAll host (before ++ after)).act xs =
      (changingAll host after).act ((changingAll host before).act xs) := by
  induction before generalizing xs with
  | nil => simp [changingAll]
  | cons change before ih =>
    rw [List.cons_append, changingAll, changingAll, Revision.andThen_act, Revision.andThen_act, ih]

theorem applyPending_again (host : Host) (changes between : List FileChange)
    (reg : ScriptRegistry) :
    left (ScriptWatcher.applyPending host (changes ++ (between ++ changes)) reg) =
      left (ScriptWatcher.applyPending host (between ++ changes) reg) := by
  rw [left_applyPending_append]
  cases hreg : left (ScriptWatcher.applyPending host changes reg) with
  | none =>
    -- Changes that panic do so whatever is registered.
    rw [Option.bind_none, left_applyPending_append]
    cases left (ScriptWatcher.applyPending host between reg) with
    | none => rfl
    | some reg' =>
      have hnone := applyPending_isSome host changes reg reg'
      rw [hreg] at hnone
      exact (Option.isNone_iff_eq_none.mp (Option.isSome_eq_false_iff.mp hnone.symm)).symm
  | some reg₁ =>
    rw [Option.bind_some]
    have hsome := applyPending_isSome host (between ++ changes) reg₁ reg
    cases hreg₂ : left (ScriptWatcher.applyPending host (between ++ changes) reg) with
    | none =>
      rw [hreg₂] at hsome
      exact Option.isNone_iff_eq_none.mp (Option.isSome_eq_false_iff.mp hsome)
    | some reg₂ =>
      rw [hreg₂] at hsome
      obtain ⟨reg₃, hreg₃⟩ := Option.isSome_iff_exists.mp hsome
      rw [hreg₃]
      have hscripts : reg₃.scripts = reg₂.scripts := by
        rw [applyPending_act hreg₃, applyPending_act hreg₂, applyPending_act hreg,
          changingAll_append, changingAll_append]
        exact Revision.act_act_again fun x hx => changingAll_drops hx
      exact congrArg some (congrArg ScriptRegistry.mk hscripts)

end ScriptRegistry

namespace Life

variable {σ : Type} {exec : Exec σ} {host : Host} {life life' : Life σ}

def Looks : Action σ → Prop
  | .watch (.ok ()) | .unwatch | .dispatch _ => True
  | _ => False

theorem send_or_not_queues {action : Action σ} (h : ¬Looks action) :
    (∃ batch, action = .send batch) ∨ ¬Queues action := by
  cases action with
  | send batch => exact .inl ⟨batch, rfl⟩
  | watch answer =>
    cases answer with
    | error e => exact .inr id
    | ok u => exact absurd trivial h
  | unwatch | dispatch event => exact absurd trivial h
  | _ => exact .inr id

theorem step_behind (changes : List FileChange) {action : Action σ} (haction : ¬Looks action)
    (life : Life σ) :
    step exec host { life with queue := life.queue.map (changes ++ ·) } action =
      (step exec host life action).map fun life =>
        { life with queue := life.queue.map (changes ++ ·) } := by
  rcases send_or_not_queues haction with ⟨batch, rfl⟩ | haction
  · simp only [step, Option.map_some, Option.map_map]
    congr 2
    cases life.queue with
    | none => rfl
    | some queue => exact congrArg some (List.append_assoc _ _ _)
  · exact step_map_queue _ haction life

theorem run_behind (changes : List FileChange) {turns : List (Host × Action σ)}
    (hturns : ∀ turn ∈ turns, ¬Looks turn.2) (life : Life σ) :
    run exec turns { life with queue := life.queue.map (changes ++ ·) } =
      (run exec turns life).map fun life =>
        { life with queue := life.queue.map (changes ++ ·) } := by
  induction turns generalizing life with
  | nil => rfl
  | cons turn turns ih =>
    rw [List.forall_mem_cons] at hturns
    simp only [run, Option.bind_eq_bind]
    rw [step_behind changes hturns.1, Option.bind_map, Option.map_bind]
    congr 1
    funext life₁
    exact ih hturns.2 life₁

theorem run_grows {turns : List (Host × Action σ)} (hturns : ∀ turn ∈ turns, ¬Looks turn.2)
    {changes : List FileChange} (hqueue : life.queue = some changes)
    (h : run exec turns life = some life') : ∃ more, life'.queue = some (changes ++ more) := by
  induction turns generalizing life changes with
  | nil =>
    obtain rfl := Option.some.inj h
    exact ⟨[], by rw [hqueue, List.append_nil]⟩
  | cons turn turns ih =>
    obtain ⟨life₁, hstep, h⟩ := Option.bind_eq_some_iff.mp h
    rw [List.forall_mem_cons] at hturns
    rcases send_or_not_queues hturns.1 with ⟨batch, hsend⟩ | haction
    · rw [hsend] at hstep
      obtain rfl := Option.some.inj hstep
      have hlonger : (life.queue.map (· ++ batch)) = some (changes ++ batch) := by rw [hqueue]; rfl
      obtain ⟨more, hmore⟩ := ih hturns.2 hlonger h
      exact ⟨batch ++ more, by rw [hmore, List.append_assoc]⟩
    · exact ih hturns.2 ((step_queue haction hstep).trans hqueue) h

theorem drain_again (life : Life σ) (host : Host) (changes batch between after : List FileChange) :
    drain host { life with queue := some (changes ++ (batch ++ (between ++ (batch ++ after)))) } =
      drain host { life with queue := some (changes ++ (between ++ (batch ++ after))) } := by
  have hagain : ∀ reg : ScriptRegistry,
      left (ScriptWatcher.applyPending host (batch ++ (between ++ (batch ++ after))) reg) =
        left (ScriptWatcher.applyPending host (between ++ (batch ++ after)) reg) := by
    intro reg
    have hregroup : batch ++ (between ++ (batch ++ after)) =
        batch ++ (between ++ batch) ++ after := by simp
    have hregroup' : between ++ (batch ++ after) = between ++ batch ++ after := by simp
    rw [hregroup, hregroup', left_applyPending_append, applyPending_again,
      ← left_applyPending_append]
  have hall : ∀ reg : ScriptRegistry,
      left (ScriptWatcher.applyPending host
          (changes ++ (batch ++ (between ++ (batch ++ after)))) reg) =
        left (ScriptWatcher.applyPending host (changes ++ (between ++ (batch ++ after))) reg) := by
    intro reg
    rw [left_applyPending_append, left_applyPending_append]
    exact congrArg _ (funext hagain)
  exact congrArg (Option.map _) (hall life.engine.registry)

/-- A batch that is sent again before the engine looks at the queue need not have been sent
before, whatever else is sent and done meanwhile. -/
theorem run_repeated (batch : List FileChange) (host host' host'' : Host) (event : FieldMap)
    {between after : List (Host × Action σ)} (hbetween : ∀ turn ∈ between, ¬Looks turn.2)
    (hafter : ∀ turn ∈ after, ¬Looks turn.2) (turns : List (Host × Action σ)) (life : Life σ) :
    run exec ((host, .send batch) ::
        (between ++ (host', .send batch) :: after ++ (host'', .dispatch event) :: turns)) life =
      run exec (between ++ (host', .send batch) :: after ++ (host'', .dispatch event) :: turns)
        life := by
  obtain ⟨engine, queue, world⟩ := life
  cases queue with
  | none => rfl
  | some changes =>
    have hquiet : ∀ turn ∈ between ++ (host', .send batch) :: after, ¬Looks turn.2 := by
      rw [List.forall_mem_append, List.forall_mem_cons]
      exact ⟨hbetween, id, hafter⟩
    have hbehind (queued : List FileChange) :
        run exec (between ++ (host', .send batch) :: after) ⟨engine, some queued, world⟩ =
          (run exec (between ++ (host', .send batch) :: after) ⟨engine, some [], world⟩).map
            fun life => { life with queue := life.queue.map (queued ++ ·) } := by
      rw [← run_behind queued hquiet, Option.map_some, List.append_nil]
    rw [run_append, hbehind, run, step, Option.bind_eq_bind, Option.bind_some, Option.map_some,
      run_append, hbehind]
    cases hrun : run exec (between ++ (host', .send batch) :: after) ⟨engine, some [], world⟩ with
    | none => rfl
    | some life =>
      -- The batch is queued in this part of the run, so that what is before it can be left out.
      rw [run_append] at hrun
      obtain ⟨middle, hmiddle, hrest⟩ := Option.bind_eq_some_iff.mp hrun
      obtain ⟨sent, hsent⟩ := run_grows hbetween rfl hmiddle
      have hlonger : middle.queue.map (· ++ batch) = some (sent ++ batch) := by rw [hsent]; rfl
      obtain ⟨more, hmore⟩ := run_grows hafter hlonger hrest
      simp only [Option.map_some, Option.bind_some, run, step, hmore, List.append_assoc]
      rw [drain_again]

end Life

namespace ScriptRegistry

variable {host : Host} {path : PathBuf} {xs : List Script}

def under (path : PathBuf) (scripts : List Script) : List Script :=
  scripts.filter fun s => s.sourcePath.same path

def current (host : Host) : FileChange → Option (List Script)
  | .createOrModify path =>
    match host.readToString path with
    | .ok text =>
      match Parser.parseLuaml path text with
      | .ok script => some [script]
      | _ => some []
    | _ => none
  | .remove _ => some []

theorem under_append (path : PathBuf) (xs ys : List Script) :
    under path (xs ++ ys) = under path xs ++ under path ys :=
  List.filter_append ..

theorem under_without (path : PathBuf) (xs : List Script) :
    under path ((without path).act xs) = [] := by
  simp [under, without, List.filter_filter]

theorem under_without_other {path' : PathBuf} (h : ¬path'.same path) :
    under path ((without path').act xs) = under path xs := by
  rw [without, Revision.keeping_act, under, List.filter_filter, under]
  apply List.filter_congr
  intro s _
  cases hs : s.sourcePath.same path with
  | false => rfl
  | true =>
    have hother : ¬s.sourcePath.same path' := by
      intro hs'
      simp only [PathBuf.same, beq_iff_eq] at hs hs' h
      exact h (hs'.symm.trans hs)
    simp [hother]

theorem under_changing {change : FileChange} {scripts : List Script}
    (h : current host change = some scripts) :
    under change.path ((changing host change).act xs) = scripts := by
  cases change with
  | remove path =>
    obtain rfl := Option.some.inj h
    exact under_without path xs
  | createOrModify path =>
    rw [current] at h
    rw [changing, FileChange.path]
    cases hread : host.readToString path with
    | err e | panic c => simp [hread] at h
    | ok text =>
      simp only [hread] at h ⊢
      rw [Revision.andThen_act]
      cases hparse : Parser.parseLuaml path text with
      | err e | panic c =>
        simp only [hparse, Option.some.injEq] at h
        rw [loading, Revision.nothing_act, under_without, h]
        all_goals simp
      | ok script =>
        simp only [hparse, Option.some.injEq] at h
        obtain ⟨_, _, _, _, haccepted⟩ := Parser.parseLuaml_eq_ok.mp hparse
        have hsame : under path [script] = [script] := by
          rw [under, List.filter_singleton, haccepted.sourcePath_eq]
          simp [PathBuf.same]
        rw [loading, Revision.adding_act, under_append, under_without, hsame, List.nil_append, h]

theorem under_changing_other {change : FileChange} (h : ¬change.path.same path) :
    under path ((changing host change).act xs) = under path xs := by
  cases change with
  | remove path' => exact under_without_other h
  | createOrModify path' =>
    have hpath : ¬path'.same path := h
    rw [changing]
    cases host.readToString path' with
    | err e | panic c => simp
    | ok text =>
      dsimp only
      rw [Revision.andThen_act]
      cases hparse : Parser.parseLuaml path' text with
      | err e | panic c =>
        rw [loading, Revision.nothing_act, under_without_other hpath]
        all_goals simp
      | ok script =>
        obtain ⟨_, _, _, _, haccepted⟩ := Parser.parseLuaml_eq_ok.mp hparse
        have hother : under path [script] = [] := by
          rw [under, List.filter_singleton, haccepted.sourcePath_eq]
          simp [hpath]
        rw [loading, Revision.adding_act, under_append, hother, List.append_nil,
          under_without_other hpath]

theorem under_changingAll_other {changes : List FileChange}
    (h : ∀ change ∈ changes, ¬change.path.same path) :
    under path ((changingAll host changes).act xs) = under path xs := by
  induction changes generalizing xs with
  | nil => simp [changingAll]
  | cons change changes ih =>
    rw [List.forall_mem_cons] at h
    rw [changingAll, Revision.andThen_act, ih h.2, under_changing_other h.1]

end ScriptRegistry

/-- After a dispatch, of a file that has changed and can be read, just what the file then says is
registered, and that once, whatever was registered under its path before. -/
theorem Life.dispatch_current {σ : Type} {exec : Exec σ} {host : Host} {life life' : Life σ}
    {event : FieldMap} {before after : List FileChange} {change : FileChange}
    {scripts : List Script} (h : step exec host life (.dispatch event) = some life')
    (hqueue : life.queue = some (before ++ change :: after))
    (hlast : ∀ later ∈ after, ¬later.path.same change.path)
    (hcurrent : current host change = some scripts) :
    under change.path life'.engine.registry.scripts = scripts := by
  rw [step_act h, revision, hqueue, Option.getD_some, changingAll_append, changingAll,
    Revision.andThen_act, under_changingAll_other hlast, under_changing hcurrent]

def edited : List (Host × Action Unit) :=
  [(ScriptWatcher.oneScript ScriptWatcher.plainText, .addRoot ⟨"d".toList⟩),
    (ScriptWatcher.oneScript ScriptWatcher.plainText, .watch (.ok ())),
    (ScriptWatcher.oneScript ScriptWatcher.strayText, .send ScriptWatcher.edit)]

theorem Life.run_reschedules_edited :
    Life.run quiet
        [(ScriptWatcher.oneScript ScriptWatcher.plainText, .watch (.ok ())),
          (ScriptWatcher.oneScript ScriptWatcher.strayText, .send ScriptWatcher.edit),
          (ScriptWatcher.oneScript ScriptWatcher.plainText, .addRoot ⟨"d".toList⟩)] (.start ()) =
      Life.run quiet
        [(ScriptWatcher.oneScript ScriptWatcher.plainText, .watch (.ok ())),
          (ScriptWatcher.oneScript ScriptWatcher.plainText, .addRoot ⟨"d".toList⟩),
          (ScriptWatcher.oneScript ScriptWatcher.strayText, .send ScriptWatcher.edit)]
        (.start ()) :=
  run_reschedules (.cons _ (.later _ _ _ [] id)) _

theorem Life.run_repeated_edited :
    Life.run quiet
        [(ScriptWatcher.oneScript ScriptWatcher.strayText, .send ScriptWatcher.edit),
          (ScriptWatcher.oneScript ScriptWatcher.plainText, .addRoot ⟨"d".toList⟩),
          (ScriptWatcher.oneScript ScriptWatcher.plainText, .send [.remove ⟨"c.luaml".toList⟩]),
          (ScriptWatcher.oneScript ScriptWatcher.strayText, .send ScriptWatcher.edit),
          (ScriptWatcher.oneScript ScriptWatcher.strayText, .dispatch [])] ⟨.new, some [], ()⟩ =
      Life.run quiet
        [(ScriptWatcher.oneScript ScriptWatcher.plainText, .addRoot ⟨"d".toList⟩),
          (ScriptWatcher.oneScript ScriptWatcher.plainText, .send [.remove ⟨"c.luaml".toList⟩]),
          (ScriptWatcher.oneScript ScriptWatcher.strayText, .send ScriptWatcher.edit),
          (ScriptWatcher.oneScript ScriptWatcher.strayText, .dispatch [])]
        ⟨.new, some [], ()⟩ := by
  have hbetween : ∀ turn ∈
      [((ScriptWatcher.oneScript ScriptWatcher.plainText, .addRoot ⟨"d".toList⟩) :
          Host × Action Unit),
        (ScriptWatcher.oneScript ScriptWatcher.plainText, .send [.remove ⟨"c.luaml".toList⟩])],
      ¬Life.Looks turn.2 := by
    rw [List.forall_mem_cons, List.forall_mem_singleton]
    exact ⟨id, id⟩
  exact Life.run_repeated _ _ _ _ _ hbetween (List.forall_mem_nil _) [] _

theorem Life.dispatch_current_edited :
    ∃ life life', Life.run quiet edited (.start ()) = some life ∧
      Life.step quiet (ScriptWatcher.oneScript ScriptWatcher.strayText) life (.dispatch []) =
        some life' ∧
      ∀ script, Parser.parseLuaml ⟨"d/b.luaml".toList⟩ ScriptWatcher.strayText = .ok script →
        under ⟨"d/b.luaml".toList⟩ life'.engine.registry.scripts = [script] := by
  have hqueue : (Life.run quiet edited (.start ())).bind Life.queue = some ScriptWatcher.edit := by
    decide +kernel
  have hstep : ((Life.run quiet edited (.start ())).bind fun life =>
      Life.step quiet (ScriptWatcher.oneScript ScriptWatcher.strayText) life
        (.dispatch [])).isSome := by
    decide +kernel
  obtain ⟨life, hlife, hqueue⟩ := Option.bind_eq_some_iff.mp hqueue
  rw [hlife, Option.bind_some] at hstep
  obtain ⟨life', hlife'⟩ := Option.isSome_iff_exists.mp hstep
  refine ⟨life, life', hlife, hlife', fun script hscript => ?_⟩
  have hread : (ScriptWatcher.oneScript ScriptWatcher.strayText).readToString
      ⟨"d/b.luaml".toList⟩ = .ok ScriptWatcher.strayText := by
    decide +kernel
  have hedit : life.queue = some ([] ++ .createOrModify ⟨"d/b.luaml".toList⟩ :: []) := hqueue
  exact Life.dispatch_current hlife' hedit (by simp) (by simp only [current, hread, hscript])

end Luaml
