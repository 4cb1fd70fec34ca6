import NaplesPU.Lib.StepRuns

/-!
Forward simulation between deterministic machines whose steps are observed. A step
writes events to a log; the steps of one machine are matched by runs of another that
write the same events among others that are not visible.
-/

namespace TraceSimulation

open StepRuns

section Logs

variable {State Event : Type*} (step : State → Option (List Event × State))

/-- The machine together with what it has written. -/
def logged (state : State × List Event) : Option (State × List Event) :=
  (step state.1).map fun result => (result.2, state.2 ++ result.1)

/-- Some run leads from one state to the other and writes the log. -/
def Runs (start final : State) (log : List Event) : Prop :=
  ∃ count, iterate (logged step) count (start, []) = some (final, log)

variable {step}

theorem iterate_logged (count : Nat) (state : State) (log : List Event) :
    iterate (logged step) count (state, log) =
      (iterate (logged step) count (state, [])).map fun final => (final.1, log ++ final.2) := by
  induction count generalizing state log with
  | zero => rw [iterate, iterate, Option.map_some, List.append_nil]
  | succ count induction =>
      rw [iterate, iterate, logged, logged]
      cases step state with
      | none => rfl
      | some result =>
          rw [Option.map_some, Option.bind_some, Option.map_some, Option.bind_some, induction,
            induction result.2 ([] ++ result.1), Option.map_map]
          congr 1
          funext final
          rw [Function.comp_apply, List.nil_append, List.append_assoc]

theorem runs_refl (state : State) : Runs step state state [] := ⟨0, rfl⟩

theorem runs_step {start next : State} {events : List Event}
    (stepped : step start = some (events, next)) : Runs step start next events := by
  refine ⟨1, ?_⟩
  rw [iterate_one, logged, stepped, Option.map_some, List.nil_append]

theorem runs_trans {start middle final : State} {before after : List Event}
    (first : Runs step start middle before) (second : Runs step middle final after) :
    Runs step start final (before ++ after) := by
  obtain ⟨count, run⟩ := first
  obtain ⟨more, rest⟩ := second
  have continued : iterate (logged step) more (middle, before) = some (final, before ++ after) := by
    rw [iterate_logged, rest, Option.map_some]
  exact ⟨count + more, iterate_trans run continued⟩

end Logs

section Simulation

variable {Source Target Event : Type*} (source : Source → Option (List Event × Source))
  (target : Target → Option (List Event × Target)) (visible : Event → Bool)
  (Related : Source → Target → Prop)

/-- Every step is matched by a run, and where one machine halts the other does. -/
structure Simulates : Prop where
  forward : ∀ state image events next, Related state image →
    source state = some (events, next) →
    ∃ final log, Runs target image final log ∧ log.filter visible = events ∧ Related next final
  halted : ∀ state image, Related state image → source state = none → target image = none

variable {source target visible Related}

theorem runs_simulated (simulates : Simulates source target visible Related) {state final : Source}
    {image : Target} {events : List Event} (related : Related state image)
    (run : Runs source state final events) :
    ∃ reached log, Runs target image reached log ∧ log.filter visible = events ∧
      Related final reached := by
  obtain ⟨count, run⟩ := run
  induction count generalizing state image events with
  | zero =>
      cases run
      exact ⟨image, [], runs_refl image, rfl, related⟩
  | succ count induction =>
      rw [iterate, Option.bind_eq_some_iff] at run
      obtain ⟨⟨next, first⟩, stepped, rest⟩ := run
      rw [logged, Option.map_eq_some_iff] at stepped
      obtain ⟨⟨written, other⟩, stepped, same⟩ := stepped
      rw [Prod.mk.injEq] at same
      obtain ⟨rfl, rfl⟩ := same
      rw [iterate_logged, Option.map_eq_some_iff] at rest
      obtain ⟨⟨last, later⟩, rest, same⟩ := rest
      rw [Prod.mk.injEq] at same
      obtain ⟨rfl, rfl⟩ := same
      obtain ⟨middle, log, before, shown, relatedNext⟩ :=
        simulates.forward state image written other related stepped
      obtain ⟨reached, more, after, shownLater, relatedFinal⟩ := induction relatedNext rest
      refine ⟨reached, log ++ more, runs_trans before after, ?_, relatedFinal⟩
      rw [List.filter_append, shown, shownLater, List.nil_append]

/-- Simulations compose, if the events that the first one shows are shown by the second. -/
theorem Simulates.trans {Middle : Type*} {middle : Middle → Option (List Event × Middle)}
    {coarse fine : Event → Bool} {First : Source → Middle → Prop} {Second : Middle → Target → Prop}
    (first : Simulates source middle coarse First) (second : Simulates middle target fine Second)
    (finer : ∀ event, coarse event = true → fine event = true) :
    Simulates source target coarse
      fun state image => ∃ between, First state between ∧ Second between image where
  forward state image events next related stepped := by
    obtain ⟨between, relatedFirst, relatedSecond⟩ := related
    obtain ⟨final, log, run, shown, relatedNext⟩ :=
      first.forward state between events next relatedFirst stepped
    obtain ⟨reached, whole, imageRun, shownSecond, relatedReached⟩ :=
      runs_simulated second relatedSecond run
    have absorbed (event : Event) : (coarse event && fine event) = coarse event := by
      cases seen : coarse event with
      | true => rw [finer event seen, Bool.and_self]
      | false => rfl
    refine ⟨reached, whole, imageRun, ?_, final, relatedNext, relatedReached⟩
    rw [← shown, ← shownSecond, List.filter_filter]
    exact (List.filter_congr fun event _ => absorbed event).symm
  halted state image related halted := by
    obtain ⟨between, relatedFirst, relatedSecond⟩ := related
    exact second.halted between image relatedSecond
      (first.halted state between relatedFirst halted)

end Simulation

end TraceSimulation
