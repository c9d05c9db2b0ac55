import Telemetry.Session.Progress

/-!
Running a session: up to its next record (`pull`), and to its end (`run`).
-/

namespace Telemetry.Session

variable {σ : Type} [Source σ]

/-- What a session did until it had something to return. -/
structure Pull (σ : Type) where
  /-- The next record in the order of emission; `none` at the end. -/
  outcome : Except Fault (Option Timed)
  /-- The records parsed meanwhile, in the order of the stream. -/
  observed : List Observation
  session : Session
  source : σ

/-- Steps on to the next record, or to the end, or to a failure, after which it can be called
again. -/
def pull (s : Session) (source : σ) : Pull σ :=
  match _h : s.step source with
  | (.error f, source') => ⟨.error f, [], s, source'⟩
  | (.ok (.emitted t, s'), source') => ⟨.ok (some t), [], s', source'⟩
  | (.ok (.over, s'), source') => ⟨.ok none, [], s', source'⟩
  | (.ok (.parsed o, s'), source') =>
    let rest := s'.pull source'
    { rest with observed := o :: rest.observed }
  | (.ok (.worked, s'), source') => s'.pull source'
termination_by s.potential source
decreasing_by all_goals exact potential_step _h (by simp)

/-- What a session did from some point to its end, or to its first failure. -/
structure Run (σ : Type) where
  /-- The records in the order of emission. -/
  emitted : Array Timed
  /-- The records in the order of the stream. -/
  observed : Array Observation
  fault : Option Fault
  session : Session
  source : σ

/-- Runs on after what has been emitted and observed. -/
def runAfter (emitted : Array Timed) (observed : Array Observation) (s : Session) (source : σ) :
    Run σ :=
  match _h : s.step source with
  | (.error f, source') => ⟨emitted, observed, some f, s, source'⟩
  | (.ok (.over, s'), source') => ⟨emitted, observed, none, s', source'⟩
  | (.ok (.emitted t, s'), source') => s'.runAfter (emitted.push t) observed source'
  | (.ok (.parsed o, s'), source') => s'.runAfter emitted (observed.push o) source'
  | (.ok (.worked, s'), source') => s'.runAfter emitted observed source'
termination_by s.potential source
decreasing_by all_goals exact potential_step _h (by simp)

def run (s : Session) (source : σ) : Run σ :=
  runAfter #[] #[] s source

end Telemetry.Session
