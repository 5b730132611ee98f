import Calculator.Log

/-!
The record of a calculation: its steps, oldest first and counted from zero. A recorder is a trace
in the making; it also sends each step to the log as the step is recorded, and whether it echoes
decides only the level of those messages.
-/
namespace Calculator

structure Trace where
  steps : Array String
deriving DecidableEq, Repr

namespace Trace

def empty : Trace := ⟨#[]⟩

def size (t : Trace) : Nat := t.steps.size

def isEmpty (t : Trace) : Bool := t.steps.isEmpty

def frame (index : Nat) (step : String) : String := s!"[{index}] {step}"

def push (t : Trace) (step : String) : Trace := ⟨t.steps.push step⟩

def frames (t : Trace) : List String := t.steps.toList.mapIdx frame

def lastFrame? (t : Trace) : Option String := t.steps.back?.map (frame (t.size - 1))

def render (t : Trace) : String := String.join (t.frames.map fun line => line ++ "\n")

@[simp] theorem toList_push (t : Trace) (step : String) :
    (t.push step).steps.toList = t.steps.toList ++ [step] := by
  simp [push]

theorem frames_push (t : Trace) (step : String) :
    (t.push step).frames = t.frames ++ [frame t.size step] := by
  simp [frames, size, List.mapIdx_append]

end Trace

structure Recorder where
  trace : Trace
  echo : Bool
deriving DecidableEq, Repr

namespace Recorder

def new (echo : Bool) : Recorder := ⟨.empty, echo⟩

def clear (r : Recorder) : Recorder := { r with trace := .empty }

def level (r : Recorder) : Level := if r.echo then .debug else .trace

def record (r : Recorder) (step : String) : Logged Recorder := do
  Logged.send r.level (Trace.frame r.trace.size step)
  return { r with trace := r.trace.push step }

end Recorder

end Calculator
