import TreeText.Command.Help
import TreeText.Command.Run

/-!
# Calls

The program is called with a list of arguments. Either the arguments alone answer the call, before
anything is logged, or the command that they name runs. What a caller has asked for goes to the
standard output, and what is wrong with a call to the standard error output.

Results:
* `Refusal.out_outcome`: a refused call leaves the standard output empty, unless it asked for text.
-/

namespace TreeText

/-- The outcome of a call that its arguments answer. -/
def Refusal.outcome (r : Refusal) : Outcome :=
  if r.exitCode = 0 then ⟨0, r.text, ""⟩ else ⟨r.exitCode, "", r.text⟩

/-- The outcome of a call with the given arguments. -/
def Outcome.ofArguments (s : Surroundings) (arguments : List String) : Outcome :=
  match Invocation.ofArguments arguments with
  | .error r => r.outcome
  | .ok i => i.outcome s

theorem Refusal.out_outcome {r : Refusal} (h : r.outcome.exitCode ≠ 0) : r.outcome.out = "" := by
  unfold outcome at h ⊢
  split
  · rename_i hzero
    rw [if_pos hzero] at h
    exact absurd rfl h
  · rfl

end TreeText
