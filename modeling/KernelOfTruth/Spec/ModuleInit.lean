import KernelOfTruth.Code.ModuleInit

/-!
# What loading and running a module should do

Constructors run once and in order. Destructors run once, and only for a module whose constructors have failed.
-/

open KernelOfTruth.Code

namespace KernelOfTruth.Spec

/-! ## Calls -/

/-- The calls of the first `n` entries of an array. -/
def callsOf (array : Word) (n : Nat) : List EntryCall := (List.range n).map (EntryCall.mk array)

/-- The calls that are made for a module, where `answer` is what the last of some calls returns. -/
structure CallsRight (answer : List EntryCall → Status) (calls : List EntryCall) : Prop where
  init : ∃ n, calls.filter (·.array = DT_INIT_ARRAY) = callsOf DT_INIT_ARRAY n
  stops : ∀ earlier call later, calls = earlier ++ call :: later → call.array = DT_INIT_ARRAY →
    answer (earlier ++ [call]) ≠ .Ok → ∀ c ∈ later, c.array ≠ DT_INIT_ARRAY
  fini : (calls.filter (·.array = DT_FINI_ARRAY)).Nodup
  only : ∀ call ∈ calls, call.array = DT_FINI_ARRAY → ∃ earlier failed later, calls = earlier ++ failed :: later ∧
    failed.array = DT_INIT_ARRAY ∧ answer (earlier ++ [failed]) ≠ .Ok

section

variable (m : Memory) (module_start module_size : Word)

/-- The number of functions in an array of the image. There is none if the module is refused for it. -/
def entryCount (dt_array dt_array_size : Word) : Option Nat :=
  match (findFuncs module_start module_size dt_array dt_array_size).run m with
  | .ok (.ok (_, n), _) => some n
  | .ok (.error .Ok, _) => some 0
  | _ => none

def initCount : Option Nat := entryCount m module_start module_size DT_INIT_ARRAY DT_INIT_ARRAYSZ
def finiCount : Option Nat := entryCount m module_start module_size DT_FINI_ARRAY DT_FINI_ARRAYSZ

/-- There is no destructor to call, or all constructors return `Ok`. -/
def RunsOnce (answer : List EntryCall → Status) : Prop :=
  finiCount m module_start module_size = none ∨ finiCount m module_start module_size = some 0 ∨
    ∃ n, initCount m module_start module_size = some n ∧ ∀ k < n, answer (callsOf DT_INIT_ARRAY (k + 1)) = .Ok

end

end KernelOfTruth.Spec
