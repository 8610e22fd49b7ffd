import SupplyGraph.Failure

/-!
Cancellation. Tokens watch a shared flag that anyone may set. A long operation polls now and then; what its
polls find is a `Cancellation`, fixed for a whole run, so that a run is a function of its input.
-/

namespace SupplyGraph

structure CancelToken where
  flag : Nat
deriving DecidableEq

/-- The shared flags, by number; flags beyond the end were never set. -/
structure CancelFlags where
  values : List Bool := []
deriving DecidableEq

namespace CancelFlags

def isSet (flags : CancelFlags) (flag : Nat) : Bool := flags.values.getD flag false

def newToken (flags : CancelFlags) : CancelToken × CancelFlags := (⟨flags.values.length⟩, ⟨flags.values ++ [false]⟩)

def set (flags : CancelFlags) (flag : Nat) (value : Bool) : CancelFlags := ⟨flags.values.set flag value⟩

def cancel (flags : CancelFlags) (token : CancelToken) : CancelFlags := flags.set token.flag true

def check (flags : CancelFlags) (token : CancelToken) : Outcome Unit :=
  if flags.isSet token.flag then .error .cancelled else .ok ()

end CancelFlags

/-- When a cancellation reaches a run: never, or once a number of polls have passed. -/
inductive Cancellation
  | never
  | after (polls : Nat)
deriving DecidableEq

namespace Cancellation

def already : Cancellation := .after 0

def ofFlag (cancelled : Bool) : Cancellation := if cancelled then already else never

end Cancellation

abbrev Polled (α : Type) := StateT Cancellation (Except Failure) α

namespace Polled

def poll : Polled Unit := fun
  | .never => .ok ((), .never)
  | .after 0 => .error .cancelled
  | .after (polls + 1) => .ok ((), .after polls)

def interval : Nat := 1024

def tick (steps : Nat) : Polled Unit := if (steps + 1) % interval = 0 then poll else pure ()

end Polled

end SupplyGraph
