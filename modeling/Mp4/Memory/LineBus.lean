import Mp4.Memory.Address

/-!
Requests for whole lines, as they stand on the wires between the memory levels.
-/

set_option autoImplicit false
set_option relaxedAutoImplicit false

namespace Mp4.Memory.LineBus

open Mp4.Memory.Address

inductive Request
  | read (address : Word)
  | write (address : Word) (wdata : Line)
  deriving DecidableEq

/-- The request on a set of wires, a read taking precedence. -/
def request (read write : Bool) (address : Word) (wdata : Line) : Option Request :=
  if read then some (.read address) else if write then some (.write address wdata) else none

def Request.apply : Request → (LineAddr → Line) → LineAddr → Line
  | .read _, mem => mem
  | .write address wdata, mem => Function.update mem (lineAddr address) wdata

end Mp4.Memory.LineBus
