import VariOCL.LoopInserter.GlobalIdValues

/-! When the replacement of id calls keeps types and values: whatever the calls and their users are,
the sums and the induction variables are 32-bit values. -/

namespace VariOCL.IR.LoopInserter

open Sim

section
variable {Val : Type} [DecidableEq Val] {M : Machine Val} {num : Nat → Val}

end

/-! ### Three functions -/

end VariOCL.IR.LoopInserter
