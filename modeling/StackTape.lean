import StackTape.Main
import StackTape.Proofs.Bytecode.Blocks
import StackTape.Proofs.Bytecode.Flow
import StackTape.Proofs.Bytecode.Labeler
import StackTape.Proofs.Bytecode.Source
import StackTape.Proofs.Compile.Inferred
import StackTape.Proofs.Compile.Routes
import StackTape.Proofs.Compile.Straight
import StackTape.Proofs.Compile.Wellformed
import StackTape.Proofs.Expansion.Conjunction
import StackTape.Proofs.Expansion.Halting
import StackTape.Proofs.Expansion.Rebased
import StackTape.Proofs.Expansion.Success
import StackTape.Proofs.Frame.Tiles
import StackTape.Proofs.Lowering.Cursor
import StackTape.Proofs.Lowering.Numbers
import StackTape.Proofs.Lowering.Regions
import StackTape.Proofs.Machine.Nesting
import StackTape.Proofs.Machine.Turns
import StackTape.Proofs.Machine.Loops
import StackTape.Proofs.Cbor.RoundTrip
import StackTape.Proofs.Machine.Watermark
import StackTape.Proofs.Image.RoundTrip
import StackTape.Proofs.Catalogue.Keys
import StackTape.Proofs.Files.Tree
import StackTape.Proofs.Loading.Cached
import StackTape.Proofs.Machine.Texts
import StackTape.Proofs.Machine.Memory
