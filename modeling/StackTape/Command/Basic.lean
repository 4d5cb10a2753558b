import StackTape.Command.Flag
import StackTape.Command.Prompt
import StackTape.Loading
import StackTape.Text.Size

/-!
# Commands

The command line of the compiler: `build` writes an image, `run` runs a program, `disasm` and `dump`
show one, and `cache` looks after the catalogue.  A command is an action on files that gives a
report; `Command.execute` reads the arguments, finds the manifest and makes the report an outcome.
-/

namespace StackTape

/-- Why a command fails. -/
inductive CommandError where
  | flag (e : FlagError)
  | load (e : LoadError)
  | file (e : FileError)
  | catalogue (e : CatalogueFault)
  | program (e : ProgramError)
  | unknownEof (name : Bytes)
  /-- The program touches more cells than the tape has. -/
  | tapeTooShort (path : Bytes) (extent capacity : Int64)
  /-- No tape is that large. -/
  | tapeTooLong
  | stopped (s : Stop)
  | unfinished
  | notBytecode (path : Bytes)
  | noCatalogue

/-- The message of a command that fails. -/
def CommandError.message : CommandError → Bytes
  | .flag e => e.message
  | .load e => e.message
  | .file e => e.message
  | .catalogue e => e.message
  | .program e => e.message
  | .unknownEof name => EofMode.unknownMessage name
  | .tapeTooShort path extent capacity =>
    path ++ Bytes.ascii " needs " ++ Decimal.ofWord extent ++ Bytes.ascii " cells, tape has " ++
      Decimal.ofWord capacity
  | .tapeTooLong => Bytes.ascii "no room for the tape"
  | .stopped s => s.message
  | .unfinished => Bytes.ascii "the program does not end"
  | .notBytecode path => path ++ Bytes.ascii ": dump needs bytecode input"
  | .noCatalogue => Bytes.ascii "build cache is disabled"

/-- The exit code of a command that fails. -/
def CommandError.exitCode : CommandError → Nat
  | .stopped .aborted => 130
  | _ => 1

/-- What a command writes, and whether it fails. -/
structure Report where
  /-- For standard output. -/
  out : Bytes := []
  /-- For standard error. -/
  notes : Bytes := []
  failure : Option CommandError := none

/-- A report of a failure only. -/
def Report.fail (e : CommandError) : Report := { failure := some e }

/-- What comes of a call of the program. -/
structure Outcome where
  exitCode : Nat := 0
  out : Bytes := []
  notes : Bytes := []
deriving DecidableEq, Repr

/-- What a call has besides its arguments. -/
structure Setting where
  /-- All of standard input. -/
  input : Bytes := []
  /-- A bound on the instructions that are run. -/
  fuel : Nat
  /-- What a listing shows as the age of a build: the catalogue keeps no times. -/
  age : Bytes

namespace Command

variable {m : Type → Type} [Monad m] [Files m]

/-- Reads the flags of a command and goes on; refused flags are reported with the usage. -/
def withFlags {σ : Type} (name : String) (flags : List (Flag σ)) (s : σ) (args : List Bytes)
    (k : σ → (path : Bytes) → m Report) : m Report :=
  match Flag.parse flags s args with
  | .ok (s, rest) => k s (rest.headD [])
  | .error e =>
    let usage := Bytes.line (Bytes.ascii "Usage of " ++ Bytes.ascii name ++ [0x3A]) ++
      flags.flatMap Flag.describe
    let head := if e = .help then [] else Bytes.line e.message
    return { notes := head ++ usage, failure := some (.flag e) }

/-- Loads a program and goes on. -/
def withProgram (manifest : Manifest) (path : Bytes) (useCache : Bool)
    (k : Loaded → m Report) : m Report := do
  match ← Loaded.load manifest path useCache with
  | .ok p => k p
  | .error e => return .fail (.load e)

/-! ### build -/

/-- The options of `build`. -/
structure BuildOptions where
  output : Bytes
  dump : Bool

/-- The flags of `build`. -/
def buildFlags (manifest : Manifest) : List (Flag BuildOptions) :=
  [.switch "dump" "Print the generated source tree" manifest.dump fun v o => { o with dump := v },
    .text "o" "Output image path" manifest.outputPath fun v o => { o with output := v }]

/-- The line about a build. -/
def buildLine (p : Loaded) (path : Bytes) (size : Nat) : Bytes :=
  Bytes.line ((if p.cached then Bytes.ascii "cached " else Bytes.ascii "built ") ++ path ++
    Bytes.ascii ": " ++ Size.text size ++ Bytes.ascii ", " ++
    Decimal.grouped p.image.code.length ++ Bytes.ascii " instructions, " ++
    Decimal.ofWord p.image.extent ++ Bytes.ascii " cells (" ++ p.image.id.take 12 ++ [0x29])

/-- Compiles a program and writes its image. -/
def build (manifest : Manifest) (args : List Bytes) : m Report :=
  withFlags "build" (buildFlags manifest) ⟨manifest.outputPath, manifest.dump⟩ args fun o path =>
    withProgram manifest path (!o.dump) fun p => do
      let tree := match p.output with
        | some output => if o.dump then Node.dumpAll 0 output.nodes else []
        | none => []
      let data := p.image.encode
      match ← Files.makeDirs (Path.parent o.output) with
      | .error e => return { out := tree, failure := some (.file e) }
      | .ok () =>
        match ← Files.writeFile o.output data with
        | .error e => return { out := tree, failure := some (.file e) }
        | .ok () => return { out := tree ++ buildLine p o.output data.length }

/-! ### run -/

/-- The options of `run`. -/
structure RunOptions where
  trace : Bool := false
  step : Bool := false
  capacity : Int64
  maxSteps : UInt64
  eof : Bytes

/-- The flags of `run`. -/
def runFlags (manifest : Manifest) : List (Flag RunOptions) :=
  [.integer "capacity" "Tape size in cells" manifest.capacity fun v o => { o with capacity := v },
    .text "eof" "Value stored on end of input: unchanged, zero or max" manifest.eof
      fun v o => { o with eof := v },
    .natural "max-steps" "Stop after this many instructions (0 = unlimited)" manifest.maxSteps
      fun v o => { o with maxSteps := v },
    .switch "step" "Pause after every instruction" false fun v o => { o with step := v },
    .switch "trace" "Dump machine state before every instruction" false
      fun v o => { o with trace := v }]

/-- The report of a run. -/
def runReport {σ : Type} (r : Option (Finished σ)) : Report :=
  match r with
  | none => .fail .unfinished
  | some f =>
    { out := f.machine.output.written.toList
      notes := f.machine.trace.toList
      failure := f.stop.map .stopped }

/-- Runs tape text on a new machine. -/
def runCode (setting : Setting) (o : RunOptions) (mode : EofMode) (code : Bytes) : Report :=
  match Machine.new? o.capacity { behind := setting.input } {} with
  | none => .fail .tapeTooLong
  | some machine =>
    let options : Options := { maxSteps := o.maxSteps, eof := mode, tracing := o.trace }
    if o.step then runReport (machine.run options Prompt.hook setting.fuel code {})
    else runReport (machine.run options Hook.silent setting.fuel code ())

/-- Runs a program. -/
def run (setting : Setting) (manifest : Manifest) (args : List Bytes) : m Report :=
  let standard : RunOptions :=
    { capacity := manifest.capacity, maxSteps := manifest.maxSteps, eof := manifest.eof }
  withFlags "run" (runFlags manifest) standard args fun o path =>
    match EofMode.ofName? o.eof with
    | none => return .fail (.unknownEof o.eof)
    | some mode =>
      withProgram manifest path true fun p =>
        if o.capacity < p.image.extent then
          return .fail (.tapeTooShort p.path p.image.extent o.capacity)
        else return runCode setting o mode p.image.code

/-! ### disasm and dump -/

/-- The bytecode of a program, with its blocks if it has control flow. -/
def bytecodeText (name : Bytes) (code : List Instr) : Except CommandError Bytes :=
  let head := Bytes.line (Bytes.ascii "; bytecode") ++ Source.format code
  if Instr.hasControl code then
    match Program.build code { stem := Output.labelStem } with
    | .error e => .error (.program e)
    | .ok p =>
      match p.listing name with
      | .error e => .error (.program e)
      | .ok listing => .ok (head ++ [Bytes.newline] ++ listing ++ [Bytes.newline])
  else .ok (head ++ [Bytes.newline])

/-- Numbers the lines of a list of operations. -/
def numbered : Nat → List Bytes → Bytes
  | _, [] => []
  | i, op :: rest =>
    Bytes.line (Decimal.padded 4 i ++ Bytes.ascii "  " ++ op) ++ numbered (i + 1) rest

/-- All that an image holds. -/
def imageText (img : Image) : Bytes :=
  let frame :=
    if img.frame.isEmpty then []
    else Bytes.line (Bytes.ascii "; frame " ++ Frame.text ⟨img.frame⟩)
  let extent :=
    if 0 < img.extent then
      Bytes.line (Bytes.ascii "; extent " ++ Decimal.ofWord img.extent ++ Bytes.ascii " cells")
    else []
  Bytes.line (Bytes.ascii "; image " ++ img.name ++ 0x20 :: img.id) ++ frame ++ extent ++
    numbered 0 img.ops ++
    Bytes.line (Bytes.ascii "; code (" ++ Decimal.grouped img.code.length ++
      Bytes.ascii " instructions)") ++ Bytes.line img.code

/-- Shows a program. -/
def disasm (manifest : Manifest) (args : List Bytes) : m Report :=
  withFlags "disasm" [] () args fun _ path =>
    withProgram manifest path false fun p =>
      if p.code.isEmpty then return { out := imageText p.image }
      else
        match bytecodeText p.image.name p.code with
        | .error e => return .fail e
        | .ok text => return { out := text ++ imageText p.image }

/-- Shows the expansion of a program. -/
def dump (manifest : Manifest) (args : List Bytes) : m Report :=
  withFlags "dump" [] () args fun _ path =>
    withProgram manifest path false fun p =>
      match p.output with
      | none => return .fail (.notBytecode p.path)
      | some o => return { out := Node.dumpAll 0 o.nodes }

/-! ### cache -/

/-- The flags of `cache`. -/
def cacheFlags : List (Flag Bool) :=
  [.switch "clear" "Remove every cached build" false fun v _ => v]

/-- The line about a build in the catalogue. -/
def catalogueLine (setting : Setting) (b : Build) : Bytes :=
  Bytes.line (Catalogue.shortKey b.key ++ Bytes.ascii "  " ++ b.name.padRight 20 ++ 0x20 ::
    (Size.text b.data.length).padLeft 8 ++ Bytes.ascii "  " ++ setting.age)

/-- Lists the catalogue, or clears it. -/
def cache (setting : Setting) (manifest : Manifest) (args : List Bytes) : m Report :=
  withFlags "cache" cacheFlags false args fun clear _ =>
    match manifest.cachePath? with
    | none => return .fail .noCatalogue
    | some path => do
      match ← Files.openCatalogue path with
      | .error e => return .fail (.catalogue e)
      | .ok c =>
        let count := Decimal.ofNat c.builds.length
        if clear then
          Files.saveCatalogue path {}
          return { out := Bytes.line (Bytes.ascii "removed " ++ count ++
            Bytes.ascii " builds from " ++ path) }
        else
          return { out := c.builds.flatMap (catalogueLine setting) ++
            Bytes.line (count ++ Bytes.ascii " builds, " ++ Size.text c.totalSize ++
              Bytes.ascii " in " ++ path) }

/-! ### The program -/

/-- A command: its name, its form, and what it does. -/
structure Spec (m : Type → Type) where
  name : Bytes
  form : Bytes
  run : Manifest → List Bytes → m Report

/-- All commands. -/
def all (setting : Setting) : List (Spec m) :=
  [⟨Bytes.ascii "build", Bytes.ascii "build [-o out.tape] [-dump] [file.tbc]", build⟩,
    ⟨Bytes.ascii "run",
      Bytes.ascii "run [-trace] [-step] [-capacity n] [-max-steps n] [-eof mode] [file]",
      run setting⟩,
    ⟨Bytes.ascii "disasm", Bytes.ascii "disasm [file]", disasm⟩,
    ⟨Bytes.ascii "dump", Bytes.ascii "dump [file.tbc]", dump⟩,
    ⟨Bytes.ascii "cache", Bytes.ascii "cache [-clear]", cache setting⟩]

/-- The options before the command. -/
structure MainOptions where
  dir : Bytes := Path.dot
  verbosity : Int64 := 0

/-- The flags before the command. -/
def mainFlags : List (Flag MainOptions) :=
  [.text "C" "Project directory" Path.dot fun v o => { o with dir := v },
    .integer "v" "Log verbosity (overrides the manifest when nonzero)" 0
      fun v o => { o with verbosity := v }]

/-- How the program is used. -/
def usage (commands : List (Spec m)) : Bytes :=
  Bytes.ascii "Usage: tapec [-C dir] [-v n] <command> [options] [file]\n\nCommands:\n" ++
    commands.flatMap (fun c => Bytes.line (Bytes.ascii "  tapec " ++ c.form)) ++
    Bytes.ascii "\nFiles ending in .tbc are bytecode text, .tape files are built images,\n" ++
    Bytes.ascii "anything else is run as raw tape code. Without a file the entry from\n" ++
    Manifest.fileName ++ Bytes.ascii " is used.\n\nOptions:\n" ++ mainFlags.flatMap Flag.describe

/-- The line about a failure. -/
def errorLine (message : Bytes) : Bytes := Bytes.line (Bytes.ascii "Error: " ++ message)

/-- The outcome of a report. -/
def Report.outcome (r : Report) : Outcome :=
  match r.failure with
  | none => ⟨0, r.out, r.notes⟩
  | some e => ⟨e.exitCode, r.out, r.notes ++ errorLine e.message⟩

/-- The verbosity at which nothing is logged. -/
def silent : Int64 := -4

/-- Opens the log, unless nothing is logged or it goes to standard error. -/
def openLog (manifest : Manifest) (o : MainOptions) : m (Except FileError Unit) :=
  let level := if o.verbosity = 0 then manifest.verbosity else o.verbosity
  match manifest.logPath? with
  | some path => if level ≤ silent then return .ok () else Files.touchFile path
  | none => return .ok ()

/-- Runs a command in a project. -/
def dispatch (commands : List (Spec m)) (manifest : Manifest) (name : Bytes) (args : List Bytes) :
    m Outcome := do
  match commands.find? (·.name = name) with
  | some c => return Report.outcome (← c.run manifest args)
  | none =>
    let head := Bytes.ascii "Unknown command " ++ Quoted.text name ++ Bytes.ascii "\n\n"
    return { exitCode := 2, notes := head ++ usage commands }

/-- The whole program on its arguments. -/
def execute (setting : Setting) (args : List Bytes) : m Outcome := do
  let commands := all setting
  match Flag.parse mainFlags {} args with
  | .error .help => return { exitCode := 0, notes := usage commands }
  | .error e => return { exitCode := 2, notes := Bytes.line e.message ++ usage commands }
  | .ok (_, []) => return { exitCode := 2, notes := usage commands }
  | .ok (o, name :: rest) =>
    match ← Manifest.find o.dir with
    | .error e => return { exitCode := 1, notes := errorLine e.message }
    | .ok found =>
      let manifest := found.getD (Manifest.standard o.dir)
      match ← openLog manifest o with
      | .error e =>
        return { exitCode := 1, notes := Bytes.line (Bytes.ascii "log file error: " ++ e.message) }
      | .ok () => dispatch commands manifest name rest

end Command

end StackTape
