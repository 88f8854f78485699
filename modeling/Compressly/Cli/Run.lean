/-
# `Compressly.Cli.Run` — a run of `compressor` on the files of a system

`c` and `d` of `main`, in memory and with `--stream`, and `t`.  A run changes the files
it is given (`Files`), which are regular ones; what the system does to it is a `System`:
which file a path names, which can be opened, which threads are created, when an output
stream is no longer good, and how much of the bytes it was offered is in the file once
the process is through with it, which no one asks.

    c            readFile, compress, then the output is opened
    c --stream   fileSize, then both are opened: an output that is the input is empty
                 by the time it is read
    d            as c, but with --stream nothing is read before the output is opened

What is printed to `stdout` is left out; that the size of the output is asked for is not,
since this can throw.
-/
import Compressly.Cli.Arguments
import Compressly.Codec.Pools

namespace Compressly.Cli

open Output ThreadPool

/-! ## Files -/

/-- What the files hold that there are. -/
abbrev Files := String → Option (List UInt8)

structure System where
  env : Environment
  spawn : Spawn
  /-- The file that a path names, which links and other spellings of the path name too. -/
  resolve : String → String
  readable : String → Bool
  writable : String → Bool
  good : Stream UInt8
  kept : List UInt8 → List UInt8
  kept_prefix : ∀ bytes, kept bytes <+: bytes

def cannotRead (path : String) : Stop :=
  .ofError (.runtimeError ("cannot open " ++ path ++ " for reading"))

def cannotWrite (path : String) : Stop :=
  .ofError (.runtimeError ("cannot open " ++ path ++ " for writing"))

section Functions
variable (sys : System)

/-- An `std::ifstream`, or `none` where it is not good. -/
def openRead (files : Files) (path : String) : Option (List UInt8) :=
  if sys.readable path then files (sys.resolve path) else none

/-- An `std::ofstream` has been opened: an output that can be written is empty then. -/
def openWrite (path : String) (files : Files) : Files :=
  if sys.writable path then Function.update files (sys.resolve path) (some []) else files

/-- The file, after these bytes were offered to it. -/
def close (path : String) (offered : List UInt8) (files : Files) : Files :=
  Function.update files (sys.resolve path) (some (sys.kept offered))

def readFile (files : Files) (path : String) : Ending (List UInt8) :=
  match openRead sys files path with
  | some data => pure data
  | none => throw (cannotRead path)

def fileSize (files : Files) (path : String) : Ending Nat :=
  match openRead sys files path with
  | some data => pure data.length
  | none => throw (cannotRead path)

def writeFile (path : String) (data : List UInt8) (files : Files) : Ending Unit × Files :=
  if sys.writable path then
    (if data = [] ∨ sys.good [] data then pure ()
      else throw (.ofError (.runtimeError ("write failed for " ++ path))),
      close sys path data (openWrite sys path files))
  else (throw (cannotWrite path), files)

/-- Both files are opened, and then `body` is run on what the input holds by now. -/
def withStreams (input output : String) (body : List UInt8 → Writing UInt8 Stop Unit)
    (files : Files) : Ending Unit × Files :=
  let opened := openWrite sys output files
  match openRead sys files input with
  | none => (throw (cannotRead input), opened)
  | some _ =>
      if sys.writable output then
        let (result, offered) := outcome (body ((opened (sys.resolve input)).getD [])) []
        (result, close sys output offered opened)
      else (throw (cannotWrite output), opened)

/-! ## The modes -/

def compressFile (p : Parsed) (input output : String) (files : Files) : Ending Unit × Files :=
  if p.streaming then
    match fileSize sys files input with
    | .error e => (throw e, files)
    | .ok size =>
        withStreams sys input output
          (fun data => compressStreamOn sys.spawn sys.good sys.env data size p.options) files
  else
    match readFile sys files input >>= fun data => compressOn sys.spawn sys.env data p.options with
    | .error e => (throw e, files)
    | .ok compressed => writeFile sys output compressed files

def decompressFile (p : Parsed) (input output : String) (files : Files) : Ending Unit × Files :=
  if p.streaming then
    withStreams sys input output (fun data => rethrow .ofError (decompressStreamTo sys.good data))
      files
  else
    match readFile sys files input >>= fun data => .ofResult (decompress data) with
    | .error e => (throw e, files)
    | .ok restored => writeFile sys output restored files

/-- The size of the output is printed in the end. -/
def thenSize (output : String) (ended : Ending Unit × Files) : Ending Nat × Files :=
  (ended.1 >>= fun _ => fileSize sys ended.2 output >>= fun _ => pure 0, ended.2)

def runTest (path : String) (options : Options) (files : Files) : Ending Nat := do
  let input ← readFile sys files path
  let compressed ← compressOn sys.spawn sys.env input options
  let restored ← Ending.ofResult (decompress compressed)
  let _ ← Ending.ofResult (methodOf compressed)
  pure (if restored = input then 0 else 1)

def usage : Ending Nat := pure 2

def isCompress (mode : String) : Prop := mode = "c" ∨ mode = "compress"

def isDecompress (mode : String) : Prop := mode = "d" ∨ mode = "decompress"

def isTest (mode : String) : Prop := mode = "t" ∨ mode = "test"

instance (mode : String) : Decidable (isCompress mode) := inferInstanceAs (Decidable (_ ∨ _))

instance (mode : String) : Decidable (isDecompress mode) := inferInstanceAs (Decidable (_ ∨ _))

instance (mode : String) : Decidable (isTest mode) := inferInstanceAs (Decidable (_ ∨ _))

def runMode (p : Parsed) (files : Files) : Ending Nat × Files :=
  match p.args with
  | [mode, input, output] =>
      if isCompress mode then thenSize sys output (compressFile sys p input output files)
      else if isDecompress mode then thenSize sys output (decompressFile sys p input output files)
      else (usage, files)
  | [mode, path] =>
      if isTest mode then (runTest sys path p.options files, files) else (usage, files)
  | _ => (usage, files)

/-- How the process ends. -/
inductive Exit where
  | returns (code : Nat)
  /-- `error: what` on `stderr`, and 1 is returned. -/
  | fails (what : String)
  /-- `std::terminate`. -/
  | aborts
  | hangs
  | fault
deriving DecidableEq

/-- The handler of `main`; `what()` of a `std::bad_alloc` is its name. -/
def exitOf : Ending Nat → Exit
  | .ok code => .returns code
  | .error (.exception (.standard what)) => .fails what
  | .error (.exception .badAlloc) => .fails "std::bad_alloc"
  | .error (.exception .other) => .aborts
  | .error .terminate => .aborts
  | .error .hang => .hangs
  | .error .fault => .fault

def main (argv : List String) (files : Files) : Exit × Files :=
  match parseArgs {} argv with
  | .error e => (exitOf (throw (.ofError e)), files)
  | .ok p => (exitOf (runMode sys p files).1, (runMode sys p files).2)

end Functions

end Compressly.Cli
