import Formula.CommandLine.Reader
import Formula.CommandLine.Run
import Formula.Json.Reader

/-! The program: evaluates the formulas given as arguments or on standard input. -/

namespace Formula.CommandLine

/-- Numbers in `[0, 1)`, by their index: the bits of a counter, mixed so that neighbours have unrelated ones, of which
the upper 53 are taken over `2 ^ 53`. -/
def uniform (seed : UInt64) (i : Nat) : Double :=
  let state := seed + 0x9E3779B97F4A7C15 * (i + 1).toUInt64
  let a := (state ^^^ (state >>> 30)) * 0xBF58476D1CE4E5B9
  let b := (a ^^^ (a >>> 27)) * 0x94D049BB133111EB
  .ofFloat (Binary.toFloat ⟨false, ((b ^^^ (b >>> 31)) >>> 11).toNat, -53⟩)

end Formula.CommandLine

open Formula Formula.CommandLine in
/-- Reads the arguments, and the input where no expression is among them, and prints what is shown. -/
def main (arguments : List String) : IO UInt32 := do
  match Options.read arguments with
  | .error (.misuse reason?) =>
    (← IO.getStderr).putStr (reason?.getD "")
    return 2
  | .error .help | .error .version => return 0
  | .ok options =>
    try
      let input ← if options.expressions.isEmpty then (← IO.getStdin).readToEnd else pure ""
      let seed ← IO.monoNanosNow
      let output := options.run .compact input (.start (uniform seed.toUInt64))
      IO.print output.standard
      (← IO.getStderr).putStr output.errors
      return output.code.toUInt32
    catch e =>
      (← IO.getStderr).putStr ("Failed to read standard input: " ++ toString e ++ "\n")
      return 1
